/-
Values made of parts.

A tuple and a struct are the slots of their components one after the other. So
each component is a run of slots within the run of the whole (`Part`), and
taking one out, replacing one and putting all together are told by where the
parts are, whichever of the two kinds it is. `Ty.Inside` says where a component
of a type is; no type is a component of itself.
-/
import Mathlib
import MirBackend.Proofs.Interp.Instr
import MirBackend.Proofs.Interp.Locality
import MirBackend.Proofs.Offsets

namespace MirBackend

-- =================================================================== types

/-- A component of a type, from a slot on. -/
structure Ty.Inside (t : Ty) (off : Int64) (u : Ty) : Prop where
  nonneg : 0 ≤ off.toInt
  le : off.toInt + u.width ≤ t.width
  ne : u ≠ t

namespace Ty

-- The parts of a type are smaller, which the recursions over flat types go down
-- on.
theorem sizeOf_lt_tuple {ts : List Ty} {u : Ty} (h : u ∈ ts) :
    sizeOf u < sizeOf (tuple ts) := by
  have := List.sizeOf_lt_of_mem h
  rw [tuple.sizeOf_spec]
  omega

theorem sizeOf_lt_struct {r : Record} {f : TyField} (h : f ∈ r.fields) :
    sizeOf f.type < sizeOf r.toTy := by
  have hmem := List.sizeOf_lt_of_mem h
  have hfield : sizeOf f.type < sizeOf f := by
    obtain ⟨name, offset, type⟩ := f
    rw [FieldOf.mk.sizeOf_spec]
    show sizeOf type < _
    omega
  rw [Record.toTy, struct.sizeOf_spec]
  omega

/-- An element of a tuple. -/
theorem inside_tuple {ts : List Ty} {i : Int} {off : Int64}
    (hw : (tuple ts).width < 2 ^ 63) (h : tupleOffset ts i = some off) :
    (tuple ts).Inside off (ts.getD i.toNat .missing) := by
  obtain ⟨u, hu, hget, rfl⟩ := tupleOffset_eq_some h
  rw [hget]
  rw [width] at hw
  have hstart := widthOfList_take_le ts i.toNat
  have hend := widthOfList_take_add hu
  have hle := widthOfList_take_le ts (i.toNat + 1)
  have hoff : (slotsOfList (ts.take i.toNat)).toInt
      = widthOfList (ts.take i.toNat) := by
    rw [slotsOfList_eq_ofNat, Int64.toInt_ofNat_of_lt (by omega)]
  refine ⟨by omega, ?_, fun heq => ?_⟩
  · rw [hoff, width]
    omega
  · have := sizeOf_lt_tuple (List.mem_of_getElem? hu)
    rw [heq] at this
    omega

/-- A field of a struct. -/
theorem inside_struct {r : Record} (hr : r.Placed) {name : String} {f : TyField}
    (hw : r.toTy.width < 2 ^ 63) (h : r.field? name = some f) :
    r.toTy.Inside f.offset f.type := by
  obtain ⟨j, hj⟩ := hr.fieldAt hw h
  have hoff := hj.offset
  refine ⟨by omega, hj.le, fun heq => ?_⟩
  have := sizeOf_lt_struct (List.mem_of_getElem? hj.here)
  rw [heq] at this
  omega

end Ty

namespace Interp

variable {xs ys zs : Slots} {k : Nat} {off : Int64} {v z : Value}

-- =================================================================== parts

/-- A run of slots has another in it, from a position on. -/
def Part (zs : Slots) (k : Nat) (ys : Slots) : Prop :=
  ∀ (i : Nat) y, ys[i]? = some y → zs[k + i]? = some y

/-- Every one of several runs is part of all of them side by side. -/
theorem part_flatten {xss : List Slots} {j : Nat} (h : xss[j]? = some ys) :
    Part xss.flatten (xss.take j).flatten.length ys := by
  intro i y hy
  induction xss generalizing j with
  | nil => simp at h
  | cons xs xss ih =>
      cases j with
      | zero =>
          cases h
          rw [List.take_zero, List.flatten_nil, List.length_nil, Nat.zero_add,
            List.flatten_cons,
            List.getElem?_append_left (List.getElem?_eq_some_iff.mp hy).1, hy]
      | succ j =>
          rw [List.take_succ_cons, List.flatten_cons, List.flatten_cons,
            List.length_append,
            Nat.add_assoc, List.getElem?_append_right (Nat.le_add_right _ _),
            Nat.add_sub_cancel_left, ih h]

/-- One part of a run is replaced. -/
structure Overlaid (xs : Slots) (k : Nat) (ys zs : Slots) : Prop where
  length : zs.length = xs.length
  here : Part zs k ys
  other : ∀ i, (i < k ∨ k + ys.length ≤ i) → zs[i]? = xs[i]?

/-- Overwriting slots of a value that has them. -/
theorem overlaid_of_overwrite (h : v.overwrite off ys = .ok z)
    (hoff : off.toInt = k) (hle : k + ys.length ≤ v.slots.length) :
    Overlaid v.slots k ys z.slots := by
  rw [Value.overwrite] at h
  split at h
  · cases h
    dsimp only
    rw [hoff, Int.toNat_natCast,
      List.take_of_length_le (by omega : ys.length ≤ _)]
    have hfirst : (v.slots.take k).length = k := by rw [List.length_take]; omega
    have hboth : (v.slots.take k ++ ys).length = k + ys.length := by
      rw [List.length_append, hfirst]
    refine ⟨?_, fun i y hy => ?_, fun i hi => ?_⟩
    · rw [List.length_append, hboth, List.length_drop]
      omega
    · have hlt := (List.getElem?_eq_some_iff.mp hy).1
      rw [List.getElem?_append_left (by omega),
        List.getElem?_append_right (by omega), hfirst,
        Nat.add_sub_cancel_left, hy]
    · rcases hi with hi | hi
      · rw [List.getElem?_append_left (by omega),
          List.getElem?_append_left (by omega), List.getElem?_take_of_lt hi]
      · rw [List.getElem?_append_right (by omega), hboth, List.getElem?_drop,
          Nat.add_sub_cancel' hi]
  · cases h

/-- What lies apart from the part that is replaced stays. -/
theorem Overlaid.keep {us : Slots} {j : Nat} (h : Overlaid xs k ys zs)
    (hpart : Part xs j us) (hapart : j + us.length ≤ k ∨ k + ys.length ≤ j) :
    Part zs j us := by
  intro i y hy
  have hlt := (List.getElem?_eq_some_iff.mp hy).1
  rw [h.other (j + i) (by omega)]
  exact hpart i y hy

-- ============================================================ instructions

variable {f : Func} {fr fr₁ : Frame} {w w₁ : Machine} {d : ValueId}

/-- The slots of values side by side are those of the values, one after the
other. -/
theorem slots_foldl_append (xs : List Value) (v : Value) :
    (xs.foldl (fun v x => v.append x.slots) v).slots
      = v.slots ++ (xs.map (·.slots)).flatten := by
  induction xs generalizing v with
  | nil => rw [List.foldl_nil, List.map_nil, List.flatten_nil, List.append_nil]
  | cons x xs ih =>
      rw [List.foldl_cons, ih, List.map_cons, List.flatten_cons,
        ← List.append_assoc]
      rfl

/-- What a tuple is made of: the slots of its operands, one after the other. -/
theorem exec_makeTuple_ok {es : List Operand} {ts : List Ty}
    (h : exec ⟨[]⟩ refuse f fr (.makeTuple d es ts) w = .ok fr₁ w₁) :
    ∃ xs z, es.mapM (look fr) = some xs ∧ z.slots = (xs.map (·.slots)).flatten
      ∧ fr₁ = fr.insert d z := by
  simp only [exec, bind_ok_iff, mapM_eval_ok_iff, pure_ok_iff] at h
  obtain ⟨xs, _, ⟨hxs, -⟩, rfl, -⟩ := h
  exact ⟨xs, _, hxs, slots_foldl_append xs default, rfl⟩

/-- Taking an element out of a tuple. -/
theorem exec_extractTuple_ok {o : Operand} {i : Int} {t : Ty} {ts : List Ty}
    (ht : f.operandType o = .tuple ts)
    (h : exec ⟨[]⟩ refuse f fr (.extractTuple d o i t) w = .ok fr₁ w₁) :
    ∃ x off z, look fr o = some x ∧ Ty.tupleOffset ts i = some off
      ∧ x.part off (ts.getD i.toNat .missing).slots = .ok z
      ∧ fr₁ = fr.insert d z := by
  simp only [exec, ht, bind_ok_iff, eval_ok_iff] at h
  obtain ⟨x, _, ⟨hx, -⟩, h⟩ := h
  cases hoff : Ty.tupleOffset ts i with
  | none =>
      simp only [hoff] at h
      exact absurd h failWith_ne_ok
  | some off =>
      simp only [hoff, bind_ok_iff, sure_ok_iff, pure_ok_iff] at h
      obtain ⟨z, _, ⟨hz, -⟩, rfl, -⟩ := h
      exact ⟨x, off, z, hx, rfl, hz, rfl⟩

/-- Taking a field out of a struct. -/
theorem exec_extractField_ok {o : Operand} {name : String} {t : Ty} {r : Record}
    (hr : f.operandType o = r.toTy)
    (h : exec ⟨[]⟩ refuse f fr (.extractField d o name t) w = .ok fr₁ w₁) :
    ∃ x fld z, look fr o = some x ∧ r.field? name = some fld
      ∧ x.part fld.offset fld.type.slots = .ok z ∧ fr₁ = fr.insert d z := by
  have hrecord : (f.operandType o).asRecord = some r := by rw [hr]; rfl
  simp only [exec, hrecord, bind_ok_iff, eval_ok_iff] at h
  obtain ⟨x, _, ⟨hx, -⟩, h⟩ := h
  cases hfield : r.field? name with
  | none =>
      simp only [hfield] at h
      exact absurd h failWith_ne_ok
  | some fld =>
      simp only [hfield, bind_ok_iff, sure_ok_iff, pure_ok_iff] at h
      obtain ⟨z, _, ⟨hz, -⟩, rfl, -⟩ := h
      exact ⟨x, fld, z, hx, rfl, hz, rfl⟩

/-- Replacing an element of a tuple. -/
theorem exec_insertTuple_ok {agg o : Operand} {i : Int} {ts : List Ty}
    (h : exec ⟨[]⟩ refuse f fr (.insertTuple d agg i o ts) w = .ok fr₁ w₁) :
    ∃ x y off z, look fr agg = some x ∧ look fr o = some y
        ∧ Ty.tupleOffset ts i = some off
      ∧ (Value.copyOf x.slots).overwrite off y.slots = .ok z
      ∧ fr₁ = fr.insert d z := by
  simp only [exec, bind_ok_iff, eval_ok_iff] at h
  obtain ⟨x, _, ⟨hx, rfl⟩, y, _, ⟨hy, rfl⟩, h⟩ := h
  cases hoff : Ty.tupleOffset ts i with
  | none =>
      rw [hoff] at h
      exact absurd h failWith_ne_ok
  | some off =>
      simp only [hoff, bind_ok_iff, sure_ok_iff, pure_ok_iff] at h
      obtain ⟨z, _, ⟨hz, -⟩, rfl, -⟩ := h
      exact ⟨x, y, off, z, hx, hy, rfl, hz, rfl⟩

/-- Replacing a field of a struct. -/
theorem exec_insertField_ok {agg o : Operand} {name : String} {r : Record}
    (h : exec ⟨[]⟩ refuse f fr (.insertField d agg name o r) w = .ok fr₁ w₁) :
    ∃ x y fld z, look fr agg = some x ∧ look fr o = some y
        ∧ r.field? name = some fld
      ∧ (Value.copyOf x.slots).overwrite fld.offset y.slots = .ok z
      ∧ fr₁ = fr.insert d z := by
  simp only [exec, bind_ok_iff, eval_ok_iff] at h
  obtain ⟨x, _, ⟨hx, rfl⟩, y, _, ⟨hy, rfl⟩, h⟩ := h
  cases hfield : r.field? name with
  | none =>
      rw [hfield] at h
      exact absurd h failWith_ne_ok
  | some fld =>
      simp only [hfield, bind_ok_iff, sure_ok_iff, pure_ok_iff] at h
      obtain ⟨z, _, ⟨hz, -⟩, rfl, -⟩ := h
      exact ⟨x, y, fld, z, hx, hy, rfl, hz, rfl⟩

-- ================================================================= structs

/-- Two fields of a struct lie apart. -/
theorem field_apart {r : Record} (hr : r.Placed)
    (hw : r.toTy.width < 2 ^ 63) {a b : String} {fa fb : TyField}
    (ha : r.field? a = some fa) (hb : r.field? b = some fb) (hne : a ≠ b) :
    fa.offset.toInt + fa.type.width ≤ fb.offset.toInt
      ∨ fb.offset.toInt + fb.type.width ≤ fa.offset.toInt := by
  obtain ⟨i, hi⟩ := hr.fieldAt hw ha
  obtain ⟨j, hj⟩ := hr.fieldAt hw hb
  rcases Nat.lt_trichotomy i j with hlt | rfl | hlt
  · exact Or.inl (hi.apart hj hlt)
  · have hsame : fa = fb := Option.some.inj (hi.here.symm.trans hj.here)
    exact absurd
      (hi.name.symm.trans ((congrArg FieldOf.name hsame).trans hj.name)) hne
  · exact Or.inr (hj.apart hi hlt)

/-- Each field of a struct is given once. -/
structure GivesAll (r : Record) (fs : List (String × Operand)) : Prop where
  once : (fs.map (·.1)).Nodup
  names : (fs.map (·.1)).Perm (r.fields.map (·.name))

/-- Every slot of a struct of which all fields are given is in one of them. -/
theorem GivesAll.covers {r : Record} {fs : List (String × Operand)}
    (h : GivesAll r fs) (hr : r.Placed) (hw : r.toTy.width < 2 ^ 63) {i : Nat}
    (hi : i < r.toTy.width) :
    ∃ p ∈ fs, ∃ fld, r.field? p.1 = some fld ∧ fld.offset.toInt ≤ i
      ∧ i < fld.offset.toInt + fld.type.width := by
  have hmake :
      r = Record.make r.name (r.fields.map fun f => (f.name, f.type)) := by
    obtain ⟨name, fields⟩ := r
    exact congrArg (Record.mk name) hr
  have htiles :=
    Record.tiles_make r.name (r.fields.map fun f =>
      (f.name, f.type)) (hmake ▸ hw)
  rw [← hmake, Ty.toInt_slots _ hw] at htiles
  obtain ⟨range, hrange, hlo, hhi⟩ :=
    htiles.filled i (Int.natCast_nonneg _) (by omega)
  obtain ⟨fld, hfld, rfl⟩ := List.mem_map.mp hrange
  have hnames : (r.fields.map (·.name)).Nodup := h.names.nodup_iff.mp h.once
  have hfield : r.field? fld.name = some fld := by
    cases hfind : r.field? fld.name with
    | none =>
        have := List.find?_eq_none.mp hfind fld hfld
        simp at this
    | some fld' =>
        have hname : fld'.name = fld.name := by
          simpa using List.find?_some hfind
        rw [List.inj_on_of_nodup_map hnames
          (List.mem_of_find?_eq_some hfind) hfld hname]
  obtain ⟨p, hp, hname⟩ :=
    List.mem_map.mp
      (h.names.mem_iff.mpr (List.mem_map_of_mem (f := (·.name)) hfld))
  obtain ⟨j, hj⟩ := hr.fieldAt hw hfield
  have hle := hj.le
  have hpos := hj.offset
  have hwidth := fld.type.toInt_slots (by omega)
  exact ⟨p, hp, fld, by rw [hname]; exact hfield,
    hlo, by rw [← hwidth]; exact hhi⟩

/-- Fields that are put one after the other are all there in the end, and what
lies apart from them is as it was. -/
theorem putFields_ok {r : Record} (hr : r.Placed) (hw : r.toTy.width < 2 ^ 63)
    {fs : List (String × Operand)} (honce : (fs.map (·.1)).Nodup)
    (hfits : ∀ p ∈ fs, ∀ fld y, r.field? p.1 = some fld → look fr p.2 = some y →
      y.slots.length = fld.type.width) (hlen : v.slots.length = r.toTy.width)
    (h : putFields fr r fs v w = .ok z w₁) :
    z.slots.length = r.toTy.width
      ∧ (∀ p ∈ fs, ∃ fld y, r.field? p.1 = some fld ∧ look fr p.2 = some y
        ∧ Part z.slots fld.offset.toInt.toNat y.slots)
      ∧ ∀ name fld us, r.field? name = some fld → name ∉ fs.map (·.1) →
        us.length = fld.type.width → Part v.slots fld.offset.toInt.toNat us →
        Part z.slots fld.offset.toInt.toNat us := by
  induction fs generalizing v w with
  | nil =>
      cases h
      exact ⟨hlen, by simp, fun _ _ _ _ _ _ hpart => hpart⟩
  | cons p fs ih =>
      obtain ⟨name, o⟩ := p
      rw [List.map_cons, List.nodup_cons] at honce
      rw [putFields] at h
      cases hfield : r.field? name with
      | none =>
          rw [hfield] at h
          exact absurd h failWith_ne_ok
      | some fld =>
          simp only [hfield, bind_ok_iff, eval_ok_iff, sure_ok_iff] at h
          obtain ⟨y, _, ⟨hy, rfl⟩, v', _, ⟨hv', rfl⟩, h⟩ := h
          have hwidth := hfits _ List.mem_cons_self fld y hfield hy
          have hin := Ty.inside_struct hr hw hfield
          have hpos := hin.nonneg
          have hle := hin.le
          have hover := overlaid_of_overwrite (k := fld.offset.toInt.toNat) hv'
            (by omega) (by omega)
          -- another field is apart from this one
          have hapart {other : String} {fld' : TyField}
              (hfield' : r.field? other = some fld')
              (hne : other ≠ name) : fld'.offset.toInt.toNat + fld'.type.width
                ≤ fld.offset.toInt.toNat
              ∨ fld.offset.toInt.toNat + y.slots.length
              ≤ fld'.offset.toInt.toNat := by
            have := field_apart hr hw hfield' hfield hne
            have := (Ty.inside_struct hr hw hfield').nonneg
            omega
          obtain ⟨hlen', hgiven, hother⟩ := ih honce.2
            (fun p hp => hfits p (List.mem_cons_of_mem _ hp))
            (by rw [hover.length, hlen]) h
          refine ⟨hlen', fun p hp => ?_,
            fun other fld' us hfield' hnot hus hpart => ?_⟩
          · rcases List.mem_cons.mp hp with rfl | hp
            · exact ⟨fld, y, hfield, hy,
                hother name fld y.slots hfield honce.1 hwidth hover.here⟩
            · exact hgiven p hp
          · rw [List.map_cons, List.mem_cons, not_or] at hnot
            exact hother other fld' us hfield' hnot.2 hus
              (hover.keep hpart (by rw [hus]; exact hapart hfield' hnot.1))

/-- What a record is made of: a value of zeros, and then field after field
written over it. -/
theorem exec_makeStruct_ok {fs : List (String × Operand)} {r : Record}
    (h : exec ⟨[]⟩ refuse f fr (.makeStruct d fs r) w = .ok fr₁ w₁) :
    ∃ z w', putFields fr r fs ⟨List.replicate r.toTy.slots.toInt.toNat 0, 0⟩ w
        = .ok z w'
      ∧ fr₁ = fr.insert d z := by
  simp only [exec, bind_ok_iff, pure_ok_iff] at h
  obtain ⟨z, w', hz, rfl, -⟩ := h
  exact ⟨z, w', hz, rfl⟩

end Interp

end MirBackend
