/-
What loads and stores of values without arrays touch.

A value of a *flat* type, one without arrays, lies in as many words as it has
slots. A load or store of it checks every word it touches: it succeeds only
where all of them are in the memory, it reads and writes only them, and at
another place with the same words it does the same (`load_moved`,
`store_moved`). Address arithmetic wraps, but a sum that wraps leaves the
memory, and the check of some word fails.
-/
import Mathlib
import MirBackend.Proofs.Interp.Exec
import MirBackend.Proofs.Outcome
import MirBackend.Proofs.Ty

namespace MirBackend

-- ============================================================== flat types

namespace Ty

/-- The types that lie side by side in a tuple or a struct. -/
def parts : Ty → Option (List Ty)
  | .tuple ts => some ts
  | .struct _ fs => some (fs.map (·.type))
  | _ => none

/-- A type that holds no array. What a pointer points to is not held. -/
inductive Flat : Ty → Prop where
  | scalar {t : Ty} (whole : t.parts = none) (noArray : ∀ u n, t ≠ .array u n) :
      Flat t
  | row {t : Ty} {ts : List Ty} (parts : t.parts = some ts)
    (flat : ∀ u ∈ ts, Flat u) : Flat t

-- The fields of a record in memory are its types in a row.
theorem sizeOfFields_eq (fs : List TyField) :
    sizeOfFields fs = sizeOfList (fs.map (·.type)) := by
  induction fs with
  | nil => simp [sizeOfFields, sizeOfList]
  | cons f fs ih => rw [List.map_cons, sizeOfFields, sizeOfList, ih]

theorem widthOfFields_eq (fs : List TyField) :
    widthOfFields fs = widthOfList (fs.map (·.type)) := by
  induction fs with
  | nil => simp [widthOfFields, widthOfList]
  | cons f fs ih => rw [List.map_cons, widthOfFields, widthOfList, ih]

theorem size_of_parts {t : Ty} {ts : List Ty} (h : t.parts = some ts) :
    t.size = sizeOfList ts := by
  cases t with
  | tuple us => cases h; rw [size]
  | struct n fs => cases h; rw [size, sizeOfFields_eq]
  | _ => cases h

theorem width_of_parts {t : Ty} {ts : List Ty} (h : t.parts = some ts) :
    t.width = widthOfList ts := by
  cases t with
  | tuple us => cases h; rw [width]
  | struct n fs => cases h; rw [width, widthOfFields_eq]
  | _ => cases h

/-- A value of a flat type takes as many words as slots, counted without
wrapping. -/
theorem Flat.size_eq {t : Ty} (ht : t.Flat) {n : Int64} (h : t.size = some n) :
    n = Int64.ofNat t.width := by
  induction ht generalizing n with
  | @scalar t whole noArray =>
      cases t with
      | missing => rw [size] at h; cases h
      | tuple | struct => cases whole
      | array u k => exact absurd rfl (noArray u k)
      | _ => rw [size] at h; cases h; rw [width]; rfl
  | @row t ts hparts hflat ih =>
      rw [size_of_parts hparts] at h
      rw [width_of_parts hparts]
      clear hparts hflat
      induction ts generalizing n with
      | nil => rw [sizeOfList] at h; cases h; rw [widthOfList]; rfl
      | cons u us ihus =>
          rw [sizeOfList] at h
          obtain ⟨k, hk, h⟩ := Option.bind_eq_some_iff.mp h
          obtain ⟨l, hl, h⟩ := Option.bind_eq_some_iff.mp h
          cases h
          rw [widthOfList, ih u List.mem_cons_self hk,
            ihus (fun v hv => ih v (List.mem_cons_of_mem _ hv)) hl,
              Int64.ofNat_add]

/-- A flat type that is no larger than another takes no more words. -/
theorem Flat.width_le {t : Ty} (ht : t.Flat) {n k : Int64}
    (hn : t.size = some n) (hwidth : t.width < 2 ^ 63) (hle : n ≤ k) :
    t.width ≤ k.toInt.toNat := by
  rw [ht.size_eq hn, Int64.le_iff_toInt_le,
    Int64.toInt_ofNat_of_lt hwidth] at hle
  omega

/-- A scalar takes two words at most. -/
theorem width_le_two {t : Ty} (h : t.parts = none) : t.width ≤ 2 := by
  cases t with
  | tuple | struct => cases h
  | _ => simp [width]

end Ty

namespace Interp.Memory

-- ==================================================================== words

/-- A word after one is set. -/
theorem get_set (m : Memory) (a b : Nat) (x : Int64) :
    (m.set a x).get b = if a = b then x else m.get b := by
  rw [get, set, get, Std.ExtTreeMap.getD_insert]
  simp only [Std.compare_eq_iff_eq]

/-- A write changes no word before or behind what is written. -/
theorem get_write_of_outside {m : Memory} {a b : Nat} {xs : Slots}
    (h : b < a ∨ a + xs.length ≤ b) : (m.write a xs).get b = m.get b := by
  induction xs generalizing m a with
  | nil => rfl
  | cons x xs ih =>
      rw [List.length_cons] at h
      rw [write, ih (by omega), get_set, if_neg (by omega)]

/-- A write makes the words what is written. -/
theorem get_write_of_inside {m : Memory} {a i : Nat} {xs : Slots}
    (h : i < xs.length) : (m.write a xs).get (a + i) = xs[i] := by
  induction xs generalizing m a i with
  | nil => cases h
  | cons x xs ih =>
      rw [write]
      cases i with
      | zero =>
          rw [get_write_of_outside (by omega), get_set,
            if_pos (Nat.add_zero a).symm]
          rfl
      | succ i =>
          rw [show a + (i + 1) = a + 1 + i by omega,
            ih (Nat.lt_of_succ_lt_succ h)]
          rfl

/-- Writing changes neither the size of memory nor the room left in it. -/
@[simp] theorem size_write (m : Memory) (a : Nat) (xs : Slots) :
    (m.write a xs).size = m.size := by
  induction xs generalizing m a with
  | nil => rfl
  | cons x xs ih => rw [write, ih]; rfl

@[simp] theorem room_write (m : Memory) (a : Nat) (xs : Slots) :
    (m.write a xs).room = m.room := by
  induction xs generalizing m a with
  | nil => rfl
  | cons x xs ih => rw [write, ih]; rfl

-- ================================================================== bounds

/-- A memory within its bounds. -/
structure Bounded (m : Memory) : Prop where
  limit : m.size ≤ maxWords
  stored : m.size ≤ m.room

/-- Addresses are far below the bounds of 64 bits. -/
theorem toInt_ofNat {a : Nat} (h : a ≤ maxWords + 2) :
    (Int64.ofNat a).toInt = a :=
  Int64.toInt_ofNat_of_lt (by unfold maxWords at h; omega)

variable {m m' m₁ : Memory} {a a' : Nat} {t : Ty} {ts : List Ty} {v acc : Value}

/-- When an access to a value of a flat type passes the check of its bounds. -/
theorem extent_eq_ok (hm : m.Bounded) (ha : a ≤ maxWords) (ht : t.Flat)
    {e : RunError} {n : Int64} :
    m.extent (Int64.ofNat a) t e = .ok n
      ↔ 0 < a ∧ t.size = some n
      ∧ (Int64.ofNat (a + t.width)).toInt ≤ m.size := by
  have hpos : Int64.ofNat a ≤ 0 ↔ a = 0 := by
    rw [Int64.le_iff_toInt_le, toInt_ofNat (by omega)]
    simp
  have hsize : (Int64.ofNat m.size).toInt = m.size :=
    toInt_ofNat (by have := hm.limit; omega)
  unfold extent
  rw [Nat.pos_iff_ne_zero, ne_eq, ← hpos]
  by_cases h : Int64.ofNat a ≤ 0
  · simp [h]
  rw [if_neg h]
  cases hk : t.size with
  | none => simp [liftChecked, h, bind, Except.bind]
  | some k =>
      rw [ht.size_eq hk]
      have hgt : Int64.ofNat (a + t.width) > Int64.ofNat m.size
          ↔ ¬ (Int64.ofNat (a + t.width)).toInt ≤ m.size := by
        rw [gt_iff_lt, Int64.lt_iff_toInt_lt, hsize]
        omega
      simp only [orFault_some, liftChecked, ok_bind, ← Int64.ofNat_add, hgt]
      split <;> rename_i hle
      · refine iff_of_false (fun h => ?_) fun h => hle h.2.2
        cases h
      · rw [not_not] at hle
        simp only [h, hle, pure, Except.pure, Except.ok.injEq,
          Option.some.injEq, not_false_eq_true, and_true, true_and]

/-- The words of a scalar, if there is storage for them. -/
theorem range_eq_ok {w : Nat} (ha : a ≤ maxWords) (hw : w ≤ 2) (x : Nat × Nat) :
    m.range (Int64.ofNat a) (Int64.ofNat (a + w)) = .ok x ↔ a + w ≤ m.room
        ∧ x = (a, w) := by
  have h₁ : (Int64.ofNat a).toInt = a := toInt_ofNat (by omega)
  have h₂ : (Int64.ofNat (a + w)).toInt = (a + w : Nat) :=
    toInt_ofNat (by omega)
  have h0 : (0 : Int64).toInt = 0 := rfl
  unfold range
  simp only [Int64.le_iff_toInt_le, h₁, h₂, h0]
  by_cases h : a + w ≤ m.room
  · rw [if_pos (by omega)]
    simp [h, eq_comm, Prod.ext_iff]
  · rw [if_neg (by omega)]
    simp [h]

-- ================================================================= loading

/-- A type of one word is loaded as that word, behind the check of its extent.
-/
theorem load_scalar (hwhole : t.parts = none) (hno : ∀ u n, t ≠ .array u n)
    (m : Memory) (a : Int64) :
    m.load a t = (m.extent a t (.loadBounds a t) >>= fun n =>
      liftChecked (m.range a (a + n)) >>= fun x => pure
        (Value.copyOf (m.read x.1 x.2))) := by
  cases t with
  | tuple | struct => cases hwhole
  | array u n => exact absurd rfl (hno u n)
  | _ => rw [load]

/-- Loading the fields of a record is loading their types in a row. -/
theorem loadFields_eq (m : Memory) (fs : List TyField)
    (a : Int64) (acc : Value) :
    m.loadFields fs a acc = m.loadList (fs.map (·.type)) a acc := by
  induction fs generalizing a acc with
  | nil => rw [List.map_nil, loadFields, loadList]
  | cons f fs ih => simp only [List.map_cons, loadFields, loadList, ih]

/-- A type with parts is loaded as they are, after one check of its whole
extent. -/
theorem load_row (hparts : t.parts = some ts) (m : Memory) (a : Int64) :
    m.load a t = (m.extent a t (.loadBounds a t)
        >>= fun _ => m.loadList ts a default) := by
  cases t with
  | tuple us => cases hparts; rw [load]
  | struct n fs =>
      cases hparts
      rw [load]
      simp only [loadFields_eq]
  | _ => cases hparts

-- Successes pass through the wrappers.
theorem liftChecked_eq_ok {ε α : Type} {x : Checked α} {y : α} :
    (liftChecked x : Except (Stop ε) α) = .ok y ↔ x = .ok y := by
  cases x <;> simp [liftChecked]

theorem orFault_eq_ok {α : Type} {x : Option α} {y : α} :
    orFault x = .ok y ↔ x = some y := by
  cases x <;> simp [orFault]

/-- A scalar is loaded where all its words are in the memory. -/
theorem load_scalar_eq_ok (hm : m.Bounded) (ha : a ≤ maxWords)
    (hwhole : t.parts = none) (hno : ∀ u n, t ≠ .array u n) :
    m.load (Int64.ofNat a) t = .ok v ↔ 0 < a ∧ t.size.isSome = true
        ∧ a + t.width ≤ m.size
      ∧ v = Value.copyOf (m.read a t.width) := by
  have ht : t.Flat := .scalar hwhole hno
  have hw := Ty.width_le_two hwhole
  have hsum : (Int64.ofNat (a + t.width)).toInt = (a + t.width : Nat) :=
    toInt_ofNat (by omega)
  simp only [load_scalar hwhole hno, bind_eq_ok, extent_eq_ok hm ha ht,
    liftChecked_eq_ok, hsum]
  constructor
  · rintro ⟨n, ⟨hpos, hn, hle⟩, x, hx, hv⟩
    rw [ht.size_eq hn, ← Int64.ofNat_add, range_eq_ok ha hw] at hx
    obtain ⟨-, rfl⟩ := hx
    cases hv
    exact ⟨hpos, by rw [hn]; rfl, by omega, rfl⟩
  · rintro ⟨hpos, hn, hle, rfl⟩
    obtain ⟨n, hn⟩ := Option.isSome_iff_exists.mp hn
    refine ⟨n, ⟨hpos, hn, by omega⟩, (a, t.width), ?_, rfl⟩
    rw [ht.size_eq hn, ← Int64.ofNat_add, range_eq_ok ha hw]
    exact ⟨by have := hm.stored; omega, rfl⟩

/-- When a type with parts is loaded, and what is loaded for it. -/
theorem load_row_eq_ok (hm : m.Bounded) (ha : a ≤ maxWords) (ht : t.Flat)
    (hparts : t.parts = some ts) :
    m.load (Int64.ofNat a) t = .ok v ↔ (0 < a ∧ t.size.isSome = true
      ∧ (Int64.ofNat (a + t.width)).toInt ≤ m.size)
      ∧ m.loadList ts (Int64.ofNat a) default = .ok v := by
  simp only [load_row hparts, bind_eq_ok, extent_eq_ok hm ha ht,
    Option.isSome_iff_exists]
  constructor
  · rintro ⟨n, ⟨hpos, hn, hle⟩, h⟩
    exact ⟨⟨hpos, ⟨n, hn⟩, hle⟩, h⟩
  · rintro ⟨⟨hpos, ⟨n, hn⟩, hle⟩, h⟩
    exact ⟨n, ⟨hpos, hn, hle⟩, h⟩

/-- The first type of a row is loaded at its address, the others behind it. -/
theorem loadList_cons_eq_ok {u : Ty} (hu : u.Flat) :
    m.loadList (u :: ts) (Int64.ofNat a) acc = .ok v ↔ ∃ x, m.load
      (Int64.ofNat a) u = .ok x
      ∧ u.size.isSome = true ∧ m.loadList ts (Int64.ofNat (a + u.width))
      (acc.append x.slots) = .ok v := by
  rw [loadList]
  simp only [bind_eq_ok, liftChecked_eq_ok, orFault_eq_ok,
    Option.isSome_iff_exists]
  constructor
  · rintro ⟨x, hx, n, hn, h⟩
    rw [hu.size_eq hn, ← Int64.ofNat_add] at h
    exact ⟨x, hx, ⟨n, hn⟩, h⟩
  · rintro ⟨x, hx, ⟨n, hn⟩, h⟩
    rw [Int64.ofNat_add, ← hu.size_eq hn] at h
    exact ⟨x, hx, n, hn, h⟩

/-- Where a value without arrays is loaded, all its words are in the memory. -/
theorem load_bounds (ht : t.Flat) (hm : m.Bounded) (ha : a ≤ maxWords)
    (h : m.load (Int64.ofNat a) t = .ok v) :
    t.size.isSome = true ∧ 0 < a ∧ a + t.width ≤ m.size := by
  induction ht generalizing a v with
  | @scalar t hwhole hno =>
      obtain ⟨hpos, hsize, hle, -⟩ := (load_scalar_eq_ok hm ha hwhole hno).mp h
      exact ⟨hsize, hpos, hle⟩
  | @row t ts hparts hflat ih =>
      obtain ⟨⟨hpos, hsize, hle⟩, hlist⟩ :=
        (load_row_eq_ok hm ha (.row hparts hflat) hparts).mp h
      -- each component lies in the memory, so the next address does not wrap
      have hall : ∀ us : List Ty, us ⊆ ts →
          ∀ (b : Nat) (x y : Value), b ≤ maxWords →
          m.loadList us (Int64.ofNat b) x = .ok y →
          Ty.widthOfList us = 0 ∨ b + Ty.widthOfList us ≤ m.size := by
        intro us
        induction us with
        | nil => exact fun _ _ _ _ _ _ => Or.inl (by rw [Ty.widthOfList])
        | cons u us ihus =>
            intro hsub b x y hb hl
            obtain ⟨hu, hus⟩ := List.cons_subset.mp hsub
            obtain ⟨z, hz, -, hrest⟩ := (loadList_cons_eq_ok (hflat u hu)).mp hl
            have hfirst := (ih u hu hb hz).2.2
            have hlimit := hm.limit
            have hothers := ihus hus (b + u.width) _ _ (by omega) hrest
            rw [Ty.widthOfList]
            omega
      have hwidth := Ty.width_of_parts hparts
      refine ⟨hsize, hpos, ?_⟩
      rcases hall ts (List.Subset.refl _) a _ _ ha hlist with hzero | hin
      · rw [hwidth, hzero, Nat.add_zero, toInt_ofNat (by omega)] at hle
        omega
      · omega

/-- A value without arrays is loaded from other words that are the same as it
was from these. -/
theorem load_moved (ht : t.Flat) (hm : m.Bounded) (hm' : m'.Bounded)
    (ha : a ≤ maxWords) (h : m.load (Int64.ofNat a) t = .ok v) (hpos : 0 < a')
    (hin : a' + t.width ≤ m'.size)
    (hsame : ∀ i < t.width, m'.get (a' + i) = m.get (a + i)) :
    m'.load (Int64.ofNat a') t = .ok v := by
  have hlimit := hm.limit
  have hlimit' := hm'.limit
  induction ht generalizing a a' v with
  | @scalar t hwhole hno =>
      obtain ⟨-, hsize, -, rfl⟩ := (load_scalar_eq_ok hm ha hwhole hno).mp h
      refine (load_scalar_eq_ok hm' (by omega) hwhole hno).mpr
        ⟨hpos, hsize, hin, ?_⟩
      have hread : m.read a t.width = m'.read a' t.width :=
        List.map_congr_left fun i hi => (hsame i (List.mem_range.mp hi)).symm
      rw [hread]
  | @row t ts hparts hflat ih =>
      have ht : t.Flat := .row hparts hflat
      obtain ⟨⟨-, hsize, -⟩, hlist⟩ := (load_row_eq_ok hm ha ht hparts).mp h
      refine (load_row_eq_ok hm' (by omega) ht hparts).mpr
        ⟨⟨hpos, hsize, ?_⟩, ?_⟩
      · rw [toInt_ofNat (by omega)]
        omega
      rw [Ty.width_of_parts hparts] at hin hsame
      have hall : ∀ us : List Ty, us ⊆ ts →
          ∀ (b b' : Nat) (x y : Value), b ≤ maxWords → 0 < b' →
          b' + Ty.widthOfList us ≤ m'.size →
          (∀ i < Ty.widthOfList us, m'.get (b' + i) = m.get (b + i)) →
          m.loadList us (Int64.ofNat b) x = .ok y →
            m'.loadList us (Int64.ofNat b') x = .ok y := by
        intro us
        induction us with
        | nil =>
            intro _ b b' x y _ _ _ _ hl
            rw [loadList] at hl ⊢
            exact hl
        | cons u us ihus =>
            intro hsub b b' x y hb hpos' hin' hsame' hl
            rw [Ty.widthOfList] at hin' hsame'
            obtain ⟨hu, hus⟩ := List.cons_subset.mp hsub
            obtain ⟨z, hz, hsized, hrest⟩ :=
              (loadList_cons_eq_ok (hflat u hu)).mp hl
            have hfirst := (load_bounds (hflat u hu) hm hb hz).2.2
            refine (loadList_cons_eq_ok (hflat u hu)).mpr ⟨z, ?_, hsized, ?_⟩
            · exact ih u hu hb hz hpos' (by omega) fun i hi =>
                hsame' i (by omega)
            · refine ihus hus (b + u.width) (b' + u.width) _ _ (by omega)
                (by omega) (by omega)
                (fun i hi => ?_) hrest
              rw [Nat.add_assoc, Nat.add_assoc]
              exact hsame' _ (by omega)
      exact hall ts (List.Subset.refl _) a a' _ _ ha hpos hin hsame hlist

-- ================================================================= storing

-- The same for storing.
theorem answer_ok_iff {α : Type} {x : Access α} {y : α} :
    answer x m = .ok y m₁ ↔ x = .ok y ∧ m₁ = m := by
  cases x with
  | ok z =>
      constructor
      · intro h
        cases h
        exact ⟨rfl, rfl⟩
      · rintro ⟨h, rfl⟩
        cases h
        rfl
  | error e =>
      constructor
      · intro h
        cases h
      · rintro ⟨h, -⟩
        cases h

theorem sure_ok_iff {α : Type} {x : Checked α} {y : α} :
    Memory.sure x m = .ok y m₁ ↔ x = .ok y ∧ m₁ = m := by
  rw [Memory.sure, answer_ok_iff, liftChecked_eq_ok]

/-- Storing the fields of a record is storing their types in a row. -/
theorem storeFields_eq (a : Int64) (fs : List TyField) (v : Value) :
    storeFields a fs v = storeList a (fs.map (·.type)) v := by
  induction fs generalizing a v with
  | nil => rw [List.map_nil, storeFields, storeList]
  | cons f fs ih => simp only [List.map_cons, storeFields, storeList, ih]

/-- A type of one word is stored as that word, behind the check of its extent.
-/
theorem store_scalar (hwhole : t.parts = none)
    (hno : ∀ u n, t ≠ .array u n) (a : Int64) (v : Value) :
    store a t v = (EStateM.get >>= fun m =>
      answer (m.extent a t (.storeBounds a t)) >>= fun n =>
        Memory.sure (m.range a (a + n)) >>= fun x =>
          EStateM.set (m.write x.1 (v.slots.take x.2))) := by
  cases t with
  | tuple | struct => cases hwhole
  | array u n => exact absurd rfl (hno u n)
  | _ => rw [store]

/-- A type with parts is stored as they are, after one check of its whole
extent. -/
theorem store_row (hparts : t.parts = some ts) (a : Int64) (v : Value) :
    store a t v = (EStateM.get >>= fun m =>
      answer (m.extent a t (.storeBounds a t))
          >>= fun _ => storeList a ts v) := by
  cases t with
  | tuple us => cases hparts; rw [store]
  | struct n fs =>
      cases hparts
      rw [store]
      simp only [storeFields_eq]
  | _ => cases hparts

/-- A scalar is stored where all its words are in the memory. -/
theorem store_scalar_ok_iff (hm : m.Bounded) (ha : a ≤ maxWords)
    (hwhole : t.parts = none) (hno : ∀ u n, t ≠ .array u n) :
    store (Int64.ofNat a) t v m = .ok () m₁ ↔ 0 < a ∧ t.size.isSome = true
        ∧ a + t.width ≤ m.size
      ∧ m₁ = m.write a (v.slots.take t.width) := by
  have ht : t.Flat := .scalar hwhole hno
  have hw := Ty.width_le_two hwhole
  have hsum : (Int64.ofNat (a + t.width)).toInt = (a + t.width : Nat) :=
    toInt_ofNat (by omega)
  simp only [store_scalar hwhole hno, bind_ok_iff, answer_ok_iff, sure_ok_iff]
  constructor
  · rintro ⟨_, _, hget, n, _, ⟨hext, rfl⟩, x, _, ⟨hx, rfl⟩, hset⟩
    cases hget
    obtain ⟨hpos, hn, hle⟩ := (extent_eq_ok hm ha ht).mp hext
    rw [hsum] at hle
    rw [ht.size_eq hn, ← Int64.ofNat_add, range_eq_ok ha hw] at hx
    obtain ⟨-, rfl⟩ := hx
    cases hset
    exact ⟨hpos, by rw [hn]; rfl, by omega, rfl⟩
  · rintro ⟨hpos, hn, hle, rfl⟩
    obtain ⟨n, hn⟩ := Option.isSome_iff_exists.mp hn
    refine ⟨m, m, rfl, n, m,
      ⟨(extent_eq_ok hm ha ht).mpr ⟨hpos, hn, by omega⟩, rfl⟩,
      (a, t.width), m, ⟨?_, rfl⟩, rfl⟩
    rw [ht.size_eq hn, ← Int64.ofNat_add, range_eq_ok ha hw]
    exact ⟨by have := hm.stored; omega, rfl⟩

/-- When a type with parts is stored. -/
theorem store_row_ok_iff (hm : m.Bounded) (ha : a ≤ maxWords) (ht : t.Flat)
    (hparts : t.parts = some ts) :
    store (Int64.ofNat a) t v m = .ok () m₁ ↔ (0 < a ∧ t.size.isSome = true
      ∧ (Int64.ofNat (a + t.width)).toInt ≤ m.size)
      ∧ storeList (Int64.ofNat a) ts v m = .ok () m₁ := by
  simp only [store_row hparts, bind_ok_iff, answer_ok_iff,
    Option.isSome_iff_exists]
  constructor
  · rintro ⟨_, _, hget, n, _, ⟨hext, rfl⟩, h⟩
    cases hget
    obtain ⟨hpos, hn, hle⟩ := (extent_eq_ok hm ha ht).mp hext
    exact ⟨⟨hpos, ⟨n, hn⟩, hle⟩, h⟩
  · rintro ⟨⟨hpos, ⟨n, hn⟩, hle⟩, h⟩
    exact ⟨m, m, rfl, n, m,
      ⟨(extent_eq_ok hm ha ht).mpr ⟨hpos, hn, hle⟩, rfl⟩, h⟩

/-- The first type of a row is stored at its address, the others behind it. -/
theorem storeList_cons_ok_iff {u : Ty} (hu : u.Flat) :
    storeList (Int64.ofNat a) (u :: ts) v m = .ok () m₁
        ↔ ∃ x m₂ rest, v.first u.slots = .ok x
      ∧ store (Int64.ofNat a) u x m = .ok () m₂ ∧ v.rest u.slots = .ok rest
      ∧ u.size.isSome = true
      ∧ storeList (Int64.ofNat (a + u.width)) ts rest m₂ = .ok () m₁ := by
  rw [storeList]
  simp only [bind_ok_iff, sure_ok_iff, orFault_eq_ok, Option.isSome_iff_exists]
  constructor
  · rintro ⟨x, _, ⟨hx, rfl⟩, _, m₂, hstored, rest, _, ⟨hrest, rfl⟩,
      n, _, ⟨hn, rfl⟩, h⟩
    rw [hu.size_eq hn, ← Int64.ofNat_add] at h
    exact ⟨x, _, rest, hx, hstored, hrest, ⟨n, hn⟩, h⟩
  · rintro ⟨x, m₂, rest, hx, hm₂, hrest, ⟨n, hn⟩, h⟩
    rw [Int64.ofNat_add, ← hu.size_eq hn] at h
    exact ⟨x, m, ⟨hx, rfl⟩, (), m₂, hm₂, rest, m₂, ⟨hrest, rfl⟩,
      n, m₂, ⟨hn, rfl⟩, h⟩

/-- A memory after words from `a` to `a + n` were written. -/
structure Written (m : Memory) (a n : Nat) (m₁ : Memory) : Prop where
  size : m₁.size = m.size
  room : m₁.room = m.room
  outside : ∀ b, b < a ∨ a + n ≤ b → m₁.get b = m.get b

/-- A memory is one with nothing written to it. -/
theorem Written.refl (m : Memory) (a n : Nat) : Written m a n m :=
  ⟨rfl, rfl, fun _ _ => rfl⟩

/-- Two ranges next to each other are written as one. -/
theorem Written.append {m₂ : Memory} {n k : Nat} (h : Written m a n m₁)
    (h' : Written m₁ (a + n) k m₂) : Written m a (n + k) m₂ := by
  refine ⟨h'.size.trans h.size, h'.room.trans h.room, fun b hb => ?_⟩
  rw [h'.outside b (by omega), h.outside b (by omega)]

/-- No word is added by writing. -/
theorem Written.bounded {n : Nat} (h : Written m a n m₁)
    (hm : m.Bounded) : m₁.Bounded :=
  ⟨h.size ▸ hm.limit, by rw [h.size, h.room]; exact hm.stored⟩

/-- A store keeps to the words of its type. -/
def StoresWithin (t : Ty) : Prop :=
  ∀ ⦃m m₁ : Memory⦄ ⦃a : Nat⦄ ⦃v : Value⦄, m.Bounded → a ≤ maxWords →
    store (Int64.ofNat a) t v m = .ok () m₁ →
    (t.size.isSome = true ∧ 0 < a ∧ a + t.width ≤ m.size)
    ∧ Written m a t.width m₁

/-- A row of values is stored within its words when each of them is. -/
theorem storeList_bounds (hflat : ∀ u ∈ ts, u.Flat)
    (hwithin : ∀ u ∈ ts, StoresWithin u) (hm : m.Bounded) (ha : a ≤ maxWords)
    (h : storeList (Int64.ofNat a) ts v m = .ok () m₁) :
    (Ty.widthOfList ts = 0 ∨ a + Ty.widthOfList ts ≤ m.size)
      ∧ Written m a (Ty.widthOfList ts) m₁ := by
  induction ts generalizing a v m with
  | nil =>
      rw [storeList] at h
      cases h
      exact ⟨Or.inl (by rw [Ty.widthOfList]), .refl _ _ _⟩
  | cons u us ih =>
      have hu := List.mem_cons_self (a := u) (l := us)
      obtain ⟨y, m₂, rest, -, hm₂, -, -, hrest⟩ :=
        (storeList_cons_ok_iff (hflat u hu)).mp h
      obtain ⟨⟨-, -, hfirst⟩, hwrote⟩ := hwithin u hu hm ha hm₂
      have hlimit := hm.limit
      obtain ⟨hothers, hwrote'⟩ :=
        ih (fun w hw => hflat w (List.mem_cons_of_mem _ hw))
        (fun w hw => hwithin w (List.mem_cons_of_mem _ hw))
        (hwrote.bounded hm) (by omega) hrest
      rw [hwrote.size] at hothers
      rw [Ty.widthOfList]
      exact ⟨by omega, hwrote.append hwrote'⟩

/-- Where a value without arrays is stored, all its words are in the memory, and
only they are written. -/
theorem store_bounds (ht : t.Flat) : StoresWithin t := by
  induction ht with
  | @scalar t hwhole hno =>
      intro m m₁ a v hm ha h
      obtain ⟨hpos, hsize, hle, rfl⟩ :=
        (store_scalar_ok_iff hm ha hwhole hno).mp h
      refine ⟨⟨hsize, hpos, hle⟩, size_write _ _ _,
        room_write _ _ _, fun b hb => ?_⟩
      have hlen := List.length_take_le t.width v.slots
      exact get_write_of_outside (by omega)
  | @row t ts hparts hflat ih =>
      intro m m₁ a v hm ha h
      obtain ⟨⟨hpos, hsize, hle⟩, hlist⟩ :=
        (store_row_ok_iff hm ha (.row hparts hflat) hparts).mp h
      obtain ⟨hin, hwrote⟩ := storeList_bounds hflat ih hm ha hlist
      rw [Ty.width_of_parts hparts] at hle ⊢
      refine ⟨⟨hsize, hpos, ?_⟩, hwrote⟩
      rcases hin with hzero | hin
      · rw [hzero, Nat.add_zero, toInt_ofNat (by omega)] at hle
        omega
      · exact hin

/-- A value without arrays is stored to other words as it was to these; words
that were the same stay so. -/
theorem store_moved (ht : t.Flat) (hm : m.Bounded) (hm' : m'.Bounded)
    (ha : a ≤ maxWords) (h : store (Int64.ofNat a) t v m = .ok () m₁)
    (hpos : 0 < a') (hin : a' + t.width ≤ m'.size) :
    ∃ m₁', store (Int64.ofNat a') t v m' = .ok () m₁'
      ∧ ∀ i < t.width, m'.get (a' + i) = m.get (a + i) → m₁'.get
      (a' + i) = m₁.get (a + i) := by
  induction ht generalizing a a' v m m' m₁ with
  | @scalar t hwhole hno =>
      have hlimit' := hm'.limit
      obtain ⟨-, hsize, -, rfl⟩ := (store_scalar_ok_iff hm ha hwhole hno).mp h
      refine ⟨_, (store_scalar_ok_iff hm' (by omega) hwhole hno).mpr
        ⟨hpos, hsize, hin, rfl⟩, fun i hi hsame => ?_⟩
      by_cases hlen : i < (v.slots.take t.width).length
      · rw [get_write_of_inside hlen, get_write_of_inside hlen]
      · rw [get_write_of_outside (by omega),
          get_write_of_outside (by omega), hsame]
  | @row t ts hparts hflat ih =>
      have ht : t.Flat := .row hparts hflat
      obtain ⟨⟨-, hsize, -⟩, hlist⟩ := (store_row_ok_iff hm ha ht hparts).mp h
      have hrow : (Int64.ofNat (a' + t.width)).toInt ≤ m'.size := by
        rw [toInt_ofNat (by have := hm'.limit; omega)]
        omega
      rw [Ty.width_of_parts hparts] at hin ⊢
      -- the parts one after the other, each at the same distance on both sides
      have hall : ∀ us : List Ty, us ⊆ ts →
          ∀ (b b' : Nat) (x : Value) (m m' m₁ : Memory),
          m.Bounded → m'.Bounded → b ≤ maxWords → 0 < b' →
            b' + Ty.widthOfList us ≤ m'.size →
          storeList (Int64.ofNat b) us x m = .ok () m₁ →
          ∃ m₁', storeList (Int64.ofNat b') us x m' = .ok () m₁'
            ∧ ∀ i, m'.get (b' + i) = m.get (b + i) →
              i < Ty.widthOfList us → m₁'.get (b' + i) = m₁.get (b + i) := by
        intro us
        induction us with
        | nil =>
            intro _ b b' x m m' m₁ _ _ _ _ _ hl
            rw [storeList] at hl ⊢
            cases hl
            exact ⟨m', rfl, fun i hi _ => hi⟩
        | cons u us ihus =>
            intro hsub b b' x m m' m₁ hm hm' hb hpos' hin' hl
            have hlimit := hm.limit
            have hlimit' := hm'.limit
            rw [Ty.widthOfList] at hin' ⊢
            obtain ⟨hu, hus⟩ := List.cons_subset.mp hsub
            obtain ⟨y, m₂, rest, hy, hm₂, hrest, hsized, hl⟩ :=
              (storeList_cons_ok_iff (hflat u hu)).mp hl
            obtain ⟨⟨-, -, hfirst⟩, hwrote⟩ :=
              store_bounds (hflat u hu) hm hb hm₂
            obtain ⟨m₂', hm₂', hsame⟩ := ih u hu hm hm' hb hm₂ hpos' (by omega)
            obtain ⟨-, hwrote'⟩ := store_bounds (hflat u hu) hm' (by omega) hm₂'
            obtain ⟨m₁', hm₁', hsame'⟩ :=
              ihus hus (b + u.width) (b' + u.width) rest m₂ m₂' m₁
              (hwrote.bounded hm) (hwrote'.bounded hm') (by omega) (by omega)
              (by rw [hwrote'.size]; omega) hl
            refine ⟨m₁', (storeList_cons_ok_iff (hflat u hu)).mpr
              ⟨y, m₂', rest, hy, hm₂', hrest, hsized, hm₁'⟩, fun i hi hlt => ?_⟩
            have hflats : ∀ w ∈ us, w.Flat := fun w hw => hflat w (hus hw)
            have hbounds : ∀ w ∈ us, StoresWithin w :=
              fun w hw => store_bounds (hflats w hw)
            obtain ⟨-, hlast⟩ :=
              storeList_bounds hflats hbounds (hwrote.bounded hm) (by omega) hl
            obtain ⟨-, hlast'⟩ :=
              storeList_bounds hflats hbounds
                (hwrote'.bounded hm') (by omega) hm₁'
            by_cases hiu : i < u.width
            · rw [hlast'.outside _ (by omega), hlast.outside _ (by omega)]
              exact hsame i hiu hi
            · have hback := hsame' (i - u.width)
              rw [show b + u.width + (i - u.width) = b + i by omega,
                show b' + u.width + (i - u.width) = b' + i by omega] at hback
              refine hback ?_ (by omega)
              rw [hwrote'.outside _ (by omega), hwrote.outside _ (by omega), hi]
      obtain ⟨m₁', hm₁', hsame⟩ :=
        hall ts (List.Subset.refl _) a a' v m m' m₁ hm hm' ha hpos hin hlist
      refine ⟨m₁', ?_, fun i hi hs => hsame i hs hi⟩
      exact (store_row_ok_iff hm' (by have := hm'.limit; omega) ht hparts).mpr
        ⟨⟨hpos, hsize, hrow⟩, hm₁'⟩

-- ================================================================ contents

-- Reads and writes of two ranges next to each other.
theorem read_add (m : Memory) (a n k : Nat) :
    m.read a (n + k) = m.read a n ++ m.read (a + n) k := by
  rw [read, read, read, List.range_add, List.map_append, List.map_map]
  refine congrArg (_ ++ ·) (List.map_congr_left fun i _ => ?_)
  rw [Function.comp_apply, Nat.add_assoc]

/-- A value without arrays is loaded word by word. -/
theorem load_slots (ht : t.Flat) (hm : m.Bounded) (ha : a ≤ maxWords)
    (h : m.load (Int64.ofNat a) t = .ok v) : v.slots = m.read a t.width := by
  induction ht generalizing a v with
  | @scalar t hwhole hno =>
      obtain ⟨-, -, -, rfl⟩ := (load_scalar_eq_ok hm ha hwhole hno).mp h
      rfl
  | @row t ts hparts hflat ih =>
      obtain ⟨-, hlist⟩ :=
        (load_row_eq_ok hm ha (.row hparts hflat) hparts).mp h
      have hall : ∀ us : List Ty, us ⊆ ts →
          ∀ (b : Nat) (x y : Value), b ≤ maxWords →
          m.loadList us (Int64.ofNat b) x = .ok y →
          y.slots = x.slots ++ m.read b (Ty.widthOfList us) := by
        intro us
        induction us with
        | nil =>
            intro _ b x y _ hl
            rw [loadList] at hl
            cases hl
            rw [Ty.widthOfList]
            exact (List.append_nil _).symm
        | cons u us ihus =>
            intro hsub b x y hb hl
            obtain ⟨hu, hus⟩ := List.cons_subset.mp hsub
            obtain ⟨z, hz, -, hrest⟩ := (loadList_cons_eq_ok (hflat u hu)).mp hl
            have hfirst := (load_bounds (hflat u hu) hm hb hz).2.2
            have hlimit := hm.limit
            rw [ihus hus (b + u.width) _ _ (by omega) hrest,
              Ty.widthOfList, read_add, ← ih u hu hb hz, ← List.append_assoc]
            rfl
      rw [Ty.width_of_parts hparts]
      exact hall ts (List.Subset.refl _) a _ _ ha hlist

theorem write_append (m : Memory) (a : Nat) (xs ys : Slots) :
    m.write a (xs ++ ys) = (m.write a xs).write (a + xs.length) ys := by
  induction xs generalizing m a with
  | nil => rfl
  | cons x xs ih =>
      rw [List.cons_append, write, ih, write, List.length_cons,
        Nat.add_assoc, Nat.add_comm 1]

/-- A value without arrays that has the slots of its type is stored word by
word. -/
theorem store_eq_write (ht : t.Flat) (hm : m.Bounded) (ha : a ≤ maxWords)
    (hlen : v.slots.length = t.width)
    (h : store (Int64.ofNat a) t v m = .ok () m₁) : m₁ = m.write a v.slots := by
  induction ht generalizing a v m m₁ with
  | @scalar t hwhole hno =>
      obtain ⟨-, -, -, rfl⟩ := (store_scalar_ok_iff hm ha hwhole hno).mp h
      rw [← hlen, List.take_length]
  | @row t ts hparts hflat ih =>
      obtain ⟨-, hlist⟩ :=
        (store_row_ok_iff hm ha (.row hparts hflat) hparts).mp h
      have hall : ∀ us : List Ty, us ⊆ ts →
          ∀ (b : Nat) (x : Value) (m m₁ : Memory), m.Bounded →
          b ≤ maxWords → x.slots.length = Ty.widthOfList us →
          storeList (Int64.ofNat b) us x m = .ok () m₁ →
            m₁ = m.write b x.slots := by
        intro us
        induction us with
        | nil =>
            intro _ b x m m₁ _ _ hx hl
            rw [storeList] at hl
            cases hl
            rw [Ty.widthOfList] at hx
            rw [List.length_eq_zero_iff.mp hx]
            rfl
        | cons u us ihus =>
            intro hsub b x m m₁ hm hb hx hl
            have hlimit := hm.limit
            rw [Ty.widthOfList] at hx
            obtain ⟨hu, hus⟩ := List.cons_subset.mp hsub
            obtain ⟨y, m₂, rest, hy, hm₂, hrest, -, hl⟩ :=
              (storeList_cons_ok_iff (hflat u hu)).mp hl
            obtain ⟨⟨-, -, hfirst⟩, hwrote⟩ :=
              store_bounds (hflat u hu) hm hb hm₂
            have hslots : u.slots.toInt.toNat = u.width := by
              rw [Ty.toInt_slots u (by unfold maxWords at hlimit; omega),
                Int.toNat_natCast]
            -- the component is the first slots, and what is left starts behind
            -- them
            have hyslots : y.slots = x.slots.take u.width := by
              rw [Value.first] at hy
              split at hy
              · cases hy
                show x.stored.take _ = _
                rw [hslots, Value.stored,
                  List.take_append_of_le_length (by omega)]
              · cases hy
            have hrestslots : rest.slots = x.slots.drop u.width := by
              rw [Value.rest] at hrest
              split at hrest
              · cases hrest
                show x.slots.drop _ = _
                rw [hslots]
              · cases hrest
            have hylen : y.slots.length = u.width := by
              rw [hyslots, List.length_take]
              omega
            rw [ihus hus (b + u.width) rest m₂ m₁ (hwrote.bounded hm) (by omega)
              (by rw [hrestslots, List.length_drop]; omega) hl,
              ih u hu hm hb hylen hm₂, hrestslots,
              ← hylen, ← write_append, hyslots, List.length_take,
              Nat.min_eq_left (by omega : u.width ≤ x.slots.length),
                List.take_append_drop]
      exact hall ts (List.Subset.refl _) a v m m₁ hm ha
        (by rw [hlen, Ty.width_of_parts hparts]) hlist

/-- A write leaves the words before and behind it as they are, also those not
written yet. -/
theorem words_write_of_outside {m : Memory} {a b : Nat} {xs : Slots}
    (h : b < a ∨ a + xs.length ≤ b) :
    (m.write a xs).words[b]? = m.words[b]? := by
  induction xs generalizing m a with
  | nil => rfl
  | cons x xs ih =>
      rw [List.length_cons] at h
      rw [write, ih (by omega), set, Std.ExtTreeMap.getElem?_insert]
      simp only [Std.compare_eq_iff_eq]
      rw [if_neg (by omega)]

/-- A word that is written is the one given. -/
theorem words_write_of_inside {m : Memory} {a i : Nat} {xs : Slots}
    (h : i < xs.length) : (m.write a xs).words[a + i]? = xs[i]? := by
  induction xs generalizing m a i with
  | nil => cases h
  | cons x xs ih =>
      rw [write]
      cases i with
      | zero =>
          rw [words_write_of_outside (by omega), set, Nat.add_zero,
            Std.ExtTreeMap.getElem?_insert_self]
          rfl
      | succ i =>
          rw [show a + (i + 1) = a + 1 + i by omega,
            ih (Nat.lt_of_succ_lt_succ h)]
          rfl

/-- Words that were written stay written. -/
theorem mem_words_write {m : Memory} {a b : Nat} {xs : Slots}
    (h : b ∈ m.words) : b ∈ (m.write a xs).words := by
  rw [Std.ExtTreeMap.mem_iff_isSome_getElem?] at h ⊢
  by_cases hb : a ≤ b ∧ b < a + xs.length
  · obtain ⟨i, rfl⟩ := Nat.exists_eq_add_of_le hb.1
    rw [words_write_of_inside (by omega), List.getElem?_eq_getElem (by omega)]
    rfl
  · rwa [words_write_of_outside (by omega)]

end Interp.Memory

end MirBackend
