/-
How arguments get to a callee and results back.

The arguments of a call stand at the top of the frame, with the room for the
results above them. They get there in three ways (`passArgs_ok`): they are there
already, and the frame grows by the room for the results; they are there with
the results above them in their values; or they are moved to fresh slots.
Whichever it is, no value of the caller changes (`passArgs_spec`). The results
are copied to their values from slots where no value is, or they are there
already (`copyResults_fetches`).

Operands that are moved one after the other do not get into each other's way
where no value is (`Moves.puts`). Returned values are moved like arguments.
-/
import Mathlib
import MirBackend.Proofs.Asm.Selection

namespace MirBackend.Asm

open Interp (Slots bind_ok_iff)

variable {code : List Insn} {base : Nat} {t : Link.Table}
  {L l : Layout} {n : Nat} {b b' : Builder} {x : Scope} {u : Unit}
  {σ σ' : FrameSlots} {off start : Int32} {d v : ValueId} {xs ys : Slots}
  {args : List Operand} {ds : List ValueId} {ps rs : List Ty} {e : Int}

-- =================================================================== moves

/-- Operands are moved one after the other to consecutive slots. -/
inductive Moves (x : Scope) : List (Operand × Ty) → Int32 → Builder →
    Builder → Prop where
  | nil {off : Int32} {b : Builder} : Moves x [] off b b
  | cons {o : Operand} {ty : Ty} {as : List (Operand × Ty)} {off : Int32}
      {b c b' : Builder}
      {u : Unit} (head : x.moveTo o off ty.slots b = .ok u c)
      (tail : Moves x as (off + ty.slots.toInt32) c b') :
          Moves x ((o, ty) :: as) off b b'

/-- Arguments are moved one after the other, each to the slots behind those of
the one before. -/
theorem moves_of_moveArgs {as : List (Operand × Ty)} {i : Nat}
    (h : x.moveArgs (as.zipIdx i) off b = .ok u b') : Moves x as off b b' := by
  induction as generalizing b i off with
  | nil =>
      cases h
      exact .nil
  | cons a as ih =>
      rw [List.zipIdx_cons, Scope.moveArgs] at h
      obtain ⟨_, _, h₁, hrest⟩ := bind_ok_iff.mp h
      exact .cons (under_ok_iff.mp h₁) (ih hrest)

namespace Moves

variable {as : List (Operand × Ty)}

theorem extended (h : Moves x as off b b') : Extends b b' := by
  induction h with
  | nil => exact (Extends.roomy fun _ => True).refl _
  | cons head _ ih =>
      exact (Extends.roomy fun _ => True).trans _ _ _
        ((Extends.roomy fun _ => True).moveTo x _ _ _ _ _ _ head) ih

theorem stage (h : Moves x as off b b') (hS : Stage L 0 n b) :
    Stage L 0 n b' := by
  induction h with
  | nil => exact hS
  | cons head _ ih => exact ih (moveTo_stage hS head)

/-- No argument that takes a slot is an address known statically, since that
could not have been moved. -/
theorem not_static (h : Moves x as off b b') (hS : Stage L 0 n b) :
    ∀ a ∈ as, ∀ v, a.1 = .value v → a.2.slots = 0 ∨ v ∉ x.static := by
  induction h with
  | nil => simp
  | cons head _ ih =>
      exact List.forall_mem_cons.mpr
        ⟨fun v hv => moveTo_not_static hS head hv, ih (moveTo_stage hS head)⟩

/-- The slots are filled where no value is. Operands that are still to be moved
are what they were, as the slots of values are. -/
theorem puts {f : Func} {σ₀ : FrameSlots} (h : Moves x as off b b')
    (hL : Layout.Laid f L) (hS : Stage L 0 n b) (hst : Standing code base t b')
    (hlen : ∀ a ∈ as, ∀ v s, a.1 = .value v → v ∉ x.static →
      L.spans[v]? = some s →
      s.len = a.2.slots)
    (hsmall : Ty.widthOfList (as.map (·.2)) ≤ 16777216)
    (hfree : ∀ i < Ty.widthOfList (as.map (·.2)),
      (off + Int32.ofNat i).toInt < n
      ∧ ¬ L.Taken (off + Int32.ofNat i))
    {xss : List Slots}
    (hxs : List.Forall₂ (fun a y => Stands L σ₀ a.1 y
      ∧ y.length = a.2.width) as xss)
    (hsame : ∀ off, L.Taken off → σ off = σ₀ off) :
    ∃ σ', Leads code base b.code.length σ b'.code.length σ'
        ∧ Puts n e off xss.flatten σ σ' := by
  induction h generalizing σ xss with
  | @nil off b =>
      cases hxs
      exact ⟨σ, .refl _ _ _ _, .nil n e off σ⟩
  | @cons o ty as off b c b' _ head tail ih =>
      obtain ⟨y, yss, ⟨hstands, hwidth⟩, hys, rfl⟩ :=
        List.forall₂_cons_left_iff.mp hxs
      dsimp only at hstands hwidth
      rw [List.map_cons, Ty.widthOfList] at hsmall hfree
      dsimp only at hsmall hfree
      have hty : ty.slots.toInt = ty.width := Ty.toInt_slots ty (by omega)
      have hnext (i : Nat) : off + ty.slots.toInt32 + Int32.ofNat i
          = off + Int32.ofNat (ty.width + i) := by
        rw [toInt32_slots, Int32.add_assoc, ← Int32.ofNat_add]
      have hspan {v : ValueId} {s : Span} (hv : o = .value v)
          (hs : L.spans[v]? = some s)
          (hstatic : v ∉ x.static) : s.len.toInt = ty.width := by
        rw [hlen _ List.mem_cons_self v s hv hstatic hs, hty]
      have hnow : Stands L σ o y := hstands.keep (fun v s hv hs => by
        rcases moveTo_not_static hS head hv with hzero | hstatic
        · have hwide : ty.slots.toInt = 0 := congrArg Int64.toInt hzero
          have := (hL.span v s hs).1
          omega
        · rw [hspan hv hs hstatic, hwidth]) hsame
      obtain ⟨σ₁, hleads₁, hputs₁⟩ :=
        moveTo_leads (e := e) hS (hst.of_extends tail.extended) head
        (by rw [hwidth, hty]) (by omega) hnow fun v s hv hstatic hs =>
        Or.inr fun i hi j hj heq =>
          (hfree j (by omega)).2 ⟨v, s, i,
          hs, by rw [hspan hv hs hstatic]; omega, heq.symm⟩
      have hkept (o : Int32) (ho : L.Taken o) : σ₁ o = σ₀ o := by
        rw [hputs₁.other o ?_ fun i hi heq => (hfree i (by omega)).2 (heq ▸ ho),
          hsame o ho]
        obtain ⟨v, s, k, hs, hk, rfl⟩ := ho
        exact .inl (hL.slot_lt hS.low hs hk)
      obtain ⟨σ₂, hleads₂, hputs₂⟩ := ih (moveTo_stage hS head) hst
        (fun a ha => hlen a (List.mem_cons_of_mem _ ha)) (by omega)
        (fun i hi => by
          rw [hnext]
          exact hfree _ (by omega)) hys hkept
      rw [toInt32_slots, ← hwidth] at hputs₂
      have htotal : (y ++ yss.flatten).length
          = ty.width + Ty.widthOfList (as.map (·.2)) := by
        rw [List.length_append, hwidth,
          length_of_widths (hys.imp fun _ _ h => h.2)]
      rw [List.flatten_cons]
      refine ⟨σ₂, hleads₁.trans hleads₂,
        hputs₁.append hputs₂ (fun i hi => ?_) (by omega)⟩
      exact (hfree i (by omega)).1

end Moves

-- ================================================================ in place

/-- Values that are where they are looked for. -/
theorem valuesAt_cons {ty : Ty} {rest : List (ValueId × Ty)} :
    Scope.valuesAt l ((v, ty) :: rest) off = true
        ↔ ∃ s, l.spans[v]? = some s ∧ s.base = off
      ∧ s.len = ty.slots ∧ Scope.valuesAt l rest
      (off + ty.slots.toInt32) = true := by
  rw [Scope.valuesAt, Layout.offset, Layout.slots]
  cases hs : l.spans[v]? with
  | none => simp
  | some s => simp [and_assoc]

/-- Values lie at consecutive slots if a first part does and the rest does
behind it. -/
theorem valuesAt_append {as bs : List (ValueId × Ty)} :
    Scope.valuesAt l (as ++ bs) off = true ↔ Scope.valuesAt l as off = true
      ∧ Scope.valuesAt l bs (off + Int32.ofNat (Ty.widthOfList (as.map (·.2))))
      = true := by
  induction as generalizing off with
  | nil =>
      show _ ↔ true = true ∧ Scope.valuesAt l bs (off + Int32.ofNat 0) = true
      rw [add_ofNat_zero]
      exact (and_iff_right rfl).symm
  | cons a as ih =>
      obtain ⟨v, ty⟩ := a
      rw [List.cons_append, valuesAt_cons, valuesAt_cons,
        List.map_cons, Ty.widthOfList,
        Int32.ofNat_add, ← Int32.add_assoc, ← toInt32_slots]
      simp only [ih]
      exact ⟨fun ⟨s, hs, hbase, hlen, has, hbs⟩ =>
        ⟨⟨s, hs, hbase, hlen, has⟩, hbs⟩,
        fun ⟨⟨s, hs, hbase, hlen, has⟩, hbs⟩ => ⟨s, hs, hbase, hlen, has, hbs⟩⟩

/-- Values side by side leave no slot free. -/
theorem valuesAt_covers {as : List (ValueId × Ty)}
    (h : Scope.valuesAt l as off = true)
    (hsmall : Ty.widthOfList (as.map (·.2)) < 2 ^ 63) {i : Nat}
    (hi : i < Ty.widthOfList (as.map (·.2))) : ∃ a ∈ as, ∃ (s : Span) (j : Nat),
      l.spans[a.1]? = some s ∧ (j : Int) < s.len.toInt
        ∧ off + Int32.ofNat i = s.base + Int32.ofNat j := by
  induction as generalizing off i with
  | nil => cases hi
  | cons a as ih =>
      obtain ⟨v, ty⟩ := a
      rw [List.map_cons, Ty.widthOfList] at hsmall hi
      dsimp only at hsmall hi
      obtain ⟨s, hs, rfl, hlen, hrest⟩ := valuesAt_cons.mp h
      by_cases hin : i < ty.width
      · exact ⟨_, List.mem_cons_self, s, i,
          hs, by rw [hlen, Ty.toInt_slots ty (by omega)]; omega, rfl⟩
      · obtain ⟨a, ha, s', j, hs', hj, heq⟩ :=
          ih hrest (by omega) (i := i - ty.width) (by omega)
        refine ⟨a, List.mem_cons_of_mem _ ha, s', j, hs', hj, ?_⟩
        rw [← heq, toInt32_slots, Int32.add_assoc, ← Int32.ofNat_add,
          Nat.add_sub_cancel' (by omega)]

/-- Values side by side up to the top of a frame start in it: the slots of the
link belong to no value. -/
theorem valuesAt_nonneg {f : Func} {as : List (ValueId × Ty)}
    (hL : Layout.Laid f l) (h : Scope.valuesAt l as off = true)
    (hsmall : Ty.widthOfList (as.map (·.2)) < 2 ^ 63)
    (htop : 0 ≤ off.toInt + Ty.widthOfList (as.map (·.2))) : 0 ≤ off.toInt := by
  by_contra hneg
  have hlow := Int32.le_toInt off
  obtain ⟨k, hk⟩ : ∃ k : Nat, (k : Int) = -1 - off.toInt :=
    ⟨_, Int.toNat_of_nonneg (by omega)⟩
  obtain ⟨a, -, s, j, hs, hj, heq⟩ :=
    valuesAt_covers h hsmall (i := k) (by omega)
  obtain ⟨hplace, hin⟩ := hL.slot_place hs hj
  have hlink : (off + Int32.ofNat k).toInt = -1 := by
    rw [Int32.toInt_add, Int32.toInt_ofNat_of_lt (by omega), hk, add_sub_cancel]
    rfl
  rw [← heq, hlink] at hplace
  rw [Layout.resultsAt] at hin
  omega

/-- Values side by side show what they stand for side by side. -/
theorem shows_of_valuesAt {as : List (ValueId × Ty)} {xss : List Slots}
    (h : Scope.valuesAt l as off = true)
    (hxs : List.Forall₂ (fun a y => Stands l σ (.value a.1) y
      ∧ y.length = a.2.width) as xss) :
    Shows σ off xss.flatten := by
  induction hxs generalizing off with
  | nil => exact .nil σ off
  | @cons a y as xss hy _ ih =>
      obtain ⟨s, hs, rfl, -, hrest⟩ := valuesAt_cons.mp h
      obtain ⟨⟨s', hs', hshows⟩, hlen⟩ := hy
      rw [hs, Option.some.injEq] at hs'
      subst hs'
      rw [toInt32_slots, ← hlen] at hrest
      exact hshows.append (ih hrest)

/-- What is shown side by side is what values show that are there. -/
theorem valuesAt_shows {as : List (ValueId × Ty)} {xss : List Slots}
    (h : Scope.valuesAt l as off = true)
    (hxs : List.Forall₂ (fun a y => y.length = a.2.width) as xss)
    (hshows : Shows σ off xss.flatten) {i : Nat} {a : ValueId × Ty} {y : Slots}
    (ha : as[i]? = some a) (hy : xss[i]? = some y) :
    ∃ s, l.spans[a.1]? = some s ∧ Shows σ s.base y := by
  induction hxs generalizing off i with
  | nil => simp at ha
  | cons hlen _ ih =>
      obtain ⟨s, hs, rfl, -, hrest⟩ := valuesAt_cons.mp h
      rw [List.flatten_cons] at hshows
      cases i with
      | zero =>
          cases ha
          cases hy
          exact ⟨s, hs, hshows.left⟩
      | succ i =>
          rw [toInt32_slots, ← hlen] at hrest
          exact ih hrest hshows.right ha hy

/-- Operands that are all values, none of them an address known beforehand. -/
theorem values_of_mapM {args : List Operand} {vs : List ValueId}
    (h : args.mapM (fun a => a.id?.filter (!x.isStatic ·)) = some vs) :
    args = vs.map .value ∧ ∀ v ∈ vs, v ∉ x.static := by
  induction args generalizing vs with
  | nil =>
      cases h
      exact ⟨rfl, by simp⟩
  | cons a args ih =>
      rw [List.mapM_cons] at h
      obtain ⟨v, hv, h⟩ := Option.bind_eq_some_iff.mp h
      obtain ⟨vs', hvs', h⟩ := Option.bind_eq_some_iff.mp h
      cases h
      obtain ⟨hv, hplain⟩ := Option.filter_eq_some_iff.mp hv
      obtain ⟨rfl, hrest⟩ := ih hvs'
      have hplain : v ∉ x.static := by
        simpa [Scope.isStatic, ← Std.ExtTreeMap.contains_iff_mem] using hplain
      cases a <;> cases hv
      exact ⟨rfl, List.forall_mem_cons.mpr ⟨hplain, hrest⟩⟩

/-- Arguments are in place only if they are all values. -/
theorem argsInPlace_eq (h : x.argsInPlace l args ps = (start, true)) :
    ∃ vs : List ValueId, args = vs.map .value ∧ (∀ v ∈ vs, v ∉ x.static)
      ∧ Scope.valuesAt l (vs.zip ps) start = true := by
  rw [Scope.argsInPlace] at h
  split at h
  · cases h
  · cases h
  · rename_i v vs hvs
    split at h
    · cases h
    · obtain ⟨rfl, hat⟩ := Prod.mk.inj h
      exact ⟨v :: vs, (values_of_mapM hvs).1, (values_of_mapM hvs).2, hat⟩

-- ================================================================= results

/-- Values got runs of integers, each the last that is meant for it, and the
other slots below the `n`-th stay as they were. -/
structure Gets (L : Layout) (n : Nat) (ds : List ValueId) (yss : List Slots)
    (σ σ' : FrameSlots) : Prop where
  here : ∀ (i : Nat) d y, ds[i]? = some d → d ∉ ds.drop (i + 1) →
    yss[i]? = some y →
    ∃ s, L.spans[d]? = some s ∧ Shows σ' s.base y
  other : ∀ off : Int32, off.toInt < n → (∀ d ∈ ds, ∀ s, L.spans[d]? = some s →
    ∀ i : Nat, (i : Int) < s.len.toInt → off ≠ s.base + Int32.ofNat i) →
      σ' off = σ off

/-- Results are copied one after the other from slots where no value is. No
other slot changes: all slots are below the `2 ^ 31`-th. -/
theorem copyResults_gets {f : Func} {rs : List (ValueId × Ty)}
    (hL : Layout.Laid f L) (hS : Stage L 0 n b) (hst : Standing code base t b')
    (hlen : ∀ r ∈ rs, ∀ s, L.spans[r.1]? = some s → s.len = r.2.slots)
    (hsmall : Ty.widthOfList (rs.map (·.2)) ≤ 16777216)
    (hfree : ∀ i < Ty.widthOfList (rs.map (·.2)),
      ¬ L.Taken (off + Int32.ofNat i))
    (h : Scope.copyResults rs off b = .ok u b') {yss : List Slots}
    (hys : List.Forall₂ (fun r y => y.length = r.2.width) rs yss)
    (hshows : Shows σ off yss.flatten) :
    ∃ σ', Leads code base b.code.length σ b'.code.length σ'
      ∧ Gets L (2 ^ 31) (rs.map (·.1)) yss σ σ' := by
  induction hys generalizing b off σ with
  | nil =>
      cases h
      exact ⟨σ, .refl _ _ _ _, fun i d y hd => by simp at hd, fun _ _ _ => rfl⟩
  | @cons r y rs yss hwidth hys ih =>
      obtain ⟨d, ty⟩ := r
      dsimp only at hwidth
      obtain ⟨_, b₁, h₁, h⟩ := bind_ok_iff.mp h
      obtain ⟨rfl, s, hs, rfl⟩ := offset_ok hS h₁
      obtain ⟨_, b₂, h₂, hrest⟩ := bind_ok_iff.mp h
      rw [List.map_cons, Ty.widthOfList] at hsmall hfree
      dsimp only at hsmall hfree
      have hty : ty.slots.toInt = ty.width := Ty.toInt_slots ty (by omega)
      have hslen : s.len.toInt = ty.width := by
        rw [hlen _ List.mem_cons_self s hs, hty]
      have hst₂ : Standing code base t b₂ :=
        hst.of_extends
          ((Extends.roomy fun _ => True).copyResults _ _ _ _ _ hrest)
      obtain ⟨hlayout, hle⟩ := copyRun_layout h₂
      have hnext (i : Nat) : off + ty.slots.toInt32 + Int32.ofNat i
          = off + Int32.ofNat (ty.width + i) := by
        rw [toInt32_slots, Int32.add_assoc, ← Int32.ofNat_add]
      rw [List.flatten_cons] at hshows
      obtain ⟨σ₁, hleads₁, hputs₁⟩ :=
        copySlots_leads (n := 2 ^ 31) (e := 2 ^ 31) hst₂ h₂
        (by rw [hwidth, hty]) (by omega) hshows.left
        (Or.inr fun i hi j hj heq =>
          hfree i (by omega) ⟨d, s, j, hs, by omega, heq⟩)
      -- the results that are still to be copied are where they were
      have hleft : Shows σ₁ (off + ty.slots.toInt32) yss.flatten := by
        have hwide := length_of_widths hys
        rw [toInt32_slots, ← hwidth]
        refine hshows.right.keep fun i hi => ?_
        rw [Int32.add_assoc, ← Int32.ofNat_add]
        exact hputs₁.other _ (.inl (Int32.toInt_lt _)) fun j hj heq =>
          hfree (y.length + i) (by omega) ⟨d, s, j, hs, by omega, heq⟩
      obtain ⟨σ₂, hleads₂, hgets⟩ := ih (hS.keep hlayout hle)
        (fun r hr => hlen r (List.mem_cons_of_mem _ hr)) (by omega)
        (fun i hi => by
          rw [hnext]
          exact hfree _ (by omega)) hrest hleft
      refine ⟨σ₂, hleads₁.trans hleads₂, fun i d' z hd' hlast hz => ?_,
        fun o ho hne => ?_⟩
      · cases i with
        | zero =>
            cases hd'
            cases hz
            refine ⟨s, hs, hputs₁.here.keep fun j hj => ?_⟩
            refine hgets.other _ (Int32.toInt_lt _) fun d' hd' s' hs' k hk => ?_
            have hne : d ≠ d' := fun heq => hlast (heq ▸ hd')
            exact hL.slot_ne hne hs hs' (by omega) hk
        | succ i => exact hgets.here i d' z hd' hlast hz
      · rw [hgets.other o ho fun d' hd' => hne d' (List.mem_cons_of_mem _ hd'),
          hputs₁.other o (.inl ho)]
        exact fun i hi => hne d List.mem_cons_self s hs i (by omega)

/-- Nothing is copied from a range to itself. -/
theorem copyRun_self (off : Int32) (k : Nat) (b : Builder) :
    Builder.copyRun off off k b = .ok () b := by
  induction k generalizing off with
  | zero => rfl
  | succ k ih =>
      have hcopy : Builder.copy off off b = .ok () b := by
        rw [Builder.copy, if_pos rfl]
        rfl
      exact (bind_of_ok hcopy).trans (ih (off + 1))

/-- Results that the callee leaves in their values are not copied. -/
theorem copyResults_inPlace {rs : List (ValueId × Ty)} (hl : b.layout = some l)
    (h : Scope.valuesAt l rs off = true) :
    Scope.copyResults rs off b = .ok () b := by
  induction rs generalizing off with
  | nil => rfl
  | cons r rs ih =>
      obtain ⟨d, ty⟩ := r
      obtain ⟨s, hs, rfl, -, hrest⟩ := valuesAt_cons.mp h
      exact (bind_of_ok (offset_eq hl hs)).trans
        ((bind_of_ok (copyRun_self _ _ b)).trans (ih hrest))

/-- Code that fetches runs of integers from consecutive slots into values. -/
def Fetches (code : List Insn) (base : Nat) (L : Layout) (n j q : Nat)
    (ds : List ValueId) (returns : List Ty) (start : Int32) : Prop :=
  ∀ σ yss, List.Forall₂ (fun ty y => y.length = ty.width) returns yss →
    Shows σ start yss.flatten → ∃ σ', Leads code base j σ q σ'
      ∧ Gets L n ds yss σ σ'

/-- A smaller frame is fetched as well. -/
theorem Fetches.mono {k j q : Nat}
    (h : Fetches code base L n j q ds rs start) (hk : k ≤ n) :
    Fetches code base L k j q ds rs start := by
  intro σ yss hys hshows
  obtain ⟨σ', hleads, hgets⟩ := h σ yss hys hshows
  exact ⟨σ', hleads, hgets.here, fun off hoff => hgets.other off (by omega)⟩

/-- Results get into their values from where they are: there already, or where
no value is. -/
theorem copyResults_fetches {f : Func} (hL : Layout.Laid f L)
    (hl : b.layout = some { L with frameSize := Int64.ofNat n })
    (hlow : L.frameSize.toInt ≤ n) (hn : n ≤ 16777216)
    (hst : Standing code base t b') (hcount : ds.length = rs.length)
    (hlen : ∀ r ∈ ds.zip rs, ∀ s, L.spans[r.1]? = some s → s.len = r.2.slots)
    (hend : start.toInt + Ty.widthOfList rs = n)
    (hplace : Scope.valuesAt { L with frameSize := Int64.ofNat n }
      (ds.zip rs) start = true
      ∨ L.frameSize.toInt ≤ start.toInt)
    (h : Scope.copyResults (ds.zip rs) start b = .ok u b') :
    Fetches code base L (2 ^ 31) b.code.length b'.code.length ds rs start := by
  intro σ yss hys hshows
  have hdests : (ds.zip rs).map (·.1) = ds := List.map_fst_zip hcount.le
  have htypes : (ds.zip rs).map (·.2) = rs := List.map_snd_zip hcount.ge
  have hys : List.Forall₂ (fun r y => y.length = r.2.width)
      (ds.zip rs) yss := by
    rw [← htypes, List.forall₂_map_left_iff] at hys
    exact hys
  rcases hplace with hat | hfree
  · rw [copyResults_inPlace hl hat] at h
    cases h
    refine ⟨σ, .refl _ _ _ _, fun i d y hd _ hy => ?_, fun _ _ _ => rfl⟩
    obtain ⟨ty, hty⟩ : ∃ ty, rs[i]? = some ty := by
      have hlt := (List.getElem?_eq_some_iff.mp hd).1
      exact ⟨_, List.getElem?_eq_getElem (hcount ▸ hlt)⟩
    exact valuesAt_shows hat hys hshows
      (List.getElem?_zip_eq_some.mpr ⟨hd, hty⟩ :
      (ds.zip rs)[i]? = some (d, ty)) hy
  · have hsize : (Int64.ofNat n).toInt = n := Int64.toInt_ofNat_of_lt (by omega)
    have hL₁ : Layout.Laid f { L with frameSize := Int64.ofNat n } :=
      hL.widen (by omega) (by omega)
    have hS := Stage.here hl hL₁.nonneg hL₁.fits
    obtain ⟨σ', hleads, hgets⟩ := copyResults_gets hL₁ hS hst hlen
      (by rw [htypes]; have := hL.nonneg; omega) (fun i hi => by
        rw [htypes] at hi
        have htop : (start + Int32.ofNat i).toInt = start.toInt + i := by
          have := hL.nonneg
          rw [Int32.toInt_add, Int32.toInt_ofNat_of_lt (by omega)]
          exact Int.bmod_eq_of_le (by omega) (by omega)
        have hnot : ¬ L.Taken (start + Int32.ofNat i) := hL.not_taken (by omega)
        exact hnot) h hys hshows
    rw [hdests] at hgets
    exact ⟨σ', hleads, hgets.here, hgets.other⟩

-- ================================================================= passing

/-- The three ways to pass arguments: in place with room for the results behind
them, in place with the results behind them in their values, and moved to fresh
slots. -/
theorem passArgs_ok (hl : b.layout = some l)
    (h : x.passArgs args ds ps rs b = .ok start b') :
    (x.argsInPlace l args ps = (start, true)
      ∧ start.toInt64 + Ty.slotsOfList ps = l.frameSize
        ∧ b' = { b with layout := some (l.reserve (Ty.slotsOfList rs)).2 })
      ∨ (x.argsInPlace l args ps = (start, true)
        ∧ start.toInt64 + Ty.slotsOfList ps + Ty.slotsOfList rs = l.frameSize
        ∧ Scope.valuesAt l (ds.zip rs)
        (start + (Ty.slotsOfList ps).toInt32) = true ∧ b' = b)
      ∨ (start = l.frameSize.toInt32 ∧ x.moveArgs (args.zip ps).zipIdx start
          { b with layout := some (l.reserve (Ty.slotsOfList ps + Ty.slotsOfList rs)).2 }
            = .ok () b') := by
  obtain ⟨_, b₁, h₁, h⟩ := bind_ok_iff.mp h
  cases h₁
  obtain ⟨l', b₂, h₂, h⟩ := bind_ok_iff.mp h
  obtain ⟨hl', rfl⟩ := need_ok_iff.mp h₂
  rw [hl, Option.some.injEq] at hl'
  subst hl'
  have hreserve (n : Int64) : Builder.reserve n b
      = .ok (l.reserve n).1 { b with layout := some (l.reserve n).2 } :=
    (bind_of_ok (m := MonadState.get) rfl).trans
    (bind_of_ok (need_ok_iff.mpr ⟨hl, rfl⟩))
  obtain ⟨⟨start', inPlace⟩, hplace⟩ : ∃ r,
      x.argsInPlace l args ps = r := ⟨_, rfl⟩
  dsimp only at h
  rw [hplace] at h
  dsimp only at h
  split at h
  · rename_i hc
    rw [Bool.and_eq_true, decide_eq_true_eq] at hc
    obtain ⟨_, b₃, h₃, h⟩ := bind_ok_iff.mp h
    rw [hreserve] at h₃
    cases h₃
    cases h
    exact Or.inl ⟨by rw [hplace, hc.1], hc.2, rfl⟩
  · split at h
    · rename_i hc
      rw [Bool.and_eq_true, Bool.and_eq_true, decide_eq_true_eq] at hc
      cases h
      exact Or.inr (Or.inl ⟨by rw [hplace, hc.1.1], hc.1.2, hc.2, rfl⟩)
    · obtain ⟨_, b₃, h₃, h⟩ := bind_ok_iff.mp h
      rw [hreserve] at h₃
      cases h₃
      obtain ⟨_, b₄, h₄, h⟩ := bind_ok_iff.mp h
      cases h
      exact Or.inr (Or.inr ⟨rfl, h₄⟩)

/-- Code that brings operands to consecutive slots and leaves all values as they
are. -/
def Brings (code : List Insn) (base : Nat) (L : Layout) (j q : Nat)
    (as : List (Operand × Ty)) (start : Int32) : Prop :=
  ∀ σ xss, List.Forall₂ (fun a y => Stands L σ a.1 y
    ∧ y.length = a.2.width) as xss →
    ∃ σ', Leads code base j σ q σ' ∧ Shows σ' start xss.flatten
      ∧ ∀ off, L.Taken off → σ' off = σ off

/-- Code that brings operands to consecutive slots and leaves all slots as they
are but for those between the top of the frame as it was laid out and
another. -/
def Carries (code : List Insn) (base : Nat) (L : Layout) (e : Int) (j q : Nat)
    (as : List (Operand × Ty)) (start : Int32) : Prop :=
  ∀ σ xss, List.Forall₂ (fun a y => Stands L σ a.1 y
    ∧ y.length = a.2.width) as xss →
    ∃ σ', Leads code base j σ q σ' ∧ Shows σ' start xss.flatten
      ∧ ∀ off : Int32, off.toInt < L.frameSize.toInt
      ∨ e ≤ off.toInt → σ' off = σ off

/-- The slots of values are below the top of the frame. -/
theorem Carries.brings {f : Func} {j q : Nat} {as : List (Operand × Ty)}
    (hL : Layout.Laid f L) (h : Carries code base L e j q as start) :
    Brings code base L j q as start := by
  intro σ xss hxs
  obtain ⟨σ', hleads, hshows, hkept⟩ := h σ xss hxs
  refine ⟨σ', hleads, hshows, fun off hoff => hkept off (.inl ?_)⟩
  by_contra hhigh
  exact hL.not_taken (by omega) hoff

/-- Arguments in place need no code. -/
theorem carries_inPlace (h : x.argsInPlace l args ps = (start, true))
    (hspans : l.spans = L.spans) (j : Nat) :
    Carries code base L e j j (args.zip ps) start := by
  obtain ⟨vs, rfl, -, hat⟩ := argsInPlace_eq h
  intro σ xss hxs
  refine ⟨σ, .refl _ _ _ _, shows_of_valuesAt hat ?_, fun _ _ => rfl⟩
  rw [List.zip_map_left, List.forall₂_map_left_iff] at hxs
  refine hxs.imp fun a y hy => ⟨?_, hy.2⟩
  obtain ⟨s, hs, hshows⟩ := hy.1
  exact ⟨s, by rw [hspans]; exact hs, hshows⟩

/-- Arguments that are passed where they stand are no addresses known statically
either. -/
theorem inPlace_not_static (h : x.argsInPlace l args ps = (start, true)) :
    ∀ a ∈ args.zip ps, ∀ v, a.1 = .value v → a.2.slots = 0 ∨ v ∉ x.static := by
  obtain ⟨vs, rfl, hplain, -⟩ := argsInPlace_eq h
  intro a ha v hv
  obtain ⟨w, hw, heq⟩ := List.mem_map.mp (List.of_mem_zip ha).1
  obtain rfl : w = v := Operand.value.inj (heq.trans hv)
  exact Or.inr (hplain w hw)

/-- Code without fresh slots keeps the layout. -/
theorem plain_layout : Plain (fun _ => True) fun b b' =>
    b'.layout = b.layout where
  refl _ := rfl
  trans _ _ _ h h' := h'.trans h
  emit _ _ _ := rfl

/-- Arguments are passed at the top of the frame, with the room for the results
behind them, which is either where the results belong or where no value is. -/
theorem passArgs_spec {f : Func} {b₁ : Builder} (hL : Layout.Laid f L)
    (hl : b.layout = some { L with frameSize := Int64.ofNat n })
    (hlow : L.frameSize.toInt ≤ n) (hn : n ≤ 16777216)
    (hfit : Ty.widthOfList ps + Ty.widthOfList rs ≤ 16777216)
    (hcount : args.length = ps.length) (hcount' : ds.length = rs.length)
    (hlen : ∀ a ∈ args.zip ps, ∀ v s, a.1 = .value v → v ∉ x.static →
      L.spans[v]? = some s →
      s.len = a.2.slots)
    (hst : Standing code base t b₁)
    (h : x.passArgs args ds ps rs b = .ok start b₁)
    (htop : ∀ l, b₁.layout = some l → l.frameSize.toInt ≤ 16777216) :
    ∃ n₁ : Nat, b₁.layout = some { L with frameSize := Int64.ofNat n₁ } ∧ n ≤ n₁
      ∧ 0 ≤ start.toInt ∧ start.toInt + Ty.widthOfList ps
      + Ty.widthOfList rs = n₁
      ∧ (Scope.valuesAt { L with frameSize := Int64.ofNat n₁ } (ds.zip rs)
          (start + Int32.ofNat (Ty.widthOfList ps)) = true
        ∨ L.frameSize.toInt ≤ start.toInt + Ty.widthOfList ps)
      ∧ (∀ a ∈ args.zip ps, ∀ v, a.1 = .value v → a.2.slots = 0 ∨ v ∉ x.static)
      ∧ Carries code base L n₁ b.code.length b₁.code.length
      (args.zip ps) start := by
  have hbound := Int32.le_toInt start
  have hbound' := Int32.toInt_lt start
  have hnat {k : Nat} (hk : k ≤ 2 ^ 32) : (Int64.ofNat k).toInt = k :=
    Int64.toInt_ofNat_of_lt (by omega)
  have hadd {a : Int64} {k : Nat} (hk : k ≤ 2 ^ 25) (ha : -2 ^ 33 ≤ a.toInt
      ∧ a.toInt < 2 ^ 33) :
      (a + Int64.ofNat k).toInt = a.toInt + k := by
    rw [Int64.toInt_add, hnat (by omega)]
    exact Int.bmod_eq_of_le (by omega) (by omega)
  -- sizes are below 2 ^ 25, so no sum of theirs wraps
  have hargs : (start.toInt64 + Int64.ofNat (Ty.widthOfList ps)).toInt
      = start.toInt + Ty.widthOfList ps := by
    rw [hadd (by omega) (by rw [Int32.toInt_toInt64]; omega),
      Int32.toInt_toInt64]
  have hgrown {k : Nat} (hk : n ≤ k) (hk' : k ≤ 16777216) :
      Layout.Laid f { L with frameSize := Int64.ofNat k } :=
    hL.widen (by rw [hnat (by omega)]; omega) (by rw [hnat (by omega)]; omega)
  have hcounts {vs : List ValueId} (hvs : args = vs.map .value) :
      (vs.zip ps).map (·.2) = ps :=
    List.map_snd_zip (by rw [← hcount, hvs, List.length_map])
  -- where the arguments go: they end the frame already, they and the results
  -- do, or they are moved to new slots
  obtain ⟨hplace, hsum, rfl⟩ | ⟨hplace, hsum, hat, rfl⟩
      | ⟨hstart, hmoved⟩ := passArgs_ok hl h
  -- in place, with new slots for the results only
  · have hsum : start.toInt + Ty.widthOfList ps = n := by
      rw [← hargs, ← Ty.slotsOfList_eq_ofNat, hsum, hnat (by omega)]
    obtain ⟨vs, hvs, -, hat⟩ := argsInPlace_eq hplace
    refine ⟨n + Ty.widthOfList rs, ?_, by omega, ?_, by push_cast; omega,
      Or.inr (by omega),
      inPlace_not_static hplace, carries_inPlace (L := L) hplace rfl _⟩
    · rw [Int64.ofNat_add, ← Ty.slotsOfList_eq_ofNat]
      rfl
    · exact valuesAt_nonneg (hgrown le_rfl hn) hat (by rw [hcounts hvs]; omega)
        (by rw [hcounts hvs]; omega)
  -- in place, with the results where they belong
  · have hsum : start.toInt + Ty.widthOfList ps + Ty.widthOfList rs = n := by
      rw [← hargs, ← hadd (by omega) (by omega), ← Ty.slotsOfList_eq_ofNat,
        ← Ty.slotsOfList_eq_ofNat, hsum, hnat (by omega)]
    rw [toInt32_slotsOfList] at hat
    obtain ⟨vs, hvs, -, hat'⟩ := argsInPlace_eq hplace
    refine ⟨n, hl, le_rfl, ?_, hsum, Or.inl hat, inPlace_not_static hplace,
      carries_inPlace (L := L) hplace rfl _⟩
    have hboth := valuesAt_append.mpr ⟨hat', by rw [hcounts hvs]; exact hat⟩
    have hwidth : Ty.widthOfList ((vs.zip ps ++ ds.zip rs).map (·.2))
        = Ty.widthOfList ps + Ty.widthOfList rs := by
      rw [List.map_append, Ty.widthOfList_append, hcounts hvs,
        List.map_snd_zip hcount'.ge]
    exact valuesAt_nonneg (hgrown le_rfl hn) hboth (by rw [hwidth]; omega)
      (by rw [hwidth]; push_cast; omega)
  -- moved: the slots behind the frame are no value's, so nothing that is still
  -- to be read is overwritten
  · have hstart : start = Int32.ofNat n := by rw [hstart, Int64.toInt32_ofNat']
    have htoInt : start.toInt = n := by
      rw [hstart, Int32.toInt_ofNat_of_lt (by omega)]
    obtain ⟨n₁, hn₁⟩ : ∃ n₁, n₁ = n + (Ty.widthOfList ps + Ty.widthOfList rs) :=
      ⟨_, rfl⟩
    obtain ⟨l₁, hl₁⟩ : ∃ l₁ : Layout,
        l₁ = { L with frameSize := Int64.ofNat n₁ } := ⟨_, rfl⟩
    have hreserved : (Layout.reserve { L with frameSize := Int64.ofNat n }
        (Ty.slotsOfList ps + Ty.slotsOfList rs)).2 = l₁ := by
      rw [hl₁, hn₁, Int64.ofNat_add, Int64.ofNat_add, ← Ty.slotsOfList_eq_ofNat,
        ← Ty.slotsOfList_eq_ofNat]
      rfl
    rw [hreserved] at hmoved
    have hlayout : b₁.layout = some l₁ :=
      plain_layout.moveArgs x _ _ _ _ _ hmoved
    have hsize : l₁.frameSize.toInt = n₁ := by rw [hl₁, hnat (by omega)]
    have hfits := htop l₁ hlayout
    have hL₁ : Layout.Laid f l₁ := hl₁ ▸ hgrown (by omega) (by omega)
    have hspans : l₁.spans = L.spans := by rw [hl₁]
    have htypes : (args.zip ps).map (·.2) = ps := List.map_snd_zip hcount.ge
    have hmoves := moves_of_moveArgs hmoved
    have hS :=
      Stage.here (b := { b with layout := some l₁ }) rfl hL₁.nonneg hL₁.fits
    refine ⟨n₁,
      hl₁ ▸ hlayout, by omega, by omega, by rw [htoInt, hn₁]; push_cast; omega,
      Or.inr (by omega), hmoves.not_static hS, fun σ xss hxs => ?_⟩
    have hplace {i : Nat} (hi : i < Ty.widthOfList ps) :
        (start + Int32.ofNat i).toInt = n + i
        ∧ ¬ L.Taken (start + Int32.ofNat i) := by
      have htop : (start + Int32.ofNat i).toInt = n + i := by
        rw [Int32.toInt_add, htoInt, Int32.toInt_ofNat_of_lt (by omega)]
        exact Int.bmod_eq_of_le (by omega) (by omega)
      exact ⟨htop, hL.not_taken (by omega)⟩
    have hwide := length_of_widths (hxs.imp fun _ _ h => h.2)
    rw [htypes] at hwide
    have hxs : List.Forall₂ (fun a y => Stands l₁ σ a.1 y
        ∧ y.length = a.2.width)
        (args.zip ps) xss := by
      rw [hl₁]
      exact hxs
    obtain ⟨σ', hleads, hputs⟩ :=
      hmoves.puts (e := n₁) hL₁ hS hst (by rw [hspans]; exact hlen)
      (by rw [htypes]; omega) (fun i hi => by
        rw [htypes] at hi
        obtain ⟨htop, hnot⟩ := hplace hi
        exact ⟨by omega, by rw [hl₁]; exact hnot⟩) hxs fun _ _ => rfl
    refine ⟨σ', hleads, hputs.here,
      fun off hoff => hputs.other off (by omega) fun i hi heq => ?_⟩
    have := (hplace (i := i) (by omega)).1
    rw [← heq] at this
    omega

end MirBackend.Asm
