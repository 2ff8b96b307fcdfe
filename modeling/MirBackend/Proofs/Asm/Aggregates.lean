/-
What the code of aggregates does to the slots of a frame.

A tuple or a struct lies in the slots of its value, component by component. Code
that takes a component out copies slots of the whole; code that replaces one
copies the whole and moves the component over its place; code that puts all
together moves each component to its place (`Placings`). The slots then hold
what the interpreter has, part by part (`Lays`), and when no part is missing
they hold the whole.

The destination may be the whole itself, as values may be defined more than
once. It is never the component, whose type is another one.
-/
import Mathlib
import MirBackend.Proofs.Asm.Control
import MirBackend.Proofs.Interp.Aggregates

namespace MirBackend.Asm

open Interp (Slots Frame Part Overlaid look bind_ok_iff)

variable {code : List Insn} {base : Nat} {t : Link.Table}
  {L : Layout} {n k : Nat} {b b' : Builder} {x : Scope} {u : Unit}
  {σ σ' σ₁ : FrameSlots} {dst src : Int32} {d v : ValueId} {xs ys zs : Slots}
  {fr : Frame} {s : Span} {off : Int64} {o agg : Operand}
  {ty whole : Ty} {e : Int}

-- =================================================================== slots

/-- Some of the slots from an offset on got what a run of integers has there,
and those that are not among them stay as they were but for those from the
`n`-th to the top. -/
structure Lays (n : Nat) (top : Int) (dst : Int32) (zs : Slots) (P : Nat → Prop)
    (σ σ' : FrameSlots) : Prop where
  here : ∀ i, P i → ∀ y, zs[i]? = some y →
    ∃ a : Felt, a.Canonical ∧ a.toInt64 = y ∧ σ' (dst + Int32.ofNat i) = some a
  other : ∀ off : Int32, off.toInt < n ∨ top ≤ off.toInt →
    (∀ i < zs.length, off ≠ dst + Int32.ofNat i) → σ' off = σ off

/-- Nothing has been laid down yet. -/
theorem Lays.none (n : Nat) (e : Int) (dst : Int32) (zs : Slots)
    (σ : FrameSlots) :
    Lays n e dst zs (fun _ => False) σ σ :=
      ⟨fun _ h => h.elim, fun _ _ _ => rfl⟩

/-- Fewer places may be asked about. -/
theorem Lays.mono {P Q : Nat → Prop} (h : Lays n e dst zs P σ σ')
    (hQ : ∀ i, Q i → P i) :
    Lays n e dst zs Q σ σ' := ⟨fun i hi => h.here i (hQ i hi), h.other⟩

/-- When no slot is missing, the whole run is there. -/
theorem Lays.puts {P : Nat → Prop} (h : Lays n e dst zs P σ σ')
    (hall : ∀ i < zs.length, P i) : Puts n e dst zs σ σ' :=
  ⟨fun i y hy => h.here i (hall i (List.getElem?_eq_some_iff.mp hy).1) y hy,
  h.other⟩

/-- One part more. -/
theorem Lays.part {P : Nat → Prop} (h : Lays n e dst zs P σ σ₁)
    (hpart : Part zs k ys) (hk : k + ys.length ≤ zs.length)
    (hputs : Puts n e (dst + Int32.ofNat k) ys σ₁ σ')
    (hlt : ∀ i < zs.length, (dst + Int32.ofNat i).toInt < n)
    (hsmall : zs.length < 2 ^ 32) :
    Lays n e dst zs (fun i => P i ∨ k ≤ i ∧ i < k + ys.length) σ σ' := by
  have hslot (i : Nat) : dst + Int32.ofNat k + Int32.ofNat i
      = dst + Int32.ofNat (k + i) := by
    rw [Int32.add_assoc, ← Int32.ofNat_add]
  refine ⟨fun i hi y hy => ?_, fun off hoff hne => ?_⟩
  · have hlen := (List.getElem?_eq_some_iff.mp hy).1
    -- a slot of the part just written, and one that was there
    by_cases hin : k ≤ i ∧ i < k + ys.length
    · obtain ⟨z, hz⟩ : ∃ z, ys[i - k]? = some z :=
        ⟨_, List.getElem?_eq_getElem (by omega)⟩
      have hzy := hpart (i - k) z hz
      rw [Nat.add_sub_cancel' hin.1, hy, Option.some.injEq] at hzy
      have hthere := hputs.here (i - k) z hz
      rwa [hslot, Nat.add_sub_cancel' hin.1, ← hzy] at hthere
    · obtain ⟨a, ha, hay, hσ⟩ := h.here i (hi.resolve_right hin) y hy
      refine ⟨a, ha, hay, ?_⟩
      rw [hputs.other _ (.inl (hlt i hlen)) fun j hj heq => ?_, hσ]
      rw [hslot] at heq
      have := add_ofNat_inj (by omega) (by omega) heq
      omega
  · rw [hputs.other off hoff fun i hi => ?_, h.other off hoff hne]
    rw [hslot]
    exact hne _ (by omega)

-- ========================================================== without a value

/-- A frame without a value has the others. -/
theorem look_erase (h : o ≠ .value d) : look (fr.erase d) o = look fr o := by
  cases o with
  | value w =>
      show (fr.erase d)[w]? = fr[w]?
      rw [Std.ExtTreeMap.getElem?_erase, if_neg]
      intro heq
      exact h (by rw [Std.compare_eq_iff_eq.mp heq])
  | _ => rfl

namespace Scope.Mirrors

/-- A mirror of a frame is one of the frame without some value. -/
theorem erase (h : x.Mirrors L fr σ) (d : ValueId) :
    x.Mirrors L (fr.erase d) σ := by
  intro w y hw hy
  rw [Std.ExtTreeMap.getElem?_erase] at hy
  split at hy
  · cases hy
  · exact h w y hw hy

/-- What changes slots of one value only leaves the others as they are. -/
theorem keep_others (h : x.Mirrors L (fr.erase d) σ) (hx : x.Laid L)
    (hn : L.frameSize.toInt ≤ n) (hs : L.spans[d]? = some s)
    (hsame : ∀ off : Int32, off.toInt < n →
      (∀ i : Nat, (i : Int) < s.len.toInt → off ≠ s.base + Int32.ofNat i) →
      σ' off = σ off) :
    x.Mirrors L (fr.erase d) σ' := by
  intro w y hw hy
  have hne : w ≠ d := by
    rintro rfl
    rw [Std.ExtTreeMap.getElem?_erase_self] at hy
    cases hy
  obtain ⟨s', hs', hlen, hshows⟩ := h w y hw hy
  refine ⟨s', hs', hlen, hshows.keep fun j hj =>
    hsame _ (hx.slot_lt hn hs' (by omega)) ?_⟩
  exact fun i hi => hx.slot_ne hne hs' hs (by omega) hi

/-- A value that is in its slots is mirrored with the others. -/
theorem insert (h : x.Mirrors L (fr.erase d) σ) (hs : L.spans[d]? = some s)
    {y : Interp.Value} (hlen : (y.slots.length : Int) = s.len.toInt)
    (hshows : Shows σ s.base y.slots) : x.Mirrors L (fr.insert d y) σ := by
  intro w z hw hz
  rw [Interp.getElem?_insert_frame] at hz
  split at hz
  · rename_i hdw
    subst hdw
    cases hz
    exact ⟨s, hs, hlen, hshows⟩
  · rename_i hdw
    refine h w z hw ?_
    rw [Std.ExtTreeMap.getElem?_erase, if_neg, hz]
    intro heq
    exact hdw (Std.compare_eq_iff_eq.mp heq)

/-- A value got its slots. -/
theorem define (h : x.Mirrors L fr σ) (hx : x.Laid L)
    (hn : L.frameSize.toInt ≤ n) (hs : L.spans[d]? = some s) {y : Interp.Value}
    (hlen : (y.slots.length : Int) = s.len.toInt)
    (hputs : Puts n e s.base y.slots σ σ') :
    x.Mirrors L (fr.insert d y) σ' := by
  refine ((h.erase d).keep_others hx hn hs fun off hoff hne => ?_).insert
    hs hlen hputs.here
  exact hputs.other off (.inl hoff) fun i hi => hne i (by omega)

end Scope.Mirrors

-- ================================================================ one part

/-- An aggregate is a value in slots, at the base of its span. -/
theorem aggregate_ok {m : Nat} {off : Int32} (hS : Stage L m n b)
    (h : x.aggregate agg b = .ok off b') :
    b = b' ∧ ∃ v s, agg = .value v ∧ v ∉ x.static ∧ L.spans[v]? = some s
        ∧ off = s.base := by
  cases agg with
  | value v =>
      obtain ⟨w, b₁, h₁, h⟩ := bind_ok_iff.mp h
      obtain ⟨rfl, hw⟩ := val_ok hS h₁
      cases hw with
      | value hstatic hs =>
          cases h
          exact ⟨rfl, v, _, rfl, hstatic, hs, rfl⟩
  | _ => exact absurd h failWith_ne_ok

/-- The offset of a component is counted the same in the frame. -/
theorem inside_toInt32 (hin : whole.Inside off ty)
    (hsmall : whole.width ≤ 16777216) :
    off.toInt32 = Int32.ofNat off.toInt.toNat := by
  have := hin.nonneg
  have := hin.le
  rw [← Int32.toInt_inj, Layout.toInt_toInt32_of_le (by omega) (by omega),
    Int32.toInt_ofNat_of_lt (by omega)]
  omega

/-- Values of types that are counted exactly have as many slots as their
types. -/
theorem Scope.Laid.len_eq_width (hx : x.Laid L) (hs : L.spans[v]? = some s)
    (hv : v ∉ x.static) (hw : (x.func.typeOf v).width < 2 ^ 63) :
    s.len.toInt = (x.func.typeOf v).width := by
  rw [hx.len v s hs hv, Ty.toInt_slots _ hw]

/-- A component of an aggregate is copied to its value. -/
theorem extract_fills (hx : x.Laid L) (hS : Stage L 0 n b)
    (hst : Standing code base t b') (hd : d ∉ x.static)
    (hin : (x.func.operandType agg).Inside off (x.func.typeOf d))
    (hw : (x.func.operandType agg).width < 2 ^ 63)
    (h : x.extract d agg off (x.func.typeOf d).slots b = .ok u b') :
    Fills code base x L n b b' d fun fr zs => ∃ y z, look fr agg = some y
      ∧ y.part off (x.func.typeOf d).slots = .ok z ∧ zs = z.slots := by
  obtain ⟨_, b₁, h₁, h⟩ := bind_ok_iff.mp h
  obtain ⟨rfl, v, s', rfl, hv, hs', rfl⟩ := aggregate_ok hS h₁
  obtain ⟨_, b₂, h₂, h⟩ := bind_ok_iff.mp h
  obtain ⟨rfl, s, hs, rfl⟩ := offset_ok hS h₂
  obtain ⟨hlayout, hle⟩ := copyRun_layout h
  refine ⟨⟨n, le_rfl, hS.keep hlayout hle⟩, s, hs, ?_⟩
  rintro σ fr _ hfr ⟨y, z, hy, hz, rfl⟩
  have hin : (x.func.typeOf v).Inside off (x.func.typeOf d) := hin
  have hw : (x.func.typeOf v).width < 2 ^ 63 := hw
  have hpos := hin.nonneg
  have hend := hin.le
  -- the lengths of the two storages are the widths of the two types
  have hlen' : s'.len.toInt = (x.func.typeOf v).width :=
    hx.len_eq_width hs' hv hw
  have hlen : s.len.toInt = (x.func.typeOf d).width :=
    hx.len_eq_width hs hd (by omega)
  have hsmall := hx.len_le hs'
  have hty := (x.func.typeOf d).toInt_slots (by omega)
  obtain ⟨s'', hs'', hcount, hshows⟩ := hfr v y hv hy
  rw [hs', Option.some.injEq] at hs''
  subst hs''
  obtain ⟨k, hk⟩ : ∃ k, k = off.toInt.toNat := ⟨_, rfl⟩
  obtain ⟨z', hz', hslots⟩ : ∃ z', y.part off (x.func.typeOf d).slots = .ok z'
      ∧ z'.slots = (y.slots.drop k).take (x.func.typeOf d).width :=
    Interp.Value.part_slots (by omega) hty (by omega)
  rw [hz, Except.ok.injEq] at hz'
  subst hz'
  have hzlen : z.slots.length = (x.func.typeOf d).width := by
    rw [hslots, List.length_take, List.length_drop]
    omega
  rw [inside_toInt32 hin (by omega), ← hk] at h
  refine ⟨by omega,
    copySlots_leads hst h (by omega) (by omega) (fun i e he => ?_) (Or.inr ?_)⟩
  · have hi := (List.getElem?_eq_some_iff.mp he).1
    rw [hslots, List.getElem?_take_of_lt (by omega), List.getElem?_drop] at he
    rw [Int32.add_assoc, ← Int32.ofNat_add]
    exact hshows _ e he
  -- source and destination are storages of two values, which lie apart
  · intro i hi j hj
    have hne : v ≠ d := fun heq => hin.ne (by rw [heq])
    rw [Int32.add_assoc, ← Int32.ofNat_add]
    exact hx.slot_ne hne hs' hs (by push_cast; omega) (by omega)

/-- An aggregate is copied, and an operand is moved over one of its
components. -/
theorem insert_fills (hx : x.Laid L) (hS : Stage L 0 n b)
    (hst : Standing code base t b') (hd : d ∉ x.static)
    (hwhole : x.func.operandType agg = x.func.typeOf d)
    (hin : (x.func.typeOf d).Inside off ty)
    (hw : (x.func.typeOf d).width < 2 ^ 63)
    (ho : (x.func.operandType o).slots = ty.slots) (hne : o ≠ .value d)
    (h : x.insert d agg (x.func.typeOf d).slots o off ty.slots b = .ok u b') :
    Fills code base x L n b b' d fun fr zs => ∃ y e z, look fr agg = some y
        ∧ look fr o = some e
      ∧ (Interp.Value.copyOf y.slots).overwrite off e.slots = .ok z
      ∧ zs = z.slots := by
  obtain ⟨_, b₁, h₁, h⟩ := bind_ok_iff.mp h
  obtain ⟨rfl, v, s', rfl, hv, hs', rfl⟩ := aggregate_ok hS h₁
  obtain ⟨_, b₂, h₂, h⟩ := bind_ok_iff.mp h
  obtain ⟨rfl, s, hs, rfl⟩ := offset_ok hS h₂
  obtain ⟨_, b₃, h₃, h⟩ := bind_ok_iff.mp h
  obtain ⟨hlayout, hle⟩ := copyRun_layout h₃
  have hS₃ := hS.keep hlayout hle
  have hst₃ : Standing code base t b₃ :=
    hst.of_extends ((Extends.roomy fun _ => True).moveTo x _ _ _ _ _ _ h)
  have hplain := moveTo_computed hx hS₃ h ho
  refine ⟨⟨n, le_rfl, moveTo_stage hS₃ h⟩, s, hs, ?_⟩
  rintro σ fr _ hfr ⟨y, e, z, hy, he, hz, rfl⟩
  have hwhole : x.func.typeOf v = x.func.typeOf d := hwhole
  have hpos := hin.nonneg
  have hend := hin.le
  have hlen' : s'.len.toInt = (x.func.typeOf d).width := by
    rw [hx.len_eq_width hs' hv (by rw [hwhole]; exact hw), hwhole]
  have hlen : s.len.toInt = (x.func.typeOf d).width := hx.len_eq_width hs hd hw
  have hsmall := hx.len_le hs
  have hty := ty.toInt_slots (by omega)
  obtain ⟨s'', hs'', hcount, hshows⟩ := hfr v y hv hy
  rw [hs', Option.some.injEq] at hs''
  subst hs''
  have hcopied : (Interp.Value.copyOf y.slots).slots = y.slots := rfl
  have helen : e.slots.length = ty.width := by
    have := hfr.length_eq hx he hplain
    rw [ho, hty] at this
    omega
  obtain ⟨k, hk⟩ : ∃ k, k = off.toInt.toNat := ⟨_, rfl⟩
  have hover :=
    Interp.overlaid_of_overwrite (k := k) hz (by omega) (by rw [hcopied]; omega)
  rw [hcopied] at hover
  have hzlen := hover.length
  rw [inside_toInt32 hin (by omega), ← hk] at h
  -- the whole is copied
  obtain ⟨σ₁, hleads₁, hputs₁⟩ := copySlots_leads (n := n) (e := b'.top) hst₃ h₃
    (by rw [Ty.toInt_slots _ hw]; omega)
    (by rw [Ty.toInt_slots _ hw]; omega) hshows
    (hx.apart_spans hs' hs (by omega) (by omega))
  have hlays₁ : Lays n b'.top s.base z.slots (fun i => i < k
      ∨ k + e.slots.length ≤ i) σ σ₁ := by
    refine ⟨fun i hi c hc => ?_,
      fun off hoff hne => hputs₁.other off hoff (by rwa [← hzlen])⟩
    rw [hover.other i hi] at hc
    exact hputs₁.here i c hc
  have hothers := (hfr.erase d).keep_others hx hS.low hs fun off hoff hne =>
    hputs₁.other off (.inl hoff) fun i hi => hne i (by omega)
  -- the component is moved over its place
  have hstands : Stands L σ₁ o e.slots :=
    hothers.stands (by rw [look_erase hne, he]) hplain
  obtain ⟨σ₂, hleads₂, hputs₂⟩ :=
    moveTo_leads hS₃ hst h (by rw [hty]; omega) (by omega) hstands
    (fun w sw hw' hstatic hsw => Or.inr fun i hi j hj => by
      subst hw'
      have hwlen : sw.len.toInt = ty.width := by
        rw [hx.len w sw hsw hstatic, ← hty]
        exact congrArg Int64.toInt ho
      have hne : w ≠ d := fun heq => hne (by rw [heq])
      rw [Int32.add_assoc, ← Int32.ofNat_add]
      exact hx.slot_ne hne hsw hs (by omega) (by push_cast; omega))
  have hlays := hlays₁.part hover.here (by omega) hputs₂
    (fun i hi => hx.slot_lt hS.low hs (by omega)) (by omega)
  exact ⟨by omega, σ₂, hleads₁.trans hleads₂, hlays.puts fun i _ => by omega⟩

-- =============================================================== all parts

/-- Operands are moved one after the other, each to a place of its own behind an
offset. -/
inductive Placings (x : Scope) (dst : Int32) :
    List (Operand × Int64 × Ty) → Builder → Builder → Prop where
  | nil {b : Builder} : Placings x dst [] b b
  | cons {o : Operand} {off : Int64} {ty : Ty}
      {ms : List (Operand × Int64 × Ty)}
      {b c b' : Builder} {u : Unit} (head :
          x.moveTo o (dst + off.toInt32) ty.slots b = .ok u c)
      (tail : Placings x dst ms c b') : Placings x dst ((o, off, ty) :: ms) b b'

namespace Placings

variable {ms : List (Operand × Int64 × Ty)}

-- Placing parts is emitting code, and takes no slot behind the frame.
theorem extended (h : Placings x dst ms b b') : Extends b b' := by
  induction h with
  | nil => exact .refl _
  | cons head _ ih =>
    exact ((Extends.roomy fun _ => True).moveTo x _ _ _ _ _ _ head).trans ih

theorem stage (h : Placings x dst ms b b') (hS : Stage L 0 n b) :
    Stage L 0 n b' := by
  induction h with
  | nil => exact hS
  | cons head _ ih => exact ih (moveTo_stage hS head)

/-- What is asked of an operand that is moved to its place in an aggregate: it
has the slots of the component there, and it is another value than the
aggregate. -/
structure Suits (x : Scope) (d : ValueId)
    (m : Operand × Int64 × Ty) : Prop where
  inside : (x.func.typeOf d).Inside m.2.1 m.2.2
  slots : (x.func.operandType m.1).slots = m.2.2.slots
  ne : m.1 ≠ .value d

/-- What was moved to its place is there. -/
theorem lays (h : Placings x s.base ms b b') (hx : x.Laid L)
    (hS : Stage L 0 n b) (hst : Standing code base t b')
    (hs : L.spans[d]? = some s) (hlen : s.len.toInt = (x.func.typeOf d).width)
    (hsuits : ∀ m ∈ ms, Suits x d m) (hzs : zs.length = (x.func.typeOf d).width)
    (hparts : ∀ m ∈ ms, ∃ y, look fr m.1 = some y
      ∧ Part zs m.2.1.toInt.toNat y.slots)
    (hfr : x.Mirrors L (fr.erase d) σ₁) {P : Nat → Prop}
    (hlays : Lays n e s.base zs P σ σ₁) :
    ∃ σ', Leads code base b.code.length σ₁ b'.code.length σ'
        ∧ Lays n e s.base zs
      (fun i => P i ∨ ∃ m ∈ ms, m.2.1.toInt ≤ i
        ∧ (i : Int) < m.2.1.toInt + m.2.2.width) σ σ' := by
  induction h generalizing σ₁ P with
  | nil => exact ⟨σ₁, .refl _ _ _ _, hlays.mono fun i hi => by simpa using hi⟩
  | @cons o off ty ms b c b' _ head tail ih =>
      -- the first part is moved to its place inside the destination
      obtain ⟨hin, hslots, hne⟩ := hsuits _ List.mem_cons_self
      obtain ⟨y, hy, hpart⟩ := hparts _ List.mem_cons_self
      dsimp only at hin hslots hne hy hpart
      have hpos := hin.nonneg
      have hend := hin.le
      have hsmall := hx.len_le hs
      have hty := ty.toInt_slots (by omega)
      have hplain := moveTo_computed hx hS head hslots
      have hlook : look (fr.erase d) o = some y := by rw [look_erase hne, hy]
      have hcount : y.slots.length = ty.width := by
        have := hfr.length_eq hx hlook hplain
        rw [hslots, hty] at this
        omega
      rw [inside_toInt32 hin (by omega)] at head
      obtain ⟨σ₂, hleads, hputs⟩ :=
        moveTo_leads hS (hst.of_extends tail.extended) head
        (by rw [hty]; omega) (by omega) (hfr.stands hlook hplain)
        (fun w sw hw hstatic hsw => Or.inr fun i hi j hj => by
          subst hw
          have hwlen : sw.len.toInt = ty.width := by
            rw [hx.len w sw hsw hstatic, ← hty]
            exact congrArg Int64.toInt hslots
          have hne : w ≠ d := fun heq => hne (by rw [heq])
          rw [Int32.add_assoc, ← Int32.ofNat_add]
          exact hx.slot_ne hne hsw hs (by omega) (by push_cast; omega))
      -- its slots now hold it, and the values of the others are still there
      have hlays₂ := hlays.part hpart (by omega) hputs
        (fun i hi => hx.slot_lt hS.low hs (by omega)) (by omega)
      have hothers := hfr.keep_others hx hS.low hs fun off hoff hne => by
        refine hputs.other off (.inl hoff) fun i hi => ?_
        rw [Int32.add_assoc, ← Int32.ofNat_add]
        exact hne _ (by push_cast; omega)
      obtain ⟨σ', hleads', hlays'⟩ := ih (moveTo_stage hS head) hst
        (fun m hm => hsuits m (List.mem_cons_of_mem _ hm))
        (fun m hm => hparts m (List.mem_cons_of_mem _ hm)) hothers hlays₂
      refine ⟨σ', hleads.trans hleads', hlays'.mono fun i hi => ?_⟩
      -- a slot was covered before, is by this part, or will be by one of the
      -- rest
      rcases hi with hi | ⟨m, hm, hlo, hhi⟩
      · exact Or.inl (Or.inl hi)
      · rcases List.mem_cons.mp hm with rfl | hm
        · dsimp only at hlo hhi
          exact Or.inl (Or.inr (by omega))
        · exact Or.inr ⟨m, hm, hlo, hhi⟩

/-- An aggregate all of whose components are moved to their places. -/
theorem fills (h : Placings x s.base ms b b') (hx : x.Laid L)
    (hS : Stage L 0 n b) (hst : Standing code base t b') (hd : d ∉ x.static)
    (hs : L.spans[d]? = some s) (hw : (x.func.typeOf d).width < 2 ^ 63)
    (hsuits : ∀ m ∈ ms, Suits x d m) (hcovers : ∀ i < (x.func.typeOf d).width,
      ∃ m ∈ ms, m.2.1.toInt ≤ i ∧ (i : Int) < m.2.1.toInt + m.2.2.width) :
    Fills code base x L n b b' d fun fr zs => zs.length
        = (x.func.typeOf d).width
      ∧ ∀ m ∈ ms, ∃ y, look fr m.1 = some y
      ∧ Part zs m.2.1.toInt.toNat y.slots := by
  have hlen := hx.len_eq_width hs hd hw
  refine ⟨⟨n, le_rfl, h.stage hS⟩, s, hs,
    fun σ fr zs hfr ⟨hzs, hparts⟩ => ⟨by omega, ?_⟩⟩
  obtain ⟨σ', hleads, hlays⟩ :=
    h.lays hx hS hst hs hlen hsuits hzs hparts (hfr.erase d)
      (.none n b'.top s.base zs σ)
  exact ⟨σ', hleads, hlays.puts fun i hi => Or.inr (hcovers i (hzs ▸ hi))⟩

end Placings

-- ====================================================== tuples and structs

/-- What an instruction fills its slots with may be restated. -/
theorem Fills.of {gives gives' : Frame → Slots → Prop}
    (h : Fills code base x L n b b' d gives)
    (hgives : ∀ σ fr zs, x.Mirrors L fr σ → gives' fr zs → gives fr zs) :
    Fills code base x L n b b' d gives' := by
  obtain ⟨s, hs, hrun⟩ := h.run
  exact ⟨h.stage, s, hs, fun σ fr zs hfr hzs =>
    hrun σ fr zs hfr (hgives σ fr zs hfr hzs)⟩

/-- Each result of a list of lookups is that of its own entry. -/
theorem mapM_getElem? {α β : Type} {g : α → Option β}
    {as : List α} {bs : List β} (h : as.mapM g = some bs) {i : Nat} {a : α}
    (ha : as[i]? = some a) : ∃ b, bs[i]? = some b ∧ g a = some b := by
  induction as generalizing bs i with
  | nil => simp at ha
  | cons a' as ih =>
      rw [List.mapM_cons] at h
      obtain ⟨b', hb', h⟩ := Option.bind_eq_some_iff.mp h
      obtain ⟨bs', hbs', h⟩ := Option.bind_eq_some_iff.mp h
      cases h
      cases i with
      | zero =>
          cases ha
          exact ⟨b', rfl, hb'⟩
      | succ i => exact ih hbs' (by simpa using ha)

/-- The elements of a tuple and their places. -/
def elemPlaces (ts : List Ty) (es : List (Operand × Nat)) :
    List (Operand × Int64 × Ty) :=
  es.map fun (e, i) => (e, (Ty.tupleOffset ts i).getD 0, ts.getD i .missing)

/-- The elements of a tuple are moved one by one, to the slots where their types
begin. -/
theorem placings_of_tupleElems {ts : List Ty} {es : List (Operand × Nat)}
    (h : x.tupleElems dst ts es b = .ok u b') :
    Placings x dst (elemPlaces ts es) b b' := by
  induction es generalizing b with
  | nil =>
      cases h
      exact .nil
  | cons e es ih =>
      obtain ⟨e, i⟩ := e
      obtain ⟨ty, b₁, h₁, hmoves⟩ := bind_ok_iff.mp h
      obtain ⟨hty, rfl⟩ := need_ok_iff.mp h₁
      obtain ⟨_, b₂, h₂, hrest⟩ := bind_ok_iff.mp hmoves
      have hget : ts.getD i .missing = ty := by
        rw [List.getD_eq_getElem?_getD, hty]
        rfl
      exact .cons (by rw [hget]; exact under_ok_iff.mp h₂) (ih hrest)

/-- An element belongs behind the slots of the types before its own. -/
theorem mem_elemPlaces {es : List Operand} {ts : List Ty}
    (hcount : es.length = ts.length) {m : Operand × Int64 × Ty} :
    m ∈ elemPlaces ts es.zipIdx
        ↔ ∃ (i : Nat) (e : Operand) (ty : Ty), es[i]? = some e
      ∧ ts[i]? = some ty ∧ m = (e, Ty.slotsOfList (ts.take i), ty) := by
  -- the place of an element, as the layout of the tuple gives it
  have hplace {i : Nat} {ty : Ty} (hi : ts[i]? = some ty) :
      (Ty.tupleOffset ts i).getD 0 = Ty.slotsOfList (ts.take i)
      ∧ ts.getD i .missing = ty := by
    have hlt := (List.getElem?_eq_some_iff.mp hi).1
    rw [Ty.tupleOffset, if_pos (by omega), Int.toNat_natCast,
      List.getD_eq_getElem?_getD, hi]
    exact ⟨rfl, rfl⟩
  rw [elemPlaces, List.mem_map]
  constructor
  · rintro ⟨⟨e, i⟩, he, rfl⟩
    have he : es[i]? = some e := List.mem_zipIdx_iff_getElem?.mp he
    have hlt := (List.getElem?_eq_some_iff.mp he).1
    have hi := List.getElem?_eq_getElem (hcount ▸ hlt : i < ts.length)
    obtain ⟨hoff, hty⟩ := hplace hi
    exact ⟨i, e, _, he, hi, by dsimp only; rw [hoff, hty]⟩
  · rintro ⟨i, e, ty, he, hi, rfl⟩
    obtain ⟨hoff, hty⟩ := hplace hi
    exact ⟨(e, i),
      List.mem_zipIdx_iff_getElem?.mpr he, by dsimp only; rw [hoff, hty]⟩

/-- Every slot of a tuple is one of an element. -/
theorem elemPlaces_covers {es : List Operand} {ts : List Ty}
    (hcount : es.length = ts.length) (hw : (Ty.tuple ts).width < 2 ^ 63)
    {i : Nat} (hi : i < (Ty.tuple ts).width) :
    ∃ m ∈ elemPlaces ts es.zipIdx, m.2.1.toInt ≤ i
        ∧ (i : Int) < m.2.1.toInt + m.2.2.width := by
  -- the elements tile the tuple, so some element covers the slot
  obtain ⟨range, hrange, hlo, hhi⟩ :=
    (Ty.tiles_tuple ts hw).filled i (Int.natCast_nonneg i)
    (by rw [Ty.toInt_slots _ hw]; omega)
  obtain ⟨⟨ty, j⟩, hj, rfl⟩ := List.mem_map.mp hrange
  have hj : ts[j]? = some ty := List.mem_zipIdx_iff_getElem?.mp hj
  have hlt := (List.getElem?_eq_some_iff.mp hj).1
  have hle := Ty.widthOfList_take_le ts (j + 1)
  rw [Ty.widthOfList_take_add hj] at hle
  rw [Ty.width] at hw
  dsimp only at hlo hhi
  rw [Ty.tupleOffset, if_pos (by omega), Int.toNat_natCast,
    Option.getD_some] at hlo hhi
  rw [Ty.toInt_slots ty (by omega)] at hhi
  exact ⟨_, (mem_elemPlaces hcount).mpr ⟨j, es[j], ty,
    List.getElem?_eq_getElem (by omega), hj, rfl⟩, hlo, hhi⟩

/-- A tuple gets its elements, one after the other. -/
theorem makeTuple_fills {es : List Operand} {ts : List Ty} (hx : x.Laid L)
    (hS : Stage L 0 n b) (hst : Standing code base t b') (hd : d ∉ x.static)
    (hty : x.func.typeOf d = .tuple ts) (hw : (x.func.typeOf d).width < 2 ^ 63)
    (hcount : es.length = ts.length)
    (hes : ∀ p ∈ es.zip ts, (x.func.operandType p.1).slots
      = p.2.slots ∧ p.1 ≠ .value d)
    (hplain : ∀ p ∈ es.zip ts, ∀ v, p.1 = .value v → v ∉ x.static)
    (h : (Scope.offset d >>= fun dst => x.tupleElems dst ts es.zipIdx) b
      = .ok u b') :
    Fills code base x L n b b' d fun fr zs => ∃ ys, es.mapM (look fr) = some ys
      ∧ zs = (ys.map (·.slots)).flatten := by
  obtain ⟨_, b₁, h₁, h⟩ := bind_ok_iff.mp h
  obtain ⟨rfl, s, hs, rfl⟩ := offset_ok hS h₁
  have hwidth : (x.func.typeOf d).width = Ty.widthOfList ts := by
    rw [hty, Ty.width]
  have hsmall : Ty.widthOfList ts ≤ 16777216 := by
    have := hx.len_le hs
    have := hx.len_eq_width hs hd hw
    omega
  have hwhole : (Ty.tuple ts).width < 2 ^ 63 := hty ▸ hw
  -- every element fits its place, and none of them is the result itself
  have hsuits : ∀ m ∈ elemPlaces ts es.zipIdx, Placings.Suits x d m := by
    intro m hm
    obtain ⟨i, e, ty, he, hi, rfl⟩ := (mem_elemPlaces hcount).mp hm
    obtain ⟨hslots, hne⟩ := hes (e, ty)
      (List.mem_of_getElem? (i := i) (List.getElem?_zip_eq_some.mpr ⟨he, hi⟩))
    have hlt := (List.getElem?_eq_some_iff.mp hi).1
    have hin := Ty.inside_tuple (i := i) hwhole
      (by rw [Ty.tupleOffset, if_pos (by omega)])
    rw [Int.toNat_natCast, List.getD_eq_getElem?_getD, hi] at hin
    exact ⟨hty ▸ hin, hslots, hne⟩
  refine ((placings_of_tupleElems h).fills hx hS hst hd hs hw hsuits fun i hi =>
    elemPlaces_covers hcount hwhole (hty ▸ hi)).of ?_
  rintro σ fr _ hfr ⟨ys, hys, rfl⟩
  have htypes : (es.zip ts).map (·.2) = ts := List.map_snd_zip hcount.ge
  have hstand :=
    hfr.stand_all hx (fun p hp => (hes p hp).1) hplain (by rwa [htypes])
    (by rwa [List.map_fst_zip hcount.le])
  -- the values are as wide as their types, so they lie where the places say
  have hlens := hstand.imp fun _ _ h => h.2
  refine ⟨by rw [length_of_widths hlens, htypes, hwidth], fun m hm => ?_⟩
  obtain ⟨i, e, ty, he, -, rfl⟩ := (mem_elemPlaces hcount).mp hm
  obtain ⟨y, hy, hlook⟩ := mapM_getElem? hys he
  have hslots : (ys.map (·.slots))[i]? = some y.slots := by
    rw [List.getElem?_map, hy]
    rfl
  have hpart := Interp.part_flatten hslots
  rw [length_of_widths (List.forall₂_take i hlens),
    List.map_take, htypes] at hpart
  have hle := Ty.widthOfList_take_le ts i
  refine ⟨y, hlook, ?_⟩
  rwa [Ty.slotsOfList_eq_ofNat, Int64.toInt_ofNat_of_lt (by omega),
    Int.toNat_natCast]

/-- The given fields of a struct and their places. -/
def fieldPlaces (r : Record) (fs : List (String × Operand)) :
    List (Operand × Int64 × Ty) :=
  fs.filterMap fun p => (r.field? p.1).map fun fld =>
    (p.2, fld.offset, fld.type)

/-- A field belongs at its own offset. -/
theorem mem_fieldPlaces {r : Record} {fs : List (String × Operand)}
    {m : Operand × Int64 × Ty} :
    m ∈ fieldPlaces r fs ↔ ∃ p ∈ fs, ∃ fld, r.field? p.1 = some fld
      ∧ m = (p.2, fld.offset, fld.type) := by
  simp only [fieldPlaces, List.mem_filterMap, Option.map_eq_some_iff]
  constructor
  · rintro ⟨p, hp, fld, hfield, rfl⟩
    exact ⟨p, hp, fld, hfield, rfl⟩
  · rintro ⟨p, hp, fld, hfield, rfl⟩
    exact ⟨p, hp, fld, hfield, rfl⟩

/-- The fields of a record are moved one by one, in the order given. -/
theorem placings_of_structFields {r : Record} (hr : r.Placed)
    {fs : List (String × Operand)} (h : x.structFields dst r fs b = .ok u b') :
    Placings x dst (fieldPlaces r fs) b b' := by
  induction fs generalizing b with
  | nil =>
      cases h
      exact .nil
  | cons p fs ih =>
      obtain ⟨name, o⟩ := p
      rw [Scope.structFields, hr.slotOffset?] at h
      cases hfield : r.field? name with
      -- a field the structure does not have is refused
      | none =>
          rw [hfield] at h
          exact absurd h failWith_ne_ok
      | some fld =>
          rw [hfield] at h
          obtain ⟨_, b₁, h₁, hrest⟩ := bind_ok_iff.mp h
          have hplaces : fieldPlaces r ((name, o) :: fs)
              = (o, fld.offset, fld.type) :: fieldPlaces r fs := by
            simp only [fieldPlaces, List.filterMap_cons,
              hfield, Option.map_some]
          rw [hplaces]
          exact .cons (under_ok_iff.mp h₁) (ih hrest)

/-- A struct gets its fields, each of which is given once. -/
theorem makeStruct_fills {r : Record}
    {fs : List (String × Operand)} (hx : x.Laid L) (hS : Stage L 0 n b)
    (hst : Standing code base t b') (hd : d ∉ x.static)
    (hty : x.func.typeOf d = r.toTy) (hr : r.Placed)
    (hw : (x.func.typeOf d).width < 2 ^ 63) (hgives : Interp.GivesAll r fs)
    (hfs : ∀ p ∈ fs, ∀ fld, r.field? p.1 = some fld →
      (x.func.operandType p.2).slots = fld.type.slots ∧ p.2 ≠ .value d)
    (hplain : ∀ p ∈ fs, ∀ v, p.2 = .value v → v ∉ x.static)
    (h : (Scope.offset d >>= fun dst => x.structFields dst r fs) b = .ok u b') :
    Fills code base x L n b b' d fun fr zs => ∃ z w w', Interp.putFields fr r fs
      ⟨List.replicate r.toTy.slots.toInt.toNat 0, 0⟩ w = .ok z w'
        ∧ zs = z.slots := by
  obtain ⟨_, b₁, h₁, h⟩ := bind_ok_iff.mp h
  obtain ⟨rfl, s, hs, rfl⟩ := offset_ok hS h₁
  rw [hty] at hw
  -- every field fits its place
  have hsuits : ∀ m ∈ fieldPlaces r fs, Placings.Suits x d m := by
    intro m hm
    obtain ⟨p, hp, fld, hfield, rfl⟩ := mem_fieldPlaces.mp hm
    obtain ⟨hslots, hne⟩ := hfs p hp fld hfield
    refine ⟨?_, hslots, hne⟩
    rw [hty]
    exact Ty.inside_struct hr hw hfield
  -- and no slot of the structure is left out
  have hcovers : ∀ i < (x.func.typeOf d).width, ∃ m ∈ fieldPlaces r fs,
      m.2.1.toInt ≤ i ∧ (i : Int) < m.2.1.toInt + m.2.2.width := by
    intro i hi
    obtain ⟨p, hp, fld, hfield, hlo, hhi⟩ := hgives.covers hr hw (hty ▸ hi)
    exact ⟨_, mem_fieldPlaces.mpr ⟨p, hp, fld, hfield, rfl⟩, hlo, hhi⟩
  refine ((placings_of_structFields hr h).fills hx hS hst hd hs (hty ▸ hw)
    hsuits hcovers).of ?_
  rintro σ fr _ hfr ⟨z, w, w', hz, rfl⟩
  -- what the interpreter puts together has each field at its place
  obtain ⟨hlen, hgiven, -⟩ := Interp.putFields_ok hr hw hgives.once
    (fun p hp fld y hfield hy => by
      have hin := Ty.inside_struct hr hw hfield
      have hpos := hin.nonneg
      have hle := hin.le
      have := hfr.length_eq hx hy (hplain p hp)
      rw [(hfs p hp fld hfield).1, Ty.toInt_slots _ (by omega)] at this
      omega)
    (by rw [List.length_replicate, Ty.toInt_slots _ hw, Int.toNat_natCast]) hz
  refine ⟨by rw [hlen, hty], fun m hm => ?_⟩
  obtain ⟨p, hp, fld, hfield, rfl⟩ := mem_fieldPlaces.mp hm
  obtain ⟨fld', y, hfield', hy, hpart⟩ := hgiven p hp
  rw [hfield, Option.some.injEq] at hfield'
  subst hfield'
  exact ⟨y, hy, hpart⟩

end MirBackend.Asm
