/-
Where the values of a function lie in its frame.

Laying values out one after the other keeps their spans apart, since a new span
starts where the frame ends and the frame only grows (`Laying`). That needs
types of which no value takes less than nothing; sizes are sums of 64 bits, and
one that wrapped, or an array of negative length, would let the frame shrink.
Parameters lie below the slots of the results, and these below the two slots
that link a frame to its caller.
-/
import Mathlib
import MirBackend.Layout
import MirBackend.Proofs.Func.Definitions
import MirBackend.Proofs.Outcome
import MirBackend.Proofs.Ty

namespace MirBackend

namespace Layout

variable {f : Func} {l l' : Layout} {v w : ValueId} {s s' : Span} {i : Nat}

-- ============================================================== parameters

/-- The last place of a member of a list. -/
theorem exists_last {α : Type} {a : α} {as : List α} (h : a ∈ as) :
    ∃ i, as[i]? = some a ∧ a ∉ as.drop (i + 1) := by
  induction as with
  | nil => cases h
  | cons b as ih =>
      by_cases hin : a ∈ as
      · obtain ⟨i, hi, hlast⟩ := ih hin
        exact ⟨i + 1, hi, hlast⟩
      · rcases List.mem_cons.mp h with rfl | h
        · exact ⟨0, rfl, hin⟩
        · exact absurd h hin

/-- A value's span is the last one it was given. -/
theorem getElem?_place (l : Layout) (v w : ValueId) (s : Span) :
    (l.place v s).spans[w]? = if v = w then some s else l.spans[w]? := by
  rw [place, Std.ExtTreeMap.getElem?_insert]
  simp only [Std.compare_eq_iff_eq]

/-- The slots of values side by side, counted without wrapping. -/
def widthOf (f : Func) (vs : List ValueId) : Nat :=
  Ty.widthOfList (vs.map f.typeOf)

-- The width of some values is that of their types together.
theorem widthOf_nil (f : Func) : widthOf f [] = 0 := by
  rw [widthOf, List.map_nil, Ty.widthOfList]

theorem widthOf_cons (f : Func) (v : ValueId) (vs : List ValueId) :
    widthOf f (v :: vs) = (f.typeOf v).width + widthOf f vs := by
  rw [widthOf, List.map_cons, Ty.widthOfList, widthOf]

theorem widthOf_take_add {vs : List ValueId} {i : Nat} (h : vs[i]? = some v) :
    widthOf f (vs.take (i + 1)) = widthOf f
      (vs.take i) + (f.typeOf v).width := by
  rw [widthOf, widthOf, List.map_take, List.map_take]
  exact Ty.widthOfList_take_add (by rw [List.getElem?_map, h, Option.map_some])

theorem widthOf_take_le (f : Func) (vs : List ValueId) (i : Nat) :
    widthOf f (vs.take i) ≤ widthOf f vs := by
  rw [widthOf, widthOf, List.map_take]
  exact Ty.widthOfList_take_le _ i

theorem widthOf_take_mono (f : Func) (vs : List ValueId)
    {i j : Nat} (h : i ≤ j) :
    widthOf f (vs.take i) ≤ widthOf f (vs.take j) := by
  have := widthOf_take_le f (vs.take j) i
  rwa [List.take_take, Nat.min_eq_left h] at this

/-- A parameter lies at its last place in the list. -/
theorem placeParams_spec (f : Func) (ps : List ValueId)
    (off : Int32) (l : Layout) :
    (∃ spans order, placeParams f off ps l = { l with spans, order })
      ∧ (∀ v, v ∉ ps → (placeParams f off ps l).spans[v]? = l.spans[v]?)
      ∧ ∀ i p, ps[i]? = some p → p ∉ ps.drop (i + 1) →
        (placeParams f off ps l).spans[p]?
          = some ⟨off + Int32.ofNat (widthOf f (ps.take i)),
            (f.typeOf p).slots⟩ := by
  induction ps generalizing off l with
  | nil => exact ⟨⟨l.spans, l.order, rfl⟩, fun _ _ => rfl,
    fun i p h => by simp at h⟩
  | cons p ps ih =>
      have hnext : (f.typeOf p).slots.toInt32
          = Int32.ofNat (f.typeOf p).width := by
        rw [Ty.slots_eq_ofNat, Int64.toInt32_ofNat']
      obtain ⟨⟨spans, order, hsame⟩, hother, hthese⟩ :=
        ih (off + (f.typeOf p).slots.toInt32)
          (l.place p ⟨off, (f.typeOf p).slots⟩)
      rw [placeParams]
      refine ⟨⟨spans, order, hsame⟩, fun v hv => ?_, fun i q hi hlast => ?_⟩
      · rw [List.mem_cons, not_or] at hv
        rw [hother v hv.2, getElem?_place, if_neg fun h => hv.1 h.symm]
      · cases i with
        | zero =>
            rw [List.getElem?_cons_zero, Option.some.injEq] at hi
            subst hi
            rw [hother p hlast, getElem?_place, if_pos rfl,
              List.take_zero, widthOf_nil]
            exact congrArg (fun x => some (⟨x, _⟩ : Span))
              (Int32.add_zero off).symm
        | succ i =>
            rw [hthese i q hi hlast, List.take_succ_cons, widthOf_cons,
              Int32.ofNat_add, hnext, Int32.add_assoc]

/-- Slots that are added up are the exact ones but for wrapping. -/
theorem foldlM_slots {ε : Type} {step : Int64 → ValueId → Except ε Int64}
    {vs : List ValueId} {k n : Int64}
    (hstep : ∀ k v n, step k v = .ok n → n = k + (f.typeOf v).slots)
    (h : vs.foldlM step k = .ok n) : n = k + Int64.ofNat (widthOf f vs) := by
  induction vs generalizing k with
  | nil =>
      cases h
      rw [widthOf_nil]
      simp
  | cons v vs ih =>
      rw [List.foldlM_cons] at h
      obtain ⟨k₁, hk₁, h⟩ := bind_eq_ok.mp h
      rw [ih h, hstep k v k₁ hk₁, widthOf_cons, Ty.slots_eq_ofNat,
        Int64.ofNat_add, Int64.add_assoc]

/-- The slots that parameters are counted to take are the exact ones but for
wrapping. -/
theorem paramSlotsOf_eq {n : Int64} (h : paramSlotsOf f = .ok n) :
    n = Int64.ofNat (widthOf f f.params) := by
  refine (foldlM_slots (fun k p n hk => ?_) h).trans (Int64.zero_add _)
  rw [Func.typeOf, Std.ExtTreeMap.getD_eq_getD_getElem?]
  cases ht : f.types[p]? with
  | none =>
      simp only [ht] at hk
      cases hk
  | some t =>
      simp only [ht] at hk
      cases hk
      rfl

-- ================================================================== locals

/-- The lowest offset of a function: of its first parameter. -/
def bottom (f : Func) : Int :=
  -(widthOf f f.params : Int) - Ty.widthOfList f.returns - 2

/-- The offset of the parameter at a place in the list. -/
def paramAt (f : Func) (i : Nat) : Int := bottom f + widthOf f (f.params.take i)

/-- The offset of the first slot of the results. -/
def resultsAt (f : Func) : Int := -(Ty.widthOfList f.returns : Int) - 2

/-- A parameter lies between the bottom and the results. -/
theorem paramAt_le (hv : f.params[i]? = some v) :
    bottom f ≤ paramAt f i ∧ paramAt f i + (f.typeOf v).width
        ≤ resultsAt f := by
  have hadd := widthOf_take_add (f := f) hv
  have hle := widthOf_take_le f f.params (i + 1)
  rw [paramAt, resultsAt, bottom]
  omega

/-- A layout of a function on the way: spans lie apart, those of locals in the
frame and those of parameters below the results, and each has the length that a
parameter or a definition of its value asks for. -/
structure Laying (f : Func) (l : Layout) : Prop where
  nonneg : 0 ≤ l.frameSize.toInt
  fits : l.frameSize.toInt ≤ 16777216
  span : ∀ (v : ValueId) (s : Span), l.spans[v]? = some s → 0 ≤ s.len.toInt
    ∧ (v ∉ f.params ∧ 0 ≤ s.base.toInt ∧ s.base.toInt + s.len.toInt
      ≤ l.frameSize.toInt
      ∨ v ∈ f.params ∧ bottom f ≤ s.base.toInt
      ∧ s.base.toInt + s.len.toInt ≤ resultsAt f)
  apart : ∀ (v w : ValueId) (s s' : Span), v ≠ w → l.spans[v]? = some s →
    l.spans[w]? = some s' →
    s.base.toInt + s.len.toInt ≤ s'.base.toInt
      ∨ s'.base.toInt + s'.len.toInt ≤ s.base.toInt
  param : ∀ i p, f.params[i]? = some p → p ∉ f.params.drop (i + 1) →
    l.spans[p]? = some ⟨Int32.ofInt (paramAt f i), (f.typeOf p).slots⟩
  traced : ∀ (v : ValueId) (s : Span), l.spans[v]? = some s → v ∉ f.params →
    ∃ i, f.HasInstr i ∧ v ∈ i.dests ∧ destSlots f i v = .ok s.len
  paramSlots : l.paramSlots = Int64.ofNat (widthOf f f.params)
  returnSlots : l.returnSlots = Int64.ofNat (Ty.widthOfList f.returns)

/-- Types of which no value takes less than nothing, and a signature whose slots
can be counted. -/
structure Sized (f : Func) : Prop where
  signature : widthOf f f.params + Ty.widthOfList f.returns < 2 ^ 63
  dest : ∀ i, f.HasInstr i → ∀ d ∈ i.dests, ∀ n, destSlots f i d = .ok n → 0 ≤ n

/-- Sums within the largest frame do not wrap. -/
theorem toInt_add_of_le {a b : Int64} (ha : 0 ≤ a.toInt) (hb : 0 ≤ b.toInt)
    (h : a.toInt + b.toInt ≤ 16777216) : (a + b).toInt = a.toInt + b.toInt := by
  rw [Int64.toInt_add]
  exact Int.bmod_eq_of_le (by omega) (by omega)

/-- An offset in a frame fits 32 bits. -/
theorem toInt_toInt32_of_le {a : Int64} (ha : 0 ≤ a.toInt)
    (h : a.toInt ≤ 16777216) : a.toInt32.toInt = a.toInt := by
  rw [Int64.toInt_toInt32]
  exact Int.bmod_eq_of_le (by omega) (by omega)

/-- A destination has its place afterwards, and what had one keeps it. -/
theorem placeDest_grows {i : Instr} {d : ValueId}
    (hl : placeDest f i l d = .ok l') :
    d ∈ l'.spans ∧ ∀ v ∈ l.spans, v ∈ l'.spans := by
  rw [placeDest] at hl
  split at hl
  · rename_i hin
    cases hl
    exact ⟨Std.ExtTreeMap.contains_iff_mem.mp hin, fun _ hv => hv⟩
  obtain ⟨n, -, hl⟩ := bind_eq_ok.mp hl
  dsimp only at hl
  split at hl
  · cases hl
  cases hl
  exact ⟨Std.ExtTreeMap.mem_insert_self,
    fun v hv => Std.ExtTreeMap.mem_insert.mpr (Or.inr hv)⟩

/-- Parameters have their places from the start. -/
theorem Laying.param_mem (h : Laying f l)
    (hv : v ∈ f.params) : v ∈ l.spans := by
  obtain ⟨i, hi, hlast⟩ := exists_last hv
  rw [Std.ExtTreeMap.mem_iff_isSome_getElem?, h.param i v hi hlast]
  rfl

/-- What is placed ends within the frame, or lies below it. -/
theorem Laying.stop_le (h : Laying f l) {s : Span} (hs : l.spans[v]? = some s) :
    s.base.toInt + s.len.toInt ≤ l.frameSize.toInt := by
  have hnonneg := h.nonneg
  obtain ⟨-, ⟨-, -, hin⟩ | ⟨-, -, hin⟩⟩ := h.span v s hs
  · exact hin
  · rw [resultsAt] at hin
    omega

/-- The room that is left in a frame. -/
theorem Laying.le_room (h : Laying f l) {n : Int64}
    (hroom : ¬ n > maxFrame - l.frameSize) :
    l.frameSize.toInt + n.toInt ≤ 16777216 := by
  have hnonneg := h.nonneg
  have hfits := h.fits
  have hsub : (maxFrame - l.frameSize).toInt
      = 16777216 - l.frameSize.toInt := by
    rw [Int64.toInt_sub]
    exact Int.bmod_eq_of_le (by show _ ≤ (16777216 : Int) - _; omega)
      (by show (16777216 : Int) - _ < _; omega)
  rw [gt_iff_lt, Int64.lt_iff_toInt_lt, hsub] at hroom
  omega

/-- A value without a place gets one at the end of the frame. -/
theorem Laying.extend (h : Laying f l) {d : ValueId} {n : Int64}
    (hnew : d ∉ l.spans) (hpos : 0 ≤ n.toInt)
    (hroom : l.frameSize.toInt + n.toInt ≤ 16777216)
    (htraced : ∃ i, f.HasInstr i ∧ d ∈ i.dests ∧ destSlots f i d = .ok n) :
    Laying f
      { l.place d ⟨l.frameSize.toInt32, n⟩ with frameSize := l.frameSize + n } := by
  have hsum := toInt_add_of_le h.nonneg hpos hroom
  have hbase := toInt_toInt32_of_le h.nonneg h.fits
  have hlocal : d ∉ f.params := fun hp => hnew (h.param_mem hp)
  have hnonneg := h.nonneg
  -- the spans are the old ones and the new one
  have hspans {v : ValueId} {s : Span}
      (hs : (l.place d ⟨l.frameSize.toInt32, n⟩).spans[v]? = some s) :
      d = v ∧ s = ⟨l.frameSize.toInt32, n⟩ ∨ d ≠ v ∧ l.spans[v]? = some s := by
    rw [getElem?_place] at hs
    split at hs
    · next hv => exact Or.inl ⟨hv, (Option.some.inj hs).symm⟩
    · next hv => exact Or.inr ⟨hv, hs⟩
  refine ⟨?_, ?_, fun v s hs => ?_, fun v w s s' hne hs hs' => ?_,
    fun i p hip hlast => ?_, fun v s hs hv => ?_, h.paramSlots, h.returnSlots⟩
  · show 0 ≤ (l.frameSize + n).toInt
    omega
  · show (l.frameSize + n).toInt ≤ _
    omega
  · show _ ∧ (_ ∧ _ ∧ _ ≤ (l.frameSize + n).toInt ∨ _)
    obtain ⟨rfl, rfl⟩ | ⟨-, hs⟩ := hspans hs
    · exact ⟨hpos,
        Or.inl ⟨hlocal, by rw [hbase]; exact h.nonneg, by rw [hbase, hsum]⟩⟩
    · obtain ⟨hlen, hin⟩ := h.span v s hs
      exact ⟨hlen, hin.imp_left fun hin => ⟨hin.1, hin.2.1, by omega⟩⟩
  · obtain ⟨rfl, rfl⟩ | ⟨-, hs⟩ := hspans hs
    · obtain ⟨rfl, -⟩ | ⟨-, hs'⟩ := hspans hs'
      · exact absurd rfl hne
      · exact Or.inr (by rw [hbase]; exact h.stop_le hs')
    · obtain ⟨rfl, rfl⟩ | ⟨-, hs'⟩ := hspans hs'
      · exact Or.inl (by rw [hbase]; exact h.stop_le hs)
      · exact h.apart v w s s' hne hs hs'
  · show (l.place d ⟨l.frameSize.toInt32, n⟩).spans[p]? = _
    have hdp : d ≠ p := fun hdp => hlocal (hdp ▸ List.mem_of_getElem? hip)
    rw [getElem?_place, if_neg hdp, h.param i p hip hlast]
  · obtain ⟨rfl, rfl⟩ | ⟨-, hs⟩ := hspans hs
    · exact htraced
    · exact h.traced v s hs hv

/-- One more destination finds its place at the end of the frame. -/
theorem Laying.placeDest (h : Laying f l) (hf : Sized f) {i : Instr}
    (hi : f.HasInstr i) {d : ValueId} (hd : d ∈ i.dests)
    (hl : placeDest f i l d = .ok l') : Laying f l' := by
  rw [Layout.placeDest] at hl
  split at hl
  · cases hl
    exact h
  rename_i hnew
  rw [Std.ExtTreeMap.contains_iff_mem] at hnew
  obtain ⟨n, hn, hl⟩ := bind_eq_ok.mp hl
  have hpos : 0 ≤ n.toInt := Int64.le_iff_toInt_le.mp (hf.dest i hi d hd n hn)
  dsimp only at hl
  split at hl
  · cases hl
  rename_i hroom
  cases hl
  exact h.extend hnew hpos (h.le_room hroom) ⟨i, hi, hd, hn⟩

/-- The layout of a function: every value that is defined has its span. -/
structure Laid (f : Func) (l : Layout) : Prop extends Laying f l where
  signature : widthOf f f.params + Ty.widthOfList f.returns ≤ 16777216
  covered : ∀ i, f.HasInstr i → ∀ d ∈ i.dests, d ∈ l.spans

/-- An instruction that is there is itself. -/
theorem eq_of_present {i j : Instr} (h : i.present = .ok j) : j = i := by
  cases i <;> cases h <;> rfl

/-- The destinations of an instruction. -/
def placeDests (f : Func) (l : Layout) (i : Instr) :
    Except (Stop LayoutError) Layout := do
  let i ← liftChecked i.present
  i.dests.foldlM (placeDest f i) l

/-- Placing an instruction places each value it defines. -/
theorem placeDests_eq_ok {i : Instr} (h : placeDests f l i = .ok l') :
    i.dests.foldlM (placeDest f i) l = .ok l' := by
  obtain ⟨j, hj, h⟩ := bind_eq_ok.mp h
  rw [liftChecked_eq_ok] at hj
  rwa [eq_of_present hj] at h

/-- Placing a block places each of its instructions. -/
theorem placeBlock_eq_ok {b : Option Block} (h : placeBlock f l b = .ok l') :
    ∃ blk, b = some blk ∧ blk.instrs.foldlM (placeDests f) l = .ok l' := by
  obtain ⟨blk, hblk, h⟩ := bind_eq_ok.mp h
  rw [liftChecked_eq_ok, orFault_eq_ok] at hblk
  exact ⟨blk, hblk, h⟩

/-- The destinations of an instruction have their places afterwards. -/
theorem placeDests_grows {i : Instr} (h : placeDests f l i = .ok l') :
    (∀ d ∈ i.dests, d ∈ l'.spans) ∧ ∀ v ∈ l.spans, v ∈ l'.spans := by
  have h := placeDests_eq_ok h
  refine ⟨foldlM_reaches (P := fun d l => d ∈ l.spans)
    (fun a b l l' ha hl => ?_)
    (fun d l l' hl => (placeDest_grows hl).1) h, fun v hv => ?_⟩
  · exact (placeDest_grows hl).2 a ha
  · exact foldlM_keeps (P := fun l => v ∈ l.spans)
      (fun l d l' hv hl => (placeDest_grows hl).2 v hv)
      hv h

/-- Instructions leave the places that there are, and give places to their
destinations. -/
theorem placeBlock_grows {b : Option Block} (h : placeBlock f l b = .ok l') :
    (∀ blk, b = some blk → ∀ i ∈ blk.instrs, ∀ d ∈ i.dests, d ∈ l'.spans)
      ∧ ∀ v ∈ l.spans, v ∈ l'.spans := by
  obtain ⟨blk, rfl, h⟩ := placeBlock_eq_ok h
  refine ⟨fun blk' hblk => ?_, fun v hv => ?_⟩
  · cases hblk
    exact foldlM_reaches (P := fun (i : Instr) l => ∀ d ∈ i.dests, d ∈ l.spans)
      (fun a b l l' ha hl d hd => (placeDests_grows hl).2 d (ha d hd))
      (fun i l l' hl => (placeDests_grows hl).1) h
  · exact foldlM_keeps (P := fun l => v ∈ l.spans)
      (fun l i l' hv hl => (placeDests_grows hl).2 v hv) hv h

/-- So what placing one value keeps is kept by a block. -/
theorem Laying.placeBlock (hf : Sized f) {b : Option Block} (hb : b ∈ f.blocks)
    (h : Laying f l) (hl : placeBlock f l b = .ok l') : Laying f l' := by
  obtain ⟨blk, rfl, hl⟩ := placeBlock_eq_ok hl
  obtain ⟨k, hk⟩ := List.mem_iff_getElem?.mp hb
  refine foldlM_keeps_of_mem (P := Laying f) (fun i hi l₁ l₂ h₁ h₂ => ?_) h hl
  have hhas : f.HasInstr i :=
    ⟨k, blk, Func.block?_eq_some_iff.mpr ⟨k, rfl, hk⟩, hi⟩
  exact foldlM_keeps_of_mem (P := Laying f)
    (fun d hd l₃ l₄ h₃ h₄ => h₃.placeDest hf hhas hd h₄) h₁
    (placeDests_eq_ok h₂)

/-- The layout of a function starts with its parameters at the bottom and goes
on block by block. -/
theorem compute_eq_ok (hf : Sized f) (h : compute f = .ok l) :
    widthOf f f.params + Ty.widthOfList f.returns ≤ 16777216
        ∧ ∃ l₀ : Layout, l₀.spans = ∅
      ∧ l₀.frameSize = 0 ∧ l₀.paramSlots = Int64.ofNat (widthOf f f.params)
      ∧ l₀.returnSlots = Int64.ofNat (Ty.widthOfList f.returns)
      ∧ f.blocks.foldlM (placeBlock f)
        (placeParams f (Int32.ofInt (bottom f)) f.params l₀)
        = .ok l := by
  obtain ⟨n, hn, h⟩ := bind_eq_ok.mp h
  rw [paramSlotsOf_eq hn, Ty.slotsOfList_eq_ofNat] at h
  dsimp only at h
  split at h
  · cases h
  rename_i hfits
  have hsig := hf.signature
  have hoff : -(Int64.ofNat (widthOf f f.params)).toInt32
      - (Int64.ofNat (Ty.widthOfList f.returns)).toInt32 - callerSlots
        = Int32.ofInt (bottom f) := by
    simp [bottom, Int32.ofInt_sub, Int32.ofInt_neg,
      Int32.ofInt_eq_ofNat, callerSlots]
  rw [hoff] at h
  refine ⟨?_, _, rfl, rfl, rfl, rfl, h⟩
  rw [← Int64.ofNat_add, gt_iff_lt, Int64.lt_iff_toInt_lt,
    Int64.toInt_ofNat_of_lt (by omega)]
    at hfits
  have hmax : maxFrame.toInt = 16777216 := rfl
  omega

/-- Parameters lie side by side below the results. -/
theorem placeParams_laying
    (hsig : widthOf f f.params + Ty.widthOfList f.returns ≤ 16777216)
    (hspans : l.spans = ∅) (hsize : l.frameSize = 0)
    (hparams : l.paramSlots = Int64.ofNat (widthOf f f.params))
    (hreturns : l.returnSlots = Int64.ofNat (Ty.widthOfList f.returns)) :
    Laying f (placeParams f (Int32.ofInt (bottom f)) f.params l) := by
  obtain ⟨⟨spans, order, hsame⟩, hother, hthese⟩ :=
    placeParams_spec f f.params (Int32.ofInt (bottom f)) l
  have hoff (i : Nat) : Int32.ofInt (bottom f)
      + Int32.ofNat (widthOf f (f.params.take i))
      = Int32.ofInt (paramAt f i) := by
    rw [paramAt, Int32.ofInt_add, Int32.ofInt_eq_ofNat]
  simp only [hoff] at hthese
  have hframe :
      (placeParams f (Int32.ofInt (bottom f)) f.params l).frameSize.toInt
      = 0 := by
    rw [hsame]
    show l.frameSize.toInt = 0
    rw [hsize]
    rfl
  -- only parameters have a place so far
  have hspan (v : ValueId) (s : Span)
      (hs : (placeParams f (Int32.ofInt (bottom f)) f.params l).spans[v]?
      = some s) :
      ∃ i, f.params[i]? = some v ∧ s.base.toInt = paramAt f i
        ∧ s.len.toInt = (f.typeOf v).width := by
    by_cases hv : v ∈ f.params
    · obtain ⟨i, hi, hlast⟩ := exists_last hv
      rw [hthese i v hi hlast, Option.some.injEq] at hs
      have hin := paramAt_le hi
      rw [resultsAt, bottom] at hin
      subst hs
      exact ⟨i, hi, Int32.toInt_ofInt_of_le (by omega) (by omega),
        Ty.toInt_slots _ (by omega)⟩
    · rw [hother v hv, hspans] at hs
      simp at hs
  refine ⟨hframe.ge, by omega, fun v s hs => ?_,
    fun v w s s' hne hs hs' => ?_, hthese, fun v s hs hv => ?_, ?_, ?_⟩
  · obtain ⟨i, hi, hbase, hlen⟩ := hspan v s hs
    rw [hbase, hlen]
    exact ⟨Int.natCast_nonneg _,
      Or.inr ⟨List.mem_of_getElem? hi, paramAt_le hi⟩⟩
  · obtain ⟨i, hi, hbase, hlen⟩ := hspan v s hs
    obtain ⟨j, hj, hbase', hlen'⟩ := hspan w s' hs'
    have hij : i ≠ j := by
      rintro rfl
      rw [hi, Option.some.injEq] at hj
      exact hne hj
    rw [hbase, hlen, hbase', hlen', paramAt, paramAt]
    have hnext := widthOf_take_add (f := f) hi
    have hnext' := widthOf_take_add (f := f) hj
    rcases Nat.lt_or_gt_of_ne hij with hlt | hlt
    · have hle : i + 1 ≤ j := hlt
      have := widthOf_take_mono f f.params hle
      omega
    · have hle : j + 1 ≤ i := hlt
      have := widthOf_take_mono f f.params hle
      omega
  · obtain ⟨i, hi, -⟩ := hspan v s hs
    exact absurd (List.mem_of_getElem? hi) hv
  · rw [hsame]
    exact hparams
  · rw [hsame]
    exact hreturns

/-- The layout of a function keeps its values apart. -/
theorem compute_laid (hf : Sized f) (h : compute f = .ok l) : Laid f l := by
  obtain ⟨hsig, l₀, hspans, hsize, hparams, hreturns, h⟩ := compute_eq_ok hf h
  have hstart := placeParams_laying hsig hspans hsize hparams hreturns
  have hlaying : Laying f l :=
    foldlM_keeps_of_mem (P := Laying f) (fun o ho l₁ l₂ h₁ h₂ =>
      h₁.placeBlock hf ho h₂) hstart h
  refine ⟨hlaying, hsig, ?_⟩
  rintro i ⟨b, blk, hb, hi⟩ d hd
  obtain ⟨k, -, hk⟩ := Func.block?_eq_some_iff.mp hb
  have hall := foldlM_reaches
    (P := fun o l => ∀ blk, o = some blk →
    ∀ i ∈ blk.instrs, ∀ d ∈ i.dests, d ∈ l.spans)
    (fun o o' l₁ l₂ ho h₂ blk hblk i hi d hd =>
    (placeBlock_grows h₂).2 d (ho blk hblk i hi d hd))
    (fun o l₁ l₂ h₂ => (placeBlock_grows h₂).1) h
  exact hall (some blk) (List.mem_of_getElem? hk) blk rfl i hi d hd

/-- A destination has the slots of its type, but for that of an allocation. -/
theorem eq_slots_of_destSlots {i : Instr} {d : ValueId} {n : Int64}
    (hi : ∀ r t, i ≠ .frameAlloc r t) (h : destSlots f i d = .ok n) :
    n = (f.typeOf d).slots := by
  rw [destSlots.eq_2 f i d hi] at h
  rw [Func.typeOf, Std.ExtTreeMap.getD_eq_getD_getElem?]
  cases ht : f.types[d]? with
  | none =>
      rw [ht] at h
      cases h
  | some t =>
      rw [ht] at h
      dsimp only at h
      split at h
      · cases h
      · cases h
        rfl

-- =================================================================== slots

/-- A slot is one of a value. -/
def Taken (l : Layout) (off : Int32) : Prop :=
  ∃ (v : ValueId) (s : Span) (i : Nat), l.spans[v]? = some s
    ∧ (i : Int) < s.len.toInt
    ∧ off = s.base + Int32.ofNat i

namespace Laid

variable (h : Laid f l) {v w : ValueId} {s s' : Span} {i j : Nat}

include h

/-- A slot of a value is in the frame, or below the results. -/
theorem slot_place (hs : l.spans[v]? = some s) (hi : (i : Int) < s.len.toInt) :
    (s.base + Int32.ofNat i).toInt = s.base.toInt + i
      ∧ (0 ≤ s.base.toInt + i ∧ s.base.toInt + i < l.frameSize.toInt
        ∨ s.base.toInt + i < resultsAt f) := by
  obtain ⟨-, hin⟩ := h.span v s hs
  have hfits := h.fits
  have hsig := h.signature
  rw [bottom] at hin
  refine ⟨?_, by omega⟩
  have hres : resultsAt f ≤ -2 := by rw [resultsAt]; omega
  rw [Int32.toInt_add, Int32.toInt_ofNat_of_lt (by omega)]
  exact Int.bmod_eq_of_le (by omega) (by omega)

/-- Where a slot of the results is. -/
theorem result_place (hi : i ≤ Ty.widthOfList f.returns) :
    (Int32.ofInt (resultsAt f) + Int32.ofNat i).toInt = resultsAt f + i := by
  have hsig := h.signature
  rw [← Int32.ofInt_eq_ofNat, ← Int32.ofInt_add]
  exact Int32.toInt_ofInt_of_le (by rw [resultsAt]; omega)
    (by rw [resultsAt]; omega)

/-- No span is longer than the largest frame. -/
theorem len_le (hs : l.spans[v]? = some s) : s.len.toInt ≤ 16777216 := by
  obtain ⟨-, hin⟩ := h.span v s hs
  have hfits := h.fits
  have hsig := h.signature
  rw [bottom, resultsAt] at hin
  omega

/-- A slot of a value is below the top of the frame. -/
theorem slot_lt {n : Nat} (hn : l.frameSize.toInt ≤ n)
    (hs : l.spans[v]? = some s) (hi : (i : Int) < s.len.toInt) :
    (s.base + Int32.ofNat i).toInt < n := by
  obtain ⟨heq, hin⟩ := h.slot_place hs hi
  have hnonneg := h.nonneg
  have hres : resultsAt f ≤ -2 := by rw [resultsAt]; omega
  omega

/-- Different values share no slot. -/
theorem slot_ne (hne : v ≠ w) (hs : l.spans[v]? = some s)
    (hs' : l.spans[w]? = some s') (hi : (i : Int) < s.len.toInt)
    (hj : (j : Int) < s'.len.toInt) :
    s.base + Int32.ofNat i ≠ s'.base + Int32.ofNat j := by
  intro heq
  have htoInt := congrArg Int32.toInt heq
  rw [(h.slot_place hs hi).1, (h.slot_place hs' hj).1] at htoInt
  have := h.apart v w s s' hne hs hs'
  omega

/-- What is above the slots that were laid out belongs to no value. -/
theorem not_taken {off : Int32} (hoff : l.frameSize.toInt ≤ off.toInt) :
    ¬ l.Taken off := by
  rintro ⟨v, s, i, hs, hi, rfl⟩
  have hnonneg := h.nonneg
  have hlt := h.slot_lt (n := l.frameSize.toInt.toNat) (by omega) hs hi
  omega

/-- Slots may be taken above what was laid out. -/
theorem widen {size : Int64} (hle : l.frameSize.toInt ≤ size.toInt)
    (hfits : size.toInt ≤ 16777216) : Laid f { l with frameSize := size } :=
  { h with
    nonneg := h.nonneg.trans hle
    fits := hfits
    span := fun v s hs => by
      obtain ⟨hlen, hin⟩ := h.span v s hs
      exact ⟨hlen, hin.imp_left fun hin => ⟨hin.1, hin.2.1, hin.2.2.trans hle⟩⟩
        }

end Laid

end Layout

end MirBackend
