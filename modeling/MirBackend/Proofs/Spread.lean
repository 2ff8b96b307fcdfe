/-
What lies in a frame lies apart.

A layout that was computed from exact sizes gives every parameter and every
destination its span. Parameters are below the slots of the results, locals
from zero up to the size of the frame, and no slot is given twice. Reserving
grows the frame at its end, so what is reserved is apart from all values and
from what was reserved before (`Spread.reserve`), after any number of steps.
-/
import Mathlib
import MirBackend.Proofs.Layout

namespace MirBackend

namespace Span

/-- The slot behind the last one. -/
def stop (s : Span) : Int := s.base.toInt + s.len.toInt

/-- One of the two ends before the other starts. -/
def Apart (s s' : Span) : Prop := s.stop ≤ s'.base.toInt
    ∨ s'.stop ≤ s.base.toInt

/-- Each span starts where the one before it ends, from one offset up to
another. -/
def Tile : List Span → Int → Int → Prop
  | [], first, last => first = last
  | s :: ss, first, last => s.base.toInt = first ∧ Tile ss s.stop last

end Span

namespace Layout

variable {f : Func} {l l₁ l' : Layout} {v : ValueId} {s : Span}
  {rs : List Span} {n : Int64}

-- ============================================================ exact sizes

/-- What a destination asks for, counted without wrapping. -/
def destExtent (f : Func) (d : ValueId) : Instr → Option Int
  | .frameAlloc _ t => t.extent
  | _ => some (f.typeOf d).width

/-- All sizes are counts of 64 bits: none of them is less than nothing or
wraps. -/
structure Counted (f : Func) : Prop where
  signature : widthOf f f.params + Ty.widthOfList f.returns < 2 ^ 63
  dest : ∀ i, f.HasInstr i → ∀ d ∈ i.dests, ∀ n, destExtent f d i = some n →
    0 ≤ n ∧ n < 2 ^ 63

/-- The size of a destination is the exact one but for wrapping. -/
theorem destSlots_eq_ofInt {i : Instr} {d : ValueId}
    (h : destSlots f i d = .ok n) :
    ∃ k, destExtent f d i = some k ∧ n = Int64.ofInt k := by
  by_cases halloc : ∃ r t, i = .frameAlloc r t
  · obtain ⟨r, t, rfl⟩ := halloc
    rw [destSlots] at h
    split at h
    · cases h
    · rw [liftChecked_eq_ok, orFault_eq_ok, Ty.size_eq_extent,
        Option.map_eq_some_iff] at h
      obtain ⟨k, hk, rfl⟩ := h
      exact ⟨k, hk, rfl⟩
  · have hne : ∀ r t, i ≠ .frameAlloc r t := fun r t hi => halloc ⟨r, t, hi⟩
    refine ⟨(f.typeOf d).width, destExtent.eq_2 f d i hne, ?_⟩
    rw [eq_slots_of_destSlots hne h, Ty.slots_eq_ofNat, Int64.ofInt_eq_ofNat]

/-- A function whose words can be counted is of a size. -/
theorem Counted.sized (h : Counted f) : Sized f := by
  refine ⟨h.signature, fun i hi d hd n hn => ?_⟩
  obtain ⟨k, hk, rfl⟩ := destSlots_eq_ofInt hn
  obtain ⟨hnonneg, hlt⟩ := h.dest i hi d hd k hk
  rw [Int64.le_iff_toInt_le, Int64.toInt_ofInt_of_le (by omega) hlt]
  exact hnonneg

-- ============================================================ a whole frame

/-- The offset of the first parameter. -/
def firstParam (l : Layout) : Int :=
  -l.paramSlots.toInt - l.returnSlots.toInt - 2

/-- The offset of the first result. -/
def firstResult (l : Layout) : Int := -l.returnSlots.toInt - 2

/-- The frame of a function, and in it spans that belong to no value. -/
structure Spread (f : Func) (l : Layout) (rs : List Span) : Prop where
  param : ∀ p ∈ f.params, p ∈ l.spans
  dest : ∀ i, f.HasInstr i → ∀ d ∈ i.dests, d ∈ l.spans
  len : ∀ (v : ValueId) (s : Span), l.spans[v]? = some s → 0 ≤ s.len.toInt
  apart : ∀ (v w : ValueId) (s s' : Span), v ≠ w → l.spans[v]? = some s →
    l.spans[w]? = some s' → s.Apart s'
  below : ∀ (p : ValueId) (s : Span), p ∈ f.params → l.spans[p]? = some s →
    l.firstParam ≤ s.base.toInt ∧ s.stop ≤ l.firstResult
  tiled : f.params.Nodup → ∃ ss, f.params.map (l.spans[·]?) = ss.map some
    ∧ Span.Tile ss l.firstParam l.firstResult
  inside : ∀ (v : ValueId) (s : Span), v ∉ f.params → l.spans[v]? = some s →
    0 ≤ s.base.toInt ∧ s.stop ≤ l.frameSize.toInt
  /-- The slots of the results and the two of the caller belong to no value. -/
  linkage : ∀ (v : ValueId) (s : Span), l.spans[v]? = some s →
    s.stop ≤ l.firstResult ∨ 0 ≤ s.base.toInt
  signature : 0 ≤ l.paramSlots.toInt ∧ 0 ≤ l.returnSlots.toInt
  frame : 0 ≤ l.frameSize.toInt ∧ l.frameSize.toInt ≤ maxFrame.toInt
  reserved : ∀ r ∈ rs, 0 ≤ r.len.toInt ∧ 0 ≤ r.base.toInt
    ∧ r.stop ≤ l.frameSize.toInt
    ∧ ∀ (v : ValueId) (s : Span), l.spans[v]? = some s → s.Apart r
  reservedApart : rs.Pairwise Span.Apart

/-- Parameters listed once each lie side by side. -/
theorem Laid.tile (h : Laid f l) (hdistinct : f.params.Nodup) :
    ∃ ss, f.params.map (l.spans[·]?) = ss.map some
      ∧ Span.Tile ss (bottom f) (resultsAt f) := by
  have hsig := h.signature
  -- the parameters from a place on, the last one first
  have hfrom : ∀ (ps : List ValueId) (k : Nat), f.params.drop k = ps →
      ∃ ss, ps.map (l.spans[·]?) = ss.map some
        ∧ Span.Tile ss (paramAt f k) (resultsAt f) := by
    intro ps
    induction ps with
    | nil =>
        intro k hk
        refine ⟨[], rfl, ?_⟩
        rw [Span.Tile, paramAt,
          List.take_of_length_le (List.drop_eq_nil_iff.mp hk), bottom,
          resultsAt]
        omega
    | cons p ps ih =>
        intro k hk
        have hp : f.params[k]? = some p := by
          rw [← List.head?_drop, hk, List.head?_cons]
        have hrest : f.params.drop (k + 1) = ps := by
          rw [← List.tail_drop, hk, List.tail_cons]
        have hlast : p ∉ f.params.drop (k + 1) := by
          have := hdistinct.sublist (List.drop_sublist k f.params)
          rw [hk, List.nodup_cons] at this
          rw [hrest]
          exact this.1
        obtain ⟨ss, hss, htile⟩ := ih (k + 1) hrest
        have hin := paramAt_le hp
        have hwidth := widthOf_take_add (f := f) hp
        refine ⟨⟨Int32.ofInt (paramAt f k), (f.typeOf p).slots⟩ :: ss, ?_, ?_⟩
        · rw [List.map_cons, List.map_cons, h.param k p hp hlast, hss]
        · rw [bottom, resultsAt] at hin
          have hbase : (Int32.ofInt (paramAt f k)).toInt = paramAt f k :=
            Int32.toInt_ofInt_of_le (by omega) (by omega)
          have hstop :
              (⟨Int32.ofInt (paramAt f k), (f.typeOf p).slots⟩ : Span).stop
              = paramAt f (k + 1) := by
            rw [Span.stop, hbase, Ty.toInt_slots _ (by omega),
              paramAt, paramAt, hwidth]
            push_cast
            omega
          exact ⟨hbase, hstop ▸ htile⟩
  obtain ⟨ss, hss, htile⟩ := hfrom f.params 0 rfl
  rw [paramAt, List.take_zero, widthOf_nil, Nat.cast_zero, add_zero] at htile
  exact ⟨ss, hss, htile⟩

/-- A layout that was computed. -/
theorem Laid.spread (h : Laid f l) : Spread f l [] := by
  have hsig := h.signature
  have hM : l.paramSlots.toInt = widthOf f f.params := by
    rw [h.paramSlots, Int64.toInt_ofNat_of_lt (by omega)]
  have hK : l.returnSlots.toInt = Ty.widthOfList f.returns := by
    rw [h.returnSlots, Int64.toInt_ofNat_of_lt (by omega)]
  have hfirst : l.firstParam = bottom f := by rw [firstParam, bottom, hM, hK]
  have hresult : l.firstResult = resultsAt f := by
    rw [firstResult, resultsAt, hK]
  refine ⟨fun p hp => h.param_mem hp, h.covered,
    fun v s hs => (h.span v s hs).1, h.apart,
    fun p s hp hs => ?_, fun hdistinct => ?_,
    fun v s hv hs => ?_, fun v s hs => ?_,
    by omega, ⟨h.nonneg, h.fits⟩, fun r hr => absurd hr List.not_mem_nil, .nil⟩
  · obtain ⟨-, ⟨hnot, -⟩ | ⟨-, hin⟩⟩ := h.span p s hs
    · exact absurd hp hnot
    · rw [hfirst, hresult]
      exact hin
  · rw [hfirst, hresult]
    exact h.tile hdistinct
  · obtain ⟨-, ⟨-, hin⟩ | ⟨hin, -⟩⟩ := h.span v s hs
    · exact hin
    · exact absurd hin hv
  · rw [hresult]
    obtain ⟨-, ⟨-, hin, -⟩ | ⟨-, -, hin⟩⟩ := h.span v s hs
    · exact Or.inr hin
    · exact Or.inl hin

-- ================================================================ reserving

/-- Slots that are reserved one after the other, as long as the frame does not
get too large. -/
inductive Reserves : Layout → List Span → Layout → Prop
  | none (l : Layout) : Reserves l [] l
  | next {l l₁ : Layout} {rs : List Span} {n : Int64}
      (before : Reserves l rs l₁) (nonneg : 0 ≤ n.toInt)
      (fits : l₁.frameSize.toInt + n.toInt ≤ maxFrame.toInt) :
      Reserves l (rs ++ [⟨(l₁.reserve n).1, n⟩]) (l₁.reserve n).2

/-- What is reserved starts where the frame ended. -/
theorem Spread.reserve (h : Spread f l rs) (hn : 0 ≤ n.toInt)
    (hfits : l.frameSize.toInt + n.toInt ≤ maxFrame.toInt) :
    Spread f (l.reserve n).2 (rs ++ [⟨(l.reserve n).1, n⟩]) := by
  have hmax : maxFrame.toInt = 16777216 := rfl
  obtain ⟨hnonneg, hframe⟩ := h.frame
  have hsize : (l.reserve n).2.frameSize.toInt = l.frameSize.toInt + n.toInt :=
    toInt_add_of_le hnonneg hn (by omega)
  have hstart : (l.reserve n).1.toInt = l.frameSize.toInt :=
    toInt_toInt32_of_le hnonneg (by omega)
  have hends (v : ValueId) (s : Span) (hs : l.spans[v]? = some s) :
      s.stop ≤ l.frameSize.toInt := by
    by_cases hp : v ∈ f.params
    · have hbelow := (h.below v s hp hs).2
      have hK := h.signature.2
      rw [firstResult] at hbelow
      omega
    · exact (h.inside v s hp hs).2
  refine ⟨h.param, h.dest, h.len, h.apart, h.below, h.tiled,
    fun v s hv hs => ?_, h.linkage, h.signature, by omega, fun r hr => ?_, ?_⟩
  · obtain ⟨hbase, hstop⟩ := h.inside v s hv hs
    exact ⟨hbase, by omega⟩
  · rcases List.mem_append.mp hr with hr | hr
    · obtain ⟨hlen, hbase, hstop, hapart⟩ := h.reserved r hr
      exact ⟨hlen, hbase, by omega, hapart⟩
    · obtain rfl := List.mem_singleton.mp hr
      refine ⟨hn, by rw [hstart]; exact hnonneg,
        by rw [Span.stop, hstart, hsize], fun v s hs => ?_⟩
      exact Or.inl (by rw [hstart]; exact hends v s hs)
  · rw [List.pairwise_append]
    refine ⟨h.reservedApart, List.pairwise_singleton _ _, fun r hr r' hr' => ?_⟩
    obtain rfl := List.mem_singleton.mp hr'
    exact Or.inl (by rw [hstart]; exact (h.reserved r hr).2.2.1)

/-- The frame of a function with exact sizes: every value has its place, and
nothing that is laid out or reserved overlaps anything else. -/
theorem compute_spread (hf : Counted f) (hl : compute f = .ok l)
    (hr : Reserves l rs l') : Spread f l' rs := by
  induction hr with
  | none => exact (compute_laid hf.sized hl).spread
  | next _ nonneg fits ih => exact ih.reserve nonneg fits

/-- Values of no, one and several slots: a parameter of two, an allocation of
three words, and a unit, which is defined twice. -/
def motley : Func :=
  { name := "motley"
    blocks := [some { name := "entry", instrs :=
      [.frameAlloc 2 (.array .felt 3), .assign 3 .unit .unit,
        .assign 4 (.value 0) .u32, .assign 3 .unit .unit] }]
    params := [0, 1]
    returns := [.felt]
    types := .ofList [((0 : ValueId), Ty.u32), (1, .felt), (2, .ptr .felt),
      (3, .unit), (4, .u32)]
    nextValue := 5 }

-- A function with values of several types.
theorem motley_counted : Counted motley := by
  refine ⟨by decide, ?_⟩
  rintro i ⟨b, blk, hb, hi⟩ d hd n hn
  obtain ⟨k, rfl, hk⟩ := Func.block?_eq_some_iff.mp hb
  match k with
  | k + 1 => cases hk
  | 0 =>
      cases hk
      fin_cases hi <;> fin_cases hd <;> cases hn <;> decide

theorem compute_spread_motley :
    ∃ l l', compute motley = .ok l ∧ Reserves l [⟨5, 3⟩, ⟨8, 1⟩] l'
      ∧ Spread motley l' [⟨5, 3⟩, ⟨8, 1⟩] := by
  obtain ⟨l, hl, hsize⟩ : ∃ l, compute motley = .ok l
      ∧ l.frameSize = 5 := ⟨_, rfl, rfl⟩
  have hr : Reserves l [⟨5, 3⟩, ⟨8, 1⟩] ((l.reserve 3).2.reserve 1).2 := by
    have h₁ :=
      (Reserves.none l).next (n := 3) (by decide) (by rw [hsize]; decide)
    have hsize₁ : (l.reserve 3).2.frameSize = 8 := by
      rw [reserve, hsize]
      rfl
    have h₂ := h₁.next (n := 1) (by decide) (by rw [hsize₁]; decide)
    simpa [reserve, hsize] using h₂
  exact ⟨l, _, hl, hr, compute_spread motley_counted hl hr⟩

end Layout

end MirBackend
