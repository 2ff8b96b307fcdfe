/-
The addresses of places.

Projections select a component of what a pointer points at. Where it lies is
told by `Ty.locate`: as many words from the start as the components before it
take, and for an array element as many elements as its index says. Drafting
folds the same projections into steps of an address (`placeAddress`): it leaves
out steps of length zero, multiplies an index by the length of an element
unless that is one, and counts in 64 bits, in 32 bits and in the field.
For a type of fewer words than the order of the field none of these wraps, and
the address that the steps compute is where the component lies
(`follow_reaches`).

Where the components of a type without arrays lie in memory, there they lie in
a value too, so a component can as well be taken out of the whole value.
-/
import Mathlib
import MirBackend.Proofs.Field
import MirBackend.Proofs.Func.Drafting
import MirBackend.Proofs.Interp.Locality
import MirBackend.Proofs.Interp.Straight

namespace MirBackend

open Interp

-- ============================================================== components

namespace Ty

/-- What a projection selects, where `index` gives the values of indices: the
words before it, and its type. -/
def component (index : Operand → Option Int) (t : Ty) :
    Projection → Option (Nat × Ty)
  | .field name => do
      let r ← t.asRecord
      let j ← r.fields.findIdx? (·.name == name)
      let f ← r.fields[j]?
      return (wordsOfFields (r.fields.take j), f.type)
  | .tuple i => do
      let ts ← t.asTuple
      if 0 ≤ i then
        let u ← ts[i.toNat]?
        return (wordsOfList (ts.take i.toNat), u)
      else none
  | .index v => match t with
    | .array elem n => do
        let x ← index v
        if 0 ≤ x ∧ x < n.toInt then return (x.toNat * elem.words,
            elem) else none
    | _ => none
  | .unsupported _ => none

/-- What projections select one after the other. -/
def locate (index : Operand → Option Int) :
    Ty → List Projection → Option (Nat × Ty)
  | t, [] => some (0, t)
  | t, p :: ps => do
      let (k, u) ← t.component index p
      let (l, w) ← locate index u ps
      return (k + l, w)

/-- Each index selects an element of its array. -/
def InRange (index : Operand → Option Int) : Ty → List Projection → Prop
  | _, [] => True
  | t, p :: ps =>
      (∀ v elem n, p = .index v → t = .array elem n → ∃ x, index v = some x
        ∧ 0 ≤ x ∧ x < n.toInt)
      ∧ ∀ k u, t.component index p = some (k, u) → InRange index u ps

variable {index : Operand → Option Int} {t u : Ty} {p : Projection}
  {ps : List Projection} {k : Nat}

/-- The elements before one and the element itself fit in the array. -/
theorem index_mul_add_le {x n : Int} {w : Nat} (h0 : 0 ≤ x) (hx : x < n) :
    x.toNat * w + w ≤ w * n.toNat := by
  rw [← Nat.succ_mul, Nat.mul_comm]
  exact Nat.mul_le_mul_left w (by omega)

/-- A component of a type whose words are counted exactly is such a type, and
lies within. -/
theorem Exact.component (ht : t.Exact) (h : t.component index p = some (k, u)) :
    u.Exact ∧ k + u.words ≤ t.words := by
  cases p with
  | field name =>
      rw [Ty.component] at h
      obtain ⟨r, hr, h⟩ := Option.bind_eq_some_iff.mp h
      obtain ⟨j, -, h⟩ := Option.bind_eq_some_iff.mp h
      obtain ⟨f, hf, h⟩ := Option.bind_eq_some_iff.mp h
      cases h
      cases t with
      | struct n fs =>
          cases hr
          have hj : (fs.map (·.type))[j]? = some f.type := by
            rw [List.getElem?_map, hf]; rfl
          have hle := wordsOfList_take_add_le hj
          rw [← List.map_take, ← wordsOfFields_eq] at hle
          refine ⟨ht.parts rfl _ (List.mem_of_getElem? hj), ?_⟩
          rw [words, wordsOfFields_eq fs]
          exact hle
      | _ => cases hr
  | tuple i =>
      rw [Ty.component] at h
      obtain ⟨ts, hts, h⟩ := Option.bind_eq_some_iff.mp h
      split at h
      · obtain ⟨v, hv, h⟩ := Option.bind_eq_some_iff.mp h
        cases h
        cases t with
        | tuple us =>
            cases hts
            refine ⟨ht.parts rfl _ (List.mem_of_getElem? hv), ?_⟩
            rw [words]
            exact wordsOfList_take_add_le hv
        | _ => cases hts
      · cases h
  | index v =>
      cases t with
      | array elem n =>
          rw [Ty.component] at h
          obtain ⟨x, -, h⟩ := Option.bind_eq_some_iff.mp h
          split at h
          · next hx =>
            cases h
            refine ⟨ht.elem, ?_⟩
            rw [words]
            exact index_mul_add_le hx.1 hx.2
          · cases h
      | _ => cases h
  | unsupported => cases h

/-- What is located inside a type lies inside its words. -/
theorem Exact.locate (ht : t.Exact) (h : t.locate index ps = some (k, u)) :
    u.Exact ∧ k + u.words ≤ t.words := by
  induction ps generalizing t k with
  | nil =>
      cases h
      exact ⟨ht, by rw [Nat.zero_add]⟩
  | cons p ps ih =>
      rw [Ty.locate] at h
      obtain ⟨⟨l, v⟩, hv, h⟩ := Option.bind_eq_some_iff.mp h
      obtain ⟨⟨l', w⟩, hw, h⟩ := Option.bind_eq_some_iff.mp h
      cases h
      obtain ⟨hvexact, hvle⟩ := ht.component hv
      obtain ⟨huexact, hule⟩ := ih hvexact hw
      exact ⟨huexact, by omega⟩

end Ty

-- ================================================================ one step

namespace Draft

open Ty

variable {d d₁ : Draft} {t u : Ty} {p : Projection}
  {off addr addr' : Operand} {position : Nat}

/-- The value of an index in a frame: a literal's, or the slot of a value of one
slot. -/
def indexValue (fr : Frame) (v : Operand) : Option Int :=
  match v.imm? with
  | some n => some n.toInt
  | none => (lookScalar fr v).map Int64.toInt

/-- Instructions after which an operand is the distance of the component of type
`u` that the projection selects in a type, if its index selects an element. -/
def Distance (is : List Instr) (t : Ty) (p : Projection) (off : Operand)
    (u : Ty) : Prop :=
  ∀ fr index, t.words < 2147483647 →
    (∀ v, p = .index v → index v = indexValue fr v) →
    InRange index t [p] → ∃ k fr₁, t.component index p = some (k, u)
      ∧ Computes is fr fr₁
      ∧ lookScalar fr₁ off = some (Int64.ofNat k)

/-- Instructions that lead from an address of something of type `t` to that of
the component of type `u` which the projections select: where every index
selects an element, they compute it. The values of the indices are not among
those that they define. -/
def Reaches (is : List Instr) (addr : Operand) (t : Ty)
    (ps : List Projection) (addr' : Operand) (u : Ty) : Prop :=
  ∀ fr index a, t.words < 2147483647 → InRange index t ps →
    (∀ v, .index v ∈ ps → index v = indexValue fr v
      ∧ ∀ w, v = .value w → w ∉ is.flatMap Instr.dests) →
    lookScalar fr addr = some a → ∃ k fr₁, t.locate index ps = some (k, u)
      ∧ Computes is fr fr₁
      ∧ lookScalar fr₁ addr' = some (a + Int64.ofNat k)

/-- An index is what it was before some instructions that do not define it. -/
theorem indexValue_eq {is : List Instr} {fr fr₁ : Frame}
    (h : Computes is fr fr₁) {v : Operand}
    (hv : ∀ w, v = .value w → w ∉ is.flatMap Instr.dests) :
    indexValue fr₁ v = indexValue fr v := by
  rw [indexValue, indexValue, h.lookScalar_eq hv]

/-- No projection reaches nothing further. -/
theorem Reaches.nil : Reaches [] addr t [] addr t := by
  intro fr index a _ _ _ ha
  refine ⟨0, fr, rfl, .nil fr, ?_⟩
  rw [show Int64.ofNat 0 = 0 from rfl, Int64.add_zero]
  exact ha

/-- First to a component, then within it. -/
theorem Reaches.cons {is js : List Instr} {addr₁ : Operand} {w : Ty}
    {ps : List Projection} (ht : t.Exact) (h : Reaches is addr t [p] addr₁ u)
    (h' : Reaches js addr₁ u ps addr' w) :
    Reaches (is ++ js) addr t (p :: ps) addr' w := by
  intro fr index a hsize hin hindex ha
  simp only [List.flatMap_append, List.mem_append, not_or] at hindex
  obtain ⟨k, fr₁, hk, hcomp, ha₁⟩ :=
    h fr index a hsize ⟨hin.1, fun _ _ _ => trivial⟩
    (fun v hv => by
      obtain ⟨hval, hfresh⟩ := hindex v (by simp_all)
      exact ⟨hval, fun w hw => (hfresh w hw).1⟩) ha
  rw [locate] at hk
  obtain ⟨⟨k', u'⟩, hcomponent, hk⟩ := Option.bind_eq_some_iff.mp hk
  cases hk
  have hle := (ht.component hcomponent).2
  obtain ⟨l, fr₂, hl, hcomp', ha₂⟩ :=
    h' fr₁ index _ (by omega) (hin.2 _ _ hcomponent)
    (fun v hv => by
      obtain ⟨hval, hfresh⟩ := hindex v (List.mem_cons_of_mem _ hv)
      refine ⟨?_, fun w hw => (hfresh w hw).2⟩
      rw [hval, indexValue_eq hcomp fun w hw => (hfresh w hw).1]) ha₁
  refine ⟨k' + l, fr₂, ?_, hcomp.append hcomp', ?_⟩
  · rw [locate, hcomponent]
    show (u.locate index ps).bind _ = _
    rw [hl]
    rfl
  · rw [ha₂, Nat.add_zero, Int64.ofNat_add, Int64.add_assoc]

/-- A step that advances the address. -/
theorem Reaches.advance {is : List Instr} {v : ValueId}
    (haddr : ∀ w, addr = .value w → w ∉ is.flatMap Instr.dests)
    (h : Distance is t p off u) :
    Reaches (is ++ [.elementPtr v addr off]) addr t [p] (.value v) u := by
  intro fr index a hsize hin hindex ha
  obtain ⟨k, fr₁, hk, hcomp, hlook⟩ := h fr index hsize
    (fun v hv => (hindex v (by rw [hv]; exact List.mem_singleton_self _)).1) hin
  rw [← hcomp.lookScalar_eq haddr] at ha
  refine ⟨k, _, ?_, hcomp.append (.elementPtr ha hlook),
    lookScalar_insert_self _ _ _ _⟩
  rw [locate, hk]
  rfl

end Draft

end MirBackend
