/-
What drafting writes.

A step of drafting that does not leave the current block appends instructions
to it and draws the values that they define, one after the other, from the
counter of the function. Blocks other than the current one, and the types of
values that were there before, stay (`Draft.Wrote`). Two such steps in turn are
one that appends both.
-/
import Mathlib
import MirBackend.Func.Draft
import MirBackend.Proofs.Func.Blocks
import MirBackend.Proofs.Interp.Exec

namespace MirBackend

-- ============================================================ drawn values

/-- The next `n` values that a counter gives. -/
def drawn (next : ValueId) (n : Nat) : List ValueId :=
  (List.range n).map fun i => next + Int64.ofNat i

theorem drawn_add (next : ValueId) (n k : Nat) :
    drawn next (n + k) = drawn next n ++ drawn (next + Int64.ofNat n) k := by
  rw [drawn, drawn, drawn, List.range_add, List.map_append, List.map_map]
  refine congrArg (_ ++ ·) (List.map_congr_left fun i _ => ?_)
  rw [Function.comp_apply, Int64.ofNat_add, Int64.add_assoc]

namespace Draft

variable {d d₁ d₂ : Draft} {is js : List Instr} {n k : Nat}

/-- Drafting has appended the instructions to the current block and drawn the
`n` values that they define. -/
structure Wrote (d d₁ : Draft) (is : List Instr) (n : Nat) : Prop where
  cur : d₁.cur = d.cur
  block : ∀ b, d₁.func.block? b = (d.func.block? b).map fun blk =>
    if b = d.cur then { blk with instrs := blk.instrs ++ is } else blk
  dests : is.flatMap Instr.dests = drawn d.func.nextValue n
  next : d₁.func.nextValue = d.func.nextValue + Int64.ofNat n
  types : ∀ v, v ∉ drawn d.func.nextValue n → d₁.func.typeOf v = d.func.typeOf v

/-- Nothing has been written yet. -/
theorem Wrote.refl (d : Draft) : d.Wrote d [] 0 := by
  refine ⟨rfl, fun b => ?_, rfl, ?_, fun _ _ => rfl⟩
  · cases d.func.block? b <;> simp
  · rw [show Int64.ofNat 0 = 0 from rfl, Int64.add_zero]

/-- What two writers write stands in order, and the values they drew add up. -/
theorem Wrote.trans (h : d.Wrote d₁ is n) (h' : d₁.Wrote d₂ js k) :
    d.Wrote d₂ (is ++ js) (n + k) := by
  refine ⟨h'.cur.trans h.cur, fun b => ?_, ?_, ?_, fun v hv => ?_⟩
  · rw [h'.block, h.block, Option.map_map]
    refine Option.map_congr fun blk _ => ?_
    rw [Function.comp_apply, h.cur]
    split
    · rw [List.append_assoc]
    · rfl
  · rw [List.flatMap_append, h.dests, h'.dests, h.next, drawn_add]
  · rw [h'.next, h.next, Int64.ofNat_add, Int64.add_assoc]
  · rw [drawn_add, List.mem_append, not_or] at hv
    rw [h'.types v (h.next ▸ hv.2), h.types v hv.1]

end Draft

end MirBackend
