/-
Functions that work on values only.

Such a function takes no address: it copies, computes, calls, and puts
aggregates together and apart. It is *typed* if every operand has the very type
that is expected where it stands, by the instruction, by the signature of a
callee or by the declared results; a literal stands for a type of one slot, or
for one without any. Values may be defined more than once, but parameters are
not defined again.

A typed function has no address that is known beforehand, so every instruction
has code, and every operand has as many slots as are read of it.
-/
import Mathlib
import MirBackend.Proofs.Asm.Aggregates
import MirBackend.Proofs.Asm.CallFrames

namespace MirBackend

/-- An operand that stands where a type is expected. -/
def Operand.Suits (f : Func) (t : Ty) : Operand → Prop
  | .value v => f.typeOf v = t
  | .int _ | .bool _ => t.width = 1
  | .unit => t.width = 0
  | .error | .invalid => False

/-- An instruction on values only, with the types that are expected. -/
def Instr.Typed (m : Module) (f : Func) : Instr → Prop
  | .assign d v t => v.Suits f (f.typeOf d)
      ∧ (t.isMissing = false → t = f.typeOf d)
  | .unary _ d v => (f.typeOf d).width = 1 ∧ (f.operandType v).width = 1
  | .binary _ d l r =>
      (f.typeOf d).width = 1 ∧ (f.operandType l).width = 1
        ∧ (f.operandType r).width = 1
  | .call ds c vs _ => ∀ g, m.func? c = some g →
      List.Forall₂ (fun v t => v.Suits f t) vs g.paramTypes
          ∧ ds.map f.typeOf = g.returns
  | .cast d v a b => v.Suits f a ∧ b = f.typeOf d ∧ a.width = b.width
  | .makeTuple d vs ts => f.typeOf d = .tuple ts ∧ List.Forall₂
    (fun v t => v.Suits f t) vs ts
  | .extractTuple d v i _ =>
      ∃ ts, f.operandType v = .tuple ts ∧ ts[i.toNat]? = some (f.typeOf d)
  | .insertTuple d agg i v ts => f.typeOf d = .tuple ts
        ∧ f.operandType agg = .tuple ts
      ∧ ∃ t, ts[i.toNat]? = some t ∧ v.Suits f t
  | .makeStruct d fs r => f.typeOf d = r.toTy ∧ r.Placed ∧ Interp.GivesAll r fs
      ∧ ∀ p ∈ fs, ∀ fld, r.field? p.1 = some fld → p.2.Suits f fld.type
  | .extractField d v name _ =>
    ∃ r : Record, f.operandType v = r.toTy ∧ r.Placed
      ∧ ∃ fld, r.field? name = some fld ∧ f.typeOf d = fld.type
  | .insertField d agg name v r => f.typeOf d = r.toTy
        ∧ f.operandType agg = r.toTy ∧ r.Placed
      ∧ ∃ fld, r.field? name = some fld ∧ v.Suits f fld.type
  | .debug .. | .nop => True
  | _ => False

/-- A terminator with the types that are expected. -/
def Terminator.Typed (f : Func) : Terminator → Prop
  | .branch c _ _ => (f.operandType c).width = 1
  | .branchCmp _ l r _ _ => (f.operandType l).width = 1
      ∧ (f.operandType r).width = 1
  | .ret vs => List.Forall₂ (fun v t => v.Suits f t) vs f.returns
  | .jump _ | .unreachable => True

/-- A function on values only, with the types that are expected. Its types have
fewer slots than can be counted to. -/
structure Func.Typed (m : Module) (f : Func) : Prop where
  instr : ∀ i, f.HasInstr i → i.Typed m f
  term : ∀ b blk tm, f.block? b = some blk → blk.term = some tm → tm.Typed f
  fixed : ∀ i, f.HasInstr i → ∀ d ∈ i.dests, d ∉ f.params
  signature : Layout.widthOf f f.params + Ty.widthOfList f.returns < 2 ^ 63
  dest : ∀ i, f.HasInstr i → ∀ d ∈ i.dests, (f.typeOf d).width < 2 ^ 63

variable {m : Module} {f : Func} {o : Operand} {t : Ty}
  {d v : ValueId} {i : Instr}

-- ================================================================ operands

-- A type of one word takes one slot.
theorem Ty.slots_eq_one (h : t.width = 1) : t.slots = 1 := by
  rw [Ty.slots_eq_ofNat, h]
  rfl

namespace Operand.Suits

/-- An operand has the slots of the type that is expected. -/
theorem slots (h : o.Suits f t) : (f.operandType o).slots = t.slots := by
  cases o with
  | value v => exact congrArg Ty.slots h
  | int k | bool k => exact (Ty.slots_eq_one h).symm
  | unit =>
      have h : t.width = 0 := h
      rw [Ty.slots_eq_ofNat t, h]
      rfl
  | error | invalid => exact h.elim

/-- Where another type is expected than that of a value, the operand is not the
value. -/
theorem ne (h : o.Suits f t) (hne : t ≠ f.typeOf d) : o ≠ .value d := by
  rintro rfl
  exact hne h.symm

/-- Operands suit their types pair by pair. -/
theorem zip {os : List Operand} {ts : List Ty}
    (h : List.Forall₂ (fun o t => Operand.Suits f t o) os ts) :
    ∀ p ∈ os.zip ts, p.1.Suits f p.2 := fun _ hp => List.forall₂_zip h hp

end Operand.Suits

/-- A typed terminator reads scalars as selection wants it to. -/
theorem Terminator.Typed.fits {tm : Terminator}
    (h : tm.Typed f) : tm.Fits f := by
  cases tm with
  | branch c k e => exact Ty.slots_eq_one h
  | branchCmp op l r k e => exact ⟨Ty.slots_eq_one h.1, Ty.slots_eq_one h.2⟩
  | ret vs => exact fun p hp => (Operand.Suits.zip h p hp).slots
  | jump k => trivial
  | unreachable => trivial

-- =============================================================== functions

/-- A typed function has no phis left. -/
theorem Instr.Typed.not_phi (h : i.Typed m f) : i.isPhi = false := by
  cases i <;> first | rfl | exact h.elim

/-- No address is taken in a typed function. -/
theorem Func.Typed.not_address (hf : f.Typed m) : ¬ Asm.FrameAddress f v := by
  intro h
  induction h with
  | home hhome =>
      obtain ⟨i, hi, hhome⟩ := hhome
      have htyped := hf.instr i hi
      cases i <;> cases hhome <;> exact htyped
  | step _ _ _ ih => exact ih

/-- The slots of a typed function can be counted. -/
theorem Func.Typed.sized (hf : f.Typed m) : Layout.Sized f := by
  refine ⟨hf.signature, fun i hi d hd n hn => ?_⟩
  have htyped := hf.instr i hi
  rw [Layout.eq_slots_of_destSlots (by rintro r t rfl; exact htyped) hn,
    Int64.le_iff_toInt_le, Ty.toInt_slots _ (hf.dest i hi d hd)]
  exact Int.natCast_nonneg _

/-- The slots of a value that is laid out can be counted. -/
theorem Func.Typed.width_lt (hf : f.Typed m) {L : Layout}
    (hL : Layout.Laid f L) {s : Span} (hs : L.spans[v]? = some s) :
    (f.typeOf v).width < 2 ^ 63 := by
  by_cases hv : v ∈ f.params
  · obtain ⟨k, hk⟩ := List.mem_iff_getElem?.mp hv
    have hnext := Layout.widthOf_take_add (f := f) hk
    have hle := Layout.widthOf_take_le f f.params (k + 1)
    have := hf.signature
    omega
  · obtain ⟨i, hi, hd, -⟩ := hL.traced v s hs hv
    exact hf.dest i hi v hd

/-- A call in a typed function passes what the callee takes, and takes what it
gives. -/
theorem Instr.Typed.callSuits {ds : List ValueId} {c : FuncId}
    {vs : List Operand} {sig : Signature} {g : Func}
    (h : (Instr.call ds c vs sig).Typed m f) (hg : m.func? c = some g) :
    Asm.CallSuits f g ds vs := by
  obtain ⟨hargs, hdests⟩ := h g hg
  refine ⟨?_, ?_⟩
  · rw [Func.paramTypes, List.forall₂_map_right_iff] at hargs
    exact hargs.imp fun _ _ h => h.slots
  · rw [← hdests, List.forall₂_map_right_iff]
    exact List.forall₂_same.mpr fun _ _ => rfl

end MirBackend
