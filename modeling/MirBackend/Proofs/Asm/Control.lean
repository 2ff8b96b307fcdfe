/-
Where the code of terminators leads.

Control goes to a block by falling into it, if its code comes next, or by a jump
to its label. `Joins` says that the positions of blocks are where their labels
stand, and that the next block begins where the code of this one ends; then
every way to leave a block leads to the position of the block that the
interpreter goes to, with the slots of all values as they were (`term_goes`).

A return moves the returned values, one after the other, to the slots of the
results (`term_returns`). No value lies there, so no move is in the way of a
later one.
-/
import Mathlib
import MirBackend.Proofs.Asm.Passing

namespace MirBackend

/-- A terminator whose operands have one slot, or as many as the results they
are for. -/
def Terminator.Fits (f : Func) : Terminator → Prop
  | .branch c _ _ => (f.operandType c).slots = 1
  | .branchCmp _ l r _ _ => (f.operandType l).slots = 1
      ∧ (f.operandType r).slots = 1
  | .ret vs => ∀ p ∈ vs.zip f.returns, (f.operandType p.1).slots = p.2.slots
  | .jump _ | .unreachable => True

namespace Asm

open Interp (Slots bind_ok_iff)

variable {code : List Insn} {base : Nat} {t : Link.Table} {L : Layout} {n : Nat}
  {b b' B : Builder} {x : Scope} {u : Unit} {σ σ' : FrameSlots}
  {pos : BlockId → Nat} {k c e : BlockId}

-- =================================================================== jumps

/-- Labels of blocks stand at the positions of the blocks in the whole code, and
the next block begins where the code so far ends. -/
structure Scope.Joins (x : Scope) (pos : BlockId → Nat)
    (b' B : Builder) : Prop where
  whole : Extends b' B
  label : ∀ k name, x.func.hasBlock k = true → x.labels[k.toNat]? = some name →
    ⟨name, false, pos k⟩ ∈ B.labels
  next : x.func.hasBlock x.next = true → pos x.next = b'.code.length

/-- Code that leads to the positions of blocks and changes no slot but those
from the `n`-th to the top of the frame. -/
structure Turns (code : List Insn) (base : Nat) (x : Scope)
    (pos : BlockId → Nat) (L : Layout) (n : Nat) (b b' : Builder)
    (goes : FrameSlots → BlockId → Prop) : Prop where
  stage : ∃ n', n ≤ n' ∧ Stage L 0 n' b'
  run : ∀ σ k, goes σ k → x.func.hasBlock k = true ∧ ∃ σ',
    Leads code base b.code.length σ (pos k) σ'
      ∧ ∀ off : Int32, off.toInt < n ∨ b'.top ≤ off.toInt → σ' off = σ off

/-- A statement about where control goes may be weakened. -/
theorem Turns.mono {goes goes' : FrameSlots → BlockId → Prop}
    (h : Turns code base x pos L n b b' goes)
    (hgoes : ∀ σ k, goes' σ k → goes σ k) :
    Turns code base x pos L n b b' goes' :=
  ⟨h.stage, fun σ k hk => h.run σ k (hgoes σ k hk)⟩

/-- A jump goes to its target and leaves the frame. -/
theorem jumpTo_turns (hS : Stage L 0 n b) (hst : Standing code base t B)
    (hj : x.Joins pos b' B) (h : x.jumpTo k b = .ok u b') :
    Turns code base x pos L n b b' fun _ k' => k' = k := by
  rw [Scope.jumpTo] at h
  split at h
  · obtain ⟨_, _, hfail, -⟩ := bind_ok_iff.mp h
    exact absurd hfail failWith_ne_ok
  rename_i hhere
  rw [Bool.not_eq_true', Bool.not_eq_false] at hhere
  split at h
  · obtain ⟨name, b₁, h₁, h⟩ := bind_ok_iff.mp h
    obtain ⟨hname, rfl⟩ := need_ok_iff.mp h₁
    obtain ⟨hcode, hx, -, hlayout⟩ := emit_getElem? h
    refine ⟨⟨n, le_rfl, hS.keep hlayout (by rw [hcode]; simp)⟩, ?_⟩
    rintro σ _ rfl
    refine ⟨hhere, σ, hst.jumps ?_ (hj.label _ name hhere hname),
      fun _ _ => rfl⟩
    exact hj.whole.getElem? hx
  · rename_i hnext
    rw [not_not] at hnext
    cases h
    refine ⟨⟨n, le_rfl, hS⟩, ?_⟩
    rintro σ _ rfl
    rw [hnext] at hhere ⊢
    rw [hj.next hhere]
    exact ⟨hhere, σ, .refl _ _ _ _, fun _ _ => rfl⟩

/-- A branch on a slot goes by whether the slot's word is zero. -/
theorem branchOn_turns {cond : Int32} (hS : Stage L 0 n b)
    (hst : Standing code base t B) (hj : x.Joins pos b' B)
    (h : x.branchOn cond c e b = .ok u b') : Turns code base x pos L n b b'
      fun σ k => ∃ v, σ cond = some v ∧ k = if v.isZero then e else c := by
  rw [Scope.branchOn] at h
  split at h
  · obtain ⟨_, _, hfail, -⟩ := bind_ok_iff.mp h
    exact absurd hfail failWith_ne_ok
  rename_i hhere
  rw [Bool.not_eq_true', Bool.not_eq_false] at hhere
  split at h
  · obtain ⟨name, b₁, h₁, h⟩ := bind_ok_iff.mp h
    obtain ⟨hname, rfl⟩ := need_ok_iff.mp h₁
    obtain ⟨_, b₂, h₂, h⟩ := bind_ok_iff.mp h
    obtain ⟨hcode, hx, -, hlayout⟩ := emit_getElem? h₂
    have hlen : b₂.code.length = b.code.length + 1 := by rw [hcode]; simp
    have hrest := jumpTo_turns (hS.keep hlayout (by omega)) hst hj h
    refine ⟨hrest.stage, ?_⟩
    rintro σ _ ⟨v, hv, rfl⟩
    have hext : Extends b₂ B :=
      ((Extends.closed x.module).jumpTo x (fun _ _ => trivial) e _ _ _ h).trans
      hj.whole
    have hbranch :=
      hst.branches (hext.getElem? hx) (hj.label _ name hhere hname) hv
    obtain ⟨hthere, σ', hgo, hkept⟩ := hrest.run σ e rfl
    cases hzero : v.isZero with
    | true =>
        rw [hzero, if_pos rfl, ← hlen] at hbranch
        exact ⟨hthere, σ', hbranch.trans hgo, hkept⟩
    | false =>
        rw [hzero, if_neg (by decide)] at hbranch
        exact ⟨hhere, σ, hbranch, fun _ _ => rfl⟩
  · rename_i hsame
    rw [not_not] at hsame
    subst hsame
    refine (jumpTo_turns hS hst hj h).mono ?_
    rintro σ _ ⟨v, -, rfl⟩
    exact ite_self c

/-- So does a branch on an operand, which may be a literal: a literal decides
while the code is selected. -/
theorem branch_turns {v : Val} (hS : Stage L 0 n b)
    (hst : Standing code base t B) (hj : x.Joins pos b' B)
    (h : x.branch v c e b = .ok u b') : Turns code base x pos L n b b'
      fun σ k => ∃ a, v.Holds σ a ∧ k = if a.isZero then e else c := by
  cases v with
  | slot off =>
      refine (branchOn_turns hS hst hj h).mono ?_
      rintro σ k ⟨a, ⟨ha, -⟩, hk⟩
      exact ⟨a, ha, hk⟩
  | const m =>
      refine (jumpTo_turns hS hst hj h).mono ?_
      rintro σ k ⟨_, ⟨rfl, -⟩, rfl⟩
      rw [isZero_ofWord]
      by_cases hm : m = 0 <;> simp [hm]

/-- Going to one block if the operands differ and to another if they are equal:
the difference is taken in a fresh slot. -/
theorem branchNeq_turns {l r : Val} (hS : Stage L 0 n b)
    (hst : Standing code base t B) (hj : x.Joins pos b' B)
    (hl : l.Below n) (hr : r.Below n) (h : x.branchNeq l r c e b = .ok u b') :
    Turns code base x pos L n b b'
      fun σ k => ∃ y z, l.Holds σ y ∧ r.Holds σ z
        ∧ k = if y = z then e else c := by
  have hdiff {l r : Val} (hl : l.Below n) (hr : r.Below n)
      (h : (Builder.temp >>= fun diff => Builder.sub l r diff
        >>= fun _ => x.branchOn diff c e) b
        = .ok u b') : Turns code base x pos L n b b'
      fun σ k => ∃ y z, l.Holds σ y ∧ r.Holds σ z
      ∧ k = if y = z then e else c := by
    obtain ⟨tmp, b₁, h₁, h⟩ := bind_ok_iff.mp h
    obtain ⟨_, b₂, h₂, h⟩ := bind_ok_iff.mp h
    obtain ⟨rfl, hS₁, hcode₁, -⟩ := hS.temp (Nat.zero_le 1) h₁
    have hR := Extends.closed x.module
    have hst₂ : Standing code base t b₂ := hst.of_extends
      ((hR.branchOn x (fun _ _ => trivial) _ _ _ _ _ _ h).trans hj.whole)
    have hst₁ : Standing code base t b₁ :=
      hst₂.of_extends (hR.arith _ _ _ _ _ _ _ h₂)
    have hn := hS₁.lt hst₁
    have htop : (Int32.ofNat n).toInt = n := Int32.toInt_ofNat_of_lt (by omega)
    have hup {v : Val} (hv : v.Below n) : v.Below (n + 1) := by
      cases v with
      | slot off => exact lt_trans hv (by push_cast; omega)
      | const m => trivial
    have hsub := arith_computes arithSub_works hS₁ hst₂ (hup hl) (hup hr)
      (by rw [htop]; omega) h₂
    obtain ⟨n₁, hn₁, hS₂⟩ := hsub.stage
    have hrest := branchOn_turns hS₂ hst hj h
    obtain ⟨n₂, hn₂, hS'⟩ := hrest.stage
    have htop₂ := hS₂.top hst₂
    have htop' := hS'.top (hst.of_extends hj.whole)
    refine ⟨⟨n₂, by omega, hS'⟩, ?_⟩
    rintro σ k ⟨y, z, hy, hz, rfl⟩
    obtain ⟨σ₁, hleads, hsets⟩ := hsub.run hy hz
    have hzero : (y - z).isZero = decide (y = z) := by
      rw [Bool.eq_iff_iff, Felt.isZero_sub hy.canonical hz.canonical,
        decide_eq_true_eq]
    obtain ⟨hhere, σ', hgo, hkept⟩ :=
      hrest.run σ₁ (if y = z then e else c) ⟨_, hsets.here, by
      show _ = if (y - z).isZero then e else c
      rw [hzero]
      simp only [decide_eq_true_eq]⟩
    rw [hcode₁] at hleads
    refine ⟨hhere, σ', hleads.trans hgo, fun off hoff => ?_⟩
    rw [hkept off (by omega), hsets.other off (by push_cast; omega)]
    rintro rfl
    omega
  -- a literal on the left is put on the right, and two literals are compared
  -- while the code is selected
  cases l with
  | slot l => exact hdiff hl hr h
  | const y =>
      cases r with
      | slot r =>
          refine (hdiff hr hl h).mono ?_
          rintro σ _ ⟨y, z, hy, hz, rfl⟩
          exact ⟨z, y, hz, hy, by simp only [eq_comm]⟩
      | const z =>
          have h : x.branch (Val.ofInt (Scope.bit (y ≠ z))) c e b = .ok u b' :=
            h
          refine (branch_turns hS hst hj h).mono ?_
          rintro σ _ ⟨_, _, ⟨rfl, -⟩, ⟨rfl, -⟩, rfl⟩
          have hbit (c : Bool) : (Felt.ofInt64 (Scope.bit c).toInt64)
              = Felt.truth c := by
            cases c <;> decide
          refine ⟨Felt.truth (y ≠ z), ⟨?_, Felt.canonical_truth _⟩, ?_⟩
          · rw [Felt.ofWord_toInt32, hbit]
          · simp only [ofWord_inj]
            by_cases hyz : y = z <;> simp [hyz, Felt.truth,
              isZero_ofWord, Scope.bit]

-- ============================================================= terminators

open Interp in
/-- What the interpreter finds out by a comparison of operands for equality. -/
theorem Scope.Mirrors.test {fr : Frame} (hfr : x.Mirrors L fr σ) {op : BinaryOp}
    (hop : ¬ (op ≠ .eq ∧ op ≠ .neq)) {l r : Operand} {v w : Val}
    (hv : x.Chosen L l v) (hw : x.Chosen L r w) {test : Bool}
    (htest : lookTest fr op l r = some test) :
    ∃ y z : Felt, v.Holds σ y ∧ w.Holds σ z
        ∧ test = (decide (y = z) == decide (op = .eq)) := by
  obtain ⟨y, z, zs, hy, hz, hzs, rfl⟩ := lookTest_eq_some.mp htest
  have hysl := hfr.stands hy hv.not_static
  have hzsl := hfr.stands hz hw.not_static
  rw [binaryOp.eq_def, if_neg (by
    rcases not_and_or.mp hop with hop | hop <;> rw [not_not.mp hop]
      <;> decide)] at hzs
  split at hzs
  · rename_i hyslots hzslots
    rw [hyslots] at hysl
    rw [hzslots] at hzsl
    obtain ⟨a, rfl, ha⟩ := hv.holds hysl
    obtain ⟨c, rfl, hc⟩ := hw.holds hzsl
    rw [Felt.ofInt64_toInt64 ha.canonical,
      Felt.ofInt64_toInt64 hc.canonical] at hzs
    refine ⟨a, c, ha, hc, ?_⟩
    rcases not_and_or.mp hop with hop | hop
    all_goals
      rw [not_not.mp hop] at hzs ⊢
      cases hzs
      by_cases hac : a = c <;> simp [hac, Interp.bit]
  · cases hzs

open Interp in
/-- A terminator leads to the block that the interpreter goes to. -/
theorem term_goes {tm : Terminator} (hx : x.Laid L) (hS : Stage L 0 n b)
    (hst : Standing code base t B) (hj : x.Joins pos b' B)
    (hfits : tm.Fits x.func) (hret : ∀ vs, tm ≠ .ret vs)
    (h : x.term (some tm) b = .ok u b') :
    Turns code base x pos L n b b' fun σ k => ∃ fr, x.Mirrors L fr σ
      ∧ nextOf fr (some tm) = some (.block k) := by
  cases tm with
  | jump k =>
      refine (jumpTo_turns hS hst hj h).mono ?_
      rintro σ k' ⟨fr, -, hk⟩
      cases hk
      rfl
  | branch o c e =>
      obtain ⟨w, b₁, h₁, h⟩ := bind_ok_iff.mp h
      obtain ⟨rfl, hw⟩ := val_ok hS h₁
      refine (branch_turns hS hst hj h).mono ?_
      rintro σ k ⟨fr, hfr, hk⟩
      obtain ⟨y, hy, hk⟩ := Option.map_eq_some_iff.mp hk
      cases hk
      obtain ⟨v, hv, hslots⟩ := lookScalar_eq_some.mp hy
      obtain ⟨a, rfl, ha⟩ := hw.holds (hslots ▸ hfr.stands hv hw.not_static)
      refine ⟨a, ha, ?_⟩
      cases hzero : a.isZero with
      | true => simp [Felt.toInt64_eq_zero_iff.mpr hzero]
      | false =>
          have hne : a.toInt64 ≠ 0 := fun heq => by
            rw [Felt.toInt64_eq_zero_iff.mp heq] at hzero
            cases hzero
          simp [hne]
  | branchCmp op l r c e =>
      rw [Scope.term] at h
      split at h
      · obtain ⟨_, _, hfail, -⟩ := bind_ok_iff.mp h
        exact absurd hfail failWith_ne_ok
      rename_i hop
      obtain ⟨v, b₁, h₁, h⟩ := bind_ok_iff.mp h
      obtain ⟨rfl, hv⟩ := val_ok hS h₁
      obtain ⟨w, b₂, h₂, h⟩ := bind_ok_iff.mp h
      obtain ⟨rfl, hw⟩ := val_ok hS h₂
      have hvb := hv.below hx hS.low hfits.1
      have hwb := hw.below hx hS.low hfits.2
      split at h
      · rename_i heq
        refine (branchNeq_turns hS hst hj hvb hwb h).mono ?_
        rintro σ k ⟨fr, hfr, hk⟩
        obtain ⟨test, htest, hk⟩ := Option.map_eq_some_iff.mp hk
        cases hk
        obtain ⟨y, z, hy, hz, rfl⟩ := hfr.test hop hv hw htest
        refine ⟨y, z, hy, hz, ?_⟩
        by_cases hyz : y = z <;> simp [hyz, heq]
      · rename_i hne
        refine (branchNeq_turns hS hst hj hvb hwb h).mono ?_
        rintro σ k ⟨fr, hfr, hk⟩
        obtain ⟨test, htest, hk⟩ := Option.map_eq_some_iff.mp hk
        cases hk
        obtain ⟨y, z, hy, hz, rfl⟩ := hfr.test hop hv hw htest
        refine ⟨y, z, hy, hz, ?_⟩
        by_cases hyz : y = z <;> simp [hyz, hne]
  | ret vs => exact absurd rfl (hret vs)
  | unreachable =>
      cases h
      refine ⟨⟨n, le_rfl, hS⟩, ?_⟩
      rintro σ k ⟨fr, -, hk⟩
      cases hk

-- ================================================================= returns

/-- What is returned is moved to its slots one after the other, as arguments
are. -/
theorem moves_of_moveReturns {ps : List (Operand × Ty)} {i : Nat} {off : Int32}
    (h : x.moveReturns (ps.zipIdx i) off b = .ok u b') :
    Moves x ps off b b' := by
  induction ps generalizing b i off with
  | nil =>
      cases h
      exact .nil
  | cons p ps ih =>
      rw [List.zipIdx_cons, Scope.moveReturns] at h
      obtain ⟨_, _, h₁, hrest⟩ := bind_ok_iff.mp h
      exact .cons (under_ok_iff.mp h₁) (ih hrest)

/-- Operands that are no known addresses stand for what the interpreter reads,
in as many slots as their types have. -/
theorem Scope.Mirrors.stand_all {fr : Interp.Frame} {σ : FrameSlots}
    (h : x.Mirrors L fr σ) (hx : x.Laid L) {ps : List (Operand × Ty)}
    {ys : List Interp.Value}
    (hfits : ∀ p ∈ ps, (x.func.operandType p.1).slots = p.2.slots)
    (hplain : ∀ p ∈ ps, ∀ v, p.1 = .value v → v ∉ x.static)
    (hsmall : Ty.widthOfList (ps.map (·.2)) ≤ 16777216)
    (hys : (ps.map (·.1)).mapM (Interp.look fr) = some ys) :
    List.Forall₂ (fun p y => Stands L σ p.1 y ∧ y.length = p.2.width) ps
      (ys.map (·.slots)) := by
  induction ps generalizing ys with
  | nil =>
      cases hys
      exact .nil
  | cons p ps ih =>
      rw [List.map_cons, List.mapM_cons] at hys
      obtain ⟨y, hy, hys⟩ := Option.bind_eq_some_iff.mp hys
      obtain ⟨zs, hzs, hys⟩ := Option.bind_eq_some_iff.mp hys
      cases hys
      rw [List.map_cons, Ty.widthOfList] at hsmall
      rw [List.forall_mem_cons] at hfits hplain
      have hlen := h.length_eq hx hy hplain.1
      rw [hfits.1, Ty.toInt_slots p.2 (by omega)] at hlen
      exact .cons ⟨h.stands hy hplain.1, Int.ofNat_inj.mp hlen⟩
        (ih hfits.2 hplain.2 (by omega) hzs)

open Interp in
/-- Returned values are moved to slots where no value is. -/
theorem moveReturns_puts {ps : List (Operand × Ty)} {i : Nat}
    {off : Int32} (hx : x.Laid L) (hS : Stage L 0 n b)
    (hst : Standing code base t b')
    (hfits : ∀ p ∈ ps, (x.func.operandType p.1).slots = p.2.slots)
    (hsmall : Ty.widthOfList (ps.map (·.2)) ≤ 16777216)
    (hfree : ∀ i < Ty.widthOfList (ps.map (·.2)),
      (off + Int32.ofNat i).toInt < n
      ∧ ¬ L.Taken (off + Int32.ofNat i))
    (h : x.moveReturns (ps.zipIdx i) off b = .ok u b') :
    Stage L 0 n b' ∧ ∀ σ fr ys, x.Mirrors L fr σ → (ps.map (·.1)).mapM
      (look fr) = some ys →
      (ys.flatMap (·.slots)).length = Ty.widthOfList (ps.map (·.2))
      ∧ ∃ σ', Leads code base b.code.length σ b'.code.length σ'
        ∧ Puts n b'.top off (ys.flatMap (·.slots)) σ σ' := by
  have hmoves := moves_of_moveReturns h
  refine ⟨hmoves.stage hS, fun σ fr ys hfr hys => ?_⟩
  have hplain (p) (hp : p ∈ ps) (v : ValueId) (hv : p.1 = .value v) :
      v ∉ x.static := by
    intro hstatic
    rcases hmoves.not_static hS p hp v hv with hzero | hnot
    · have hone : x.func.operandType p.1 = x.func.typeOf v := by rw [hv]; rfl
      have hslot := hx.address v hstatic
      rw [← hone, hfits p hp, hzero] at hslot
      exact absurd hslot (by decide)
    · exact hnot hstatic
  have hstands := hfr.stand_all hx hfits hplain hsmall hys
  rw [List.flatMap_def]
  exact ⟨length_of_widths (hstands.imp fun _ _ h => h.2),
    hmoves.puts hx.toLaid hS hst (fun p hp v s hv hstatic hs => by
      rw [hx.len v s hs hstatic, ← hfits p hp, hv]
      rfl) hsmall hfree hstands fun _ _ => rfl⟩

open Interp in
/-- A return moves the returned values to the results, and comes to the
instruction that goes back. -/
theorem term_returns {vs : List Operand} (hx : x.Laid L) (hS : Stage L 0 n b)
    (hst : Standing code base t b') (hfits : (Terminator.ret vs).Fits x.func)
    (h : x.term (some (.ret vs)) b = .ok u b') :
    Stage L 0 n b' ∧ ∃ j, b'.code[j]? = some { opcode := .ret }
        ∧ ∀ σ fr ys, x.Mirrors L fr σ →
      vs.mapM (look fr) = some ys →
      (ys.flatMap (·.slots)).length = Ty.widthOfList x.func.returns
      ∧ ∃ σ', Leads code base b.code.length σ j σ'
        ∧ Puts n b'.top (Int32.ofInt (Layout.resultsAt x.func))
        (ys.flatMap (·.slots)) σ σ' := by
  rw [Scope.term] at h
  split at h
  · obtain ⟨_, _, hfail, -⟩ := bind_ok_iff.mp h
    exact absurd hfail failWith_ne_ok
  rename_i hcount
  rw [not_not] at hcount
  obtain ⟨_, b₁, h₁, h⟩ := bind_ok_iff.mp h
  cases h₁
  obtain ⟨l, b₂, h₂, h⟩ := bind_ok_iff.mp h
  obtain ⟨hl, rfl⟩ := need_ok_iff.mp h₂
  rw [hS.layout, Option.some.injEq] at hl
  subst hl
  obtain ⟨_, b₃, h₃, h⟩ := bind_ok_iff.mp h
  obtain ⟨hcode, hret, -, hlayout⟩ := emit_getElem? h
  have hsig := hx.signature
  have hoff : Layout.returnOffset { L with frameSize := Int64.ofNat n }
      = Int32.ofInt (Layout.resultsAt x.func) := by
    show -L.returnSlots.toInt32 - Layout.callerSlots = _
    rw [hx.returnSlots]
    simp [Layout.resultsAt, Int32.ofInt_sub, Int32.ofInt_neg,
      Int32.ofInt_eq_ofNat, Layout.callerSlots]
  rw [hoff] at h₃
  have htypes : (vs.zip x.func.returns).map (·.2) = x.func.returns :=
    List.map_snd_zip (by omega)
  have hvalues : (vs.zip x.func.returns).map (·.1) = vs :=
    List.map_fst_zip (by omega)
  have hst₃ : Standing code base t b₃ :=
    hst.of_extends ((Extends.roomy fun _ => True).literal _ _ _ _ _ _ _ _ h)
  obtain ⟨hS₃, hrun⟩ :=
    moveReturns_puts hx hS hst₃ hfits (by rw [htypes]; omega)
    (fun i hi => by
      rw [htypes] at hi
      have htoInt := hx.result_place hi.le
      refine ⟨by rw [htoInt, Layout.resultsAt]; omega, ?_⟩
      rintro ⟨v, s, j, hs, hj, heq⟩
      obtain ⟨hplace, hin⟩ := hx.slot_place hs hj
      rw [← heq, htoInt] at hplace
      rw [Layout.resultsAt] at hplace hin
      omega) h₃
  refine ⟨hS₃.keep hlayout (by rw [hcode]; simp), b₃.code.length, hret,
    fun σ fr ys hfr hys => ?_⟩
  have := hrun σ fr ys hfr (by rw [hvalues]; exact hys)
  rwa [htypes, ← Builder.top_eq hlayout] at this

end Asm

end MirBackend
