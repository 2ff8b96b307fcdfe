/-
Folding tests into branches keeps behaviour.

A fused branch asks about the operands of the test what the old branch asked
about its result. The test is gone from its place in the block, so between
there and the branch the new function owes an answer, and nothing on the way
changes what it depends on: neither the condition nor an operand of the test is
assigned again (`Owing`). Conditions that were folded are read by their branch
alone, so that frames may differ in them.

A branch on a slot looks at the whole word, a comparison at the element of the
field. The two agree on words below the order of the field, and this is asked
of every word that a test of the run looks at.
-/
import Mathlib
import MirBackend.Proofs.Field
import MirBackend.Proofs.Interp.SlotOrigins
import MirBackend.Proofs.Pass.BranchFusion
import MirBackend.Proofs.Pass.TrimmedRuns

namespace MirBackend

-- =================================================================== tests

namespace Interp

/-- The slot of a literal zero. -/
theorem look_of_isZero {fr : Frame} {o : Operand} (h : o.isZero = true) :
    look fr o = some ⟨[0], 0⟩ := by
  cases o with
  | int n =>
      have hn : n = 0 := by simpa [Operand.isZero, Operand.imm?] using h
      rw [hn]
      rfl
  | bool b =>
      cases b with
      | false => rfl
      | true => cases h
  | _ => cases h

/-- Comparisons for equality of one slot each. -/
theorem binaryOp_eq_ok {op : BinaryOp}
    (hop : op = .eq ∨ op = .neq) {l r z : Slots} (h : binaryOp op l r = .ok z) :
    ∃ a b, l = [a] ∧ r = [b] ∧ fieldOp op (Felt.ofInt64 a)
      (Felt.ofInt64 b) = .ok z := by
  rcases l with - | ⟨a, - | ⟨a', l⟩⟩ <;> rcases r with - | ⟨b, - | ⟨b', r⟩⟩ <;>
    rcases hop with rfl | rfl <;> first | exact ⟨a, b, rfl, rfl, h⟩ | cases h

/-- A comparison for equality answers with a truth value. -/
theorem binaryOp_equality {op : BinaryOp}
    (hop : op = .eq ∨ op = .neq ∨ op = .u32Eq ∨ op = .u32Neq) {l r z : Slots}
    (h : binaryOp op l r = .ok z) : ∃ β : Bool, z = [bit β] := by
  rcases hop with rfl | rfl | rfl | rfl
  · obtain ⟨a, b, -, -, hz⟩ := binaryOp_eq_ok (Or.inl rfl) h
    cases hz
    exact ⟨_, rfl⟩
  · obtain ⟨a, b, -, -, hz⟩ := binaryOp_eq_ok (Or.inr rfl) h
    cases hz
    exact ⟨_, rfl⟩
  · obtain ⟨a, -, h⟩ := bind_eq_ok.mp (show (_ >>= _) = _ from h)
    obtain ⟨b, -, h⟩ := bind_eq_ok.mp h
    cases h
    exact ⟨_, rfl⟩
  · obtain ⟨a, -, h⟩ := bind_eq_ok.mp (show (_ >>= _) = _ from h)
    obtain ⟨b, -, h⟩ := bind_eq_ok.mp h
    cases h
    exact ⟨_, rfl⟩

/-- The bit of a truth value is not zero if it is true. -/
theorem bit_ne_zero (β : Bool) : bit β ≠ 0 ↔ β = true := by
  cases β <;> decide

end Interp

/-- The operands that an instruction compares with zero. -/
def Instr.tested : Instr → List Operand
  | .unary .not _ x => [x]
  | .binary .eq _ l r | .binary .neq _ l r =>
    (BranchFusion.comparedToZero l r).toList
  | _ => []

/-- The operands that a terminator compares with zero. -/
def Terminator.tested : Terminator → List Operand
  | .branch c _ _ => [c]
  | _ => []

namespace BranchFusion

open Func Interp

/-- Every word of a list of operands is below the order of the field. -/
def AllBelowOrder (fr : Frame) (os : List Operand) : Prop :=
  ∀ o ∈ os, ∀ x, lookScalar fr o = some x → BelowOrder x

/-- What is compared with zero next, by an instruction or at the end of a block,
is below the order of the field. -/
def TestsBelowOrder (m : Module) (k : FuncId) (c : Interp.Place) : Prop :=
  (∀ i is, c.rest = i :: is → AllBelowOrder c.frame i.tested)
  ∧ (c.rest = [] → ∀ f b t, m.func? k = some f →
    f.block? c.block = some b → b.term = some t →
    AllBelowOrder c.frame t.tested)

-- ================================================================ one test

-- What the two kinds of definition that are folded compute.
theorem exec_binary_ok {f : Func} {fr fr₁ : Frame} {w w₁ : Machine}
    {op : BinaryOp} {d : ValueId} {l r : Operand}
    (h : exec ⟨[]⟩ refuse f fr (.binary op d l r) w = .ok fr₁ w₁) :
    ∃ x y z, look fr l = some x ∧ look fr r = some y
        ∧ binaryOp op x.slots y.slots = .ok z
      ∧ fr₁ = fr.insert d ⟨z, 0⟩ := by
  simp only [exec, bind_ok_iff, eval_ok_iff, lift_ok_iff, pure_ok_iff] at h
  obtain ⟨x, s₁, ⟨hx, rfl⟩, y, s₂, ⟨hy, rfl⟩, z, s₃, ⟨hz, rfl⟩, hfr, -⟩ := h
  exact ⟨x, y, z, hx, hy, hz, hfr.symm⟩

theorem exec_unary_ok {f : Func} {fr fr₁ : Frame} {w w₁ : Machine}
    {op : UnaryOp} {d : ValueId} {x : Operand}
    (h : exec ⟨[]⟩ refuse f fr (.unary op d x) w = .ok fr₁ w₁) :
    ∃ a z, lookScalar fr x = some a ∧ unaryOp op a = .ok z
        ∧ fr₁ = fr.insert d ⟨z, 0⟩ := by
  simp only [exec, bind_ok_iff, scalar_ok_iff, lift_ok_iff, pure_ok_iff] at h
  obtain ⟨a, s₁, ⟨ha, rfl⟩, z, s₂, ⟨hz, rfl⟩, hfr, -⟩ := h
  exact ⟨a, z, lookScalar_eq_some.mpr ha, hz, hfr.symm⟩

/-- A comparison with a literal zero asks whether the word of the other operand
is zero. -/
theorem comparedToZero_asks {fr : Frame} {op : BinaryOp}
    (hop : op = .eq ∨ op = .neq) {l r x : Operand} {u v : Value} {z : Slots}
    (hx : comparedToZero l r = some x) (hl : look fr l = some u)
    (hr : look fr r = some v) (hz : binaryOp op u.slots v.slots = .ok z)
    (hbelow : AllBelowOrder fr [x]) :
    ∃ a, lookScalar fr x = some a
        ∧ z = [bit (decide (a = 0) == decide (op = .eq))] := by
  obtain ⟨a, b, ha, hb, hz⟩ := binaryOp_eq_ok hop hz
  unfold comparedToZero at hx
  split at hx
  -- the left operand is the literal zero, and the right one is what is left to
  -- ask
  · next hzero =>
    cases hx
    have hla : lookScalar fr l = some a := lookScalar_eq_some.mpr ⟨u, hl, ha⟩
    rw [look_of_isZero hzero, Option.some.injEq] at hr
    subst hr
    cases hb
    have hiff := (hbelow l List.mem_cons_self a hla).ofInt64_eq_zero_iff
    refine ⟨a, hla, ?_⟩
    rcases hop with rfl | rfl <;> cases hz <;> simp [hiff]
  · split at hx
    · next hzero =>
      cases hx
      have hrb : lookScalar fr r = some b := lookScalar_eq_some.mpr ⟨v, hr, hb⟩
      rw [look_of_isZero hzero, Option.some.injEq] at hl
      subst hl
      cases ha
      have hiff := (hbelow r List.mem_cons_self b hrb).ofInt64_eq_zero_iff
      refine ⟨b, hrb, ?_⟩
      rcases hop with rfl | rfl <;> cases hz <;> simp [← hiff, eq_comm]
    · cases hx

/-- A branch that compares for equality goes where the comparison says. -/
theorem branchCmp_decides {f : Func} {fr fr₁ : Frame} {w w₁ : Machine}
    {op : BinaryOp} {c : ValueId} {l r : Operand}
    (hop : op = .eq ∨ op = .neq ∨ op = .u32Eq ∨ op = .u32Neq) (t e : BlockId)
    (hrun : exec ⟨[]⟩ refuse f fr (.binary op c l r) w = .ok fr₁ w₁) :
    ∃ β : Bool, fr₁ = fr.insert c ⟨[bit β], 0⟩
      ∧ nextOf fr (some (.branchCmp op l r t e))
      = some (.block (if β then t else e)) := by
  obtain ⟨u, v, z, hl, hr, hz, rfl⟩ := exec_binary_ok hrun
  obtain ⟨β, rfl⟩ := binaryOp_equality hop hz
  have htest : lookTest fr op l r = some β :=
    lookTest_eq_some.mpr ⟨u, v, _, hl, hr, hz, by simp [bit_ne_zero]⟩
  exact ⟨β, rfl, by simp only [nextOf, htest, Option.map_some]⟩

/-- What a test answers, and that the branch it is folded into goes the same
way. -/
theorem fusedTerm_decides {f : Func} {fr fr₁ : Frame} {w w₁ : Machine}
    {d : Instr} {c : ValueId} {t e : BlockId} {tm : Terminator}
    (hc : c ∈ d.dests) (htm : fusedTerm t e d = some tm)
    (htested : AllBelowOrder fr d.tested)
    (hrun : exec ⟨[]⟩ refuse f fr d w = .ok fr₁ w₁) :
    ∃ β : Bool, fr₁ = fr.insert c ⟨[bit β], 0⟩
      ∧ nextOf fr (some tm) = some (.block (if β then t else e)) := by
  -- a comparison with zero becomes a branch on the other operand
  have hzero {op : BinaryOp} {l r x : Operand} (hop : op = .eq ∨ op = .neq)
      (hx : comparedToZero l r = some x) (htested :
          AllBelowOrder fr (comparedToZero l r).toList)
      (hrun : exec ⟨[]⟩ refuse f fr (.binary op c l r) w = .ok fr₁ w₁) :
      ∃ a, lookScalar fr x = some a
        ∧ fr₁ = fr.insert c ⟨[bit (decide (a = 0) == decide (op = .eq))],
        0⟩ := by
    obtain ⟨u, v, z, hl, hr, hz, rfl⟩ := exec_binary_ok hrun
    rw [hx, Option.toList_some] at htested
    obtain ⟨a, ha, rfl⟩ := comparedToZero_asks hop hx hl hr hz htested
    exact ⟨a, ha, rfl⟩
  unfold fusedTerm at htm
  split at htm
  · -- equality
    next c' l r =>
    obtain rfl := List.mem_singleton.mp hc
    split at htm
    · next x hx =>
      cases htm
      obtain ⟨a, ha, rfl⟩ := hzero (Or.inl rfl) hx htested hrun
      refine ⟨_, rfl, ?_⟩
      by_cases h0 : a = 0 <;> simp [nextOf, ha, h0]
    · cases htm
      exact branchCmp_decides (Or.inl rfl) t e hrun
  · -- inequality
    next c' l r =>
    obtain rfl := List.mem_singleton.mp hc
    split at htm
    · next x hx =>
      cases htm
      obtain ⟨a, ha, rfl⟩ := hzero (Or.inr rfl) hx htested hrun
      refine ⟨_, rfl, ?_⟩
      by_cases h0 : a = 0 <;> simp [nextOf, ha, h0]
    · cases htm
      exact branchCmp_decides (Or.inr (Or.inl rfl)) t e hrun
  · next c' l r =>
    obtain rfl := List.mem_singleton.mp hc
    cases htm
    exact branchCmp_decides (Or.inr (Or.inr (Or.inl rfl))) t e hrun
  · next c' l r =>
    obtain rfl := List.mem_singleton.mp hc
    cases htm
    exact branchCmp_decides (Or.inr (Or.inr (Or.inr rfl))) t e hrun
  · -- negation
    next c' x =>
    obtain rfl := List.mem_singleton.mp hc
    obtain ⟨a, z, ha, hz, rfl⟩ := exec_unary_ok hrun
    cases htm
    cases hz
    refine ⟨_, rfl, ?_⟩
    by_cases h0 : a = 0 <;> simp [nextOf, ha, h0]
  · cases htm

/-- What is folded into a branch is quiet and no phi, and the branch reads what
it read. -/
theorem fusedTerm_parts {t e : BlockId} {d : Instr} {tm : Terminator}
    (h : fusedTerm t e d = some tm) :
    d.isQuiet = true ∧ d.isPhi = false ∧ ∀ o ∈ tm.operands, o ∈ d.operands := by
  -- what is compared with zero is one of the two operands
  have hzero {l r x : Operand} (hx : comparedToZero l r = some x) :
      x ∈ [l, r] := by
    unfold comparedToZero at hx
    split at hx
    · cases hx
      exact List.mem_cons_self
    · split at hx
      · cases hx
        exact List.mem_cons_of_mem _ List.mem_cons_self
      · cases hx
  unfold fusedTerm at h
  split at h
  · split at h
    · next x hx =>
      cases h
      exact ⟨rfl, rfl, fun o ho => List.mem_singleton.mp ho ▸ hzero hx⟩
    · cases h
      exact ⟨rfl, rfl, fun o ho => ho⟩
  · split at h
    · next x hx =>
      cases h
      exact ⟨rfl, rfl, fun o ho => List.mem_singleton.mp ho ▸ hzero hx⟩
    · cases h
      exact ⟨rfl, rfl, fun o ho => ho⟩
  · cases h
    exact ⟨rfl, rfl, fun o ho => ho⟩
  · cases h
    exact ⟨rfl, rfl, fun o ho => ho⟩
  · cases h
    exact ⟨rfl, rfl, fun o ho => ho⟩
  · cases h

-- ============================================================== one block

/-- A test that is folded into the branch of its block: the branch and its
condition, the instructions around the test. -/
structure Folding (reads : List ValueId) (blk : Block)
    (c : ValueId) (t e : BlockId) (before : List Instr) (d : Instr)
    (after : List Instr) (tm : Terminator) : Prop where
  term : blk.term = some (.branch (.value c) t e)
  once : reads.count c = 1
  instrs : blk.instrs = before ++ d :: after
  defines : c ∈ d.dests
  last : ∀ i ∈ after, c ∉ i.dests
  steady : ∀ i ∈ after, ∀ v ∈ i.dests, v ∉ d.uses
  fused : fusedTerm t e d = some tm

/-- Where the last definition of a value stands. -/
theorem splitAtLastDef_spec {v : ValueId}
    {is before after : List Instr} {d : Instr}
    (h : splitAtLastDef v is = some (before, d, after)) :
    v ∈ d.dests ∧ ∀ i ∈ after, v ∉ i.dests := by
  -- where the split finds nothing, nothing defines the value
  have hnone (js : List Instr) (hjs : splitAtLastDef v js = none) :
      ∀ j ∈ js, v ∉ j.dests := by
    induction js with
    | nil => simp
    | cons j js ih =>
        rw [splitAtLastDef] at hjs
        split at hjs
        · cases hjs
        · next hrec =>
          split at hjs
          · cases hjs
          · next hj =>
            intro i hi
            rcases List.mem_cons.mp hi with rfl | hi
            · exact hj
            · exact ih hrec i hi
  induction is generalizing before with
  | nil => cases h
  | cons i is ih =>
      rw [splitAtLastDef] at h
      split at h
      · next before' d' after' hrec =>
        cases h
        exact ih hrec
      · next hrec =>
        split at h
        · next hi =>
          cases h
          exact ⟨hi, hnone _ hrec⟩
        · cases h

/-- What fusion does to a block is a folding. -/
theorem folding_of_fusion {reads : List ValueId} {blk : Block}
    {is : List Instr} {tm : Terminator} (h : fusion reads blk = some (is, tm)) :
    ∃ c t e before d after, Folding reads blk c t e before d after tm
        ∧ is = before ++ after := by
  unfold fusion at h
  split at h
  case h_2 => cases h
  case h_1 c t e hterm =>
    split at h
    case isFalse => cases h
    case isTrue honce =>
      split at h
      case h_1 => cases h
      case h_2 before d after hsplit =>
        split at h
        case isTrue => cases h
        case isFalse hsteady =>
          obtain ⟨tm', htm, heq⟩ := Option.map_eq_some_iff.mp h
          cases heq
          obtain ⟨hdef, hlast⟩ := splitAtLastDef_spec hsplit
          refine ⟨c, t, e, before, d, after,
            ⟨hterm, honce, splitAtLastDef_eq_some hsplit, hdef,
            hlast, fun i hi v hv hu => hsteady ?_, htm⟩, rfl⟩
          rw [List.any_eq_true]
          exact ⟨i, hi, List.any_eq_true.mpr ⟨v, hv, by simpa using hu⟩⟩

/-- A block as fusion leaves it, its predecessors apart. -/
def afterFusion (reads : List ValueId) (blk : Block) : Block :=
  match fusion reads blk with
  | none => blk
  | some (is, tm) => { blk with instrs := is, term := some tm }

/-- The folded test stands behind the phis; head and body of the block without
it. -/
theorem Folding.parts {reads : List ValueId} {blk : Block}
    {c : ValueId} {t e : BlockId} {before after : List Instr}
    {d : Instr} {tm : Terminator}
    (h : Folding reads blk c t e before d after tm)
    (hbody : ∀ i ∈ blk.body, i.isPhi = false) :
    ∃ mid, blk.body = mid ++ d :: after
      ∧ (before ++ after).takeWhile Instr.isPhi = blk.leadingPhis
      ∧ (before ++ after).dropWhile Instr.isPhi = mid ++ after := by
  have hd := (fusedTerm_parts h.fused).2.1
  have hsplit : blk.leadingPhis ++ blk.body = before ++ d :: after :=
    blk.leadingPhis_append_body.trans h.instrs
  -- the head lies in front of the test
  obtain ⟨mid, hbefore, hmid⟩ : ∃ mid, before = blk.leadingPhis ++ mid
      ∧ blk.body = mid ++ d :: after := by
    rcases List.append_eq_append_iff.mp hsplit with ⟨mid, hbefore, hmid⟩
      | ⟨ps, hps, hrest⟩
    · exact ⟨mid, hbefore, hmid⟩
    · -- the test is no phi, so no part of the head lies behind it
      cases ps with
      | nil => exact ⟨[], by simpa using hps.symm, by simpa using hrest.symm⟩
      | cons p ps =>
          have hdp : d = p := (List.cons.inj hrest).1
          have hphi : p.isPhi = true :=
            Block.isPhi_of_mem_leadingPhis (b := blk) (by rw [hps]; simp)
          rw [← hdp, hd] at hphi
          cases hphi
  refine ⟨mid, hmid, ?_⟩
  rw [hbefore, List.append_assoc]
  refine Block.takeWhile_isPhi_append
    (fun i hi => Block.isPhi_of_mem_leadingPhis hi)
    fun i hi => hbody i ?_
  rw [hmid]
  rcases List.mem_append.mp hi with hi | hi
  · exact List.mem_append_left _ hi
  · exact List.mem_append_right _ (List.mem_cons_of_mem _ hi)

-- ================================================================ the pass

variable {f g : Func} {rs : List ValueId}

/-- `g` is `f` with every test folded that can be. -/
structure FusedOf (f g : Func) (rs : List ValueId) : Prop where
  header : f.SameHeader g
  block : ∀ b blk, f.block? b = some blk →
    ∃ ps, g.block? b = some ((afterFusion rs blk).withPreds ps)

/-- One step of the pass: the block asked for is fused, the others stay. -/
theorem fuseBlock_spec (rs : List ValueId) (h : f.WellFormed) (fused : Bool)
    {b : BlockId} {blk : Block} (hb : f.block? b = some blk) :
    ∃ m g, fuseBlock rs (fused, f) b = .ok (m, g)
        ∧ g.WellFormed ∧ f.SameHeader g
      ∧ ∀ c cb, f.block? c = some cb →
        ∃ ps, g.block? c
            = some ((if c = b then afterFusion rs cb
            else cb).withPreds ps) := by
  have hsame (c : BlockId) (cb : Block) (hc : f.block? c = some cb)
      (hcb : c = b) : cb = blk := by
    rw [hcb, hb, Option.some.injEq] at hc
    exact hc.symm
  simp only [fuseBlock, block_eq_ok.mpr hb, given_ok, ok_bind]
  cases hfusion : fusion rs blk with
  -- nothing to fuse: the block stays as it is
  | none =>
      refine ⟨fused, f, rfl, h, .refl f, fun c cb hc => ⟨cb.preds, ?_⟩⟩
      have hafter : (if c = b then afterFusion rs cb else cb) = cb := by
        split
        · next hcb => rw [hsame c cb hc hcb, afterFusion, hfusion]
        · rfl
      rw [hafter, hc]
      rfl
  -- the block is rewritten, and only predecessor lists change elsewhere
  | some x =>
      obtain ⟨is, tm⟩ := x
      obtain ⟨hsub, htargets⟩ := fusion_spec hfusion
      obtain ⟨g, hg, hheader, hlen, hblock⟩ :=
        setTerm_fusedBlock h is hb htargets
      have hre : f.Reshaped g := by
        refine ⟨hlen, hheader.entry, fun c => ?_⟩
        rw [hblock]
        cases hc : f.block? c with
        | none => exact .none
        | some cb => exact .some (fusedBlock_reshaped h hb hc hsub htargets)
      refine ⟨true, g, by simp only [hg]; rfl, hre.wellFormed h, hheader,
        fun c cb hc => ?_⟩
      rw [hblock, hc]
      refine ⟨(fusedBlock b is tm blk.targets c cb).preds, congrArg some ?_⟩
      by_cases hcb : c = b
      · rw [if_pos hcb, hsame c cb hc hcb, afterFusion, hfusion]
        simp [fusedBlock, hcb, Block.withPreds]
      · simp [fusedBlock, hcb, Block.withPreds]

/-- The pass on its way: the blocks still to be visited are as they were, the
others as fusion leaves them. -/
structure Fusing (f : Func) (rs : List ValueId) (rest : List BlockId)
    (x : Bool × Func) : Prop where
  wellFormed : x.2.WellFormed
  header : f.SameHeader x.2
  distinct : rest.Nodup
  here : ∀ b ∈ rest, f.hasBlock b = true
  block : ∀ b blk, f.block? b = some blk →
    ∃ ps, x.2.block? b
      = some ((if b ∈ rest then blk else afterFusion rs blk).withPreds ps)

/-- Each block is fused in turn, and what is fused so far stays so. -/
theorem Fusing.step (h : f.WellFormed) {x : Bool × Func} {b : BlockId}
    {rest : List BlockId} (hx : Fusing f rs (b :: rest) x) :
    ∃ y, fuseBlock rs x b = .ok y ∧ Fusing f rs rest y := by
  obtain ⟨fused, k⟩ := x
  obtain ⟨hb, hnd⟩ := List.nodup_cons.mp hx.distinct
  obtain ⟨blk, hblk⟩ := block?_of_hasBlock h.full (hx.here b List.mem_cons_self)
  obtain ⟨ps, hps⟩ := hx.block b blk hblk
  obtain ⟨m, g, hg, hwf', hheader', hblock'⟩ :=
    fuseBlock_spec rs hx.wellFormed fused hps
  refine ⟨(m, g), hg, hwf', hx.header.trans hheader', hnd,
    fun c hc => hx.here c (List.mem_cons_of_mem _ hc), fun c cb hc => ?_⟩
  obtain ⟨cs, hcs⟩ := hx.block c cb hc
  obtain ⟨cs', hcs'⟩ := hblock' c _ hcs
  refine ⟨cs', ?_⟩
  rw [hcs']
  -- the block just done, and the others
  by_cases hcb : c = b
  · subst hcb
    have hpreds : afterFusion rs (cb.withPreds cs)
        = (afterFusion rs cb).withPreds cs := by
      unfold afterFusion
      rw [show fusion rs (cb.withPreds cs) = fusion rs cb from rfl]
      split <;> rfl
    rw [if_pos rfl, if_pos List.mem_cons_self, if_neg hb, hpreds]
    rfl
  · have hmem : c ∈ b :: rest ↔ c ∈ rest := by simp [hcb]
    simp only [if_neg hcb, hmem]
    rfl

/-- The pass answers, and every block is as fusion leaves it. -/
theorem run_fusedOf (h : f.WellFormed) (hrs : f.reads = .ok rs) :
    ∃ m g, run f = .ok (m, g) ∧ FusedOf f g rs := by
  -- before the first block nothing is done and all blocks are to come
  have hstart :
      Fusing f rs ((List.range f.blocks.length).map Int.ofNat) (false, f) := by
    refine ⟨h, .refl f, List.nodup_range.map Int.ofNat_injective,
      fun b hb => ?_, fun b blk hb => ⟨blk.preds, ?_⟩⟩
    · obtain ⟨j, hj, rfl⟩ := List.mem_map.mp hb
      exact hasBlock_iff.mpr ⟨j, rfl, List.mem_range.mp hj⟩
    · obtain ⟨j, rfl, hj⟩ := hasBlock_iff.mp (hasBlock_of_block? hb)
      have hmem : (j : Int) ∈ (List.range f.blocks.length).map Int.ofNat :=
        List.mem_map.mpr ⟨j, List.mem_range.mpr hj, rfl⟩
      rw [if_pos hmem]
      exact hb
  obtain ⟨⟨m, g⟩, hg, hend⟩ :=
    foldlM_steps (Fusing f rs) (fun x b rest hx => hx.step h) _ _ hstart
  refine ⟨m, g, ?_, hend.header, fun b blk hb => ?_⟩
  · rw [run, hrs, given_ok, ok_bind]
    exact hg
  · obtain ⟨ps, hps⟩ := hend.block b blk hb
    exact ⟨ps, by simpa using hps⟩

-- ============================================================== conditions

/-- The value is the condition of a branch that a test was folded into. -/
def Folded (f : Func) (rs : List ValueId) (v : ValueId) : Prop :=
  ∃ b blk x t e, f.block? b = some blk ∧ fusion rs blk = some x
    ∧ blk.term = some (.branch (.value v) t e)

/-- A value that is read once, by the branch of a block, is read nowhere
else. -/
theorem read_once (h : f.WellFormed) (hrs : f.reads = .ok rs)
    {b : BlockId} {blk : Block} {v : ValueId} {t e : BlockId}
    (hb : f.block? b = some blk)
    (hterm : blk.term = some (.branch (.value v) t e))
    (honce : rs.count v = 1) : (∀ i, f.HasInstr i → v ∉ i.uses)
    ∧ ∀ b' blk', f.block? b' = some blk' → v ∈ usesOf blk'.term → b' = b := by
  obtain ⟨bs, -, hblocks⟩ := h.present
  rw [reads_eq_flatten h hblocks, Except.ok.injEq] at hrs
  obtain ⟨j, rfl, -⟩ := block?_eq_some_iff.mp hb
  rw [block?_of_blocks hblocks] at hb
  obtain ⟨hj, hget⟩ := List.getElem?_eq_some_iff.mp hb
  have hbs : bs = bs.take j ++ blk :: bs.drop (j + 1) := by
    rw [← hget, List.getElem_cons_drop, List.take_append_drop]
  have hown : (readsIn blk).count v
      = (blk.instrs.flatMap Instr.uses).count v + 1 := by
    rw [readsIn, hterm, List.count_append]
    simp [usesOf, Terminator.uses, Terminator.operands,
      Operand.ids, Operand.id?]
  rw [← hrs, hbs, List.map_append, List.map_cons, List.flatten_append,
    List.flatten_cons, List.count_append, List.count_append, hown] at honce
  -- the one read is that of the branch
  have hinstrs : v ∉ blk.instrs.flatMap Instr.uses :=
    List.count_eq_zero.mp (by omega)
  have hbefore : v ∉ ((bs.take j).map readsIn).flatten :=
    List.count_eq_zero.mp (by omega)
  have hafter : v ∉ ((bs.drop (j + 1)).map readsIn).flatten :=
    List.count_eq_zero.mp (by omega)
  have hothers (j' : Nat) (blk' : Block) (hb' :
      bs[j']? = some blk') (hne : j' ≠ j) :
      v ∉ readsIn blk' := by
    intro hv
    rcases Nat.lt_or_gt_of_ne hne with hlt | hgt
    · refine hbefore (List.mem_flatten.mpr ⟨_,
        List.mem_map.mpr ⟨blk', ?_, rfl⟩, hv⟩)
      exact List.mem_of_getElem? (i := j')
        (by rw [List.getElem?_take_of_lt hlt, hb'])
    · refine hafter (List.mem_flatten.mpr ⟨_,
        List.mem_map.mpr ⟨blk', ?_, rfl⟩, hv⟩)
      refine List.mem_of_getElem? (i := j' - (j + 1)) ?_
      rw [List.getElem?_drop, ← hb']
      congr 1
      omega
  refine ⟨?_, fun b' blk' hb' hv => ?_⟩
  · rintro i ⟨b', blk', hb', hi⟩ hv
    obtain ⟨j', rfl, -⟩ := block?_eq_some_iff.mp hb'
    rw [block?_of_blocks hblocks] at hb'
    have hmem : v ∈ blk'.instrs.flatMap Instr.uses :=
      List.mem_flatMap.mpr ⟨i, hi, hv⟩
    by_cases hjj : j' = j
    · rw [hjj, hb, Option.some.injEq] at hb'
      exact hinstrs (hb' ▸ hmem)
    · exact hothers j' blk' hb' hjj (List.mem_append_left _ hmem)
  · obtain ⟨j', rfl, -⟩ := block?_eq_some_iff.mp hb'
    rw [block?_of_blocks hblocks] at hb'
    by_contra hne
    exact hothers j' blk' hb' (fun hjj => hne (by rw [hjj]))
      (List.mem_append_right _ hv)

/-- A branch that is folded is a case of the relation. -/
theorem Folding.folded {b : BlockId} {blk : Block} {c : ValueId} {t e : BlockId}
    {before after : List Instr} {d : Instr} {tm : Terminator}
    {x : List Instr × Terminator} (h : Folding rs blk c t e before d after tm)
    (hb : f.block? b = some blk)
    (hx : fusion rs blk = some x) : Folded f rs c :=
  ⟨b, blk, x, t, e, hb, hx, h.term⟩

/-- A folded condition is read once. -/
theorem Folded.read (h : f.WellFormed) (hrs : f.reads = .ok rs) {v : ValueId}
    (hv : Folded f rs v) : (∀ i, f.HasInstr i → v ∉ i.uses)
    ∧ ∀ b blk, f.block? b = some blk → v ∈ usesOf blk.term →
    fusion rs blk ≠ none := by
  obtain ⟨b, blk, ⟨is, tm⟩, t, e, hb, hx, hterm⟩ := hv
  obtain ⟨c, t', e', before, d, after, hfold, -⟩ := folding_of_fusion hx
  -- the folded value is the one the branch reads
  have hcv : c = v := by
    have := hfold.term.symm.trans hterm
    simp only [Option.some.injEq, Terminator.branch.injEq,
      Operand.value.injEq] at this
    exact this.1
  obtain ⟨hinstr, hother⟩ := read_once h hrs hb hterm (hcv ▸ hfold.once)
  refine ⟨hinstr, fun b' blk' hb' hv' => ?_⟩
  obtain rfl := hother b' blk' hb' hv'
  rw [hb, Option.some.injEq] at hb'
  rw [← hb', hx]
  simp

-- ============================================================== simulation

/-- What the two functions still have to do in a block, and what they owe. -/
inductive Pending (rs : List ValueId) (blk : Block)
    (c c' : Interp.Place) : Prop where
  /-- Nothing was folded. -/
  | plain (none : fusion rs blk = none) (same : c'.rest = c.rest)
  /-- The test is still ahead. -/
  | ahead {v : ValueId} {t e : BlockId} {before after mid :
      List Instr} {d : Instr}
      {tm : Terminator} {x : List Instr} (fused : fusion rs blk = some (x, tm))
      (folding : Folding rs blk v t e before d after tm)
      (old : c.rest = mid ++ d :: after)
      (new : c'.rest = mid ++ after)
  /-- The test was made; the branch goes where it says. -/
  | owing {v : ValueId} {t e : BlockId} {before after : List Instr} {d : Instr}
      {tm : Terminator} {x : List Instr} {β : Bool}
      (fused : fusion rs blk = some (x, tm))
      (folding : Folding rs blk v t e before d after tm)
      (behind : ∀ i ∈ c.rest, i ∈ after)
      (same : c'.rest = c.rest) (answer : c.frame[v]? = some ⟨[bit β], 0⟩)
      (branch : nextOf c'.frame (some tm) = some (.block (if β then t else e)))

/-- Places in the function and in the fused one: frames agree but for folded
conditions. -/
structure Tracked (f : Func) (rs : List ValueId)
    (c c' : Interp.Place) : Prop where
  block : c'.block = c.block
  here : ∀ i ∈ c.rest, f.HasInstr i
  agree : ∀ v, ¬ Folded f rs v → c.frame[v]? = c'.frame[v]?
  pending : ∃ blk, f.block? c.block = some blk ∧ Pending rs blk c c'

/-- Assignments of an instruction that both functions make. -/
theorem agree_insertAll {fr fr' : Frame}
    (h : ∀ v, ¬ Folded f rs v → fr[v]? = fr'[v]?) (ps : List (ValueId × Value))
    (v : ValueId) (hv : ¬ Folded f rs v) :
    (insertAll fr ps)[v]? = (insertAll fr' ps)[v]? :=
  getElem?_insertAll_congr fun _ => h v hv

/-- A value that is not among those defined is not set. -/
theorem not_mem_zip {ds : List ValueId} {vs : List Value}
    {v : ValueId} (h : v ∉ ds) : v ∉ (ds.zip vs).map (·.1) := by
  intro hm
  obtain ⟨p, hp, rfl⟩ := List.mem_map.mp hm
  exact h (List.of_mem_zip hp).1

/-- Either both functions have the same instruction ahead, or the old one has
the test. -/
theorem Tracked.next {cur : BlockId} {i : Instr} {is : List Instr} {fr : Frame}
    {c' : Interp.Place} (h : Tracked f rs ⟨cur, i :: is, fr⟩ c') :
    (∃ is', c'.rest = i :: is' ∧ ∀ vs : List Value,
      Tracked f rs ⟨cur, is, insertAll fr (i.dests.zip vs)⟩
        ⟨c'.block, is', insertAll c'.frame (i.dests.zip vs)⟩)
    ∨ ∃ blk x v t e before tm, f.block? cur = some blk
      ∧ fusion rs blk = some (x, tm)
      ∧ Folding rs blk v t e before i is tm ∧ c'.rest = is := by
  obtain ⟨blk, hblk, hpending⟩ := h.pending
  have hhere : ∀ j ∈ is, f.HasInstr j :=
    fun j hj => h.here j (List.mem_cons_of_mem _ hj)
  have hagree := fun vs : List Value => agree_insertAll h.agree (i.dests.zip vs)
  cases hpending with
  -- both sides run the same instruction
  | plain hnone hsame =>
      exact Or.inl ⟨is, hsame,
        fun vs => ⟨h.block, hhere, hagree vs, blk, hblk, .plain hnone rfl⟩⟩
  | @ahead v t e before after mid d tm x hfused hfold hold hnew =>
      -- either the test itself comes next, or one of the instructions in front
      -- of it
      cases mid with
      | nil =>
          obtain ⟨rfl, rfl⟩ := List.cons.inj hold
          exact Or.inr ⟨blk, x, v, t, e, before, tm, hblk, hfused, hfold, hnew⟩
      | cons j mid =>
          obtain ⟨rfl, rfl⟩ := List.cons.inj hold
          exact Or.inl ⟨mid ++ after, hnew,
            fun vs => ⟨h.block, hhere, hagree vs, blk, hblk,
            .ahead hfused hfold rfl rfl⟩⟩
  | @owing v t e before after d tm x β hfused hfold hbehind hsame
    hanswer hbranch =>
      -- behind the test nothing sets the answer again or what it was asked of
      have hi := hbehind i List.mem_cons_self
      refine Or.inl ⟨is, hsame, fun vs => ⟨h.block, hhere, hagree vs, blk, hblk,
        .owing (β := β) hfused hfold
          (fun j hj => hbehind j (List.mem_cons_of_mem _ hj)) rfl ?_ ?_⟩⟩
      · exact (getElem?_insertAll_of_not_mem
          (not_mem_zip (hfold.last i hi))).trans hanswer
      · rw [← hbranch]
        refine nextOf_congr (agree_of_ids fun u hu =>
          getElem?_insertAll_of_not_mem ?_)
        obtain ⟨o, ho, hou⟩ := List.mem_filterMap.mp hu
        have huse : u ∈ d.uses :=
          List.mem_filterMap.mpr ⟨o,
            (fusedTerm_parts hfold.fused).2.2 o ho, hou⟩
        exact not_mem_zip fun hud => hfold.steady i hi u hud huse

/-- Both functions come to the end of a block together and go the same way. -/
theorem Tracked.ending (h : f.WellFormed) (hrs : f.reads = .ok rs)
    {cur : BlockId} {b : Block} {fr : Frame} {c' : Interp.Place}
    (hc : Tracked f rs ⟨cur, [], fr⟩ c') (hb : f.block? cur = some b) :
    c'.rest = [] ∧ nextOf c'.frame (afterFusion rs b).term
        = nextOf fr b.term := by
  obtain ⟨blk, hblk, hpending⟩ := hc.pending
  rw [show f.block? cur = some blk from hblk, Option.some.injEq] at hb
  subst hb
  cases hpending with
  | plain hnone hsame =>
      refine ⟨hsame, ?_⟩
      -- the terminator reads no value that was folded away
      rw [afterFusion, hnone]
      dsimp only
      cases ht : blk.term with
      | none => rfl
      | some tm =>
          refine (nextOf_congr (agree_of_ids fun v hv =>
            hc.agree v fun hfolded => ?_)).symm
          refine (hfolded.read h hrs).2 cur blk hblk ?_ hnone
          rw [ht]
          exact hv
  | ahead hfused hfold hold hnew => simp at hold
  | @owing v t e before after d tm x β hfused hfold hbehind hsame
    hanswer hbranch =>
      -- the branch on the stored answer and the fused terminator go the same
      -- way
      refine ⟨hsame, ?_⟩
      have hscalar : lookScalar fr (.value v) = some (bit β) :=
        lookScalar_eq_some.mpr ⟨_, hanswer, rfl⟩
      rw [afterFusion, hfused, hfold.term]
      dsimp only
      rw [hbranch, nextOf, hscalar, Option.map_some]
      simp only [bit_ne_zero]

/-- Entering a block that was or was not fused. -/
theorem Tracked.entered (h : f.WellFormed) (hrs : f.reads = .ok rs)
    (prev : BlockId) {b : BlockId} {blk : Block} (hb : f.block? b = some blk)
    (hbody : ∀ i ∈ blk.body, i.isPhi = false) {fr fr' : Frame}
    (hagree : ∀ v, ¬ Folded f rs v → fr[v]? = fr'[v]?)
    (ps : List (ValueId × Value)) (qs : List BlockId) :
    phiLooks fr' prev ((afterFusion rs blk).withPreds qs).leadingPhis
        = phiLooks fr prev blk.leadingPhis
      ∧ Tracked f rs ⟨b, blk.body, insertAll fr ps⟩
        ⟨b, ((afterFusion rs blk).withPreds qs).body, insertAll fr' ps⟩ := by
  -- a folded value is read by no instruction, so by no phi
  have hphis : phiLooks fr' prev blk.leadingPhis
      = phiLooks fr prev blk.leadingPhis := by
    refine phiLooks_congr fun i hi => agree_of_ids fun v hv =>
      hagree v fun hfolded => ?_
    exact (hfolded.read h hrs).1 i ⟨b, blk, hb,
      Block.mem_of_mem_leadingPhis hi⟩ hv
  have hhere : ∀ i ∈ blk.body, f.HasInstr i :=
    fun i hi => ⟨b, blk, hb, Block.mem_of_mem_body hi⟩
  cases hx : fusion rs blk with
  | none =>
      have hafter : afterFusion rs blk = blk := by rw [afterFusion, hx]
      rw [hafter]
      exact ⟨hphis, rfl, hhere, agree_insertAll hagree ps, blk,
        hb, .plain hx rfl⟩
  | some x =>
      obtain ⟨is, tm⟩ := x
      obtain ⟨v, t, e, before, d, after, hfold, rfl⟩ := folding_of_fusion hx
      obtain ⟨mid, hmid, hlead, hrest⟩ := hfold.parts hbody
      have hafter : afterFusion rs blk
          = { blk with instrs := before ++ after, term := some tm } := by
        rw [afterFusion, hx]
      rw [hafter]
      refine ⟨?_, rfl, hhere, agree_insertAll hagree ps, blk, hb,
        .ahead hx hfold hmid hrest⟩
      rw [← hphis]
      exact congrArg (phiLooks fr' prev) hlead

/-- The fused function follows the one it comes from, where tests look at words
below the order of the field. -/
theorem FusedOf.replacement (hg : FusedOf f g rs) (h : f.WellFormed)
    (hrs : f.reads = .ok rs) {m m' : Module} {k : FuncId}
    (hold : m.func? k = some f) (hnew : m'.func? k = some g)
    (hothers : ∀ j, j ≠ k → m'.func? j = m.func? j) :
    Replacement m m' k f g (TestsBelowOrder m k) (Tracked f rs) where
  old := hold
  new := hnew
  others := hothers
  -- on entry nothing is folded yet
  enter := by
    intro xs b ps hcount hb hbody hps
    obtain ⟨qs, hqs⟩ := hg.block _ _ hb
    have hframe : argFrame g xs = argFrame f xs := by
      rw [argFrame, argFrame, hg.header.params]
    obtain ⟨hphis, htracked⟩ := Tracked.entered h hrs noBlock hb hbody
      (fun v _ => rfl : ∀ v, ¬ Folded f rs v →
      (argFrame f xs)[v]? = (argFrame f xs)[v]?) ps qs
    rw [hframe, hg.header.params, hg.header.entry]
    exact ⟨_, ps, hcount, hqs, hphis.trans hps, htracked⟩
  -- an instruction that stays does the same; one that is folded away leaves its
  -- answer owed to the branch
  instr := by
    intro cur i is fr c' fr₁ w w₁ hA hR hrun
    obtain ⟨cb, crest, cfr⟩ := c'
    have hi := hR.here i List.mem_cons_self
    have hagree : Agree fr cfr i.operands :=
      agree_of_ids fun v hv => hR.agree v fun hfolded =>
      (hfolded.read h hrs).1 i hi hv
    rcases hR.next with ⟨is', hrest, htracked⟩ |
      ⟨blk, x, v, t, e, before, tm, hblk, hx, hfold, hrest⟩
    · have htype (o : Operand) : g.operandType o = f.operandType o := by
        cases o with
        | value id => simp only [operandType, typeOf, hg.header.types]
        | _ => rfl
      obtain ⟨vs, -, rfl, hrun'⟩ :=
        exec_sets (g := g) hagree (fun o _ => htype o) w fr₁ w₁ hrun
      refine ⟨_, htracked vs, fun n rs w' hn => ⟨n + 1, le_refl _, ?_⟩⟩
      obtain rfl : crest = i :: is' := hrest
      exact .instr hnew hrun' hn
    · -- the test: its answer is owed from here on
      obtain ⟨β, rfl, hbranch⟩ :=
        fusedTerm_decides hfold.defines hfold.fused (hA.1 i is rfl) hrun
      obtain rfl : w₁ = w := exec_quiet (fusedTerm_parts hfold.fused).1 hrun
      refine ⟨⟨cb, crest, cfr⟩,
        ⟨hR.block, fun j hj => hR.here j (List.mem_cons_of_mem _ hj),
        fun u hu => ?_, blk, hblk,
        .owing (β := β) hx hfold (fun j hj => hj) hrest ?_ ?_⟩, .refl _ _⟩
      · rw [getElem?_insert_frame, if_neg, hR.agree u hu]
        rintro rfl
        exact hu (hfold.folded hblk hx)
      · exact look_insert_self fr v _
      · rw [← hbranch]
        exact (nextOf_congr fun o ho =>
          hagree o ((fusedTerm_parts hfold.fused).2.2 o ho)).symm
  -- a call is never folded, and reads no value that is
  call := by
    intro cur ds c as sig is fr c' xs hR hxs
    have hi := hR.here _ List.mem_cons_self
    rcases hR.next with ⟨is', hrest, htracked⟩ |
      ⟨blk, x, v, t, e, before, tm, hblk, hx, hfold, hrest⟩
    · refine ⟨is', c'.frame, by rw [← hrest], ?_, fun rs _ => htracked rs⟩
      rw [← hxs]
      refine (mapM_look_congr (agree_of_ids fun v hv =>
        hR.agree v fun hfolded => ?_)).symm
      exact (hfolded.read h hrs).1 _ hi hv
    · cases (fusedTerm_parts hfold.fused).1
  -- the branch asks for what the test answered, so it goes the same way
  jump := by
    intro cur b next nb fr c' ps _ hR hb hterm hthere hnb hbody hps
    obtain ⟨cb, crest, cfr⟩ := c'
    obtain rfl : cb = cur := hR.block
    obtain ⟨hrest, hnext⟩ := hR.ending h hrs hb
    obtain rfl : crest = [] := hrest
    obtain ⟨bs, hbs⟩ := hg.block _ _ hb
    obtain ⟨qs, hqs⟩ := hg.block _ _ hnb
    obtain ⟨hphis, htracked⟩ :=
      Tracked.entered h hrs cb hnb hbody hR.agree ps qs
    refine ⟨_, htracked, fun w n vs w' hn => ⟨n + 1, le_refl _, ?_⟩⟩
    exact .jump hnew hbs trivial (hnext.trans hterm) hthere hqs
      (hphis.trans hps) hn
  ret := by
    intro cur b fr c' vs _ hR hb hterm w
    obtain ⟨cb, crest, cfr⟩ := c'
    obtain rfl : cb = cur := hR.block
    obtain ⟨hrest, hnext⟩ := hR.ending h hrs hb
    obtain rfl : crest = [] := hrest
    obtain ⟨bs, hbs⟩ := hg.block _ _ hb
    exact .ret hnew hbs (hnext.trans hterm)
  leave := by
    intro cur b fr c' _ hR hb hterm w
    obtain ⟨cb, crest, cfr⟩ := c'
    obtain rfl : cb = cur := hR.block
    obtain ⟨hrest, hnext⟩ := hR.ending h hrs hb
    obtain rfl : crest = [] := hrest
    obtain ⟨bs, hbs⟩ := hg.block _ _ hb
    exact .leave hnew hbs (hnext.trans hterm)

/-- Folding tests into branches keeps behaviour. On a valid function the pass
answers. If a call of the module answered within a bound on steps, and every
word that a test on the way compared with zero was below the order of the field,
then the call answers the same afterwards, within the same bound and with the
same memory and trace. -/
theorem run_preserves_tested_answers {m : Module} {i : Nat}
    (hf : m.func? i = some f) (hvalid : f.validate = .ok ()) :
    ∃ modified g, run f = .ok (modified, g)
      ∧ ∀ name args s r t, call m name args s = .ok r t →
        (∀ k, m.lookup name = some k →
          Throughout m (TestsBelowOrder m) k (argValues args) s.still) →
        ∃ t', call (m.setFunc i g) name args s = .ok r t'
          ∧ t'.memory = t.memory ∧ t'.trace = t.trace := by
  have hwf := validate_eq_ok_iff.mp hvalid
  obtain ⟨rs, hrs, -⟩ := reads_spec hwf
  obtain ⟨modified, g, hrun, hg⟩ := run_fusedOf hwf hrs
  refine ⟨modified, g, hrun, fun name args s r t hcall htests => ?_⟩
  have S := hg.replacement hwf hrs hf (Module.func?_setFunc_self hf)
    fun j hj => Module.func?_setFunc_of_ne hj
  obtain ⟨t', -, w', ht', hstill, hw'⟩ := S.refinement.call_ok
    (Module.lookup_setFunc hf hg.header.name name) hcall
    (fun k hk j cur is fr w₁ hv hj => hj ▸
    htests k hk j cur is fr w₁ hv) (ω := ()) rfl
  subst hw'
  have hmemory : t'.still.memory = t.still.still.memory := by rw [hstill]
  have htrace : t'.still.trace = t.still.still.trace := by rw [hstill]
  exact ⟨t', ht', hmemory, htrace⟩

/-- Ten if the argument is zero, else twenty; a message stands between test and
branch. -/
def zeroTest : Func :=
  { name := "zero_test"
    params := [0]
    returns := [.felt]
    nextValue := 2
    blocks :=
      [some { name := "entry", term := some (.branch (.value 1) 1 2),
              instrs := [.binary .eq 1 (.bool false) (.value 0),
                .debug [] [.value 0]] },
       some { name := "zero", preds := [0], term := some (.ret [.int 10]) },
       some { name := "other", preds := [0], term := some (.ret [.int 20]) }] }

/-- The frame in which the function starts on the argument five. -/
def zeroTestFrame : Frame := (∅ : Frame).insert 0 ⟨[5], 0⟩

/-- The places that the function comes to on the argument five. -/
theorem zeroTest_visits {w₀ : Machine} {k : FuncId} {cur : BlockId}
    {is : List Instr} {fr : Frame} {w : Machine}
    (h : Visits ⟨[zeroTest]⟩ 0 (argValues [5]) w₀ k cur is fr w) :
    k = 0
          ∧ ((cur = 0 ∧ is = [.binary .eq 1 (.bool false) (.value 0),
          .debug [] [.value 0]]
        ∧ fr = zeroTestFrame)
      ∨ (cur = 0 ∧ is = [.debug [] [.value 0]]
        ∧ fr = zeroTestFrame.insert 1 ⟨[0], 0⟩)
      ∨ ((cur = 0 ∨ cur = 2) ∧ is = [] ∧ fr
        = zeroTestFrame.insert 1 ⟨[0], 0⟩)) := by
  induction h with
  | start func entry phis =>
      cases func
      cases entry
      cases phis
      exact ⟨rfl, Or.inl ⟨rfl, rfl, rfl⟩⟩
  | @instr k f cur i is fr fr₁ w w₁ here func run ih =>
      obtain ⟨rfl, ⟨rfl, his, rfl⟩ | ⟨rfl, his, rfl⟩ | ⟨-, his, -⟩⟩ := ih
      · cases his
        cases func
        have hrun : exec ⟨[]⟩ refuse zeroTest zeroTestFrame
          (.binary .eq 1 (.bool false) (.value 0)) w
          = .ok (zeroTestFrame.insert 1 ⟨[0], 0⟩) w := rfl
        rw [hrun] at run
        cases run
        exact ⟨rfl, Or.inr (Or.inl ⟨rfl, rfl, rfl⟩)⟩
      · cases his
        obtain ⟨vs, -, rfl, -⟩ :=
          exec_sets (g := f) (fun _ _ => rfl) (fun _ _ => rfl) _ _ _ run
        exact ⟨rfl, Or.inr (Or.inr ⟨Or.inl rfl, rfl, rfl⟩)⟩
      · cases his
  | enter here callee args entry phis ih =>
      obtain ⟨rfl, ⟨rfl, his, rfl⟩ | ⟨rfl, his, rfl⟩ | ⟨-, his, -⟩⟩ :=
        ih <;> cases his
  | back here args answer ih =>
      obtain ⟨rfl, ⟨rfl, his, rfl⟩ | ⟨rfl, his, rfl⟩ | ⟨-, his, -⟩⟩ :=
        ih <;> cases his
  | @jump k f cur next b nb fr w ps here func block term target phis ih =>
      obtain ⟨rfl, ⟨rfl, his, rfl⟩ | ⟨rfl, his, rfl⟩ | ⟨hcur, his, rfl⟩⟩ := ih
      · cases his
      · cases his
      · cases func
        rcases hcur with rfl | rfl
        · cases block
          have hterm : nextOf (zeroTestFrame.insert 1 ⟨[0], 0⟩)
            (some (.branch (.value 1) 1 2))
            = some (.block 2) := rfl
          rw [hterm] at term
          cases term
          cases target
          cases phis
          exact ⟨rfl, Or.inr (Or.inr ⟨Or.inr rfl, rfl, rfl⟩)⟩
        · cases block
          cases term

/-- The comparison is folded into the branch with its targets swapped, and five
still leads to twenty. -/
theorem run_preserves_tested_answers_zeroTest :
    zeroTest.validate = .ok ()
    ∧ Throughout ⟨[zeroTest]⟩ (TestsBelowOrder ⟨[zeroTest]⟩) 0 (argValues [5])
        ({ limit := 4 } : Machine).still
    ∧ (∃ t, call ⟨[zeroTest]⟩ "zero_test" [5] { limit := 4 } = .ok [20] t
      ∧ t.trace = [⟨[], [[5]]⟩])
    ∧ ∃ g, run zeroTest = .ok (true, g)
      ∧ (g.block? 0).bind (·.term) = some (.branch (.value 0) 2 1)
      ∧ ∃ t, call ⟨[g]⟩ "zero_test" [5] { limit := 4 } = .ok [20] t
      ∧ t.trace = [⟨[], [[5]]⟩] := by
  obtain ⟨modified, g, hrun, hkeeps⟩ :=
    run_preserves_tested_answers (m := ⟨[zeroTest]⟩) (i := 0)
      (f := zeroTest) rfl rfl
  obtain ⟨g₀, hg₀, hterm⟩ : ∃ g₀, run zeroTest = .ok (true, g₀)
      ∧ (g₀.block? 0).bind (·.term) = some (.branch (.value 0) 2 1) :=
        ⟨_, rfl, rfl⟩
  rw [hrun, Except.ok.injEq, Prod.mk.injEq] at hg₀
  obtain ⟨rfl, rfl⟩ := hg₀
  have htests (w₀ : Machine) :
      Throughout ⟨[zeroTest]⟩ (TestsBelowOrder ⟨[zeroTest]⟩) 0
        (argValues [5]) w₀ := by
    intro k cur is fr w hv
    obtain ⟨rfl, ⟨rfl, rfl, rfl⟩ | ⟨rfl, rfl, rfl⟩ | ⟨hcur, rfl, rfl⟩⟩ :=
      zeroTest_visits hv
    · refine ⟨fun i is hi o ho x hx => ?_, fun hnil => by cases hnil⟩
      cases hi
      obtain rfl := List.mem_singleton.mp ho
      cases hx
      exact ⟨by decide, by decide⟩
    · refine ⟨fun i is hi o ho => ?_, fun hnil => by cases hnil⟩
      cases hi
      cases ho
    · refine ⟨(fun i is hi => by cases hi),
        fun _ f b t hf hb ht o ho x hx => ?_⟩
      cases hf
      rcases hcur with rfl | rfl
      · cases hb
        cases ht
        obtain rfl := List.mem_singleton.mp ho
        cases hx
        exact ⟨by decide, by decide⟩
      · cases hb
        cases ht
        cases ho
  obtain ⟨t, ht, htrace⟩ :
      ∃ t, call ⟨[zeroTest]⟩ "zero_test" [5] { limit := 4 } = .ok [20] t
      ∧ t.trace = [⟨[], [[5]]⟩] := ⟨_, rfl, rfl⟩
  obtain ⟨t', ht', -, htrace'⟩ := hkeeps _ _ _ _ _ ht fun k hk => by
    cases hk
    exact htests _
  exact ⟨rfl, htests _, ⟨t, ht, htrace⟩, g, hrun, hterm, t', ht',
    htrace'.trans htrace⟩

end BranchFusion

end MirBackend
