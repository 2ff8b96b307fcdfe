/-
What the structural checks of a function say.

`Func.WellFormed` states the structure in terms of lookup: no vacant place, an
entry without phis, and for every block that its terminator and the
predecessor lists describe the same edges and that its phis lead and name
predecessors only. `Func.validate` passes exactly on such functions
(`validate_eq_ok_iff`), so the passes can be followed by the structure alone.

That phis lead is stated between any two instructions of a block: where the
later one is a phi, so is the earlier one. In this form it survives every
removal of instructions.
-/
import Mathlib
import MirBackend.Func.Validity
import MirBackend.Proofs.Func.Blocks

namespace MirBackend

-- =========================================================== leading phis

/-- Where an instruction is a phi, the ones before it are. -/
def PhisLead (is : List Instr) : Prop :=
  is.Pairwise fun i j => j.isPhi = true → i.isPhi = true

/-- Behind the leading phis of such a list there are no others. -/
theorem PhisLead.dropWhile {is : List Instr} (h : PhisLead is) :
    ∀ i ∈ is.dropWhile Instr.isPhi, i.isPhi = false := by
  induction is with
  | nil => simp
  | cons a is ih =>
      rw [PhisLead, List.pairwise_cons] at h
      cases ha : a.isPhi with
      | true =>
          rw [List.dropWhile_cons_of_pos ha]
          exact ih h.2
      | false =>
          rw [List.dropWhile_cons_of_neg (by simp [ha])]
          intro i hi
          rcases List.mem_cons.mp hi with rfl | hi
          · exact ha
          · have himp := h.1 i hi
            rw [ha] at himp
            simpa using himp

/-- Phis lead when each of them stands before the end of the leading run. -/
theorem phisLead_iff {is : List Instr} :
    PhisLead is ↔ ∀ (j : Nat) (i : Instr), is[j]? = some i → i.isPhi = true →
      j < (is.takeWhile Instr.isPhi).length := by
  induction is with
  | nil => simp [PhisLead]
  | cons a is ih =>
      rw [PhisLead, List.pairwise_cons, ← PhisLead, ih]
      cases ha : a.isPhi with
      | true =>
          rw [List.takeWhile_cons_of_pos ha]
          constructor
          · rintro ⟨-, h⟩ j i hj hi
            cases j with
            | zero => simp
            | succ j =>
                have := h j i (by simpa using hj) hi
                simpa using this
          · intro h
            refine ⟨fun _ _ _ => rfl, fun j i hj hi => ?_⟩
            have := h (j + 1) i (by simpa using hj) hi
            simpa using this
      | false =>
          rw [List.takeWhile_cons_of_neg (by simp [ha])]
          constructor
          · rintro ⟨h, -⟩ j i hj hi
            cases j with
            | zero =>
                rw [List.getElem?_cons_zero, Option.some.injEq] at hj
                rw [hj, hi] at ha
                cases ha
            | succ j =>
                have hmem : i ∈ is := List.mem_of_getElem? (by simpa using hj)
                have himp := h i hmem hi
                cases himp
          · intro h
            have hnone : ∀ i ∈ is, i.isPhi = true → False := by
              intro i hi hphi
              obtain ⟨j, hj⟩ := List.mem_iff_getElem?.mp hi
              have := h (j + 1) i (by simpa using hj) hphi
              simp at this
            refine ⟨fun i hi hphi => (hnone i hi hphi).elim,
              fun j i hj hphi => ?_⟩
            exact (hnone i (List.mem_of_getElem? hj) hphi).elim

-- =============================================================== structure

/-- The structure of one block of a function. -/
structure Func.BlockOk (f : Func) (b : BlockId) (blk : Block) : Prop where
  /-- It ends. -/
  term : blk.term.isSome = true
  /-- What it jumps to is there and lists it. -/
  target : ∀ s ∈ blk.targets, ∃ sb, f.block? s = some sb ∧ b ∈ sb.preds
  /-- What it lists is there and jumps to it. -/
  pred : ∀ p ∈ blk.preds, ∃ pb, f.block? p = some pb ∧ b ∈ pb.targets
  /-- No hole is among its instructions. -/
  noHole : Instr.missing ∉ blk.instrs
  phisLead : PhisLead blk.instrs
  /-- Its phis name predecessors. -/
  source : ∀ d t ss, Instr.phi d t ss ∈ blk.instrs →
    ∀ s ∈ ss, s.block ∈ blk.preds

/-- The structure of a function. -/
structure Func.WellFormed (f : Func) : Prop where
  /-- No place is vacant. -/
  full : ∀ o ∈ f.blocks, o.isSome = true
  /-- The entry is there and has no phis. -/
  entry : ∃ blk, f.block? f.entry = some blk ∧ ∀ i ∈ blk.instrs, i.isPhi = false
  blockOk : ∀ b blk, f.block? b = some blk → f.BlockOk b blk

/-- No predecessor is listed twice. -/
def Func.PredsDistinct (f : Func) : Prop :=
  ∀ b blk, f.block? b = some blk → blk.preds.Nodup

/-- Distinct predecessors, place by place. -/
theorem Func.predsDistinct_iff {f : Func} :
    f.PredsDistinct ↔ ∀ o ∈ f.blocks, ∀ blk ∈ o, blk.preds.Nodup := by
  constructor
  · intro h o ho blk hblk
    obtain ⟨i, hi⟩ := List.mem_iff_getElem?.mp ho
    refine h i blk (Func.block?_eq_some_iff.mpr ⟨i, rfl, ?_⟩)
    rw [hi, Option.mem_def.mp hblk]
  · intro h b blk hb
    obtain ⟨i, rfl, hi⟩ := Func.block?_eq_some_iff.mp hb
    exact h _ (List.mem_of_getElem? hi) blk rfl

-- ================================================================== checks

-- When the parts of a check succeed.
theorem require_eq_ok {c : Bool} {e : Invalid} :
    require c e = .ok () ↔ c = true := by
  cases c <;> simp [require]

theorem checkAll_eq_ok {α : Type} {check : α → Check} {as : List α} :
    checkAll check as = .ok () ↔ ∀ a ∈ as, check a = .ok () := by
  induction as with
  | nil => simp [checkAll]
  | cons a as ih =>
      simp only [checkAll, seq_eq_ok, ih, List.forall_mem_cons]

namespace Func

variable {f : Func}

/-- With no vacant place, a place and a block are the same. -/
theorem block?_of_hasBlock
    (hfull : ∀ o ∈ f.blocks, o.isSome = true) {b : BlockId}
    (hb : f.hasBlock b = true) : ∃ blk, f.block? b = some blk := by
  obtain ⟨i, rfl, hi⟩ := hasBlock_iff.mp hb
  have hmem := hfull f.blocks[i] (List.getElem_mem hi)
  obtain ⟨blk, hblk⟩ := Option.isSome_iff_exists.mp hmem
  refine ⟨blk, block?_eq_some_iff.mpr ⟨i, rfl, ?_⟩⟩
  rw [List.getElem?_eq_getElem hi, hblk]

/-- Targets are right if each exists and lists the block. -/
theorem checkTargets_eq_ok {b : BlockId} {blk : Block} :
    f.checkTargets b blk = .ok ()
      ↔ ∀ s ∈ blk.targets, ∃ sb, f.block? s = some sb ∧ b ∈ sb.preds := by
  unfold checkTargets
  rw [checkAll_eq_ok]
  refine forall₂_congr fun s _ => ?_
  rw [seq_eq_ok]
  simp only [bind_eq_ok, require_eq_ok, liftChecked_eq_ok,
    block_eq_ok, Block.hasPred, decide_eq_true_eq]
  constructor
  · rintro ⟨-, sb, hsb, hp⟩
    exact ⟨sb, hsb, hp⟩
  · rintro ⟨sb, hsb, hp⟩
    exact ⟨hasBlock_of_block? hsb, sb, hsb, hp⟩

/-- Predecessors are right if each exists and has the block among its targets.
-/
theorem checkPreds_eq_ok {b : BlockId} {blk : Block} :
    f.checkPreds b blk = .ok ()
      ↔ ∀ p ∈ blk.preds, ∃ pb, f.block? p = some pb ∧ b ∈ pb.targets := by
  unfold checkPreds
  rw [checkAll_eq_ok]
  refine forall₂_congr fun p _ => ?_
  rw [seq_eq_ok]
  simp only [bind_eq_ok, require_eq_ok, liftChecked_eq_ok, block_eq_ok,
    decide_eq_true_eq]
  constructor
  · rintro ⟨-, pb, hpb, ht⟩
    exact ⟨pb, hpb, ht⟩
  · rintro ⟨pb, hpb, ht⟩
    exact ⟨hasBlock_of_block? hpb, pb, hpb, ht⟩

/-- Sources are right if each is a block in use that precedes this one. -/
theorem checkSources_eq_ok {b : BlockId} {blk : Block} {d : ValueId}
    {ss : List PhiSource} :
    f.checkSources b blk d ss = .ok ()
      ↔ ∀ s ∈ ss, f.hasBlock s.block = true ∧ s.block ∈ blk.preds := by
  unfold checkSources
  rw [checkAll_eq_ok]
  refine forall₂_congr fun s _ => ?_
  simp only [seq_eq_ok, require_eq_ok, Block.hasPred, decide_eq_true_eq]

/-- The checks of a block's instructions, read off: no hole, phis lead, and
their sources are predecessors that exist. -/
theorem checkInstrs_eq_ok {b : BlockId} {blk : Block} :
    checkAll (f.checkInstr b blk) blk.instrs.zipIdx = .ok ()
      ↔ Instr.missing ∉ blk.instrs ∧ PhisLead blk.instrs
        ∧ ∀ d t ss, Instr.phi d t ss ∈ blk.instrs →
            ∀ s ∈ ss, f.hasBlock s.block = true ∧ s.block ∈ blk.preds := by
  have hphi (d : ValueId) (t : Ty) (ss : List PhiSource) (j : Nat) :
      f.checkInstr b blk (.phi d t ss, j) = .ok () ↔ j < blk.phiCount
        ∧ ∀ s ∈ ss, f.hasBlock s.block = true ∧ s.block ∈ blk.preds := by
    simp only [checkInstr, seq_eq_ok, require_eq_ok, decide_eq_true_eq,
      checkSources_eq_ok]
  rw [checkAll_eq_ok, phisLead_iff]
  constructor
  · intro h
    refine ⟨fun hmem => ?_, fun j i hj hi => ?_, fun d t ss hmem => ?_⟩
    · obtain ⟨j, hj⟩ := List.mem_iff_getElem?.mp hmem
      have := h (.missing, j) (List.mk_mem_zipIdx_iff_getElem?.mpr hj)
      simp [checkInstr] at this
    · have hij := h (i, j) (List.mk_mem_zipIdx_iff_getElem?.mpr hj)
      cases i with
      | phi d t ss => exact ((hphi d t ss j).mp hij).1
      | _ => cases hi
    · obtain ⟨j, hj⟩ := List.mem_iff_getElem?.mp hmem
      exact ((hphi d t ss j).mp
        (h _ (List.mk_mem_zipIdx_iff_getElem?.mpr hj))).2
  · rintro ⟨hhole, hlead, hsrc⟩ ⟨i, j⟩ hij
    have hj : blk.instrs[j]? = some i := List.mk_mem_zipIdx_iff_getElem?.mp hij
    cases i with
    | missing => exact absurd (List.mem_of_getElem? hj) hhole
    | phi d t ss =>
        exact (hphi d t ss j).mpr ⟨hlead j _ hj rfl,
          hsrc d t ss (List.mem_of_getElem? hj)⟩
    | _ => rfl

/-- The checks of one place of the block list. -/
theorem checkBlock_eq_ok {blk : Block} {i : Nat} :
    f.checkBlock (some blk, i) = .ok () ↔ f.BlockOk i blk := by
  simp only [checkBlock, seq_eq_ok, require_eq_ok,
    checkTargets_eq_ok, checkPreds_eq_ok, checkInstrs_eq_ok]
  constructor
  · rintro ⟨hterm, htgt, hpred, hhole, hlead, hsrc⟩
    exact ⟨hterm, htgt, hpred, hhole, hlead,
      fun d t ss hm s hs => (hsrc d t ss hm s hs).2⟩
  · intro h
    refine ⟨h.term, h.target, h.pred, h.noHole, h.phisLead, ?_⟩
    intro d t ss hm s hs
    have hp := h.source d t ss hm s hs
    obtain ⟨pb, hpb, -⟩ := h.pred s.block hp
    exact ⟨hasBlock_of_block? hpb, hp⟩

/-- Without leading phis, a block whose phis lead has none. -/
theorem phiCount_eq_zero {blk : Block} (hlead : PhisLead blk.instrs) :
    blk.phiCount = 0 ↔ ∀ i ∈ blk.instrs, i.isPhi = false := by
  constructor
  · intro h i hi
    by_contra hphi
    obtain ⟨j, hj⟩ := List.mem_iff_getElem?.mp hi
    have hlt : j < blk.phiCount :=
      phisLead_iff.mp hlead j i hj (by simpa using hphi)
    omega
  · intro h
    unfold Block.phiCount Block.leadingPhis
    rw [List.length_eq_zero_iff]
    cases hc : blk.instrs with
    | nil => rfl
    | cons a is =>
        have := h a (by rw [hc]; exact List.mem_cons_self)
        exact List.takeWhile_cons_of_neg (by simp [this])

/-- The structural checks pass on the well-formed functions and on no others. -/
theorem validate_eq_ok_iff : f.validate = .ok () ↔ f.WellFormed := by
  unfold validate
  rw [seq_eq_ok, seq_eq_ok, bind_eq_ok]
  simp only [require_eq_ok, checkAll_eq_ok, liftChecked_eq_ok,
    block_eq_ok, beq_iff_eq]
  constructor
  · rintro ⟨-, hall, eb, heb, hphi⟩
    have hfull : ∀ o ∈ f.blocks, o.isSome = true := by
      intro o ho
      obtain ⟨j, hj⟩ := List.mem_iff_getElem?.mp ho
      have hoj := hall (o, j) (List.mk_mem_zipIdx_iff_getElem?.mpr hj)
      cases o with
      | none => cases hoj
      | some blk => rfl
    have hok : ∀ b blk, f.block? b = some blk → f.BlockOk b blk := by
      intro b blk hb
      obtain ⟨i, rfl, hi⟩ := block?_eq_some_iff.mp hb
      exact checkBlock_eq_ok.mp
        (hall (some blk, i) (List.mk_mem_zipIdx_iff_getElem?.mpr hi))
    refine ⟨hfull, ⟨eb, heb, ?_⟩, hok⟩
    exact (phiCount_eq_zero (hok _ _ heb).phisLead).mp hphi
  · intro h
    obtain ⟨eb, heb, hphi⟩ := h.entry
    refine ⟨hasBlock_of_block? heb, ?_, eb, heb, ?_⟩
    · rintro ⟨o, i⟩ hoi
      have hi : f.blocks[i]? = some o := List.mk_mem_zipIdx_iff_getElem?.mp hoi
      obtain ⟨blk, rfl⟩ :=
        Option.isSome_iff_exists.mp (h.full o (List.mem_of_getElem? hi))
      exact checkBlock_eq_ok.mpr
        (h.blockOk i blk (block?_eq_some_iff.mpr ⟨i, rfl, hi⟩))
    · exact (phiCount_eq_zero (h.blockOk _ _ heb).phisLead).mpr hphi

-- ============================================================= consequences

/-- With no vacant place, the blocks in order. -/
theorem present_of_full (hfull : ∀ o ∈ f.blocks, o.isSome = true) :
    ∃ bs, f.present = .ok bs ∧ f.blocks = bs.map some := by
  have hbs : f.blocks = (f.blocks.filterMap id).map some := by
    generalize f.blocks = os at hfull
    induction os with
    | nil => rfl
    | cons o os ih =>
        obtain ⟨blk, rfl⟩ :=
          Option.isSome_iff_exists.mp (hfull o List.mem_cons_self)
        have hrest := ih fun o ho => hfull o (List.mem_cons_of_mem _ ho)
        rw [List.filterMap_cons_some (f := id) rfl, List.map_cons, ← hrest]
  exact ⟨_, present_eq_ok.mpr hbs, hbs⟩

namespace WellFormed

/-- The blocks of a well-formed function in order. -/
theorem present (h : f.WellFormed) : ∃ bs, f.present = .ok bs
    ∧ f.blocks = bs.map some :=
  present_of_full h.full

/-- A jump ends at a block. -/
theorem target_exists (h : f.WellFormed) {b s : BlockId} {blk : Block}
    (hb : f.block? b = some blk) (hs : s ∈ blk.targets) :
    ∃ sb, f.block? s = some sb := by
  obtain ⟨sb, hsb, -⟩ := (h.blockOk b blk hb).target s hs
  exact ⟨sb, hsb⟩

/-- The blocks listed as predecessors are those that jump here. -/
theorem mem_preds_iff (h : f.WellFormed) {b p : BlockId} {blk : Block}
    (hb : f.block? b = some blk) :
    p ∈ blk.preds ↔ ∃ pb, f.block? p = some pb ∧ b ∈ pb.targets := by
  constructor
  · exact (h.blockOk b blk hb).pred p
  · rintro ⟨pb, hpb, ht⟩
    obtain ⟨sb, hsb, hp⟩ := (h.blockOk p pb hpb).target b ht
    rw [hb] at hsb
    cases hsb
    exact hp

end WellFormed

end Func

end MirBackend
