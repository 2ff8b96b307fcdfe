/-
What the checks of a function find.

Checks made in turn stop at the first that does not pass
(`checkAll_eq_error`). So the answer of the structural checks is that of the
first place where something is wrong, and at that place of the first thing
that is. An error is true of the function (`Func.Shows`, `validate_shows`).

The checks follow a reference before they have seen the place it names. A
reference to no place at all is an error. A reference to a vacant place is a
fault, although the vacant place itself would be an error when its turn came.
`Func.Stranded` says that a reference to a vacant place is the first thing
wrong with a function: there the checks halt, and nowhere else
(`validate_eq_halt_iff`).
-/
import Mathlib
import MirBackend.Proofs.Func.Definitions

namespace MirBackend

-- ============================================================== first error

/-- A condition that is required and does not hold is the error it stands for.
-/
theorem require_eq_error {c : Bool} {e : Invalid} {s : Stop Invalid} :
    require c e = .error s ↔ c = false ∧ s = .fail e := by
  cases c <;> simp [require, eq_comm]

/-- The error of checks made in turn is that of the first element that does not
pass. -/
theorem checkAll_eq_error {α : Type} {check : α → Check} {as : List α}
    {s : Stop Invalid} :
    checkAll check as = .error s ↔ ∃ (i : Nat) (a : α), as[i]? = some a
        ∧ check a = .error s
      ∧ ∀ j < i, ∀ x, as[j]? = some x → check x = .ok () := by
  induction as with
  | nil => simp [checkAll]
  | cons a as ih =>
      rw [checkAll, seq_eq_error, ih]
      constructor
      · rintro (ha | ⟨ha, i, b, hi, hb, hbefore⟩)
        · exact ⟨0, a, rfl, ha, fun j hj => absurd hj (Nat.not_lt_zero j)⟩
        · refine ⟨i + 1, b, hi, hb, fun j hj x hx => ?_⟩
          cases j with
          | zero =>
              cases hx
              exact ha
          | succ j => exact hbefore j (Nat.lt_of_succ_lt_succ hj) x hx
      · rintro ⟨i, b, hi, hb, hbefore⟩
        cases i with
        | zero =>
            cases hi
            exact Or.inl hb
        | succ i =>
            refine Or.inr ⟨hbefore 0 i.succ_pos a rfl, i, b, hi, hb,
              fun j hj x hx => ?_⟩
            exact hbefore (j + 1) (Nat.succ_lt_succ hj) x hx

/-- Checks that never halt do not halt in turn. -/
theorem checkAll_ne_halt {α : Type} {check : α → Check} {as : List α} {h : Halt}
    (hcheck : ∀ a ∈ as, check a ≠ .error (.halt h)) :
    checkAll check as ≠ .error (.halt h) := by
  intro herr
  obtain ⟨i, a, hi, ha, -⟩ := checkAll_eq_error.mp herr
  exact hcheck a (List.mem_of_getElem? hi) ha

namespace Func

variable {f : Func} {b : BlockId} {blk : Block} {e : Invalid} {h : Halt}

-- ================================================================= findings

/-- What an error says of a function. -/
def Shows (f : Func) : Invalid → Prop
  | .noEntry b => b = f.entry ∧ f.hasBlock b = false
  | .vacantBlock b => f.hasBlock b = true ∧ f.block? b = none
  | .noTerminator b name => ∃ blk, f.block? b = some blk
      ∧ blk.name = name ∧ blk.term = none
  | .undefinedTarget b s => ∃ blk, f.block? b = some blk ∧ s ∈ blk.targets
      ∧ f.hasBlock s = false
  | .unlistedPred b s => ∃ blk sb, f.block? b = some blk ∧ s ∈ blk.targets
      ∧ f.block? s = some sb ∧ b ∉ sb.preds
  | .undefinedPred b p => ∃ blk, f.block? b = some blk ∧ p ∈ blk.preds
      ∧ f.hasBlock p = false
  | .falsePred b p => ∃ blk pb, f.block? b = some blk ∧ p ∈ blk.preds
      ∧ f.block? p = some pb ∧ b ∉ pb.targets
  | .missingInstr b j => ∃ blk, f.block? b = some blk
      ∧ blk.instrs[j]? = some .missing
  | .latePhi b j => ∃ blk i, f.block? b = some blk
        ∧ blk.instrs[j]? = some i ∧ i.isPhi = true
      ∧ blk.phiCount ≤ j
  | .undefinedSource b d p => ∃ blk t ss s, f.block? b = some blk
        ∧ .phi d t ss ∈ blk.instrs
      ∧ s ∈ ss ∧ s.block = p ∧ f.hasBlock p = false
  | .foreignSource b d p => ∃ blk t ss s, f.block? b = some blk
        ∧ .phi d t ss ∈ blk.instrs
      ∧ s ∈ ss ∧ s.block = p ∧ p ∉ blk.preds
  | .entryPhis => ∃ blk, f.block? f.entry = some blk
      ∧ ∃ i ∈ blk.instrs, i.isPhi = true
  | .definedTwice v a b => f.DefinedIn a v ∧ (∃ i, f.DefinedAt b i v)
      ∧ 1 < (f.params ++ f.definedValues).count v
  | .undefinedUse b v => ∃ blk i, f.block? b = some blk
        ∧ i ∈ blk.instrs ∧ v ∈ i.uses
      ∧ ¬ f.Defined v
  | .undefinedTermUse b v => ∃ blk, f.block? b = some blk
      ∧ v ∈ usesOf blk.term ∧ ¬ f.Defined v

-- =============================================================== references

/-- The place is in the block list, and nothing is there. -/
def Vacant (f : Func) (b : BlockId) : Prop :=
  f.hasBlock b = true ∧ f.block? b = none

/-- Of the places in a list the first that is not as it should be is vacant. -/
def MeetsVacant (f : Func) (ok : BlockId → Prop) (bs : List BlockId) : Prop :=
  ∃ (i : Nat) (c : BlockId), bs[i]? = some c ∧ f.Vacant c
    ∧ ∀ j < i, ∀ x, bs[j]? = some x → ok x

/-- What the block jumps to is there and lists it. -/
def TargetOk (f : Func) (b s : BlockId) : Prop :=
  ∃ sb, f.block? s = some sb ∧ b ∈ sb.preds

/-- What the block lists is there and jumps to it. -/
def PredOk (f : Func) (b p : BlockId) : Prop :=
  ∃ pb, f.block? p = some pb ∧ b ∈ pb.targets

/-- The first thing wrong with a block is that it jumps to a vacant place or
lists one. -/
def BlockStranded (f : Func) (b : BlockId) (blk : Block) : Prop :=
  blk.term.isSome = true ∧ (f.MeetsVacant (f.TargetOk b) blk.targets
    ∨ ((∀ s ∈ blk.targets, f.TargetOk b s)
    ∧ f.MeetsVacant (f.PredOk b) blk.preds))

/-- The first thing wrong with the function is a reference to a vacant place. -/
def Stranded (f : Func) : Prop :=
  f.hasBlock f.entry = true ∧ ∃ (i : Nat) (blk : Block), f.block? i = some blk
    ∧ f.BlockStranded i blk ∧ ∀ j < i, ∃ before,
    f.block? (j : Nat) = some before ∧ f.BlockOk j before

/-- Following a number to no block is a fault. -/
theorem block_eq_error : f.block b = .error h ↔ f.block? b = none
    ∧ h = .fault := by
  unfold block
  cases f.block? b <;> simp [eq_comm]

/-- Following a reference: the place must be there, and what is there must pass
the test. -/
def follow (f : Func) (test : Block → Bool)
    (undefined untrue : BlockId → Invalid) (c : BlockId) : Check := do
  require (f.hasBlock c) (undefined c)
  require (test (← liftChecked (f.block c))) (untrue c)

section References

variable {test : Block → Bool}
  {undefined untrue : BlockId → Invalid} {c : BlockId}

/-- What is followed has to be there and to meet the test. -/
theorem follow_eq_ok :
    f.follow test undefined untrue c = .ok () ↔ ∃ blk, f.block? c = some blk
        ∧ test blk = true := by
  rw [follow, seq_eq_ok, bind_eq_ok]
  simp only [require_eq_ok, liftChecked_eq_ok, block_eq_ok]
  constructor
  · rintro ⟨-, h⟩
    exact h
  · rintro ⟨blk, hc, htest⟩
    exact ⟨hasBlock_of_block? hc, blk, hc, htest⟩

/-- A reference may name no place, a vacant place, or a block that does not
pass. -/
theorem follow_eq_error {s : Stop Invalid} :
    f.follow test undefined untrue c = .error s
      ↔ (f.hasBlock c = false ∧ s = .fail (undefined c))
        ∨ (f.Vacant c ∧ s = .halt .fault)
        ∨ ∃ blk, f.block? c = some blk ∧ test blk = false
        ∧ s = .fail (untrue c) := by
  rw [follow, seq_eq_error, bind_eq_error]
  simp only [require_eq_ok, require_eq_error, liftChecked_eq_ok,
    liftChecked_eq_error, block_eq_ok, block_eq_error]
  constructor
  · rintro (h | ⟨hhere, ⟨-, ⟨hnone, rfl⟩, hs⟩ | h⟩)
    · exact Or.inl h
    · exact Or.inr (Or.inl ⟨⟨hhere, hnone⟩, hs⟩)
    · exact Or.inr (Or.inr h)
  · rintro (h | ⟨⟨hhere, hnone⟩, hs⟩ | ⟨blk, hc, h⟩)
    · exact Or.inl h
    · exact Or.inr ⟨hhere, Or.inl ⟨.fault, ⟨hnone, rfl⟩, hs⟩⟩
    · exact Or.inr ⟨hasBlock_of_block? hc, Or.inr ⟨blk, hc, h⟩⟩

/-- Following references in turn halts at a vacant place, if nothing was wrong
before. -/
theorem followAll_eq_halt {bs : List BlockId} :
    checkAll (f.follow test undefined untrue) bs = .error (.halt h)
      ↔ h = .fault ∧ f.MeetsVacant
      (fun c => ∃ blk, f.block? c = some blk ∧ test blk = true) bs := by
  simp only [checkAll_eq_error, follow_eq_error, follow_eq_ok, MeetsVacant]
  constructor
  · rintro ⟨i, c, hi, ⟨-, hs⟩ | ⟨hvac, hs⟩ | ⟨-, -, -, hs⟩, hbefore⟩
    · cases hs
    · cases hs
      exact ⟨rfl, i, c, hi, hvac, hbefore⟩
    · cases hs
  · rintro ⟨rfl, i, c, hi, hvac, hbefore⟩
    exact ⟨i, c, hi, Or.inr (Or.inl ⟨hvac, rfl⟩), hbefore⟩

/-- Where some of several numbers fails, it is one that is out of use or one
whose block does not meet the test. -/
theorem followAll_fails {bs : List BlockId}
    (herr : checkAll (f.follow test undefined untrue) bs = .error (.fail e)) :
    ∃ c ∈ bs, (f.hasBlock c = false ∧ e = undefined c)
      ∨ ∃ blk, f.block? c = some blk ∧ test blk = false ∧ e = untrue c := by
  obtain ⟨i, c, hi, hc, -⟩ := checkAll_eq_error.mp herr
  refine ⟨c, List.mem_of_getElem? hi, ?_⟩
  rcases follow_eq_error.mp hc with ⟨hnone, hs⟩ | ⟨-, hs⟩
    | ⟨blk, hblk, htest, hs⟩
  · cases hs
    exact Or.inl ⟨hnone, rfl⟩
  · cases hs
  · cases hs
    exact Or.inr ⟨blk, hblk, htest, rfl⟩

end References

-- The two checks of edges are the same walk with other words.
theorem checkTargets_eq : f.checkTargets b blk
    = checkAll (f.follow (·.hasPred b) (.undefinedTarget b) (.unlistedPred b))
    blk.targets := rfl

theorem checkPreds_eq : f.checkPreds b blk
    = checkAll
    (f.follow (fun pb => b ∈ pb.targets) (.undefinedPred b) (.falsePred b))
      blk.preds :=
  rfl

/-- A fault comes from a missing block, met before any error. -/
theorem checkTargets_eq_halt :
    f.checkTargets b blk = .error (.halt h) ↔ h = .fault ∧ f.MeetsVacant
      (f.TargetOk b) blk.targets := by
  rw [checkTargets_eq, followAll_eq_halt]
  simp only [Block.hasPred, decide_eq_true_eq]
  rfl

/-- So it does for predecessors. -/
theorem checkPreds_eq_halt :
    f.checkPreds b blk = .error (.halt h) ↔ h = .fault ∧ f.MeetsVacant
      (f.PredOk b) blk.preds := by
  rw [checkPreds_eq, followAll_eq_halt]
  simp only [decide_eq_true_eq]
  rfl

/-- An error about targets shows in the function. -/
theorem checkTargets_shows (hb : f.block? b = some blk)
    (herr : f.checkTargets b blk = .error (.fail e)) : f.Shows e := by
  obtain ⟨s, hs, ⟨hnone, rfl⟩ | ⟨sb, hsb, hnot, rfl⟩⟩ := followAll_fails herr
  · exact ⟨blk, hb, hs, hnone⟩
  · exact ⟨blk, sb, hb, hs, hsb, of_decide_eq_false hnot⟩

/-- An error about predecessors shows as well. -/
theorem checkPreds_shows (hb : f.block? b = some blk)
    (herr : f.checkPreds b blk = .error (.fail e)) : f.Shows e := by
  obtain ⟨p, hp, ⟨hnone, rfl⟩ | ⟨pb, hpb, hnot, rfl⟩⟩ := followAll_fails herr
  · exact ⟨blk, hb, hp, hnone⟩
  · exact ⟨blk, pb, hb, hp, hpb, of_decide_eq_false hnot⟩

-- ============================================================= instructions

section Instructions

variable {d : ValueId} {t : Ty} {ss : List PhiSource}

/-- The sources of a phi are looked up in the function's own lists, which no
block has to be there for. -/
theorem checkSources_ne_halt :
    f.checkSources b blk d ss ≠ .error (.halt h) := by
  refine checkAll_ne_halt fun s _ herr => ?_
  simp only [seq_eq_error, require_eq_error] at herr
  rcases herr with ⟨-, hs⟩ | ⟨-, -, hs⟩ <;> cases hs

/-- An error about a phi's sources shows. -/
theorem checkSources_shows (hb : f.block? b = some blk)
    (hphi : .phi d t ss ∈ blk.instrs)
    (herr : f.checkSources b blk d ss = .error (.fail e)) : f.Shows e := by
  obtain ⟨j, s, hj, hs, -⟩ := checkAll_eq_error.mp herr
  have hmem := List.mem_of_getElem? hj
  simp only [seq_eq_error, require_eq_error] at hs
  rcases hs with ⟨hnone, he⟩ | ⟨-, hnot, he⟩
  · cases he
    exact ⟨blk, t, ss, s, hb, hphi, hmem, rfl, hnone⟩
  · cases he
    exact ⟨blk, t, ss, s, hb, hphi, hmem, rfl, of_decide_eq_false hnot⟩

/-- The checks of an instruction follow no reference. -/
theorem checkInstr_ne_halt {i : Instr} {j : Nat} :
    f.checkInstr b blk (i, j) ≠ .error (.halt h) := by
  intro herr
  cases i with
  | phi d t ss =>
      rw [checkInstr, seq_eq_error, require_eq_error] at herr
      rcases herr with ⟨-, hs⟩ | ⟨-, hsrc⟩
      · cases hs
      · exact checkSources_ne_halt hsrc
  | _ => cases herr

/-- An error about an instruction shows, at that instruction. -/
theorem checkInstr_shows (hb : f.block? b = some blk) {i : Instr} {j : Nat}
    (hj : blk.instrs[j]? = some i)
    (herr : f.checkInstr b blk (i, j) = .error (.fail e)) : f.Shows e := by
  cases i with
  | missing =>
      cases herr
      exact ⟨blk, hb, hj⟩
  | phi d t ss =>
      rw [checkInstr, seq_eq_error, require_eq_error] at herr
      rcases herr with ⟨hlate, hs⟩ | ⟨-, hsrc⟩
      · cases hs
        exact ⟨blk, _, hb, hj, rfl, Nat.le_of_not_lt (of_decide_eq_false hlate)⟩
      · exact checkSources_shows hb (List.mem_of_getElem? hj) hsrc
  | _ => cases herr

end Instructions

-- =================================================================== blocks

/-- A block faults if it is stranded: one of the blocks it leads to, or comes
from, is missing. -/
theorem checkBlock_eq_halt {i : Nat} :
    f.checkBlock (some blk, i) = .error (.halt h) ↔ h = .fault
        ∧ f.BlockStranded i blk := by
  have hinstrs : checkAll (f.checkInstr i blk) blk.instrs.zipIdx
      ≠ .error (.halt h) :=
    checkAll_ne_halt fun _ _ => checkInstr_ne_halt
  simp only [checkBlock, seq_eq_error, require_eq_error, require_eq_ok,
    checkTargets_eq_halt,
    checkTargets_eq_ok, checkPreds_eq_halt, hinstrs, reduceCtorEq, and_false,
      or_false, false_or,
    BlockStranded]
  constructor
  · rintro ⟨hterm, ⟨rfl, hmeets⟩ | ⟨htargets, rfl, hmeets⟩⟩
    · exact ⟨rfl, hterm, Or.inl hmeets⟩
    · exact ⟨rfl, hterm, Or.inr ⟨htargets, hmeets⟩⟩
  · rintro ⟨rfl, hterm, hmeets | ⟨htargets, hmeets⟩⟩
    · exact ⟨hterm, Or.inl ⟨rfl, hmeets⟩⟩
    · exact ⟨hterm, Or.inr ⟨htargets, rfl, hmeets⟩⟩

/-- Every error about a block shows in it. The checks are taken in their order.
-/
theorem checkBlock_shows {o : Option Block} {i : Nat}
    (hi : f.blocks[i]? = some o)
    (herr : f.checkBlock (o, i) = .error (.fail e)) : f.Shows e := by
  cases o with
  | none =>
      cases herr
      refine ⟨hasBlock_iff.mpr ⟨i, rfl, (List.getElem?_eq_some_iff.mp hi).1⟩,
        ?_⟩
      rw [block?_natCast, hi]
      rfl
  | some blk =>
      have hb : f.block? i = some blk := block?_eq_some_iff.mpr ⟨i, rfl, hi⟩
      simp only [checkBlock, seq_eq_error, require_eq_error] at herr
      rcases herr with ⟨hterm, hs⟩ | ⟨-, herr | ⟨-, herr | ⟨-, herr⟩⟩⟩
      · cases hs
        exact ⟨blk, hb, rfl, by simpa using hterm⟩
      · exact checkTargets_shows hb herr
      · exact checkPreds_shows hb herr
      · obtain ⟨k, ⟨ins, j⟩, hk, hins, -⟩ := checkAll_eq_error.mp herr
        have hmem :=
          List.mk_mem_zipIdx_iff_getElem?.mp (List.mem_of_getElem? hk)
        exact checkInstr_shows hb hmem hins

/-- A place that passes holds a block with the structure of one. -/
theorem checkPlace_eq_ok {o : Option Block} {i : Nat} :
    f.checkBlock (o, i) = .ok () ↔ ∃ blk, o = some blk ∧ f.BlockOk i blk := by
  cases o with
  | none => simp [checkBlock]
  | some blk => simp [checkBlock_eq_ok]

/-- The place where the checks of the block list stop, and the places before
it. -/
theorem checkBlocks_eq_error {s : Stop Invalid} :
    checkAll f.checkBlock f.blocks.zipIdx = .error s
      ↔ ∃ (i : Nat) (o : Option Block), f.blocks[i]? = some o
        ∧ f.checkBlock (o, i) = .error s
        ∧ ∀ j < i, ∃ before, f.block? (j : Nat) = some before
        ∧ f.BlockOk j before := by
  have hplace (i : Nat) : f.blocks.zipIdx[i]?
      = (f.blocks[i]?).map fun o => (o, i) := by
    rw [List.getElem?_zipIdx, Nat.zero_add]
  rw [checkAll_eq_error]
  constructor
  · rintro ⟨i, oi, hi, herr, hbefore⟩
    rw [hplace, Option.map_eq_some_iff] at hi
    obtain ⟨o, hi, rfl⟩ := hi
    refine ⟨i, o, hi, herr, fun j hj => ?_⟩
    have hjlt : j < f.blocks.length :=
      hj.trans (List.getElem?_eq_some_iff.mp hi).1
    have hjo := List.getElem?_eq_getElem hjlt
    obtain ⟨blk, hblk, hok⟩ :=
      checkPlace_eq_ok.mp (hbefore j hj (f.blocks[j],
        j) (by rw [hplace, hjo]; rfl))
    rw [hblk] at hjo
    exact ⟨blk, block?_eq_some_iff.mpr ⟨j, rfl, hjo⟩, hok⟩
  · rintro ⟨i, o, hi, herr, hbefore⟩
    refine ⟨i, (o, i), by rw [hplace, hi]; rfl, herr, fun j hj x hx => ?_⟩
    obtain ⟨blk, hblk, hok⟩ := hbefore j hj
    obtain ⟨k, hk, hkblk⟩ := block?_eq_some_iff.mp hblk
    cases hk
    rw [hplace, hkblk] at hx
    cases hx
    exact checkPlace_eq_ok.mpr ⟨blk, rfl, hok⟩

-- ================================================================= the whole

/-- The entry is looked up when every place has passed. -/
theorem checkEntry_of_checkBlocks (hentry : f.hasBlock f.entry = true)
    (hok : checkAll f.checkBlock f.blocks.zipIdx = .ok ()) :
    ∃ blk, f.block? f.entry = some blk ∧ f.BlockOk f.entry blk := by
  obtain ⟨i, hi, hlt⟩ := hasBlock_iff.mp hentry
  have hio := List.getElem?_eq_getElem hlt
  obtain ⟨blk, hblk, hblkok⟩ := checkPlace_eq_ok.mp
    (checkAll_eq_ok.mp hok (f.blocks[i], i)
    (List.mk_mem_zipIdx_iff_getElem?.mpr hio))
  rw [hblk] at hio
  rw [hi]
  exact ⟨blk, block?_eq_some_iff.mpr ⟨i, rfl, hio⟩, hblkok⟩

/-- The structural checks halt where a reference to a vacant place is the first
thing wrong. -/
theorem validate_eq_halt_iff : f.validate = .error (.halt h) ↔ h = .fault
    ∧ f.Stranded := by
  rw [validate, seq_eq_error, require_eq_error, require_eq_ok, seq_eq_error,
    checkBlocks_eq_error]
  constructor
  · rintro (⟨-, hs⟩ | ⟨hentry, ⟨i, o, hi, herr, hbefore⟩ | ⟨hok, herr⟩⟩)
    · cases hs
    · cases o with
      | none => cases herr
      | some blk =>
          obtain ⟨rfl, hstranded⟩ := checkBlock_eq_halt.mp herr
          exact ⟨rfl, hentry, i, blk, block?_eq_some_iff.mpr ⟨i, rfl, hi⟩,
            hstranded, hbefore⟩
    · obtain ⟨blk, hblk, -⟩ := checkEntry_of_checkBlocks hentry hok
      rw [block_eq_ok.mpr hblk, liftChecked_ok, ok_bind,
        require_eq_error] at herr
      cases herr.2
  · rintro ⟨rfl, hentry, i, blk, hi, hstranded, hbefore⟩
    obtain ⟨k, hk, hkblk⟩ := block?_eq_some_iff.mp hi
    cases hk
    exact Or.inr ⟨hentry, Or.inl ⟨i, some blk, hkblk,
      checkBlock_eq_halt.mpr ⟨rfl, hstranded⟩, hbefore⟩⟩

/-- What the structural checks report is true of the function. -/
theorem validate_shows (herr : f.validate = .error (.fail e)) : f.Shows e := by
  rw [validate, seq_eq_error, require_eq_error, require_eq_ok, seq_eq_error,
    checkBlocks_eq_error]
    at herr
  rcases herr with ⟨hentry, hs⟩ | ⟨hentry, ⟨i, o, hi, herr, -⟩ | ⟨hok, herr⟩⟩
  · cases hs
    exact ⟨rfl, hentry⟩
  · exact checkBlock_shows hi herr
  · obtain ⟨blk, hblk, hblkok⟩ := checkEntry_of_checkBlocks hentry hok
    rw [block_eq_ok.mpr hblk, liftChecked_ok, ok_bind, require_eq_error] at herr
    obtain ⟨hphi, hs⟩ := herr
    cases hs
    refine ⟨blk, hblk, ?_⟩
    by_contra hnone
    push Not at hnone
    rw [(phiCount_eq_zero hblkok.phisLead).mpr
      fun i hi => by simpa using hnone i hi] at hphi
    cases hphi

/-- A function without vacant places is not stranded. -/
theorem not_stranded_of_full (hfull : ∀ o ∈ f.blocks, o.isSome = true) :
    ¬ f.Stranded := by
  have hvac (c : BlockId) : ¬ f.Vacant c := by
    rintro ⟨hc, hnone⟩
    obtain ⟨blk, hblk⟩ := block?_of_hasBlock hfull hc
    rw [hblk] at hnone
    cases hnone
  rintro ⟨-, -, -, -, ⟨-, ⟨-, c, -, hc, -⟩ | ⟨-, -, c, -, hc, -⟩⟩, -⟩
  · exact hvac c hc
  · exact hvac c hc

/-- The structural checks decide well-formedness: they pass on the well-formed
functions, halt on the stranded ones, and what they report elsewhere is true of
the function. -/
theorem validate_decides (f : Func) : (f.validate = .ok () ↔ f.WellFormed)
    ∧ (∀ h, f.validate = .error (.halt h) ↔ h = .fault ∧ f.Stranded)
    ∧ ∀ e, f.validate = .error (.fail e) → f.Shows e :=
  ⟨validate_eq_ok_iff, fun _ => validate_eq_halt_iff, fun _ => validate_shows⟩

/-- A block that jumps to the vacant place behind it. -/
def vacantJump : Func :=
  { name := "f", blocks := [some { name := "entry", term := some (.jump 1) }, none] }

example : vacantJump.validate = .error (.halt .fault) := rfl

end Func

end MirBackend
