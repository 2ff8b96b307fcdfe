/-
What the checks of single-assignment form find, and what they leave open.

On a well-formed function the checks never halt, and what they report is true
of it (`validateSSA_shows`): the value named in an error is defined in both
blocks named, and twice in all, or it is read where the error says and defined
nowhere.

Two things are not looked at. Parameters are collected without asking whether
one of them occurred before, so the same parameter may be listed twice. And a
read is checked against all definitions of the function, not against those
before it, so a block may read a value first and define it afterwards
(`ReadsInOrder`). Apart from these two the checks decide what single-assignment
form asks for (`validateSSA_decides`).
-/
import Mathlib
import MirBackend.Proofs.Func.Findings

namespace MirBackend.Func

variable {f : Func} {b : BlockId} {blk : Block} {v : ValueId}

-- ====================================================================== reads

section Reads

variable {defs : Definitions}

/-- The error of reads checked in turn names one of them that has no
definition. -/
theorem checkUses_fails {us : List ValueId} {error : ValueId → Invalid}
    {s : Stop Invalid}
    (herr : checkAll (fun u => require (defs.contains u) (error u)) us
      = .error s) :
    ∃ u ∈ us, u ∉ defs ∧ s = .fail (error u) := by
  obtain ⟨j, u, hj, hu, -⟩ := checkAll_eq_error.mp herr
  obtain ⟨hout, hs⟩ := require_eq_error.mp hu
  refine ⟨u, List.mem_of_getElem? hj, fun hin => ?_, hs⟩
  rw [Std.ExtTreeMap.contains_iff_mem.mpr hin] at hout
  cases hout

/-- A block whose reads fail shows the error: a value that is read there is
defined nowhere. -/
theorem checkReads_fails {i : Nat} (hb : f.block? i = some blk)
    (h : Instr.missing ∉ blk.instrs) (hdefs : ∀ v, v ∈ defs ↔ f.Defined v)
    {s : Stop Invalid} (herr : checkReads defs (some blk, i) = .error s) :
    ∃ e, s = .fail e ∧ f.Shows e := by
  rw [checkReads, seq_eq_error] at herr
  rcases herr with herr | ⟨-, herr⟩
  · obtain ⟨j, ins, hj, hins, -⟩ := checkAll_eq_error.mp herr
    have hmem := List.mem_of_getElem? hj
    rw [present_of_ne_missing fun hm => h (hm ▸ hmem),
      liftChecked_ok, ok_bind] at hins
    obtain ⟨u, hu, hout, rfl⟩ := checkUses_fails hins
    exact ⟨_, rfl, blk, ins, hb, hmem, hu,
      fun hdef => hout ((hdefs u).mpr hdef)⟩
  · obtain ⟨u, hu, hout, rfl⟩ := checkUses_fails herr
    exact ⟨_, rfl, blk, hb, hu, fun hdef => hout ((hdefs u).mpr hdef)⟩

end Reads

-- ================================================================== the whole

/-- On a well-formed function the checks never halt, and what they report is
true of it. -/
theorem validateSSA_shows (h : f.WellFormed) {s : Stop Invalid}
    (herr : f.validateSSA = .error s) : ∃ e, s = .fail e ∧ f.Shows e := by
  have hcollects := definitions_collects h
  rw [validateSSA, bind_eq_error] at herr
  rcases herr with herr | ⟨defs, hdefs, herr⟩
  · obtain ⟨v, a, b, rfl, ha, hb, hv⟩ :=
      hcollects.clashes s herr locates_paramDefinitions
    refine ⟨_, rfl, ha, hb, ?_⟩
    rw [List.count_append]
    rcases hv with ⟨hp, hv⟩ | hv
    · have h₁ := List.count_pos_iff.mpr (mem_paramDefinitions.mp hp)
      have h₂ := List.count_pos_iff.mpr hv
      omega
    · omega
  · obtain ⟨k, ⟨o, i⟩, hk, hoi, -⟩ := checkAll_eq_error.mp herr
    have hi := List.mk_mem_zipIdx_iff_getElem?.mp (List.mem_of_getElem? hk)
    obtain ⟨blk, rfl⟩ :=
      Option.isSome_iff_exists.mp (h.full o (List.mem_of_getElem? hi))
    have hb : f.block? i = some blk := block?_eq_some_iff.mpr ⟨i, rfl, hi⟩
    exact checkReads_fails hb (h.blockOk i blk hb).noHole
      ((definitions_spec h).1 defs hdefs).2 hoi

/-- A block that defines a value reads it behind the definition; phis read on
the edges. -/
def ReadsInOrder (f : Func) : Prop :=
  ∀ b blk i j ins v, f.block? b = some blk → blk.instrs[j]? = some ins →
    ins.isPhi = false →
    v ∈ ins.uses → f.DefinedAt b i v → i < j

/-- Parameters and instructions together define a value once. -/
theorem nodup_params_append :
    (f.params ++ f.definedValues).Nodup ↔ f.params.Nodup
      ∧ f.SingleAssignment := by
  rw [List.nodup_append]
  constructor
  · rintro ⟨hparams, hnd, hdisj⟩
    exact ⟨hparams, hnd, fun p hp hd => hdisj p hp p hd rfl⟩
  · rintro ⟨hparams, hsa⟩
    refine ⟨hparams, hsa.nodup, fun p hp d hd hpd => ?_⟩
    exact hsa.params p hp (hpd ▸ hd)

/-- The checks of single-assignment form on a function of sound structure: they
pass where instructions define every value once and no parameter, and every
value read is a parameter or defined. With parameters that differ and reads
behind the definitions this is single-assignment form as a whole. Where the
checks do not pass, what they report is true. -/
theorem validateSSA_decides (hvalid : f.validate = .ok ()) :
    (f.validateSSA = .ok () ↔ f.SingleAssignment ∧ ∀ v, f.Reads v → f.Defined v)
    ∧ (f.validateSSA = .ok () ∧ f.params.Nodup ∧ f.ReadsInOrder
      ↔ (f.params ++ f.definedValues).Nodup
      ∧ (∀ v, f.Reads v → f.Defined v) ∧ f.ReadsInOrder)
    ∧ ∀ s, f.validateSSA = .error s → ∃ e, s = .fail e ∧ f.Shows e := by
  have hwf := validate_eq_ok_iff.mp hvalid
  have hpass := validateSSA_eq_ok_iff hwf
  refine ⟨hpass, ?_, fun s => validateSSA_shows hwf⟩
  rw [hpass, nodup_params_append]
  tauto

/-- A block that adds one to a value and then defines the value. -/
def earlyRead : Func :=
  { name := "early"
    blocks := [some
      { name := "entry"
        instrs := [.binary .add 1 (.value 0) (.int 1), .assign 0 (.int 5) .felt]
        term := some (.ret [.value 1]) }]
    returns := [.felt] }

/-- The block passes, although it reads what it defines only afterwards. -/
theorem validateSSA_decides_earlyRead : earlyRead.validate = .ok ()
    ∧ earlyRead.validateSSA = .ok () ∧ ¬ earlyRead.ReadsInOrder := by
  have hvalid : earlyRead.validate = .ok () := rfl
  refine ⟨hvalid, (validateSSA_decides hvalid).1.mpr
    ⟨definesOnce_iff.mp rfl, ?_⟩, fun h => ?_⟩
  · rintro v ⟨b, blk, hb, hv⟩
    obtain ⟨-, rfl⟩ := block?_of_blocks_eq rfl hb
    refine Or.inr ?_
    rcases hv with ⟨ins, hins, hv⟩ | hv
    · fin_cases hins <;> fin_cases hv
      decide
    · fin_cases hv
      decide
  · exact absurd (h 0 _ 1 0 _ 0 rfl rfl rfl (by decide) ⟨_, _, rfl,
      rfl, by decide⟩) (by decide)

end MirBackend.Func
