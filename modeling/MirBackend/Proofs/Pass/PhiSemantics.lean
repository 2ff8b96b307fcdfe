/-
Leaving single-assignment form keeps behaviour.

A function in strict single-assignment form is taken through the steps of phi
removal. Splitting an edge keeps the form and is followed run by run; once the
phis are isolated, copies take their place and the function without phis
follows the one with them. So whatever a call in the module answered, it
answers after the pass, with the same memory and the same trace, given enough
steps (`run_keeps_answers`).

The slots that phis take must be those of their types when they are taken, not
only by declaration: a copy stands before the terminator of its block, which
may read what it assigned.
-/
import Mathlib
import MirBackend.Sample
import MirBackend.Proofs.Func.Modules
import MirBackend.Proofs.Pass.CopyRuns

namespace MirBackend

namespace PhiRemoval

open Func ParallelCopy Interp

variable {f g : Func}

-- =============================================================== splitting

/-- How many copies the phis of a function ask for. -/
def copyCount (f : Func) : Nat :=
  (f.blocks.flatMap (·.elim [] phiCopies)).length

-- Splitting an edge leaves the number of copies that the phis ask for.
theorem instrCopies_renameSource_length (old new : BlockId) (i : Instr) :
    (instrCopies (renameSource old new i)).length = (instrCopies i).length := by
  cases i with
  | phi d t ss => simp [instrCopies, renameSource]
  | _ => rfl

theorem copyCount_split {s t : BlockId} (h : f.SplitOf g s t) :
    copyCount g = copyCount f := by
  have hlen (k : Func) : copyCount k
      = (k.blocks.flatMap (·.elim [] fun blk =>
          blk.instrs.flatMap fun i =>
            List.replicate (instrCopies i).length ())).length := by
    rw [copyCount, List.length_flatMap, List.length_flatMap]
    congr 1
    refine List.map_congr_left fun o _ => ?_
    cases o with
    | none => rfl
    | some blk => simp [phiCopies_eq, List.length_flatMap]
  rw [hlen, hlen, h.flatMap_blocks rfl fun c blk _ => ?_]
  exact flatMap_splitBlock fun i => by rw [instrCopies_renameSource_length]

/-- No phi lists a block twice afterwards if none did before. -/
theorem sourcesDistinct_split {s t : BlockId}
    (h : f.SplitOf g s t) (hl : f.Linked) (hf : SourcesDistinct f) :
    SourcesDistinct g := by
  intro d ty ss hphi
  obtain ⟨b, blk, hb, hmem⟩ := hphi
  obtain ⟨blk₀, ss₀, hb₀, hphi₀, rfl⟩ := h.phi_cases hb hmem
  have hold : ∀ p ∈ ss₀.map (·.block), p ≠ (f.blocks.length : Int) := by
    intro p hp
    obtain ⟨s₀, hs₀, rfl⟩ := List.mem_map.mp hp
    obtain ⟨sb, hsb, -⟩ := hl.source b blk₀ hb₀ d ty ss₀ hphi₀ s₀ hs₀
    exact ne_length_of_block? hsb
  have hmap : (ss₀.map fun x =>
      if b = t
        ∧ x.block
        = s then { x with block := (f.blocks.length : Int) } else x).map
        (·.block)
      = (ss₀.map (·.block)).map fun p => if b = t
      ∧ p = s then (f.blocks.length : Int) else p := by
    rw [List.map_map, List.map_map]
    refine List.map_congr_left fun x _ => ?_
    simp only [Function.comp_apply]
    split <;> rfl
  rw [hmap]
  refine List.Nodup.map_on (fun p hp q hq hpq => ?_)
    (hf d ty ss₀ ⟨b, blk₀, hb₀, hphi₀⟩)
  split at hpq <;> split at hpq
  · next h1 h2 => rw [h1.2, h2.2]
  · exact absurd hpq.symm (hold q hq)
  · exact absurd hpq (hold p hp)
  · exact hpq

/-- Nothing new is read. -/
theorem reads_split {s t : BlockId} (h : f.SplitOf g s t) {v : ValueId}
    (hv : g.Reads v) : f.Reads v := by
  obtain ⟨b, blk, hb, hread⟩ := hv
  rcases h.block?_cases hb with ⟨rfl, rfl⟩ | ⟨blk₀, hb₀, rfl⟩
  · simp [midBlock, usesOf, Terminator.uses, Terminator.operands,
      Operand.ids] at hread
  · refine ⟨b, blk₀, hb₀, ?_⟩
    rw [usesOf_splitBlock] at hread
    refine hread.imp_left fun hi => ?_
    obtain ⟨i, hi, hv⟩ := hi
    obtain ⟨j, hj, rfl⟩ := mem_instrs_splitBlock.mp hi
    refine ⟨j, hj, ?_⟩
    split at hv
    · rwa [uses_renameSource] at hv
    · exact hv

/-- Splitting an edge keeps the form. -/
theorem lowerable_split {s t : BlockId} (h : f.SplitOf g s t) (hl : f.Linked)
    (he : f.HasEdge s t) (hf : Lowerable f) : Lowerable g := by
  refine ⟨h.strict hl he hf.strict, h.singleAssignment hf.single,
    sourcesDistinct_split h hl hf.sources, fun v hv => ?_,
      fun b blk op l r u e hb hterm => ?_⟩
  · rw [h.header.nextValue]
    refine hf.range v (hv.imp (reads_split h) fun hd => ?_)
    rwa [Defined, h.definedValues, h.header.params] at hd
  · rcases h.block?_cases hb with ⟨rfl, rfl⟩ | ⟨blk₀, hb₀, rfl⟩
    · cases hterm
    · simp only [splitBlock] at hterm
      split at hterm
      · obtain ⟨t₀, ht₀, hred⟩ := Option.map_eq_some_iff.mp hterm
        cases t₀ with
        | branchCmp op₀ l₀ r₀ u₀ e₀ =>
            cases hred
            exact hf.tests b blk₀ op l r u₀ e₀ hb₀ ht₀
        | _ => cases hred
      · exact hf.tests b blk₀ op l r u e hb₀ hterm

-- ============================================================ certificates

/-- Whether a block names values below a bound only, gives each phi one source
for each predecessor, and branches on comparisons. -/
def blockForm (bound : Int) (blk : Block) : Bool :=
  (blk.instrs.all fun ins =>
    (ins.uses ++ ins.dests).all (fun v => decide (v.toInt < bound))
    && match ins with
      | .phi _ _ ss => decide (ss.map (·.block)).Nodup
      | _ => true)
  && (usesOf blk.term).all (fun v => decide (v.toInt < bound))
  && match blk.term with
    | some (.branchCmp op ..) => op.isComparison
    | _ => true

/-- Whether a function has the form, shown by a list of the values each block is
entered with. -/
def formBy (f : Func) (avail : List (List ValueId)) : Bool :=
  f.strictBy avail && f.definesOnce
  && f.params.all (fun p => decide (p.toInt < f.nextValue.toInt))
  && f.blocks.all fun o => o.all (blockForm f.nextValue.toInt)

/-- A function in form can be lowered, by the decision procedure. -/
theorem lowerable_of_formBy (avail : List (List ValueId))
    (h : formBy f avail = true) : Lowerable f := by
  simp only [formBy, Bool.and_eq_true, List.all_eq_true, decide_eq_true_eq,
    definesOnce_iff] at h
  obtain ⟨⟨⟨hstrict, hsa⟩, hparams⟩, hblocks⟩ := h
  have hblock (b : BlockId) (blk : Block) (hb : f.block? b = some blk) :
      blockForm f.nextValue.toInt blk = true := by
    obtain ⟨n, -, hn⟩ := block?_eq_some_iff.mp hb
    exact hblocks (some blk) (List.mem_of_getElem? hn)
  have hparts (b : BlockId) (blk : Block) (hb : f.block? b = some blk) :
      (∀ ins ∈ blk.instrs, ∀ v ∈ ins.uses ++ ins.dests,
      v.toInt < f.nextValue.toInt)
      ∧ (∀ v ∈ usesOf blk.term, v.toInt < f.nextValue.toInt) := by
    have := hblock b blk hb
    simp only [blockForm, Bool.and_eq_true, List.all_eq_true,
      decide_eq_true_eq] at this
    exact ⟨fun ins hins => (this.1.1 ins hins).1, this.1.2⟩
  refine ⟨strict_of_strictBy avail hstrict hsa, hsa,
    fun d t ss hphi => ?_, fun v hv => ?_, fun b blk op l r t e hb hterm => ?_⟩
  · obtain ⟨b, blk, hb, hmem⟩ := hphi
    have := hblock b blk hb
    simp only [blockForm, Bool.and_eq_true, List.all_eq_true] at this
    simpa using (this.1.1 _ hmem).2
  · rcases hv with ⟨b, blk, hb, ⟨ins, hins, hv⟩ | hv⟩ | hv | hv
    · exact (hparts b blk hb).1 ins hins v (List.mem_append_left _ hv)
    · exact (hparts b blk hb).2 v hv
    · exact hparams v hv
    · obtain ⟨ins, ⟨b, blk, hb, hins⟩, hv⟩ :=
        mem_definedValues_iff_hasInstr.mp hv
      exact (hparts b blk hb).1 ins hins v (List.mem_append_right _ hv)
  · have := hblock b blk hb
    simp only [blockForm, hterm, Bool.and_eq_true] at this
    exact this.2

/-- Whether every phi has one slot and takes immediates only. -/
def immediatePhis (f : Func) : Bool :=
  f.blocks.all fun o => o.all fun blk => blk.instrs.all fun
    | .phi _ t ss => t.slots == 1 && ss.all fun s => s.value.imm?.isSome
    | _ => true

/-- Immediates fit whatever the frame is. -/
theorem fits_of_immediatePhis (h : immediatePhis f = true)
    (b : BlockId) (fr : Frame) : Fits f b fr := by
  intro c blk d t ss hc hphi s hs _
  obtain ⟨n, -, hn⟩ := block?_eq_some_iff.mp hc
  have hblk := List.all_eq_true.mp h _ (List.mem_of_getElem? hn)
  have hins := List.all_eq_true.mp (hblk : blk.instrs.all _ = true) _ hphi
  obtain ⟨ht, hss⟩ := Bool.and_eq_true_iff.mp hins
  have himm := List.all_eq_true.mp hss s hs
  rw [eq_of_beq ht]
  cases hv : s.value with
  | int n => exact ⟨_, rfl, rfl⟩
  | bool b => exact ⟨_, rfl, rfl⟩
  | _ => simp [hv, Operand.imm?] at himm

-- ================================================================= the pass

/-- Every call that answers in the module, with phis of the function that fit,
answers the same when another function stands in its place. -/
def Carries (m : Module) (i : Nat) (f g : Func) (Q : Promise) : Prop :=
  ∀ k xs w n vs w', Answers m (fitsIn i f) k xs w n vs w' →
    ∃ n', Answers (m.setFunc i g) Q k xs w n' vs w'

/-- What isolation keeps of a function of a module. -/
structure Isolable (m : Module) (i : Nat) (f g : Func) : Prop where
  form : Lowerable g
  name : g.name = f.name
  counter : g.nextValue = f.nextValue
  copies : copyCount g = copyCount f
  carries : Carries m i f g (fitsIn i g)

/-- Nothing has been split yet. -/
theorem isolable_self {m : Module} {i : Nat} (hf : m.func? i = some f)
    (h : Lowerable f) : Isolable m i f f := by
  refine ⟨h, rfl, rfl, rfl, fun k xs w n vs w' ha => ⟨n, ?_⟩⟩
  rw [Module.setFunc_self hf]
  exact ha

/-- Splitting one edge more keeps what lowering needs. -/
theorem isolable_stable {m : Module} {i : Nat} (hf : m.func? i = some f) :
    SplitStable (Isolable m i f) := by
  intro g h s t hg hl he hsplit
  refine ⟨lowerable_split hsplit hl he hg.form,
    hsplit.header.name.trans hg.name,
    hsplit.header.nextValue.trans hg.counter,
      (copyCount_split hsplit).trans hg.copies, ?_⟩
  intro k xs w n vs w' ha
  obtain ⟨n₁, ha₁⟩ := hg.carries k xs w n vs w' ha
  have hothers (j : FuncId) (hj : j ≠ i) :
      (m.setFunc i h).func? j = (m.setFunc i g).func? j := by
    rw [Module.func?_setFunc_of_ne hj, Module.func?_setFunc_of_ne hj]
  exact (hsplit.simulation hl (Module.func?_setFunc_self hf)
    (Module.func?_setFunc_self hf)
    hothers).answers ha₁

/-- Placing the copies of all blocks of a function whose values lie below the
counter. -/
theorem appended_all {bs : List Block} (hbs : f.blocks = bs.map some)
    (hreads : ∀ v, f.Reads v → v.toInt < f.nextValue.toInt)
    (hroom : f.nextValue.toInt < 2 ^ 62) (hfew : copyCount f ≤ 2 ^ 60) :
    Appended (bs.flatMap phiCopies)
      ((List.range f.blocks.length).map Int.ofNat) f
      (((List.range f.blocks.length).map Int.ofNat).foldl
        (placeCopies (bs.flatMap phiCopies)) f) := by
  have hnd : ((List.range f.blocks.length).map Int.ofNat).Nodup :=
    List.nodup_range.map fun a b hab => Int.ofNat_inj.mp hab
  have hcount : (bs.flatMap phiCopies).length = copyCount f := by
    rw [copyCount, hbs, List.flatMap_map]
    rfl
  have hsource : ∀ b, ∀ c ∈ copiesInto (bs.flatMap phiCopies) b, ∀ v,
      c.source = .value v →
      v.toInt < f.nextValue.toInt := by
    intro b c hc v hv
    obtain ⟨target, t, ss, s, hask⟩ := mem_copiesInto hbs hc
    obtain ⟨blk, hblk, hphi⟩ := hask.phi
    refine hreads v ⟨target, blk, hblk, Or.inl ⟨_, hphi, ?_⟩⟩
    exact mem_uses_phi.mpr ⟨s, hask.source, by rw [← hask.value, hv]⟩
  exact appended_foldl hnd hsource (by rw [hcount]; omega)

/-- A block with its copies in place and its phis dropped. -/
theorem Appended.kept_block {all : List (BlockId × ValueId × Operand × Ty)}
    (h : Appended all ((List.range f.blocks.length).map Int.ofNat) f g)
    {b : BlockId} {blk : Block} (hb : f.block? b = some blk) :
    ∃ out : List Copy, (g.keepInstrs keepsRest).block? b
        = some { blk with instrs := blk.instrs.filter keepsRest ++ out.map Copy.toInstr }
      ∧ Performs (Sequencing.effective (copiesInto all b))
      f.nextValue.toInt out := by
  obtain ⟨out, hout, hperf, -⟩ := h.block b blk hb
  refine ⟨out, ?_, hperf ?_⟩
  · have hcopies : (out.map Copy.toInstr).filter keepsRest
        = out.map Copy.toInstr := by
      refine List.filter_eq_self.mpr fun i hi => ?_
      obtain ⟨c, -, rfl⟩ := List.mem_map.mp hi
      rfl
    rw [block?_keepInstrs, hout, Option.map_some]
    show some { blk with instrs := (blk.instrs ++ out.map Copy.toInstr).filter keepsRest } = _
    rw [List.filter_append, hcopies]
  · obtain ⟨n, rfl, hn⟩ := hasBlock_iff.mp (hasBlock_of_block? hb)
    exact List.mem_map.mpr ⟨n, List.mem_range.mpr hn, rfl⟩

/-- What placing the copies and dropping the phis makes of an isolated
function. -/
theorem lowered_place {bs : List Block} (hf : Ready f bs)
    (hroom : f.nextValue.toInt < 2 ^ 62) (hfew : copyCount f ≤ 2 ^ 60) :
    Lowered f ((((List.range f.blocks.length).map Int.ofNat).foldl
      (placeCopies (bs.flatMap phiCopies)) f).keepInstrs keepsRest) bs := by
  have happended :=
    appended_all hf.blocks (fun v hv => hf.range v (Or.inl hv)) hroom hfew
  refine ⟨happended.name, happended.entry, happended.params,
    happended.draws.types, fun b blk hb => ?_⟩
  obtain ⟨out, hout, hperf⟩ := happended.kept_block hb
  refine ⟨out, ?_, hperf.of_effective⟩
  have hphis : blk.leadingPhis.filter keepsRest = [] := by
    refine List.filter_eq_nil_iff.mpr fun i hi => ?_
    simp [keepsRest, Block.isPhi_of_mem_leadingPhis hi]
  rw [hout, ← blk.leadingPhis_append_body, List.filter_append,
    hphis, List.nil_append]

/-- The pass answers with a function of the same name that answers the same. -/
theorem run_carries {m : Module} {i : Nat} (hf : m.func? i = some f)
    (hwf : f.WellFormed) (hform : Lowerable f)
    (hcounter : f.nextValue.toInt < 2 ^ 62) (hfew : copyCount f ≤ 2 ^ 60) :
    ∃ modified g, run f = .ok (modified, g) ∧ g.name = f.name
        ∧ Carries m i f g .none
      ∧ ((g = f ∧ ∀ ins, f.HasInstr ins → ins.isPhi = false)
        ∨ ∀ ins, g.HasInstr ins → keepsRest ins = true) := by
  rcases run_eq hwf (isolable_stable hf).critical (isolable_self hf hform) with
    ⟨hrun, hphi⟩ | ⟨k, bs, hk, hlink, hiso, hbs, hrun⟩
  · refine ⟨false, f, hrun, rfl, fun j xs w n vs w' ha => ⟨n, ?_⟩,
      Or.inl ⟨rfl, hphi⟩⟩
    rw [Module.setFunc_self hf]
    exact ha.forget
  · have hready : Ready k bs := ⟨hk.form, hlink, hiso, hbs⟩
    have hlow :=
      lowered_place hready (hk.counter ▸ hcounter) (hk.copies.trans_le hfew)
    obtain ⟨g, hg⟩ : ∃ g, g
      = (((List.range k.blocks.length).map Int.ofNat).foldl
      (placeCopies (bs.flatMap phiCopies)) k).keepInstrs keepsRest := ⟨_, rfl⟩
    rw [← hg] at hrun hlow
    refine ⟨true, g, hrun, hlow.name.trans hk.name, fun j xs w n vs w' ha => ?_,
      Or.inr fun ins hins => ?_⟩
    · obtain ⟨n₁, ha₁⟩ := hk.carries j xs w n vs w' ha
      have hothers (c : FuncId) (hc : c ≠ i) :
          (m.setFunc i g).func? c = (m.setFunc i k).func? c := by
        rw [Module.func?_setFunc_of_ne hc, Module.func?_setFunc_of_ne hc]
      exact (Lowered.simulation hready hlow (Module.func?_setFunc_self hf)
        (Module.func?_setFunc_self hf) hothers).answers ha₁
    · rw [hg] at hins
      exact (hasInstr_keepInstrs.mp hins).2

/-- Phi removal keeps behaviour. On a valid function in strict single-assignment
form it answers; no phi is left, and no instruction that does nothing either,
unless there was no phi to begin with: then the function is left alone. If a
call of the module answered, and what phis of the function took on the way had
the slots of their types, then with enough steps the call answers the same
afterwards and leaves the same memory and trace. -/
theorem run_keeps_answers {m : Module} {i : Nat} (hf : m.func? i = some f)
    (hvalid : f.validate = .ok ()) (hform : Lowerable f)
    (hcounter : f.nextValue.toInt < 2 ^ 62) (hfew : copyCount f ≤ 2 ^ 60) :
    ∃ modified g, run f = .ok (modified, g)
      ∧ (∀ ins, g.HasInstr ins → ins.isPhi = false)
      ∧ ((g = f ∧ ∀ ins, f.HasInstr ins → ins.isPhi = false)
        ∨ ∀ ins, g.HasInstr ins → ins.isNop = false)
      ∧ ∀ name args s r s', call m name args s = .ok r s' →
        (∀ k, m.lookup name = some k → ∀ b fr w,
          Visits m k (argValues args) s.still i b [] fr w → Fits f b fr) →
        ∃ steps : Int, ∀ limit ≥ steps, ∃ t,
          call (m.setFunc i g) name args { s with limit } = .ok r t
          ∧ t.memory = s'.memory ∧ t.trace = s'.trace := by
  obtain ⟨modified, g, hrun, hname, hcarries, hleft⟩ :=
    run_carries hf (validate_eq_ok_iff.mp hvalid) hform hcounter hfew
  have hkept (h : ∀ ins, g.HasInstr ins → keepsRest ins = true) (ins : Instr)
      (hins : g.HasInstr ins) : ins.isPhi = false ∧ ins.isNop = false := by
    simpa [keepsRest] using h ins hins
  refine ⟨modified, g, hrun, fun ins hins => ?_,
    hleft.imp_right fun hall ins hins => (hkept hall ins hins).2, ?_⟩
  · rcases hleft with ⟨rfl, hnone⟩ | hall
    · exact hnone ins hins
    · exact (hkept hall ins hins).1
  · intro name args s r s' hcall hfits
    obtain ⟨k, vs, n, hk, rfl, ha, hspent⟩ := call_answers hcall
    have hpromise : Answers m (fitsIn i f) k (argValues args)
        s.still n vs s'.still :=
      ha.promise fun j b fr w hv hj => hfits k hk b fr w (hj ▸ hv)
    obtain ⟨n', ha'⟩ := hcarries k _ _ n vs _ hpromise
    exact ha'.call_in_time ((Module.lookup_setFunc hf hname name).trans hk)

/-- The diamond with critical edges still takes its short way. -/
theorem run_keeps_answers_criticalDiamond :
    call ⟨[Sample.criticalDiamond]⟩ "critical_diamond" [1, 0]
      {} = .ok [20] { steps := 3 }
      ∧ ∃ modified g, run Sample.criticalDiamond = .ok (modified, g)
        ∧ ∃ steps : Int, ∀ limit ≥ steps, ∃ t,
          call ⟨[g]⟩ "critical_diamond" [1, 0] { limit } = .ok [20] t
              ∧ t.trace = [] := by
  have hcall : call ⟨[Sample.criticalDiamond]⟩ "critical_diamond" [1, 0] {}
      = .ok [20] { steps := 3 } := rfl
  have hform : Lowerable Sample.criticalDiamond :=
    lowerable_of_formBy (List.replicate 4 [0, 1]) rfl
  obtain ⟨modified, g, hrun, -, -, hkeeps⟩ :=
    run_keeps_answers (m := ⟨[Sample.criticalDiamond]⟩) (i := 0) rfl
      rfl hform (by decide)
      (by decide)
  obtain ⟨steps, hsteps⟩ := hkeeps _ _ _ _ _ hcall
    fun k _ b fr w _ => fits_of_immediatePhis rfl b fr
  refine ⟨hcall, modified, g, hrun, steps, fun limit hlimit => ?_⟩
  obtain ⟨t, ht, -, htrace⟩ := hsteps limit hlimit
  exact ⟨t, ht, htrace⟩

/-- A function that does nothing, in one instruction. -/
def idleFunc : Func :=
  { name := "idle"
    blocks :=
      [some { name := "entry", instrs := [.nop], term := some (.ret []) }] }

/-- A loop that goes round once. On the way back its first phi takes a value
that is declared to have one slot and has two. -/
def wideLoop : Func :=
  { name := "wide_loop"
    params := [0]
    returns := [.felt]
    types := Std.ExtTreeMap.ofList
      [((0 : ValueId), Ty.felt), (1, Ty.u32), (2, Ty.felt),
        (3, Ty.felt), (4, Ty.felt)]
    nextValue := 5
    blocks :=
      [some { name := "entry", term := some (.jump 1),
              instrs := [.binary .u32Add 1 (.value 0) (.value 0),
                .cast 2 (.value 1) .u32 .felt] },
       some { name := "head", preds := [0, 2], term := some (.branch (.value 4) 3 2),
              instrs := [.phi 3 .felt [⟨0, .int 1⟩, ⟨2, .value 2⟩],
                         .phi 4 .felt [⟨0, .int 0⟩, ⟨2, .int 1⟩]] },
       some { name := "back", preds := [1], term := some (.branch (.value 3) 1 1) },
       some { name := "exit", preds := [1], term := some (.ret [.value 4]) }] }

/-- Where there is no phi, instructions that do nothing stay; and where a value
does not have the slots it is declared with, its copy disturbs the terminator
behind it. -/
theorem run_leaves_nop_and_reads_copy :
    (idleFunc.validate = .ok () ∧ Lowerable idleFunc
      ∧ (∀ b fr, Fits idleFunc b fr)
      ∧ run idleFunc = .ok (false, idleFunc) ∧ idleFunc.HasInstr .nop)
    ∧ wideLoop.validate = .ok () ∧ Lowerable wideLoop
      ∧ call ⟨[wideLoop]⟩ "wide_loop" [5] {} = .ok [1] { steps := 7 }
      ∧ ∃ g, run wideLoop = .ok (true, g)
        ∧ ∃ e t, call ⟨[g]⟩ "wide_loop" [5] {} = .error (.fail e) t
        ∧ e.isStepLimit = false := by
  refine ⟨⟨rfl, lowerable_of_formBy [[]] rfl,
    fits_of_immediatePhis rfl, rfl, ?_⟩, rfl,
    lowerable_of_formBy [[0], [0, 1, 2], [0, 1, 2, 3, 4],
      [0, 1, 2, 3, 4]] rfl, rfl,
    _, rfl, _, _, rfl, rfl⟩
  exact ⟨0, _, rfl, List.mem_singleton_self _⟩

end PhiRemoval

end MirBackend
