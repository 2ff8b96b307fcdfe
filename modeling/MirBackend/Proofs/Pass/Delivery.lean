/-
What the pipelines deliver.

Passes are followed by what they need and what they leave (`Pass.Leads`).
Before phis are removed a function is in order, in single-assignment form and
grounded (`InForm`); the cleanups keep that, and after dead code is gone every
block is reachable, so all that is read is defined and the check in the middle
passes. Removing phis keeps the function in order, fusing branches too, and
the last removal of dead code leaves a finished function (`Finished`).

A schedule over a module runs each pass over every function before the next
one starts, so the stages are joined function by function (`passOver_leads`)
and then step by step.
-/
import Mathlib
import MirBackend.Compile
import MirBackend.Proofs.Pass.Grounding
import MirBackend.Proofs.Pass.Structure

namespace MirBackend

open DeadCode (AllReachable Tidy)

-- ================================================================== stages

/-- A function in order, in single-assignment form, whose reads are grounded. -/
structure Func.InForm (f : Func) : Prop where
  ordered : f.Ordered
  single : f.SingleAssignment
  grounded : f.Grounded

/-- No phi stands in the function. -/
def Func.PhiFree (f : Func) : Prop := ∀ i, f.HasInstr i → i.isPhi = false

/-- A function as the pipelines deliver it. -/
structure Func.Finished (f : Func) : Prop where
  ordered : f.Ordered
  phiFree : f.PhiFree
  reachable : AllReachable f
  tidy : Tidy f

namespace Pass

/-- From functions with `P` the pass goes, without halt or error, to functions
with `Q`. -/
def Leads (p : Pass) (P Q : Func → Prop) : Prop :=
  ∀ f, P f → ∃ o, p.apply f = .ok o ∧ o.error = none ∧ Q o.state

/-- The same of passes in turn. -/
def AllLead (ps : List Pass) (P Q : Func → Prop) : Prop :=
  ∀ f, P f → ∀ modified, ∃ o, applyAll ps f modified = .ok o
    ∧ o.error = none ∧ Q o.state

variable {p : Pass} {ps : List Pass} {P Q R : Func → Prop}

-- Passes in turn lead where the last one does.
theorem AllLead.nil (P : Func → Prop) : AllLead [] P P := by
  intro f hf modified
  exact ⟨⟨f, modified, none⟩, by rw [applyAll], rfl, hf⟩

theorem AllLead.cons (hp : p.Leads P Q) (hps : AllLead ps Q R) :
    AllLead (p :: ps) P R := by
  intro f hf modified
  obtain ⟨o, ho, herr, hQ⟩ := hp f hf
  obtain ⟨o', ho', hrest⟩ := hps o.state hQ (modified || o.modified)
  refine ⟨o', ?_, hrest⟩
  rw [applyAll, ho, ok_bind, herr]
  exact ho'

/-- Passes repeated until nothing changes: what a round leaves must be what the
next needs, and there is at least one round. -/
theorem fixpoint_leads (hps : AllLead ps P Q) (hQP : ∀ f, Q f → P f) (n : Int) :
    (Pass.fixpoint ps n).Leads P Q := by
  have hrounds : ∀ (k : Nat) (modified : Bool) (f : Func), P f →
      ∃ o, rounds (fun f => applyAll ps f false) (k + 1) modified f = .ok o
        ∧ o.error = none ∧ Q o.state := by
    intro k
    induction k with
    | zero =>
        intro modified f hf
        obtain ⟨o, ho, herr, hQ⟩ := hps f hf false
        rw [rounds, ho, ok_bind, herr]
        dsimp only
        split
        · exact ⟨⟨o.state, true, none⟩, by rw [rounds], rfl, hQ⟩
        · exact ⟨⟨o.state, modified, none⟩, rfl, rfl, hQ⟩
    | succ k ih =>
        intro modified f hf
        obtain ⟨o, ho, herr, hQ⟩ := hps f hf false
        rw [rounds, ho, ok_bind, herr]
        dsimp only
        split
        · exact ih true o.state (hQP _ hQ)
        · exact ⟨⟨o.state, modified, none⟩, rfl, rfl, hQ⟩
  have hpos : ∃ k, roundLimit n = k + 1 := by
    refine Nat.exists_eq_succ_of_ne_zero ?_
    unfold roundLimit defaultRounds
    split <;> omega
  obtain ⟨k, hk⟩ := hpos
  intro f hf
  rw [apply, hk]
  exact hrounds k false f hf

/-- A pass made conditional on something that can be told, when it may as well
be skipped. -/
theorem conditional_leads {c : Condition} (hp : p.Leads P P)
    (hc : ∀ f, P f → ∃ b, c.holds f = .ok b) :
    (Pass.conditional p c).Leads P P := by
  intro f hf
  obtain ⟨b, hb⟩ := hc f hf
  rw [apply, hb, given_ok, ok_bind]
  cases b with
  | true => exact hp f hf
  | false => exact ⟨⟨f, false, none⟩, rfl, rfl, hf⟩

/-- A pass that checks leaves what passes the check. -/
theorem found_leads {cfg : ValidationConfig}
    {check : Func → Except (Stop PassError) Unit}
    (hp : ∀ f, p.apply f = found f (cfg.report (some f) (check f)))
    (hcheck : ∀ f, P f → check f = .ok ()) : p.Leads P P := by
  intro f hf
  refine ⟨⟨f, false, none⟩, ?_, rfl, hf⟩
  rw [hp, hcheck f hf]
  rfl

-- ================================================================== passes

/-- A validation leads on what is valid. -/
theorem validation_leads (cfg : ValidationConfig)
    (hP : ∀ f, P f → f.validate = .ok () ∧ f.validateSSA = .ok ()) :
    (Pass.validation cfg).Leads P P := by
  refine found_leads (fun f => by rw [apply]) fun f hf => ?_
  obtain ⟨hv, hssa⟩ := hP f hf
  rw [ValidationConfig.check, hv, hssa]
  cases cfg.checkSSA <;> rfl

/-- So does the one for functions without phis. -/
theorem phiFreeValidation_leads (cfg : ValidationConfig)
    (hP : ∀ f, P f → f.WellFormed ∧ f.PhiFree) :
    (Pass.phiFreeValidation cfg).Leads P P := by
  refine found_leads (fun f => by rw [apply]) fun f hf => ?_
  obtain ⟨hwf, hphi⟩ := hP f hf
  obtain ⟨n, hn, hzero⟩ := Func.phiTotal_spec hwf
  rw [ValidationConfig.checkPhiFree, Func.validate_eq_ok_iff.mpr hwf,
    hn, hzero.mpr hphi]
  rfl

-- What each transformation leads from and to.
theorem frameCleanup_leads :
    Pass.frameCleanup.Leads Func.InForm Func.InForm := by
  intro f hf
  obtain ⟨m, g, hg, ht⟩ := FrameCleanup.run_spec hf.ordered.wellFormed
  refine ⟨⟨g, m, none⟩, by rw [apply, hg]; rfl, rfl, ?_⟩
  exact ⟨⟨ht.wellFormed hf.ordered.wellFormed,
    ht.predsDistinct hf.ordered.distinct⟩,
    ht.singleAssignment hf.single, ht.grounded hf.grounded⟩

/-- Removing dead code keeps a function in form and leaves every block
reachable. -/
theorem deadCode_leads_inForm :
    Pass.deadCode.Leads Func.InForm fun f => f.InForm ∧ AllReachable f := by
  intro f hf
  have hwf := hf.ordered.wellFormed
  obtain ⟨m, k, g, hg, hcases, hkwf, hall, ht, -⟩ := DeadCode.run_spec hwf
  have hk : k.InForm := by
    rcases hcases with ⟨rfl, -⟩ | ⟨r, hr⟩
    · exact hf
    · exact ⟨⟨hkwf, (hr.wellFormed hwf).2⟩,
        hf.single.sublist hr.params hr.definedValues_sublist,
        hr.grounded hwf hf.grounded⟩
  refine ⟨⟨g, m, none⟩, by rw [apply, hg]; rfl, rfl, ?_, hall.trimmed ht⟩
  exact ⟨⟨ht.wellFormed hkwf, ht.predsDistinct hk.ordered.distinct⟩,
    ht.singleAssignment hk.single, ht.grounded hk.grounded⟩

theorem phiRemoval_leads :
    Pass.phiRemoval.Leads Func.Ordered fun f => f.Ordered ∧ f.PhiFree := by
  intro f hf
  obtain ⟨m, g, hg, hwf, hpd, hphi⟩ :=
    PhiRemoval.run_wellFormed hf.wellFormed hf.distinct
  exact ⟨⟨g, m, none⟩, by rw [apply, hg]; rfl, rfl, ⟨hwf, hpd⟩, hphi⟩

theorem branchFusion_leads :
    Pass.branchFusion.Leads (fun f => f.Ordered ∧ f.PhiFree) fun f =>
      f.Ordered ∧ f.PhiFree := by
  rintro f ⟨hf, hphi⟩
  obtain ⟨m, g, hg, hwf, hpd, hold⟩ :=
    BranchFusion.run_wellFormed hf.wellFormed hf.distinct
  exact ⟨⟨g, m, none⟩, by rw [apply, hg]; rfl, rfl, ⟨hwf, hpd⟩,
    fun i hi => hphi i (hold i hi)⟩

/-- Removing dead code finishes a function without phis. -/
theorem deadCode_leads_finished :
    Pass.deadCode.Leads (fun f => f.Ordered ∧ f.PhiFree) Func.Finished := by
  rintro f ⟨hf, hphi⟩
  obtain ⟨m, k, g, hg, hcases, hkwf, hall, ht, htidy⟩ :=
    DeadCode.run_spec hf.wellFormed
  have hk : k.PredsDistinct ∧ k.PhiFree := by
    rcases hcases with ⟨rfl, -⟩ | ⟨r, hr⟩
    · exact ⟨hf.distinct, hphi⟩
    · refine ⟨(hr.wellFormed hf.wellFormed).2, ?_⟩
      rintro i ⟨c, cb, hc, hi⟩
      obtain ⟨b, blk, ps, -, -, hblk, rfl, -⟩ := hr.origin hf.wellFormed hc
      obtain ⟨j, hj, rfl⟩ := List.mem_map.mp hi
      rw [DeadCode.Renumbering.isPhi_instr]
      exact hphi j ⟨b, blk, hblk, hj⟩
  exact ⟨⟨g, m, none⟩, by rw [apply, hg]; rfl, rfl,
    ⟨ht.wellFormed hkwf, ht.predsDistinct hk.1⟩,
    fun i hi => hk.2 i (ht.hasInstr hi),
    hall.trimmed ht, htidy⟩

/-- A pass leads from less. -/
theorem Leads.mono {P' : Func → Prop} (h : p.Leads P Q) (hP : ∀ f, P' f → P f) :
    p.Leads P' Q :=
  fun f hf => h f (hP f hf)

end Pass

-- =============================================================== schedules

namespace Schedule

variable {P Q R : Func → Prop} {ss : List Step}

/-- A pass over functions one after the other; `done` are the ones before. -/
theorem passOver_leads {p : Pass} (hp : p.Leads P Q)
    (fs done : List Func) (modified : Bool) (hfs : ∀ f ∈ fs, P f)
    (hdone : ∀ g ∈ done, Q g) :
    ∃ o, passOver p done modified fs = .ok o ∧ o.error = none
      ∧ o.state.functions.length = done.length + fs.length
      ∧ ∀ g ∈ o.state.functions, Q g := by
  induction fs generalizing done modified with
  | nil => exact ⟨⟨⟨done⟩, modified, none⟩, rfl, rfl, rfl, hdone⟩
  | cons f fs ih =>
      obtain ⟨o, ho, herr, hQ⟩ := hp f (hfs f List.mem_cons_self)
      have hrun : p.run f = .ok o := by
        rw [Pass.run, ho, ok_bind, herr, Option.map_none, ← herr]
        rfl
      obtain ⟨o', ho', herr', hlen, hall⟩ :=
        ih (done ++ [o.state]) (modified || o.modified)
        (fun g hg => hfs g (List.mem_cons_of_mem _ hg)) fun g hg => by
          rcases List.mem_append.mp hg with hg | hg
          · exact hdone g hg
          · exact List.mem_singleton.mp hg ▸ hQ
      refine ⟨o', ?_, herr', ?_, hall⟩
      · rw [passOver, hrun, inside, ok_bind, herr]
        exact ho'
      · rw [hlen, List.length_append, List.length_singleton, List.length_cons]
        omega

/-- From modules of functions with `P` the steps go, without halt or error, to
modules of as many functions with `Q`. -/
def StepsLead (ss : List Step) (P Q : Func → Prop) : Prop :=
  ∀ m : Module, (∀ f ∈ m.functions, P f) → ∀ modified,
    ∃ o, runSteps ss modified m = .ok o ∧ o.error = none
      ∧ o.state.functions.length = m.functions.length
      ∧ ∀ g ∈ o.state.functions, Q g

-- The same for the steps of a pipeline.
theorem StepsLead.nil (P : Func → Prop) : StepsLead [] P P :=
  fun m hm modified => ⟨⟨m, modified, none⟩, rfl, rfl, rfl, hm⟩

theorem StepsLead.cons {p : Pass} (hp : p.Leads P Q) (hss : StepsLead ss Q R) :
    StepsLead (.pass p :: ss) P R := by
  intro m hm modified
  obtain ⟨o, ho, herr, hlen, hQ⟩ :=
    passOver_leads hp m.functions [] modified hm (by simp)
  obtain ⟨o', ho', herr', hlen', hR⟩ := hss o.state hQ o.modified
  refine ⟨o', ?_, herr', by simpa [hlen] using hlen', hR⟩
  rw [runSteps, stepOver, ho, ok_bind, herr]
  exact ho'

end Schedule

-- =============================================================== pipelines

namespace Pipeline

open Pass Schedule

/-- What the input check and strictness say of a function. -/
structure Input (f : Func) : Prop where
  inForm : f.InForm
  defined : ∀ v, f.Reads v → f.Defined v

/-- Valid input passes both checks. -/
theorem Input.validates {f : Func} (h : Input f) :
    f.validate = .ok () ∧ f.validateSSA = .ok () :=
  ⟨Func.validate_eq_ok_iff.mpr h.inForm.ordered.wellFormed,
    (Func.validateSSA_eq_ok_iff h.inForm.ordered.wellFormed).mpr
    ⟨h.inForm.single, h.defined⟩⟩

/-- Where every block is reachable, a function in form passes the checks of the
input. -/
theorem input_of_allReachable {f : Func}
    (h : f.InForm ∧ AllReachable f) : Input f :=
  ⟨h.1, fun _ hv => h.1.grounded.defined h.1.ordered.wellFormed h.2 hv⟩

/-- Whether a function uses memory can be told of every well-formed one. -/
theorem usesMemory_eq_ok {f : Func} (h : f.WellFormed) :
    ∃ b, f.usesMemory = .ok b := by
  have hfull := h.full
  unfold Func.usesMemory
  generalize f.blocks = os at hfull
  induction os with
  | nil => exact ⟨false, rfl⟩
  | cons o os ih =>
      obtain ⟨blk, rfl⟩ :=
        Option.isSome_iff_exists.mp (hfull o List.mem_cons_self)
      rw [Func.usesMemory.anyBlock]
      split
      · exact ⟨true, rfl⟩
      · exact ih fun o ho => hfull o (List.mem_cons_of_mem _ ho)

variable (cfg : ValidationConfig)

/-- Cleaning the frame under a condition leads to the form it leads from,
whether it is done or not. -/
theorem cleanup_leads :
    (Pass.conditional .frameCleanup .usesMemory).Leads
      Func.InForm Func.InForm :=
  conditional_leads frameCleanup_leads fun _ hf =>
    usesMemory_eq_ok hf.ordered.wellFormed

/-- What is finished passes the last check. -/
theorem finished_leads :
    (Pass.phiFreeValidation cfg).Leads Func.Finished Func.Finished :=
  phiFreeValidation_leads cfg fun _ hf => ⟨hf.ordered.wellFormed, hf.phiFree⟩

/-- The check in the middle of a pipeline. -/
theorem middle_leads :
    (Pass.validation cfg).Leads (fun f => f.InForm ∧ AllReachable f)
    fun f => f.InForm ∧ AllReachable f :=
  validation_leads cfg fun _ hf => (input_of_allReachable hf).validates

-- The three pipelines, step by step.
theorem basic_leads : StepsLead [.pass (.validation cfg),
      .pass .phiRemoval, .pass .deadCode,
    .pass (.phiFreeValidation cfg)] Input Func.Finished :=
  .cons (validation_leads cfg fun _ hf => hf.validates) <|
  .cons (phiRemoval_leads.mono fun _ hf => hf.inForm.ordered) <|
  .cons deadCode_leads_finished <|
  .cons (finished_leads cfg) (.nil _)

theorem standard_leads : StepsLead [.pass (.validation cfg),
    .pass (.conditional .frameCleanup .usesMemory), .pass .deadCode, .pass
      (.validation cfg),
    .pass .phiRemoval, .pass .branchFusion, .pass .deadCode, .pass
      (.phiFreeValidation cfg)]
    Input Func.Finished :=
  .cons (validation_leads cfg fun _ hf => hf.validates) <|
  .cons (cleanup_leads.mono fun _ hf => hf.inForm) <|
  .cons deadCode_leads_inForm <|
  .cons (middle_leads cfg) <|
  .cons (phiRemoval_leads.mono fun _ hf => hf.1.ordered) <|
  .cons branchFusion_leads <|
  .cons deadCode_leads_finished <|
  .cons (finished_leads cfg) (.nil _)

theorem aggressive_leads : StepsLead [.pass (.validation cfg),
    .pass (.conditional .frameCleanup .usesMemory), .pass
      (.fixpoint [.deadCode] 0),
    .pass (.validation cfg), .pass .phiRemoval, .pass
      (.fixpoint [.branchFusion, .deadCode] 0),
    .pass (.phiFreeValidation cfg)] Input Func.Finished :=
  .cons (validation_leads cfg fun _ hf => hf.validates) <|
  .cons (cleanup_leads.mono fun _ hf => hf.inForm) <|
  .cons (fixpoint_leads (.cons deadCode_leads_inForm (.nil _))
    (fun _ hf => hf.1) 0) <|
  .cons (middle_leads cfg) <|
  .cons (phiRemoval_leads.mono fun _ hf => hf.1.ordered) <|
  .cons (fixpoint_leads (.cons branchFusion_leads
    (.cons deadCode_leads_finished (.nil _)))
    (fun _ hf => ⟨hf.ordered, hf.phiFree⟩) 0) <|
  .cons (finished_leads cfg) (.nil _)

/-- Every named pipeline takes valid modules in strict form to finished ones. -/
theorem steps_lead {p : Pipeline}
    (hp : p = .basic ∨ p = .standard ∨ p = .aggressive) :
    ∃ ss, p.steps? cfg = some (.moduleValidation cfg :: ss)
        ∧ StepsLead ss Input Func.Finished := by
  rcases hp with rfl | rfl | rfl
  · exact ⟨_, rfl, basic_leads cfg⟩
  · exact ⟨_, rfl, standard_leads cfg⟩
  · exact ⟨_, rfl, aggressive_leads cfg⟩

end Pipeline

-- ============================================================ optimization

namespace Compile

open Pipeline

/-- A check of all functions succeeds if each check does. -/
theorem forM_eq_ok {ε α : Type} {g : α → Except ε Unit} {as : List α} :
    as.forM g = .ok () ↔ ∀ a ∈ as, g a = .ok () := by
  induction as with
  | nil => simp [List.forM, pure, Except.pure]
  | cons a as ih =>
      rw [show (a :: as).forM g = (g a >>= fun _ => as.forM g)
        from rfl, seq_eq_ok, ih, List.forall_mem_cons]

/-- What the input check says of a module. -/
theorem checkInput_eq_ok {m : Module} (h : checkInput m = .ok ()) :
    m.validate = .ok ()
      ∧ ∀ f ∈ m.functions, f.validate = .ok () ∧ f.validateSSA = .ok () := by
  rw [checkInput, seq_eq_ok, mapError_eq_ok, forM_eq_ok] at h
  refine ⟨h.1, fun f hf => ?_⟩
  have hf' := h.2 f hf
  rwa [mapError_eq_ok, seq_eq_ok] at hf'

/-- Functions that pass the check of the input are input, with what their lists
of predecessors and their form have to be. -/
theorem input_of_checkInput {m : Module} (hinput : checkInput m = .ok ())
    (hdistinct : ∀ f ∈ m.functions, f.PredsDistinct)
    (hstrict : ∀ f ∈ m.functions, f.Strict) : ∀ f ∈ m.functions, Input f := by
  intro f hf
  obtain ⟨hv, hssa⟩ := (checkInput_eq_ok hinput).2 f hf
  have hwf := Func.validate_eq_ok_iff.mp hv
  obtain ⟨hsingle, hdef⟩ := (Func.validateSSA_eq_ok_iff hwf).mp hssa
  exact ⟨⟨⟨hwf, hdistinct f hf⟩, hsingle, (hstrict f hf).grounded⟩, hdef⟩

/-- A sound module without phis passes the output check. -/
theorem checkOutput_eq_ok {m : Module}
    (h : ∀ f ∈ m.functions, f.WellFormed ∧ f.PhiFree) :
    checkOutput m = .ok () := by
  rw [checkOutput, forM_eq_ok]
  intro f hf
  obtain ⟨hwf, hphi⟩ := h f hf
  obtain ⟨n, hn, hzero⟩ := Func.phiTotal_spec hwf
  rw [Func.validate_eq_ok_iff.mpr hwf, hn, hzero.mpr hphi]
  rfl

/-- A pipeline succeeds on a valid module from which its steps lead to sound
functions without phis. -/
theorem optimize_leads {cfg : Config} {m : Module} {ss : List Step}
    {P Q : Func → Prop}
    (hss : (pipelineOf cfg).steps? cfg.validation
      = some (.moduleValidation cfg.validation :: ss))
    (hlead : Schedule.StepsLead ss P Q)
    (hQ : ∀ g, Q g → g.WellFormed ∧ g.PhiFree) (hvalid : checkInput m = .ok ())
    (hm : ∀ f ∈ m.functions, P f) :
    ∃ m', optimize cfg m = .ok (m', none) ∧ m'.functions.length
        = m.functions.length
      ∧ ∀ g ∈ m'.functions, Q g := by
  obtain ⟨o, ho, herr, hlen, hend⟩ := hlead m hm false
  refine ⟨o.state, ?_, hlen, hend⟩
  have hsteps : Schedule.runSteps (.moduleValidation cfg.validation :: ss)
      false m = .ok o := by
    rw [Schedule.runSteps, Schedule.stepOver, (checkInput_eq_ok hvalid).1]
    exact ho
  have hrun : ∀ s : Schedule, s.steps = .moduleValidation cfg.validation :: ss →
      runPipeline cfg s m = .ok (o.state, none) := by
    intro s hs
    have hmodule : (if cfg.maxRounds = 0 then s
        else { s with maxRounds := cfg.maxRounds }).runModule m
        = .ok o := by
      rw [Schedule.runModule, ← hsteps, ← hs]
      split <;> rfl
    have hout := checkOutput_eq_ok fun g hg => hQ g (hend g hg)
    simp only [runPipeline, hmodule, ok_bind, herr, hout, finding, given_ok]
    split <;> rfl
  have hbad : given m (finding (checkInput m)) = .ok none := by
    rw [hvalid]
    rfl
  have hschedule : (pipelineOf cfg).schedule? cfg.validation
      = some { steps := .moduleValidation cfg.validation :: ss } := by
    rw [Pipeline.schedule?, hss]
    rfl
  simp only [optimize, hbad, hschedule]
  cases cfg.validateInput with
  | true => exact hrun { steps := .moduleValidation cfg.validation :: ss } rfl
  | false => exact hrun { steps := .moduleValidation cfg.validation :: ss } rfl

/-- The named pipelines succeed on valid modules in strict form. -/
theorem optimize_finished {cfg : Config} {m : Module}
    (hp : pipelineOf cfg = .basic ∨ pipelineOf cfg = .standard
      ∨ pipelineOf cfg = .aggressive)
    (hvalid : checkInput m = .ok ()) (hm : ∀ f ∈ m.functions, Input f) :
    ∃ m', optimize cfg m = .ok (m', none) ∧ m'.functions.length
        = m.functions.length
      ∧ ∀ g ∈ m'.functions, g.Finished := by
  obtain ⟨ss, hss, hlead⟩ := steps_lead cfg.validation hp
  exact optimize_leads hss hlead
    (fun g hg => ⟨hg.ordered.wellFormed, hg.phiFree⟩) hvalid hm

/-- Every pipeline succeeds on good input and delivers what it promises: valid
functions without phis and without instructions that do nothing, every block
reachable, every jump to a block that is there, and no pure instruction whose
results are all unread. -/
theorem optimize_delivers {cfg : Config} {m : Module}
    (hp : pipelineOf cfg = .basic ∨ pipelineOf cfg = .standard
      ∨ pipelineOf cfg = .aggressive)
    (hinput : checkInput m = .ok ())
    (hdistinct : ∀ f ∈ m.functions, f.PredsDistinct)
    (hstrict : ∀ f ∈ m.functions, f.Strict) :
    ∃ m', optimize cfg m = .ok (m', none) ∧ m'.functions.length
        = m.functions.length
      ∧ ∀ g ∈ m'.functions,
        g.validate = .ok ()
        ∧ (∀ i, g.HasInstr i → i.isPhi = false ∧ i.isNop = false)
        ∧ (∀ b, g.hasBlock b = true → g.Reachable b)
        ∧ (∀ b blk, g.block? b = some blk → ∀ s ∈ blk.targets, ∃ sb,
          g.block? s = some sb)
        ∧ ∀ i, g.HasInstr i → i.isPure = true → ∃ d ∈ i.dests, g.Reads d := by
  obtain ⟨m', hm', hlen, hfin⟩ := optimize_finished hp hinput
    (input_of_checkInput hinput hdistinct hstrict)
  refine ⟨m', hm', hlen, fun g hg => ?_⟩
  have hg := hfin g hg
  refine ⟨Func.validate_eq_ok_iff.mpr hg.ordered.wellFormed,
    fun i hi => ⟨hg.phiFree i hi, (hg.tidy i hi).1⟩, hg.reachable,
    fun b blk hb s hs => hg.ordered.wellFormed.target_exists hb hs,
    fun i hi hpure => ?_⟩
  refine (hg.tidy i hi).2.resolve_left fun heff => ?_
  rw [Instr.isPure, heff] at hpure
  cases hpure

/-- Two functions, one of them with phis on critical edges, through the
aggressive pipeline. -/
theorem optimize_delivers_criticalDiamond :
    checkInput ⟨[Sample.criticalDiamond, Sample.deadAdd]⟩ = .ok ()
    ∧ ∃ m', optimize
        { pipeline := .aggressive } ⟨[Sample.criticalDiamond, Sample.deadAdd]⟩
        = .ok (m', none)
      ∧ m'.functions.length = 2
      ∧ ∀ g ∈ m'.functions,
        g.validate = .ok ()
        ∧ (∀ i, g.HasInstr i → i.isPhi = false ∧ i.isNop = false)
        ∧ (∀ b, g.hasBlock b = true → g.Reachable b)
        ∧ (∀ b blk, g.block? b = some blk → ∀ s ∈ blk.targets, ∃ sb,
          g.block? s = some sb)
        ∧ ∀ i, g.HasInstr i → i.isPure = true → ∃ d ∈ i.dests, g.Reads d := by
  have hinput : checkInput ⟨[Sample.criticalDiamond, Sample.deadAdd]⟩
      = .ok () := rfl
  refine ⟨hinput, optimize_delivers (Or.inr (Or.inr rfl)) hinput ?_ ?_⟩
  · simp only [List.forall_mem_cons]
    exact ⟨Func.predsDistinct_iff.mpr (by decide),
      Func.predsDistinct_iff.mpr (by decide), by simp⟩
  · simp only [List.forall_mem_cons]
    exact ⟨Func.strict_of_strictBy (List.replicate 4 [0, 1]) rfl
      (Func.definesOnce_iff.mp rfl),
      Func.strict_of_strictBy [[]] rfl (Func.definesOnce_iff.mp rfl), by simp⟩

end Compile

end MirBackend
