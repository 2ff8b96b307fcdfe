/-
Structure is an invariant of every transformation.

Each transformation of a function takes its structure as it finds it and
leaves it in order: targets and predecessor lists describe the same edges, phis
lead and name predecessors, no predecessor is listed twice. One step keeps this
(`Transform.run_sound`), so any sequence of transformations can run, in any
order and as often as one likes, without an error or a halt, and every function
on the way passes the checks.
-/
import Mathlib
import MirBackend.Pass.Schedule
import MirBackend.Proofs.Pass.BranchFusion
import MirBackend.Proofs.Pass.Compaction
import MirBackend.Proofs.Pass.PhiRemoval
import MirBackend.Sample

namespace MirBackend

-- ========================================================== transformations

/-- A transformation of a function: one of the passes, or the splitting of its
critical edges. -/
inductive Transform where
  | frameCleanup
  | deadCode
  | phiRemoval
  | branchFusion
  | splitEdges
deriving DecidableEq, Repr

namespace Transform

/-- Run a transformation. -/
def run : Transform → Func → Changing Func (Outcome Func)
  | .frameCleanup, f => Pass.run .frameCleanup f
  | .deadCode, f => Pass.run .deadCode f
  | .phiRemoval, f => Pass.run .phiRemoval f
  | .branchFusion, f => Pass.run .branchFusion f
  | .splitEdges, f => do
      let (edges, g) ← f.splitCriticalEdges
      return { state := g, modified := !edges.isEmpty }

/-- Run transformations one after the other; the outcome of every step, in
order. An error ends the sequence. -/
def history : List Transform → Func → Changing Func (List (Outcome Func))
  | [], _ => .ok []
  | t :: ts, f => do
      let o ← t.run f
      match o.error with
      | some _ => return [o]
      | none => return o :: (← history ts o.state)

end Transform

-- =============================================================== invariant

/-- The structure of a function is in order. -/
structure Func.Ordered (f : Func) : Prop where
  wellFormed : f.WellFormed
  distinct : f.PredsDistinct

/-- A pass that answers without an error. -/
theorem Pass.run_of_changed {p : Pass} {f g : Func} {m : Bool}
    (h : p.apply f = Pass.changed (.ok (m, g))) :
    p.run f = .ok { state := g, modified := m } := by
  rw [Pass.run, h]
  rfl

namespace Transform

variable {f : Func}

/-- One transformation keeps the structure in order. -/
theorem run_sound (t : Transform) (h : f.Ordered) :
    ∃ o, t.run f = .ok o ∧ o.error = none ∧ o.state.Ordered := by
  cases t with
  | frameCleanup =>
      obtain ⟨m, g, hg, htrim⟩ := FrameCleanup.run_spec h.wellFormed
      refine ⟨_, Pass.run_of_changed (by rw [← hg, Pass.apply]), rfl, ?_⟩
      exact ⟨htrim.wellFormed h.wellFormed, htrim.predsDistinct h.distinct⟩
  | deadCode =>
      obtain ⟨m, g, hg, hwf, hpd, -⟩ :=
        DeadCode.run_wellFormed h.wellFormed h.distinct
      exact ⟨_, Pass.run_of_changed (by rw [← hg, Pass.apply]), rfl, hwf, hpd⟩
  | phiRemoval =>
      obtain ⟨m, g, hg, hwf, hpd, -⟩ :=
        PhiRemoval.run_wellFormed h.wellFormed h.distinct
      exact ⟨_, Pass.run_of_changed (by rw [← hg, Pass.apply]), rfl, hwf, hpd⟩
  | branchFusion =>
      obtain ⟨m, g, hg, hwf, hpd, -⟩ :=
        BranchFusion.run_wellFormed h.wellFormed h.distinct
      exact ⟨_, Pass.run_of_changed (by rw [← hg, Pass.apply]), rfl, hwf, hpd⟩
  | splitEdges =>
      obtain ⟨⟨edges, g⟩, hg, hwf, hpd⟩ :=
        Func.splitCriticalEdges_wellFormed h.wellFormed h.distinct
      refine ⟨⟨g, !edges.isEmpty, none⟩, ?_, rfl, hwf, hpd⟩
      rw [run, hg]
      rfl

/-- A sequence of transformations runs to its end and keeps the structure in
order. -/
theorem history_sound (ts : List Transform) (h : f.Ordered) :
    ∃ os, history ts f = .ok os ∧ os.length = ts.length
      ∧ ∀ o ∈ os, o.error = none ∧ o.state.Ordered := by
  induction ts generalizing f with
  | nil => exact ⟨[], rfl, rfl, by simp⟩
  | cons t ts ih =>
      obtain ⟨o, ho, herr, hord⟩ := run_sound t h
      obtain ⟨os, hos, hlen, hall⟩ := ih hord
      refine ⟨o :: os, ?_, by rw [List.length_cons, hlen, List.length_cons], ?_⟩
      · rw [history, ho, ok_bind, herr]
        dsimp only
        rw [hos]
        rfl
      · intro o' ho'
        rcases List.mem_cons.mp ho' with rfl | ho'
        · exact ⟨herr, hord⟩
        · exact hall o' ho'

/-- From a valid function with distinct predecessors, transformations in any
order and number all succeed, and after each of them the function is valid and
its predecessors are distinct. -/
theorem history_keeps_validity (ts : List Transform)
    (hvalid : f.validate = .ok ()) (hdistinct : f.PredsDistinct) :
    ∃ os, history ts f = .ok os ∧ os.length = ts.length
      ∧ ∀ o ∈ os, o.error = none ∧ o.state.validate = .ok ()
      ∧ o.state.PredsDistinct := by
  obtain ⟨os, hos, hlen, hall⟩ :=
    history_sound ts ⟨Func.validate_eq_ok_iff.mp hvalid, hdistinct⟩
  refine ⟨os, hos, hlen, fun o ho => ?_⟩
  obtain ⟨herr, hord⟩ := hall o ho
  exact ⟨herr, Func.validate_eq_ok_iff.mpr hord.wellFormed, hord.distinct⟩

/-- A loop with its test at the bottom has a critical edge and a phi on it. -/
theorem history_keeps_validity_bottomLoop :
    Sample.bottomLoop.validate = .ok () ∧ Sample.bottomLoop.PredsDistinct
    ∧ ∃ os, history [.phiRemoval, .branchFusion, .splitEdges,
          .deadCode, .frameCleanup]
        Sample.bottomLoop = .ok os
      ∧ os.length = 5
      ∧ ∀ o ∈ os, o.error = none ∧ o.state.validate = .ok ()
      ∧ o.state.PredsDistinct := by
  have hvalid : Sample.bottomLoop.validate = .ok () := rfl
  have hdistinct : Sample.bottomLoop.PredsDistinct :=
    Func.predsDistinct_iff.mpr (by decide)
  exact ⟨hvalid, hdistinct, history_keeps_validity _ hvalid hdistinct⟩

end Transform

end MirBackend
