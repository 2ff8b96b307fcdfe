/-
The cleanups keep definitions and reads in step.

Removing instructions with unread results, or blocks that control cannot
reach, keeps a function in single-assignment form: what is left is a part of
what was there, in the same order. And it keeps it grounded: no definition goes
that reachable code still reads.
-/
import Mathlib
import MirBackend.Proofs.Func.Strict
import MirBackend.Proofs.Pass.Compaction

namespace MirBackend

namespace Func

variable {f g : Func} {keep : Instr → Bool}

/-- Fewer definitions, in the same order, are still in single-assignment
form. -/
theorem SingleAssignment.sublist (h : f.SingleAssignment)
    (hp : g.params = f.params) (hs : g.definedValues.Sublist f.definedValues) :
    g.SingleAssignment :=
  ⟨h.nodup.sublist hs, fun p hpg hd => h.params p (hp ▸ hpg) (hs.subset hd)⟩

-- ================================================================ trimming

/-- Dropping instructions drops definitions. -/
theorem definedValues_keepInstrs_sublist (f : Func) (keep : Instr → Bool) :
    (f.keepInstrs keep).definedValues.Sublist f.definedValues := by
  have hmap : (f.keepInstrs keep).definedValues
      = f.blocks.flatMap fun o => destsOf (o.map (keptBlock keep)) := by
    rw [definedValues, show (f.keepInstrs keep).blocks
      = f.blocks.map (·.map (keptBlock keep)) from rfl, List.flatMap_map]
  rw [hmap]
  refine List.Sublist.flatMap_right _ fun o _ => ?_
  cases o with
  | none => exact List.Sublist.refl _
  | some blk => exact List.filter_sublist.flatMap Instr.dests

/-- Dropping instructions whose results nobody reads keeps a function
grounded. -/
theorem Grounded.keepInstrs (h : f.Grounded) (hdrop : f.DropsUnread keep) :
    (f.keepInstrs keep).Grounded := by
  have hreach {b : BlockId} :=
    (f.reshaped_keepInstrs keep).reachable_iff (b := b)
  intro v hv
  have hlive : f.LiveRead v := by
    obtain ⟨b, blk', hb, hr, hread⟩ := hv
    rw [block?_keepInstrs] at hb
    obtain ⟨blk, hblk, rfl⟩ := Option.map_eq_some_iff.mp hb
    refine ⟨b, blk, hblk, hreach.mp hr, ?_⟩
    rcases hread with ⟨i, hi, hphi, hv⟩ | ⟨d, t, ss, hphi, s, hs, hsr, hv⟩ | hv
    · exact Or.inl ⟨i, (List.mem_filter.mp hi).1, hphi, hv⟩
    · exact Or.inr (Or.inl ⟨d, t, ss, (List.mem_filter.mp hphi).1, s, hs,
        hreach.mp hsr, hv⟩)
    · exact Or.inr (Or.inr hv)
  rcases h v hlive with hp | ⟨b, blk, hb, hr, i, hi, hd⟩
  · exact Or.inl hp
  · -- the definition stays, since the value is read
    have hkeep : keep i = true := by
      by_contra hk
      exact hdrop i ⟨b, blk, hb, hi⟩ (by simpa using hk) v hd hlive.reads
    exact Or.inr ⟨b, keptBlock keep blk, by rw [block?_keepInstrs, hb]; rfl,
      hreach.mpr hr, i, List.mem_filter.mpr ⟨hi, hkeep⟩, hd⟩

/-- What is defined once is defined at most once after trimming. -/
theorem Trimmed.singleAssignment (ht : f.Trimmed g) (h : f.SingleAssignment) :
    g.SingleAssignment := by
  induction ht with
  | refl => exact h
  | step _ keep _ ih =>
    exact ih.sublist rfl (definedValues_keepInstrs_sublist _ keep)

/-- Reads that are left have their definitions left, since only what is not read
is dropped. -/
theorem Trimmed.grounded (ht : f.Trimmed g) (h : f.Grounded) : g.Grounded := by
  induction ht with
  | refl => exact h
  | step _ keep hdrop ih => exact ih.keepInstrs hdrop

end Func

-- ============================================================== compaction

namespace DeadCode.CompactOf

open Func

variable {f g : Func} {r : Renumbering}

/-- Compaction drops the definitions of the blocks it drops. -/
theorem definedValues_sublist (h : CompactOf f g r) :
    g.definedValues.Sublist f.definedValues := by
  obtain ⟨bs, hblocks, hinstrs⟩ := h.blocks
  have hdests (os : List (Option Block)) : os.flatMap destsOf
      = (os.map (·.map Block.instrs)).flatMap fun o =>
      o.elim [] (·.flatMap Instr.dests) := by
    rw [List.flatMap_map]
    refine List.flatMap_congr fun o _ => ?_
    cases o <;> rfl
  have hg : g.definedValues
      = (bs.zipIdx.filter fun x => r.kept.contains x.2).flatMap
      fun x => x.1.instrs.flatMap Instr.dests := by
    rw [definedValues, hdests, hinstrs, List.flatMap_map]
    refine List.flatMap_congr fun x _ => ?_
    rw [Option.elim_some, List.flatMap_map]
    simp only [Renumbering.dests_instr]
  have hf : f.definedValues = bs.zipIdx.flatMap fun x =>
      x.1.instrs.flatMap Instr.dests := by
    rw [definedValues, hblocks, List.flatMap_map]
    conv_lhs => rw [← List.zipIdx_map_fst 0 bs, List.flatMap_map]
    rfl
  rw [hg, hf]
  exact List.filter_sublist.flatMap _

/-- Removing what control cannot reach keeps a function grounded. -/
theorem grounded (h : CompactOf f g r) (hwf : f.WellFormed)
    (hgr : f.Grounded) : g.Grounded := by
  intro v hv
  have hlive : f.LiveRead v := by
    obtain ⟨c, cb, hc, -, hread⟩ := hv
    obtain ⟨b, blk, ps, hb, hreach, hblk, rfl, -⟩ := h.origin hwf hc
    refine ⟨b, blk, hblk, hreach, ?_⟩
    rcases hread with ⟨i, hi, hphi, hv⟩ | ⟨d, t, ss, hphi, s, hs, -, hv⟩ | hv
    · obtain ⟨j, hj, rfl⟩ := List.mem_map.mp hi
      rw [Renumbering.isPhi_instr] at hphi
      rw [Renumbering.instr_of_isPhi_eq_false hphi] at hv
      exact Or.inl ⟨j, hj, hphi, hv⟩
    · -- a source that stayed comes from a block that control reaches
      obtain ⟨j, hj, hjphi⟩ := List.mem_map.mp hphi
      obtain ⟨ss₀, rfl, rfl⟩ := Renumbering.instr_eq_phi.mp hjphi
      obtain ⟨s₀, hs₀, hnew⟩ := List.mem_filterMap.mp hs
      obtain ⟨n, hn, rfl⟩ := Option.map_eq_some_iff.mp hnew
      exact Or.inr (Or.inl ⟨d, t, ss₀, hj, s₀, hs₀, (h.kept _).mp ⟨n, hn⟩, hv⟩)
    · refine Or.inr (Or.inr ?_)
      have hterm : usesOf (blk.term.map (·.mapTargets r.place))
          = usesOf blk.term := by
        cases blk.term with
        | none => rfl
        | some t => cases t <;> rfl
      rw [← hterm]
      exact hv
  rcases hgr v hlive with hp | ⟨b, blk, hb, hreach, i, hi, hd⟩
  · exact Or.inl (h.params ▸ hp)
  · obtain ⟨c, hc⟩ := (h.kept b).mpr hreach
    obtain ⟨ps, hps, -⟩ := h.block b c blk hc hb
    refine Or.inr ⟨c, _, hps, h.reachable hwf hreach c hc, r.instr i,
      List.mem_map.mpr ⟨i, hi, rfl⟩, ?_⟩
    rw [Renumbering.dests_instr]
    exact hd

end DeadCode.CompactOf

end MirBackend
