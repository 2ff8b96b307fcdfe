/-
What is left when dead code is removed.

The blocks that are left are the reachable ones in their old order, so the new
number of a block is its place in the list of their old numbers (`placeAmong`),
and everything that names a block follows it. What the rounds of removal drop
on the way comes to one dropping of instructions without effects, so of each
block a part of the instructions is left with every effect in it (`Leaves`).

Nothing is left over for a second run: control reaches every block, so none
goes, and every instruction is needed, so the first round is the last
(`run_eq_self`).
-/
import Mathlib
import MirBackend.Proofs.Pass.DeadCodeRuns

namespace MirBackend.DeadCode

open Func

variable {f g k : Func} {left : List Nat}
  {place : BlockId → Option BlockId} {b c : BlockId}

-- ============================================================== new numbers

/-- The place of a block among those whose old numbers are listed. -/
def placeAmong (left : List Nat) (b : BlockId) : Option BlockId :=
  (left.findIdx? fun (i : Nat) => decide ((i : BlockId) = b)).map Int.ofNat

/-- The new number of a block is its position among those left. -/
theorem placeAmong_eq_some (h : left.Nodup) :
    placeAmong left b = some c ↔ ∃ i n : Nat, b = i ∧ c = n
        ∧ left[n]? = some i := by
  simp only [placeAmong, Option.map_eq_some_iff,
    List.findIdx?_eq_some_iff_getElem, decide_eq_true_eq]
  constructor
  · rintro ⟨n, ⟨hn, rfl, -⟩, rfl⟩
    exact ⟨left[n], n, rfl, rfl, List.getElem?_eq_getElem hn⟩
  · rintro ⟨i, n, rfl, rfl, hn⟩
    obtain ⟨hlt, rfl⟩ := List.getElem?_eq_some_iff.mp hn
    refine ⟨n, ⟨hlt, rfl, fun j hj heq => ?_⟩, rfl⟩
    rw [Nat.cast_inj, h.getElem_inj_iff] at heq
    omega

/-- An instruction whose phi sources go by new numbers; those from blocks
without one go. -/
def renumbered (place : BlockId → Option BlockId) : Instr → Instr
  | .phi d t ss => .phi d t
    (ss.filterMap fun s => (place s.block).map fun b => ⟨b, s.value⟩)
  | i => i

/-- A block is left of another: it goes on to the same blocks under their new
numbers, and some of its instructions stay, in their order and with all that
have effects. -/
structure LeftOf (place : BlockId → Option BlockId)
    (blk blk' : Block) : Prop where
  name : blk'.name = blk.name
  filled : blk'.filled = blk.filled
  closed : blk'.closed = blk.closed
  target : ∀ t ∈ blk.targets, ∃ n, place t = some n
  term : blk'.term = blk.term.map (·.mapTargets fun t => (place t).getD noBlock)
  instrs : blk'.instrs.Sublist (blk.instrs.map (renumbered place))
  effects : blk'.instrs.filter (·.hasSideEffects)
    = blk.instrs.filter (·.hasSideEffects)

/-- The blocks of `g` are left of the blocks of `f` that control reaches, in
their order; `left` lists the old numbers. Everything but the blocks, the number
of the entry and the journal is the same. -/
structure Leaves (f g : Func) (left : List Nat) : Prop where
  ascending : left.Pairwise (· < ·)
  reached : ∀ i : Nat, i ∈ left ↔ f.Reachable i
  header : f.SameHeader { g with entry := f.entry }
  entry : placeAmong left f.entry = some g.entry
  length : g.blocks.length = left.length
  block : ∀ n i : Nat, left[n]? = some i → ∃ blk blk', f.block? i = some blk
    ∧ g.block? n = some blk' ∧ LeftOf (placeAmong left) blk blk'

/-- Renumbering touches phis only. -/
theorem filter_hasSideEffects_renumbered (is : List Instr) :
    (is.map (renumbered place)).filter (·.hasSideEffects) = is.filter
    (·.hasSideEffects) := by
  induction is with
  | nil => rfl
  | cons i is ih =>
      rw [List.map_cons, List.filter_cons, List.filter_cons, ih]
      cases i <;> rfl

/-- Instructions whose phis name blocks that keep their numbers are left
alone. -/
theorem renumbered_of_kept {i : Instr}
    (h : ∀ d t ss, i = .phi d t ss → ∀ s ∈ ss, place s.block = some s.block) :
    renumbered place i = i := by
  cases i with
  | phi d t ss =>
      have hkept : (ss.filterMap fun s => (place s.block).map fun b =>
          (⟨b, s.value⟩ : PhiSource))
          = ss.filterMap some :=
        List.filterMap_congr fun s hs => by
          rw [h d t ss rfl s hs, Option.map_some]
      rw [renumbered, hkept, List.filterMap_some]
  | _ => rfl

/-- Targets that keep their numbers are left alone. -/
theorem mapTargets_of_kept {m : BlockId → BlockId} {t : Terminator}
    (h : ∀ s ∈ t.targets, m s = s) : t.mapTargets m = t := by
  have hpair (a b : BlockId) : a ∈ (if a = b then [a] else [a, b])
      ∧ b ∈ (if a = b then [a] else [a, b]) := by
    split <;> simp_all
  cases t with
  | jump a => rw [Terminator.mapTargets, h a List.mem_cons_self]
  | branch x a b => rw [Terminator.mapTargets, h a (hpair a b).1,
    h b (hpair a b).2]
  | branchCmp op x y a b =>
    rw [Terminator.mapTargets, h a (hpair a b).1, h b (hpair a b).2]
  | _ => rfl

-- ====================================================== unreachable blocks

/-- A compacted function is what is left. -/
theorem CompactOf.leaves {r : Renumbering} (h : CompactOf f g r)
    (hwf : f.WellFormed) (hheader : f.SameHeader { g with entry := f.entry }) :
    Leaves f g ((List.range r.count).filter r.kept.contains) := by
  obtain ⟨left, hleft⟩ : ∃ left,
      left = (List.range r.count).filter r.kept.contains := ⟨_, rfl⟩
  have hsorted : left.Pairwise (· < ·) :=
    hleft ▸ List.pairwise_lt_range.filter _
  have hplace : placeAmong left = r.new? := by
    funext b
    refine Option.ext fun c => ?_
    rw [placeAmong_eq_some (hsorted.imp Nat.ne_of_lt),
      Renumbering.new?_eq_some, hleft]
  have hnew {n i : Nat} : left[n]? = some i
      ↔ r.new? i = some (n : BlockId) := by
    rw [← hplace, placeAmong_eq_some (hsorted.imp Nat.ne_of_lt)]
    simp
  rw [← hleft]
  refine ⟨hsorted, fun i => ?_, hheader, hplace ▸ h.entry, ?_, fun n i hi => ?_⟩
  · rw [← h.kept, List.mem_iff_getElem?]
    constructor
    · rintro ⟨n, hn⟩
      exact ⟨n, hnew.mp hn⟩
    · rintro ⟨c, hc⟩
      obtain ⟨-, n, -, rfl, -⟩ := Renumbering.new?_eq_some.mp hc
      exact ⟨n, hnew.mpr hc⟩
  · refine eq_of_forall_lt_iff fun n => ?_
    constructor
    · intro hn
      obtain ⟨blk, hblk⟩ := full_iff.mp (h.wellFormed hwf).1.full n hn
      obtain ⟨b, hb⟩ := h.onto n blk hblk
      obtain ⟨i, -, rfl, -⟩ := Renumbering.new?_eq_some.mp hb
      exact (List.getElem?_eq_some_iff.mp (hnew.mpr hb)).1
    · intro hn
      have hi := hnew.mp (List.getElem?_eq_getElem hn)
      obtain ⟨blk, hblk⟩ := hwf.block?_of_reachable ((h.kept _).mp ⟨_, hi⟩)
      obtain ⟨ps, hps, -⟩ := h.block _ _ blk hi hblk
      obtain ⟨m, hm, hlt⟩ := hasBlock_iff.mp (hasBlock_of_block? hps)
      rw [Nat.cast_inj] at hm
      omega
  · have hi := hnew.mp hi
    have hreach := (h.kept _).mp ⟨_, hi⟩
    obtain ⟨blk, hblk⟩ := hwf.block?_of_reachable hreach
    obtain ⟨ps, hps, -⟩ := h.block _ _ blk hi hblk
    refine ⟨blk, _, hblk, hps, rfl, rfl, rfl, fun t ht => ?_, ?_, ?_, ?_⟩
    · obtain ⟨tb, htb⟩ := hwf.target_exists hblk ht
      rw [hplace, h.kept]
      exact hreach.step ⟨blk, hblk, ht⟩ (hasBlock_of_block? htb)
    · rw [hplace]
      rfl
    · rw [hplace]
      exact List.Sublist.refl _
    · exact filter_hasSideEffects_renumbered blk.instrs

/-- Where control reaches every block, the whole function is left. -/
theorem AllReachable.leaves (h : AllReachable f) (hwf : f.WellFormed) :
    Leaves f f (List.range f.blocks.length) := by
  have hplace {b : BlockId} (hb : f.hasBlock b = true) :
      placeAmong (List.range f.blocks.length) b = some b := by
    obtain ⟨i, rfl, hi⟩ := hasBlock_iff.mp hb
    exact (placeAmong_eq_some List.nodup_range).mpr ⟨i, i, rfl, rfl,
      List.getElem?_range hi⟩
  refine ⟨List.pairwise_lt_range, fun i => ?_, .refl f, ?_,
    List.length_range.symm, fun n i hi => ?_⟩
  · rw [List.mem_range]
    constructor
    · exact fun hi => h i (hasBlock_iff.mpr ⟨i, rfl, hi⟩)
    · intro hi
      obtain ⟨blk, hblk⟩ := hwf.block?_of_reachable hi
      obtain ⟨j, hj, hlt⟩ := hasBlock_iff.mp (hasBlock_of_block? hblk)
      rw [Nat.cast_inj] at hj
      omega
  · obtain ⟨eb, heb, -⟩ := hwf.entry
    exact hplace (hasBlock_of_block? heb)
  · obtain ⟨hn, rfl⟩ := List.getElem?_eq_some_iff.mp hi
    rw [List.length_range] at hn
    obtain ⟨blk, hblk⟩ := full_iff.mp hwf.full n hn
    have hok := hwf.blockOk n blk hblk
    rw [List.getElem_range]
    refine ⟨blk, blk, hblk, hblk, rfl, rfl, rfl, fun t ht => ?_, ?_, ?_, rfl⟩
    · obtain ⟨tb, htb⟩ := hwf.target_exists hblk ht
      exact ⟨t, hplace (hasBlock_of_block? htb)⟩
    · refine (Option.map_congr fun x hx => ?_).trans Option.map_id' |>.symm
      refine mapTargets_of_kept fun s hs => ?_
      obtain ⟨sb, hsb⟩ :=
        hwf.target_exists hblk (by rw [Block.targets, hx]; exact hs)
      rw [hplace (hasBlock_of_block? hsb), Option.getD_some]
    · have hsame :
          blk.instrs.map (renumbered (placeAmong (List.range f.blocks.length)))
          = blk.instrs := by
        refine (List.map_congr_left fun i hi => ?_).trans (List.map_id' _)
        refine renumbered_of_kept fun d t ss hphi s hs => hplace ?_
        obtain ⟨pb, hpb, -⟩ := hok.pred _ (hok.source d t ss (hphi ▸ hi) s hs)
        exact hasBlock_of_block? hpb
      rw [hsame]

/-- Dropping instructions without effects leaves less. -/
theorem Leaves.keepInstrs (h : Leaves f k left) {keep : Instr → Bool}
    (hkeep : ∀ i, i.hasSideEffects = true → keep i = true) :
    Leaves f (k.keepInstrs keep) left := by
  refine ⟨h.ascending, h.reached, ?_, h.entry,
    (length_keepInstrs k keep).trans h.length, fun n i hi => ?_⟩
  · exact ⟨h.header.name, rfl, h.header.params,
      h.header.returns, h.header.types, h.header.nextValue⟩
  · obtain ⟨blk, blk', hblk, hblk', hleft⟩ := h.block n i hi
    refine ⟨blk, keptBlock keep blk',
      hblk, by rw [block?_keepInstrs, hblk']; rfl, hleft.name,
      hleft.filled, hleft.closed, hleft.target, hleft.term,
      List.filter_sublist.trans hleft.instrs, ?_⟩
    rw [← hleft.effects]
    refine List.filter_filter.trans (List.filter_congr fun i _ => ?_)
    cases hi : i.hasSideEffects with
    | false => rfl
    | true => rw [hkeep i hi]; rfl

-- ============================================================= a second run

/-- Where control reaches every block, none goes. -/
theorem removeUnreachable_eq_self (hwf : f.WellFormed) (hall : AllReachable f) :
    removeUnreachable f = .ok (false, f) := by
  obtain ⟨eb, heb, -⟩ := hwf.entry
  obtain ⟨reach, hreach, hmem⟩ :=
    reachable_spec hwf.full (hasBlock_of_block? heb)
  have hentry : reach.containsInt f.entry = true := by
    obtain ⟨e, he, -⟩ := block?_eq_some_iff.mp heb
    rw [he]
    exact (hmem e).mpr (he ▸ .entry)
  have hsize : reach.size = f.blocks.length :=
    (size_eq_length_iff hwf hmem).mpr hall
  simp only [removeUnreachable, hreach, given_ok, ok_bind, hentry, hsize]
  rfl

/-- Where everything is needed, the first round is the last. -/
theorem removeDead_eq_self (hwf : f.WellFormed) (htidy : Tidy f) :
    removeDead f = .ok (false, f) := by
  obtain ⟨rs, hrs, hmem⟩ := reads_spec hwf
  have hnone : f.anyDropped (isLive (Std.ExtTreeSet.ofList rs)) = false :=
    (anyDropped_eq_false hwf.full).mpr fun i hi =>
    (isLive_iff hmem).mpr (htidy i hi)
  rw [removeDead, instrCount_eq_sum hwf, given_ok, ok_bind, removeDeadLoop, hrs,
    given_ok, ok_bind]
  dsimp only
  rw [hnone]
  rfl

/-- A function with nothing to remove is left as it is. -/
theorem run_eq_self (hwf : f.WellFormed) (hall : AllReachable f)
    (htidy : Tidy f) : run f = .ok (false, f) := by
  rw [run, instrCount_eq_sum hwf, given_ok, ok_bind,
    removeUnreachable_eq_self hwf hall, ok_bind]
  dsimp only
  rw [removeDead_eq_self hwf htidy]
  rfl

-- ================================================================== result

/-- What the removal of dead code makes of a valid function. The blocks are
those that control reached, in their order and under new numbers; of their
instructions a part is left, in order, with everything that has effects, and
nothing that could be removed. The function is still valid, and a second run
changes nothing and says so. -/
theorem run_leaves (hvalid : f.validate = .ok ()) :
    ∃ modified g left, run f = .ok (modified, g) ∧ Leaves f g left ∧ Tidy g
      ∧ g.validate = .ok () ∧ run g = .ok (false, g) := by
  have hwf := validate_eq_ok_iff.mp hvalid
  obtain ⟨modified₁, k, hk, hcases⟩ := removeUnreachable_spec hwf
  have hblocks : k.WellFormed ∧ AllReachable k ∧ ∃ left, Leaves f k left := by
    rcases hcases with ⟨rfl, hall⟩ | ⟨r, hr⟩
    · exact ⟨hwf, hall, _, hall.leaves hwf⟩
    · exact ⟨(hr.wellFormed hwf).1, hr.allReachable hwf, _,
        hr.leaves hwf (removeUnreachable_header hk)⟩
  obtain ⟨hkwf, hall, left, hleaves⟩ := hblocks
  obtain ⟨modified₂, g, hg, htrim, htidy⟩ := removeDead_spec hkwf
  have hgwf := htrim.wellFormed hkwf
  refine ⟨modified₁ || modified₂, g, left, ?_, ?_, htidy,
    validate_eq_ok_iff.mpr hgwf, run_eq_self hgwf (hall.trimmed htrim) htidy⟩
  · rw [run, instrCount_eq_sum hwf, given_ok, ok_bind, hk, ok_bind]
    dsimp only
    rw [hg]
    rfl
  · rw [removeDead, instrCount_eq_sum hkwf, given_ok, ok_bind] at hg
    obtain ⟨keep, rfl, hkeep⟩ := removeDeadLoop_eq_keepInstrs hg
    exact hleaves.keepInstrs hkeep

/-- The arm goes and with it a source of the phi; of the chain nothing is
left. -/
theorem run_leaves_strandedArm :
    strandedArm.validate = .ok ()
    ∧ ∃ g left, run strandedArm = .ok (true, g)
      ∧ g.blocks = [some { name := "entry", term := some (.jump 1),
                           instrs :=
                             [.addressOf 1 0, .load 2 .felt (.value 1)] },
                    some { name := "merge", preds := [0], term := some (.ret [.value 3]),
                           instrs := [.phi 3 .felt [⟨0, .value 2⟩],
                               .debug [] [.value 3]] }]
      ∧ Leaves strandedArm g left ∧ Tidy g ∧ g.validate = .ok ()
      ∧ run g = .ok (false, g) := by
  have hvalid : strandedArm.validate = .ok () := rfl
  obtain ⟨modified, g, left, hrun, hrest⟩ := run_leaves hvalid
  have hblocks : (run strandedArm).toOption.map (fun x => (x.1, x.2.blocks)) = some (true,
      [some { name := "entry", term := some (.jump 1),
              instrs := [.addressOf 1 0, .load 2 .felt (.value 1)] },
       some { name := "merge", preds := [0], term := some (.ret [.value 3]),
              instrs := [.phi 3 .felt [⟨0, .value 2⟩],
                .debug [] [.value 3]] }]) := rfl
  rw [hrun] at hblocks
  obtain ⟨rfl, hblocks⟩ := Prod.mk.inj (Option.some.inj hblocks)
  exact ⟨hvalid, g, left, hrun, hblocks, hrest⟩

end MirBackend.DeadCode
