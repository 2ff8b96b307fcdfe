/-
Splitting the critical edges.

The critical edges are listed first and then split one by one, while the
predecessor lists, the terminators and the phis around them change. A split
leaves how many successors and predecessors a block has, so it makes no edge
critical, and of the critical ones it takes away the one it splits
(`SplitOf.critical_iff`): every edge of the list is still there when its turn
comes, and none is left at the end.

What a function has become after some of its edges were split is told from the
pairs of edges and new blocks alone (`Relayed`): in the terminator of a block,
in its predecessor list and in the sources of its phis, the new block stands
where the edge is one of the pairs. The edges that are split run between blocks
that were there, so a new block stays as it was put (`Relayed.split`). What is
told of terminators and phis needs no distinct predecessors (`Rerouted`).
-/
import Mathlib
import MirBackend.Sample
import MirBackend.Proofs.Func.Modules
import MirBackend.Proofs.Interp.EdgeSplit
import MirBackend.Proofs.Pass.Isolation

namespace MirBackend.Func

open Interp
open PhiRemoval (SplitStable)

variable {f g h : Func} {s t n c p b : BlockId} {pairs : List (Edge × BlockId)}

-- ========================================================== critical edges

/-- An edge is critical if it is not clear. -/
theorem critical_iff_not_clear : f.Critical p b ↔ f.HasEdge p b
    ∧ ¬ f.Clear p b := by
  constructor
  · rintro ⟨pb, bb, hpb, hbb, hb, hp1, hb1⟩
    refine ⟨⟨pb, hpb, hb⟩, fun hclear => ?_⟩
    have := hclear pb bb hpb hbb
    omega
  · rintro ⟨⟨pb, hpb, hb⟩, hnot⟩
    simp only [Clear, not_forall, not_or, Nat.not_le] at hnot
    obtain ⟨pb', bb, hpb', hbb, hp1, hb1⟩ := hnot
    rw [hpb, Option.some.injEq] at hpb'
    exact ⟨pb, bb, hpb, hbb, hb, hpb' ▸ hp1, hb1⟩

/-- A split takes the edge it splits from the critical ones and leaves the
others. -/
theorem SplitOf.critical_iff (hg : f.SplitOf g s t) (hl : f.Linked)
    (he : f.HasEdge s t) :
    g.Critical p b ↔ f.Critical p b ∧ ¬(p = s ∧ b = t) := by
  simp only [critical_iff_not_clear]
  constructor
  · rintro ⟨hedge, hnot⟩
    rcases hg.hasEdge_cases hedge with ⟨rfl, -⟩ | ⟨-, rfl⟩ | ⟨hedge, hne⟩
    · exact absurd (hg.clear_mid b) hnot
    · -- the new block has one predecessor
      refine absurd (fun pb bb _ hbb => ?_) hnot
      rw [hg.block?_mid, Option.some.injEq] at hbb
      exact hbb ▸ Or.inr (le_refl 1)
    · obtain ⟨pb, hpb, -⟩ := id hedge
      obtain ⟨bb, hbb⟩ := hl.target_exists hedge
      rw [hg.clear_iff hl he (hasBlock_of_block? hpb)
        (hasBlock_of_block? hbb)] at hnot
      exact ⟨⟨hedge, hnot⟩, hne⟩
  · rintro ⟨⟨hedge, hnot⟩, hne⟩
    obtain ⟨pb, hpb, -⟩ := id hedge
    obtain ⟨bb, hbb⟩ := hl.target_exists hedge
    rw [← hg.clear_iff hl he (hasBlock_of_block? hpb)
      (hasBlock_of_block? hbb)] at hnot
    exact ⟨hg.hasEdge hedge hne, hnot⟩

-- ================================================================= relays

/-- Every source block of a phi changed by `m`. -/
def mapSources (m : BlockId → BlockId) : Instr → Instr
  | .phi d t ss => .phi d t (ss.map fun s => { s with block := m s.block })
  | i => i

/-- The new block on an edge; `old` if the edge was not split. -/
def via (pairs : List (Edge × BlockId)) (e : Edge) (old : BlockId) : BlockId :=
  (pairs.lookup e).getD old

/-- A block when edges were split: it reaches and is reached through the new
blocks. -/
def relayedBlock (pairs : List (Edge × BlockId)) (c : BlockId) (blk : Block)
    (preds : List BlockId) : Block :=
  { blk with
    term := blk.term.map (·.mapTargets fun t => via pairs ⟨c, t⟩ t)
    instrs := blk.instrs.map (mapSources fun p => via pairs ⟨p, c⟩ p)
    preds }

/-- The function `g` is `f` with new blocks on some of its edges, numbered on
from the blocks that were there. -/
structure Relayed (f g : Func) (pairs : List (Edge × BlockId)) : Prop where
  header : f.SameHeader g
  length : g.blocks.length = f.blocks.length + pairs.length
  places : pairs.map Prod.snd
    = (List.range' f.blocks.length pairs.length).map Int.ofNat
  relay : ∀ e n, (e, n) ∈ pairs → g.block? n = some (midBlock e.source e.target)
  block : ∀ c blk, f.block? c = some blk →
    ∃ ps, g.block? c = some (relayedBlock pairs c blk ps)
    ∧ ps.Perm (blk.preds.map fun p => via pairs ⟨p, c⟩ p)

/-- The same up to the predecessor lists. -/
structure Rerouted (f g : Func) (pairs : List (Edge × BlockId)) : Prop where
  header : f.SameHeader g
  length : g.blocks.length = f.blocks.length + pairs.length
  places : pairs.map Prod.snd
    = (List.range' f.blocks.length pairs.length).map Int.ofNat
  relay : ∀ e n, (e, n) ∈ pairs → g.block? n = some (midBlock e.source e.target)
  block : ∀ c blk, f.block? c = some blk →
    ∃ ps, g.block? c = some (relayedBlock pairs c blk ps)

/-- A function whose edges are relayed has them rerouted. -/
theorem Relayed.rerouted (h : Relayed f g pairs) : Rerouted f g pairs := by
  refine ⟨h.header, h.length, h.places, h.relay, fun c blk hc => ?_⟩
  obtain ⟨ps, hps, -⟩ := h.block c blk hc
  exact ⟨ps, hps⟩

-- Renaming blocks by a map, and one block more.
theorem mapSources_id (i : Instr) : mapSources (fun b => b) i = i := by
  cases i <;> simp [mapSources]

theorem renameSource_mapSources (m : BlockId → BlockId) (i : Instr) :
    renameSource s n (mapSources m i) = mapSources
      (fun b => if m b = s then n else m b) i := by
  cases i with
  | phi d t ss =>
      simp only [mapSources, renameSource, List.map_map]
      refine congrArg (Instr.phi d t) (List.map_congr_left fun x _ => ?_)
      simp only [Function.comp_apply]
      split <;> rfl
  | _ => rfl

theorem mapTargets_id (x : Terminator) : x.mapTargets (fun b => b) = x := by
  cases x <;> rfl

theorem redirect_mapTargets (m : BlockId → BlockId) (x : Terminator) :
    (x.mapTargets m).redirect t n = x.mapTargets fun b => if m b
      = t then n else m b := by
  cases x <;> rfl

/-- An edge that was split has its new block, another one stays. -/
theorem via_cases (pairs : List (Edge × BlockId)) (e : Edge) :
    (∃ n, (e, n) ∈ pairs ∧ ∀ old, via pairs e old = n)
      ∨ (e ∉ pairs.map Prod.fst ∧ ∀ old, via pairs e old = old) := by
  unfold via
  cases hm : pairs.lookup e with
  | none =>
      refine Or.inr ⟨fun he => ?_, fun _ => rfl⟩
      obtain ⟨x, hx, rfl⟩ := List.mem_map.mp he
      simpa using List.lookup_eq_none_iff.mp hm x hx
  | some n =>
      obtain ⟨l₁, l₂, rfl, -⟩ := List.lookup_eq_some_iff.mp hm
      exact Or.inl ⟨n, List.mem_append_right _ List.mem_cons_self, fun _ => rfl⟩

/-- One edge more. -/
theorem via_append {e e' : Edge} (hfresh : e ∉ pairs.map Prod.fst) :
    via (pairs ++ [(e, n)]) e' b = if e' = e then n else via pairs e' b := by
  rw [via, List.lookup_append]
  by_cases hee : e' = e
  · have hnone : pairs.lookup e' = none := by
      rw [List.lookup_eq_none_iff]
      intro x hx
      rw [bne_iff_ne, hee]
      rintro rfl
      exact hfresh (List.mem_map_of_mem hx)
    rw [if_pos hee, hnone, Option.none_or, hee,
      List.lookup_cons_self, Option.getD_some]
  · have hnone : [(e, n)].lookup e' = none := by
      rw [List.lookup_eq_none_iff]
      simpa using hee
    rw [if_neg hee, hnone, Option.or_none, via]

/-- To put the new block on the edge `e t` is to put it where the edges `e` lead
to `t`, which is not a new block. -/
theorem via_append_eq_ite {e : BlockId → Edge} (he : e.Injective)
    (hfresh : e t ∉ pairs.map Prod.fst)
    (hold : t ∉ pairs.map Prod.snd) (b : BlockId) :
    via (pairs ++ [(e t, n)]) (e b) b = if via pairs
      (e b) b = t then n else via pairs (e b) b := by
  rw [via_append hfresh]
  by_cases hb : b = t
  · have hnone : pairs.lookup (e b) = none := by
      rw [List.lookup_eq_none_iff]
      intro x hx
      rw [bne_iff_ne, hb]
      intro hex
      exact hfresh (hex ▸ List.mem_map_of_mem hx)
    rw [if_pos (congrArg e hb), if_pos (by rw [via, hnone]; exact hb)]
  · rw [if_neg fun heq => hb (he heq), if_neg]
    unfold via
    cases hm : pairs.lookup (e b) with
    | none => exact hb
    | some m =>
        obtain ⟨l₁, l₂, rfl, -⟩ := List.lookup_eq_some_iff.mp hm
        rintro rfl
        exact hold (List.mem_map.mpr ⟨_,
          List.mem_append_right _ List.mem_cons_self, rfl⟩)

/-- A block that was told by some pairs is told by one more after the edge was
split, up to its predecessor list. -/
theorem splitBlock_relayedBlock {blk : Block} {ps : List BlockId}
    (hfresh : ⟨s, t⟩ ∉ pairs.map Prod.fst) (hs : s ∉ pairs.map Prod.snd)
    (ht : t ∉ pairs.map Prod.snd) :
    splitBlock s t n c (relayedBlock pairs c blk ps)
      = relayedBlock (pairs ++ [(⟨s, t⟩, n)]) c blk
        (splitBlock s t n c (relayedBlock pairs c blk ps)).preds := by
  have hterm : (splitBlock s t n c (relayedBlock pairs c blk ps)).term
      = blk.term.map (·.mapTargets fun u =>
      via (pairs ++ [(⟨s, t⟩, n)]) ⟨c, u⟩ u) := by
    simp only [splitBlock, relayedBlock]
    by_cases hc : c = s
    · subst hc
      rw [if_pos rfl, Option.map_map]
      refine congrArg (blk.term.map ·) (funext fun x => ?_)
      rw [Function.comp_apply, redirect_mapTargets]
      refine congrArg x.mapTargets (funext fun u => ?_)
      exact (via_append_eq_ite (e := fun u => ⟨c, u⟩)
        (fun _ _ h => (Edge.mk.inj h).2) hfresh ht u).symm
    · rw [if_neg hc]
      refine congrArg (blk.term.map ·)
        (funext fun x => congrArg x.mapTargets (funext fun u => ?_))
      rw [via_append hfresh, if_neg fun h => hc (Edge.mk.inj h).1]
  have hinstrs : (splitBlock s t n c (relayedBlock pairs c blk ps)).instrs
      = blk.instrs.map (mapSources fun p =>
      via (pairs ++ [(⟨s, t⟩, n)]) ⟨p, c⟩ p) := by
    simp only [splitBlock, relayedBlock]
    by_cases hc : c = t
    · subst hc
      rw [if_pos rfl, List.map_map]
      refine List.map_congr_left fun i _ => ?_
      rw [Function.comp_apply, renameSource_mapSources]
      refine congrArg (mapSources · i) (funext fun p => ?_)
      exact (via_append_eq_ite (e := fun p => ⟨p, c⟩)
        (fun _ _ h => (Edge.mk.inj h).1) hfresh hs p).symm
    · rw [if_neg hc]
      refine List.map_congr_left fun i _ =>
        congrArg (mapSources · i) (funext fun p => ?_)
      rw [via_append hfresh, if_neg fun h => hc (Edge.mk.inj h).2]
  conv_rhs => rw [relayedBlock, ← hterm, ← hinstrs]
  rfl

/-- In the predecessor list of a block the new block comes for the source of the
edge. -/
theorem perm_listed {ps qs : List BlockId}
    (hperm : ps.Perm (qs.map fun p => via pairs ⟨p, c⟩ p)) (hnd : qs.Nodup)
    (hs : s ∈ qs) (hfresh : ⟨s, c⟩ ∉ pairs.map Prod.fst) (hn : n ∉ ps) :
    (listed n (ps.erase s)).Perm
    (qs.map fun p => via (pairs ++ [(⟨s, c⟩, n)]) ⟨p, c⟩ p) := by
  have hsplit : via (pairs ++ [(⟨s, c⟩, n)]) ⟨s, c⟩ s = n := by
    rw [via_append hfresh, if_pos rfl]
  have hunsplit : via pairs ⟨s, c⟩ s = s := by
    rw [via, List.lookup_eq_none_iff.mpr, Option.getD_none]
    intro x hx
    rw [bne_iff_ne]
    rintro heq
    exact hfresh (heq ▸ List.mem_map_of_mem hx)
  have hrest : (qs.erase s).map (fun p => via (pairs ++ [(⟨s, c⟩, n)]) ⟨p, c⟩ p)
      = (qs.erase s).map fun p => via pairs ⟨p, c⟩ p := by
    refine List.map_congr_left fun p hp => ?_
    rw [via_append hfresh, if_neg fun h =>
      ((hnd.mem_erase_iff).mp hp).1 (Edge.mk.inj h).1]
  have hfront := List.perm_cons_erase hs
  have hold :
      (ps.erase s).Perm ((qs.erase s).map fun p => via pairs ⟨p, c⟩ p) := by
    have := (hperm.trans (hfront.map _)).erase s
    rwa [List.map_cons, hunsplit, List.erase_cons_head] at this
  have hnew := hfront.map fun p => via (pairs ++ [(⟨s, c⟩, n)]) ⟨p, c⟩ p
  rw [List.map_cons, hsplit, hrest] at hnew
  rw [listed, if_neg fun hmem => hn (List.mem_of_mem_erase hmem)]
  exact (List.perm_append_singleton n _).trans ((hold.cons n).trans hnew.symm)

/-- Before any edge is split a block is as it is. -/
theorem relayedBlock_nil (c : BlockId) (blk : Block) :
    relayedBlock [] c blk blk.preds = blk := by
  have hterm : blk.term.map (·.mapTargets fun t => via [] ⟨c, t⟩ t)
      = blk.term :=
    (congrArg (blk.term.map ·) (funext mapTargets_id)).trans Option.map_id'
  have hinstrs : blk.instrs.map (mapSources fun p => via [] ⟨p, c⟩ p)
      = blk.instrs :=
    (List.map_congr_left fun i _ => mapSources_id i).trans (List.map_id' _)
  rw [relayedBlock, hterm, hinstrs]

namespace Rerouted

/-- No edge is split yet. -/
theorem refl (f : Func) : Rerouted f f [] :=
  ⟨.refl f, rfl, rfl, fun e n hmem => absurd hmem List.not_mem_nil,
    fun c blk hc => ⟨blk.preds, by rw [hc, relayedBlock_nil]⟩⟩

/-- A new block is one of the numbers from the old length on. -/
theorem place (h : Rerouted f g pairs) (hn : n ∈ pairs.map Prod.snd) :
    ∃ i : Nat, n = i ∧ f.blocks.length ≤ i ∧ i < g.blocks.length := by
  rw [h.places] at hn
  obtain ⟨i, hi, rfl⟩ := List.mem_map.mp hn
  rw [List.mem_range'_1, ← h.length] at hi
  exact ⟨i, rfl, hi⟩

/-- The blocks put on edges are new ones. -/
theorem not_place (h : Rerouted f g pairs) (hb : f.hasBlock b = true) :
    b ∉ pairs.map Prod.snd := by
  intro hmem
  obtain ⟨i, rfl, hi, -⟩ := h.place hmem
  obtain ⟨j, hj, hlt⟩ := hasBlock_iff.mp hb
  rw [Int.ofNat_inj] at hj
  omega

/-- A block was there before or is a new one. -/
theorem hasBlock_cases (h : Rerouted f g pairs) (hb : g.hasBlock b = true) :
    f.hasBlock b = true ∨ b ∈ pairs.map Prod.snd := by
  obtain ⟨i, rfl, hi⟩ := hasBlock_iff.mp hb
  by_cases hlt : i < f.blocks.length
  · exact Or.inl (hasBlock_iff.mpr ⟨i, rfl, hlt⟩)
  · refine Or.inr ?_
    rw [h.places]
    refine List.mem_map_of_mem (List.mem_range'_1.mpr ?_)
    rw [h.length] at hi
    exact ⟨Nat.le_of_not_lt hlt, hi⟩

/-- One edge more is split, which runs between blocks that were there. -/
theorem split (h : Rerouted f g pairs) (hs : f.hasBlock s = true)
    (ht : f.hasBlock t = true) (hfresh : Edge.mk s t ∉ pairs.map Prod.fst)
    {k : Func} (hk : g.SplitOf k s t) :
    Rerouted f k (pairs ++ [(Edge.mk s t, (g.blocks.length : BlockId))]) := by
  have hs := h.not_place hs
  have ht := h.not_place ht
  refine ⟨h.header.trans hk.header, ?_, ?_, fun e n hmem => ?_,
    fun c blk hc => ?_⟩
  · rw [hk.length, h.length, List.length_append,
      List.length_singleton, Nat.add_assoc]
  · rw [List.map_append, h.places, List.length_append, List.length_singleton,
      List.range'_1_concat, List.map_append, ← h.length]
    rfl
  · rcases List.mem_append.mp hmem with hmem | hnew
    · have hmid := hk.block?_old (h.relay e n hmem)
      have hplace : n ∈ pairs.map Prod.snd := List.mem_map_of_mem hmem
      have hns : n ≠ s := fun heq => hs (heq ▸ hplace)
      have hnt : n ≠ t := fun heq => ht (heq ▸ hplace)
      rwa [splitBlock, if_neg hns, if_neg hnt, if_neg hnt] at hmid
    · obtain ⟨rfl, rfl⟩ := Prod.mk.inj (List.mem_singleton.mp hnew)
      exact hk.block?_mid
  · obtain ⟨ps, hps⟩ := h.block c blk hc
    have hold := hk.block?_old hps
    rw [splitBlock_relayedBlock hfresh hs ht] at hold
    exact ⟨_, hold⟩

/-- The targets of a block, told by the pairs. -/
theorem hasEdge_iff (h : Rerouted f g pairs) {blk : Block}
    (hc : f.block? c = some blk) :
    g.HasEdge c n ↔ ∃ u ∈ blk.targets, via pairs ⟨c, u⟩ u = n := by
  obtain ⟨ps, hps⟩ := h.block c blk hc
  have htargets : n ∈ (relayedBlock pairs c blk ps).targets
      ↔ ∃ u ∈ blk.targets, via pairs ⟨c, u⟩ u = n := by
    simp only [Block.targets, relayedBlock]
    cases blk.term with
    | none => simp [targetsOf]
    | some x => exact Terminator.mem_targets_mapTargets
  rw [← htargets]
  constructor
  · rintro ⟨cb, hcb, hn⟩
    rw [hps, Option.some.injEq] at hcb
    exact hcb ▸ hn
  · exact fun hn => ⟨_, hps, hn⟩

/-- A critical edge runs between blocks that were there and was not split
before. -/
theorem of_critical (h : Rerouted f g pairs) (hf : f.Linked)
    (hc : g.Critical s t) :
    f.hasBlock s = true ∧ f.hasBlock t = true
        ∧ Edge.mk s t ∉ pairs.map Prod.fst := by
  obtain ⟨sb, tb, hsb, htb, hst, hs1, ht1⟩ := hc
  have hmid {n : BlockId} (hn : n ∈ pairs.map Prod.snd) :
      ∃ e : Edge, g.block? n = some (midBlock e.source e.target) := by
    obtain ⟨⟨e, n⟩, hx, rfl⟩ := List.mem_map.mp hn
    exact ⟨e, h.relay e n hx⟩
  have hs : f.hasBlock s = true := by
    refine (h.hasBlock_cases (hasBlock_of_block? hsb)).resolve_right fun hn =>
      ?_
    obtain ⟨e, he⟩ := hmid hn
    rw [hsb, Option.some.injEq] at he
    rw [he, midBlock_targets, List.length_singleton] at hs1
    exact absurd hs1 (lt_irrefl 1)
  have ht : f.hasBlock t = true := by
    refine (h.hasBlock_cases (hasBlock_of_block? htb)).resolve_right fun hn =>
      ?_
    obtain ⟨e, he⟩ := hmid hn
    rw [htb, Option.some.injEq] at he
    rw [he, midBlock_preds, List.length_singleton] at ht1
    exact absurd ht1 (lt_irrefl 1)
  refine ⟨hs, ht, fun hmem => ?_⟩
  obtain ⟨blk, hblk⟩ := block?_of_hasBlock hf.full hs
  obtain ⟨u, -, hu⟩ := (h.hasEdge_iff hblk).mp ⟨sb, hsb, hst⟩
  rcases via_cases pairs ⟨s, u⟩ with ⟨n, hplace, hvia⟩ | ⟨hnot, hself⟩
  · rw [hvia] at hu
    exact h.not_place ht (hu ▸ List.mem_map_of_mem hplace)
  · rw [hself] at hu
    exact hnot (hu ▸ hmem)

end Rerouted

namespace Relayed

/-- No edge is split yet. -/
theorem refl (f : Func) : Relayed f f [] := by
  refine ⟨.refl f, rfl, rfl, fun e n hmem => absurd hmem List.not_mem_nil,
    fun c blk hc => ?_⟩
  exact ⟨blk.preds, by rw [hc, relayedBlock_nil], .of_eq (List.map_id' _).symm⟩

/-- The new blocks are different ones, and none was there before. -/
theorem places_nodup (h : Relayed f g pairs) : (pairs.map Prod.snd).Nodup := by
  rw [h.places]
  exact List.Nodup.map (fun _ _ hij => Int.ofNat_inj.mp hij) List.nodup_range'

/-- Their numbers were not in use, and are now. -/
theorem hasBlock_place (h : Relayed f g pairs) (hn : n ∈ pairs.map Prod.snd) :
    f.hasBlock n = false ∧ g.hasBlock n = true := by
  refine ⟨?_, ?_⟩
  · rw [Bool.eq_false_iff]
    exact fun hb => h.rerouted.not_place hb hn
  · obtain ⟨i, rfl, -, hi⟩ := h.rerouted.place hn
    exact hasBlock_iff.mpr ⟨i, rfl, hi⟩

/-- One edge more is split, which runs between blocks that were there. -/
theorem split (h : Relayed f g pairs) (hf : f.Linked)
    (hd : f.PredsDistinct) (hg : g.Linked) (he : f.HasEdge s t)
    (hfresh : Edge.mk s t ∉ pairs.map Prod.fst) {k : Func}
    (hk : g.SplitOf k s t) :
    Relayed f k (pairs ++ [(Edge.mk s t, (g.blocks.length : BlockId))]) := by
  obtain ⟨tb, htb⟩ := hf.target_exists he
  obtain ⟨sb, hsb, -⟩ := id he
  have hs := hasBlock_of_block? hsb
  have ht := hasBlock_of_block? htb
  have hrest := h.rerouted.split hs ht hfresh hk
  refine ⟨hrest.header, hrest.length, hrest.places, hrest.relay,
    fun c blk hc => ?_⟩
  obtain ⟨ps, hps, hperm⟩ := h.block c blk hc
  have hold := hk.block?_old hps
  rw [splitBlock_relayedBlock hfresh (h.rerouted.not_place hs)
    (h.rerouted.not_place ht)] at hold
  refine ⟨_, hold, ?_⟩
  by_cases hct : c = t
  · subst hct
    have hlisted :
        (splitBlock s c g.blocks.length c (relayedBlock pairs c blk ps)).preds
        = listed g.blocks.length (ps.erase s) := if_pos rfl
    rw [hlisted]
    exact perm_listed hperm (hd c blk hc) (hf.mem_preds he hc) hfresh
      (hg.length_not_mem_preds hps)
  · have hsame :
        (splitBlock s t g.blocks.length c (relayedBlock pairs c blk ps)).preds
        = ps :=
      if_neg hct
    rw [hsame]
    refine hperm.trans (.of_eq (List.map_congr_left fun p _ => ?_))
    rw [via_append hfresh, if_neg fun h => hct (Edge.mk.inj h).2]

end Relayed

-- ============================================================ all of them

/-- While the critical edges of `f` are split: those in `rest` are the ones that
are left. -/
structure Splitting (f : Func) (P : Func → Prop) (es rest : List Edge)
    (pairs : List (Edge × BlockId)) (g : Func) : Prop where
  wellFormed : g.WellFormed
  distinct : g.PredsDistinct
  relayed : Relayed f g pairs
  turns : pairs.map Prod.fst ++ rest = es
  critical : ∀ e, e ∈ rest ↔ g.Critical e.source e.target
  stable : P g

/-- The next edge is split. -/
theorem Splitting.step {P : Func → Prop} {es rest : List Edge} {e : Edge}
    (h : Splitting f P es (e :: rest) pairs g) (hstable : SplitStable P)
    (hf : f.WellFormed) (hd : f.PredsDistinct) (hnd : es.Nodup)
    (hes : ∀ e ∈ es, f.Critical e.source e.target) :
    ∃ k, g.splitEdge e.source e.target = .ok ((g.blocks.length : Int), k)
      ∧ Splitting f P es rest (pairs ++ [(e, (g.blocks.length : Int))]) k := by
  have hedge := ((h.critical e).mp List.mem_cons_self).hasEdge
  obtain ⟨sb, hsb, hts⟩ := id hedge
  obtain ⟨tb, htb⟩ := h.wellFormed.target_exists hsb hts
  obtain ⟨k, hk, hsplit⟩ := splitEdge_splitOf hsb htb
  obtain ⟨hkwf, hkd⟩ := hsplit.wellFormed h.wellFormed h.distinct hedge
  have hcrit : e ∈ es := h.turns ▸ List.mem_append_right _ List.mem_cons_self
  obtain ⟨-, hlater, hother⟩ :=
    List.nodup_append.mp (h.turns ▸ hnd :
        (pairs.map Prod.fst ++ e :: rest).Nodup)
  refine ⟨k, hk, hkwf, hkd, ?_, ?_, fun e' => ?_,
    hstable _ _ _ _ h.stable h.wellFormed.linked hedge hsplit⟩
  · have hfresh : e ∉ pairs.map Prod.fst :=
      fun he => hother e he e List.mem_cons_self rfl
    exact h.relayed.split hf.linked hd h.wellFormed.linked
      (hes e hcrit).hasEdge hfresh hsplit
  · rw [← h.turns, List.map_append, List.append_assoc]
    rfl
  · have hsame : e' = e ↔ e'.source = e.source ∧ e'.target = e.target := by
      cases e
      cases e'
      rw [Edge.mk.injEq]
    rw [hsplit.critical_iff h.wellFormed.linked hedge, ← h.critical,
      ← hsame, List.mem_cons]
    constructor
    · intro he'
      refine ⟨Or.inr he', ?_⟩
      rintro rfl
      exact (List.nodup_cons.mp hlater).1 he'
    · rintro ⟨he', hne⟩
      exact he'.resolve_left hne

/-- Splitting the critical edges splits each of them and leaves none. -/
theorem splitCriticalEdges_spec {P : Func → Prop}
    (hstable : SplitStable P) (hP : P f) (hf : f.WellFormed)
    (hd : f.PredsDistinct) :
    ∃ es pairs g, f.splitCriticalEdges = .ok (pairs, g)
        ∧ Splitting f P es [] pairs g
      ∧ es.Nodup ∧ ∀ e, e ∈ es ↔ f.Critical e.source e.target := by
  obtain ⟨es, hes, hnd, hmem⟩ := criticalEdges_eq_ok hf
  obtain ⟨⟨pairs, g⟩, hr, hend⟩ := foldlM_steps (ε := Halted Func)
    (g := fun (x : List (Edge × BlockId) × Func) (e : Edge) => do
      let r ← x.2.splitEdge e.source e.target
      return (x.1 ++ [(e, r.1)], r.2))
    (fun rest x => Splitting f P es rest x.1 x.2)
    (fun x e rest hx => by
      obtain ⟨k, hk, hnext⟩ :=
        hx.step hstable hf hd hnd fun e he => (hmem e).mp he
      refine ⟨(x.1 ++ [(e, (x.2.blocks.length : Int))], k), ?_, hnext⟩
      rw [hk]
      rfl)
    es ([], f) ⟨hf, hd, .refl f, rfl, hmem, hP⟩
  refine ⟨es, pairs, g, ?_, hend, hnd, hmem⟩
  rw [splitCriticalEdges, hes, given_ok, ok_bind]
  exact hr

/-- Where no edge is critical, nothing is split. -/
theorem splitCriticalEdges_of_none (hf : f.WellFormed)
    (hnone : ∀ p b, ¬ f.Critical p b) : f.splitCriticalEdges = .ok ([], f) := by
  obtain ⟨es, hes, -, hmem⟩ := criticalEdges_eq_ok hf
  have hnil : es = [] := List.eq_nil_iff_forall_not_mem.mpr fun e he =>
    hnone _ _ ((hmem e).mp he)
  rw [splitCriticalEdges, hes, given_ok, ok_bind, hnil]
  rfl

-- ==================================================================== runs

/-- Calls answer the same over splits of a function of the module. -/
theorem answers_stable {m : Module} {i : Nat} (hf : m.func? i = some f) :
    SplitStable fun g => ∀ k xs w n vs w', Answers m .none k xs w n vs w' →
      ∃ n', Answers (m.setFunc i g) .none k xs w n' vs w' := by
  intro g h s t hg hl _ hsplit k xs w n vs w' ha
  obtain ⟨n₁, ha₁⟩ := hg k xs w n vs w' ha
  have hothers (j : FuncId) (hj : j ≠ i) :
      (m.setFunc i h).func? j = (m.setFunc i g).func? j := by
    rw [Module.func?_setFunc_of_ne hj, Module.func?_setFunc_of_ne hj]
  exact (hsplit.simulation_of_promise hl (Module.func?_setFunc_self hf)
    (Module.func?_setFunc_self hf) hothers (fun _ _ _ => trivial)
    fun _ _ _ _ _ => trivial).answers ha₁

/-- Splitting the critical edges of a valid function with distinct predecessors.
The edges that are split are the critical ones, each has a new block of its own,
with nothing in it but the way from the source to the target, and no edge is
critical afterwards. The function is still valid and the rest of it is the same
(`Relayed`); to do it again changes nothing. A call of the module that answered
answers the same with enough steps, and leaves the same memory and trace. -/
theorem splitCriticalEdges_keeps_answers {m : Module} {i : Nat}
    (hf : m.func? i = some f) (hvalid : f.validate = .ok ())
    (hd : f.PredsDistinct) : ∃ pairs g, f.splitCriticalEdges = .ok (pairs, g)
      ∧ (∀ p b, ¬ g.Critical p b)
      ∧ g.validate = .ok () ∧ g.PredsDistinct
      ∧ (pairs.map Prod.fst).Nodup
      ∧ (∀ e, e ∈ pairs.map Prod.fst ↔ f.Critical e.source e.target)
      ∧ (pairs.map Prod.snd).Nodup
      ∧ (∀ n ∈ pairs.map Prod.snd, f.hasBlock n = false ∧ g.hasBlock n = true)
      ∧ Relayed f g pairs
      ∧ g.splitCriticalEdges = .ok ([], g)
      ∧ ∀ name args s r s', call m name args s = .ok r s' →
        ∃ steps : Int, ∀ limit ≥ steps, ∃ t,
          call (m.setFunc i g) name args { s with limit } = .ok r t
          ∧ t.memory = s'.memory ∧ t.trace = s'.trace := by
  have hwf := validate_eq_ok_iff.mp hvalid
  obtain ⟨es, pairs, g, hrun, hend, hnd, hmem⟩ :=
    splitCriticalEdges_spec (answers_stable hf)
    (fun k xs w n vs w' ha => ⟨n, by rwa [Module.setFunc_self hf]⟩) hwf hd
  have hkeys : pairs.map Prod.fst = es := by rw [← hend.turns, List.append_nil]
  have hnone (p b : BlockId) : ¬ g.Critical p b := fun hc =>
    List.not_mem_nil ((hend.critical ⟨p, b⟩).mpr hc)
  refine ⟨pairs, g, hrun, hnone, validate_eq_ok_iff.mpr hend.wellFormed,
    hend.distinct, hkeys ▸ hnd,
    hkeys ▸ hmem, hend.relayed.places_nodup,
      fun n hn => hend.relayed.hasBlock_place hn, hend.relayed,
    splitCriticalEdges_of_none hend.wellFormed hnone, ?_⟩
  intro name args s r s' hcall
  obtain ⟨k, vs, n, hk, rfl, ha, -⟩ := call_answers hcall
  obtain ⟨n', ha'⟩ := hend.stable k _ _ n vs _ ha
  exact ha'.call_in_time
    ((Module.lookup_setFunc hf hend.relayed.header.name name).trans hk)

/-- A loop of one block that is entered and left by critical edges only, with
phis on both sides; there is one more such edge from the entry to the exit. -/
def tightLoop : Func := Sample.build "tight_loop" [.felt] do
  let c ← Sample.param
  let loop ← Draft.block "loop"
  let exit ← Draft.block "exit"
  Draft.branch (.value c) loop exit
  Draft.setBlock loop
  let i ← Sample.feltPhi [(0, .int 3)]
  let i2 ← Draft.binary .sub (.value i) (.value c)
  Draft.branch (.value i2) loop exit
  let _ ← Draft.addPhiSource loop i ⟨loop, .value i2⟩
  Draft.setBlock exit
  let x ← Sample.feltPhi [(0, .int 0), (loop, .value i)]
  Draft.ret [.value x]

/-- All four edges of the loop are split, its back edge too, and it goes round
as before. -/
theorem splitCriticalEdges_keeps_answers_tightLoop :
    tightLoop.validate = .ok () ∧ tightLoop.PredsDistinct
    ∧ call ⟨[tightLoop]⟩ "tight_loop" [1] {} = .ok [1] { steps := 8 }
    ∧ ∃ pairs g, tightLoop.splitCriticalEdges = .ok (pairs, g)
      ∧ pairs = [(⟨0, 1⟩, 3), (⟨0, 2⟩, 4), (⟨1, 1⟩, 5), (⟨1, 2⟩, 6)]
      ∧ (∀ p b, ¬ g.Critical p b) ∧ g.validate = .ok ()
      ∧ ∃ steps : Int, ∀ limit ≥ steps, ∃ t,
        call ⟨[g]⟩ "tight_loop" [1] { limit } = .ok [1] t ∧ t.trace = [] := by
  have hvalid : tightLoop.validate = .ok () := rfl
  have hd : tightLoop.PredsDistinct := predsDistinct_iff.mpr (by decide)
  have hcall : call ⟨[tightLoop]⟩ "tight_loop" [1] {}
      = .ok [1] { steps := 8 } := rfl
  obtain ⟨pairs, g, hrun, hnone, hgvalid, -, -, -, -, -, -, -, hkeeps⟩ :=
    splitCriticalEdges_keeps_answers (m := ⟨[tightLoop]⟩) (i := 0) rfl hvalid hd
  obtain ⟨steps, hsteps⟩ := hkeeps _ _ _ _ _ hcall
  have hpairs : tightLoop.splitCriticalEdges.toOption.map Prod.fst
      = some [(⟨0, 1⟩, 3), (⟨0, 2⟩, 4), (⟨1, 1⟩, 5), (⟨1, 2⟩, 6)] := rfl
  rw [hrun] at hpairs
  refine ⟨hvalid, hd, hcall, pairs, g, hrun, Option.some.inj hpairs,
    hnone, hgvalid, steps, fun limit hlimit => ?_⟩
  obtain ⟨t, ht, -, htrace⟩ := hsteps limit hlimit
  exact ⟨t, ht, htrace⟩

end MirBackend.Func
