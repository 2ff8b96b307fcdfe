/-
Giving the copies of phis a place of their own.

Before phis become copies, the critical edges on which copies would go are
split. Each step splits one critical edge or leaves the function alone, so
whatever splitting a critical edge keeps, isolation keeps (`isolateAll_spec`).
At the end no source of a phi sits on a critical edge: splitting one edge leaves
the others as critical as they were, and the edge out of a new block never is.
-/
import Mathlib
import MirBackend.Pass.PhiRemoval
import MirBackend.Proofs.Func.Linked

namespace MirBackend.PhiRemoval

open Func

variable {f : Func}

-- ================================================================ sources

/-- Erasing repetitions leaves none. -/
theorem eraseDups_nodup (bs : List BlockId) : bs.eraseDups.Nodup := by
  induction hn : bs.length using Nat.strong_induction_on generalizing bs with
  | _ n ih =>
      cases bs with
      | nil => simp
      | cons a bs =>
          have hlt : (bs.filter fun b => !b == a).length < n := by
            rw [← hn, List.length_cons]
            exact Nat.lt_succ_of_le (List.length_filter_le _ _)
          rw [List.eraseDups_cons, List.nodup_cons, List.mem_eraseDups]
          exact ⟨by simp, ih _ hlt _ rfl⟩

/-- The blocks a list of phis names. -/
theorem mem_phiBlocks {is : List Instr} {p : BlockId} :
    p ∈ phiBlocks is ↔ ∃ d t ss, Instr.phi d t ss ∈ is
        ∧ ∃ s ∈ ss, s.block = p := by
  unfold phiBlocks
  rw [List.mem_flatMap]
  constructor
  · rintro ⟨i, hi, hp⟩
    cases i with
    | phi d t ss => exact ⟨d, t, ss, hi, List.mem_map.mp hp⟩
    | _ => cases hp
  · rintro ⟨d, t, ss, hi, hs⟩
    exact ⟨_, hi, List.mem_map.mpr hs⟩

/-- A block is the source of a phi in another. -/
def IsSource (f : Func) (p b : BlockId) : Prop :=
  ∃ blk, f.block? b = some blk ∧ p ∈ phiBlocks blk.instrs

/-- The copies of every phi of a block have a place of their own. -/
def Isolated (f : Func) (b : BlockId) : Prop :=
  ∀ p, IsSource f p b → f.Clear p b

/-- In a linked function a phi's source has an edge to its block. -/
theorem IsSource.hasEdge {p b : BlockId} (h : f.Linked) (hs : IsSource f p b) :
    f.HasEdge p b := by
  obtain ⟨blk, hb, hp⟩ := hs
  obtain ⟨d, t, ss, hphi, s, hs, rfl⟩ := mem_phiBlocks.mp hp
  exact h.source b blk hb d t ss hphi s hs

/-- Sources after a split: in the target the new block stands for the source. -/
theorem isSource_split {g : Func} {source target p b : BlockId}
    (hg : f.SplitOf g source target) (hs : IsSource g p b) :
    (b = target ∧ p = f.blocks.length) ∨ IsSource f p b := by
  obtain ⟨blk, hb, hp⟩ := hs
  obtain ⟨d, t, ss, hphi, s, hs, rfl⟩ := mem_phiBlocks.mp hp
  rcases hg.block?_cases hb with ⟨rfl, rfl⟩ | ⟨blk₀, hb₀, rfl⟩
  · simp [midBlock] at hphi
  · obtain ⟨j, hj, hjphi⟩ := mem_instrs_splitBlock.mp hphi
    split at hjphi
    · next hbt =>
      obtain ⟨ss₀, rfl, rfl⟩ := renameSource_eq_phi.mp hjphi
      obtain ⟨s₀, hs₀, rfl⟩ := List.mem_map.mp hs
      split
      · exact Or.inl ⟨hbt, rfl⟩
      · exact Or.inr ⟨blk₀, hb₀,
          mem_phiBlocks.mpr ⟨d, t, ss₀, hj, s₀, hs₀, rfl⟩⟩
    · subst hjphi
      exact Or.inr ⟨blk₀, hb₀, mem_phiBlocks.mpr ⟨d, t, ss, hj, s, hs, rfl⟩⟩

/-- After a split the source of the edge is no source in the target any more. -/
theorem not_isSource_split {g : Func} {source target : BlockId}
    (hg : f.SplitOf g source target) (hs : f.hasBlock source = true) :
    ¬ IsSource g source target := by
  have hne : (f.blocks.length : Int) ≠ source := by
    rintro rfl
    obtain ⟨i, hi, hlt⟩ := hasBlock_iff.mp hs
    rw [Nat.cast_inj] at hi
    omega
  rintro ⟨blk, hb, hp⟩
  obtain ⟨d, t, ss, hphi, s, hs, hsb⟩ := mem_phiBlocks.mp hp
  rcases hg.block?_cases hb with ⟨rfl, rfl⟩ | ⟨blk₀, hb₀, rfl⟩
  · simp [midBlock] at hphi
  · obtain ⟨j, hj, hjphi⟩ := mem_instrs_splitBlock.mp hphi
    rw [if_pos rfl] at hjphi
    obtain ⟨ss₀, rfl, rfl⟩ := renameSource_eq_phi.mp hjphi
    obtain ⟨s₀, hs₀, rfl⟩ := List.mem_map.mp hs
    split at hsb
    · exact hne hsb
    · next hsrc => exact hsrc hsb

-- =============================================================== one edge

/-- A property that splitting any edge keeps. -/
def SplitStable (P : Func → Prop) : Prop :=
  ∀ f g s t, P f → f.Linked → f.HasEdge s t → f.SplitOf g s t → P g

/-- A property that splitting a critical edge keeps. -/
def CriticalStable (P : Func → Prop) : Prop :=
  ∀ f g s t, P f → f.Linked → f.Critical s t → f.SplitOf g s t → P g

/-- What every split keeps, splitting critical edges keeps. -/
theorem SplitStable.critical {P : Func → Prop} (hP : SplitStable P) :
    CriticalStable P :=
  fun f g s t hf hl hc => hP f g s t hf hl hc.hasEdge

/-- Isolating an edge splits it if it is critical and leaves the function
otherwise; afterwards the edge, if it is still there, has room. -/
theorem isolate_spec (h : f.Linked) {p b : BlockId} (he : f.HasEdge p b) :
    ∃ g, isolate b f p = .ok g
        ∧ ((g = f ∧ f.Clear p b) ∨ (f.Critical p b ∧ f.SplitOf g p b)) := by
  obtain ⟨bb, hbb⟩ := h.target_exists he
  have hmem := h.mem_preds he hbb
  obtain ⟨pb, hpb, hbt⟩ := he
  have hguard : (f.hasBlock p && bb.hasPred p) = true := by
    rw [Bool.and_eq_true, Block.hasPred, decide_eq_true_eq]
    exact ⟨hasBlock_of_block? hpb, hmem⟩
  simp only [isolate, block_eq_ok.mpr hbb, given_ok, ok_bind, hguard, if_true,
    isCritical_eq_ok hpb hbb]
  by_cases hcrit : 1 < pb.targets.length ∧ 1 < bb.preds.length
  · obtain ⟨g, hg, hsplit⟩ := splitEdge_splitOf hpb hbb
    refine ⟨g, ?_, Or.inr ⟨⟨pb, bb, hpb, hbb, hbt, hcrit⟩, hsplit⟩⟩
    simp only [hcrit, and_self, decide_true, if_true, hg]
    rfl
  · refine ⟨f, by simp only [hcrit, decide_false]; rfl,
      Or.inl ⟨rfl, fun pb' bb' hpb' hbb' => ?_⟩⟩
    rw [hpb, Option.some.injEq] at hpb'
    rw [hbb, Option.some.injEq] at hbb'
    subst hpb' hbb'
    omega

-- ============================================================== all edges

/-- The state while the sources of block `b`, one of the first `n`, are
isolated: those in `rest` are edges to be looked at, the others have room, and
so do the sources of the blocks done. -/
structure Isolating (n : Nat) (done : List BlockId) (b : BlockId)
    (rest : List BlockId) (f : Func) : Prop where
  linked : f.Linked
  length : n ≤ f.blocks.length
  nodup : rest.Nodup
  edge : ∀ p ∈ rest, f.HasEdge p b
  source : ∀ p, IsSource f p b → p ∈ rest ∨ f.Clear p b
  isolated : ∀ c ∈ done, Isolated f c
  /-- Blocks added on the way have no phis. -/
  phisOld : ∀ p c, IsSource f p c → c < n

/-- Splitting the edge looked at keeps the state. -/
theorem Isolating.split {g : Func} {n : Nat}
    {done rest : List BlockId} {b p : BlockId}
    (h : Isolating n done b (p :: rest) f) (hg : f.SplitOf g p b)
    (hdone : b ∉ done) (hb : b < n) : Isolating n done b rest g := by
  have he := h.edge p List.mem_cons_self
  have hnd := List.nodup_cons.mp h.nodup
  have hroom {q c : BlockId} (hq : IsSource f q c) (hc : f.Clear q c) :
      g.Clear q c := by
    obtain ⟨qb, hqb, hct⟩ := hq.hasEdge h.linked
    obtain ⟨cb, hcb, -⟩ := h.linked.target q qb hqb c hct
    exact (hg.clear_iff h.linked he (hasBlock_of_block? hqb)
      (hasBlock_of_block? hcb)).mpr hc
  refine ⟨hg.linked h.linked he, ?_, hnd.2, fun q hq => ?_, fun q hq => ?_,
    fun c hc q hq => ?_, fun q c hq => ?_⟩
  · rw [hg.length]
    exact Nat.le_succ_of_le h.length
  · refine hg.hasEdge (h.edge q (List.mem_cons_of_mem _ hq)) ?_
    rintro ⟨rfl, -⟩
    exact hnd.1 hq
  · rcases isSource_split hg hq with ⟨-, rfl⟩ | hq'
    · exact Or.inr (hg.clear_mid b)
    · by_cases hqp : q = p
      · subst hqp
        obtain ⟨qb, hqb, -⟩ := he
        exact absurd hq (not_isSource_split hg (hasBlock_of_block? hqb))
      · rcases h.source q hq' with hmem | hclear
        · exact Or.inl ((List.mem_cons.mp hmem).resolve_left hqp)
        · exact Or.inr (hroom hq' hclear)
  · rcases isSource_split hg hq with ⟨rfl, -⟩ | hq'
    · exact absurd hc hdone
    · exact hroom hq' (h.isolated c hc q hq')
  · rcases isSource_split hg hq with ⟨rfl, -⟩ | hq'
    · exact hb
    · exact h.phisOld q c hq'

/-- Passing over an edge that has room keeps the state. -/
theorem Isolating.skip {n : Nat} {done rest : List BlockId} {b p : BlockId}
    (h : Isolating n done b (p :: rest) f) (hclear : f.Clear p b) :
    Isolating n done b rest f := by
  refine ⟨h.linked, h.length, (List.nodup_cons.mp h.nodup).2,
    fun q hq => h.edge q (List.mem_cons_of_mem _ hq), fun q hq => ?_,
    h.isolated, h.phisOld⟩
  rcases h.source q hq with hmem | hq
  · rcases List.mem_cons.mp hmem with rfl | hmem
    · exact Or.inr hclear
    · exact Or.inl hmem
  · exact Or.inr hq

variable {P : Func → Prop}

/-- Isolating the sources of one block. -/
theorem isolateSources_spec (hP : CriticalStable P) {n : Nat}
    {done : List BlockId} {b : BlockId} (hf : P f) (h : f.Linked)
    (hlen : n ≤ f.blocks.length) (hiso : ∀ c ∈ done, Isolated f c)
    (hold : ∀ p c, IsSource f p c → c < n) (hdone : b ∉ done) (hb : b < n)
    (hhere : f.hasBlock b = true) :
    ∃ g, isolateSources f b = .ok g ∧ P g ∧ Isolating n done b [] g := by
  obtain ⟨blk, hblk⟩ := block?_of_hasBlock h.full hhere
  have hstart : Isolating n done b (phiBlocks blk.instrs).eraseDups f := by
    refine ⟨h, hlen, eraseDups_nodup _, fun p hp => ?_,
      fun p hp => ?_, hiso, hold⟩
    · exact IsSource.hasEdge h ⟨blk, hblk, List.mem_eraseDups.mp hp⟩
    · obtain ⟨blk', hblk', hp⟩ := hp
      rw [hblk, Option.some.injEq] at hblk'
      exact Or.inl (List.mem_eraseDups.mpr (hblk' ▸ hp))
  have hstep : ∀ (f : Func) (p : BlockId) (rest : List BlockId),
      (P f ∧ Isolating n done b (p :: rest) f) →
      ∃ g, isolate b f p = .ok g ∧ P g ∧ Isolating n done b rest g := by
    rintro f p rest ⟨hf, h⟩
    have he := h.edge p List.mem_cons_self
    obtain ⟨g, hg, ⟨rfl, hclear⟩ | ⟨hcrit, hsplit⟩⟩ := isolate_spec h.linked he
    · exact ⟨g, hg, hf, h.skip hclear⟩
    · exact ⟨g, hg, hP f g p b hf h.linked hcrit hsplit,
        h.split hsplit hdone hb⟩
  obtain ⟨g, hg, hPg, hdoneg⟩ := foldlM_steps (ε := Halted Func)
    (fun rest f => P f ∧ Isolating n done b rest f) hstep _ f ⟨hf, hstart⟩
  refine ⟨g, ?_, hPg, hdoneg⟩
  rw [isolateSources, block_eq_ok.mpr hblk, given_ok, ok_bind]
  exact hg

/-- Isolating the sources of every block: what splitting keeps is kept, and at
the end every edge that needs copies has room for them. -/
theorem isolateAll_spec (hP : CriticalStable P) (hf : P f) (h : f.Linked) :
    ∃ g, ((List.range f.blocks.length).map Int.ofNat).foldlM isolateSources f
        = .ok g
      ∧ P g ∧ g.Linked ∧ ∀ b, Isolated g b := by
  obtain ⟨n, hn⟩ : ∃ n, n = f.blocks.length := ⟨_, rfl⟩
  have hstart : ∀ p c, IsSource f p c → c < n := by
    rintro p c ⟨blk, hc, -⟩
    obtain ⟨i, rfl, hi⟩ := hasBlock_iff.mp (hasBlock_of_block? hc)
    exact Int.ofNat_lt.mpr (hn ▸ hi)
  -- the blocks done are those below the next one
  have hloop : ∀ k ≤ n, ∃ g,
      ((List.range k).map Int.ofNat).foldlM isolateSources f = .ok g
      ∧ P g ∧ g.Linked ∧ n ≤ g.blocks.length
      ∧ (∀ c ∈ (List.range k).map Int.ofNat, Isolated g c)
      ∧ ∀ p c, IsSource g p c → c < n := by
    intro k
    induction k with
    | zero => exact fun _ => ⟨f, rfl, hf, h, hn.le, by simp, hstart⟩
    | succ k ih =>
        intro hk
        obtain ⟨g, hg, hPg, hlink, hlen, hiso, hold⟩ := ih (by omega)
        have hnot : Int.ofNat k ∉ (List.range k).map Int.ofNat := by simp
        obtain ⟨g', hg', hPg', hdone⟩ :=
          isolateSources_spec (b := Int.ofNat k) hP hPg hlink hlen
          hiso hold hnot (Int.ofNat_lt.mpr (by omega))
            (hasBlock_iff.mpr ⟨k, rfl, by omega⟩)
        refine ⟨g', ?_, hPg', hdone.linked, hdone.length,
          fun c hc => ?_, hdone.phisOld⟩
        · rw [List.range_succ, List.map_append, List.foldlM_append, hg, ok_bind]
          simp only [List.map_cons, List.map_nil,
            List.foldlM_cons, hg', ok_bind]
          rfl
        · rw [List.range_succ, List.map_append, List.mem_append] at hc
          rcases hc with hc | hc
          · exact hdone.isolated c hc
          · rw [List.map_singleton, List.mem_singleton] at hc
            subst hc
            exact fun p hp => (hdone.source p hp).resolve_left List.not_mem_nil
  obtain ⟨g, hg, hPg, hlink, -, hiso, hold⟩ := hloop n (Nat.le_refl n)
  refine ⟨g, hn ▸ hg, hPg, hlink, fun b p hp => ?_⟩
  obtain ⟨blk, hb, -⟩ := id hp
  obtain ⟨i, rfl, -⟩ := block?_eq_some_iff.mp hb
  have hi : i < n := Int.ofNat_lt.mp (hold p i hp)
  exact hiso i (List.mem_map.mpr ⟨i, List.mem_range.mpr hi, rfl⟩) p hp

end MirBackend.PhiRemoval
