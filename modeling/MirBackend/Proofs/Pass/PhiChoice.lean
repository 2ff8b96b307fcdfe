/-
Which source a phi takes.

A phi may name a predecessor more than once. Where control arrives on the edge,
the interpreter takes the first source that names it. Phi removal makes a copy
of each of them, and of the copies for one destination the last counts that is
not idle: so the assignments on the edge give the destination what the last
source holds (`run_takes_last`). The two agree where the sources do, in
particular where no predecessor is named twice.

Isolation may put a new block on the edge and rename the sources after it. A new
block is on one edge only, so the sources that name it are those that named the
predecessor, in their order (`sourcesFrom_via`).
-/
import Mathlib
import MirBackend.Proofs.Interp.Supply
import MirBackend.Proofs.Pass.CriticalEdges
import MirBackend.Proofs.Pass.PhiSemantics

namespace MirBackend

open Interp

-- ================================================================= rerouted

namespace Func

variable {f g : Func} {pairs : List (Edge × BlockId)} {b c p q : BlockId}

/-- The block that stands for the source of an edge stands for no other
source. -/
theorem Rerouted.eq_of_via_eq (h : Rerouted f g pairs)
    (hp : f.hasBlock p = true) (hq : f.hasBlock q = true)
    (heq : via pairs ⟨q, c⟩ q = via pairs ⟨p, b⟩ p) : q = p := by
  rcases via_cases pairs ⟨p, b⟩ with ⟨n, hpn, hpvia⟩ | ⟨-, hpself⟩ <;>
    rcases via_cases pairs ⟨q, c⟩ with ⟨m, hqm, hqvia⟩ | ⟨-, hqself⟩
  · -- both are new: the new block knows its edge
    rw [hpvia, hqvia] at heq
    have hmid := h.relay _ _ hpn
    rw [← heq, h.relay _ _ hqm, Option.some.injEq] at hmid
    simpa using congrArg Block.preds hmid
  · rw [hpvia, hqself] at heq
    exact absurd (heq ▸ List.mem_map_of_mem hpn) (h.not_place hq)
  · rw [hpself, hqvia] at heq
    exact absurd (heq ▸ List.mem_map_of_mem hqm) (h.not_place hp)
  · rwa [hpself, hqself] at heq

/-- A phi whose sources are renamed is a phi with its sources renamed. -/
theorem mem_mapSources {m : BlockId → BlockId} {is : List Instr}
    {d : ValueId} {t : Ty} {ss : List PhiSource} :
    .phi d t ss ∈ is.map (mapSources m) ↔ ∃ ss₀, .phi d t ss₀ ∈ is
      ∧ ss = ss₀.map fun s => { s with block := m s.block } := by
  rw [List.mem_map]
  constructor
  · rintro ⟨i, hi, heq⟩
    cases i with
    | phi d₀ t₀ ss₀ =>
        cases heq
        exact ⟨ss₀, hi, rfl⟩
    | _ => cases heq
  · rintro ⟨ss₀, hi, rfl⟩
    exact ⟨_, hi, rfl⟩

/-- A phi after some edges were split is one from before with other source
blocks. -/
theorem Rerouted.phi_cases (h : Rerouted f g pairs)
    (hf : f.Linked) {blk : Block} (hb : g.block? b = some blk) {d : ValueId}
    {t : Ty} {ss : List PhiSource} (hphi : .phi d t ss ∈ blk.instrs) :
    ∃ blk₀ ss₀, f.block? b = some blk₀ ∧ .phi d t ss₀ ∈ blk₀.instrs
      ∧ ss = ss₀.map fun s =>
      { s with block := via pairs ⟨s.block, b⟩ s.block } := by
  rcases h.hasBlock_cases (hasBlock_of_block? hb) with hold | hnew
  · obtain ⟨blk₀, hb₀⟩ := block?_of_hasBlock hf.full hold
    obtain ⟨ps, hps⟩ := h.block b blk₀ hb₀
    rw [hb, Option.some.injEq] at hps
    rw [hps] at hphi
    obtain ⟨ss₀, hphi₀, hss⟩ := mem_mapSources.mp hphi
    exact ⟨blk₀, ss₀, hb₀, hphi₀, hss⟩
  · -- a new block has no phis
    obtain ⟨⟨e, n⟩, hn, rfl⟩ := List.mem_map.mp hnew
    rw [h.relay e n hn, Option.some.injEq] at hb
    rw [← hb] at hphi
    cases hphi

end Func

namespace PhiRemoval

open Func ParallelCopy

variable {f g k : Func} {b p q : BlockId} {d : ValueId} {t : Ty}
  {ss : List PhiSource}

-- ================================================================== sources

/-- What a phi takes from a block, in the order of its sources. -/
def sourcesFrom (p : BlockId) (ss : List PhiSource) : List Operand :=
  (ss.filter (·.block = p)).map (·.value)

/-- The last of the sources that is not the value itself; the value itself if
they all are. -/
def lastTaken (d : ValueId) (os : List Operand) : Operand :=
  (os.filter (· ≠ .value d)).getLast?.getD (.value d)

/-- The values a phi lists for a block. -/
theorem mem_sourcesFrom {o : Operand} : o ∈ sourcesFrom p ss
    ↔ ∃ s ∈ ss, s.block = p ∧ s.value = o := by
  simp [sourcesFrom, and_assoc]

/-- The interpreter takes the first of them. -/
theorem head?_sourcesFrom :
    (sourcesFrom p ss).head? = (ss.find? (·.block = p)).map (·.value) := by
  rw [sourcesFrom, List.head?_map, List.head?_filter]

/-- Where the sources agree, the last one is like the first. -/
theorem look_lastTaken {fr : Frame} {os : List Operand} {o : Operand}
    (ho : os.head? = some o)
    (hsame : ∀ x ∈ os, ∀ y ∈ os, look fr x = look fr y) :
    look fr (lastTaken d os) = look fr o := by
  have hfirst : o ∈ os := List.mem_of_head? ho
  unfold lastTaken
  cases h : (os.filter (· ≠ .value d)).getLast? with
  | none =>
      -- the value itself is the only source
      have hnil :=
        List.filter_eq_nil_iff.mp (List.getLast?_eq_none_iff.mp h) o hfirst
      rw [Option.getD_none, show o = .value d by simpa using hnil]
  | some x =>
    exact hsame x (List.mem_filter.mp (List.mem_of_getLast? h)).1 o hfirst

/-- In the rerouted block the sources that name the new block are those that
named the old. -/
theorem sourcesFrom_via {pairs : List (Edge × BlockId)} (h : Rerouted f k pairs)
    (hp : f.hasBlock p = true) (hss : ∀ s ∈ ss, f.hasBlock s.block = true) :
    sourcesFrom (via pairs ⟨p, b⟩ p)
      (ss.map fun s => { s with block := via pairs ⟨s.block, b⟩ s.block })
      = sourcesFrom p ss := by
  rw [sourcesFrom, List.filter_map, List.map_map]
  have hfilter :
      ss.filter ((fun s : PhiSource => decide (s.block = via pairs ⟨p, b⟩ p))
      ∘ fun s => { s with block := via pairs ⟨s.block, b⟩ s.block })
        = ss.filter (·.block = p) := by
    refine List.filter_congr fun s hs => ?_
    rw [Function.comp_apply, decide_eq_decide]
    exact ⟨h.eq_of_via_eq hp (hss s hs), fun heq => by rw [heq]⟩
  rw [hfilter]
  rfl

-- ============================================================== interpreter

/-- Entering a block, a phi takes the first of its sources for the block control
comes from. -/
theorem phiLooks_first {fr : Frame} {is : List Instr}
    {ps : List (ValueId × Value)} (hall : ∀ i ∈ is, i.isPhi = true)
    (h : phiLooks fr p is = some ps) (hphi : .phi d t ss ∈ is) :
    ∃ x, (d, x) ∈ ps ∧ (sourcesFrom p ss).head?.bind (look fr) = some x := by
  induction is generalizing ps with
  | nil => cases hphi
  | cons i is ih =>
      cases i with
      | phi d₀ t₀ ss₀ =>
          rw [phiLooks_cons] at h
          obtain ⟨o, ho, h⟩ := Option.bind_eq_some_iff.mp h
          obtain ⟨x, hx, h⟩ := Option.bind_eq_some_iff.mp h
          obtain ⟨qs, hqs, rfl⟩ := Option.map_eq_some_iff.mp h
          rcases List.mem_cons.mp hphi with heq | hmem
          · cases heq
            refine ⟨x, List.mem_cons_self, ?_⟩
            rw [head?_sourcesFrom, ho, Option.bind_some, hx]
          · obtain ⟨y, hy, htaken⟩ :=
              ih (fun j hj => hall j (List.mem_cons_of_mem _ hj)) hqs hmem
            exact ⟨y, List.mem_cons_of_mem _ hy, htaken⟩
      | _ => cases hall _ List.mem_cons_self

/-- A run that enters a block sets each phi to the first value listed for where
it comes from. -/
theorem enterBlock_takes_first (hl : f.Linked)
    (hsa : f.SingleAssignment) {blk : Block} (hb : f.block? b = some blk)
    (hphi : .phi d t ss ∈ blk.instrs) {fr fr₁ : Frame} {s s' : Machine}
    (h : enterBlock fr blk p b s = .ok fr₁ s') :
    ∃ o x, (sourcesFrom p ss).head? = some o ∧ look fr o = some x
        ∧ fr₁[d]? = some x := by
  obtain ⟨⟨ps, hps, rfl⟩, -⟩ := enterBlock_ok_iff.mp h
  have hall : ∀ i ∈ blk.leadingPhis, i.isPhi = true :=
    fun i => Block.isPhi_of_mem_leadingPhis
  have hnd : (ps.map (·.1)).Nodup := by
    rw [(phiLooks_spec hall hps).1]
    exact (hsa.block_nodup hb).sublist ((List.takeWhile_sublist _).flatMap _)
  obtain ⟨x, hx, htaken⟩ :=
    phiLooks_first hall hps
      ((hl.phisLead b blk hb).mem_leadingPhis.mpr ⟨hphi, rfl⟩)
  obtain ⟨o, ho, hox⟩ := Option.bind_eq_some_iff.mp htaken
  exact ⟨o, x, ho, hox, getElem?_insertAll_of_mem hnd hx⟩

-- =================================================================== copies

/-- A phi's copies go to the value it defines. -/
theorem dest_of_mem_instrCopies {i : Instr}
    {x : BlockId × ValueId × Operand × Ty} (hx : x ∈ instrCopies i) :
    x.2.1 ∈ i.dests := by
  cases i with
  | phi d t ss =>
      obtain ⟨s, -, rfl⟩ := List.mem_map.mp hx
      exact List.mem_cons_self
  | _ => cases hx

/-- Where values are defined once, the copies for a destination are those of its
phi. -/
theorem filter_instrCopies {is : List Instr}
    (hnd : (is.flatMap Instr.dests).Nodup) (hphi : .phi d t ss ∈ is) :
    (is.flatMap instrCopies).filter (·.2.1 = d) = instrCopies
    (.phi d t ss) := by
  obtain ⟨before, after, rfl⟩ := List.append_of_mem hphi
  have hdests : (before ++ .phi d t ss :: after).flatMap Instr.dests
      = before.flatMap Instr.dests ++ d :: after.flatMap Instr.dests := by
    rw [List.flatMap_append, List.flatMap_cons]
    rfl
  rw [hdests, List.nodup_middle, List.nodup_cons,
    List.mem_append, not_or] at hnd
  have hnone {js : List Instr} (hd : d ∉ js.flatMap Instr.dests) :
      (js.flatMap instrCopies).filter (·.2.1 = d) = [] := by
    refine List.filter_eq_nil_iff.mpr fun x hx => ?_
    obtain ⟨j, hj, hx⟩ := List.mem_flatMap.mp hx
    rw [decide_eq_true_eq]
    rintro rfl
    exact hd (List.mem_flatMap.mpr ⟨j, hj, dest_of_mem_instrCopies hx⟩)
  have hself : (instrCopies (.phi d t ss)).filter (·.2.1 = d)
      = instrCopies (.phi d t ss) := by
    refine List.filter_eq_self.mpr fun x hx => ?_
    simpa [Instr.dests] using dest_of_mem_instrCopies hx
  rw [List.flatMap_append, List.flatMap_cons, List.filter_append,
    List.filter_append,
    hnone hnd.1.1, hnone hnd.1.2, hself, List.nil_append, List.append_nil]

/-- Copies that go into a block, picked by what they assign to what. -/
theorem filter_copiesInto
    (all : List (BlockId × ValueId × Operand × Ty)) (q : BlockId)
    (pick : ValueId → Operand → Bool) :
    ((copiesInto all q).filter fun c => pick c.dest c.source).map (·.source)
      = ((all.filter (·.1 = q)).filter fun x => pick x.2.1 x.2.2.1).map
      (·.2.2.1) := by
  unfold copiesInto
  rw [List.filter_map, List.map_map]
  conv_rhs => rw [← List.zipIdx_map_fst 0 (all.filter (·.1 = q)),
    List.filter_map, List.map_map]
  rfl

/-- The copy that counts for the destination of a phi has its last source that
is not the value itself. -/
theorem counting_copiesInto {bs : List Block} (hbs : k.blocks = bs.map some)
    (hsa : k.SingleAssignment) {blk : Block} (hb : k.block? b = some blk)
    (hphi : .phi d t ss ∈ blk.instrs) (q : BlockId) :
    (counting (copiesInto (bs.flatMap phiCopies) q) d).map (·.source)
      = ((sourcesFrom q ss).filter (· ≠ .value d)).getLast? := by
  obtain ⟨all, hall⟩ : ∃ all, all = bs.flatMap phiCopies := ⟨_, rfl⟩
  have hdest : all.filter (·.2.1 = d) = instrCopies (.phi d t ss) := by
    have hflat : all = (bs.flatMap (·.instrs)).flatMap instrCopies := by
      rw [hall, List.flatMap_assoc]
      exact List.flatMap_congr fun blk _ => phiCopies_eq blk
    rw [hflat]
    refine filter_instrCopies ?_
      (List.mem_flatMap.mpr ⟨blk, (mem_blocks_iff hbs).mpr ⟨b, hb⟩, hphi⟩)
    have hnd := hsa.nodup
    rw [definedValues, hbs, List.flatMap_map] at hnd
    rwa [List.flatMap_assoc]
  have hpicked : ((copiesInto all q).filter fun c => decide (c.dest = d)
      && !c.isIdle).map (·.source)
      = (sourcesFrom q ss).filter (· ≠ .value d) := by
    calc _ = ((all.filter (·.1 = q)).filter fun x =>
              decide (x.2.1 = d) && !(x.2.2.1 == .value x.2.1)).map (·.2.2.1) :=
          filter_copiesInto all q fun v o => decide (v = d) && !(o == .value v)
      _ = ((all.filter (·.2.1 = d)).filter fun x =>
              decide (x.1 = q) && decide (x.2.2.1 ≠ .value d)).map
                (·.2.2.1) := by
          rw [List.filter_filter, List.filter_filter]
          refine congrArg (List.map _) (List.filter_congr fun x _ => ?_)
          by_cases hx : x.2.1 = d
          · simp [hx, Bool.and_comm, beq_eq_decide]
          · simp [hx]
      _ = (sourcesFrom q ss).filter (· ≠ .value d) := by
          rw [hdest, instrCopies, List.filter_map, List.map_map,
            sourcesFrom, List.filter_map, List.filter_filter]
          refine congrArg (List.map _) (List.filter_congr fun s _ => ?_)
          simp [Bool.and_comm]
  rw [← hall, ← hpicked, counting, List.getLast?_map]

/-- Assignments that do the copies that count leave in the destination of a phi
what its last source held. -/
theorem assigned_last {bs : List Block} (hbs : k.blocks = bs.map some)
    (hsa : k.SingleAssignment) {blk : Block} (hb : k.block? b = some blk)
    (hphi : .phi d t ss ∈ blk.instrs) {bound : Int}
    (hd : d.toInt < bound) {fr fr₂ : Frame}
    (hserved : ∀ c ∈ Sequencing.effective (copiesInto (bs.flatMap phiCopies) q),
      fr₂[c.dest]? = look fr c.source)
    (hkept : ∀ v : ValueId, v.toInt < bound →
      (∀ c ∈ Sequencing.effective (copiesInto (bs.flatMap phiCopies) q),
        c.dest ≠ v) →
      fr₂[v]? = fr[v]?) :
    fr₂[d]? = look fr (lastTaken d (sourcesFrom q ss)) := by
  have hlast := counting_copiesInto hbs hsa hb hphi q
  rw [lastTaken, ← hlast]
  cases hc : counting (copiesInto (bs.flatMap phiCopies) q) d with
  | some c =>
      obtain ⟨-, rfl, -⟩ := of_counting hc
      exact hserved c (mem_effective.mpr hc)
  | none =>
      -- no copy counts: the value stays
      refine hkept d hd fun c hmem hcd => ?_
      rw [← hcd, mem_effective.mp hmem] at hc
      cases hc

-- ================================================================ isolation

/-- What isolation keeps of a function in single-assignment form. -/
structure Kept (f k : Func) : Prop where
  routed : ∃ pairs, Rerouted f k pairs
  single : k.SingleAssignment
  range : ∀ v, k.Reads v ∨ k.Defined v → v.toInt < f.nextValue.toInt
  copies : copyCount k = copyCount f

/-- Splitting an edge keeps what the phis list. -/
theorem kept_stable (hf : f.Linked) : CriticalStable (Kept f) := by
  intro g h s t hg hl hc hsplit
  obtain ⟨pairs, hpairs⟩ := hg.routed
  obtain ⟨hs, ht, hfresh⟩ := hpairs.of_critical hf hc
  refine ⟨⟨_, hpairs.split hs ht hfresh hsplit⟩,
    hsplit.singleAssignment hg.single,
    fun v hv => hg.range v (hv.imp (reads_split hsplit) fun hd => ?_),
    (copyCount_split hsplit).trans hg.copies⟩
  rwa [Defined, hsplit.definedValues, hsplit.header.params] at hd

-- ==================================================================== edges

/-- In `g` the assignments `out` stand on the edge from `p` to `b`: at the end
of `p`, which still leads to `b`, or in a new block on the way from `p` to `b`,
where nothing else is. -/
def OnEdge (f g : Func) (p b : BlockId) (out : List Copy) : Prop :=
  (∃ pb gb, f.block? p = some pb ∧ g.block? p = some gb ∧ b ∈ gb.targets
    ∧ gb.instrs = pb.instrs.filter keepsRest ++ out.map Copy.toInstr)
  ∨ ∃ n nb, f.hasBlock n = false ∧ g.HasEdge p n ∧ g.block? n = some nb
    ∧ nb.term = some (.jump b)
    ∧ nb.instrs = out.map Copy.toInstr

/-- The frame has a value for every source that names the block. -/
def Feeds (f : Func) (p : BlockId) (fr : Frame) : Prop :=
  ∀ c blk d t ss, f.block? c = some blk → .phi d t ss ∈ blk.instrs →
    ∀ o ∈ sourcesFrom p ss, (look fr o).isSome = true

/-- A frame that fits a block feeds the phis behind it. -/
theorem feeds_of_fits {fr : Frame} (h : Fits f p fr) : Feeds f p fr := by
  intro c blk d t ss hc hphi o ho
  obtain ⟨s, hs, hsb, rfl⟩ := mem_sourcesFrom.mp ho
  obtain ⟨x, hx, -⟩ := h c blk d t ss hc hphi s hs hsb
  exact Option.isSome_of_eq_some hx

/-- What is no phi is not renamed. -/
theorem filter_keepsRest_mapSources (m : BlockId → BlockId) (is : List Instr) :
    (is.map (mapSources m)).filter keepsRest = is.filter keepsRest := by
  induction is with
  | nil => rfl
  | cons i is ih =>
      rw [List.map_cons, List.filter_cons, List.filter_cons, ih]
      cases i <;> rfl

/-- Where every block got its copies and lost its phis, the copies of the block
that stands for the source of an edge are on the edge. -/
theorem exists_onEdge {pairs : List (Edge × BlockId)} (h : Rerouted f k pairs)
    (he : f.HasEdge p b) {done : BlockId → List Copy → Prop}
    (hg : ∀ c kb, k.block? c = some kb → ∃ out : List Copy, g.block? c
      = some { kb with instrs := kb.instrs.filter keepsRest ++ out.map Copy.toInstr } ∧ done c out) :
    ∃ out, OnEdge f g p b out ∧ done (via pairs ⟨p, b⟩ p) out := by
  have hedge {c n : BlockId} (hc : k.HasEdge c n) : g.HasEdge c n := by
    obtain ⟨kb, hkb, hn⟩ := hc
    obtain ⟨out, hout, -⟩ := hg c kb hkb
    exact ⟨_, hout, hn⟩
  obtain ⟨pb, hpb, hbt⟩ := he
  have hleads : k.HasEdge p (via pairs ⟨p, b⟩ b) :=
    (h.hasEdge_iff hpb).mpr ⟨b, hbt, rfl⟩
  rcases via_cases pairs ⟨p, b⟩ with ⟨n, hnew, hvia⟩ | ⟨-, hself⟩
  · obtain ⟨out, hout, hdone⟩ := hg n _ (h.relay _ n hnew)
    rw [hvia] at hleads ⊢
    have hfresh : f.hasBlock n = false := by
      rw [Bool.eq_false_iff]
      exact fun hold => h.not_place hold (List.mem_map_of_mem hnew)
    exact ⟨out, Or.inr ⟨n, _, hfresh, hedge hleads, hout, rfl, rfl⟩, hdone⟩
  · obtain ⟨ps, hps⟩ := h.block p pb hpb
    obtain ⟨out, hout, hdone⟩ := hg p _ hps
    rw [hself] at hleads ⊢
    obtain ⟨gb, hgb, hbg⟩ := hedge hleads
    rw [hout, Option.some.injEq] at hgb
    refine ⟨out, Or.inl ⟨pb, _, hpb, hout, hgb ▸ hbg, ?_⟩, hdone⟩
    show (pb.instrs.map (mapSources _)).filter keepsRest ++ _ = _
    rw [filter_keepsRest_mapSources]

/-- What a phi names is there. -/
theorem hasBlock_of_source (hl : f.Linked) {blk : Block}
    (hb : f.block? b = some blk) (hphi : .phi d t ss ∈ blk.instrs) :
    ∀ s ∈ ss, f.hasBlock s.block = true := by
  intro s hs
  obtain ⟨sb, hsb, -⟩ := hl.source b blk hb d t ss hphi s hs
  exact hasBlock_of_block? hsb

/-- The copies that count on an edge can be done at once in a frame that feeds
the phis. -/
theorem Kept.askable (hk : Kept f k) {pairs : List (Edge × BlockId)}
    (hpairs : Rerouted f k pairs) (hl : f.Linked) {bs : List Block}
    (hbs : k.blocks = bs.map some) (hp : f.hasBlock p = true) {fr : Frame}
    (hfeeds : Feeds f p fr) :
    Askable
      (Sequencing.effective (copiesInto (bs.flatMap phiCopies)
        (via pairs ⟨p, b⟩ p)))
      f.nextValue.toInt fr := by
  refine ⟨effective_nodup _, fun c hc => ?_, fun c hc => ?_⟩
  · obtain ⟨target, t, ss, s, hask⟩ :=
      mem_copiesInto hbs (mem_of_mem_effective hc).1
    obtain ⟨i, hdef⟩ := hask.definedAt
    exact hk.range _ (Or.inr (Or.inr (mem_definedValues.mpr ⟨target, i, hdef⟩)))
  · obtain ⟨target, t, ss, s, hask⟩ :=
      mem_copiesInto hbs (mem_of_mem_effective hc).1
    obtain ⟨tb, htb, hphi⟩ := hask.phi
    obtain ⟨tb₀, ss₀, htb₀, hphi₀, rfl⟩ := hpairs.phi_cases hl htb hphi
    obtain ⟨s₀, hs₀, rfl⟩ := List.mem_map.mp hask.source
    have hsame : s₀.block = p :=
      hpairs.eq_of_via_eq hp (hasBlock_of_source hl htb₀ hphi₀ s₀ hs₀)
        hask.block
    rw [hask.value]
    exact hfeeds target tb₀ c.dest t ss₀ htb₀ hphi₀
      _ (mem_sourcesFrom.mpr ⟨s₀, hs₀, hsame, rfl⟩)

-- ===================================================================== runs

/-- Phis take values, none of them the mark of an error. -/
def SourcesSound (f : Func) : Prop :=
  ∀ d t ss, f.HasInstr (.phi d t ss) → ∀ s ∈ ss, s.value ≠ .error
    ∧ s.value ≠ .invalid

/-- The phis of one function are fed whenever it leaves a block. -/
def feedsIn (i : FuncId) (f : Func) : Promise :=
  fun k b fr => k = i → Feeds f b fr

/-- In strict form phis are fed by what is available. -/
theorem fromSupply_feedsIn (hs : f.Strict) (hl : f.Linked)
    (hsound : SourcesSound f) (i : FuncId) : FromSupply i f (feedsIn i f) := by
  refine ⟨fun p fr hp hfr _ c blk d t ss hc hphi o ho => ?_,
    fun j hj b fr h => absurd h hj⟩
  obtain ⟨s, hmem, rfl, rfl⟩ := mem_sourcesFrom.mp ho
  have hreach :=
    hp.step (hl.source c blk hc d t ss hphi s hmem) (hasBlock_of_block? hc)
  obtain ⟨herror, hinvalid⟩ := hsound d t ss ⟨c, blk, hc, hphi⟩ s hmem
  cases hv : s.value with
  | value v => exact hfr v (hs.phi c blk hc hreach d t ss hphi s hmem hp v hv)
  | int n => rfl
  | bool b => rfl
  | unit => rfl
  | error => exact absurd hv herror
  | invalid => exact absurd hv hinvalid

-- ================================================================= the pass

/-- Which source a phi takes on an edge. On a function that both checks accept
the pass answers, and on every edge on which phis take something stand
assignments. In a frame with a value for every source that names the predecessor
they can be done, and then every phi's destination holds what the last of its
sources held that is not the destination itself, where the interpreter takes the
first one; the two agree where the sources that name the predecessor do. In
strict form, with sources that are values, every run has such a frame whenever
it leaves a block. -/
theorem run_takes_last (hvalid : f.validate = .ok ())
    (hssa : f.validateSSA = .ok ())
    (hrange : ∀ v, f.Defined v → v.toInt < f.nextValue.toInt)
    (hcounter : f.nextValue.toInt < 2 ^ 62) (hfew : copyCount f ≤ 2 ^ 60) :
    ∃ modified g, run f = .ok (modified, g)
      ∧ (∀ b blk p, f.block? b = some blk → p ∈ phiBlocks blk.instrs →
        ∃ out, OnEdge f g p b out ∧ ∀ fr, Feeds f p fr →
          ∃ fr₂, assignAll fr out = some fr₂
          ∧ ∀ d t ss, .phi d t ss ∈ blk.instrs →
            fr₂[d]? = look fr (lastTaken d (sourcesFrom p ss))
            ∧ ∀ fr₁ s s', enterBlock fr blk p b s = .ok fr₁ s' →
              fr₁[d]? = (sourcesFrom p ss).head?.bind (look fr)
              ∧ ((∀ x ∈ sourcesFrom p ss, ∀ y ∈ sourcesFrom p ss,
                  look fr x = look fr y) →
                fr₂[d]? = fr₁[d]?))
      ∧ (f.Strict → SourcesSound f → ∀ m i k xs w n vs w', m.func? i = some f →
        Answers m .none k xs w n vs w' → Answers m
          (feedsIn i f) k xs w n vs w') := by
  have hwf := validate_eq_ok_iff.mp hvalid
  obtain ⟨hsingle, hreads⟩ := (validateSSA_eq_ok_iff hwf).mp hssa
  have hl := hwf.linked
  have hruns (hs : f.Strict) (hsound : SourcesSound f)
      (m : Module) (i k : FuncId)
      (xs : List Value) (w : Machine) (n : Nat) (vs : List Value) (w' : Machine)
      (hf : m.func? i = some f) (ha : Answers m .none k xs w n vs w') :
      Answers m (feedsIn i f) k xs w n vs w' :=
    ha.supplied (fromSupply_feedsIn hs hl hsound i) hf hl
  have hself : Kept f f :=
    ⟨⟨[], .refl f⟩, hsingle, fun v hv => hrange v (hv.elim (hreads v) id), rfl⟩
  rcases run_eq hwf (kept_stable hl) hself with ⟨hrun, hnone⟩
    | ⟨k, bs, hk, -, -, hbs, hrun⟩
  · refine ⟨false, f, hrun, fun b blk p hb hp => ?_, hruns⟩
    obtain ⟨d, t, ss, hphi, -⟩ := mem_phiBlocks.mp hp
    cases hnone _ ⟨b, blk, hb, hphi⟩
  obtain ⟨pairs, hpairs⟩ := hk.routed
  have hcount := hpairs.header.nextValue
  have happended :=
    appended_all hbs (fun v hv => hcount ▸ hk.range v (Or.inl hv))
    (hcount ▸ hcounter) (hk.copies.trans_le hfew)
  refine ⟨true, _, hrun, fun b blk p hb hp => ?_, hruns⟩
  have he : f.HasEdge p b := IsSource.hasEdge hl ⟨blk, hb, hp⟩
  obtain ⟨pb, hpb, -⟩ := id he
  have hhere := hasBlock_of_block? hpb
  obtain ⟨out, hon, hperf⟩ :=
    exists_onEdge hpairs he fun c kb hkb => happended.kept_block hkb
  rw [hcount] at hperf
  refine ⟨out, hon, fun fr hfeeds => ?_⟩
  obtain ⟨fr₂, hassign, hserved, hkept⟩ :=
    hperf fr (hk.askable hpairs hl hbs hhere hfeeds)
  refine ⟨fr₂, hassign, fun d t ss hphi => ?_⟩
  obtain ⟨ps, hkb⟩ := hpairs.block b blk hb
  have hd : f.Defined d := Or.inr (mem_definedValues_iff_hasInstr.mpr
    ⟨_, ⟨b, blk, hb, hphi⟩, List.mem_cons_self⟩)
  have hlast : fr₂[d]? = look fr (lastTaken d (sourcesFrom p ss)) := by
    rw [assigned_last hbs hk.single hkb (mem_mapSources.mpr ⟨ss, hphi, rfl⟩)
      (hrange d hd) hserved
      hkept, sourcesFrom_via hpairs hhere (hasBlock_of_source hl hb hphi)]
  refine ⟨hlast, fun fr₁ s s' henter => ?_⟩
  obtain ⟨o, x, ho, hox, hfirst⟩ :=
    enterBlock_takes_first hl hsingle hb hphi henter
  refine ⟨by rw [hfirst, ho, Option.bind_some, hox], fun hsame => ?_⟩
  rw [hlast, look_lastTaken ho hsame, hox, hfirst]

/-- The block where a phi takes one of two values of one predecessor. -/
def pickJoin : Block :=
  { name := "join", preds := [0], instrs := [.phi 0 .felt [⟨0, .int 1⟩, ⟨0, .int 2⟩]]
    term := some (.ret [.value 0]) }

/-- A function with such a block behind its entry. -/
def pick : Func :=
  { name := "pick"
    returns := [.felt]
    types := Std.ExtTreeMap.ofList [((0 : ValueId), Ty.felt)]
    nextValue := 1
    blocks :=
      [some { name := "entry", term := some (.jump 1) }, some pickJoin] }

/-- It returns the first value before the pass and the second one afterwards. -/
theorem run_takes_last_pick :
    pick.validate = .ok () ∧ pick.validateSSA = .ok () ∧ pick.Strict
    ∧ call ⟨[pick]⟩ "pick" [] {} = .ok [1] { steps := 2 }
    ∧ (∃ g, run pick = .ok (true, g) ∧ call ⟨[g]⟩ "pick" [] {}
      = .ok [2] { steps := 3 })
    ∧ ∃ modified g out fr₂, run pick = .ok (modified, g) ∧ OnEdge pick g 0 1 out
      ∧ assignAll ∅ out = some fr₂ ∧ fr₂[(0 : ValueId)]? = look ∅ (.int 2)
      ∧ ∀ fr₁ s s', enterBlock ∅ pickJoin 0 1 s = .ok fr₁ s' →
        fr₁[(0 : ValueId)]? = look ∅ (.int 1) := by
  have hssa : pick.validateSSA = .ok () := rfl
  have hsingle : pick.SingleAssignment := definesOnce_iff.mp rfl
  have hrange : ∀ v, pick.Defined v → v.toInt < pick.nextValue.toInt := by
    rintro v (hv | hv)
    · cases hv
    · rw [List.mem_singleton.mp hv]
      decide
  have hfeeds : Feeds pick 0 ∅ := feeds_of_fits (fits_of_immediatePhis rfl 0 ∅)
  obtain ⟨modified, g, hrun, hedge, -⟩ :=
    run_takes_last (f := pick) rfl hssa hrange (by decide) (by decide)
  obtain ⟨out, hon, hframe⟩ := hedge 1 pickJoin 0 rfl (by decide)
  obtain ⟨fr₂, hassign, hphis⟩ := hframe ∅ hfeeds
  obtain ⟨hlast, hfirst⟩ := hphis 0 .felt _ (List.mem_singleton_self _)
  refine ⟨rfl, hssa, strict_of_strictBy [[], []] rfl hsingle, rfl,
    ⟨_, rfl, rfl⟩, modified, g, out, fr₂,
    hrun, hon, hassign, hlast, fun fr₁ s s' henter =>
      (hfirst fr₁ s s' henter).1⟩

end PhiRemoval

end MirBackend
