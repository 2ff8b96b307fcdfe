/-
Runs over a split edge.

A function with a split edge runs as before, in the same frames. Where the
old one takes the edge, the new one passes through the block in between, and
the phis of the target then take what belongs to the new block, which is what
belonged to the source (`SplitOf.simulation_of_promise`).

What the phis take has the slots of their types in the split function if it
had them before: the frame at the end of the new block is the one at the end of
the source (`SplitOf.simulation`).
-/
import Mathlib
import MirBackend.Proofs.Func.SplitForm
import MirBackend.Proofs.Interp.Simulation

namespace MirBackend

-- =================================================================== slots

namespace Interp

/-- What phis take from a block has, at its end, as many slots as their types
say. -/
def Fits (f : Func) (b : BlockId) (fr : Frame) : Prop :=
  ∀ c blk d t ss, f.block? c = some blk → .phi d t ss ∈ blk.instrs →
    ∀ s ∈ ss, s.block = b →
    ∃ x, look fr s.value = some x ∧ (x.slots.length : Int) = t.slots.toInt

/-- What phis of one function take fits whenever it leaves a block. -/
def fitsIn (k : FuncId) (f : Func) : Promise :=
  fun k' b fr => k' = k → Fits f b fr

end Interp

namespace Func

open Interp

variable {f g : Func} {source target : BlockId}

/-- A frame that fits the source of the split edge fits the new block. -/
theorem SplitOf.fits (h : f.SplitOf g source target) (hl : f.Linked)
    {b : BlockId} {fr : Frame}
    (hfit : Fits f (if b = f.blocks.length then source else b) fr) :
    Fits g b fr := by
  intro c blk d t ss hc hphi s hs hsb
  obtain ⟨blk₀, ss₀, hc₀, hphi₀, rfl⟩ := h.phi_cases hc hphi
  obtain ⟨s₀, hs₀, rfl⟩ := List.mem_map.mp hs
  obtain ⟨sb, hsb₀, -⟩ := hl.source c blk₀ hc₀ d t ss₀ hphi₀ s₀ hs₀
  by_cases hcs : c = target ∧ s₀.block = source
  · simp only [if_pos hcs] at hsb ⊢
    rw [if_pos hsb.symm] at hfit
    exact hfit c blk₀ d t ss₀ hc₀ hphi₀ s₀ hs₀ hcs.2
  · simp only [if_neg hcs] at hsb ⊢
    have hne := ne_length_of_block? hsb₀
    rw [hsb] at hne
    rw [if_neg hne] at hfit
    exact hfit c blk₀ d t ss₀ hc₀ hphi₀ s₀ hs₀ hsb

-- =================================================================== parts

/-- The phis of the target name the new block for the old source, those of the
other blocks are as they were. -/
theorem leadingPhis_splitBlock (mid c : BlockId) (blk : Block) :
    (splitBlock source target mid c blk).leadingPhis
      = if c = target then blk.leadingPhis.map
      (renameSource source mid) else blk.leadingPhis := by
  by_cases hc : c = target
  · simp only [Block.leadingPhis, splitBlock, hc, if_true, List.takeWhile_map]
    congr 1
    refine congrArg (fun p => blk.instrs.takeWhile p) (funext fun i => ?_)
    exact isPhi_renameSource i
  · simp [Block.leadingPhis, splitBlock, hc]

/-- Behind the phis nothing changes. -/
theorem body_splitBlock (mid c : BlockId) {blk : Block}
    (h : PhisLead blk.instrs) :
    (splitBlock source target mid c blk).body = blk.body := by
  by_cases hc : c = target
  · have hdrop : (splitBlock source target mid c blk).body
        = blk.body.map (renameSource source mid) := by
      simp only [Block.body, splitBlock, hc, if_true, List.dropWhile_map]
      congr 1
      refine congrArg (fun p => blk.instrs.dropWhile p) (funext fun i => ?_)
      exact isPhi_renameSource i
    rw [hdrop]
    conv_rhs => rw [← List.map_id blk.body]
    refine List.map_congr_left fun i hi => ?_
    exact renameSource_of_not_phi (h.isPhi_of_mem_body hi)
  · simp [Block.body, splitBlock, hc]

/-- The source that a phi takes, after one was renamed. -/
theorem find?_renamed {mid prev : BlockId} {ss : List PhiSource}
    (hnew : ∀ s ∈ ss, s.block ≠ mid) (hprev : prev ≠ mid) :
    ((ss.map fun s => if s.block = source
    then { s with block := mid } else s).find?
      (·.block = (if prev = source then mid else prev))).map (·.value)
      = (ss.find? (·.block = prev)).map (·.value) := by
  have hsame :
      ss.find?
      ((fun s : PhiSource => decide (s.block = if prev = source
      then mid else prev))
      ∘ fun s => if s.block = source then { s with block := mid } else s)
      = ss.find? (·.block = prev) := by
    refine List.find?_congr fun s hs => ?_
    have hs := hnew s hs
    simp only [Function.comp_apply]
    split <;> split
    · next h1 h2 => simp [h1, h2]
    · next h1 h2 => simp [h1, hprev.symm, Ne.symm h2]
    · next h1 h2 => simp [h2, h1, hs]
    · rfl
  have hvalue : (fun s : PhiSource => s.value)
      ∘ (fun s => if s.block = source then { s with block := mid } else s)
        = fun s => s.value := by
    funext s
    simp only [Function.comp_apply]
    split <;> rfl
  rw [List.find?_map, hsame, Option.map_map, hvalue]

/-- Phis take from a block what they took before a source was renamed. -/
theorem phiLooks_renameSource {mid prev : BlockId}
    {is : List Instr} {fr : Frame}
    (hnew : ∀ d t ss, .phi d t ss ∈ is → ∀ s ∈ ss, s.block ≠ mid)
    (hprev : prev ≠ mid) :
    phiLooks fr (if prev = source then mid else prev)
      (is.map (renameSource source mid))
      = phiLooks fr prev is := by
  induction is with
  | nil => rfl
  | cons i is ih =>
      have ih := ih fun d t ss h => hnew d t ss (List.mem_cons_of_mem _ h)
      cases i with
      | phi d t ss =>
          rw [List.map_cons, renameSource, phiLooks_cons, phiLooks_cons, ih,
            find?_renamed (hnew d t ss List.mem_cons_self) hprev]
      | _ => rfl

/-- A redirected terminator leads where the redirection says. -/
theorem nextOf_redirect {fr : Frame} {t : Terminator} {next mid : BlockId}
    (h : nextOf fr (some t) = some (.block next)) :
    nextOf fr (some (t.redirect target mid))
        = some (.block (if next = target then mid else next)) := by
  cases t with
  | jump b =>
      cases h
      rfl
  | branch c b e =>
      obtain ⟨x, hx, hnext⟩ := Option.map_eq_some_iff.mp h
      cases hnext
      show (lookScalar fr c).map _ = _
      rw [hx]
      by_cases h0 : x = 0 <;> simp [h0]
  | branchCmp op l r b e =>
      obtain ⟨x, hx, hnext⟩ := Option.map_eq_some_iff.mp h
      cases hnext
      show (lookTest fr op l r).map _ = _
      rw [hx]
      cases x <;> rfl
  | ret vs =>
      obtain ⟨xs, -, hxs⟩ := Option.map_eq_some_iff.mp h
      cases hxs
  | unreachable => cases h

/-- A jump along the split edge goes to the new block, every other where it
went. -/
theorem nextOf_splitBlock {fr : Frame} {blk : Block} {mid c next : BlockId}
    (h : nextOf fr blk.term = some (.block next)) :
    nextOf fr (splitBlock source target mid c blk).term
      = some (.block (if c = source ∧ next = target then mid else next)) := by
  by_cases hc : c = source
  · cases ht : blk.term with
    | none =>
        rw [ht] at h
        cases h
    | some t =>
        rw [ht] at h
        simp only [splitBlock, hc, if_true, ht, Option.map_some, true_and]
        exact nextOf_redirect h
  · simpa [splitBlock, hc] using h

/-- Returns are as they were. -/
theorem nextOf_splitBlock_ret {fr : Frame} {blk : Block}
    {mid c : BlockId} {vs : List Value}
    (h : nextOf fr blk.term = some (.ret vs)) :
    nextOf fr (splitBlock source target mid c blk).term = some (.ret vs) := by
  by_cases hc : c = source
  · match ht : blk.term with
    | some (.ret os) =>
        rw [ht] at h
        simp only [splitBlock, hc, if_true, ht]
        exact h
    | some (.jump b) =>
        rw [ht] at h
        cases h
    | some (.branch x b e) =>
        rw [ht] at h
        obtain ⟨y, -, hy⟩ := Option.map_eq_some_iff.mp h
        cases hy
    | some (.branchCmp op l r b e) =>
        rw [ht] at h
        obtain ⟨y, -, hy⟩ := Option.map_eq_some_iff.mp h
        cases hy
    | some .unreachable | none =>
        rw [ht] at h
        cases h
  · simpa [splitBlock, hc] using h

/-- Control never goes to no block. -/
theorem Linked.nextOf_ne_noBlock (hl : f.Linked) {b : BlockId} {blk : Block}
    (hb : f.block? b = some blk) {fr : Frame} :
    nextOf fr blk.term ≠ some (.block noBlock) := by
  intro h
  obtain ⟨nb, hnb, -⟩ := hl.target b blk hb _ (mem_targets_of_nextOf h)
  cases hnb

-- The new block has no phis.
theorem leadingPhis_eq_nil {blk : Block}
    (h : ∀ i ∈ blk.instrs, i.isPhi = false) : blk.leadingPhis = [] := by
  unfold Block.leadingPhis
  cases hi : blk.instrs with
  | nil => rfl
  | cons i is =>
      have := h i (by rw [hi]; exact List.mem_cons_self)
      rw [List.takeWhile_cons_of_neg (by simp [this])]

theorem body_eq_instrs {blk : Block} (h : ∀ i ∈ blk.instrs, i.isPhi = false) :
    blk.body = blk.instrs := by
  have hsplit := blk.leadingPhis_append_body
  rwa [leadingPhis_eq_nil h, List.nil_append] at hsplit

-- ============================================================== simulation

/-- The phis of the next block take what they took. -/
theorem Linked.phiLooks_splitBlock (hl : f.Linked) (source target : BlockId)
    {cur next : BlockId} {b nb : Block} (hb : f.block? cur = some b)
    (hnb : f.block? next = some nb) (fr : Frame) :
    phiLooks fr (if cur = source ∧ next = target then f.blocks.length else cur)
      (splitBlock source target f.blocks.length next nb).leadingPhis
      = phiLooks fr cur nb.leadingPhis := by
  have hnew : ∀ d t ss, .phi d t ss ∈ nb.leadingPhis → ∀ s ∈ ss,
      s.block ≠ (f.blocks.length : Int) := by
    intro d t ss hphi s hs
    have hmem : Instr.phi d t ss ∈ nb.instrs :=
      (List.takeWhile_sublist _).subset hphi
    obtain ⟨sb, hsb, -⟩ := hl.source next nb hnb d t ss hmem s hs
    exact ne_length_of_block? hsb
  rw [leadingPhis_splitBlock]
  by_cases hnt : next = target
  · simp only [hnt, and_true, if_true]
    exact phiLooks_renameSource hnew (ne_length_of_block? hb)
  · simp only [hnt, and_false, if_false]

/-- The old function and the split one run alike. A promise that the old one
keeps, the new one keeps if at the end of the new block it asks for what held at
the end of the source. -/
theorem SplitOf.simulation_of_promise
    (h : f.SplitOf g source target) (hl : f.Linked) {m m' : Module} {k : FuncId}
    {Q Q' : Promise} (hf : m.func? k = some f) (hg : m'.func? k = some g)
    (hothers : ∀ j, j ≠ k → m'.func? j = m.func? j)
    (hhere : ∀ (b : BlockId) fr,
      Q k (if b = f.blocks.length then source else b) fr → Q' k b fr)
    (helse : ∀ j, j ≠ k → ∀ b fr, Q j b fr → Q' j b fr) :
    Simulation m m' Q Q' k f g fun c c' => c' = c := by
  have hentry := h.header.entry
  have hparams := h.header.params
  have htype (o : Operand) : g.operandType o = f.operandType o := by
    cases o with
    | value id => simp only [operandType, typeOf, h.header.types]
    | _ => rfl
  refine ⟨hf, hg, hothers, helse, hparams, ?_, ?_, ?_, ?_, ?_, ?_⟩
  · -- the entry has no phis
    intro xs b ps hb hps
    obtain ⟨eb, heb, hphi⟩ := hl.entry
    rw [hb, Option.some.injEq] at heb
    subst heb
    have hlead := leadingPhis_eq_nil hphi
    have hframe : argFrame g xs = argFrame f xs := by
      rw [argFrame, argFrame, hparams]
    refine ⟨_, ps, by rw [hentry]; exact h.block?_old hb, ?_, ?_⟩
    · rw [leadingPhis_splitBlock, hlead, List.map_nil,
        ite_self, hframe, ← hlead]
      exact hps
    · rw [body_splitBlock _ _ (hl.phisLead _ _ hb), hframe, hentry]
  · intro cur i is fr c' fr₁ w w₁ hR hrun
    subst hR
    refine ⟨_, rfl, fun n vs w' hn => ⟨n + 1, .instr hg ?_ hn⟩⟩
    obtain ⟨xs, -, rfl, hrun'⟩ :=
      exec_sets (g := g) (fun _ _ => rfl) (fun o _ => htype o) w fr₁ w₁ hrun
    exact hrun'
  · intro cur ds c as sig is fr c' xs rs hR hxs hlen
    subst hR
    exact ⟨is, fr, rfl, hxs, rfl⟩
  · intro cur b next nb fr c' ps hR hb hkeeps hterm hthere hnb hps
    subst hR
    refine ⟨_, rfl, fun w n vs w' hn => ?_⟩
    have hold := h.block?_old hb
    have hnext := h.block?_old hnb
    have hterm' :
        nextOf fr (splitBlock source target f.blocks.length cur b).term = _ :=
      nextOf_splitBlock hterm
    have hps' := (hl.phiLooks_splitBlock source target hb hnb fr).trans hps
    have hcur := ne_length_of_block? hb
    have hkeeps' : Q' k cur fr := hhere cur fr (by rwa [if_neg hcur])
    have hbody : (splitBlock source target f.blocks.length next nb).body
        = nb.body :=
      body_splitBlock _ _ (hl.phisLead _ _ hnb)
    rw [← hbody] at hn
    by_cases hsplit : cur = source ∧ next = target
    · -- through the new block
      rw [if_pos hsplit] at hterm' hps'
      have hmid : Q' k f.blocks.length fr :=
        hhere _ fr (by rwa [if_pos rfl, ← hsplit.1])
      have hthrough : Returns m' Q' k f.blocks.length [] fr w (n + 1) vs w' :=
        .jump hg h.block?_mid hmid rfl (hsplit.2 ▸ hthere) (hsplit.2 ▸ hnext)
          (hsplit.2 ▸ hps') (hsplit.2 ▸ hn)
      have hempty : phiLooks fr cur (midBlock source target).leadingPhis
          = some [] := rfl
      exact ⟨_, .jump hg hold hkeeps' hterm' (by simp [noBlock])
        h.block?_mid hempty hthrough⟩
    · rw [if_neg hsplit] at hterm' hps'
      exact ⟨_, .jump hg hold hkeeps' hterm' hthere hnext hps' hn⟩
  · intro cur b fr c' vs hR hb hterm w
    subst hR
    exact ⟨1, .ret hg (h.block?_old hb) (nextOf_splitBlock_ret hterm)⟩
  · intro cur b fr c' hR hb hterm
    exact absurd hterm (hl.nextOf_ne_noBlock hb)

/-- What phis take keeps its slots over a split. -/
theorem SplitOf.simulation (h : f.SplitOf g source target)
    (hl : f.Linked) {m m' : Module} {k : FuncId} (hf : m.func? k = some f)
    (hg : m'.func? k = some g) (hothers : ∀ j, j ≠ k → m'.func? j = m.func? j) :
    Simulation m m' (fitsIn k f) (fitsIn k g) k f g fun c c' => c' = c :=
  h.simulation_of_promise hl hf hg hothers
    (fun _ _ hfit _ => h.fits hl (hfit rfl))
    fun _ hj _ _ _ hjk => absurd hjk hj

end Func

end MirBackend
