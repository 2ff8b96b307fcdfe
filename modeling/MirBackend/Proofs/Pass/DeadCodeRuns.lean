/-
Removing code that cannot matter keeps behaviour.

Where only unreachable blocks go, a run passes through the same blocks under
their new numbers, in the same frames: control never comes to a block that went,
so a phi finds, for the block that control comes from, the source it found
before (`CompactOf.replacement`). Where dead instructions go, frames agree on
what is read.

So every call answers as it did, within the same bound on steps and with the
same memory and trace (`run_preserves_answers`), unless an instruction goes
that puts a value of its own in memory: addresses handed out later would be
other ones.
-/
import Mathlib
import MirBackend.Proofs.Interp.EdgeSplit
import MirBackend.Proofs.Pass.Compaction
import MirBackend.Proofs.Pass.TrimmedRuns

namespace MirBackend

/-- Whether the instruction puts what it reads in memory of its own. -/
def Instr.placesValue : Instr → Bool
  | .addressOf .. | .makeArray .. => true
  | _ => false

namespace Interp

/-- Renamed targets are come to under their new names. -/
theorem nextOf_mapTargets {fr : Frame} {t : Option Terminator} {next : BlockId}
    (p : BlockId → BlockId) (h : nextOf fr t = some (.block next)) :
    nextOf fr (t.map (·.mapTargets p)) = some (.block (p next)) := by
  match t with
  | some (.jump b) =>
      cases h
      rfl
  | some (.branch c b e) =>
      obtain ⟨x, hx, hnext⟩ := Option.map_eq_some_iff.mp h
      cases hnext
      show (lookScalar fr c).map _ = _
      rw [hx]
      by_cases h0 : x = 0 <;> simp [h0]
  | some (.branchCmp op l r b e) =>
      obtain ⟨x, hx, hnext⟩ := Option.map_eq_some_iff.mp h
      cases hnext
      show (lookTest fr op l r).map _ = _
      rw [hx]
      cases x <;> rfl
  | some (.ret vs) =>
      obtain ⟨xs, -, hxs⟩ := Option.map_eq_some_iff.mp h
      cases hxs

/-- Renamed targets do not touch what is returned. -/
theorem nextOf_mapTargets_ret {fr : Frame}
    {t : Option Terminator} {vs : List Value} (p : BlockId → BlockId)
    (h : nextOf fr t = some (.ret vs)) :
    nextOf fr (t.map (·.mapTargets p)) = some (.ret vs) := by
  match t with
  | some (.ret os) => exact h
  | some (.jump b) => cases h
  | some (.branch c b e) =>
      obtain ⟨x, -, hx⟩ := Option.map_eq_some_iff.mp h
      cases hx
  | some (.branchCmp op l r b e) =>
      obtain ⟨x, -, hx⟩ := Option.map_eq_some_iff.mp h
      cases hx

end Interp

namespace DeadCode

open Func Interp

-- ====================================================== unreachable blocks

namespace Renumbering

variable {r : Renumbering} {p q : BlockId}

/-- The source that a phi takes is the one it took. -/
theorem find?_renumbered (hp : r.new? p = some q) (ss : List PhiSource) :
    ((ss.filterMap fun s => (r.new? s.block).map fun b =>
      (⟨b, s.value⟩ : PhiSource)).find?
      (·.block = q)).map (·.value)
        = (ss.find? (·.block = p)).map (·.value) := by
  induction ss with
  | nil => rfl
  | cons s ss ih =>
      by_cases hs : s.block = p
      · rw [List.find?_cons_of_pos (by simpa using hs)]
        simp [hs, hp]
      · rw [List.find?_cons_of_neg (by simpa using hs), ← ih]
        cases hn : r.new? s.block with
        | none => simp [hn]
        | some b =>
            have hbq : b ≠ q := by
              rintro rfl
              exact hs (new?_inj hn hp)
            simp [hn, hbq]

/-- Renumbered phis take what they took. -/
theorem phiLooks_renumbered (hp : r.new? p = some q) (fr : Frame)
    (is : List Instr) : phiLooks fr q (is.map r.instr) = phiLooks fr p is := by
  induction is with
  | nil => rfl
  | cons i is ih =>
      cases i with
      | phi d t ss =>
          rw [List.map_cons, instr, phiLooks_cons, phiLooks_cons, ih,
            find?_renumbered hp]
      | _ => rfl

/-- Head and body of a moved block. -/
theorem moved_parts (blk : Block) (ps : List BlockId)
    (hbody : ∀ i ∈ blk.body, i.isPhi = false) :
    ((r.moved blk).withPreds ps).leadingPhis = blk.leadingPhis.map r.instr
    ∧ ((r.moved blk).withPreds ps).body = blk.body := by
  have hsame : blk.body.map r.instr = blk.body := by
    conv_rhs => rw [← List.map_id blk.body]
    exact List.map_congr_left fun i hi => instr_of_isPhi_eq_false (hbody i hi)
  have hinstrs : ((r.moved blk).withPreds ps).instrs
      = blk.leadingPhis.map r.instr ++ blk.body := by
    rw [← hsame, ← List.map_append, blk.leadingPhis_append_body]
    rfl
  unfold Block.leadingPhis Block.body at *
  rw [hinstrs]
  refine Block.takeWhile_isPhi_append (fun i hi => ?_) hbody
  obtain ⟨j, hj, rfl⟩ := List.mem_map.mp hi
  rw [isPhi_instr]
  exact Block.isPhi_of_mem_leadingPhis hj

end Renumbering

/-- The same place under the new number of its block. -/
structure Moved (r : Renumbering) (c c' : Interp.Place) : Prop where
  block : r.new? c.block = some c'.block
  rest : c'.rest = c.rest
  frame : c'.frame = c.frame

variable {f g : Func} {r : Renumbering}

/-- A compacted function follows the one it comes from. -/
theorem CompactOf.replacement (h : CompactOf f g r) (hwf : f.WellFormed)
    (htypes : g.types = f.types) {m m' : Module} {k : FuncId}
    (hold : m.func? k = some f) (hnew : m'.func? k = some g)
    (hothers : ∀ j, j ≠ k → m'.func? j = m.func? j) :
    Replacement m m' k f g (fun _ => True) (Moved r) where
  old := hold
  new := hnew
  others := hothers
  -- the entry has no phis, and keeps its place in the new numbering
  enter := by
    intro xs b ps hcount hb hbody hps
    obtain ⟨eb, heb, hphi⟩ := hwf.entry
    rw [hb, Option.some.injEq] at heb
    subst heb
    obtain ⟨es, hes, -⟩ := h.block _ _ b h.entry hb
    have hframe : argFrame g xs = argFrame f xs := by
      rw [argFrame, argFrame, h.params]
    obtain ⟨hlead, hrest⟩ := Renumbering.moved_parts (r := r) b es hbody
    have hnone := leadingPhis_eq_nil hphi
    refine ⟨_, ps, by rw [h.params]; exact hcount, hes, ?_,
      ⟨h.entry, hrest, by rw [hframe]⟩⟩
    rw [hlead, hnone, hframe]
    rw [hnone] at hps
    exact hps
  -- instructions are the same; types are looked up in the same table
  instr := by
    intro cur i is fr c' fr₁ w w₁ _ hR hrun
    obtain ⟨cb, crest, cfr⟩ := c'
    obtain rfl : cfr = fr := hR.frame
    obtain rfl : crest = i :: is := hR.rest
    have htype (o : Operand) : g.operandType o = f.operandType o := by
      cases o with
      | value id => simp only [operandType, typeOf, htypes]
      | _ => rfl
    obtain ⟨vs, -, rfl, hrun'⟩ :=
      exec_sets (g := g) (fun _ _ => rfl) (fun o _ => htype o) w fr₁ w₁ hrun
    refine ⟨⟨cb, is, _⟩, ⟨hR.block, rfl, rfl⟩,
      fun n vs w' hn => ⟨n + 1, le_refl _, ?_⟩⟩
    exact .instr hnew hrun' hn
  call := by
    intro cur ds c as sig is fr c' xs hR hxs
    obtain ⟨cb, crest, cfr⟩ := c'
    obtain rfl : cfr = fr := hR.frame
    obtain rfl : crest = .call ds c as sig :: is := hR.rest
    exact ⟨is, cfr, rfl, hxs, fun rs _ => ⟨hR.block, rfl, rfl⟩⟩
  -- where control goes is reached, so it has a new number, by which phis and
  -- terminators know it
  jump := by
    intro cur b next nb fr c' ps _ hR hb hterm hthere hnb hbody hps
    obtain ⟨cb, crest, cfr⟩ := c'
    obtain rfl : cfr = fr := hR.frame
    obtain rfl : crest = [] := hR.rest
    have hnewcur : r.new? cur = some cb := hR.block
    have he : f.HasEdge cur next := ⟨b, hb, mem_targets_of_nextOf hterm⟩
    have hreach :=
      ((h.kept cur).mp ⟨cb, hnewcur⟩).step he (hasBlock_of_block? hnb)
    obtain ⟨nc, hnc⟩ := (h.kept next).mpr hreach
    obtain ⟨bs, hbs, -⟩ := h.block cur cb b hnewcur hb
    obtain ⟨ns, hns, -⟩ := h.block next nc nb hnc hnb
    obtain ⟨hlead, hrest⟩ := Renumbering.moved_parts (r := r) nb ns hbody
    refine ⟨⟨nc, nb.body, insertAll cfr ps⟩, ⟨hnc, rfl, rfl⟩,
      fun w n vs w' hn =>
      ⟨n + 1, le_refl _, ?_⟩⟩
    have hterm' : nextOf cfr ((r.moved b).withPreds bs).term
        = some (.block nc) := by
      rw [← Renumbering.place_eq hnc]
      exact nextOf_mapTargets r.place hterm
    have hps' : phiLooks cfr cb ((r.moved nb).withPreds ns).leadingPhis
        = some ps := by
      rw [hlead, Renumbering.phiLooks_renumbered hnewcur]
      exact hps
    have hne : nc ≠ noBlock := by
      rintro rfl
      cases hns
    exact .jump hnew hbs trivial hterm' hne hns hps' (by rw [hrest]; exact hn)
  ret := by
    intro cur b fr c' vs _ hR hb hterm w
    obtain ⟨cb, crest, cfr⟩ := c'
    obtain rfl : cfr = fr := hR.frame
    obtain rfl : crest = [] := hR.rest
    obtain ⟨bs, hbs, -⟩ := h.block cur cb b hR.block hb
    exact .ret hnew hbs (nextOf_mapTargets_ret r.place hterm)
  -- well-formed functions end their blocks
  leave := by
    intro cur b fr c' _ hR hb hterm
    exact absurd hterm (hwf.linked.nextOf_ne_noBlock hb)

/-- Rebuilding the predecessor lists changes nothing else. -/
theorem recomputePreds_sameHeader (h : f.recomputePreds = .ok g) :
    f.SameHeader g := by
  have hconnect (k k' : Func) (s t : BlockId) (hk : f.SameHeader k)
      (h : k.connect s t = .ok k') :
      f.SameHeader k' := by
    obtain ⟨k₁, hk₁, h⟩ := bind_eq_ok.mp h
    obtain ⟨-, -, hk₁⟩ := bind_eq_ok.mp hk₁
    cases hk₁
    cases h
    exact (hk.trans (k.sameHeader_modifyBlock t _)).trans
      (Func.sameHeader_record _ _)
  obtain ⟨bs, -, h⟩ := bind_eq_ok.mp h
  dsimp only at h
  have hbare :
      f.SameHeader
      ((f.mapBlocks fun b => { b with preds := [] }).record .clear) :=
    ⟨rfl, rfl, rfl, rfl, rfl, rfl⟩
  refine foldlM_keeps (P := fun k => f.SameHeader k)
    (fun k x k' hk hx => ?_) hbare h
  exact foldlM_keeps (P := fun k => f.SameHeader k)
    (fun k₁ t k₂ hk₁ => hconnect k₁ k₂ _ t hk₁) hk hx

/-- Removing blocks leaves everything but the blocks and the number of the
entry. -/
theorem removeUnreachable_header {modified : Bool}
    (h : removeUnreachable f = .ok (modified, g)) :
    f.SameHeader { g with entry := f.entry } := by
  unfold removeUnreachable at h
  obtain ⟨reach, -, h⟩ := bind_eq_ok.mp h
  cases hentry : reach.containsInt f.entry with
  | false =>
      rw [hentry] at h
      cases h
  | true =>
    simp only [hentry, Bool.not_true, Bool.false_eq_true, if_false] at h
    split at h
    · cases h
      exact .refl f
    · obtain ⟨bs, -, h⟩ := bind_eq_ok.mp h
      obtain ⟨blocks, -, h⟩ := bind_eq_ok.mp h
      obtain ⟨g', hg', h⟩ := bind_eq_ok.mp h
      cases h
      have hheader := recomputePreds_sameHeader hg'
      exact ⟨hheader.name, rfl, hheader.params, hheader.returns, hheader.types,
        hheader.nextValue⟩

-- ======================================================= dead instructions

/-- Rounds of removal come to dropping instructions without effects. -/
theorem removeDeadLoop_eq_keepInstrs {fuel : Nat} {modified modified' : Bool}
    (h : removeDeadLoop fuel modified f = .ok (modified', g)) :
    ∃ keep : Instr → Bool, g = f.keepInstrs keep
        ∧ ∀ i, i.hasSideEffects = true → keep i = true := by
  induction fuel generalizing modified f with
  | zero =>
      cases h
      exact ⟨fun _ => true, (keepInstrs_true _).symm, fun _ _ => rfl⟩
  | succ fuel ih =>
      obtain ⟨rs, -, h⟩ := bind_eq_ok.mp h
      dsimp only at h
      split at h
      · obtain ⟨keep, rfl, hkeep⟩ := ih h
        refine ⟨_, keepInstrs_keepInstrs f _ keep, fun i hi => ?_⟩
        have hnop : i.isNop = false := by
          cases i with
          | nop => cases hi
          | _ => rfl
        simp [isLive, hnop, hi, hkeep i hi]
      · cases h
        exact ⟨fun _ => true, (keepInstrs_true _).symm, fun _ _ => rfl⟩

/-- Rounds of removal add no instruction and keep the name. -/
theorem removeDeadLoop_keeps {fuel : Nat} {modified modified' : Bool}
    (h : removeDeadLoop fuel modified f = .ok (modified', g)) :
    g.name = f.name ∧ ∀ i, g.HasInstr i → f.HasInstr i := by
  obtain ⟨keep, rfl, -⟩ := removeDeadLoop_eq_keepInstrs h
  exact ⟨rfl, fun i hi => (hasInstr_keepInstrs.mp hi).1⟩

/-- Rounds of removal that leave every value placed in memory keep behaviour. -/
theorem removeDeadLoop_preserves {fuel : Nat} {modified modified' : Bool}
    (hwf : f.WellFormed)
    (h : removeDeadLoop fuel modified f = .ok (modified', g))
    (hplaces : ∀ i, f.HasInstr i → i.placesValue = true → g.HasInstr i)
    {m : Module} {k : Nat} (hf : m.func? k = some f) :
    Preserves m (m.setFunc k g) := by
  induction fuel generalizing modified f m with
  | zero =>
      cases h
      rw [Module.setFunc_self hf]
      exact .refl m
  | succ fuel ih =>
      obtain ⟨rs, hrs, hmem⟩ := reads_spec hwf
      rw [removeDeadLoop, hrs, given_ok, ok_bind] at h
      dsimp only at h
      split at h
      · -- this round drops what is neither an effect nor read, then come the others
        obtain ⟨-, hsub⟩ := removeDeadLoop_keeps h
        have hdead {i : Instr}
            (hi : isLive (Std.ExtTreeSet.ofList rs) i = false) :
            i.isNop = true ∨ i.hasSideEffects = false
              ∧ ∀ d ∈ i.dests, ¬ f.Reads d := by
          rw [← Bool.not_eq_true, isLive_iff hmem] at hi
          by_cases hnop : i.isNop = true
          · exact Or.inl hnop
          · refine Or.inr ⟨?_, fun d hd hread =>
              hi ⟨by simpa using hnop, Or.inr ⟨d, hd, hread⟩⟩⟩
            by_contra heff
            exact hi ⟨by simpa using hnop, Or.inl (by simpa using heff)⟩
        have hunread : f.DropsUnread (isLive (Std.ExtTreeSet.ofList rs)) := by
          intro i _ hk d hd
          rcases hdead hk with hnop | ⟨-, hnone⟩
          · cases i with
            | nop => cases hd
            | _ => cases hnop
          · exact hnone d hd
        have hquiet : ∀ i, f.HasInstr i →
            isLive (Std.ExtTreeSet.ofList rs) i = false →
            i.isQuiet = true := by
          intro i hi hk
          have hstays (hp : i.placesValue = true) : False := by
            have := (hasInstr_keepInstrs.mp (hsub i (hplaces i hi hp))).2
            rw [hk] at this
            cases this
          rcases hdead hk with hnop | ⟨hpure, -⟩
          · cases i with
            | nop => rfl
            | _ => cases hnop
          · cases i with
            | addressOf | makeArray => exact absurd rfl hstays
            | call | store | frameAlloc | debug => cases hpure
            | _ => rfl
        have hstep := keepInstrs_replacement hunread hquiet hf
          (Module.func?_setFunc_self hf)
          fun j hj => Module.func?_setFunc_of_ne hj
        have hrest := ih ((reshaped_keepInstrs f _).wellFormed hwf) h
          (fun i hi hp => hplaces i (hasInstr_keepInstrs.mp hi).1 hp)
          (Module.func?_setFunc_self hf)
        rw [Module.setFunc_setFunc] at hrest
        exact (Preserves.of_replacement hstep).trans hrest
      · cases h
        rw [Module.setFunc_self hf]
        exact .refl m

-- ============================================================ both removals

/-- Removing code that cannot matter keeps behaviour. On a valid function the
pass answers. If it leaves every instruction of a reachable block that places a
value in memory, then whatever a call of the module answered within a bound on
steps, it answers afterwards within the same bound, with the same memory and
trace. -/
theorem run_preserves_answers {m : Module} {i : Nat} (hf : m.func? i = some f)
    (hvalid : f.validate = .ok ()) :
    ∃ modified g, run f = .ok (modified, g)
      ∧ ((∀ b blk ins, f.Reachable b → f.block? b = some blk →
            ins ∈ blk.instrs →
          ins.placesValue = true → g.HasInstr ins) →
        ∀ name args s r t, call m name args s = .ok r t →
          ∃ t', call (m.setFunc i g) name args s = .ok r t'
            ∧ t'.memory = t.memory ∧ t'.trace = t.trace) := by
  have hwf := validate_eq_ok_iff.mp hvalid
  obtain ⟨modified₁, k, hk, hcases⟩ := removeUnreachable_spec hwf
  have hkwf : k.WellFormed := by
    rcases hcases with ⟨rfl, -⟩ | ⟨r, hr⟩
    · exact hwf
    · exact (hr.wellFormed hwf).1
  obtain ⟨modified₂, g, hg, -, -⟩ := removeDead_spec hkwf
  refine ⟨modified₁ || modified₂, g, ?_,
    fun hplaces name args s r t hcall => ?_⟩
  · rw [run, instrCount_eq_sum hwf, given_ok, ok_bind, hk, ok_bind]
    dsimp only
    rw [hg]
    rfl
  have hheader := removeUnreachable_header hk
  rw [removeDead, instrCount_eq_sum hkwf, given_ok, ok_bind] at hg
  have hlookup : (m.setFunc i g).lookup name = m.lookup name :=
    Module.lookup_setFunc hf
      ((removeDeadLoop_keeps hg).1.trans hheader.name) name
  have hblocks : Preserves m (m.setFunc i k) := by
    rcases hcases with ⟨rfl, -⟩ | ⟨r, hr⟩
    · rw [Module.setFunc_self hf]
      exact .refl m
    · exact .of_replacement
        (hr.replacement hwf hheader.types hf (Module.func?_setFunc_self hf)
        fun j hj => Module.func?_setFunc_of_ne hj)
  -- what places a value in a block that is left did so in a reachable block
  have hplaced : ∀ ins, k.HasInstr ins → ins.placesValue = true →
      g.HasInstr ins := by
    rintro ins ⟨c, cb, hc, hins⟩ hp
    rcases hcases with ⟨rfl, hall⟩ | ⟨r, hr⟩
    · exact hplaces c cb ins (hall c (hasBlock_of_block? hc)) hc hins hp
    · obtain ⟨b, blk, ps, -, hreach, hb, rfl, -⟩ := hr.origin hwf hc
      obtain ⟨j, hj, rfl⟩ := List.mem_map.mp hins
      have hjp : j.isPhi = false := by
        cases j with
        | phi => cases hp
        | _ => rfl
      rw [Renumbering.instr_of_isPhi_eq_false hjp] at hp ⊢
      exact hplaces b blk j hreach hb hj hp
  have hinstrs :=
    removeDeadLoop_preserves hkwf hg hplaced (Module.func?_setFunc_self hf)
  rw [Module.setFunc_setFunc] at hinstrs
  exact (hblocks.trans hinstrs).call_ok hlookup hcall

/-- A function with an arm that control never takes, a chain of sums that nobody
reads, and a value placed in memory. -/
def strandedArm : Func :=
  { name := "stranded_arm"
    params := [0]
    returns := [.felt]
    nextValue := 6
    blocks :=
      [some { name := "entry", term := some (.jump 2),
              instrs := [.addressOf 1 0, .load 2 .felt (.value 1)] },
       some { name := "stranded", term := some (.jump 2) },
       some { name := "merge", preds := [0, 1], term := some (.ret [.value 3]),
              instrs := [.phi 3 .felt [⟨1, .int 7⟩, ⟨0, .value 2⟩],
                         .binary .add 4 (.value 3) (.int 1),
                           .binary .mul 5 (.value 4) (.value 4),
                         .debug [] [.value 3]] }] }

/-- The arm and the chain go, and the answer stays. -/
theorem run_preserves_answers_strandedArm :
    strandedArm.validate = .ok ()
    ∧ (∃ t, call ⟨[strandedArm]⟩ "stranded_arm" [5] { limit := 8 } = .ok [5] t
      ∧ t.trace = [⟨[], [[5]]⟩])
    ∧ ∃ g, run strandedArm = .ok (true, g) ∧ g.blocks.length = 2
      ∧ ∃ t, call ⟨[g]⟩ "stranded_arm" [5] { limit := 8 } = .ok [5] t
      ∧ t.trace = [⟨[], [[5]]⟩] := by
  obtain ⟨modified, g, hrun, hkeeps⟩ :=
    run_preserves_answers (m := ⟨[strandedArm]⟩) (i := 0)
      (f := strandedArm) rfl rfl
  obtain ⟨g₀, hg₀, hlen, hinstr⟩ : ∃ g₀, run strandedArm = .ok (true, g₀)
      ∧ g₀.blocks.length = 2
      ∧ g₀.HasInstr (.addressOf 1 0) :=
    ⟨_, rfl, rfl, 0, _, rfl, List.mem_cons_self⟩
  rw [hrun, Except.ok.injEq, Prod.mk.injEq] at hg₀
  obtain ⟨rfl, rfl⟩ := hg₀
  have hplaces : ∀ b blk ins, strandedArm.Reachable b →
      strandedArm.block? b = some blk →
      ins ∈ blk.instrs → ins.placesValue = true → g.HasInstr ins := by
    intro b blk ins _ hb hins hp
    obtain ⟨j, rfl, hj⟩ := block?_eq_some_iff.mp hb
    match j with
    | 0 =>
        cases hj
        simp only [List.mem_cons, List.not_mem_nil, or_false] at hins
        rcases hins with rfl | rfl
        · exact hinstr
        · cases hp
    | 1 =>
        cases hj
        cases hins
    | 2 =>
        cases hj
        simp only [List.mem_cons, List.not_mem_nil, or_false] at hins
        rcases hins with rfl | rfl | rfl | rfl <;> cases hp
    | j + 3 => cases hj
  obtain ⟨t, ht, htrace⟩ :
      ∃ t, call ⟨[strandedArm]⟩ "stranded_arm" [5] { limit := 8 } = .ok [5] t
      ∧ t.trace = [⟨[], [[5]]⟩] := ⟨_, rfl, rfl⟩
  obtain ⟨t', ht', -, htrace'⟩ := hkeeps hplaces _ _ _ _ _ ht
  exact ⟨rfl, ⟨t, ht, htrace⟩, g, hrun, hlen, t', ht', htrace'.trans htrace⟩

end DeadCode

end MirBackend
