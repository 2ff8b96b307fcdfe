/-
Copies at the ends of blocks do what phis do.

A function without phis follows the one with phis: at the end of a block its
copies assign what the phis of the next block take there. Three things could
go wrong, and dominance excludes each.

A copy could be seen on another path. It goes into a block with several
successors only when its phi's block has no other predecessor; then that block
dominates none of the others (`not_dominates_of_sole_pred`), and the value is
not available where the other paths go. A copy could overwrite what another
copy still has to read; the copies of a block do what they do at once. And a
copy could disturb the terminator behind it. With several successors this is
the first case again. With one, the terminator may read what was overwritten,
but it leads to the same block whatever it reads, if it can read it: a
condition of one slot, or a comparison of operands with as many slots as
before.
-/
import Mathlib
import MirBackend.Proofs.Func.Places
import MirBackend.Proofs.Interp.EdgeSplit
import MirBackend.Proofs.Interp.Frame
import MirBackend.Proofs.Pass.CopyPlacement

namespace MirBackend

-- =============================================================== dominance

namespace Func

/-- A block whose only predecessor can be reached does not dominate it. -/
theorem not_dominates_of_sole_pred {f : Func} {b p : BlockId}
    (hne : b ≠ f.entry) (hsole : ∀ q, f.HasEdge q b → q = p)
    (hp : f.Reachable p) : ¬ f.Dominates b p := by
  intro hd
  -- every walk to `p` has a shorter one inside
  have hnone (n : Nat) : ∀ trail, trail.length = n → ¬ f.Walk p trail := by
    induction n using Nat.strong_induction_on with
    | _ n ih =>
        intro trail hlen hw
        obtain ⟨part, hpart, hsuf⟩ := hw.part_of_mem (hd trail hw)
        cases hpart with
        | start => exact hne rfl
        | step hq hedge _ =>
            obtain rfl := hsole _ hedge
            have := hsuf.length_le
            rw [List.length_cons] at this
            exact ih _ (by omega) _ rfl hq
  obtain ⟨trail, hw⟩ := hp
  exact hnone _ trail rfl hw

end Func

-- ============================================================= terminators

namespace Interp

/-- A comparison can be made of any operands with as many slots. -/
theorem binaryOp_ok_of_length {op : BinaryOp} (hop : op.isComparison = true)
    {l r l' r' v : Slots} (hl : l'.length = l.length)
    (hr : r'.length = r.length) (h : binaryOp op l r = .ok v) :
    ∃ v', binaryOp op l' r' = .ok v' := by
  -- a word is read off any slots but none at all
  have hword (xs ys : Slots) (hlen : ys.length = xs.length) (a : UInt32)
      (hx : wordOf xs = .ok a) : ∃ b, wordOf ys = .ok b := by
    match xs, ys with
    | [], _ => cases hx
    | _ :: _, [] => cases hlen
    | _, [b] => exact ⟨_, rfl⟩
    | _, b :: c :: ys => exact ⟨_, rfl⟩
  unfold binaryOp at h ⊢
  split at h
  -- words of 32 bits
  · next hu =>
    cases hla : wordOf l with
    | error e =>
        rw [hla] at h
        cases h
    | ok a =>
        cases hrb : wordOf r with
        | error e =>
            rw [hla, hrb] at h
            cases h
        | ok b =>
            obtain ⟨a', ha'⟩ := hword l l' hl a hla
            obtain ⟨b', hb'⟩ := hword r r' hr b hrb
            rw [if_pos hu, ha', hb']
            cases op with
            | u32Eq | u32Neq | u32Less | u32Greater | u32LessEqual | u32GreaterEqual =>
                exact ⟨_, rfl⟩
            | _ =>
                first
                  | exact absurd hop Bool.false_ne_true
                  | exact absurd hu Bool.false_ne_true
  -- single slots
  · next hu =>
    rw [if_neg hu]
    match l, r, l', r' with
    | [a], [b], [a'], [b'] =>
        cases op with
        | eq | neq | less | greater | lessEqual | greaterEqual => exact ⟨_, rfl⟩
        | _ => first | exact absurd hop Bool.false_ne_true | exact absurd rfl hu
    | [], _, _, _ => cases h
    | _ :: _ :: _, _, _, _ => cases h
    | [_], [], _, _ => cases h
    | [_], _ :: _ :: _, _, _ => cases h
    | [_], [_], [], _ => cases hl
    | [_], [_], _ :: _ :: _, _ => cases hl
    | [_], [_], [_], [] => cases hr
    | [_], [_], [_], _ :: _ :: _ => cases hr

/-- A terminator with one successor leads there in any frame in which its
operands have as many slots. -/
theorem nextOf_of_length {fr fr' : Frame} {t : Terminator} {b : BlockId}
    (hone : t.targets.length ≤ 1)
    (htest : ∀ op l r u e, t = .branchCmp op l r u e → op.isComparison = true)
    (hlen : ∀ o ∈ t.operands, ∀ x, look fr o = some x →
      ∃ y, look fr' o = some y ∧ y.slots.length = x.slots.length)
    (h : nextOf fr (some t) = some (.block b)) :
    nextOf fr' (some t) = some (.block b) := by
  -- with one target both ways lead there
  have htargets (u e : BlockId) (hue : (if u = e then [u] else [u, e]).length
      ≤ 1) : u = e := by
    by_contra hne
    rw [if_neg hne] at hue
    simp at hue
  cases t with
  | jump u => exact h
  | unreachable => cases h
  | ret vs =>
      obtain ⟨xs, -, hxs⟩ := Option.map_eq_some_iff.mp h
      cases hxs
  | branch c u e =>
      obtain rfl := htargets u e hone
      obtain ⟨x, hx, hb⟩ := Option.map_eq_some_iff.mp h
      rw [ite_self] at hb
      obtain ⟨v, hv, hslots⟩ := lookScalar_eq_some.mp hx
      obtain ⟨y, hy, hylen⟩ := hlen c List.mem_cons_self v hv
      rw [hslots, List.length_singleton] at hylen
      obtain ⟨z, hz⟩ := List.length_eq_one_iff.mp hylen
      have hscalar : lookScalar fr' c = some z :=
        lookScalar_eq_some.mpr ⟨y, hy, hz⟩
      show (lookScalar fr' c).map _ = _
      rw [hscalar, Option.map_some, ite_self, hb]
  | branchCmp op l r u e =>
      obtain rfl := htargets u e hone
      obtain ⟨x, hx, hb⟩ := Option.map_eq_some_iff.mp h
      rw [ite_self] at hb
      obtain ⟨xl, xr, v, hxl, hxr, hv, -⟩ := lookTest_eq_some.mp hx
      obtain ⟨yl, hyl, hllen⟩ := hlen l List.mem_cons_self xl hxl
      obtain ⟨yr, hyr, hrlen⟩ :=
        hlen r (List.mem_cons_of_mem _ List.mem_cons_self) xr hxr
      obtain ⟨v', hv'⟩ :=
        binaryOp_ok_of_length (htest op l r u u rfl) hllen hrlen hv
      have htest' : lookTest fr' op l r = some _ :=
        lookTest_eq_some.mpr ⟨yl, yr, v', hyl, hyr, hv', rfl⟩
      show (lookTest fr' op l r).map _ = _
      rw [htest', Option.map_some, ite_self, hb]

end Interp

namespace PhiRemoval

open Func ParallelCopy Interp

-- ==================================================================== form

/-- The form of a function whose phis can become copies: strict single
assignment, one source for each predecessor, value numbers below the counter,
and branches that compare. -/
structure Lowerable (f : Func) : Prop where
  strict : f.Strict
  single : f.SingleAssignment
  sources : SourcesDistinct f
  range : ∀ v, f.Reads v ∨ f.Defined v → v.toInt < f.nextValue.toInt
  tests : ∀ b blk op l r t e, f.block? b = some blk →
    blk.term = some (.branchCmp op l r t e) →
    op.isComparison = true

/-- What phi removal works on: a function of that form whose phis are
isolated. -/
structure Ready (f : Func) (bs : List Block) : Prop extends Lowerable f where
  linked : f.Linked
  isolated : ∀ b, Isolated f b
  blocks : f.blocks = bs.map some

/-- A function with copies in the place of phis. -/
structure Lowered (f g : Func) (bs : List Block) : Prop where
  name : g.name = f.name
  entry : g.entry = f.entry
  params : g.params = f.params
  types : ∀ v : ValueId, v.toInt < f.nextValue.toInt → g.typeOf v = f.typeOf v
  block : ∀ b blk, f.block? b = some blk → ∃ out : List Copy,
    g.block? b
      = some { blk with instrs := blk.body.filter keepsRest ++ out.map Copy.toInstr }
    ∧ Performs (copiesInto (bs.flatMap phiCopies) b) f.nextValue.toInt out

variable {f g : Func} {bs : List Block}

namespace AsksFor

variable {b target : BlockId} {c : Copy} {t : Ty}
  {ss : List PhiSource} {s : PhiSource}

/-- A phi asks for copies at the end of a predecessor. -/
theorem hasEdge (h : AsksFor f b c target t ss s) (hl : f.Linked) :
    f.HasEdge b target := by
  obtain ⟨blk, hblk, hphi⟩ := h.phi
  exact h.block ▸ hl.source target blk hblk c.dest t ss hphi s h.source

/-- That block is one of the phi's sources. -/
theorem isSource (h : AsksFor f b c target t ss s) : IsSource f b target := by
  obtain ⟨blk, hblk, hphi⟩ := h.phi
  exact ⟨blk, hblk, mem_phiBlocks.mpr ⟨c.dest, t, ss, hphi, s,
    h.source, h.block⟩⟩

/-- And the phi defines what is copied to. -/
theorem definedAt (h : AsksFor f b c target t ss s) :
    ∃ i, f.DefinedAt target i c.dest := by
  obtain ⟨blk, hblk, hphi⟩ := h.phi
  obtain ⟨i, hi⟩ := List.mem_iff_getElem?.mp hphi
  exact ⟨i, blk, _, hblk, hi, List.mem_cons_self⟩

/-- No phi stands in the entry, which nothing precedes. -/
theorem ne_entry (h : AsksFor f b c target t ss s) (hl : f.Linked) :
    target ≠ f.entry := by
  intro heq
  obtain ⟨blk, hblk, hphi⟩ := h.phi
  obtain ⟨eb, heb, hno⟩ := hl.entry
  rw [heq, heb, Option.some.injEq] at hblk
  subst hblk
  cases hno _ hphi

/-- A copy in a block with several successors assigns what is not available
there. -/
theorem not_availableOut (h : AsksFor f b c target t ss s) (hf : Ready f bs)
    (hb : f.Reachable b) {blk : Block} (hblk : f.block? b = some blk)
    (hmany : 1 < blk.targets.length) : ¬ f.AvailableOut b c.dest := by
  obtain ⟨i, hdef⟩ := h.definedAt
  obtain ⟨tb, htb⟩ := hf.linked.target_exists (h.hasEdge hf.linked)
  have hone : tb.preds.length ≤ 1 :=
    (hf.isolated target b h.isSource blk tb hblk htb).resolve_left (by omega)
  -- the target is entered from this block alone
  have hsole : ∀ q, f.HasEdge q target → q = b := by
    intro q hq
    have hqp := hf.linked.mem_preds hq htb
    have hbp := hf.linked.mem_preds (h.hasEdge hf.linked) htb
    rcases hps : tb.preds with - | ⟨p, - | ⟨p', ps⟩⟩
    · rw [hps] at hqp
      cases hqp
    · rw [hps, List.mem_singleton] at hqp hbp
      rw [hqp, hbp]
    · rw [hps] at hone
      simp at hone
  intro hav
  rcases hav with hp | ⟨p, j, hdef', hdom⟩
  · exact hf.single.params _ hp (mem_definedValues.mpr ⟨target, i, hdef⟩)
  · obtain ⟨rfl, -⟩ := hf.single.unique hdef' hdef
    exact not_dominates_of_sole_pred (h.ne_entry hf.linked) hsole hb hdom

end AsksFor

/-- Two targets make two successors. -/
theorem one_lt_targets {blk : Block} {a b : BlockId} (ha : a ∈ blk.targets)
    (hb : b ∈ blk.targets) (hne : a ≠ b) : 1 < blk.targets.length := by
  rcases hts : blk.targets with - | ⟨p, - | ⟨p', ps⟩⟩
  · rw [hts] at ha
    cases ha
  · rw [hts, List.mem_singleton] at ha hb
    exact absurd (ha.trans hb.symm) hne
  · simp

/-- What is available in the next block, but not from its phis, is available at
the end of this one, and no copy assigns it. -/
theorem available_before (hf : Ready f bs) {cur next : BlockId}
    (hcur : f.Reachable cur) (he : f.HasEdge cur next) {nb : Block}
    (hnb : f.block? next = some nb) {v : ValueId}
    (hv : f.AvailableAt next nb.phiCount v)
    (hphi : v ∉ nb.leadingPhis.flatMap Instr.dests) : f.AvailableOut cur v
      ∧ ∀ c ∈ copiesInto (bs.flatMap phiCopies) cur, c.dest ≠ v := by
  rcases (hv.before_phis hnb).resolve_left hphi with hp
    | ⟨p, i, hdef, ⟨-, hi⟩ | ⟨hne, hdom⟩⟩
  · refine ⟨Or.inl hp, fun c hc heq => ?_⟩
    obtain ⟨target, t, ss, s, hask⟩ := mem_copiesInto hf.blocks hc
    obtain ⟨j, hdef⟩ := hask.definedAt
    exact hf.single.params v hp (heq ▸ mem_definedValues.mpr ⟨target, j, hdef⟩)
  -- defined in the block itself, which has not begun
  · exact absurd hi (Nat.not_lt_zero i)
  · refine ⟨Or.inr ⟨p, i, hdef, fun trail hw => ?_⟩, fun c hc heq => ?_⟩
    · have := hdom _ (hw.step he (hasBlock_of_block? hnb))
      exact (List.mem_cons.mp this).resolve_left hne
    · obtain ⟨target, t, ss, s, hask⟩ := mem_copiesInto hf.blocks hc
      obtain ⟨j, hdef'⟩ := hask.definedAt
      obtain ⟨rfl, -⟩ := hf.single.unique hdef (heq ▸ hdef')
      obtain ⟨blk, hblk, hnext⟩ := he
      obtain ⟨blk', hblk', htarget⟩ := hask.hasEdge hf.linked
      rw [hblk, Option.some.injEq] at hblk'
      subst hblk'
      refine hask.not_availableOut hf hcur hblk
        (one_lt_targets htarget hnext hne) ?_
      refine Or.inr ⟨p, i, heq ▸ hdef, fun trail hw => ?_⟩
      have := hdom _ (hw.step ⟨blk, hblk, hnext⟩ (hasBlock_of_block? hnb))
      exact (List.mem_cons.mp this).resolve_left hne

-- ================================================================ tracking

/-- The phis that were entered hold values with as many slots as their types
say. -/
def PhisFit (f : Func) (fr : Frame) : Prop :=
  ∀ d t ss, f.HasInstr (.phi d t ss) → ∀ x, fr[d]? = some x →
    (x.slots.length : Int) = t.slots.toInt

/-- Related places: the same block, the same instructions to come but for those
that were dropped and the copies at the end, and frames that agree on what is
available. -/
structure Tracks (f g : Func) (bs : List Block)
    (c c' : Interp.Place) : Prop where
  block : c'.block = c.block
  reachable : f.Reachable c.block
  fit : PhisFit f c.frame
  place : ∃ blk j out, f.block? c.block = some blk ∧ c.rest = blk.instrs.drop j
    ∧ blk.phiCount ≤ j
    ∧ g.block? c.block
      = some { blk with instrs := blk.body.filter keepsRest ++ out.map Copy.toInstr }
    ∧ Performs (copiesInto (bs.flatMap phiCopies) c.block) f.nextValue.toInt out
    ∧ c'.rest = c.rest.filter keepsRest ++ out.map Copy.toInstr
    ∧ ∀ v, f.AvailableAt c.block j v → c.frame[v]? = c'.frame[v]?

/-- The rest of a block behind its phis is what follows them. -/
theorem isPhi_of_mem_drop {blk : Block} (h : PhisLead blk.instrs) {j : Nat}
    (hj : blk.phiCount ≤ j) {i : Instr} (hi : i ∈ blk.instrs.drop j) :
    i.isPhi = false := by
  refine h.isPhi_of_mem_body (blk.body_eq_drop ▸ ?_)
  obtain ⟨k, rfl⟩ := Nat.exists_eq_add_of_le hj
  rw [← List.drop_drop] at hi
  exact List.mem_of_mem_drop hi

/-- An instruction that is no phi defines no value of a phi. -/
theorem not_phi_dest (hsa : f.SingleAssignment) {b : BlockId} {j : Nat}
    {blk : Block} {i : Instr} (hb : f.block? b = some blk)
    (hj : blk.instrs[j]? = some i) (hi : i.isPhi = false) {d : ValueId} {t : Ty}
    {ss : List PhiSource} (hphi : f.HasInstr (.phi d t ss)) : d ∉ i.dests := by
  intro hd
  obtain ⟨p, pb, hpb, hmem⟩ := hphi
  obtain ⟨k, hk⟩ := List.mem_iff_getElem?.mp hmem
  obtain ⟨rfl, rfl⟩ := hsa.unique ⟨blk, i, hb, hj, hd⟩ ⟨pb, _, hpb, hk,
    List.mem_cons_self⟩
  rw [hb, Option.some.injEq] at hpb
  subst hpb
  rw [hj, Option.some.injEq] at hk
  subst hk
  cases hi

/-- The next instruction of a block stands behind its phis. -/
theorem getElem?_of_drop {blk : Block} (h : PhisLead blk.instrs) {j : Nat}
    (hj : blk.phiCount ≤ j) {i : Instr} {is : List Instr}
    (hrest : i :: is = blk.instrs.drop j) :
    blk.instrs[j]? = some i ∧ is = blk.instrs.drop
      (j + 1) ∧ i.isPhi = false := by
  obtain ⟨hget, htail⟩ := Block.getElem?_of_rest hrest
  exact ⟨hget, htail, isPhi_of_mem_drop h hj (hrest ▸ List.mem_cons_self)⟩

/-- Assigning the same values to the destinations of the next instruction. -/
theorem Tracks.assign (hf : Ready f bs) {cur : BlockId} {i : Instr}
    {is : List Instr} {fr : Frame} {c' : Interp.Place}
    (h : Tracks f g bs ⟨cur, i :: is, fr⟩ c') {vs : List Value}
    (hlen : i.dests = [] ∨ i.dests.length = vs.length) :
    ∃ is', c'.rest = (if keepsRest i then i :: is' else is')
      ∧ Tracks f g bs ⟨cur, is, insertAll fr (i.dests.zip vs)⟩
        ⟨cur, is', insertAll c'.frame (i.dests.zip vs)⟩ := by
  obtain ⟨blk, j, out, hblk, hrest, hj, hg, hperf, hrest', hagree⟩ := h.place
  have hkeys := map_fst_zip_dests hlen
  obtain ⟨hget, htail, hi⟩ :=
    getElem?_of_drop (hf.linked.phisLead _ _ hblk) hj hrest
  refine ⟨is.filter keepsRest ++ out.map Copy.toInstr, ?_,
    ⟨rfl, h.reachable, ?_, ?_⟩⟩
  · rw [hrest', List.filter_cons]
    split <;> rfl
  · intro d t ss hphi x hx
    rcases getElem?_insertAll_cases hx with hm | ⟨-, hx⟩
    · have := List.mem_map_of_mem (f := (·.1)) hm
      rw [hkeys] at this
      exact absurd this (not_phi_dest hf.single hblk hget hi hphi)
    · exact h.fit d t ss hphi x hx
  · refine ⟨blk, j + 1, out, hblk, htail, by omega, hg, hperf,
      rfl, fun v hv => ?_⟩
    refine getElem?_insertAll_congr fun hnot => ?_
    rw [hkeys] at hnot
    refine hagree v ?_
    rcases hv with hp | ⟨p, k, hdef, ⟨rfl, hk⟩ | hdom⟩
    · exact Or.inl hp
    · refine Or.inr ⟨p, k, hdef, Or.inl ⟨rfl, ?_⟩⟩
      -- it is not the instruction just done that defines the value
      rcases Nat.lt_succ_iff_lt_or_eq.mp hk with hk | rfl
      · exact hk
      · obtain ⟨pb, ins, hpb, hins, hd⟩ := hdef
        rw [show f.block? p = _ from hblk, Option.some.injEq] at hpb
        subst hpb
        rw [hget, Option.some.injEq] at hins
        subst hins
        exact absurd hd hnot
    · exact Or.inr ⟨p, k, hdef, Or.inr hdom⟩

/-- What the next instruction reads is the same in both frames. -/
theorem Tracks.agree (hf : Ready f bs) {cur : BlockId} {i : Instr}
    {is : List Instr} {fr : Frame} {c' : Interp.Place}
    (h : Tracks f g bs ⟨cur, i :: is, fr⟩ c') :
    Agree fr c'.frame i.operands := by
  obtain ⟨blk, j, out, hblk, hrest, hj, -, -, -, hagree⟩ := h.place
  obtain ⟨hget, -, hi⟩ :=
    getElem?_of_drop (hf.linked.phisLead _ _ hblk) hj hrest
  exact agree_of_ids fun v hv =>
    hagree v (hf.strict.instr cur blk hblk h.reachable j i hget hi v hv)

/-- What the next instruction reads has the types it had. -/
theorem Tracks.types (hf : Ready f bs) (hg : Lowered f g bs)
    {cur : BlockId} {i : Instr} {is : List Instr} {fr : Frame}
    {c' : Interp.Place} (h : Tracks f g bs ⟨cur, i :: is, fr⟩ c') :
    ∀ o ∈ i.operands, g.operandType o = f.operandType o := by
  obtain ⟨blk, j, out, hblk, hrest, hj, -⟩ := h.place
  obtain ⟨hget, -, -⟩ := getElem?_of_drop (hf.linked.phisLead _ _ hblk) hj hrest
  intro o ho
  cases o with
  | value v =>
      have hread : f.Reads v :=
        ⟨cur, blk, hblk, Or.inl ⟨i, List.mem_of_getElem? hget,
        List.mem_filterMap.mpr ⟨_, ho, rfl⟩⟩⟩
      exact hg.types v (hf.range v (Or.inl hread))
  | _ => rfl

-- ========================================================== end of a block

/-- A value has one phi at most. -/
theorem phi_type_unique (hsa : f.SingleAssignment) {d : ValueId} {t t' : Ty}
    {ss ss' : List PhiSource} (h : f.HasInstr (.phi d t ss))
    (h' : f.HasInstr (.phi d t' ss')) : t = t' := by
  obtain ⟨p, pb, hpb, hmem⟩ := h
  obtain ⟨q, qb, hqb, hmem'⟩ := h'
  obtain ⟨i, hi⟩ := List.mem_iff_getElem?.mp hmem
  obtain ⟨k, hk⟩ := List.mem_iff_getElem?.mp hmem'
  obtain ⟨rfl, rfl⟩ := hsa.unique ⟨pb, _, hpb, hi, List.mem_cons_self⟩
    ⟨qb, _, hqb, hk, List.mem_cons_self⟩
  rw [hpb, Option.some.injEq] at hqb
  subst hqb
  rw [hi, Option.some.injEq] at hk
  cases hk
  rfl

/-- The frame after the copies of a block: destinations have what phis take, the
rest of what is available is as it was. -/
structure Copied (f : Func) (bs : List Block) (cur : BlockId)
    (fr fr' : Frame) : Prop where
  dest : ∀ c ∈ copiesInto (bs.flatMap phiCopies) cur,
    fr'[c.dest]? = look fr c.source
  fits : ∀ c ∈ copiesInto (bs.flatMap phiCopies) cur, ∃ t ss x,
    f.HasInstr (.phi c.dest t ss)
    ∧ look fr c.source = some x ∧ (x.slots.length : Int) = t.slots.toInt
  rest : ∀ v, f.AvailableOut cur v →
    (∀ c ∈ copiesInto (bs.flatMap phiCopies) cur, c.dest ≠ v) →
    fr'[v]? = fr[v]?

/-- Doing the copies at the end of a block. -/
theorem exists_copied (hf : Ready f bs) {cur : BlockId}
    (hcur : f.Reachable cur) {fr fr' : Frame}
    (hagree : ∀ v, f.AvailableOut cur v → fr[v]? = fr'[v]?)
    (hfit : Fits f cur fr) {out : List Copy}
    (hperf : Performs (copiesInto (bs.flatMap phiCopies) cur)
      f.nextValue.toInt out) :
    ∃ fr₁, assignAll fr' out = some fr₁ ∧ Copied f bs cur fr fr₁ := by
  -- each source is read alike before and after, and its value fits the phi
  have hsource (c : Copy) (hc : c ∈ copiesInto (bs.flatMap phiCopies) cur) :
      look fr' c.source = look fr c.source ∧ ∃ t ss x,
        f.HasInstr (.phi c.dest t ss)
        ∧ look fr c.source = some x ∧ (x.slots.length : Int)
        = t.slots.toInt := by
    obtain ⟨target, t, ss, s, hask⟩ := mem_copiesInto hf.blocks hc
    obtain ⟨tb, htb, hphi⟩ := hask.phi
    obtain ⟨x, hx, hslots⟩ :=
      hfit target tb c.dest t ss htb hphi s hask.source hask.block
    have htarget := hcur.step (hask.hasEdge hf.linked) (hasBlock_of_block? htb)
    refine ⟨?_, t, ss, x, ⟨target, tb, htb, hphi⟩, by rw [hask.value]; exact hx,
      hslots⟩
    rw [hask.value]
    cases hv : s.value with
    | value v =>
        have :=
          hf.strict.phi target tb htb htarget c.dest t ss hphi s hask.source
          (hask.block ▸ hcur) v hv
        exact (hagree v (hask.block ▸ this)).symm
    | _ => rfl
  -- so the copies can be made one after the other
  have hask : Askable (copiesInto (bs.flatMap phiCopies) cur)
      f.nextValue.toInt fr' := by
    refine ⟨copiesInto_distinct hf.blocks hf.single hf.sources cur,
      fun c hc => ?_, fun c hc => ?_⟩
    · obtain ⟨target, t, ss, s, hask⟩ := mem_copiesInto hf.blocks hc
      obtain ⟨i, hdef⟩ := hask.definedAt
      exact hf.range
        _ (Or.inr (Or.inr (mem_definedValues.mpr ⟨target, i, hdef⟩)))
    · obtain ⟨hlook, -, -, x, -, hx, -⟩ := hsource c hc
      rw [hlook, hx]
      rfl
  obtain ⟨fr₁, hassign, hdest, hrest⟩ := hperf fr' hask
  refine ⟨fr₁, hassign, fun c hc => ?_, fun c hc => (hsource c hc).2,
    fun v hv hnot => ?_⟩
  · rw [hdest c hc, (hsource c hc).1]
  · rw [hrest v (hf.range v (Or.inr hv.defined)) hnot, ← hagree v hv]

/-- The copies do not change where control goes. -/
theorem Copied.nextOf (hf : Ready f bs) {cur next : BlockId} {fr fr₁ : Frame}
    (h : Copied f bs cur fr fr₁) (hcur : f.Reachable cur)
    (hfit : PhisFit f fr) {b : Block} (hb : f.block? cur = some b)
    (hterm : nextOf fr b.term = some (.block next)) :
    nextOf fr₁ b.term = some (.block next) := by
  obtain ⟨t, ht⟩ : ∃ t, b.term = some t := by
    cases hbt : b.term with
    | none =>
        rw [hbt] at hterm
        cases hterm
    | some t => exact ⟨t, rfl⟩
  have huse (v : ValueId) (hv : Operand.value v ∈ t.operands) :
      f.AvailableOut cur v := by
    refine hf.strict.term cur b hb hcur v ?_
    rw [ht]
    exact List.mem_filterMap.mpr ⟨_, hv, rfl⟩
  rw [ht] at hterm ⊢
  by_cases hmany : 1 < b.targets.length
  · -- no copy assigns what is available
    rw [← hterm]
    refine (nextOf_congr fun o ho => ?_).symm
    cases o with
    | value v =>
        refine (h.rest v (huse v ho) fun c hc heq => ?_).symm
        obtain ⟨target, t', ss, s, hask⟩ := mem_copiesInto hf.blocks hc
        exact hask.not_availableOut hf hcur hb hmany (heq ▸ huse v ho)
    | _ => rfl
  · refine nextOf_of_length ?_ (fun op l r u e hcmp => ?_)
      (fun o ho x hx => ?_) hterm
    · rw [Block.targets, ht] at hmany
      exact Nat.le_of_not_lt hmany
    · exact hf.tests cur b op l r u e hb (by rw [ht, hcmp])
    · cases o with
      | value v =>
          by_cases hcopy : ∃ c ∈ copiesInto (bs.flatMap phiCopies) cur,
            c.dest = v
          · obtain ⟨c, hc, rfl⟩ := hcopy
            obtain ⟨t', ss, y, hphi, hy, hslots⟩ := h.fits c hc
            have hx' := hfit c.dest t' ss hphi x hx
            exact ⟨y, (h.dest c hc).trans hy, by omega⟩
          · have hsame := h.rest v (huse v ho) fun c hc heq =>
              hcopy ⟨c, hc, heq⟩
            exact ⟨x, hsame.trans hx, rfl⟩
      | _ => exact ⟨x, hx, rfl⟩

/-- After the copies, the next block is entered as after its phis. -/
theorem Copied.enter (hf : Ready f bs) {cur next : BlockId} {fr fr₁ : Frame}
    (h : Copied f bs cur fr fr₁) (hcur : f.Reachable cur)
    (he : f.HasEdge cur next) {nb : Block} (hnb : f.block? next = some nb)
    {ps : List (ValueId × Value)}
    (hps : phiLooks fr cur nb.leadingPhis = some ps) {v : ValueId}
    (hv : f.AvailableAt next nb.phiCount v) :
    (insertAll fr ps)[v]? = fr₁[v]? := by
  have hlead : ∀ i ∈ nb.leadingPhis, i.isPhi = true :=
    fun i hi => List.mem_takeWhile_imp hi
  have hsub : nb.leadingPhis.Sublist nb.instrs := List.takeWhile_sublist _
  obtain ⟨hkeys, hfrom⟩ := phiLooks_spec hlead hps
  by_cases hphi : v ∈ nb.leadingPhis.flatMap Instr.dests
  · have hnd : (ps.map (·.1)).Nodup := by
      rw [hkeys]
      exact (hf.single.block_nodup hnb).sublist (hsub.flatMap _)
    rw [← hkeys] at hphi
    obtain ⟨⟨d, x⟩, hm, rfl⟩ := List.mem_map.mp hphi
    obtain ⟨t, ss, s, hmem, hs, hsb, hx⟩ := hfrom (d, x) hm
    obtain ⟨c, hc, hcd, hcs⟩ :=
      exists_mem_copiesInto hf.blocks hnb (hsub.subset hmem) hs
    rw [hsb] at hc
    rw [getElem?_insertAll_of_mem hnd hm]
    have := h.dest c hc
    rw [hcd, hcs, hx] at this
    exact this.symm
  · obtain ⟨hout, hnot⟩ := available_before hf hcur he hnb hv hphi
    rw [getElem?_insertAll_of_not_mem (by rwa [hkeys]), h.rest v hout hnot]

/-- Entering a block keeps the slots of phis. -/
theorem PhisFit.enter (hsa : f.SingleAssignment)
    {cur next : BlockId} {fr : Frame} (h : PhisFit f fr) (hfit : Fits f cur fr)
    {nb : Block} (hnb : f.block? next = some nb) {ps : List (ValueId × Value)}
    (hps : phiLooks fr cur nb.leadingPhis = some ps) :
    PhisFit f (insertAll fr ps) := by
  have hlead : ∀ i ∈ nb.leadingPhis, i.isPhi = true :=
    fun i hi => List.mem_takeWhile_imp hi
  intro d t ss hphi x hx
  rcases getElem?_insertAll_cases hx with hm | ⟨-, hx⟩
  · obtain ⟨t', ss', s, hmem, hs, hsb, hlook⟩ :=
      (phiLooks_spec hlead hps).2 (d, x) hm
    have hmem' : Instr.phi d t' ss' ∈ nb.instrs :=
      (List.takeWhile_sublist _).subset hmem
    obtain ⟨y, hy, hslots⟩ := hfit next nb d t' ss' hnb hmem' s hs hsb
    rw [hlook, Option.some.injEq] at hy
    subst hy
    rw [phi_type_unique hsa hphi ⟨next, nb, hnb, hmem'⟩]
    exact hslots
  · exact h d t ss hphi x hx

-- ============================================================== simulation

/-- Copies one after the other, as instructions. -/
theorem follows_copies {m : Module} {Q : Promise} {k : FuncId}
    (hg : m.func? k = some g) {cur : BlockId} {out : List Copy} {fr fr₁ : Frame}
    (h : assignAll fr out = some fr₁) (w : Machine) :
    Follows m Q k ⟨cur, out.map Copy.toInstr, fr⟩ w ⟨cur, [], fr₁⟩ w := by
  induction out generalizing fr with
  | nil =>
      cases h
      exact .refl _ _
  | cons c out ih =>
      obtain ⟨x, hx, h⟩ := Option.bind_eq_some_iff.mp h
      have hrun : exec ⟨[]⟩ refuse g fr c.toInstr w
          = .ok (fr.insert c.dest x) w :=
        bind_ok_iff.mpr ⟨x, w, eval_ok_iff.mpr ⟨hx, rfl⟩, rfl⟩
      intro n vs w' hn
      obtain ⟨n', hn'⟩ := ih h n vs w' hn
      exact ⟨n' + 1, .instr hg hrun hn'⟩

/-- A block that a function ends without successors gets no copies. -/
theorem copiesInto_eq_nil (hf : Ready f bs) {cur : BlockId} {b : Block}
    (hb : f.block? cur = some b) (hnone : b.targets = []) :
    copiesInto (bs.flatMap phiCopies) cur = [] := by
  refine List.eq_nil_iff_forall_not_mem.mpr fun c hc => ?_
  obtain ⟨target, t, ss, s, hask⟩ := mem_copiesInto hf.blocks hc
  obtain ⟨b', hb', htarget⟩ := hask.hasEdge hf.linked
  rw [hb, Option.some.injEq] at hb'
  subst hb'
  rw [hnone] at htarget
  cases htarget

/-- No phi is left in a block with copies. -/
theorem isPhi_of_mem_lowered {blk : Block}
    (hlead : PhisLead blk.instrs) (out : List Copy) {i : Instr}
    (hi : i ∈ blk.body.filter keepsRest ++ out.map Copy.toInstr) :
    i.isPhi = false := by
  rcases List.mem_append.mp hi with hi | hi
  · exact hlead.isPhi_of_mem_body (List.mem_filter.mp hi).1
  · obtain ⟨c, -, rfl⟩ := List.mem_map.mp hi
    rfl

/-- Entering a block of the function with copies. -/
theorem Lowered.enter (hf : Ready f bs) (hg : Lowered f g bs)
    {b : BlockId} {blk : Block} (hb : f.block? b = some blk) :
    ∃ blk', g.block? b = some blk' ∧ blk'.term = blk.term
        ∧ blk'.leadingPhis = []
      ∧ ∀ fr fr', f.Reachable b → PhisFit f fr →
        (∀ v, f.AvailableAt b blk.phiCount v → fr[v]? = fr'[v]?) →
        Tracks f g bs ⟨b, blk.body, fr⟩ ⟨b, blk'.body, fr'⟩ := by
  obtain ⟨out, hout, hperf⟩ := hg.block b blk hb
  have hno : ∀ i ∈ blk.body.filter keepsRest ++ out.map Copy.toInstr,
      i.isPhi = false :=
    fun i hi => isPhi_of_mem_lowered (hf.linked.phisLead _ _ hb) out hi
  refine ⟨_, hout, rfl, leadingPhis_eq_nil hno, fun fr fr' hr hfit hagree => ?_⟩
  refine ⟨rfl, hr, hfit, blk, blk.phiCount, out, hb, blk.body_eq_drop,
    le_refl _, hout, hperf, ?_, hagree⟩
  exact body_eq_instrs hno

/-- At the start no phi was entered. -/
theorem phisFit_argFrame (hsa : f.SingleAssignment) (xs : List Value) :
    PhisFit f (argFrame f xs) := by
  intro d t ss hphi x hx
  rcases getElem?_insertAll_cases hx with hm | ⟨-, hx⟩
  · have hd : d ∈ f.params := (List.of_mem_zip hm).1
    exact absurd (mem_definedValues_iff_hasInstr.mpr ⟨_, hphi,
      List.mem_cons_self⟩)
      (hsa.params d hd)
  · simp at hx

/-- An instruction is followed by the same, or by none if it does nothing. -/
theorem Tracks.step (hf : Ready f bs) (hg : Lowered f g bs)
    {m' : Module} {Q' : Promise} {k : FuncId} (hnew : m'.func? k = some g)
    {cur : BlockId} {i : Instr} {is : List Instr} {fr fr₁ : Frame}
    {c' : Interp.Place} {w w₁ : Machine}
    (h : Tracks f g bs ⟨cur, i :: is, fr⟩ c')
    (hrun : exec ⟨[]⟩ refuse f fr i w = .ok fr₁ w₁) :
    ∃ c₁, Tracks f g bs ⟨cur, is, fr₁⟩ c₁ ∧ Follows m' Q' k c' w c₁ w₁ := by
  obtain ⟨vs, hlen, rfl, hrun'⟩ :=
    exec_sets (h.agree hf) (h.types hf hg) w fr₁ w₁ hrun
  obtain ⟨is', hrest, htrack⟩ := h.assign hf (Or.inr hlen.symm)
  refine ⟨_, htrack, fun n rs w' hn => ?_⟩
  rw [h.block, hrest]
  split
  · exact ⟨n + 1, .instr hnew hrun' hn⟩
  · next hdrop =>
    cases i with
    | nop =>
        obtain ⟨hsame, rfl⟩ := pure_ok_iff.mp hrun'
        rw [← hsame] at hn
        exact ⟨n, hn⟩
    | phi d t ss => exact absurd hrun failWith_ne_ok
    | _ => exact absurd rfl hdrop

/-- At the end of a block only its copies are left, and frames agree on what is
available there. -/
theorem Tracks.ending {cur : BlockId} {b : Block} {fr : Frame}
    {c' : Interp.Place} (h : Tracks f g bs ⟨cur, [], fr⟩ c')
    (hb : f.block? cur = some b) :
    ∃ out : List Copy, c' = ⟨cur, out.map Copy.toInstr, c'.frame⟩
      ∧ g.block? cur
      = some { b with instrs := b.body.filter keepsRest ++ out.map Copy.toInstr }
      ∧ Performs (copiesInto (bs.flatMap phiCopies) cur) f.nextValue.toInt out
      ∧ ∀ v, f.AvailableOut cur v → fr[v]? = c'.frame[v]? := by
  obtain ⟨blk, j, out, hblk, hrest, hj, hgb, hperf, hrest', hagree⟩ := h.place
  rw [show f.block? cur = _ from hblk, Option.some.injEq] at hb
  subst hb
  refine ⟨out, ?_, hgb, hperf, fun v hv => hagree v ?_⟩
  · obtain ⟨cb, crest, cfr⟩ := c'
    have h1 : cb = cur := h.block
    have h2 : crest = out.map Copy.toInstr := hrest'
    rw [h1, h2]
  · rcases hv with hp | ⟨p, i, hdef, hdom⟩
    · exact Or.inl hp
    · refine Or.inr ⟨p, i, hdef, ?_⟩
      by_cases hpc : p = cur
      · subst hpc
        obtain ⟨pb, ins, hpb, hins, -⟩ := hdef
        rw [show f.block? p = _ from hblk, Option.some.injEq] at hpb
        subst hpb
        have hlt := (List.getElem?_eq_some_iff.mp hins).1
        have hend : blk.instrs.length ≤ j := List.drop_eq_nil_iff.mp hrest.symm
        exact Or.inl ⟨rfl, by omega⟩
      · exact Or.inr ⟨hpc, hdom⟩

/-- The end of a block is followed by its copies and the same terminator. -/
theorem Tracks.jump (hf : Ready f bs) (hg : Lowered f g bs)
    {m' : Module} {k : FuncId} (hnew : m'.func? k = some g) {cur next : BlockId}
    {b nb : Block} {fr : Frame} {c' : Interp.Place}
    {ps : List (ValueId × Value)} (h : Tracks f g bs ⟨cur, [], fr⟩ c')
    (hb : f.block? cur = some b) (hfit : Fits f cur fr)
    (hterm : nextOf fr b.term = some (.block next)) (hthere : next ≠ noBlock)
    (hnb : f.block? next = some nb)
    (hps : phiLooks fr cur nb.leadingPhis = some ps) :
    ∃ c₁, Tracks f g bs ⟨next, nb.body, insertAll fr ps⟩ c₁
      ∧ ∀ w, Follows m' .none k c' w c₁ w := by
  obtain ⟨out, hplace, hgb, hperf, hout⟩ := h.ending hb
  obtain ⟨fr₁, hassign, hcopied⟩ := exists_copied hf h.reachable hout hfit hperf
  have he : f.HasEdge cur next := ⟨b, hb, mem_targets_of_nextOf hterm⟩
  have hreach := h.reachable.step he (hasBlock_of_block? hnb)
  obtain ⟨nb', hnb', -, hlead', hentered⟩ := hg.enter hf hnb
  refine ⟨_, hentered _ fr₁ hreach (h.fit.enter hf.single hfit hnb hps)
    (fun v hv => hcopied.enter hf h.reachable he hnb hps hv), fun w => ?_⟩
  have hphis : phiLooks fr₁ cur nb'.leadingPhis = some [] := by
    rw [hlead']
    rfl
  have hterm' := hcopied.nextOf hf h.reachable h.fit hb hterm
  have hjump : Follows m' .none k ⟨cur, [], fr₁⟩ w ⟨next, nb'.body, fr₁⟩ w :=
    fun n vs w' hn => ⟨n + 1,
    .jump hnew hgb trivial hterm' hthere hnb' hphis hn⟩
  rw [hplace]
  exact (follows_copies hnew hassign w).trans hjump

/-- A terminator that returns has no targets. -/
theorem targets_eq_nil_of_ret {b : Block} {fr : Frame} {vs : List Value}
    (h : nextOf fr b.term = some (.ret vs)) : b.targets = [] := by
  unfold Block.targets
  match hbt : b.term with
  | some (.ret os) => rfl
  | some (.jump u) =>
      rw [hbt] at h
      cases h
  | some (.branch x u e) =>
      rw [hbt] at h
      obtain ⟨y, -, hy⟩ := Option.map_eq_some_iff.mp h
      cases hy
  | some (.branchCmp op l r u e) =>
      rw [hbt] at h
      obtain ⟨y, -, hy⟩ := Option.map_eq_some_iff.mp h
      cases hy
  | some .unreachable | none => rfl

/-- A return is followed by a return of the same values. -/
theorem Tracks.ret (hf : Ready f bs) {m' : Module} {Q' : Promise} {k : FuncId}
    (hnew : m'.func? k = some g) {cur : BlockId} {b : Block} {fr : Frame}
    {c' : Interp.Place} {vs : List Value} (h : Tracks f g bs ⟨cur, [], fr⟩ c')
    (hb : f.block? cur = some b)
    (hterm : nextOf fr b.term = some (.ret vs)) (w : Machine) :
    ∃ n, Returns m' Q' k c'.block c'.rest c'.frame w n vs w := by
  obtain ⟨out, hplace, hgb, hperf, hout⟩ := h.ending hb
  -- without successors there are no copies
  rw [copiesInto_eq_nil hf hb (targets_eq_nil_of_ret hterm)] at hperf
  obtain ⟨fr₁, hassign, -, hrest⟩ :=
    hperf c'.frame ⟨List.nodup_nil, by simp, by simp⟩
  have hterm' : nextOf fr₁ b.term = some (.ret vs) := by
    cases ht : b.term with
    | none =>
        rw [ht] at hterm
        cases hterm
    | some t =>
        rw [ht] at hterm
        rw [← hterm]
        refine (nextOf_congr (agree_of_ids fun v hv => ?_)).symm
        have hav : f.AvailableOut cur v :=
          hf.strict.term cur b hb h.reachable v (by rw [ht]; exact hv)
        rw [hout v hav, hrest v (hf.range v (Or.inr hav.defined)) (by simp)]
  rw [hplace]
  exact follows_copies hnew hassign w 1 vs w (.ret hnew hgb hterm')

/-- The function with copies follows the one with phis. -/
theorem Lowered.simulation (hf : Ready f bs) (hg : Lowered f g bs)
    {m m' : Module} {k : FuncId} (hold : m.func? k = some f)
    (hnew : m'.func? k = some g)
    (hothers : ∀ j, j ≠ k → m'.func? j = m.func? j) :
    Simulation m m' (fitsIn k f) .none k f g (Tracks f g bs) := by
  refine ⟨hold, hnew, hothers, fun _ _ _ _ _ => trivial, hg.params, ?_,
    ?_, ?_, ?_, ?_, ?_⟩
  · -- the entry has no phis, and both frames hold the arguments
    intro xs b ps hb hps
    obtain ⟨eb, heb, hphi⟩ := hf.linked.entry
    rw [hb, Option.some.injEq] at heb
    subst heb
    rw [leadingPhis_eq_nil hphi] at hps
    cases hps
    obtain ⟨b', hb', -, hlead, hentered⟩ := hg.enter hf hb
    have hframe : argFrame g xs = argFrame f xs := by
      rw [argFrame, argFrame, hg.params]
    rw [hg.entry, hframe]
    exact ⟨b', [], hb', by rw [hlead]; rfl,
      hentered _ _ .entry (phisFit_argFrame hf.single xs) fun _ _ => rfl⟩
  · intro cur i is fr c' fr₁ w w₁ h hrun
    exact h.step hf hg hnew hrun
  · intro cur ds c as sig is fr c' xs rs h hxs hlen
    obtain ⟨is', hrest, htrack⟩ := h.assign hf hlen
    have hargs : as.mapM (look c'.frame) = some xs := by
      rw [← hxs]
      exact (mapM_look_congr (h.agree hf)).symm
    obtain ⟨cb, crest, cfr⟩ := c'
    obtain rfl : cb = cur := h.block
    exact ⟨is', cfr, congrArg (Interp.Place.mk cb · cfr) hrest, hargs, htrack⟩
  · intro cur b next nb fr c' ps h hb hfit hterm hthere hnb hps
    exact h.jump hf hg hnew hb (hfit rfl) hterm hthere hnb hps
  · intro cur b fr c' vs h hb hterm w
    exact h.ret hf hnew hb hterm w
  · intro cur b fr c' h hb hterm
    exact absurd hterm (hf.linked.nextOf_ne_noBlock hb)

end PhiRemoval

end MirBackend
