/-
What is available has a value.

A run that comes to a place has passed the definition of everything that is
available there, so the frame has a value for it. One instruction keeps this,
since what is available behind it was available before or is what it assigns;
so does a step to the next block, where the phis come in between
(`Returns.supplied`). No form of the function is asked for: availability says
on its own that a definition is on every way to the place.
-/
import Mathlib
import MirBackend.Proofs.Func.Places
import MirBackend.Proofs.Interp.EdgeSplit
import MirBackend.Proofs.Interp.Frame

namespace MirBackend.Interp

open Func

variable {f : Func} {m : Module} {i k : FuncId}
  {cur next : BlockId} {is : List Instr} {fr : Frame} {v : ValueId}

/-- A value that is assigned or was there is there. -/
theorem isSome_insertAll {ps : List (ValueId × Value)}
    (h : v ∈ ps.map (·.1) ∨ (fr[v]?).isSome = true) :
    ((insertAll fr ps)[v]?).isSome = true := by
  induction ps generalizing fr with
  | nil => exact h.resolve_left List.not_mem_nil
  | cons p ps ih =>
      rw [insertAll_cons]
      refine ih ?_
      rw [List.map_cons, List.mem_cons, getElem?_insert_frame] at *
      by_cases hp : p.1 = v
      · exact Or.inr (by rw [if_pos hp]; rfl)
      · rw [if_neg hp]
        exact h.imp_left fun h => h.resolve_left fun hv => hp hv.symm

/-- A place in a block that control can reach, and a frame with a value for
everything available there. -/
structure Supplied (f : Func) (cur : BlockId) (is : List Instr)
    (fr : Frame) : Prop where
  reachable : f.Reachable cur
  place : ∃ blk j, f.block? cur = some blk ∧ is = blk.instrs.drop j
    ∧ ∀ v, f.AvailableAt cur j v → (fr[v]?).isSome = true

/-- The next instruction assigns what it defines. -/
theorem Supplied.assign {ins : Instr}
    (h : Supplied f cur (ins :: is) fr) {vs : List Value}
    (hlen : ins.dests = [] ∨ ins.dests.length = vs.length) :
    Supplied f cur is (insertAll fr (ins.dests.zip vs)) := by
  obtain ⟨blk, j, hblk, hrest, hhas⟩ := h.place
  obtain ⟨hget, htail⟩ := Block.getElem?_of_rest hrest
  refine ⟨h.reachable, blk, j + 1, hblk, htail, fun v hv => isSome_insertAll ?_⟩
  rw [map_fst_zip_dests hlen]
  rcases hv.before_instr with hv | ⟨blk', ins', hblk', hins', hd⟩
  · exact Or.inr (hhas v hv)
  · rw [hblk, Option.some.injEq] at hblk'
    rw [← hblk', hget, Option.some.injEq] at hins'
    exact Or.inl (hins' ▸ hd)

/-- At the end of a block everything has a value that is available there. -/
theorem Supplied.out (h : Supplied f cur [] fr) (hv : f.AvailableOut cur v) :
    (fr[v]?).isSome = true := by
  obtain ⟨blk, j, hblk, hrest, hhas⟩ := h.place
  have hj : blk.instrs.length ≤ j := List.drop_eq_nil_iff.mp hrest.symm
  refine hhas v ?_
  rcases hv with hp | ⟨c, n, hdef, hdom⟩
  · exact Or.inl hp
  · refine Or.inr ⟨c, n, hdef, ?_⟩
    by_cases hc : c = cur
    · subst hc
      obtain ⟨blk', ins, hblk', hn, -⟩ := hdef
      rw [hblk, Option.some.injEq] at hblk'
      rw [← hblk'] at hn
      exact Or.inl ⟨rfl, (List.getElem?_eq_some_iff.mp hn).1.trans_le hj⟩
    · exact Or.inr ⟨hc, hdom⟩

/-- The next block is entered with a value for everything available behind its
phis. -/
theorem Supplied.jump (h : Supplied f cur [] fr) {nb : Block}
    (hnb : f.block? next = some nb) (he : f.HasEdge cur next)
    {ps : List (ValueId × Value)}
    (hps : phiLooks fr cur nb.leadingPhis = some ps) :
    Supplied f next nb.body (insertAll fr ps) := by
  have hhere := hasBlock_of_block? hnb
  obtain ⟨blk, -, hblk, -⟩ := h.place
  have hall : ∀ i ∈ nb.leadingPhis, i.isPhi = true :=
    fun i => Block.isPhi_of_mem_leadingPhis
  refine ⟨h.reachable.step he hhere, nb, nb.phiCount, hnb, nb.body_eq_drop,
    fun v hv => isSome_insertAll ?_⟩
  rw [(phiLooks_spec hall hps).1]
  exact (hv.before_phis hnb).imp_right fun hv =>
    h.out (hv.before_edge hblk he hhere).out

/-- A call starts with values for the parameters. -/
theorem Supplied.start (hl : f.Linked) {xs : List Value}
    (hcount : xs.length = f.params.length) {b : Block}
    (hb : f.block? f.entry = some b) {ps : List (ValueId × Value)} :
    Supplied f f.entry b.body (insertAll (argFrame f xs) ps) := by
  obtain ⟨eb, heb, hno⟩ := hl.entry
  rw [hb, Option.some.injEq] at heb
  subst heb
  refine ⟨⟨_, .start⟩, b, 0, hb, body_eq_instrs hno, fun v hv => ?_⟩
  refine isSome_insertAll (Or.inr (isSome_insertAll (Or.inl ?_)))
  rw [List.map_fst_zip hcount.ge]
  exact hv.at_entry

/-- A promise about one function that holds whenever it leaves a block it can
reach with a value for everything available at the end. -/
structure FromSupply (i : FuncId) (f : Func) (Q : Promise) : Prop where
  here : ∀ b fr, f.Reachable b →
    (∀ v, f.AvailableOut b v → (fr[v]?).isSome = true) → Q i b fr
  others : ∀ j, j ≠ i → ∀ b fr, Q j b fr

/-- A run keeps such a promise. -/
theorem Returns.supplied {Q : Promise} (hQ : FromSupply i f Q)
    (hf : m.func? i = some f) (hl : f.Linked) {w w' : Machine}
    {n : Nat} {vs : List Value} (h : Returns m .none k cur is fr w n vs w')
    (hs : k = i → Supplied f cur is fr) :
    Returns m Q k cur is fr w n vs w' := by
  have hfunc {j : FuncId} {g : Func} (hg : m.func? j = some g) (hj : j = i) :
      g = f := by
    rw [hj, hf, Option.some.injEq] at hg
    exact hg.symm
  induction h with
  | instr func run rest ih =>
      refine .instr func run (ih fun hk => ?_)
      obtain ⟨xs, hlen, rfl, -⟩ :=
        exec_sets (fun _ _ => rfl) (fun _ _ => rfl) _ _ _ run
      exact (hs hk).assign (Or.inr hlen.symm)
  | call callee args count entry phis body results rest ihbody ihrest =>
      refine .call callee args count entry phis (ihbody fun hc => ?_) results
        (ihrest fun hk => (hs hk).assign results)
      obtain rfl := hfunc callee hc
      exact .start hl count entry
  | @jump k _ cur _ _ _ fr _ _ _ _ _ func block keeps term there
    target phis rest ih =>
      have hpromise : Q k cur fr := by
        by_cases hk : k = i
        · exact hk ▸ hQ.here cur fr (hs hk).reachable fun v hv => (hs hk).out hv
        · exact hQ.others k hk cur fr
      refine .jump func block hpromise term there target phis (ih fun hk => ?_)
      obtain rfl := hfunc func hk
      exact (hs hk).jump target ⟨_, block, mem_targets_of_nextOf term⟩ phis
  | ret func block term => exact .ret func block term
  | leave func block term => exact .leave func block term

/-- What callers supply is what a promise about a function's parameters asks
for. -/
theorem Answers.supplied {Q : Promise} (hQ : FromSupply i f Q)
    (hf : m.func? i = some f) (hl : f.Linked) {xs : List Value} {w w' : Machine}
    {n : Nat} {vs : List Value} (h : Answers m .none k xs w n vs w') :
    Answers m Q k xs w n vs w' := by
  obtain ⟨g, b, ps, hg, hcount, hb, hps, hn⟩ := h
  refine ⟨g, b, ps, hg, hcount, hb, hps, hn.supplied hQ hf hl fun hk => ?_⟩
  obtain rfl : g = f := by
    rw [hk, hf, Option.some.injEq] at hg
    exact hg.symm
  exact .start hl hcount hb

end MirBackend.Interp
