/-
Strict single-assignment form.

A value is available at a place when its definition is behind every walk that
leads there: it is a parameter, or defined earlier in the same block, or in
another block that dominates this one. In a strict function everything that
reachable code reads is available where it is read; what a phi takes along an
edge is read at the end of the block the edge comes from.

For what only asks whether a value that is read has a definition at all, less
is enough: a function is grounded when everything that reachable code reads is
defined in reachable code. A strict function is (`Strict.grounded`).
-/
import Mathlib
import MirBackend.Proofs.Func.Definitions
import MirBackend.Proofs.Func.Paths

namespace MirBackend.Func

variable {f : Func}

/-- The value is available before the `j`-th instruction of a block. -/
def AvailableAt (f : Func) (b : BlockId) (j : Nat) (v : ValueId) : Prop :=
  v ∈ f.params ∨ ∃ c i, f.DefinedAt c i v
    ∧ ((c = b ∧ i < j) ∨ (c ≠ b ∧ f.Dominates c b))

/-- The value is available at the end of a block. -/
def AvailableOut (f : Func) (b : BlockId) (v : ValueId) : Prop :=
  v ∈ f.params ∨ ∃ c i, f.DefinedAt c i v ∧ f.Dominates c b

/-- What reachable code reads is available where it is read. -/
structure Strict (f : Func) : Prop where
  instr : ∀ b blk, f.block? b = some blk → f.Reachable b →
    ∀ j ins, blk.instrs[j]? = some ins →
    ins.isPhi = false → ∀ v ∈ ins.uses, f.AvailableAt b j v
  phi : ∀ b blk, f.block? b = some blk → f.Reachable b →
    ∀ d t ss, .phi d t ss ∈ blk.instrs →
    ∀ s ∈ ss, f.Reachable s.block → ∀ v, s.value = .value v →
      f.AvailableOut s.block v
  term : ∀ b blk, f.block? b = some blk → f.Reachable b → ∀ v ∈ usesOf blk.term,
    f.AvailableOut b v

-- ================================================================ grounded

/-- Reachable code reads the value; a phi reads along the edges that control can
take. -/
def LiveRead (f : Func) (v : ValueId) : Prop :=
  ∃ b blk, f.block? b = some blk ∧ f.Reachable b
    ∧ ((∃ i ∈ blk.instrs, i.isPhi = false ∧ v ∈ i.uses)
      ∨ (∃ d t ss, .phi d t ss ∈ blk.instrs ∧ ∃ s ∈ ss, f.Reachable s.block
      ∧ s.value = .value v)
      ∨ v ∈ usesOf blk.term)

/-- The value is a parameter or defined in a reachable block. -/
def LiveDefined (f : Func) (v : ValueId) : Prop :=
  v ∈ f.params ∨ ∃ b blk, f.block? b = some blk ∧ f.Reachable b
    ∧ ∃ i ∈ blk.instrs, v ∈ i.dests

/-- What reachable code reads is defined in reachable code. -/
def Grounded (f : Func) : Prop := ∀ v, f.LiveRead v → f.LiveDefined v

/-- What dominates a reachable block is reachable. -/
theorem Dominates.reachable {a b : BlockId} (h : f.Dominates a b)
    (hb : f.Reachable b) : f.Reachable a := by
  obtain ⟨trail, hw⟩ := hb
  exact hw.reachable_of_mem (h trail hw)

/-- What is available at the end of a block that is reached has a definition
that is reached. -/
theorem AvailableOut.liveDefined {b : BlockId} {v : ValueId}
    (h : f.AvailableOut b v) (hb : f.Reachable b) : f.LiveDefined v := by
  rcases h with h | ⟨c, i, ⟨blk, ins, hblk, hi, hv⟩, hdom⟩
  · exact Or.inl h
  · exact Or.inr ⟨c, blk, hblk, hdom.reachable hb, ins,
      List.mem_of_getElem? hi, hv⟩

/-- What is available has a definition. -/
theorem AvailableOut.defined {b : BlockId} {v : ValueId}
    (h : f.AvailableOut b v) : f.Defined v := by
  rcases h with hp | ⟨c, i, hdef, -⟩
  · exact Or.inl hp
  · exact Or.inr (mem_definedValues.mpr ⟨c, i, hdef⟩)

/-- What is available in a block is available at its end. -/
theorem AvailableAt.out {b : BlockId} {j : Nat} {v : ValueId}
    (h : f.AvailableAt b j v) : f.AvailableOut b v := by
  rcases h with h | ⟨c, i, hdef, ⟨rfl, -⟩ | ⟨-, hdom⟩⟩
  · exact Or.inl h
  · exact Or.inr ⟨c, i, hdef, fun trail hw => hw.mem_self⟩
  · exact Or.inr ⟨c, i, hdef, hdom⟩

/-- In strict form every read is grounded in a definition. -/
theorem Strict.grounded (h : f.Strict) : f.Grounded := by
  rintro v ⟨b, blk, hb, hreach, hread⟩
  rcases hread with ⟨i, hi, hphi, hv⟩ | ⟨d, t, ss, hphi, s, hs, hsr, hv⟩ | hv
  · obtain ⟨j, hj⟩ := List.mem_iff_getElem?.mp hi
    exact (h.instr b blk hb hreach j i hj hphi v hv).out.liveDefined hreach
  · exact (h.phi b blk hb hreach d t ss hphi s hs hsr v hv).liveDefined hsr
  · exact (h.term b blk hb hreach v hv).liveDefined hreach

/-- The sources that a phi reads. -/
theorem mem_uses_phi {d v : ValueId} {t : Ty} {ss : List PhiSource} :
    v ∈ (Instr.phi d t ss).uses ↔ ∃ s ∈ ss, s.value = .value v := by
  simp only [Instr.uses, Instr.operands, Operand.ids,
    List.mem_filterMap, List.mem_map, exists_exists_and_eq_and]
  refine exists_congr fun s => and_congr Iff.rfl ?_
  cases s.value <;> simp [Operand.id?]

/-- A read by reachable code is a read. -/
theorem LiveRead.reads {v : ValueId} (h : f.LiveRead v) : f.Reads v := by
  obtain ⟨b, blk, hb, -, ⟨i, hi, -, hv⟩
      | ⟨d, t, ss, hphi, s, hs, -, hv⟩ | hv⟩ := h
  · exact ⟨b, blk, hb, Or.inl ⟨i, hi, hv⟩⟩
  · exact ⟨b, blk, hb, Or.inl ⟨_, hphi, mem_uses_phi.mpr ⟨s, hs, hv⟩⟩⟩
  · exact ⟨b, blk, hb, Or.inr hv⟩

/-- Where control reaches every block, a grounded function reads only what is
defined. -/
theorem Grounded.defined (h : f.Grounded) (hwf : f.WellFormed)
    (hall : ∀ b, f.hasBlock b = true → f.Reachable b) {v : ValueId}
    (hv : f.Reads v) : f.Defined v := by
  have hlive : f.LiveRead v := by
    obtain ⟨b, blk, hb, hread⟩ := hv
    refine ⟨b, blk, hb, hall b (hasBlock_of_block? hb), ?_⟩
    rcases hread with ⟨i, hi, hv⟩ | hv
    · cases hphi : i.isPhi with
      | false => exact Or.inl ⟨i, hi, hphi, hv⟩
      | true =>
          cases i with
          | phi d t ss =>
              obtain ⟨s, hs, hsv⟩ := mem_uses_phi.mp hv
              have hok := hwf.blockOk b blk hb
              obtain ⟨pb, hpb, -⟩ :=
                hok.pred s.block (hok.source d t ss hi s hs)
              exact Or.inr (Or.inl ⟨d, t, ss, hi, s, hs,
                hall _ (hasBlock_of_block? hpb), hsv⟩)
          | _ => cases hphi
    · exact Or.inr (Or.inr hv)
  rcases h v hlive with hp | ⟨b, blk, hb, -, i, hi, hd⟩
  · exact Or.inl hp
  · exact Or.inr (mem_definedValues_iff_hasInstr.mpr ⟨i, ⟨b, blk, hb, hi⟩, hd⟩)

-- ============================================================ certificates

/-- The values that a block hands on when it is entered with those in the
list. -/
def handedOn (avail : List (List ValueId)) (b : Nat)
    (blk : Block) : List ValueId :=
  avail.getD b [] ++ blk.instrs.flatMap Instr.dests

/-- Whether a list of values for each block, those it is entered with, shows
that every read comes behind its definition: every edge hands on what its target
is entered with, and each block reads only what it was entered with or has
defined before. -/
def strictBy (f : Func) (avail : List (List ValueId)) : Bool :=
  (avail.getD f.entry.toNat []).all f.params.contains
  && f.blocks.zipIdx.all fun (o, b) => o.all fun blk =>
    (blk.instrs.zipIdx.all fun (ins, j) => ins.isPhi || ins.uses.all fun v =>
      (avail.getD b [] ++ (blk.instrs.take j).flatMap Instr.dests).contains v)
    && (usesOf blk.term).all (handedOn avail b blk).contains
    && (blk.targets.all fun t =>
      (avail.getD t.toNat []).all (handedOn avail b blk).contains)
    && blk.instrs.all fun
      | .phi _ _ ss => ss.all fun s => (Operand.ids [s.value]).all fun v =>
          (f.block? s.block).any fun sb =>
          (handedOn avail s.block.toNat sb).contains v
      | _ => true

/-- What such a list says of one block. -/
structure HandsOn (f : Func) (avail : List (List ValueId)) (b : Nat)
    (blk : Block) : Prop where
  instr : ∀ j ins, blk.instrs[j]? = some ins →
    ins.isPhi = false → ∀ v ∈ ins.uses,
    v ∈ avail.getD b [] ++ (blk.instrs.take j).flatMap Instr.dests
  term : ∀ v ∈ usesOf blk.term, v ∈ handedOn avail b blk
  edge : ∀ t ∈ blk.targets, ∀ v ∈ avail.getD t.toNat [],
    v ∈ handedOn avail b blk
  phi : ∀ d t ss, .phi d t ss ∈ blk.instrs → ∀ s ∈ ss, ∀ v, s.value = .value v →
    ∃ sb, f.block? s.block = some sb ∧ v ∈ handedOn avail s.block.toNat sb

/-- What the decision procedure looks at: the entry has the parameters at most,
and each block hands on what it has and defines. -/
theorem strictBy_spec {avail : List (List ValueId)}
    (h : f.strictBy avail = true) :
    (∀ v ∈ avail.getD f.entry.toNat [], v ∈ f.params)
      ∧ ∀ (b : Nat) blk, f.block? b = some blk → HandsOn f avail b blk := by
  simp only [strictBy, Bool.and_eq_true, List.all_eq_true,
    List.contains_iff_mem] at h
  refine ⟨h.1, fun b blk hb => ?_⟩
  have hmem : (some blk, b) ∈ f.blocks.zipIdx := by
    obtain ⟨n, hn, hblk⟩ := block?_eq_some_iff.mp hb
    rw [Nat.cast_inj] at hn
    exact List.mk_mem_zipIdx_iff_getElem?.mpr (hn ▸ hblk)
  have hblk := h.2 _ hmem
  simp only [Option.all_some, Bool.and_eq_true,
    List.all_eq_true, Bool.or_eq_true, List.contains_iff_mem] at hblk
  obtain ⟨⟨⟨hinstr, hterm⟩, hedge⟩, hphi⟩ := hblk
  refine ⟨fun j ins hj hno v hv => ?_, hterm, hedge,
    fun d t ss hd s hs v hv => ?_⟩
  · have := hinstr (ins, j) (List.mk_mem_zipIdx_iff_getElem?.mpr hj)
    rw [hno] at this
    exact (this.resolve_left Bool.false_ne_true) v hv
  · have := hphi _ hd
    simp only [List.all_eq_true] at this
    have hany := this s hs v (by simp [hv, Operand.ids, Operand.id?])
    obtain ⟨sb, hsb, hv⟩ := (Option.any_eq_true _ _).mp hany
    exact ⟨sb, hsb, List.contains_iff_mem.mp hv⟩

/-- What a part of a block defines is defined in that part. -/
theorem definedAt_of_mem_take {b : BlockId} {blk : Block}
    {n : Nat} {v : ValueId} (hb : f.block? b = some blk)
    (hv : v ∈ (blk.instrs.take n).flatMap Instr.dests) :
    ∃ i < n, f.DefinedAt b i v := by
  obtain ⟨ins, hins, hv⟩ := List.mem_flatMap.mp hv
  obtain ⟨i, hi⟩ := List.mem_iff_getElem?.mp hins
  rw [List.getElem?_take] at hi
  split at hi
  · next hlt => exact ⟨i, hlt, blk, ins, hb, hi, hv⟩
  · cases hi

/-- A value among a block's is defined at some position in it. -/
theorem definedAt_of_mem_dests {b : BlockId} {blk : Block} {v : ValueId}
    (hb : f.block? b = some blk) (hv : v ∈ blk.instrs.flatMap Instr.dests) :
    ∃ i, f.DefinedAt b i v := by
  rw [← List.take_length (l := blk.instrs)] at hv
  obtain ⟨i, -, hdef⟩ := definedAt_of_mem_take hb hv
  exact ⟨i, hdef⟩

section

variable {avail : List (List ValueId)}
  (hentry : ∀ v ∈ avail.getD f.entry.toNat [], v ∈ f.params)
  (hands : ∀ (b : Nat) blk, f.block? b = some blk → HandsOn f avail b blk)

include hentry hands

/-- A walk to a block passes, before it gets there, the definition of what the
block is entered with. -/
theorem passes_definition {b : BlockId} {trail : List BlockId}
    (hw : f.Walk b trail) {v : ValueId} (hv : v ∈ avail.getD b.toNat []) :
    v ∈ f.params ∨ ∃ c i, f.DefinedAt c i v ∧ c ∈ trail.tail := by
  induction hw with
  | start => exact Or.inl (hentry v hv)
  | @step p b trail hwalk hedge hhere ih =>
      obtain ⟨pb, hpb, hb⟩ := hedge
      obtain ⟨n, rfl, -⟩ := block?_eq_some_iff.mp hpb
      rcases List.mem_append.mp ((hands n pb hpb).edge b hb v hv) with hin
        | hdef
      · rcases ih hin with hp | ⟨c, i, hdef, hc⟩
        · exact Or.inl hp
        · exact Or.inr ⟨c, i, hdef, List.mem_of_mem_tail hc⟩
      · obtain ⟨i, hdef⟩ := definedAt_of_mem_dests hpb hdef
        exact Or.inr ⟨n, i, hdef, hwalk.mem_self⟩

/-- What a block is entered with is available in it. -/
theorem availableAt_of_handed (hsa : f.SingleAssignment) {b : BlockId}
    (hb : f.Reachable b) {v : ValueId} (hv : v ∈ avail.getD b.toNat [])
    (j : Nat) : f.AvailableAt b j v := by
  by_cases hp : v ∈ f.params
  · exact Or.inl hp
  · have hpass {trail : List BlockId} (hw : f.Walk b trail) :=
      (passes_definition hentry hands hw hv).resolve_left hp
    obtain ⟨trail, hw⟩ := id hb
    obtain ⟨c, i, hdef, -⟩ := hpass hw
    have htail {trail : List BlockId} (hw : f.Walk b trail) :
        c ∈ trail.tail := by
      obtain ⟨c', i', hdef', hc'⟩ := hpass hw
      exact (hsa.unique hdef hdef').1 ▸ hc'
    refine Or.inr ⟨c, i, hdef,
      Or.inr ⟨?_, fun trail hw => List.mem_of_mem_tail (htail hw)⟩⟩
    -- the block itself would be passed before every time it is reached
    rintro rfl
    have hnone (n : Nat) : ∀ trail, trail.length = n → ¬ f.Walk c trail := by
      induction n using Nat.strong_induction_on with
      | _ n ih =>
          intro trail hlen hw
          cases hw with
          | start => cases htail .start
          | @step p _ rest hrest he hhere =>
              have hc : c ∈ rest := htail (hrest.step he hhere)
              obtain ⟨part, hpart, hsuf⟩ := hrest.part_of_mem hc
              have := hsuf.length_le
              rw [List.length_cons] at hlen
              exact ih part.length (by omega) part rfl hpart
    exact hnone _ trail rfl hw

end

/-- A function with such a list is strict. -/
theorem strict_of_strictBy (avail : List (List ValueId))
    (h : f.strictBy avail = true) (hsa : f.SingleAssignment) : f.Strict := by
  obtain ⟨hentry, hands⟩ := strictBy_spec h
  have hout {b : Nat} {blk : Block} {v : ValueId} (hb : f.block? b = some blk)
      (hr : f.Reachable b) (hv : v ∈ handedOn avail b blk) :
          f.AvailableOut b v := by
    rcases List.mem_append.mp hv with hv | hv
    · exact (availableAt_of_handed hentry hands hsa hr hv 0).out
    · obtain ⟨i, hdef⟩ := definedAt_of_mem_dests hb hv
      exact Or.inr ⟨b, i, hdef, fun trail hw => hw.mem_self⟩
  refine ⟨fun b blk hb hr j ins hj hno v hv => ?_,
    fun b blk hb hr d t ss hphi s hs hsr v hv => ?_, fun b blk hb hr v hv => ?_⟩
  · obtain ⟨n, rfl, -⟩ := block?_eq_some_iff.mp hb
    rcases List.mem_append.mp ((hands n blk hb).instr j ins hj hno v hv) with hv
      | hv
    · exact availableAt_of_handed hentry hands hsa hr hv j
    · obtain ⟨i, hij, hdef⟩ := definedAt_of_mem_take hb hv
      exact Or.inr ⟨n, i, hdef, Or.inl ⟨rfl, hij⟩⟩
  · obtain ⟨n, rfl, -⟩ := block?_eq_some_iff.mp hb
    obtain ⟨sb, hsb, hmem⟩ := (hands n blk hb).phi d t ss hphi s hs v hv
    obtain ⟨k, hk, -⟩ := block?_eq_some_iff.mp hsb
    rw [hk] at hsb hsr hmem ⊢
    exact hout hsb hsr hmem
  · obtain ⟨n, rfl, -⟩ := block?_eq_some_iff.mp hb
    exact hout hb hr ((hands n blk hb).term v hv)

end MirBackend.Func
