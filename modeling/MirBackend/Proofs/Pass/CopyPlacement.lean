/-
Where the copies of phis go.

Every source of a phi asks for one copy, at the end of the source block. Of the
copies that go into one block, those that count are put in order there
(`Appended` says what a function looks like when the copies of some blocks are
in place). In single-assignment form, with one source for each predecessor, the
copies that go into one block have distinct destinations
(`copiesInto_distinct`), so what stands there does what they all do at once.
-/
import Mathlib
import MirBackend.Proofs.Func.Definitions
import MirBackend.Proofs.Pass.ParallelCopy
import MirBackend.Proofs.Pass.PhiRemoval

namespace MirBackend.PhiRemoval

open Func ParallelCopy Interp

-- ================================================================== copies

/-- The copies that an instruction asks for. -/
def instrCopies : Instr → List (BlockId × ValueId × Operand × Ty)
  | .phi d t ss => ss.map fun s => (s.block, d, s.value, t)
  | _ => []

/-- The copies a block's phis ask for are those of each. -/
theorem phiCopies_eq (blk : Block) :
    phiCopies blk = blk.instrs.flatMap instrCopies := by
  unfold phiCopies
  congr 1

/-- What is known of a copy: a phi asks for it. -/
structure AsksFor (f : Func) (b : BlockId) (c : Copy)
    (target : BlockId) (t : Ty) (ss : List PhiSource)
    (s : PhiSource) : Prop where
  phi : ∃ blk, f.block? target = some blk ∧ .phi c.dest t ss ∈ blk.instrs
  source : s ∈ ss
  block : s.block = b
  value : c.source = s.value

variable {f : Func} {bs : List Block}

/-- The copies that go into a block are those that phis ask for. -/
theorem mem_copiesInto (hbs : f.blocks = bs.map some) {b : BlockId} {c : Copy}
    (hc : c ∈ copiesInto (bs.flatMap phiCopies) b) :
    ∃ target t ss s, AsksFor f b c target t ss s := by
  unfold copiesInto at hc
  obtain ⟨⟨⟨p, d, v, t⟩, i⟩, hmem, rfl⟩ := List.mem_map.mp hc
  have hmem := List.fst_mem_of_mem_zipIdx hmem
  obtain ⟨hall, hp⟩ := List.mem_filter.mp hmem
  obtain ⟨blk, hblk, hcopy⟩ := List.mem_flatMap.mp hall
  rw [phiCopies_eq] at hcopy
  obtain ⟨ins, hins, hcopy⟩ := List.mem_flatMap.mp hcopy
  obtain ⟨target, htarget⟩ := (mem_blocks_iff hbs).mp hblk
  cases ins with
  | phi d' t' ss =>
      obtain ⟨s, hs, heq⟩ := List.mem_map.mp hcopy
      cases heq
      exact ⟨target, t, ss, s, ⟨blk, htarget, hins⟩, hs, by simpa using hp, rfl⟩
  | _ => cases hcopy

/-- Every source of a phi has its copy. -/
theorem exists_mem_copiesInto (hbs : f.blocks = bs.map some)
    {target : BlockId} {blk : Block} (hb : f.block? target = some blk)
    {d : ValueId} {t : Ty} {ss : List PhiSource}
    (hphi : .phi d t ss ∈ blk.instrs) {s : PhiSource} (hs : s ∈ ss) :
    ∃ c ∈ copiesInto (bs.flatMap phiCopies) s.block, c.dest = d
        ∧ c.source = s.value := by
  have hall : (s.block, d, s.value, t) ∈ bs.flatMap phiCopies := by
    refine List.mem_flatMap.mpr ⟨blk, (mem_blocks_iff hbs).mpr ⟨target, hb⟩, ?_⟩
    rw [phiCopies_eq]
    exact List.mem_flatMap.mpr ⟨_, hphi, List.mem_map.mpr ⟨s, hs, rfl⟩⟩
  have hfilter : (s.block, d, s.value, t)
      ∈ (bs.flatMap phiCopies).filter (·.1 = s.block) :=
        List.mem_filter.mpr ⟨hall, by simp⟩
  obtain ⟨i, hi⟩ := List.mem_iff_getElem?.mp hfilter
  refine ⟨⟨i, d, s.value, t⟩,
    List.mem_map.mpr ⟨((s.block, d, s.value, t), i), ?_, rfl⟩, rfl, rfl⟩
  exact List.mk_mem_zipIdx_iff_getElem?.mpr hi

-- The copies placed in a block are those that name it.
theorem map_dest_copiesInto
    (all : List (BlockId × ValueId × Operand × Ty)) (b : BlockId) :
    (copiesInto all b).map (·.dest) = (all.filter (·.1 = b)).map (·.2.1) := by
  unfold copiesInto
  rw [List.map_map]
  conv_rhs => rw [← List.zipIdx_map_fst 0 (all.filter (·.1 = b)), List.map_map]
  rfl

theorem length_copiesInto
    (all : List (BlockId × ValueId × Operand × Ty)) (b : BlockId) :
    (copiesInto all b).length = (all.filter (·.1 = b)).length := by
  simp [copiesInto]

/-- One source for each predecessor. -/
def SourcesDistinct (f : Func) : Prop :=
  ∀ d t ss, f.HasInstr (.phi d t ss) → (ss.map (·.block)).Nodup

/-- The copies that go into one block have distinct destinations. -/
theorem copiesInto_distinct (hbs : f.blocks = bs.map some)
    (hsa : f.SingleAssignment) (hsd : SourcesDistinct f) (b : BlockId) :
    ((copiesInto (bs.flatMap phiCopies) b).map (·.dest)).Nodup := by
  have hinstr : ∀ blk ∈ bs, ∀ i ∈ blk.instrs,
      (((instrCopies i).filter (·.1 = b)).map (·.2.1)).Sublist i.dests := by
    intro blk hblk i hi
    cases i with
    | phi d t ss =>
        obtain ⟨p, hp⟩ := (mem_blocks_iff hbs).mp hblk
        have hnd := hsd d t ss ⟨p, blk, hp, hi⟩
        have hone : (ss.filter (·.block = b)).length ≤ 1 := by
          have hcount := List.nodup_iff_count_le_one.mp hnd b
          rw [List.count, List.countP_map,
            List.countP_eq_length_filter] at hcount
          exact hcount
        have hall : ((instrCopies (.phi d t ss)).filter (·.1 = b)).map (·.2.1)
            = List.replicate (ss.filter (·.block = b)).length d := by
          rw [instrCopies, List.filter_map, List.map_map]
          exact List.map_const'
        rw [hall]
        exact (List.replicate_sublist_replicate d).mpr hone
    | _ => exact List.nil_sublist _
  rw [map_dest_copiesInto]
  have hflat : ((bs.flatMap phiCopies).filter (·.1 = b)).map (·.2.1)
      = bs.flatMap fun blk => blk.instrs.flatMap fun i =>
        ((instrCopies i).filter (·.1 = b)).map (·.2.1) := by
    rw [List.filter_flatMap, List.map_flatMap]
    refine List.flatMap_congr fun blk _ => ?_
    rw [phiCopies_eq, List.filter_flatMap, List.map_flatMap]
  have hdefs : f.definedValues = bs.flatMap fun blk =>
      blk.instrs.flatMap Instr.dests := by
    rw [definedValues, hbs, List.flatMap_map]
    rfl
  rw [hflat]
  refine (hdefs ▸ hsa.nodup).sublist ?_
  refine List.Sublist.flatMap_right _ fun blk hblk => ?_
  exact List.Sublist.flatMap_right _ fun i hi => hinstr blk hblk i hi

-- =============================================================== placement

/-- The copies of the blocks in `done` are in place: each such block has
assignments behind its instructions that do at once what those of its copies do
that count, the others are as they were. -/
structure Appended (all : List (BlockId × ValueId × Operand × Ty))
    (done : List BlockId) (f g : Func) : Prop where
  name : g.name = f.name
  entry : g.entry = f.entry
  params : g.params = f.params
  draws : Draws f g (3 * (done.map fun b => (copiesInto all b).length).sum)
  block : ∀ b blk, f.block? b = some blk → ∃ out : List Copy,
    g.block? b = some { blk with instrs := blk.instrs ++ out.map Copy.toInstr }
    ∧ (b ∈ done → Performs (Sequencing.effective (copiesInto all b))
    f.nextValue.toInt out)
    ∧ (b ∉ done → out = [])

variable {all : List (BlockId × ValueId × Operand × Ty)} {g : Func}

/-- No copy has been placed yet. -/
theorem Appended.refl (all : List (BlockId × ValueId × Operand × Ty))
    (f : Func) : Appended all [] f f :=
  ⟨rfl, rfl, rfl, .refl f _,
  fun b blk hb => ⟨[], by simpa using hb, by simp, fun _ => rfl⟩⟩

/-- No copies perform no copies. -/
theorem performs_nil (bound : Int) : Performs [] bound [] :=
  fun fr₀ _ => ⟨fr₀, rfl, by simp, fun _ _ _ => rfl⟩

/-- Placing the copies of one more block. -/
theorem Appended.place {done : List BlockId} {b : BlockId}
    (h : Appended all done f g) (hb : b ∉ done)
    (hs : ∀ c ∈ copiesInto all b, ∀ v, c.source = .value v →
      v.toInt < f.nextValue.toInt)
    (hroom : g.nextValue.toInt + 3 * (copiesInto all b).length < 2 ^ 63) :
    Appended all (done ++ [b]) f (placeCopies all g b) := by
  have hlater (a : BlockId) : a ∈ done ++ [b] ↔ a ∈ done ∨ a = b := by simp
  obtain ⟨cs, hcs⟩ : ∃ cs, cs = copiesInto all b := ⟨_, rfl⟩
  rw [← hcs] at hs hroom
  -- a block without copies stays as it is
  cases cs with
  | nil =>
      have hsame : placeCopies all g b = g := by
        unfold placeCopies
        rw [← hcs]
      rw [hsame]
      refine ⟨h.name, h.entry, h.params, ?_, fun a blk ha => ?_⟩
      · simpa [← hcs] using h.draws
      · obtain ⟨out, hout, hperf, hnone⟩ := h.block a blk ha
        refine ⟨out, hout, fun hm => ?_,
          fun hm => hnone fun hd => hm ((hlater a).mpr (Or.inl hd))⟩
        rcases (hlater a).mp hm with hm | rfl
        · exact hperf hm
        · rw [hnone hb, ← hcs]
          exact performs_nil _
  -- the copies are put in sequence behind what the block has
  | cons c cs =>
      have hplace : placeCopies all g b
        = (sequentialize g (c :: cs)).2.modifyBlock b fun blk =>
          { blk with instrs := blk.instrs ++ (sequentialize g (c :: cs)).1.map Copy.toInstr } := by
        unfold placeCopies
        rw [← hcs]
      have hroom' : g.nextValue.toInt
          + (2 * (c :: cs).length + 1 : Nat) < 2 ^ 63 := by
        rw [List.length_cons] at hroom ⊢
        push_cast at hroom ⊢
        omega
      have hdrawn := sequentialize_drawn g (c :: cs)
      have hdraws := sequentialize_draws hroom'
      have habove := h.draws.above
      have hperforms :
          Performs (Sequencing.effective (c :: cs)) f.nextValue.toInt
          (sequentialize g (c :: cs)).1 :=
        sequentialize_performs_effective habove
          (fun d hd v hv => by have := hs d hd v hv; omega) hroom'
      have hhead :=
        sameHeader_modifyBlock (sequentialize g (c :: cs)).2 b fun blk =>
          { blk with instrs := blk.instrs ++ (sequentialize g (c :: cs)).1.map Copy.toInstr }
      rw [hplace]
      refine ⟨?_, ?_, ?_, ?_, fun a blk ha => ?_⟩
      · rw [hhead.name, hdrawn.name, h.name]
      · rw [hhead.entry, hdrawn.entry, h.entry]
      · rw [hhead.params, hdrawn.params, h.params]
      -- values drawn so far, three for a copy at most
      · have hsum : ((done ++ [b]).map fun b => (copiesInto all b).length).sum
            = (done.map fun b => (copiesInto all b).length).sum
            + (c :: cs).length := by
          simp [← hcs]
        have htotal :=
          (h.draws.trans hdraws).mono (k := 3 * ((done ++ [b]).map fun b =>
          (copiesInto all b).length).sum)
          (by rw [hsum, List.length_cons]; omega)
        refine ⟨?_, ?_, fun v hv => ?_⟩
        · rw [hhead.nextValue]
          exact htotal.above
        · rw [hhead.nextValue]
          exact htotal.few
        · rw [typeOf, hhead.types]
          exact htotal.types v hv
      · obtain ⟨out, hout, hperf, hnone⟩ := h.block a blk ha
        rw [block?_modifyBlock, hdrawn.block?, hout]
        by_cases hab : a = b
        · subst hab
          have := hnone hb
          subst this
          refine ⟨(sequentialize g (c :: cs)).1, ?_, fun _ => hcs ▸ hperforms,
            fun hm => absurd ((hlater a).mpr (Or.inr rfl)) hm⟩
          simp
        · refine ⟨out, by simp [hab], fun hm => ?_, fun hm => ?_⟩
          · exact hperf (((hlater a).mp hm).resolve_right hab)
          · exact hnone fun hd => hm ((hlater a).mpr (Or.inl hd))

/-- Blocks that are distinct share the copies among them. -/
theorem sum_copiesInto_le {bs : List BlockId} (h : bs.Nodup)
    (all : List (BlockId × ValueId × Operand × Ty)) :
    (bs.map fun b => (copiesInto all b).length).sum ≤ all.length := by
  simp only [length_copiesInto]
  induction bs generalizing all with
  | nil => simp
  | cons b bs ih =>
      obtain ⟨hb, hbs⟩ := List.nodup_cons.mp h
      have hrest := ih hbs (all.filter (·.1 ≠ b))
      have hsame :
          bs.map (fun a => ((all.filter (·.1 ≠ b)).filter (·.1 = a)).length)
          = bs.map fun a => (all.filter (·.1 = a)).length := by
        refine List.map_congr_left fun a ha => ?_
        rw [List.filter_filter]
        congr 1
        refine List.filter_congr fun x _ => ?_
        by_cases hx : x.1 = a
        · have hab : a ≠ b := fun hab => hb (hab ▸ ha)
          simp [hx, hab]
        · simp [hx]
      have hsplit := List.length_eq_length_filter_add (l := all) (·.1 = b)
      rw [hsame] at hrest
      simp only [List.map_cons, List.sum_cons]
      have hneg : (all.filter fun x => !decide (x.1 = b)).length
          = (all.filter (·.1 ≠ b)).length := by
        congr 1
        refine List.filter_congr fun x _ => ?_
        simp
      omega

/-- Placing the copies of all blocks in a list. -/
theorem appended_foldl {bs : List BlockId} (hnd : bs.Nodup)
    (hs : ∀ b, ∀ c ∈ copiesInto all b, ∀ v, c.source = .value v →
      v.toInt < f.nextValue.toInt)
    (hroom : f.nextValue.toInt + 3 * all.length < 2 ^ 63) :
    Appended all bs f (bs.foldl (placeCopies all) f) := by
  have hloop (rest done : List BlockId) (g : Func) (hg : Appended all done f g)
      (hnd : (done ++ rest).Nodup) :
      Appended all (done ++ rest) f (rest.foldl (placeCopies all) g) := by
    induction rest generalizing done g with
    | nil => simpa using hg
    | cons b rest ih =>
        have hnd' : (done ++ [b] ++ rest).Nodup := by simpa using hnd
        have hb : b ∉ done := by
          intro hm
          have := (List.nodup_append.mp hnd).2.2 b hm b List.mem_cons_self
          exact this rfl
        have hle := sum_copiesInto_le (List.nodup_append.mp hnd').1 all
        rw [List.map_append, List.sum_append, List.map_singleton,
          List.sum_singleton] at hle
        have hfew := hg.draws.few
        have hplace := hg.place hb (hs b) (by omega)
        have := ih (done ++ [b]) _ hplace hnd'
        rwa [List.append_assoc, List.singleton_append] at this
  exact hloop bs [] f (.refl all f) hnd

end MirBackend.PhiRemoval
