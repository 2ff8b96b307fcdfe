/-
The instructions of a function, seen from outside the block list.

`HasInstr` says that an instruction stands somewhere, `Reads` that a value is
read somewhere; the counts and collections of a function are stated in these
terms.

Many edits leave the edges of a function alone and touch only what the blocks
hold. `Reshaped` says what such an edit may do, and that it keeps the
structure; keeping some of the instructions is one.
-/
import Mathlib
import MirBackend.Proofs.Func.Splitting

namespace MirBackend

-- ========================================================= part of a list

/-- Leaving out instructions keeps the phis in front. -/
theorem PhisLead.sublist {is js : List Instr} (h : PhisLead js)
    (hs : is.Sublist js) : PhisLead is :=
  List.Pairwise.sublist hs h

/-- Behind the leading phis there is none. -/
theorem PhisLead.isPhi_of_mem_body {blk : Block}
    (h : PhisLead blk.instrs) {i : Instr} (hi : i ∈ blk.body) :
    i.isPhi = false := by
  have hlead : PhisLead blk.body := h.sublist (List.dropWhile_sublist _)
  cases hb : blk.body with
  | nil =>
      rw [hb] at hi
      cases hi
  | cons j js =>
      have hj : j.isPhi = false := by
        have := List.head?_dropWhile_not Instr.isPhi blk.instrs
        rw [show blk.instrs.dropWhile Instr.isPhi = j :: js from hb] at this
        simpa using this
      rw [hb] at hi hlead
      rcases List.mem_cons.mp hi with rfl | hi
      · exact hj
      · by_contra hphi
        rw [Bool.not_eq_false] at hphi
        rw [(List.pairwise_cons.mp hlead).1 i hi hphi] at hj
        cases hj

namespace Block

-- A block is its leading phis and what stands behind them.
theorem leadingPhis_append_body (b : Block) :
    b.leadingPhis ++ b.body = b.instrs :=
  List.takeWhile_append_dropWhile

theorem body_eq_drop (b : Block) : b.body = b.instrs.drop b.phiCount := by
  conv_rhs => rw [← b.leadingPhis_append_body]
  exact List.drop_left.symm

/-- The next instruction of the rest of a block, by its place. -/
theorem getElem?_of_rest {b : Block} {j : Nat} {i : Instr} {is : List Instr}
    (h : i :: is = b.instrs.drop j) : b.instrs[j]? = some i
      ∧ is = b.instrs.drop (j + 1) := by
  refine ⟨by rw [← List.head?_drop, ← h, List.head?_cons], ?_⟩
  rw [← List.drop_drop, ← h]
  rfl

theorem isPhi_of_mem_leadingPhis {b : Block} {i : Instr}
    (hi : i ∈ b.leadingPhis) : i.isPhi = true :=
  List.mem_takeWhile_imp hi

theorem mem_of_mem_leadingPhis {b : Block} {i : Instr}
    (hi : i ∈ b.leadingPhis) : i ∈ b.instrs :=
  (List.takeWhile_sublist _).subset hi

theorem mem_of_mem_body {b : Block} {i : Instr}
    (hi : i ∈ b.body) : i ∈ b.instrs :=
  (List.dropWhile_sublist _).subset hi

end Block

/-- The phis of a block are those at its head. -/
theorem PhisLead.mem_leadingPhis {blk : Block}
    (h : PhisLead blk.instrs) {i : Instr} :
    i ∈ blk.leadingPhis ↔ i ∈ blk.instrs ∧ i.isPhi = true := by
  refine ⟨fun hi => ⟨Block.mem_of_mem_leadingPhis hi,
    Block.isPhi_of_mem_leadingPhis hi⟩, ?_⟩
  rintro ⟨hi, hphi⟩
  rw [← blk.leadingPhis_append_body, List.mem_append] at hi
  refine hi.resolve_right fun hbody => ?_
  rw [h.isPhi_of_mem_body hbody] at hphi
  cases hphi

/-- Instructions behind that are no phis keep the phis in front. -/
theorem PhisLead.append {is js : List Instr} (h : PhisLead is)
    (hjs : ∀ j ∈ js, j.isPhi = false) : PhisLead (is ++ js) := by
  refine List.pairwise_append.mpr ⟨h, ?_, ?_⟩
  · refine List.Pairwise.imp_of_mem (R := fun _ _ => True) ?_
      (List.pairwise_of_forall fun _ _ => trivial)
    intro i j _ hj _ hphi
    rw [hjs j hj] at hphi
    cases hphi
  · intro i _ j hj hphi
    rw [hjs j hj] at hphi
    cases hphi

/-- A block after changes that leave its edges: its targets and predecessors are
the same up to order, and an instruction that is new is neither a phi nor a
hole. -/
structure Block.Reshaped (b b' : Block) : Prop where
  term : b.term.isSome = true → b'.term.isSome = true
  targets : ∀ s, s ∈ b'.targets ↔ s ∈ b.targets
  preds : ∀ p, p ∈ b'.preds ↔ p ∈ b.preds
  distinct : b.preds.Nodup → b'.preds.Nodup
  instrs : ∀ i ∈ b'.instrs, i ∈ b.instrs
    ∨ (i.isPhi = false ∧ i.isMissing = false)
  phisLead : PhisLead b.instrs → PhisLead b'.instrs

namespace Func

variable {f : Func} {keep : Instr → Bool}

-- ==================================================== instructions and reads

/-- The instruction stands in some block. -/
def HasInstr (f : Func) (i : Instr) : Prop :=
  ∃ b blk, f.block? b = some blk ∧ i ∈ blk.instrs

/-- Some instruction or terminator reads the value. -/
def Reads (f : Func) (v : ValueId) : Prop :=
  ∃ b blk, f.block? b = some blk
    ∧ ((∃ i ∈ blk.instrs, v ∈ i.uses) ∨ v ∈ usesOf blk.term)

/-- No place in a block is a hole. -/
def NoHole (f : Func) : Prop := ¬ f.HasInstr .missing

/-- A well-formed function has no missing instruction. -/
theorem WellFormed.noHole (h : f.WellFormed) : f.NoHole := by
  rintro ⟨b, blk, hb, hm⟩
  exact (h.blockOk b blk hb).noHole hm

/-- A block of a list without vacant places. -/
theorem mem_blocks_iff {bs : List Block}
    (h : f.blocks = bs.map some) {blk : Block} :
    blk ∈ bs ↔ ∃ b, f.block? b = some blk := by
  rw [List.mem_iff_getElem?]
  constructor
  · rintro ⟨i, hi⟩
    exact ⟨i, by rw [block?_of_blocks h, hi]⟩
  · rintro ⟨b, hb⟩
    obtain ⟨i, rfl, -⟩ := block?_eq_some_iff.mp hb
    rw [block?_of_blocks h] at hb
    exact ⟨i, hb⟩

/-- A function of one block has no other. -/
theorem block?_of_blocks_eq {blk blk' : Block} {c : BlockId}
    (h : f.blocks = [some blk]) (hc : f.block? c = some blk') :
    c = 0 ∧ blk' = blk := by
  obtain ⟨j, rfl, hj⟩ := block?_eq_some_iff.mp hc
  rw [h] at hj
  match j with
  | 0 =>
      cases hj
      exact ⟨rfl, rfl⟩
  | j + 1 => cases hj

/-- A function of one block has that block's instructions. -/
theorem hasInstr_of_blocks_eq {blk : Block} {i : Instr}
    (h : f.blocks = [some blk]) (hi : f.HasInstr i) : i ∈ blk.instrs := by
  obtain ⟨c, blk', hc, hi⟩ := hi
  obtain ⟨-, rfl⟩ := block?_of_blocks_eq h hc
  exact hi

/-- The instructions of a block without holes. -/
theorem present_of_noHole {blk : Block} (h : Instr.missing ∉ blk.instrs) :
    blk.present = .ok blk.instrs := by
  have hall : ∀ i ∈ blk.instrs, i.present = .ok (id i) := by
    intro i hi
    cases i with
    | missing => exact absurd hi h
    | _ => rfl
  rw [Block.present, mapM_eq_ok_map hall, List.map_id]

/-- The reads of one block, its terminator last. -/
def readsIn (blk : Block) : List ValueId :=
  blk.instrs.flatMap Instr.uses ++ usesOf blk.term

/-- The reads of a well-formed function, block by block. -/
theorem reads_eq_flatten (h : f.WellFormed) {bs : List Block}
    (hblocks : f.blocks = bs.map some) :
    f.reads = .ok (bs.map readsIn).flatten := by
  have hread : ∀ blk ∈ bs, blockReads blk = .ok (readsIn blk) := by
    intro blk hblk
    obtain ⟨b, hb⟩ := (mem_blocks_iff hblocks).mp hblk
    rw [blockReads, present_of_noHole (h.blockOk b blk hb).noHole]
    rfl
  rw [reads, present_eq_ok.mpr hblocks, ok_bind, mapM_eq_ok_map hread]
  rfl

/-- The reads of a block, where they are collected. -/
theorem blockReads_eq_ok {blk : Block} {rs : List ValueId}
    (h : blockReads blk = .ok rs) : rs = readsIn blk := by
  obtain ⟨is, his, h⟩ := bind_eq_ok.mp h
  cases h
  have hpresent (i j : Instr) (hij : i.present = .ok j) : i = j := by
    cases i <;> cases hij <;> rfl
  have hsame : blk.instrs = is :=
    List.forall₂_eq_eq_eq ▸
      (mapM_eq_ok.mp his).imp fun {i j} hij => hpresent i j hij
  rw [readsIn, hsame]

/-- Where reads are collected, no place is vacant. -/
theorem reads_eq_ok {rs : List ValueId} (h : f.reads = .ok rs) :
    ∃ bs : List Block, f.blocks = bs.map some
        ∧ rs = (bs.map readsIn).flatten := by
  obtain ⟨bs, hbs, h⟩ := bind_eq_ok.mp h
  obtain ⟨rss, hrss, h⟩ := bind_eq_ok.mp h
  cases h
  refine ⟨bs, present_eq_ok.mp hbs, ?_⟩
  have hsame : List.Forall₂ (fun blk rs => rs = readsIn blk) bs rss :=
    (mapM_eq_ok.mp hrss).imp fun {blk rs} h => blockReads_eq_ok h
  rw [show rss = bs.map readsIn from ?_]
  rw [← List.forall₂_eq_eq_eq, List.forall₂_map_right_iff]
  exact hsame.flip

/-- The values in a list of reads are those read. -/
theorem mem_reads_iff {bs : List Block}
    (hblocks : f.blocks = bs.map some) {v : ValueId} :
    v ∈ (bs.map readsIn).flatten ↔ f.Reads v := by
  simp only [readsIn, List.mem_flatten, List.mem_map,
    exists_exists_and_eq_and, List.mem_append, List.mem_flatMap, Reads]
  constructor
  · rintro ⟨blk, hblk, hv⟩
    obtain ⟨b, hb⟩ := (mem_blocks_iff hblocks).mp hblk
    exact ⟨b, blk, hb, hv⟩
  · rintro ⟨b, blk, hb, hv⟩
    exact ⟨blk, (mem_blocks_iff hblocks).mpr ⟨b, hb⟩, hv⟩

/-- The reads of a well-formed function are collected. -/
theorem reads_spec (h : f.WellFormed) :
    ∃ rs, f.reads = .ok rs ∧ ∀ v, v ∈ rs ↔ f.Reads v := by
  obtain ⟨bs, hbs, hblocks⟩ := h.present
  exact ⟨_, reads_eq_flatten h hblocks, fun v => mem_reads_iff hblocks⟩

/-- The phis of a well-formed function are counted; there are none if the count
is zero. -/
theorem phiTotal_spec (h : f.WellFormed) :
    ∃ n, f.phiTotal = .ok n
        ∧ (n = 0 ↔ ∀ i, f.HasInstr i → i.isPhi = false) := by
  obtain ⟨bs, hbs, hblocks⟩ := h.present
  refine ⟨(bs.map
    (·.instrs.countP Instr.isPhi)).sum, by rw [phiTotal, hbs]; rfl, ?_⟩
  rw [List.sum_eq_zero_iff]
  simp only [List.mem_map, forall_exists_index, and_imp,
    forall_apply_eq_imp_iff₂, List.countP_eq_zero, Bool.not_eq_true]
  constructor
  · rintro hall i ⟨b, blk, hb, hi⟩
    exact hall blk ((mem_blocks_iff hblocks).mpr ⟨b, hb⟩) i hi
  · intro hall blk hblk i hi
    obtain ⟨b, hb⟩ := (mem_blocks_iff hblocks).mp hblk
    exact hall i ⟨b, blk, hb, hi⟩

-- ============================================================== same graph

/-- A function after changes that leave its edges. -/
structure Reshaped (f g : Func) : Prop where
  length : g.blocks.length = f.blocks.length
  entry : g.entry = f.entry
  block : ∀ c, Option.Rel Block.Reshaped (f.block? c) (g.block? c)

namespace Reshaped

variable {g : Func} {c : BlockId} {blk : Block}

/-- Nothing is reshaped by doing nothing. -/
theorem refl (f : Func) : f.Reshaped f := by
  refine ⟨rfl, rfl, fun c => ?_⟩
  cases f.block? c with
  | none => exact .none
  | some blk =>
      exact .some ⟨fun h => h, fun _ => Iff.rfl, fun _ => Iff.rfl, fun h => h,
        fun _ hi => Or.inl hi, fun h => h⟩

/-- Each block is still there. -/
theorem forward (h : f.Reshaped g) (hc : f.block? c = some blk) :
    ∃ blk', g.block? c = some blk' ∧ blk.Reshaped blk' := by
  have hrel := h.block c
  rw [hc] at hrel
  cases hg : g.block? c with
  | none => rw [hg] at hrel; cases hrel
  | some blk' =>
      rw [hg] at hrel
      cases hrel with
      | some hb => exact ⟨blk', rfl, hb⟩

/-- There are no new ones. -/
theorem backward (h : f.Reshaped g) (hc : g.block? c = some blk) :
    ∃ blk₀, f.block? c = some blk₀ ∧ blk₀.Reshaped blk := by
  have hrel := h.block c
  rw [hc] at hrel
  cases hf : f.block? c with
  | none => rw [hf] at hrel; cases hrel
  | some blk₀ =>
      rw [hf] at hrel
      cases hrel with
      | some hb => exact ⟨blk₀, rfl, hb⟩

/-- Edges are as they were. -/
theorem hasEdge (h : f.Reshaped g) {p b : BlockId} :
    g.HasEdge p b ↔ f.HasEdge p b := by
  constructor
  · rintro ⟨pb, hpb, hb⟩
    obtain ⟨pb₀, hpb₀, hre⟩ := h.backward hpb
    exact ⟨pb₀, hpb₀, (hre.targets b).mp hb⟩
  · rintro ⟨pb, hpb, hb⟩
    obtain ⟨pb', hpb', hre⟩ := h.forward hpb
    exact ⟨pb', hpb', (hre.targets b).mpr hb⟩

/-- Reshaping twice is reshaping. -/
theorem trans {h : Func} (hg : f.Reshaped g) (hh : g.Reshaped h) :
    f.Reshaped h := by
  refine ⟨hh.length.trans hg.length, hh.entry.trans hg.entry, fun c => ?_⟩
  cases hc : f.block? c with
  | none =>
      cases hc' : h.block? c with
      | none => exact .none
      | some blk =>
          obtain ⟨blk₁, hblk₁, -⟩ := hh.backward hc'
          obtain ⟨blk₀, hblk₀, -⟩ := hg.backward hblk₁
          rw [hc] at hblk₀
          cases hblk₀
  | some blk₀ =>
      obtain ⟨blk₁, hblk₁, h₁⟩ := hg.forward hc
      obtain ⟨blk₂, hblk₂, h₂⟩ := hh.forward hblk₁
      rw [hblk₂]
      refine .some ⟨fun ht => h₂.term (h₁.term ht),
        fun s => (h₂.targets s).trans (h₁.targets s),
        fun p => (h₂.preds p).trans (h₁.preds p),
        fun hd => h₂.distinct (h₁.distinct hd),
        fun i hi => ?_, fun hl => h₂.phisLead (h₁.phisLead hl)⟩
      rcases h₂.instrs i hi with hi | hi
      · exact h₁.instrs i hi
      · exact Or.inr hi

/-- Such changes keep the structure. -/
theorem wellFormed (h : f.Reshaped g) (hwf : f.WellFormed) : g.WellFormed := by
  obtain ⟨eb, heb, hphi⟩ := hwf.entry
  obtain ⟨eb', heb', here⟩ := h.forward heb
  refine ⟨full_iff.mpr fun i hi => ?_,
    ⟨eb', by rw [h.entry]; exact heb', fun i hi => ?_⟩, fun b blk hb => ?_⟩
  · obtain ⟨blk, hblk⟩ :=
      full_iff.mp hwf.full i (by rw [h.length] at hi; exact hi)
    obtain ⟨blk', hblk', -⟩ := h.forward hblk
    exact ⟨blk', hblk'⟩
  · rcases here.instrs i hi with hi | hi
    · exact hphi i hi
    · exact hi.1
  · obtain ⟨blk₀, hb₀, hre⟩ := h.backward hb
    have hok := hwf.blockOk b blk₀ hb₀
    refine ⟨hre.term hok.term, fun s hs => ?_, fun p hp => ?_, fun hm => ?_,
      hre.phisLead hok.phisLead, fun d t ss hphi s hs => ?_⟩
    · obtain ⟨sb, hsb, hp⟩ := hok.target s ((hre.targets s).mp hs)
      obtain ⟨sb', hsb', hsre⟩ := h.forward hsb
      exact ⟨sb', hsb', (hsre.preds b).mpr hp⟩
    · obtain ⟨pb, hpb, ht⟩ := hok.pred p ((hre.preds p).mp hp)
      obtain ⟨pb', hpb', hpre⟩ := h.forward hpb
      exact ⟨pb', hpb', (hpre.targets b).mpr ht⟩
    · rcases hre.instrs _ hm with hm | ⟨-, hm⟩
      · exact hok.noHole hm
      · cases hm
    · rcases hre.instrs _ hphi with hphi | ⟨hphi, -⟩
      · exact (hre.preds _).mpr (hok.source d t ss hphi s hs)
      · cases hphi

/-- Predecessors that were distinct are. -/
theorem predsDistinct (h : f.Reshaped g) (hpd : f.PredsDistinct) :
    g.PredsDistinct := by
  intro b blk hb
  obtain ⟨blk₀, hb₀, hre⟩ := h.backward hb
  exact hre.distinct (hpd b blk₀ hb₀)

end Reshaped

-- ===================================================== keeping instructions

/-- A block with only the instructions that a test accepts. -/
def keptBlock (keep : Instr → Bool) (b : Block) : Block :=
  { b with instrs := b.instrs.filter keep }

-- Filtering instructions leaves the blocks where they are, with their targets
-- and predecessors.
@[simp] theorem block?_keepInstrs (f : Func)
    (keep : Instr → Bool) (b : BlockId) :
    (f.keepInstrs keep).block? b = (f.block? b).map (keptBlock keep) :=
  block?_mapBlocks f _ b

@[simp] theorem length_keepInstrs (f : Func) (keep : Instr → Bool) :
    (f.keepInstrs keep).blocks.length = f.blocks.length :=
  length_mapBlocks f _

/-- To drop nothing is to leave the function. -/
theorem keepInstrs_true (f : Func) : f.keepInstrs (fun _ => true) = f := by
  have hblocks : f.blocks.map (Option.map (keptBlock fun _ => true))
      = f.blocks := by
    refine (List.map_congr_left fun o _ => ?_).trans f.blocks.map_id'
    cases o <;> simp [keptBlock]
  exact congrArg (fun bs => { f with blocks := bs }) hblocks

/-- Dropping twice is dropping once. -/
theorem keepInstrs_keepInstrs (f : Func) (keep keep' : Instr → Bool) :
    (f.keepInstrs keep).keepInstrs keep' = f.keepInstrs fun i =>
    keep' i && keep i := by
  have hblocks : (f.blocks.map (Option.map (keptBlock keep))).map
      (Option.map (keptBlock keep'))
      = f.blocks.map (Option.map (keptBlock fun i => keep' i && keep i)) := by
    rw [List.map_map]
    refine List.map_congr_left fun o _ => ?_
    cases o <;> simp [keptBlock, List.filter_filter]
  exact congrArg (fun bs => { f with blocks := bs }) hblocks

theorem sameHeader_keepInstrs (f : Func) (keep : Instr → Bool) :
    f.SameHeader (f.keepInstrs keep) :=
  ⟨rfl, rfl, rfl, rfl, rfl, rfl⟩

@[simp] theorem keptBlock_targets (b : Block) :
    (keptBlock keep b).targets = b.targets := rfl

/-- Keeping some of the instructions leaves the edges. -/
theorem reshaped_keepInstrs (f : Func) (keep : Instr → Bool) :
    f.Reshaped (f.keepInstrs keep) := by
  refine ⟨length_keepInstrs f keep, rfl, fun c => ?_⟩
  rw [block?_keepInstrs]
  cases f.block? c with
  | none => exact .none
  | some blk =>
      refine .some ⟨fun h => h, fun _ => Iff.rfl, fun _ => Iff.rfl, fun h => h,
        fun i hi => ?_, ?_⟩
      · exact Or.inl (List.mem_filter.mp hi).1
      · exact fun h => h.sublist List.filter_sublist

/-- What stands in the function afterwards stood there and was accepted. -/
theorem hasInstr_keepInstrs {i : Instr} :
    (f.keepInstrs keep).HasInstr i ↔ f.HasInstr i ∧ keep i = true := by
  simp only [HasInstr, block?_keepInstrs, Option.map_eq_some_iff]
  constructor
  · rintro ⟨b, -, ⟨blk, hb, rfl⟩, hi⟩
    obtain ⟨hi, hk⟩ := List.mem_filter.mp hi
    exact ⟨⟨b, blk, hb, hi⟩, hk⟩
  · rintro ⟨⟨b, blk, hb, hi⟩, hk⟩
    exact ⟨b, _, ⟨blk, hb, rfl⟩, List.mem_filter.mpr ⟨hi, hk⟩⟩

/-- Nothing would be dropped when every instruction is accepted. -/
theorem anyDropped_eq_false (hfull : ∀ o ∈ f.blocks, o.isSome = true) :
    f.anyDropped keep = false ↔ ∀ i, f.HasInstr i → keep i = true := by
  unfold anyDropped
  rw [List.any_eq_false]
  constructor
  · rintro h i ⟨b, blk, hb, hi⟩
    obtain ⟨j, rfl, hj⟩ := block?_eq_some_iff.mp hb
    have := h (some blk) (List.mem_of_getElem? hj)
    simp only [Option.any_some, List.any_eq_true, Bool.not_eq_true',
      not_exists, not_and, Bool.not_eq_false] at this
    exact this i hi
  · intro h o ho
    obtain ⟨j, hj⟩ := List.mem_iff_getElem?.mp ho
    obtain ⟨blk, rfl⟩ := Option.isSome_iff_exists.mp (hfull o ho)
    simp only [Option.any_some, List.any_eq_true, Bool.not_eq_true',
      not_exists, not_and, Bool.not_eq_false]
    exact fun i hi => h i ⟨j, blk, block?_eq_some_iff.mpr ⟨j, rfl, hj⟩, hi⟩

end Func

end MirBackend
