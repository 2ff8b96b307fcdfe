/-
Looking blocks up in a function under edits.

A function is read through `block?` everywhere else; the lemmas here say what
each edit of the block list does to that view, and to nothing else.
-/
import Mathlib
import MirBackend.Func
import MirBackend.Proofs.Outcome

namespace MirBackend.Func

variable {f : Func} {b c : BlockId} {blk : Block}

-- ================================================================== lookup

-- Blocks are numbered by their positions. A block may be missing, and then its
-- number is still in use.
theorem block?_natCast (f : Func) (i : Nat) :
    f.block? (i : Int) = (f.blocks[i]?).join := rfl

/-- A block that is found stands in the list at its number. -/
theorem block?_eq_some_iff :
    f.block? b = some blk ↔ ∃ i : Nat, b = i
        ∧ f.blocks[i]? = some (some blk) := by
  cases b with
  | ofNat i =>
      rw [show f.block? (Int.ofNat i) = (f.blocks[i]?).join from rfl,
        Option.join_eq_some_iff]
      constructor
      · intro h
        exact ⟨i, rfl, h⟩
      · rintro ⟨j, hj, h⟩
        cases hj
        exact h
  | negSucc i =>
      constructor
      · intro h
        cases h
      · rintro ⟨j, hj, -⟩
        cases hj

/-- A number is in use if it is a position. -/
theorem hasBlock_iff : f.hasBlock b = true ↔ ∃ i : Nat, b = i
    ∧ i < f.blocks.length := by
  simp only [hasBlock, decide_eq_true_eq]
  constructor
  · rintro ⟨h0, hlt⟩
    obtain ⟨i, rfl⟩ := Int.eq_ofNat_of_zero_le h0
    exact ⟨i, rfl, Int.ofNat_lt.mp hlt⟩
  · rintro ⟨i, rfl, hi⟩
    exact ⟨Int.natCast_nonneg i, Int.ofNat_lt.mpr hi⟩

/-- Where a block is found there is a place for it. -/
theorem hasBlock_of_block? (h : f.block? b = some blk) :
    f.hasBlock b = true := by
  obtain ⟨i, rfl, hi⟩ := block?_eq_some_iff.mp h
  exact hasBlock_iff.mpr ⟨i, rfl, (List.getElem?_eq_some_iff.mp hi).1⟩

/-- Following a number answers the block that is there. -/
theorem block_eq_ok : f.block b = .ok blk ↔ f.block? b = some blk := by
  simp [block]

/-- The blocks in order, when no place is vacant. -/
theorem present_eq_ok {bs : List Block} :
    f.present = .ok bs ↔ f.blocks = bs.map some := by
  unfold present
  rw [mapM_eq_ok]
  constructor
  · intro h
    generalize f.blocks = os at h
    induction h with
    | nil => rfl
    | cons hb _ ih =>
        rw [orFault_eq_ok] at hb
        rw [hb, ih, List.map_cons]
  · intro h
    rw [h, List.forall₂_map_left_iff]
    exact List.forall₂_same.mpr fun _ _ => rfl

/-- Looking up in a list without vacant places. -/
theorem block?_of_blocks {bs : List Block}
    (h : f.blocks = bs.map some) (i : Nat) : f.block? (i : Int) = bs[i]? := by
  rw [block?_natCast, h, List.getElem?_map]
  cases bs[i]? <;> rfl

/-- The blocks of a function, looked up one by one. -/
theorem blocks_eq_range (f : Func) :
    f.blocks = (List.range f.blocks.length).map fun i : Nat =>
      f.block? (i : Int) := by
  refine List.ext_getElem (by simp) fun i h₁ h₂ => ?_
  rw [List.getElem_map, List.getElem_range, block?_natCast,
    List.getElem?_eq_getElem h₁]
  cases f.blocks[i] <;> rfl

-- =================================================================== edits

-- Recording an edit touches no block, no parameter and no counter, and changing
-- a block touches that block only.
@[simp] theorem block?_record (e : EdgeEdit) :
    (f.record e).block? b = f.block? b := by
  cases b <;> rfl

@[simp] theorem blocks_record (e : EdgeEdit) :
    (f.record e).blocks = f.blocks := rfl

@[simp] theorem entry_record (e : EdgeEdit) :
    (f.record e).entry = f.entry := rfl

/-- A change of one block is seen there and nowhere else. -/
theorem block?_modifyBlock (f : Func) (b c : BlockId) (g : Block → Block) :
    (f.modifyBlock b g).block? c = if c
      = b then (f.block? c).map g else f.block? c := by
  cases b with
  | negSucc i =>
      rw [show f.modifyBlock (Int.negSucc i) g = f from rfl]
      cases c with
      | ofNat j => simp
      | negSucc j => split <;> rfl
  | ofNat i =>
      cases c with
      | negSucc j => simp [block?]
      | ofNat j =>
          simp only [block?, modifyBlock, List.getElem?_modify,
            Int.ofNat_eq_natCast, Nat.cast_inj]
          by_cases hij : i = j
          · subst hij
            rcases f.blocks[i]? with - | (- | blk) <;> simp
          · rw [if_neg fun h : j = i => hij h.symm]
            simp only [if_neg hij]
            rcases f.blocks[j]? with - | o <;> rfl

@[simp] theorem length_modifyBlock (f : Func) (b : BlockId)
    (g : Block → Block) :
    (f.modifyBlock b g).blocks.length = f.blocks.length := by
  cases b <;> simp [modifyBlock]

@[simp] theorem entry_modifyBlock (f : Func) (b : BlockId) (g : Block → Block) :
    (f.modifyBlock b g).entry = f.entry := by
  cases b <;> rfl

@[simp] theorem block?_mapBlocks (f : Func) (g : Block → Block) (b : BlockId) :
    (f.mapBlocks g).block? b = (f.block? b).map g := by
  cases b with
  | negSucc i => rfl
  | ofNat i =>
      simp only [block?, mapBlocks, List.getElem?_map]
      rcases f.blocks[i]? with - | (- | blk) <;> rfl

@[simp] theorem length_mapBlocks (f : Func) (g : Block → Block) :
    (f.mapBlocks g).blocks.length = f.blocks.length := by
  simp [mapBlocks]

@[simp] theorem entry_mapBlocks (f : Func) (g : Block → Block) :
    (f.mapBlocks g).entry = f.entry := rfl

/-- A block put at the end is found there; the others stay where they are. -/
theorem block?_append (f : Func) (blk : Block) (b : BlockId) :
    { f with blocks := f.blocks ++ [some blk] }.block? b
      = if b = f.blocks.length then some blk else f.block? b := by
  cases b with
  | negSucc i =>
      rw [if_neg (by simp)]
      rfl
  | ofNat i =>
      simp only [block?, Int.ofNat_eq_natCast, Nat.cast_inj]
      rcases Nat.lt_trichotomy i f.blocks.length with hi | hi | hi
      · rw [if_neg (by omega), List.getElem?_append_left hi]
      · subst hi
        simp
      · rw [if_neg (by omega), List.getElem?_eq_none (by simpa using hi),
          List.getElem?_eq_none (by omega)]

/-- A number past the end of the list names nothing. -/
theorem block?_length (f : Func) : f.block? f.blocks.length = none := by
  rw [block?_natCast]
  simp

/-- Changing a block that is there. -/
theorem updateBlock_of_block? {g : Block → Block} (h : f.block? b = some blk) :
    f.updateBlock b g = .ok (f.modifyBlock b g) := by
  simp only [updateBlock, block_eq_ok.mpr h, given_ok, ok_bind]
  rfl

-- ================================================================== fields

@[simp] theorem params_record (e : EdgeEdit) :
    (f.record e).params = f.params := rfl

@[simp] theorem params_modifyBlock (g : Block → Block) :
    (f.modifyBlock b g).params = f.params := by
  cases b <;> rfl

@[simp] theorem nextValue_record (e : EdgeEdit) :
    (f.record e).nextValue = f.nextValue := rfl

@[simp] theorem nextValue_modifyBlock (g : Block → Block) :
    (f.modifyBlock b g).nextValue = f.nextValue := by
  cases b <;> rfl

end MirBackend.Func
