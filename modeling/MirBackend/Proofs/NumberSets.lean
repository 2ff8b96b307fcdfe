/-
Bit sets stand for finite sets of numbers.

`elems` is the set a bit set stands for, and every operation on bit sets is
the operation of the same name on what they stand for, whatever the lengths
of the operands: past its last word a set has zeros. So are the questions: the
list is the sorted list of the elements, ranging visits it from the front
until it is told to stop, and two bit sets are equal when they stand for the
same set.

The bits of a word are listed by looking at each of its places. To take off
the lowest bit as long as there is one (`peel`) lists the same.
-/
import Mathlib
import MirBackend.Proofs.BitSet
import MirBackend.Proofs.Outcome

namespace MirBackend.BitSet

variable {s t : BitSet} {j k : Nat}

-- =================================================================== words

/-- The bits as the library has them. -/
theorem hasBit_eq_getLsbD (w : UInt64) (hj : j < 64) :
    hasBit w j = w.toBitVec.getLsbD j :=
  hasBit_eq_testBit w hj

-- Operations on words, bit by bit.
theorem hasBit_or (w v : UInt64) (hj : j < 64) :
    hasBit (w ||| v) j = (hasBit w j || hasBit v j) := by
  simp only [hasBit_eq_getLsbD _ hj, UInt64.toBitVec_or, BitVec.getLsbD_or]

theorem hasBit_and (w v : UInt64) (hj : j < 64) :
    hasBit (w &&& v) j = (hasBit w j && hasBit v j) := by
  simp only [hasBit_eq_getLsbD _ hj, UInt64.toBitVec_and, BitVec.getLsbD_and]

theorem hasBit_without (w v : UInt64) (hj : j < 64) :
    hasBit (w &&& ~~~ v) j = (hasBit w j && !hasBit v j) := by
  simp only [hasBit_eq_getLsbD _ hj, UInt64.toBitVec_and, UInt64.toBitVec_not,
    BitVec.getLsbD_and, BitVec.getLsbD_not, hj, decide_true, Bool.true_and]

theorem hasBit_bit {i : Nat} (hi : i < 64) (hj : j < 64) :
    hasBit (bit i) j = decide (i = j) := by
  rw [hasBit_eq_testBit _ hj, toNat_bit hi, Nat.testBit_two_pow]

/-- Words with the same bits are the same. -/
theorem eq_of_hasBit {w v : UInt64}
    (h : ∀ j < 64, hasBit w j = hasBit v j) : w = v := by
  refine UInt64.toBitVec_inj.mp (BitVec.eq_of_getLsbD_eq fun j hj => ?_)
  rw [← hasBit_eq_getLsbD w hj, ← hasBit_eq_getLsbD v hj, h j hj]

-- ============================================================= lists of words

-- Combining two lists of words goes by the first one's length. Words past the
-- end of the second are zero.
theorem length_combine (g : UInt64 → UInt64 → UInt64) (ws vs : List UInt64) :
    (combine g ws vs).length = ws.length := by
  induction ws generalizing vs with
  | nil => rfl
  | cons w ws ih => cases vs
    <;> rw [combine, List.length_cons, List.length_cons, ih]

theorem getD_combine (g : UInt64 → UInt64 → UInt64)
    {ws vs : List UInt64} {i : Nat} (hi : i < ws.length) :
    (combine g ws vs).getD i 0 = g (ws.getD i 0) (vs.getD i 0) := by
  induction ws generalizing vs i with
  | nil => cases hi
  | cons w ws ih =>
      cases vs with
      | nil =>
          cases i with
          | zero => rfl
          | succ i => exact @ih [] i (Nat.lt_of_succ_lt_succ hi)
      | cons v vs =>
          cases i with
          | zero => rfl
          | succ i => exact ih (Nat.lt_of_succ_lt_succ hi)

/-- Changing the word at one place. Where there is none, zero has to stay
zero. -/
theorem getD_modify {g : UInt64 → UInt64} (hg : g 0 = 0)
    (ws : List UInt64) (i j : Nat) :
    (ws.modify i g).getD j 0 = if i = j then g
    (ws.getD j 0) else ws.getD j 0 := by
  simp only [List.getD_eq_getElem?_getD, List.getElem?_modify]
  split <;> cases ws[j]? <;> simp [hg]

/-- Lists of words are the same up to zeros behind when they are so at every
place. -/
theorem sameWords_iff {ws vs : List UInt64} :
    sameWords ws vs = true ↔ ∀ i, ws.getD i 0 = vs.getD i 0 := by
  have hzeros (us : List UInt64) : us.all (· == 0) = true
      ↔ ∀ i, us.getD i 0 = 0 := by
    rw [List.all_eq_true]
    constructor
    · intro h i
      rw [List.getD_eq_getElem?_getD]
      cases hi : us[i]? with
      | none => rfl
      | some u => exact eq_of_beq (h u (List.mem_of_getElem? hi))
    · intro h u hu
      obtain ⟨i, hi⟩ := List.mem_iff_getElem?.mp hu
      have := h i
      rw [List.getD_eq_getElem?_getD, hi] at this
      exact beq_iff_eq.mpr this
  induction ws generalizing vs with
  | nil =>
      rw [sameWords, hzeros]
      exact forall_congr' fun i => eq_comm
  | cons w ws ih =>
      cases vs with
      | nil =>
          rw [sameWords, hzeros]
          · rfl
          · rintro ⟨⟩
      | cons v vs =>
          rw [sameWords, Bool.and_eq_true, beq_iff_eq]
          constructor
          · rintro ⟨h0, h⟩ i
            cases i with
            | zero => exact h0
            | succ i => exact ih.mp h i
          · exact fun h => ⟨h 0, ih.mpr fun i => h (i + 1)⟩

-- ============================================================== membership

-- What each operation does to membership.
theorem contains_erase (s : BitSet) (k j : Nat) :
    (s.erase k).contains j = (s.contains j && !decide (k = j)) := by
  have hmod (n : Nat) : n % 64 < 64 := Nat.mod_lt _ (by decide)
  unfold contains erase
  dsimp only
  rw [getD_modify (g := (· &&& ~~~ bit (k % 64))) UInt64.zero_and]
  by_cases hw : k / 64 = j / 64
  · rw [if_pos hw, hasBit_without _ _ (hmod j), hasBit_bit (hmod k) (hmod j)]
    have hiff : k % 64 = j % 64 ↔ k = j := by omega
    simp only [hiff]
  · have hne : k ≠ j := fun h => hw (by rw [h])
    simp [if_neg hw, hne]

/-- Words combined bit by bit, where behind the first list nothing comes of the
second. -/
theorem contains_combine {g : UInt64 → UInt64 → UInt64}
    (op : Bool → Bool → Bool)
    (hg : ∀ w v j, j < 64 → hasBit (g w v) j = op (hasBit w j) (hasBit v j))
    {ws vs : List UInt64} (hbehind : ∀ i j, ws.length ≤ i →
      op false (hasBit (vs.getD i 0) j) = false) (k : Nat) :
    (⟨combine g ws vs⟩ : BitSet).contains k
      = op ((⟨ws⟩ : BitSet).contains k) ((⟨vs⟩ : BitSet).contains k) := by
  have hmod : k % 64 < 64 := Nat.mod_lt _ (by decide)
  unfold contains
  dsimp only
  by_cases hi : k / 64 < ws.length
  · rw [getD_combine g hi, hg _ _ _ hmod]
  · have hnone (us : List UInt64) (hlen : us.length = ws.length) :
        us.getD (k / 64) 0 = 0 := by
      rw [List.getD_eq_getElem?_getD, List.getElem?_eq_none (by omega)]
      rfl
    rw [hnone _ (length_combine g ws vs), hnone ws rfl, hasBit_zero,
      hbehind _ _ (by omega)]

theorem contains_union (s t : BitSet) (k : Nat) :
    (s.union t).contains k = (s.contains k || t.contains k) := by
  have hgrown : (⟨grow s.words t.words.length⟩ : BitSet).contains k
      = s.contains k := by
    unfold contains
    dsimp only
    rw [getD_grow]
  rw [union, contains_combine or (fun w v _ => hasBit_or w v), hgrown]
  intro i j hi
  have hle := le_length_grow s.words t.words.length
  rw [List.getD_eq_getElem?_getD, List.getElem?_eq_none (by omega)]
  simp

theorem contains_inter (s t : BitSet) (k : Nat) :
    (s.inter t).contains k = (s.contains k && t.contains k) :=
  contains_combine and (fun w v _ => hasBit_and w v) (fun _ _ _ => rfl) k

theorem contains_diff (s t : BitSet) (k : Nat) :
    (s.diff t).contains k = (s.contains k && !t.contains k) :=
  contains_combine (fun a b => a && !b) (fun w v _ => hasBit_without w v)
    (fun _ _ _ => rfl) k

@[simp] theorem contains_copy (s : BitSet) (k : Nat) :
    s.copy.contains k = s.contains k := by
  unfold contains copy
  dsimp only
  rw [getD_grow]

@[simp] theorem contains_clear (s : BitSet) (k : Nat) :
    s.clear.contains k = false := by
  unfold contains clear
  dsimp only
  rw [List.getD_eq_getElem?_getD, List.getElem?_map]
  cases s.words[k / 64]? <;> simp

@[simp] theorem contains_empty (k : Nat) : empty.contains k = false := by
  unfold contains empty
  simp

/-- Equal sets are those that contain the same numbers. -/
theorem sameElems_iff_contains : s.sameElems t = true
    ↔ ∀ k, s.contains k = t.contains k := by
  rw [sameElems, sameWords_iff]
  constructor
  · intro h k
    rw [contains, contains, h]
  · intro h i
    refine eq_of_hasBit fun j hj => ?_
    have := h (i * 64 + j)
    rwa [contains, contains, show (i * 64 + j) / 64 = i by omega,
      show (i * 64 + j) % 64 = j by omega] at this

-- ========================================================= the set stood for

/-- The numbers in a set. -/
def elems (s : BitSet) : Finset Nat := s.toList.toFinset

/-- The elements are the numbers that the set says it has. -/
theorem mem_elems : k ∈ s.elems ↔ s.contains k = true := by
  rw [elems, List.mem_toFinset, mem_toList]

-- Each operation is the one of finite sets on the elements.
@[simp] theorem elems_empty : empty.elems = ∅ := by
  ext k
  simp [mem_elems]

@[simp] theorem elems_ofCapacity (n : Int64) : (ofCapacity n).elems = ∅ := by
  ext k
  simp [mem_elems]

@[simp] theorem elems_insert (s : BitSet) (k : Nat) :
    (s.insert k).elems = Insert.insert k s.elems := by
  ext j
  rw [mem_elems, contains_insert, Finset.mem_insert, mem_elems, Bool.or_eq_true,
    decide_eq_true_eq, or_comm, eq_comm]

@[simp] theorem elems_union (s t : BitSet) :
    (s.union t).elems = s.elems ∪ t.elems := by
  ext k
  simp [mem_elems, contains_union]

@[simp] theorem elems_inter (s t : BitSet) :
    (s.inter t).elems = s.elems ∩ t.elems := by
  ext k
  simp [mem_elems, contains_inter]

@[simp] theorem elems_diff (s t : BitSet) :
    (s.diff t).elems = s.elems \ t.elems := by
  ext k
  simp [mem_elems, contains_diff]

@[simp] theorem elems_copy (s : BitSet) : s.copy.elems = s.elems := by
  ext k
  simp [mem_elems]

@[simp] theorem elems_clear (s : BitSet) : s.clear.elems = ∅ := by
  ext k
  simp [mem_elems]

/-- Any integer is a member when it is one of the numbers. -/
theorem containsInt_iff (s : BitSet) (k : Int) :
    s.containsInt k = true ↔ ∃ n ∈ s.elems, (n : Int) = k := by
  cases k with
  | ofNat k =>
      rw [containsInt, ← mem_elems]
      constructor
      · exact fun h => ⟨k, h, rfl⟩
      · rintro ⟨n, hn, h⟩
        exact Int.ofNat.inj h ▸ hn
  | negSucc k =>
      constructor
      · rintro ⟨⟩
      · rintro ⟨n, -, h⟩
        cases h

@[simp] theorem elems_eraseInt (s : BitSet) (k : Int) :
    (s.eraseInt k).elems = s.elems.filter fun n : Nat => (n : Int) ≠ k := by
  ext n
  cases k with
  | ofNat k =>
      rw [eraseInt, mem_elems, contains_erase, Finset.mem_filter,
        mem_elems, Bool.and_eq_true,
        Bool.not_eq_true', decide_eq_false_iff_not, ne_eq,
          Int.ofNat_eq_natCast, Nat.cast_inj,
        eq_comm (a := k)]
  | negSucc k =>
      rw [eraseInt, Finset.mem_filter]
      exact ⟨fun h => ⟨h, by rintro ⟨⟩⟩, And.left⟩

/-- What is not negative can be put in. -/
theorem insertInt_of_nonneg (s : BitSet) {k : Int} (hk : 0 ≤ k) :
    s.insertInt k = .ok (s.insert k.toNat) := by
  cases k with
  | ofNat k => rfl
  | negSucc k => cases hk

/-- Several numbers, none negative, are put in one after the other. -/
theorem insertInts_spec (s : BitSet) {ks : List Int} (hks : ∀ k ∈ ks, 0 ≤ k) :
    ∃ s', s.insertInts ks = .ok s' ∧ s'.elems
        = s.elems ∪ (ks.map Int.toNat).toFinset := by
  induction ks generalizing s with
  | nil => exact ⟨s, rfl, by simp⟩
  | cons k ks ih =>
      rw [List.forall_mem_cons] at hks
      obtain ⟨s', hs', helems⟩ := ih (s.insert k.toNat) hks.2
      refine ⟨s', ?_, ?_⟩
      · rw [insertInts, List.foldlM_cons, insertInt_of_nonneg s hks.1]
        exact hs'
      · rw [helems, elems_insert, List.map_cons, List.toFinset_cons,
          Finset.insert_union, Finset.union_insert]

/-- Adding a number says whether it was missing. -/
theorem addInt_of_nonneg (s : BitSet) {k : Int} (hk : 0 ≤ k) :
    ∃ s', s.addInt k = .ok (decide (k.toNat ∉ s.elems), s')
      ∧ s'.elems = Insert.insert k.toNat s.elems := by
  obtain ⟨n, rfl⟩ := Int.eq_ofNat_of_zero_le hk
  have hcontains : s.containsInt (n : Int) = s.contains n := rfl
  rw [addInt, hcontains, Int.toNat_natCast]
  split
  · next h =>
    refine ⟨s, ?_, ?_⟩
    · simp [mem_elems, h]
    · rw [Finset.insert_eq_of_mem (mem_elems.mpr h)]
  · next h =>
    refine ⟨s.insert n, ?_, elems_insert s n⟩
    rw [insertInt_of_nonneg s hk, ok_bind, Int.toNat_natCast]
    simp [mem_elems, h]
    rfl

-- =============================================================== questions

/-- The bits counted are the elements. -/
theorem size_eq_card (s : BitSet) : s.size = s.elems.card := by
  rw [elems, List.toFinset_card_of_nodup s.toList_nodup, size_eq_length_toList]

/-- The members are listed in order. -/
theorem toList_eq_sort (s : BitSet) : s.toList = s.elems.sort := by
  have hsorted : s.toList.Pairwise (· ≤ ·) := s.toList_sorted.imp Nat.le_of_lt
  exact ((List.toFinset_sort (· ≤ ·) s.toList_nodup).mpr hsorted).symm

/-- Sets with the same bits up to zeros at the end have the same elements. -/
theorem sameElems_iff : s.sameElems t = true ↔ s.elems = t.elems := by
  rw [sameElems_iff_contains, Finset.ext_iff]
  exact forall_congr' fun k => by rw [mem_elems, mem_elems, Bool.eq_iff_iff]

-- =============================================================== ranging

section

variable {σ : Type} (f : σ → Nat → σ × Bool)

/-- What the steps at some numbers make of a state. -/
def visited (a : σ) (ks : List Nat) : σ := ks.foldl (fun a k => (f a k).1) a

/-- Of `ks` the numbers `seen` are visited: a part from the front, up to the
first number at which the step says stop, or all if there is none. -/
structure Visits (init : σ) (ks seen : List Nat) : Prop where
  front : seen <+: ks
  goes : ∀ before k after, seen = before ++ k :: after → after ≠ [] →
    (f (visited f init before) k).2 = true
  stops : seen = ks ∨ ∃ before k, seen = before ++ [k]
    ∧ (f (visited f init before) k).2 = false

/-- The loop visits the members until it is told to stop. -/
theorem foldUntil_go_visits (init : σ) (ks : List Nat) :
    ∃ seen, Visits f init ks seen ∧ foldUntil.go f init ks
        = visited f init seen := by
  induction ks generalizing init with
  | nil =>
      refine ⟨[], ⟨List.prefix_rfl, fun before k after h => ?_, Or.inl rfl⟩,
        rfl⟩
      cases before <;> cases h
  | cons k ks ih =>
      rw [foldUntil.go]
      cases hstep : f init k with
      | mk a more =>
      cases more with
      | false =>
          refine ⟨[k], ⟨⟨ks, rfl⟩, fun before j after h hne => ?_,
            Or.inr ⟨[], k, rfl, ?_⟩⟩, ?_⟩
          · cases before with
            | nil =>
                cases h
                exact absurd rfl hne
            | cons i before => cases before <;> cases h
          · show (f init k).2 = false
            rw [hstep]
          · show a = (f init k).1
            rw [hstep]
      | true =>
          have hhead : (f init k).1 = a := by rw [hstep]
          have hvisited (js : List Nat) : visited f init (k :: js)
              = visited f a js := by
            show visited f (f init k).1 js = _
            rw [hhead]
          obtain ⟨seen, hseen, hgo⟩ := ih a
          refine ⟨k :: seen, ⟨?_, fun before j after h hne => ?_, ?_⟩, ?_⟩
          · exact List.prefix_cons_inj k |>.mpr hseen.front
          · cases before with
            | nil =>
                cases h
                show (f init k).2 = true
                rw [hstep]
            | cons i before =>
                rw [List.cons_append, List.cons.injEq] at h
                obtain ⟨rfl, h⟩ := h
                rw [hvisited]
                exact hseen.goes before j after h hne
          · rcases hseen.stops with h | ⟨before, j, h, hstop⟩
            · exact Or.inl (by rw [h])
            · refine Or.inr ⟨k :: before, j, by rw [h, List.cons_append], ?_⟩
              rw [hvisited]
              exact hstop
          · rw [hvisited]
            exact hgo

end

-- =============================================================== peeling

/-- The lowest bit of a word, 64 if it has none. -/
def lowest (w : UInt64) : Nat := ((List.range 64).find? (hasBit w)).getD 64

/-- The lowest bit of a word that has one. -/
theorem lowest_spec {w : UInt64} (hw : w ≠ 0) :
    lowest w < 64 ∧ hasBit w (lowest w) = true
        ∧ ∀ j < lowest w, hasBit w j = false := by
  unfold lowest
  cases h : (List.range 64).find? (hasBit w) with
  | none =>
      rw [List.find?_range_eq_none] at h
      refine absurd (eq_of_hasBit fun j hj => ?_) hw
      rw [hasBit_zero]
      simpa using h j hj
  | some i =>
      rw [List.find?_range_eq_some] at h
      obtain ⟨hbit, hmem, hlow⟩ := h
      exact ⟨List.mem_range.mp hmem, hbit, fun j hj => by simpa using hlow j hj⟩

/-- To take off the lowest bit makes a word smaller. -/
theorem toNat_without_lowest_lt {w : UInt64} (hw : w ≠ 0) :
    (w &&& ~~~ bit (lowest w)).toNat < w.toNat := by
  obtain ⟨hlt, hbit, -⟩ := lowest_spec hw
  refine lt_of_le_of_ne ?_ fun h => ?_
  · rw [UInt64.toNat_and]
    exact Nat.and_le_left
  · have := hasBit_without w (bit (lowest w)) hlt
    rw [UInt64.toNat_inj.mp h, hbit, hasBit_bit hlt hlt] at this
    simp at this

/-- The bits of a word, taken off one by one from the low end. -/
def peel (w : UInt64) : List Nat :=
  if w = 0 then [] else lowest w :: peel (w &&& ~~~ bit (lowest w))
termination_by w.toNat
decreasing_by exact toNat_without_lowest_lt ‹_›

/-- Taking off the lowest bit as long as there is one lists the bits. -/
theorem bitsOf_eq_peel (w : UInt64) : bitsOf w = peel w := by
  induction w using peel.induct with
  | case1 => rw [bitsOf, peel, if_pos rfl, if_pos rfl]
  | case2 w hw ih =>
      obtain ⟨hlt, hbit, hlow⟩ := lowest_spec hw
      have hrest (j : Nat) : j ∈ bitsOf (w &&& ~~~ bit (lowest w))
          ↔ j ∈ bitsOf w ∧ lowest w ≠ j := by
        rw [mem_bitsOf, mem_bitsOf]
        by_cases hj : j < 64
        · rw [hasBit_without w _ hj, hasBit_bit hlt hj]
          simp [hj]
        · simp [hj]
      rw [peel, if_neg hw, ← ih]
      refine List.Pairwise.eq_of_mem_iff (r := (· < ·))
        (bitsOf_sorted w) ?_ fun {j} => ?_
      · refine List.pairwise_cons.mpr ⟨fun j hj => ?_, bitsOf_sorted _⟩
        obtain ⟨hmem, hne⟩ := (hrest j).mp hj
        by_contra hge
        have := hlow j (by omega)
        rw [(mem_bitsOf.mp hmem).2] at this
        cases this
      · rw [List.mem_cons, hrest]
        constructor
        · intro hj
          by_cases h : j = lowest w
          · exact Or.inl h
          · exact Or.inr ⟨hj, Ne.symm h⟩
        · rintro (rfl | ⟨hj, -⟩)
          · exact mem_bitsOf.mpr ⟨hlt, hbit⟩
          · exact hj

end MirBackend.BitSet
