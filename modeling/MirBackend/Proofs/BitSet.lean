/-
Bit sets as sets of numbers.

Every operation is read through `contains`: the word operations are turned
into `Nat.testBit`, and from there on a set is the numbers it accepts. The
list of its elements is ascending, hence without repetition, and `size` is the
length of that list.
-/
import Mathlib
import MirBackend.BitSet

namespace MirBackend.BitSet

-- =================================================================== words

/-- A one-bit word as a number. -/
theorem toNat_bit {j : Nat} (hj : j < 64) : (bit j).toNat = 2 ^ j := by
  have hpow : 2 ^ j < 2 ^ 64 := Nat.pow_lt_pow_right (by decide) hj
  have hsmall : j < 2 ^ 64 := Nat.lt_trans hj (by decide)
  unfold bit
  rw [UInt64.toNat_shiftLeft, UInt64.toNat_ofNat_of_lt' hsmall]
  rw [Nat.mod_eq_of_lt hj, UInt64.toNat_one, Nat.shiftLeft_eq, Nat.one_mul]
  exact Nat.mod_eq_of_lt hpow

/-- Testing a bit by a mask is testing the bit of the number. -/
theorem hasBit_eq_testBit (w : UInt64) {j : Nat} (hj : j < 64) :
    hasBit w j = w.toNat.testBit j := by
  have hmask : (w &&& bit j).toNat = (w.toNat.testBit j).toNat * 2 ^ j := by
    rw [UInt64.toNat_and, toNat_bit hj, Nat.and_two_pow]
  unfold hasBit
  cases hb : w.toNat.testBit j with
  | false =>
      rw [hb] at hmask
      have hzero : w &&& bit j = 0 := UInt64.toNat_inj.mp (by simpa using hmask)
      simp [hzero]
  | true =>
      rw [hb] at hmask
      have hne : w &&& bit j ≠ 0 := by
        intro h0
        rw [h0] at hmask
        have := Nat.two_pow_pos j
        simp at hmask
        omega
      simpa using hne

/-- Setting a bit of a word adds that bit and no other. -/
theorem hasBit_or_bit (w : UInt64) {i j : Nat} (hi : i < 64) (hj : j < 64) :
    hasBit (w ||| bit i) j = (hasBit w j || decide (i = j)) := by
  rw [hasBit_eq_testBit _ hj, hasBit_eq_testBit _ hj,
    UInt64.toNat_or, toNat_bit hi, Nat.testBit_or, Nat.testBit_two_pow]

/-- The empty word has no bits. -/
@[simp] theorem hasBit_zero (j : Nat) : hasBit 0 j = false := by
  simp [hasBit]

/-- Growing keeps every word and puts zeros behind. -/
theorem getD_grow (ws : List UInt64) (n i : Nat) :
    (grow ws n).getD i 0 = ws.getD i 0 := by
  unfold grow
  simp only [List.getD_eq_getElem?_getD]
  by_cases hi : i < ws.length
  · rw [List.getElem?_append_left hi]
  · rw [List.getElem?_append_right (by omega),
      List.getElem?_eq_none (by omega : ws.length ≤ i)]
    rcases hr :
        (List.replicate (max n 2 - ws.length) (0 : UInt64))[i - ws.length]?
        with - | w
    · rfl
    · have := List.eq_of_mem_replicate (List.mem_of_getElem? hr)
      simp [this]

/-- Growing to `n` words makes room for them. -/
theorem le_length_grow (ws : List UInt64) (n : Nat) :
    n ≤ (grow ws n).length := by
  unfold grow
  rw [List.length_append, List.length_replicate]
  omega

-- ============================================================== membership

/-- A set with storage and nothing in it contains nothing. -/
@[simp] theorem contains_ofCapacity (n : Int64) (k : Nat) :
    (ofCapacity n).contains k = false := by
  unfold contains ofCapacity
  rw [getD_grow]
  simp

/-- Insertion adds one number and no other. -/
theorem contains_insert (s : BitSet) (k j : Nat) :
    (s.insert k).contains j = (s.contains j || decide (k = j)) := by
  have hk : k / 64 < (grow s.words (k / 64 + 1)).length :=
    Nat.lt_of_lt_of_le (Nat.lt_succ_self _) (le_length_grow _ _)
  have hmod (n : Nat) : n % 64 < 64 := Nat.mod_lt _ (by decide)
  have hword :
      ((grow s.words (k / 64 + 1)).modify (k / 64) (· ||| bit (k % 64))).getD
      (j / 64) 0
      = if k / 64 = j / 64 then s.words.getD (j / 64) 0 ||| bit (k % 64)
        else s.words.getD (j / 64) 0 := by
    rw [← getD_grow s.words (k / 64 + 1) (j / 64)]
    simp only [List.getD_eq_getElem?_getD, List.getElem?_modify]
    by_cases hw : k / 64 = j / 64
    · rw [← hw, List.getElem?_eq_getElem hk]
      simp
    · simp only [if_neg hw]
      cases (grow s.words (k / 64 + 1))[j / 64]? <;> rfl
  unfold contains insert
  dsimp only
  rw [hword]
  by_cases hw : k / 64 = j / 64
  · rw [if_pos hw, hasBit_or_bit _ (hmod k) (hmod j)]
    have hiff : k % 64 = j % 64 ↔ k = j := by omega
    simp only [hiff]
  · have hne : k ≠ j := fun h => hw (by rw [h])
    simp [if_neg hw, hne]

-- ================================================================ elements

/-- The bits listed for a word are the bits it has. -/
theorem mem_bitsOf {w : UInt64} {j : Nat} :
    j ∈ bitsOf w ↔ j < 64 ∧ hasBit w j = true := by
  unfold bitsOf
  by_cases hw : w = 0
  · simp [hw]
  · rw [if_neg hw]
    simp

/-- The bits of a word are peeled off from the lowest up. -/
theorem bitsOf_sorted (w : UInt64) : (bitsOf w).Pairwise (· < ·) := by
  unfold bitsOf
  split
  · exact List.Pairwise.nil
  · exact List.pairwise_lt_range.filter _

/-- The numbers listed are the numbers contained. -/
theorem mem_toList {s : BitSet} {k : Nat} :
    k ∈ s.toList ↔ s.contains k = true := by
  unfold toList contains
  simp only [List.mem_flatMap, List.mem_map, Prod.exists]
  constructor
  · rintro ⟨w, i, hwi, j, hj, rfl⟩
    obtain ⟨hj64, hbit⟩ := mem_bitsOf.mp hj
    have hget : s.words[i]? = some w := by
      have := List.mk_mem_zipIdx_iff_getElem?.mp hwi
      simpa using this
    have hdiv : (i * 64 + j) / 64 = i := by omega
    have hmod : (i * 64 + j) % 64 = j := by omega
    rw [hdiv, hmod, List.getD_eq_getElem?_getD, hget]
    exact hbit
  · intro hbit
    have hlen : k / 64 < s.words.length := by
      by_contra hge
      rw [List.getD_eq_getElem?_getD, List.getElem?_eq_none (by omega)] at hbit
      simp at hbit
    have hget : s.words[k / 64]? = some s.words[k / 64] :=
      List.getElem?_eq_getElem hlen
    refine ⟨s.words[k / 64], k / 64, ?_, k % 64, ?_, by omega⟩
    · exact List.mk_mem_zipIdx_iff_getElem?.mpr hget
    · rw [List.getD_eq_getElem?_getD, hget] at hbit
      exact mem_bitsOf.mpr ⟨Nat.mod_lt _ (by decide), hbit⟩

/-- The numbers are listed in ascending order. -/
theorem toList_sorted (s : BitSet) : s.toList.Pairwise (· < ·) := by
  unfold toList
  rw [List.pairwise_flatMap]
  constructor
  · rintro ⟨w, i⟩ -
    refine List.Pairwise.map _ (fun a b hab => ?_) (bitsOf_sorted w)
    omega
  · have hidx : s.words.zipIdx.Pairwise fun a b => a.2 < b.2 := by
      rw [← List.pairwise_map (f := Prod.snd), List.zipIdx_map_snd]
      exact List.pairwise_lt_range'
    refine hidx.imp ?_
    rintro ⟨w, i⟩ ⟨v, j⟩ hij a ha b hb
    obtain ⟨x, hx, rfl⟩ := List.mem_map.mp ha
    obtain ⟨y, hy, rfl⟩ := List.mem_map.mp hb
    have hx64 := (mem_bitsOf.mp hx).1
    dsimp only at hij
    omega

/-- No member is listed twice. -/
theorem toList_nodup (s : BitSet) : s.toList.Nodup :=
  (toList_sorted s).imp fun h => Nat.ne_of_lt h

/-- The size is the number of elements. -/
theorem size_eq_length_toList (s : BitSet) : s.size = s.toList.length := by
  unfold size toList
  rw [List.length_flatMap]
  refine congrArg List.sum ?_
  have hfst : s.words = s.words.zipIdx.map Prod.fst := by simp
  conv_lhs => rw [hfst, List.map_map]
  refine List.map_congr_left fun p _ => ?_
  simp

end MirBackend.BitSet
