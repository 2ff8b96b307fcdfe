/-
Canonical field elements.

A canonical element is a word below the order of the field. On canonical
elements the operations are those of the integers modulo a prime: a difference
is zero only of equal elements and a product only with a factor of zero. Every
operation answers with a canonical element, and canonical elements survive the
way through 64-bit and 32-bit integers.
-/
import Mathlib
import MirBackend.Field

namespace MirBackend.Felt

/-- The order of the field is prime. -/
theorem prime_fieldOrder : Nat.Prime 2147483647 := by
  have h : Nat.Prime (mersenne 31) :=
    lucas_lehmer_sufficiency 31 (by norm_num) (by norm_num)
  rwa [show mersenne 31 = 2147483647 by norm_num [mersenne]] at h

/-- The word is below the order of the field. -/
def Canonical (a : Felt) : Prop := a.word.toNat < 2147483647

-- Whether an element is reduced is one comparison.
instance (a : Felt) : Decidable a.Canonical :=
  inferInstanceAs (Decidable (_ < _))

variable {a b : Felt}

/-- Elements are the same if their numbers are. -/
theorem eq_of_toNat (h : a.word.toNat = b.word.toNat) : a = b := by
  cases a
  cases b
  simp only [mk.injEq]
  exact UInt32.toNat_inj.mp h

/-- Zero is the number zero. -/
theorem isZero_iff : a.isZero = true ↔ a.word.toNat = 0 := by
  unfold isZero
  rw [beq_iff_eq, ← UInt32.toNat_inj]
  rfl

-- ================================================================ reducing

/-- Reducing takes the remainder by the prime. -/
theorem toNat_reduce (x : UInt64) :
    (reduce x).word.toNat = x.toNat % 2147483647 := by
  have hlt : x.toNat % 2147483647 < 2147483647 := Nat.mod_lt _ (by norm_num)
  show (x % fieldOrder).toUInt32.toNat = _
  rw [UInt64.toNat_toUInt32, UInt64.toNat_mod]
  show x.toNat % 2147483647 % 2 ^ 32 = _
  omega

-- Every operation ends in a reduction, so its result is reduced.
theorem canonical_reduce (x : UInt64) : (reduce x).Canonical := by
  show (reduce x).word.toNat < 2147483647
  rw [toNat_reduce]
  exact Nat.mod_lt _ (by norm_num)

theorem canonical_add : (a + b).Canonical := canonical_reduce _

theorem canonical_sub : (a - b).Canonical := canonical_reduce _

theorem canonical_mul : (a * b).Canonical := canonical_reduce _

theorem canonical_neg : (-a).Canonical := canonical_reduce _

theorem canonical_div : (a / b).Canonical := canonical_reduce _

/-- A signed integer that is not negative is its word. -/
theorem toNat_toUInt64 {x : Int64} (h : 0 ≤ x.toInt) :
    (x.toUInt64.toNat : Int) = x.toInt := by
  have hx : x.toInt = x.toBitVec.toInt := rfl
  show ((x.toBitVec.toNat : Nat) : Int) = _
  rw [hx] at h ⊢
  rw [BitVec.toInt_eq_toNat_cond] at h ⊢
  split
  · rfl
  · next hge =>
    rw [if_neg hge] at h
    have := x.toBitVec.isLt
    omega

/-- The element of a signed integer is its remainder. -/
theorem toNat_ofInt64 (x : Int64) : ((ofInt64 x).word.toNat : Int)
    = x.toInt % 2147483647 := by
  obtain ⟨r, hr⟩ : ∃ r, r = x % 2147483647 := ⟨_, rfl⟩
  obtain ⟨y, hy⟩ : ∃ y, y = if r < 0 then r + 2147483647 else r := ⟨_, rfl⟩
  have hword : (ofInt64 x).word = y.toUInt64.toUInt32 := by rw [hy, hr]; rfl
  have hmod : r.toInt = x.toInt.tmod 2147483647 := by
    rw [hr, Int64.toInt_mod]
    rfl
  have hlow : -2147483647 < r.toInt := hmod ▸ Int.lt_tmod_of_pos _ (by norm_num)
  have hhigh : r.toInt < 2147483647 := hmod ▸ Int.tmod_lt_of_pos _ (by norm_num)
  have hdiv : 2147483647 * x.toInt.tdiv 2147483647 + r.toInt = x.toInt :=
    hmod ▸ Int.mul_tdiv_add_tmod x.toInt 2147483647
  have hyr : y.toInt = if r.toInt < 0 then r.toInt
      + 2147483647 else r.toInt := by
    rw [hy]
    by_cases hneg : r < 0
    · have hneg' : r.toInt < 0 := Int64.lt_iff_toInt_lt.mp hneg
      rw [if_pos hneg, if_pos hneg', Int64.toInt_add]
      show (r.toInt + 2147483647).bmod (2 ^ 64) = _
      rw [Int.bmod_eq_of_le] <;> omega
    · have hneg' : ¬ r.toInt < 0 := fun h => hneg (Int64.lt_iff_toInt_lt.mpr h)
      rw [if_neg hneg, if_neg hneg']
  have hrange : 0 ≤ y.toInt ∧ y.toInt < 2147483647 := by
    rw [hyr]
    split <;> omega
  have hnat := toNat_toUInt64 hrange.1
  rw [hword, UInt64.toNat_toUInt32]
  have hsmall : y.toUInt64.toNat % 2 ^ 32 = y.toUInt64.toNat :=
    Nat.mod_eq_of_lt (by omega)
  rw [hsmall, hnat, ← hdiv, Int.add_comm, Int.add_mul_emod_self_left, hyr]
  split
  · rw [← Int.add_emod_right]
    exact (Int.emod_eq_of_lt (by omega) (by omega)).symm
  · exact (Int.emod_eq_of_lt (by omega) (by omega)).symm

theorem canonical_ofInt64 (x : Int64) : (ofInt64 x).Canonical := by
  have := toNat_ofInt64 x
  have hlt : x.toInt % 2147483647 < 2147483647 :=
    Int.emod_lt_of_pos _ (by norm_num)
  show (ofInt64 x).word.toNat < 2147483647
  omega

theorem canonical_one : Canonical ⟨1⟩ := by decide

theorem canonical_zero : Canonical ⟨0⟩ := by decide

-- ============================================================ other widths

/-- An element as a signed word is its number. -/
theorem toInt_toInt64 (a : Felt) : a.toInt64.toInt = a.word.toNat := by
  have hlt := a.word.toNat_lt
  have hword : a.toInt64.toUInt64.toNat = a.word.toNat := by
    show a.word.toUInt64.toNat = _
    exact UInt32.toNat_toUInt64 _
  have hpos : 0 ≤ a.toInt64.toInt := by
    show 0 ≤ a.word.toUInt64.toBitVec.toInt
    rw [BitVec.toInt_eq_toNat_of_lt]
    · exact Int.natCast_nonneg _
    · show 2 * a.word.toUInt64.toNat < _
      rw [UInt32.toNat_toUInt64]
      omega
  rw [← toNat_toUInt64 hpos, hword]

/-- A canonical element is found again from its 64-bit integer. -/
theorem ofInt64_toInt64 (h : a.Canonical) : ofInt64 a.toInt64 = a := by
  have h : a.word.toNat < 2147483647 := h
  refine eq_of_toNat ?_
  have := toNat_ofInt64 a.toInt64
  rw [toInt_toInt64, Int.emod_eq_of_lt (by omega) (by omega)] at this
  omega

-- Zero is zero in each of the representations.
theorem toInt64_eq_zero_iff : a.toInt64 = 0 ↔ a.isZero = true := by
  rw [isZero_iff, ← Int64.toInt_inj, toInt_toInt64]
  simp

/-- An element is found again from its 32-bit integer. -/
@[simp] theorem ofWord_toInt32 (a : Felt) : ofWord a.toInt32 = a := rfl

@[simp] theorem toInt32_ofWord (x : Int32) : (ofWord x).toInt32 = x := rfl

theorem toInt32_eq_zero_iff : a.toInt32 = 0 ↔ a.isZero = true := by
  constructor
  · intro h
    rw [← ofWord_toInt32 a, h]
    rfl
  · intro h
    rw [isZero_iff] at h
    rw [show a = ⟨0⟩ from eq_of_toNat h]
    rfl

-- ============================================================== arithmetic

-- The four operations on reduced elements, as remainders.
theorem toNat_add (ha : a.Canonical) (hb : b.Canonical) :
    (a + b).word.toNat = (a.word.toNat + b.word.toNat) % 2147483647 := by
  have ha : a.word.toNat < 2147483647 := ha
  have hb : b.word.toNat < 2147483647 := hb
  show (reduce (a.word.toUInt64 + b.word.toUInt64)).word.toNat = _
  rw [toNat_reduce, UInt64.toNat_add, UInt32.toNat_toUInt64,
    UInt32.toNat_toUInt64, Nat.mod_eq_of_lt (b := 2 ^ 64) (by omega)]

theorem toNat_sub (ha : a.Canonical) (hb : b.Canonical) :
    (a - b).word.toNat = (a.word.toNat + (2147483647 - b.word.toNat))
      % 2147483647 := by
  have ha : a.word.toNat < 2147483647 := ha
  have hb : b.word.toNat < 2147483647 := hb
  show (reduce (a.word.toUInt64 + fieldOrder - b.word.toUInt64)).word.toNat = _
  have hsum : (a.word.toUInt64 + fieldOrder).toNat
      = a.word.toNat + 2147483647 := by
    rw [UInt64.toNat_add, UInt32.toNat_toUInt64]
    show (a.word.toNat + 2147483647) % 2 ^ 64 = _
    omega
  rw [toNat_reduce, UInt64.toNat_sub_of_le, hsum, UInt32.toNat_toUInt64,
    Nat.add_sub_assoc (Nat.le_of_lt hb)]
  rw [UInt64.le_iff_toNat_le, hsum, UInt32.toNat_toUInt64]
  omega

theorem toNat_mul (ha : a.Canonical) (hb : b.Canonical) :
    (a * b).word.toNat = a.word.toNat * b.word.toNat % 2147483647 := by
  have ha : a.word.toNat < 2147483647 := ha
  have hb : b.word.toNat < 2147483647 := hb
  have hprod : a.word.toNat * b.word.toNat < 2 ^ 64 :=
    calc a.word.toNat * b.word.toNat ≤ 2147483647 * 2147483647 := by
          exact Nat.mul_le_mul ha.le hb.le
      _ < 2 ^ 64 := by norm_num
  show (reduce (a.word.toUInt64 * b.word.toUInt64)).word.toNat = _
  rw [toNat_reduce, UInt64.toNat_mul, UInt32.toNat_toUInt64,
    UInt32.toNat_toUInt64, Nat.mod_eq_of_lt hprod]

theorem toNat_neg (ha : a.Canonical) :
    (-a).word.toNat = (2147483647 - a.word.toNat) % 2147483647 := by
  have ha : a.word.toNat < 2147483647 := ha
  show (reduce (fieldOrder - a.word.toUInt64)).word.toNat = _
  have horder : fieldOrder.toNat = 2147483647 := rfl
  rw [toNat_reduce, UInt64.toNat_sub_of_le, UInt32.toNat_toUInt64, horder]
  rw [UInt64.le_iff_toNat_le, UInt32.toNat_toUInt64, horder]
  omega

/-- A difference is zero only of equal elements. -/
theorem isZero_sub (ha : a.Canonical) (hb : b.Canonical) :
    (a - b).isZero = true ↔ a = b := by
  rw [isZero_iff, toNat_sub ha hb]
  have ha : a.word.toNat < 2147483647 := ha
  have hb : b.word.toNat < 2147483647 := hb
  constructor
  · intro h
    refine eq_of_toNat ?_
    omega
  · intro h
    subst h
    rw [show a.word.toNat + (2147483647 - a.word.toNat) = 2147483647 by omega]

/-- A product is zero only with a factor of zero. -/
theorem isZero_mul (ha : a.Canonical) (hb : b.Canonical) :
    (a * b).isZero = true ↔ a.isZero = true ∨ b.isZero = true := by
  rw [isZero_iff, isZero_iff, isZero_iff, toNat_mul ha hb,
    ← Nat.dvd_iff_mod_eq_zero, prime_fieldOrder.dvd_mul]
  have hzero {n : Nat} (hn : n < 2147483647) : 2147483647 ∣ n ↔ n = 0 := by
    constructor
    · exact fun h => Nat.eq_zero_of_dvd_of_lt h hn
    · intro h
      rw [h]
      exact Nat.dvd_zero _
  rw [hzero ha, hzero hb]

/-- To multiply by the largest element is to negate. -/
theorem mul_ofInt64_neg_one (ha : a.Canonical) : a * ofInt64 (-1) = -a := by
  refine eq_of_toNat ?_
  rw [toNat_mul ha (canonical_ofInt64 _), toNat_neg ha]
  have ha : a.word.toNat < 2147483647 := ha
  show a.word.toNat * 2147483646 % 2147483647 = _
  obtain ⟨n, hn⟩ : ∃ n, n = a.word.toNat := ⟨_, rfl⟩
  rw [← hn] at ha ⊢
  by_cases h0 : n = 0
  · rw [h0]
  · have hsplit : n * 2147483646 = (2147483647 - n) + 2147483647 * (n - 1) := by
      omega
    rw [hsplit, Nat.add_mul_mod_self_left]

/-- A sum below the order is the sum of the integers. -/
theorem toInt64_add_of_lt (ha : a.Canonical) (hb : b.Canonical)
    (h : a.toInt64.toInt + b.toInt64.toInt < 2147483647) :
    (a + b).toInt64 = a.toInt64 + b.toInt64 := by
  rw [toInt_toInt64, toInt_toInt64] at h
  rw [← Int64.toInt_inj, Int64.toInt_add, toInt_toInt64,
    toInt_toInt64, toInt_toInt64,
    toNat_add ha hb, Nat.mod_eq_of_lt (by omega),
      Int.bmod_eq_of_le (by omega) (by omega),
    Nat.cast_add]

/-- An integer below the order is its own element. -/
theorem toInt64_ofInt64_of_lt {x : Int64} (h : 0 ≤ x.toInt)
    (hlt : x.toInt < 2147483647) : (ofInt64 x).toInt64 = x := by
  rw [← Int64.toInt_inj, toInt_toInt64, toNat_ofInt64, Int.emod_eq_of_lt h hlt]

-- Sums and products do not depend on the order.
theorem add_comm (ha : a.Canonical) (hb : b.Canonical) : a + b = b + a := by
  refine eq_of_toNat ?_
  rw [toNat_add ha hb, toNat_add hb ha, Nat.add_comm]

theorem mul_comm (ha : a.Canonical) (hb : b.Canonical) : a * b = b * a := by
  refine eq_of_toNat ?_
  rw [toNat_mul ha hb, toNat_mul hb ha, Nat.mul_comm]

end MirBackend.Felt
