/-
The field of order 2^31 - 1.

An element `represents` an integer when it is canonical and congruent to it.
Sums, differences, products and negatives of canonical elements represent the
same of their words, and so do powers: square and multiply keeps the product
of what is gathered and of the base to the exponent that is left, read in the
residues. Inverses are powers by Fermat's theorem, hence the primality.

That no 64-bit step wraps on the way is said with a twin of each operation. It
forms the same sums, differences and products in the same order, but has no
answer where one of them does not fit; on canonical elements it always has
one, that of the operation itself.
-/
import Mathlib
import MirBackend.Proofs.Field

namespace MirBackend.Felt

variable {a b : Felt} {n m : Int}

-- ================================================================ residues

/-- The residue of an element. -/
def residue (a : Felt) : ZMod 2147483647 := (a.word.toNat : ZMod 2147483647)

/-- Canonical elements of the same residue are the same. -/
theorem eq_of_residue (ha : a.Canonical) (hb : b.Canonical)
    (h : a.residue = b.residue) : a = b := by
  refine eq_of_toNat ?_
  have hmod := (ZMod.natCast_eq_natCast_iff' _ _ _).mp h
  rwa [Nat.mod_eq_of_lt ha, Nat.mod_eq_of_lt hb] at hmod

-- The operations are those of the integers modulo the prime.
@[simp] theorem residue_zero : residue ⟨0⟩ = 0 := by
  show ((0 : Nat) : ZMod 2147483647) = 0
  exact Nat.cast_zero

@[simp] theorem residue_one : residue ⟨1⟩ = 1 := by
  show ((1 : Nat) : ZMod 2147483647) = 1
  exact Nat.cast_one

theorem residue_add (ha : a.Canonical) (hb : b.Canonical) :
    (a + b).residue = a.residue + b.residue := by
  rw [residue, toNat_add ha hb, ZMod.natCast_mod, Nat.cast_add]
  rfl

theorem residue_sub (ha : a.Canonical) (hb : b.Canonical) :
    (a - b).residue = a.residue - b.residue := by
  have hle : b.word.toNat ≤ 2147483647 := Nat.le_of_lt hb
  rw [residue, toNat_sub ha hb, ZMod.natCast_mod,
    Nat.cast_add, Nat.cast_sub hle,
    ZMod.natCast_self, zero_sub, ← sub_eq_add_neg]
  rfl

theorem residue_mul (ha : a.Canonical) (hb : b.Canonical) :
    (a * b).residue = a.residue * b.residue := by
  rw [residue, toNat_mul ha hb, ZMod.natCast_mod, Nat.cast_mul]
  rfl

theorem residue_neg (ha : a.Canonical) : (-a).residue = -a.residue := by
  have hle : a.word.toNat ≤ 2147483647 := Nat.le_of_lt ha
  rw [residue, toNat_neg ha, ZMod.natCast_mod, Nat.cast_sub hle,
    ZMod.natCast_self, zero_sub]
  rfl

-- ================================================================== powers

/-- Powers are reduced, turn after turn of the loop. -/
theorem canonical_powLoop (fuel : Nat) {acc base : Felt} (e : UInt64)
    (hacc : acc.Canonical) : (powLoop fuel acc base e).Canonical := by
  induction fuel generalizing acc base e with
  | zero => exact hacc
  | succ fuel ih =>
      rw [powLoop]
      split
      · exact hacc
      · refine ih _ ?_
        split
        · exact hacc
        · exact canonical_mul

/-- The lowest bit of an exponent and the others. -/
theorem toNat_halves (e : UInt64) :
    e.toNat = 2 * (e >>> 1).toNat + if e &&& 1 = 0 then 0 else 1 := by
  have hshift : (e >>> 1).toNat = e.toNat / 2 := by
    rw [UInt64.toNat_shiftRight, Nat.shiftRight_eq_div_pow]
    rfl
  have hlow : (e &&& 1).toNat = e.toNat % 2 := by
    rw [UInt64.toNat_and]
    exact Nat.and_one_is_mod _
  have hzero : e &&& 1 = 0 ↔ e.toNat % 2 = 0 := by
    rw [← hlow, ← UInt64.toNat_inj]
    rfl
  rw [hshift]
  split
  · next h =>
    rw [hzero] at h
    omega
  · next h =>
    rw [hzero] at h
    omega

/-- What is gathered, times the base to the exponent that is left, stays the
same. -/
theorem residue_powLoop (fuel : Nat) {acc base : Felt} {e : UInt64}
    (hacc : acc.Canonical) (hbase : base.Canonical)
    (henough : e.toNat < 2 ^ fuel) :
    (powLoop fuel acc base e).residue = acc.residue
      * base.residue ^ e.toNat := by
  induction fuel generalizing acc base e with
  | zero =>
      rw [powLoop, show e.toNat = 0 by omega, pow_zero, mul_one]
  | succ fuel ih =>
      rw [powLoop]
      have hhalves := toNat_halves e
      split
      · next h =>
        rw [h, UInt64.toNat_zero, pow_zero, mul_one]
      · have hhalf : (e >>> 1).toNat < 2 ^ fuel := by omega
        rw [hhalves, pow_add, pow_mul, pow_two, ← residue_mul hbase hbase]
        split
        · rw [ih hacc canonical_mul hhalf, pow_zero, mul_one]
        · rw [ih canonical_mul canonical_mul hhalf,
            residue_mul hacc hbase, pow_one]
          ring

theorem canonical_pow (a : Felt) (e : UInt64) : (a.pow e).Canonical :=
  canonical_powLoop 64 e canonical_one

/-- Squaring and multiplying gives the power. -/
theorem residue_pow (ha : a.Canonical) (e : UInt64) :
    (a.pow e).residue = a.residue ^ e.toNat := by
  rw [pow, residue_powLoop 64 canonical_one ha e.toNat_lt, residue_one, one_mul]

-- ================================================================ inverses

/-- A reduced element that is not zero has a residue that is not. -/
theorem residue_ne_zero (ha : a.Canonical) (h : a ≠ ⟨0⟩) :
    a.residue ≠ 0 := fun h0 =>
  h (eq_of_residue ha canonical_zero (h0.trans residue_zero.symm))

theorem canonical_inv (a : Felt) : a.inv.Canonical := canonical_pow a _

/-- The inverse is a power, by the little theorem of Fermat. -/
theorem residue_inv (ha : a.Canonical) :
    a.inv.residue = a.residue ^ 2147483645 := by
  have hexp : (fieldOrder - 2).toNat = 2147483645 := rfl
  rw [inv, residue_pow ha, hexp]

/-- What is not zero meets its inverse, by Fermat's theorem. -/
theorem mul_inv (ha : a.Canonical) (h : a ≠ ⟨0⟩) : a * a.inv = ⟨1⟩ := by
  have : Fact (Nat.Prime 2147483647) := ⟨prime_fieldOrder⟩
  refine eq_of_residue canonical_mul canonical_one ?_
  rw [residue_mul ha (canonical_inv a), residue_inv ha,
    ← pow_succ', residue_one]
  exact ZMod.pow_card_sub_one_eq_one (residue_ne_zero ha h)

/-- Zero has itself for an inverse. -/
theorem inv_zero : inv ⟨0⟩ = ⟨0⟩ := by
  refine eq_of_residue (canonical_inv _) canonical_zero ?_
  rw [residue_inv canonical_zero, residue_zero, zero_pow (by decide)]

/-- Every other element has a true one. -/
theorem inv_mul (ha : a.Canonical) (h : a ≠ ⟨0⟩) : a.inv * a = ⟨1⟩ := by
  rw [mul_comm (canonical_inv a) ha, mul_inv ha h]

/-- Division undoes multiplication. -/
theorem div_mul (ha : a.Canonical) (hb : b.Canonical) (h : b ≠ ⟨0⟩) :
    a / b * b = a := by
  have hinv := canonical_inv b
  refine eq_of_residue canonical_mul ha ?_
  show (a * b.inv * b).residue = a.residue
  rw [residue_mul canonical_mul hb, residue_mul ha hinv, mul_assoc,
    ← residue_mul hinv hb, inv_mul hb h, residue_one, mul_one]

-- ================================================= representing an integer

/-- The element is the canonical one among those congruent to the integer. -/
structure Represents (a : Felt) (n : Int) : Prop where
  canonical : a.Canonical
  congruent : (a.word.toNat : Int) ≡ n [ZMOD 2147483647]

/-- An element represents an integer if their residues are the same. -/
theorem represents_of_residue (ha : a.Canonical)
    (h : a.residue = (n : ZMod 2147483647)) : a.Represents n := by
  refine ⟨ha, (ZMod.intCast_eq_intCast_iff _ _ 2147483647).mp ?_⟩
  rw [← h, residue, Int.cast_natCast]

/-- A signed word is represented by its element, be it negative or not. -/
theorem represents_ofInt64 (x : Int64) : (ofInt64 x).Represents x.toInt := by
  refine ⟨canonical_ofInt64 x, ?_⟩
  rw [toNat_ofInt64]
  exact Int.mod_modEq _ _

theorem represents_self (ha : a.Canonical) : a.Represents a.word.toNat :=
  ⟨ha, Int.ModEq.refl _⟩

theorem Represents.residue (h : a.Represents n) :
    a.residue = (n : ZMod 2147483647) := by
  rw [Felt.residue,
    ← (ZMod.intCast_eq_intCast_iff _ _ 2147483647).mpr h.congruent,
    Int.cast_natCast]

/-- An integer is represented by one element only. -/
theorem Represents.unique (ha : a.Represents n) (hb : b.Represents n) : a = b :=
  eq_of_residue ha.canonical hb.canonical (ha.residue.trans hb.residue.symm)

-- Sums, differences, products and powers of what is represented.
theorem Represents.add (ha : a.Represents n) (hb : b.Represents m) :
    (a + b).Represents (n + m) := by
  refine represents_of_residue canonical_add ?_
  rw [residue_add ha.canonical hb.canonical, ha.residue,
    hb.residue, Int.cast_add]

theorem Represents.sub (ha : a.Represents n) (hb : b.Represents m) :
    (a - b).Represents (n - m) := by
  refine represents_of_residue canonical_sub ?_
  rw [residue_sub ha.canonical hb.canonical, ha.residue,
    hb.residue, Int.cast_sub]

theorem Represents.mul (ha : a.Represents n) (hb : b.Represents m) :
    (a * b).Represents (n * m) := by
  refine represents_of_residue canonical_mul ?_
  rw [residue_mul ha.canonical hb.canonical, ha.residue,
    hb.residue, Int.cast_mul]

theorem Represents.neg (ha : a.Represents n) : (-a).Represents (-n) := by
  refine represents_of_residue canonical_neg ?_
  rw [residue_neg ha.canonical, ha.residue, Int.cast_neg]

theorem Represents.pow (ha : a.Represents n) (e : UInt64) :
    (a.pow e).Represents (n ^ e.toNat) := by
  refine represents_of_residue (canonical_pow a e) ?_
  rw [residue_pow ha.canonical, ha.residue, Int.cast_pow]

-- ================================================= arithmetic without wrapping

/-- The sum of two words, if it is one. -/
def sum? (x y : UInt64) : Option UInt64 :=
  if x.toNat + y.toNat < 2 ^ 64 then some (x + y) else none

/-- The difference of two words, if it is one. -/
def difference? (x y : UInt64) : Option UInt64 :=
  if y.toNat ≤ x.toNat then some (x - y) else none

/-- The product of two words, if it is one. -/
def product? (x y : UInt64) : Option UInt64 :=
  if x.toNat * y.toNat < 2 ^ 64 then some (x * y) else none

/-- The sum of elements, unless a step wraps. -/
def add? (a b : Felt) : Option Felt := do
  let s ← sum? a.word.toUInt64 b.word.toUInt64
  return reduce s

/-- The difference of elements, unless a step wraps. -/
def sub? (a b : Felt) : Option Felt := do
  let s ← sum? a.word.toUInt64 fieldOrder
  let d ← difference? s b.word.toUInt64
  return reduce d

/-- The product of elements, unless a step wraps. -/
def mul? (a b : Felt) : Option Felt := do
  let p ← product? a.word.toUInt64 b.word.toUInt64
  return reduce p

/-- The negative of an element, unless a step wraps. -/
def neg? (a : Felt) : Option Felt := do
  let d ← difference? fieldOrder a.word.toUInt64
  return reduce d

/-- Square and multiply, unless a step wraps. -/
def powLoop? : Nat → Felt → Felt → UInt64 → Option Felt
  | 0, acc, _, _ => some acc
  | n + 1, acc, base, e =>
      if e = 0 then some acc
      else do
        let acc ← if e &&& 1 = 0 then some acc else mul? acc base
        let base ← mul? base base
        powLoop? n acc base (e >>> 1)

/-- The power of an element, unless a step wraps. -/
def pow? (a : Felt) (e : UInt64) : Option Felt := powLoop? 64 ⟨1⟩ a e

/-- The inverse of an element, unless a step wraps. -/
def inv? (a : Felt) : Option Felt := do
  let e ← difference? fieldOrder 2
  a.pow? e

/-- The quotient of elements, unless a step wraps. -/
def div? (a b : Felt) : Option Felt := do
  let i ← b.inv?
  a.mul? i

-- The steps with 64 bits, answered only where they do not wrap.
theorem sum?_eq {x y : UInt64} (h : x.toNat + y.toNat < 2 ^ 64) :
    sum? x y = some (x + y) :=
  if_pos h

theorem difference?_eq {x y : UInt64} (h : y.toNat ≤ x.toNat) :
    difference? x y = some (x - y) :=
  if_pos h

theorem product?_eq {x y : UInt64} (h : x.toNat * y.toNat < 2 ^ 64) :
    product? x y = some (x * y) :=
  if_pos h

/-- A reduced element is far below the word size. -/
theorem toNat_word_lt (ha : a.Canonical) :
    a.word.toUInt64.toNat < 2147483647 := by
  rw [UInt32.toNat_toUInt64]
  exact ha

theorem toNat_fieldOrder : fieldOrder.toNat = 2147483647 := rfl

-- No step of any operation wraps, if the operands are reduced.
theorem add?_eq (ha : a.Canonical) (hb : b.Canonical) :
    a.add? b = some (a + b) := by
  have hx := toNat_word_lt ha
  have hy := toNat_word_lt hb
  rw [add?, sum?_eq (by omega)]
  rfl

theorem sub?_eq (ha : a.Canonical) (hb : b.Canonical) :
    a.sub? b = some (a - b) := by
  have hx := toNat_word_lt ha
  have hy := toNat_word_lt hb
  have hsum : (a.word.toUInt64 + fieldOrder).toNat
      = a.word.toUInt64.toNat + 2147483647 := by
    rw [UInt64.toNat_add, toNat_fieldOrder]
    omega
  rw [sub?, sum?_eq (by rw [toNat_fieldOrder]; omega),
    Option.bind_eq_bind, Option.bind_some, difference?_eq (by rw [hsum]; omega)]
  rfl

theorem mul?_eq (ha : a.Canonical) (hb : b.Canonical) :
    a.mul? b = some (a * b) := by
  have hfits : a.word.toUInt64.toNat * b.word.toUInt64.toNat < 2 ^ 64 :=
    calc a.word.toUInt64.toNat * b.word.toUInt64.toNat
        ≤ 2147483647 * 2147483647 :=
          Nat.mul_le_mul (toNat_word_lt ha).le (toNat_word_lt hb).le
      _ < 2 ^ 64 := by norm_num
  rw [mul?, product?_eq hfits]
  rfl

theorem neg?_eq (ha : a.Canonical) : a.neg? = some (-a) := by
  have hx := toNat_word_lt ha
  rw [neg?, difference?_eq (by rw [toNat_fieldOrder]; omega)]
  rfl

/-- All that is multiplied on the way is canonical, so no product wraps. -/
theorem powLoop?_eq (fuel : Nat) {acc base : Felt} (e : UInt64)
    (hacc : acc.Canonical) (hbase : base.Canonical) :
    powLoop? fuel acc base e = some (powLoop fuel acc base e) := by
  induction fuel generalizing acc base e with
  | zero => rfl
  | succ fuel ih =>
      rw [powLoop?, powLoop]
      split
      · rfl
      · rw [mul?_eq hbase hbase]
        split
        · exact ih _ hacc canonical_mul
        · rw [mul?_eq hacc hbase]
          exact ih _ canonical_mul canonical_mul

theorem pow?_eq (ha : a.Canonical) (e : UInt64) : a.pow? e = some (a.pow e) :=
  powLoop?_eq 64 e canonical_one ha

theorem inv?_eq (ha : a.Canonical) : a.inv? = some a.inv := by
  rw [inv?, difference?_eq (by decide), Option.bind_eq_bind,
    Option.bind_some, pow?_eq ha]
  rfl

theorem div?_eq (ha : a.Canonical) (hb : b.Canonical) :
    a.div? b = some (a / b) := by
  rw [div?, inv?_eq hb, Option.bind_eq_bind, Option.bind_some,
    mul?_eq ha (canonical_inv b)]
  rfl

-- =============================================================== the field

/-- The operations are those of the field of order 2^31 - 1 on the canonical
elements that represent its members, and no 64-bit step of theirs wraps. -/
theorem arithmetic_exact :
    (∀ x : Int64, (ofInt64 x).Represents x.toInt)
    ∧ (∀ a b : Felt, a.Canonical → b.Canonical →
        ((a + b).Represents ((a.word.toNat : Int) + b.word.toNat)
          ∧ a.add? b = some (a + b))
        ∧ ((a - b).Represents ((a.word.toNat : Int) - b.word.toNat)
          ∧ a.sub? b = some (a - b))
        ∧ ((a * b).Represents ((a.word.toNat : Int) * b.word.toNat)
          ∧ a.mul? b = some (a * b))
        ∧ ((-a).Represents (-(a.word.toNat : Int)) ∧ a.neg? = some (-a))
        ∧ (∀ e : UInt64, (a.pow e).Represents ((a.word.toNat : Int) ^ e.toNat)
            ∧ a.pow? e = some (a.pow e))
        ∧ (a ≠ ⟨0⟩ → a * a.inv = ⟨1⟩)
        ∧ (b ≠ ⟨0⟩ → a / b * b = a)
        ∧ a.inv? = some a.inv ∧ a.div? b = some (a / b))
    ∧ inv ⟨0⟩ = ⟨0⟩ := by
  refine ⟨represents_ofInt64, fun a b ha hb => ?_, inv_zero⟩
  have hself := represents_self ha
  have hself' := represents_self hb
  exact ⟨⟨hself.add hself', add?_eq ha hb⟩, ⟨hself.sub hself', sub?_eq ha hb⟩,
    ⟨hself.mul hself', mul?_eq ha hb⟩, ⟨hself.neg, neg?_eq ha⟩,
    fun e => ⟨hself.pow e, pow?_eq ha e⟩, mul_inv ha, div_mul ha hb,
    inv?_eq ha, div?_eq ha hb⟩

/-- The largest element as the divisor, the second operand and the base. -/
theorem arithmetic_exact_largest :
    (Canonical ⟨2147483646⟩ ∧ Canonical ⟨5⟩ ∧ (⟨2147483646⟩ : Felt) ≠ ⟨0⟩)
    ∧ (⟨5⟩ - ⟨2147483646⟩ : Felt).Represents (5 - 2147483646)
    ∧ (pow ⟨2147483646⟩ 3).Represents (2147483646 ^ 3)
    ∧ (⟨2147483646⟩ * inv ⟨2147483646⟩ : Felt) = ⟨1⟩
    ∧ (⟨5⟩ / ⟨2147483646⟩ * ⟨2147483646⟩ : Felt) = ⟨5⟩ := by
  have hfive : Canonical ⟨5⟩ := by decide
  have hlargest : Canonical ⟨2147483646⟩ := by decide
  have hne : (⟨2147483646⟩ : Felt) ≠ ⟨0⟩ := by decide
  obtain ⟨-, ⟨hsub, -⟩, -, -, -, -, hdiv, -⟩ :=
    arithmetic_exact.2.1 ⟨5⟩ ⟨2147483646⟩ hfive hlargest
  obtain ⟨-, -, -, -, hpow, hinv, -⟩ :=
    arithmetic_exact.2.1 ⟨2147483646⟩ ⟨5⟩ hlargest hfive
  exact ⟨⟨hlargest, hfive, hne⟩, hsub, (hpow 3).1, hinv hne, hdiv hne⟩

end MirBackend.Felt
