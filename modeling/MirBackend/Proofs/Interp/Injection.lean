/-
Memories in which some words of one stand for words of another.

An injection says which words of the old memory have a counterpart in the new
one. Words that nobody will read need none, so the old memory may be larger.
Related memories have the same contents in counterparts (`Relates`), and that is
kept when both hand out memory, when only the old one does, when both store the
same value at counterparts, and when the old one stores to words without
counterpart. Injections only grow: what an address stood for it stands for ever
after.
-/
import Mathlib
import MirBackend.Proofs.Interp.Memory

namespace MirBackend

-- ================================================================= storage

namespace Storage

/-- Each number is at most its grade. -/
theorem le_graded (n : Nat) : n ≤ graded n := by
  unfold graded
  cases h : grades.find? (n ≤ ·) with
  | none =>
      rw [Option.getD_none]
      omega
  | some k =>
      rw [Option.getD_some]
      exact of_decide_eq_true (List.find?_some h :)

/-- Storage that has grown is large enough. -/
theorem le_regrown (room n : Nat) : n ≤ regrown room n := by
  unfold regrown
  split
  · assumption
  · split
    · exact le_graded n
    · split
      · exact le_trans (by omega) (le_graded _)
      · refine le_trans ?_ (le_graded _)
        unfold widen
        split_ifs <;> omega

end Storage

namespace Interp

-- =============================================================== injections

namespace Memory

/-- A memory within its bounds, with nothing behind its end. -/
structure Sound (m : Memory) : Prop extends Bounded m where
  fresh : ∀ a, m.size ≤ a → m.get a = 0

/-- A memory that is written inside its size stays sound. -/
theorem Written.sound {m m₁ : Memory} {a n : Nat}
    (h : Written m a n m₁) (hm : m.Sound)
    (hin : a + n ≤ m.size) : m₁.Sound := by
  refine ⟨h.bounded hm.toBounded, fun b hb => ?_⟩
  rw [h.size] at hb
  rw [h.outside b (by omega), hm.fresh b hb]

/-- When memory is handed out, and what is left of it. -/
theorem alloc_eq_ok {m m₁ : Memory} {n x : Int64} :
    m.alloc n = .ok (x, m₁) ↔ (0 ≤ n ∧ m.size + n.toInt.toNat ≤ maxWords)
        ∧ x = Int64.ofNat m.size
      ∧ m₁ = { m with size := m.size + n.toInt.toNat,
                      room := Storage.regrown m.room
                        (m.size + n.toInt.toNat) } := by
  have hcond : (n < 0 ∨ m.size + n.toInt.toNat > maxWords)
      ↔ ¬ (0 ≤ n ∧ m.size + n.toInt.toNat ≤ maxWords) := by
    rw [Int64.lt_iff_toInt_lt, Int64.le_iff_toInt_le]
    omega
  unfold alloc
  simp only [hcond]
  split <;> rename_i h
  · exact iff_of_false (fun h' => by cases h') fun h' => h h'.1
  · rw [not_not] at h
    simp only [h, true_and, and_self, Except.ok.injEq, Prod.mk.injEq]
    exact and_congr eq_comm eq_comm

/-- What is left after memory was handed out is sound. -/
theorem Sound.alloc {m m₁ : Memory} (hm : m.Sound) {n x : Int64}
    (h : m.alloc n = .ok (x, m₁)) :
    m₁.Sound ∧ m₁.size = m.size + n.toInt.toNat ∧ ∀ a, m₁.get a = m.get a := by
  obtain ⟨⟨-, hlimit⟩, -, rfl⟩ := alloc_eq_ok.mp h
  refine ⟨⟨⟨hlimit, Storage.le_regrown _ _⟩, fun a ha => hm.fresh a ?_⟩,
    rfl, fun _ => rfl⟩
  exact le_trans (Nat.le_add_right _ _) ha

end Memory

/-- Which words of the old memory have a counterpart in the new one, and how
large both are. -/
structure Injection where
  old : Nat
  new : Nat
  word? : Nat → Option Nat

namespace Injection

/-- Injections grow by words that were not there before. -/
instance : Preorder Injection where
  le ω ω' := ω.old ≤ ω'.old ∧ ω.new ≤ ω'.new
    ∧ ∀ a < ω.old, ω'.word? a = ω.word? a
  le_refl ω := ⟨le_refl _, le_refl _, fun _ _ => rfl⟩
  le_trans ω₁ ω₂ ω₃ h₁ h₂ := by
    refine ⟨h₁.1.trans h₂.1, h₁.2.1.trans h₂.2.1, fun a ha => ?_⟩
    rw [h₂.2.2 a (lt_of_lt_of_le ha h₁.1), h₁.2.2 a ha]

variable {ω ω' : Injection} {a a' n : Nat}

/-- The `n` words from `a` on have the words from `a'` on as counterparts. -/
structure Carries (ω : Injection) (a n a' : Nat) : Prop where
  pos : 0 < a'
  old : a + n ≤ ω.old
  new : a' + n ≤ ω.new
  words : ∀ i < n, ω.word? (a + i) = some (a' + i)

/-- The `n` words from `a` on have no counterpart. -/
structure Hides (ω : Injection) (a n : Nat) : Prop where
  old : a + n ≤ ω.old
  words : ∀ i < n, ω.word? (a + i) = none

/-- A range is carried to where it was when the injection grows. -/
theorem Carries.mono (h : ω.Carries a n a') (hω : ω ≤ ω') :
    ω'.Carries a n a' where
  pos := h.pos
  old := h.old.trans hω.1
  new := h.new.trans hω.2.1
  words i hi := (hω.2.2 _ (by have := h.old; omega)).trans (h.words i hi)

/-- And a hidden range is still hidden. -/
theorem Hides.mono (h : ω.Hides a n) (hω : ω ≤ ω') : ω'.Hides a n where
  old := h.old.trans hω.1
  words i hi := (hω.2.2 _ (by have := h.old; omega)).trans (h.words i hi)

/-- Memories with the same contents in counterparts. -/
structure Relates (ω : Injection) (m m' : Memory) : Prop where
  sound : m.Sound
  sound' : m'.Sound
  old : m.size = ω.old
  new : m'.size = ω.new
  pos : 0 < ω.new
  le : ω.new ≤ ω.old
  word : ∀ a b, ω.word? a = some b → a < ω.old ∧ b < ω.new ∧ m'.get b = m.get a
  inj : ∀ a₁ a₂ b, ω.word? a₁ = some b → ω.word? a₂ = some b → a₁ = a₂

variable {m m' m₁ : Memory}

/-- Neither memory is larger than an interpreter's may be. -/
theorem Relates.old_le (h : ω.Relates m m') : ω.old ≤ Memory.maxWords :=
  h.old ▸ h.sound.limit

theorem Relates.new_le (h : ω.Relates m m') : ω.new ≤ Memory.maxWords :=
  h.le.trans h.old_le

/-- Words not yet there are carried nowhere. -/
theorem Relates.word?_eq_none (h : ω.Relates m m') (ha : ω.old ≤ a) :
    ω.word? a = none := by
  cases hb : ω.word? a with
  | none => rfl
  | some b => exact absurd (h.word a b hb).1 (by omega)

-- ========================================================= handing out memory

/-- The injection after both memories handed out `n` words. -/
def both (ω : Injection) (n : Nat) : Injection where
  old := ω.old + n
  new := ω.new + n
  word? a :=
    if ω.old ≤ a ∧ a < ω.old + n then some (ω.new + (a - ω.old)) else ω.word? a

/-- The injection after the old memory handed out `n` words. -/
def oldOnly (ω : Injection) (n : Nat) : Injection := { ω with old := ω.old + n }

/-- The injection grows when both memories do. -/
theorem le_both (ω : Injection) (n : Nat) : ω ≤ ω.both n := by
  refine ⟨Nat.le_add_right _ _, Nat.le_add_right _ _, fun a ha => ?_⟩
  exact if_neg (by omega)

/-- It grows too when only the first does. -/
theorem le_oldOnly (ω : Injection) (n : Nat) : ω ≤ ω.oldOnly n :=
  ⟨Nat.le_add_right _ _, le_refl _, fun _ _ => rfl⟩

/-- Both memories hand out words: they are counterparts. -/
theorem Relates.alloc_both (h : ω.Relates m m') {n x : Int64}
    (ha : m.alloc n = .ok (x, m₁)) :
    x = Int64.ofNat ω.old ∧ ∃ m₁', m'.alloc n = .ok (Int64.ofNat ω.new, m₁')
      ∧ (ω.both n.toInt.toNat).Relates m₁ m₁'
      ∧ (ω.both n.toInt.toNat).Carries ω.old n.toInt.toNat ω.new := by
  obtain ⟨hsound, hsize, hget⟩ := h.sound.alloc ha
  obtain ⟨⟨hn, hlimit⟩, hx, -⟩ := Memory.alloc_eq_ok.mp ha
  have hold := h.old
  have hnew := h.new
  have hle := h.le
  have hpos := h.pos
  obtain ⟨m₁', ha'⟩ : ∃ m₁', m'.alloc n = .ok (Int64.ofNat ω.new, m₁') :=
    ⟨_, Memory.alloc_eq_ok.mpr ⟨⟨hn, by omega⟩, by rw [hnew], rfl⟩⟩
  obtain ⟨hsound', hsize', hget'⟩ := h.sound'.alloc ha'
  refine ⟨by rw [hx, hold], m₁', ha',
    ⟨hsound, hsound', ?_, ?_, ?_, ?_, ?_, ?_⟩, ?_⟩
  · rw [hsize, hold]
    rfl
  · rw [hsize', hnew]
    rfl
  · exact Nat.lt_of_lt_of_le hpos (Nat.le_add_right _ _)
  · exact Nat.add_le_add_right hle _
  · intro a b hb
    rw [hget, hget']
    simp only [both] at hb ⊢
    split at hb <;> rename_i hnewly
    · cases hb
      rw [h.sound.fresh a (by omega), h.sound'.fresh _ (by omega)]
      exact ⟨by omega, by omega, rfl⟩
    · obtain ⟨hlt, hlt', hsame⟩ := h.word a b hb
      exact ⟨by omega, by omega, hsame⟩
  · intro a₁ a₂ b h₁ h₂
    simp only [both] at h₁ h₂
    split at h₁ <;> split at h₂ <;> rename_i hc₁ hc₂
    · cases h₁
      rw [Option.some.injEq] at h₂
      omega
    · cases h₁
      have := (h.word _ _ h₂).2.1
      omega
    · cases h₂
      have := (h.word _ _ h₁).2.1
      omega
    · exact h.inj a₁ a₂ b h₁ h₂
  · refine ⟨hpos, le_refl _, le_refl _, fun i hi => ?_⟩
    simp only [both]
    rw [if_pos (by omega), Nat.add_sub_cancel_left]

/-- The old memory hands out words: they have no counterpart. -/
theorem Relates.alloc_old (h : ω.Relates m m') {n x : Int64}
    (ha : m.alloc n = .ok (x, m₁)) :
    x = Int64.ofNat ω.old ∧ (ω.oldOnly n.toInt.toNat).Relates m₁ m'
      ∧ (ω.oldOnly n.toInt.toNat).Hides ω.old n.toInt.toNat := by
  obtain ⟨hsound, hsize, hget⟩ := h.sound.alloc ha
  obtain ⟨-, hx, -⟩ := Memory.alloc_eq_ok.mp ha
  refine ⟨by rw [hx, h.old],
    ⟨hsound, h.sound', ?_, h.new, h.pos, ?_, ?_, h.inj⟩, ?_⟩
  · rw [hsize, h.old]
    rfl
  · exact h.le.trans (Nat.le_add_right _ _)
  · intro a b hb
    obtain ⟨hlt, hlt', hsame⟩ := h.word a b hb
    exact ⟨Nat.lt_add_right _ hlt, hlt', by rw [hget, hsame]⟩
  · exact ⟨le_refl _, fun i _ => h.word?_eq_none (Nat.le_add_right _ _)⟩

-- ========================================================= loading and storing

variable {t : Ty} {v : Value}

/-- Counterparts hold the same values. -/
theorem Relates.load (h : ω.Relates m m') (ht : t.Flat) (hc : ω.Carries a n a')
    (hn : t.width ≤ n) (hload : m.load (Int64.ofNat a) t = .ok v) :
    m'.load (Int64.ofNat a') t = .ok v := by
  have hold := h.old_le
  have hin := hc.old
  have hin' := hc.new
  refine Memory.load_moved ht h.sound.toBounded h.sound'.toBounded
    (by omega) hload hc.pos
    (by rw [h.new]; omega) fun i hi => ?_
  exact (h.word _ _ (hc.words i (by omega))).2.2

/-- Both memories store a value at counterparts. -/
theorem Relates.store (h : ω.Relates m m') (ht : t.Flat) (hc : ω.Carries a n a')
    (hn : t.width ≤ n)
    (hstore : Memory.store (Int64.ofNat a) t v m = .ok () m₁) :
    ∃ m₁', Memory.store (Int64.ofNat a') t v m' = .ok () m₁'
        ∧ ω.Relates m₁ m₁' := by
  have hold := h.old_le
  have hnew := h.new_le
  have hin := hc.old
  have hin' := hc.new
  obtain ⟨m₁', hstore', hsame⟩ :=
    Memory.store_moved ht h.sound.toBounded h.sound'.toBounded
    (by omega) hstore hc.pos (by rw [h.new]; omega)
  obtain ⟨⟨-, -, hfits⟩, hwrote⟩ :=
    Memory.store_bounds ht h.sound.toBounded (by omega) hstore
  obtain ⟨⟨-, -, hfits'⟩, hwrote'⟩ :=
    Memory.store_bounds ht h.sound'.toBounded (by omega) hstore'
  refine ⟨m₁', hstore', hwrote.sound h.sound hfits,
    hwrote'.sound h.sound' hfits',
    hwrote.size.trans h.old, hwrote'.size.trans h.new, h.pos, h.le,
      fun x y hxy => ?_, h.inj⟩
  obtain ⟨hx, hy, hword⟩ := h.word x y hxy
  refine ⟨hx, hy, ?_⟩
  -- a word is written in the one memory just when its counterpart is in the
  -- other
  by_cases hwritten : a ≤ x ∧ x < a + t.width
  · have hxy' := hc.words (x - a) (by omega)
    rw [show a + (x - a) = x by omega, hxy, Option.some.injEq] at hxy'
    have := hsame (x - a) (by omega)
    rw [show a + (x - a) = x by omega, ← hxy'] at this
    exact this hword
  · have hunwritten : y < a' ∨ a' + t.width ≤ y := by
      by_contra hnot
      have hback := hc.words (y - a') (by omega)
      rw [show a' + (y - a') = y by omega] at hback
      have := h.inj _ _ _ hxy hback
      omega
    rw [hwrote.outside x (by omega), hwrote'.outside y hunwritten, hword]

/-- The old memory stores to words without counterpart. -/
theorem Relates.store_old (h : ω.Relates m m') (ht : t.Flat) (hc : ω.Hides a n)
    (hn : t.width ≤ n)
    (hstore : Memory.store (Int64.ofNat a) t v m = .ok () m₁) :
    ω.Relates m₁ m' := by
  have hold := h.old_le
  have hin := hc.old
  obtain ⟨⟨-, -, hfits⟩, hwrote⟩ :=
    Memory.store_bounds ht h.sound.toBounded (by omega) hstore
  refine ⟨hwrote.sound h.sound hfits, h.sound', hwrote.size.trans h.old,
    h.new, h.pos, h.le, fun x y hxy => ?_, h.inj⟩
  obtain ⟨hx, hy, hword⟩ := h.word x y hxy
  refine ⟨hx, hy, ?_⟩
  rw [hwrote.outside x ?_, hword]
  by_contra hnot
  have hnone := hc.words (x - a) (by omega)
  rw [show a + (x - a) = x by omega, hxy] at hnone
  cases hnone

end Injection

end Interp

end MirBackend
