/-
How many words a type takes in memory.

A value lies inline: components one after the other, arrays element after
element. `Ty.words` counts the words without wrapping. A type is *exact* when
nothing goes wrong in counting them with 64 bits: every part has a size, arrays
have no negative length, and no sum or product wraps. Then the size is the
number of words (`Exact.size_eq`), and of what lies side by side each part
starts where the ones before it end, within the whole.
-/
import Mathlib
import MirBackend.Proofs.Interp.Memory

namespace MirBackend

/-- A 64-bit number that is not negative is a count. -/
theorem ofNat_toNat_of_nonneg {k : Int64} (h : 0 ≤ k.toInt) :
    Int64.ofNat k.toInt.toNat = k := by
  rw [← Int64.ofInt_eq_ofNat, Int.toNat_of_nonneg h, Int64.ofInt_toInt]

namespace Ty

-- ================================================================== counts

mutual

/-- The words of the type in memory, counted without wrapping. -/
def words : Ty → Nat
  | .u32 => 2
  | .missing | .unit => 0
  | .tuple ts => wordsOfList ts
  | .struct _ fs => wordsOfFields fs
  | .array t n => words t * n.toInt.toNat
  | .felt | .bool | .unknown | .ptr _ | .fn .. => 1

/-- The words of types one after the other, counted without wrapping. -/
def wordsOfList : List Ty → Nat
  | [] => 0
  | t :: ts => words t + wordsOfList ts

/-- The words of fields one after the other, counted without wrapping. -/
def wordsOfFields : List TyField → Nat
  | [] => 0
  | ⟨_, _, t⟩ :: fs => words t + wordsOfFields fs

end

variable {t u : Ty} {ts us : List Ty} {k : Int64}

-- Words in memory are counted as slots are, part by part.
theorem wordsOfFields_eq (fs : List TyField) :
    wordsOfFields fs = wordsOfList (fs.map (·.type)) := by
  induction fs with
  | nil => simp [wordsOfFields, wordsOfList]
  | cons f fs ih => rw [List.map_cons, wordsOfFields, wordsOfList, ih]

theorem words_of_parts (h : t.parts = some ts) : t.words = wordsOfList ts := by
  cases t with
  | tuple us => cases h; rw [words]
  | struct n fs => cases h; rw [words, wordsOfFields_eq]
  | _ => cases h

theorem wordsOfList_append (ts us : List Ty) :
    wordsOfList (ts ++ us) = wordsOfList ts + wordsOfList us := by
  induction ts with
  | nil => rw [List.nil_append, wordsOfList, Nat.zero_add]
  | cons t ts ih => rw [List.cons_append, wordsOfList, wordsOfList,
    ih, Nat.add_assoc]

/-- A part and what lies before it fit in the whole. -/
theorem wordsOfList_take_add_le {i : Nat} (h : ts[i]? = some t) :
    wordsOfList (ts.take i) + t.words ≤ wordsOfList ts := by
  have hsplit : ts.take (i + 1) = ts.take i ++ [t] := by
    rw [List.take_add_one, h, Option.toList_some]
  have hle : wordsOfList (ts.take (i + 1)) ≤ wordsOfList ts := by
    conv_rhs => rw [← List.take_append_drop (i + 1) ts, wordsOfList_append]
    exact Nat.le_add_right _ _
  rw [hsplit, wordsOfList_append, wordsOfList, wordsOfList, Nat.add_zero] at hle
  exact hle

-- ================================================================= exactness

/-- Counting the words of the type with 64 bits is exact, and so it is for each
of its parts. -/
inductive Exact : Ty → Prop where
  | scalar {t : Ty} (whole : t.parts = none) (noArray : ∀ u n, t ≠ .array u n)
      (sized : t ≠ .missing) : Exact t
  | array {u : Ty} {k : Int64} (elem : Exact u) (length : 0 ≤ k.toInt)
      (fits : u.words * k.toInt.toNat < 2 ^ 63) : Exact (.array u k)
  | row {t : Ty} {ts : List Ty} (parts : t.parts = some ts)
      (each : ∀ u ∈ ts, Exact u)
      (fits : wordsOfList ts < 2 ^ 63) : Exact t

-- Types whose size is told exactly.
theorem exact_felt : felt.Exact := by
  refine .scalar rfl (fun u n h => ?_) (fun h => ?_) <;> cases h

theorem exact_u32 : u32.Exact := by
  refine .scalar rfl (fun u n h => ?_) (fun h => ?_) <;> cases h

/-- An exact size has not wrapped. -/
theorem Exact.words_lt (h : t.Exact) : t.words < 2 ^ 63 := by
  cases h with
  | scalar whole noArray sized =>
      cases t with
      | tuple | struct => cases whole
      | array u n => exact absurd rfl (noArray u n)
      | _ => simp [words]
  | array elem length fits => rwa [words]
  | row parts each fits => rwa [words_of_parts parts]

/-- An exact row has the exact size. -/
theorem sizeOfList_eq (h : ∀ u ∈ ts, u.size = some (Int64.ofNat u.words)) :
    sizeOfList ts = some (Int64.ofNat (wordsOfList ts)) := by
  induction ts with
  | nil =>
      rw [sizeOfList, wordsOfList]
      rfl
  | cons u us ih =>
      rw [List.forall_mem_cons] at h
      rw [sizeOfList, h.1, ih h.2, wordsOfList, Int64.ofNat_add]
      rfl

-- A type that is there.
theorem isMissing_eq_false (h : t ≠ .missing) : t.isMissing = false := by
  cases t with
  | missing => exact absurd rfl h
  | _ => rfl

/-- The size of an exact type is the number of its words. -/
theorem Exact.size_eq (h : t.Exact) : t.size = some (Int64.ofNat t.words) := by
  induction h with
  | @scalar t whole noArray sized =>
      cases t with
      | tuple | struct => cases whole
      | array u n => exact absurd rfl (noArray u n)
      | missing => exact absurd rfl sized
      | _ =>
          rw [size, words]
          rfl
  | @array u k elem length fits ih =>
      rw [size, ih, words, Int64.ofNat_mul, ofNat_toNat_of_nonneg length]
      rfl
  | row parts each fits ih =>
    rw [size_of_parts parts, sizeOfList_eq ih, words_of_parts parts]

theorem Exact.ne_missing (h : t.Exact) : t ≠ .missing := by
  rintro rfl
  cases h with
  | scalar whole noArray sized => exact sized rfl
  | row parts => cases parts

/-- The parts of an exact type are exact. -/
theorem Exact.parts (h : t.Exact) (hts : t.parts = some ts) :
    ∀ u ∈ ts, u.Exact := by
  cases h with
  | scalar whole => rw [hts] at whole; cases whole
  | array => cases hts
  | row hparts each =>
      rw [hts, Option.some.injEq] at hparts
      subst hparts
      exact each

/-- So is the element of an array. -/
theorem Exact.elem (h : (Ty.array u k).Exact) : u.Exact := by
  cases h with
  | scalar whole noArray => exact absurd rfl (noArray u k)
  | array elem => exact elem
  | row parts => cases parts

/-- Types with as many words as slots, in a row. -/
theorem wordsOfList_eq_widthOfList (h : ∀ u ∈ ts, u.words = u.width) :
    wordsOfList ts = widthOfList ts := by
  induction ts with
  | nil => rw [wordsOfList, widthOfList]
  | cons u us ih =>
      rw [List.forall_mem_cons] at h
      rw [wordsOfList, widthOfList, h.1, ih h.2]

/-- A type without arrays takes as many words as slots. -/
theorem Exact.words_eq_width (h : t.Exact) (ht : t.Flat) :
    t.words = t.width := by
  induction ht with
  | @scalar t whole noArray =>
      cases t with
      | tuple | struct => cases whole
      | array u n => exact absurd rfl (noArray u n)
      | missing => exact absurd rfl h.ne_missing
      | _ => rw [words, width]
  | row parts flat ih =>
      rw [words_of_parts parts, width_of_parts parts]
      exact wordsOfList_eq_widthOfList fun u hu => ih u hu (h.parts parts u hu)

/-- An exact flat type has a width that fits. -/
theorem Exact.width_lt (h : t.Exact) (ht : t.Flat) : t.width < 2 ^ 63 := by
  rw [← h.words_eq_width ht]
  exact h.words_lt

/-- The parts of a flat type are flat. -/
theorem Flat.parts (h : t.Flat) (hts : t.parts = some ts) :
    ∀ u ∈ ts, u.Flat := by
  cases h with
  | scalar whole => rw [hts] at whole; cases whole
  | row parts flat =>
      rw [hts, Option.some.injEq] at parts
      subst parts
      exact flat

/-- Slot `i` of a value of the type is the address of an array of type `w`. -/
inductive ArrayAt : Ty → Nat → Ty → Prop where
  | here (u : Ty) (k : Int64) : ArrayAt (.array u k) 0 (.array u k)
  | part {t u w : Ty} {ts : List Ty} {i j : Nat} (parts : t.parts = some ts)
      (here : ts[j]? = some u)
      (inner : ArrayAt u i w) : ArrayAt t (widthOfList (ts.take j) + i) w

/-- A part takes no more slots than the whole row. -/
theorem width_le_widthOfList (h : u ∈ ts) : u.width ≤ widthOfList ts := by
  obtain ⟨i, hi⟩ := List.mem_iff_getElem?.mp h
  have hle := widthOfList_take_le ts (i + 1)
  rw [widthOfList_take_add hi] at hle
  omega

end Ty

end MirBackend
