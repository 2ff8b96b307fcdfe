/-
The exact sizes of types.

Slots are counted by 64-bit sums, which wrap. `Ty.width` counts without
wrapping, and the two agree on types of fewer than 2^63 slots; so does
`Ty.extent` for the words of a type in memory. From the widths follows where
the parts of tuples and structs lie: side by side, each within the whole.
-/
import Mathlib
import MirBackend.Ty

namespace MirBackend

namespace Ty

-- ================================================================== widths

mutual

/-- The slots of a value of the type, counted without wrapping. -/
def width : Ty → Nat
  | .u32 => 2
  | .unit => 0
  | .tuple ts => widthOfList ts
  | .struct _ fs => widthOfFields fs
  | .missing | .felt | .bool | .unknown | .ptr _ | .array .. | .fn .. => 1

/-- The slots of values side by side, counted without wrapping. -/
def widthOfList : List Ty → Nat
  | [] => 0
  | t :: ts => width t + widthOfList ts

/-- The slots of fields side by side, counted without wrapping. -/
def widthOfFields : List TyField → Nat
  | [] => 0
  | ⟨_, _, t⟩ :: fs => width t + widthOfFields fs

end

mutual

/-- Slots are counted exactly but for wrapping. -/
theorem slots_eq_ofNat : (t : Ty) → t.slots = Int64.ofNat t.width
  | .u32 | .unit | .missing | .felt | .bool | .unknown | .ptr
      _ | .array .. | .fn .. => by
      simp only [slots, width]
      rfl
  | .tuple ts => by rw [slots, width, slotsOfList_eq_ofNat ts]
  | .struct _ fs => by rw [slots, width, slotsOfFields_eq_ofNat fs]

-- What is counted with 64 bits is the width, cut to 64 bits.
theorem slotsOfList_eq_ofNat : (ts : List Ty) →
    slotsOfList ts = Int64.ofNat (widthOfList ts)
  | [] => by
      rw [slotsOfList, widthOfList]
      rfl
  | t :: ts => by
      rw [slotsOfList, widthOfList, slots_eq_ofNat t,
          slotsOfList_eq_ofNat ts, Int64.ofNat_add]

theorem slotsOfFields_eq_ofNat :
    (fs : List TyField) → slotsOfFields fs = Int64.ofNat (widthOfFields fs)
  | [] => by
      rw [slotsOfFields, widthOfFields]
      rfl
  | ⟨_, _, t⟩ :: fs => by
      rw [slotsOfFields, widthOfFields, slots_eq_ofNat t,
          slotsOfFields_eq_ofNat fs,
        Int64.ofNat_add]

end

/-- Slots are counted exactly unless there are too many of them. -/
theorem toInt_slots (t : Ty) (h : t.width < 2 ^ 63) :
    t.slots.toInt = t.width := by
  rw [slots_eq_ofNat, Int64.toInt_ofNat_of_lt h]

/-- And it is the width itself if that fits. -/
theorem toInt_slotsOfFields (fs : List TyField)
    (h : widthOfFields fs < 2 ^ 63) :
    (slotsOfFields fs).toInt = widthOfFields fs := by
  rw [slotsOfFields_eq_ofNat, Int64.toInt_ofNat_of_lt h]

-- ================================================================= extents

mutual

/-- The words of the type in memory, counted without wrapping. -/
def extent : Ty → Option Int
  | .missing => none
  | .u32 => some 2
  | .unit => some 0
  | .tuple ts => extentOfList ts
  | .struct _ fs => extentOfFields fs
  | .array t n => (extent t).map (· * n.toInt)
  | .felt | .bool | .unknown | .ptr _ | .fn .. => some 1

/-- The words of types one after the other, counted without wrapping. -/
def extentOfList : List Ty → Option Int
  | [] => some 0
  | t :: ts => do return (← extent t) + (← extentOfList ts)

/-- The words of fields one after the other, counted without wrapping. -/
def extentOfFields : List TyField → Option Int
  | [] => some 0
  | ⟨_, _, t⟩ :: fs => do return (← extent t) + (← extentOfFields fs)

end

mutual

/-- Words are counted exactly but for wrapping. -/
theorem size_eq_extent : (t : Ty) → t.size = t.extent.map Int64.ofInt
  | .missing | .u32 | .unit | .felt | .bool | .unknown | .ptr _ | .fn .. => by
      simp only [size, extent]
      rfl
  | .tuple ts => by rw [size, extent, sizeOfList_eq_extent ts]
  | .struct _ fs => by rw [size, extent, sizeOfFields_eq_extent fs]
  | .array t n => by
      rw [size, extent, size_eq_extent t]
      cases extent t with
      | none => rfl
      | some k => simp [Int64.ofInt_mul]

-- The same for sizes, where a type may have none.
theorem sizeOfList_eq_extent : (ts : List Ty) →
    sizeOfList ts = (extentOfList ts).map Int64.ofInt
  | [] => by
      rw [sizeOfList, extentOfList]
      rfl
  | t :: ts => by
      rw [sizeOfList, extentOfList, size_eq_extent t, sizeOfList_eq_extent ts]
      cases extent t <;> cases extentOfList ts <;> simp [Int64.ofInt_add]

theorem sizeOfFields_eq_extent :
    (fs : List TyField) → sizeOfFields fs = (extentOfFields fs).map Int64.ofInt
  | [] => by
      rw [sizeOfFields, extentOfFields]
      rfl
  | ⟨_, _, t⟩ :: fs => by
      rw [sizeOfFields, extentOfFields, size_eq_extent t,
          sizeOfFields_eq_extent fs]
      cases extent t <;> cases extentOfFields fs <;> simp [Int64.ofInt_add]

end

-- =================================================================== lists

-- Widths of rows and their parts.
theorem widthOfList_append (as bs : List Ty) :
    widthOfList (as ++ bs) = widthOfList as + widthOfList bs := by
  induction as with
  | nil => rw [List.nil_append, widthOfList, Nat.zero_add]
  | cons a as ih => rw [List.cons_append, widthOfList, widthOfList,
    ih, Nat.add_assoc]

theorem widthOfFields_append (as bs : List TyField) :
    widthOfFields (as ++ bs) = widthOfFields as + widthOfFields bs := by
  induction as with
  | nil => rw [List.nil_append, widthOfFields, Nat.zero_add]
  | cons a as ih => rw [List.cons_append, widthOfFields, widthOfFields,
    ih, Nat.add_assoc]

/-- A part and what lies before it fit in the whole. -/
theorem widthOfList_take_add {ts : List Ty} {i : Nat} {t : Ty}
    (h : ts[i]? = some t) :
    widthOfList (ts.take (i + 1)) = widthOfList (ts.take i) + t.width := by
  rw [List.take_add_one, h, widthOfList_append, Option.toList_some,
    widthOfList, widthOfList, Nat.add_zero]

theorem widthOfList_take_le (ts : List Ty) (i : Nat) :
    widthOfList (ts.take i) ≤ widthOfList ts := by
  conv_rhs => rw [← List.take_append_drop i ts, widthOfList_append]
  exact Nat.le_add_right _ _

theorem widthOfFields_take_add {fs : List TyField} {i : Nat} {f : TyField}
    (h : fs[i]? = some f) :
    widthOfFields (fs.take (i + 1)) = widthOfFields
      (fs.take i) + f.type.width := by
  rw [List.take_add_one, h, widthOfFields_append, Option.toList_some,
    widthOfFields, widthOfFields, Nat.add_zero]

theorem widthOfFields_take_le (fs : List TyField) (i : Nat) :
    widthOfFields (fs.take i) ≤ widthOfFields fs := by
  conv_rhs => rw [← List.take_append_drop i fs, widthOfFields_append]
  exact Nat.le_add_right _ _

theorem widthOfFields_take_mono (fs : List TyField) {i j : Nat} (h : i ≤ j) :
    widthOfFields (fs.take i) ≤ widthOfFields (fs.take j) := by
  have := widthOfFields_take_le (fs.take j) i
  rwa [List.take_take, Nat.min_eq_left h] at this

/-- Where a part of a tuple starts. -/
theorem tupleOffset_eq_some {ts : List Ty} {i : Int} {off : Int64}
    (h : tupleOffset ts i = some off) :
    ∃ t, ts[i.toNat]? = some t ∧ ts.getD i.toNat .missing = t
      ∧ off = slotsOfList (ts.take i.toNat) := by
  unfold tupleOffset at h
  split at h
  · next hi =>
    cases h
    have hlt : i.toNat < ts.length := by omega
    refine ⟨ts[i.toNat], List.getElem?_eq_getElem hlt, ?_, rfl⟩
    rw [List.getD_eq_getElem?_getD, List.getElem?_eq_getElem hlt]
    rfl
  · cases h

end Ty

namespace Record

-- ================================================================= structs

/-- Each field is where the ones before it end. -/
def Placed (r : Record) : Prop :=
  r.fields = place 0 (r.fields.map fun f => (f.name, f.type))

/-- A field is placed behind those before it. -/
theorem getElem?_place {off : Int64} {fs : List (String × Ty)}
    {j : Nat} {f : TyField} (h : (place off fs)[j]? = some f) :
    f.offset = off + Ty.slotsOfFields ((place off fs).take j) := by
  induction fs generalizing off j with
  | nil => cases h
  | cons p fs ih =>
      obtain ⟨n, t⟩ := p
      cases j with
      | zero =>
          cases h
          show off = off + 0
          rw [Int64.add_zero]
      | succ j =>
          rw [place, List.getElem?_cons_succ] at h
          rw [place, List.take_succ_cons, Ty.slotsOfFields,
            ih h, Int64.add_assoc]

/-- So its offset is the slots of those. -/
theorem Placed.offset {r : Record} (hr : r.Placed) {j : Nat} {f : TyField}
    (h : r.fields[j]? = some f) :
    f.offset = Ty.slotsOfFields (r.fields.take j) := by
  have h' := h
  rw [hr] at h'
  have := getElem?_place h'
  rwa [← hr, Int64.zero_add] at this

/-- The search by name finds the first field of that name, with its offset. -/
theorem slotOffset?_go_place (name : String) (off : Int64)
    (fs : List (String × Ty)) : slotOffset?.go name off (place off fs)
      = ((place off fs).find? (·.name == name)).map fun f =>
      (f.offset, f.type) := by
  induction fs generalizing off with
  | nil => rfl
  | cons p fs ih =>
      obtain ⟨n, t⟩ := p
      rw [place, slotOffset?.go, List.find?_cons]
      by_cases hn : n == name
      · rw [if_pos hn, hn]
        rfl
      · rw [if_neg hn, ih]
        simp only [Bool.not_eq_true] at hn
        simp [hn]

/-- The recorded places of fields are those that the types before them give. -/
theorem Placed.slotOffset? {r : Record} (hr : r.Placed) (name : String) :
    r.slotOffset? name = (r.field? name).map fun f => (f.offset, f.type) := by
  show slotOffset?.go name 0 r.fields = (r.fields.find? (·.name == name)).map _
  rw [hr]
  exact slotOffset?_go_place name 0 _

/-- Where a field lies. -/
structure FieldAt (r : Record) (name : String) (f : TyField)
    (j : Nat) : Prop where
  here : r.fields[j]? = some f
  name : f.name = name
  offset : f.offset.toInt = Ty.widthOfFields (r.fields.take j)

/-- A field that is found by name is at some position. -/
theorem Placed.fieldAt {r : Record} (hr : r.Placed)
    (hw : r.toTy.width < 2 ^ 63) {name : String} {f : TyField}
    (h : r.field? name = some f) : ∃ j, r.FieldAt name f j := by
  rw [toTy, Ty.width] at hw
  have hfind : r.fields.find? (fun f => f.name == name) = some f := h
  have hname : (f.name == name) = true := by simpa using List.find?_some hfind
  obtain ⟨j, hj⟩ := List.mem_iff_getElem?.mp (List.mem_of_find?_eq_some hfind)
  refine ⟨j, hj, eq_of_beq hname, ?_⟩
  rw [hr.offset hj]
  exact Ty.toInt_slotsOfFields
    _ (lt_of_le_of_lt (Ty.widthOfFields_take_le _ _) hw)

/-- A field ends within the struct. -/
theorem FieldAt.le {r : Record} {name : String} {f : TyField} {j : Nat}
    (h : r.FieldAt name f j) :
    f.offset.toInt + f.type.width ≤ r.toTy.width := by
  rw [toTy, Ty.width, h.offset, ← Nat.cast_add,
    ← Ty.widthOfFields_take_add h.here]
  exact_mod_cast Ty.widthOfFields_take_le _ _

/-- Of two fields one ends before the other starts. -/
theorem FieldAt.apart {r : Record} {name name' : String}
    {f f' : TyField} {j j' : Nat} (h : r.FieldAt name f j)
    (h' : r.FieldAt name' f' j') (hlt : j < j') :
    f.offset.toInt + f.type.width ≤ f'.offset.toInt := by
  rw [h.offset, h'.offset, ← Nat.cast_add, ← Ty.widthOfFields_take_add h.here]
  exact_mod_cast Ty.widthOfFields_take_mono _ hlt

end Record

end MirBackend
