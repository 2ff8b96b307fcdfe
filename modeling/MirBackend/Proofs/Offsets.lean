/-
Where the parts of tuples and structs lie.

The slot at which a part starts is found in three ways: a struct records it for
each of its fields when it is made, it is summed up over the fields before the
first one of a name, and over the elements of a tuple before a position.
`offsets_agree` says that they are one and the same, and that the parts lie side
by side and fill the value. Recorded and summed offsets wrap alike, so they
agree for all types. Only that the ranges are apart needs fewer than 2^63 slots,
and a type that is read has no more slots than bytes were read for it: its parts
tile it without that bound (`Source.type_tiles`).

Words in memory are counted by a second recursion. Without arrays and missing
parts it counts the slots.
-/
import Mathlib
import MirBackend.Proofs.Interp.Memory

namespace MirBackend

-- ================================================================ tilings

/-- Ranges, each with its start and its length, that fill `[0, total)` in
order. -/
structure Tiles (ranges : List (Int × Int)) (total : Int) : Prop where
  within : ∀ r ∈ ranges, 0 ≤ r.1 ∧ 0 ≤ r.2 ∧ r.1 + r.2 ≤ total
  ordered : ranges.Pairwise fun r r' => r.1 + r.2 ≤ r'.1
  filled : ∀ k, 0 ≤ k → k < total → ∃ r ∈ ranges, r.1 ≤ k ∧ k < r.1 + r.2

/-- Ranges laid one behind the other from `a` to `b`. -/
inductive Laid : Int → List (Int × Int) → Int → Prop where
  | nil (a : Int) : Laid a [] a
  | cons {a n b : Int} {rs : List (Int × Int)} (nonneg : 0 ≤ n)
      (rest : Laid (a + n) rs b) :
      Laid a ((a, n) :: rs) b

variable {a b k : Int} {rs : List (Int × Int)}

-- Ranges laid one after the other from `a` to `b`: inside, in order and without
-- a gap.
theorem Laid.le (h : Laid a rs b) : a ≤ b := by
  induction h with
  | nil => exact le_refl _
  | cons nonneg _ ih => omega

theorem Laid.within (h : Laid a rs b) : ∀ r ∈ rs, a ≤ r.1 ∧ 0 ≤ r.2
    ∧ r.1 + r.2 ≤ b := by
  induction h with
  | nil => exact fun r hr => absurd hr List.not_mem_nil
  | cons nonneg rest ih =>
      intro r hr
      rcases List.mem_cons.mp hr with rfl | hr
      · exact ⟨le_refl _, nonneg, rest.le⟩
      · have := ih r hr
        omega

theorem Laid.ordered (h : Laid a rs b) :
    rs.Pairwise fun r r' => r.1 + r.2 ≤ r'.1 := by
  induction h with
  | nil => exact List.Pairwise.nil
  | cons _ rest ih =>
    exact List.pairwise_cons.mpr ⟨fun r hr => (rest.within r hr).1, ih⟩

theorem Laid.filled (h : Laid a rs b) (ha : a ≤ k) (hb : k < b) :
    ∃ r ∈ rs, r.1 ≤ k ∧ k < r.1 + r.2 := by
  induction h with
  | nil => omega
  | @cons a n b rs nonneg _ ih =>
      by_cases hk : k < a + n
      · exact ⟨(a, n), List.mem_cons_self, ha, hk⟩
      · obtain ⟨r, hr, hin⟩ := ih (by omega) hb
        exact ⟨r, List.mem_cons_of_mem _ hr, hin⟩

theorem Laid.tiles (h : Laid 0 rs b) : Tiles rs b :=
  ⟨h.within, h.ordered, fun _ => h.filled⟩

-- ================================================================== parts

/-- The slots of the fields of a struct, by position, as its offsets say. -/
def Record.ranges (r : Record) : List (Int × Int) :=
  r.fields.map fun f => (f.offset.toInt, f.type.slots.toInt)

/-- The slots of the elements of a tuple, as the offsets of the positions
say. -/
def Ty.ranges (ts : List Ty) : List (Int × Int) :=
  ts.zipIdx.map fun (t, i) => (((tupleOffset ts i).getD 0).toInt, t.slots.toInt)

/-- The fields behind `start` slots are laid from there. -/
theorem Record.laid_place (start : Nat) (fs : List (String × Ty))
    (hfits : start + Ty.widthOfFields (place (.ofNat start) fs) < 2 ^ 63) :
    Laid start
      ((place (.ofNat start) fs).map fun f =>
        (f.offset.toInt, f.type.slots.toInt))
      ((start + Ty.widthOfFields (place (.ofNat start) fs) : Nat) : Int) := by
  induction fs generalizing start with
  | nil => exact .nil _
  | cons f fs ih =>
      obtain ⟨n, t⟩ := f
      have hnext : Int64.ofNat start + t.slots
          = Int64.ofNat (start + t.width) := by
        rw [Ty.slots_eq_ofNat, Int64.ofNat_add]
      rw [place, hnext, Ty.widthOfFields, ← Nat.add_assoc] at hfits ⊢
      rw [List.map_cons, t.toInt_slots (by omega),
        Int64.toInt_ofNat_of_lt (by omega)]
      refine .cons (Int.natCast_nonneg _) ?_
      rw [← Nat.cast_add]
      exact ih (start + t.width) hfits

/-- An element begins behind the slots of those before it. -/
theorem Ty.tupleOffset_of_append (before after : List Ty) (t : Ty) :
    tupleOffset (before ++ t :: after) before.length
        = some (slotsOfList before) := by
  have hin : (0 : Int) ≤ before.length ∧ (before.length : Int)
      < (before ++ t :: after).length := by
    rw [List.length_append, List.length_cons]
    omega
  rw [tupleOffset, if_pos hin, Int.toNat_natCast, List.take_left]

/-- The elements behind others are laid from where those end. -/
theorem Ty.laid_elems (before after : List Ty)
    (hfits : widthOfList (before ++ after) < 2 ^ 63) : Laid (widthOfList before)
      ((after.zipIdx before.length).map fun (t, i) =>
        (((tupleOffset (before ++ after) i).getD 0).toInt, t.slots.toInt))
      (widthOfList (before ++ after)) := by
  induction after generalizing before with
  | nil =>
      rw [List.append_nil]
      exact .nil _
  | cons t after ih =>
      have hsum := widthOfList_append before (t :: after)
      rw [widthOfList] at hsum
      have hstart : (slotsOfList before).toInt = widthOfList before := by
        rw [slotsOfList_eq_ofNat, Int64.toInt_ofNat_of_lt (by omega)]
      have hslots : t.slots.toInt = t.width := t.toInt_slots (by omega)
      have hnext : widthOfList (before ++ [t])
          = widthOfList before + t.width := by
        rw [widthOfList_append, widthOfList, widthOfList, Nat.add_zero]
      rw [List.zipIdx_cons, List.map_cons]
      dsimp only
      rw [tupleOffset_of_append, Option.getD_some, hstart, hslots]
      refine .cons (Int.natCast_nonneg _) ?_
      have hrest :=
        ih (before ++ [t]) (by rwa [List.append_assoc, List.singleton_append])
      rwa [hnext, List.append_assoc, List.singleton_append, List.length_append,
        List.length_singleton, Nat.cast_add] at hrest

/-- The fields of a record tile it. -/
theorem Record.tiles_make (name : String) (fields : List (String × Ty))
    (h : (make name fields).toTy.width < 2 ^ 63) :
    Tiles (make name fields).ranges (make name fields).toTy.slots.toInt := by
  have hwidth : (make name fields).toTy.width
      = Ty.widthOfFields (place 0 fields) := by
    rw [toTy, Ty.width]
    rfl
  rw [Ty.toInt_slots _ h, hwidth]
  have hlaid := laid_place 0 fields (by rw [Nat.zero_add]; exact hwidth ▸ h)
  rw [Nat.zero_add] at hlaid
  exact hlaid.tiles

/-- The elements of a tuple tile it. -/
theorem Ty.tiles_tuple (ts : List Ty) (h : (tuple ts).width < 2 ^ 63) :
    Tiles (ranges ts) (tuple ts).slots.toInt := by
  rw [toInt_slots _ h]
  rw [width] at h ⊢
  exact (laid_elems [] ts h).tiles

-- ========================================================== fields and names

/-- A record that is made has its fields placed. -/
theorem Record.placed_make (name : String) (fields : List (String × Ty)) :
    (make name fields).Placed := by
  have hplain (off : Int64) :
      (place off fields).map (fun f => (f.name, f.type)) = fields := by
    induction fields generalizing off with
    | nil => rfl
    | cons f fields ih => rw [place, List.map_cons, ih]
  rw [Placed, make, hplain]

/-- Slots of types in a row add up, wrapping as the machine does. -/
theorem Ty.slotsOfList_eq_sum (ts : List Ty) :
    slotsOfList ts = (ts.map slots).sum := by
  induction ts with
  | nil => rw [slotsOfList, List.map_nil, List.sum_nil]
  | cons t ts ih => rw [slotsOfList, List.map_cons, List.sum_cons, ih]

-- ========================================================== words and slots

namespace Ty

variable {t : Ty} {ts : List Ty}

/-- A type of which no part is missing. What a pointer points to is no part. -/
inductive Whole : Ty → Prop where
  | scalar {t : Ty} (single : t.parts = none) (there : t ≠ .missing) : Whole t
  | row {t : Ty} {ts : List Ty} (parts : t.parts = some ts)
    (whole : ∀ u ∈ ts, Whole u) : Whole t

/-- The parts of a whole type are whole. -/
theorem Whole.of_parts (h : t.Whole) (hts : t.parts = some ts) :
    ∀ u ∈ ts, u.Whole := by
  cases h with
  | scalar single => rw [hts] at single; cases single
  | row parts whole =>
      rw [hts, Option.some.injEq] at parts
      exact parts ▸ whole

/-- A row has a size if each of its types has one. -/
theorem isSome_sizeOfList : (sizeOfList ts).isSome = true
    ↔ ∀ u ∈ ts, u.size.isSome = true := by
  induction ts with
  | nil => simp [sizeOfList]
  | cons t ts ih =>
      rw [List.forall_mem_cons, ← ih, sizeOfList]
      cases t.size <;> cases sizeOfList ts <;> simp

/-- Types without arrays have a size if no part of them is missing. -/
theorem Flat.isSome_size (ht : t.Flat) : t.size.isSome = true ↔ t.Whole := by
  induction ht with
  | @scalar t single noArray =>
      cases t with
      | missing =>
          rw [size]
          constructor
          · rintro ⟨⟩
          · rintro (⟨-, hne⟩ | ⟨hparts, -⟩)
            · exact absurd rfl hne
            · cases hparts
      | tuple | struct => cases single
      | array u n => exact absurd rfl (noArray u n)
      | _ =>
          rw [size]
          exact ⟨fun _ => .scalar rfl (by rintro ⟨⟩), fun _ => rfl⟩
  | @row t ts parts _ ih =>
      rw [size_of_parts parts, isSome_sizeOfList]
      constructor
      · exact fun h => .row parts fun u hu => (ih u hu).mp (h u hu)
      · exact fun h u hu => (ih u hu).mpr (h.of_parts parts u hu)

/-- The size of a type without arrays and missing parts is the number of its
slots. -/
theorem Flat.size_eq_some_iff (ht : t.Flat) (n : Int64) :
    t.size = some n ↔ t.Whole ∧ t.slots = n := by
  constructor
  · intro h
    refine ⟨ht.isSome_size.mp (by rw [h]; rfl), ?_⟩
    rw [slots_eq_ofNat, ht.size_eq h]
  · rintro ⟨hwhole, rfl⟩
    obtain ⟨m, hm⟩ := Option.isSome_iff_exists.mp (ht.isSome_size.mpr hwhole)
    rw [hm, slots_eq_ofNat, ht.size_eq hm]

end Ty

-- ============================================================== agreement

/-- All offsets agree. The recorded offset of a struct's first field of a name
is the one summed up from the types, for the same names and with the same type;
the offset of a position in a tuple is the sum of the slots before it; fields
and elements fill the slots of the whole in order; and without arrays a type
that has a size has as many words as slots. -/
theorem offsets_agree :
    (∀ (name : String) (fields : List (String × Ty)) (field : String),
      (Record.make name fields).slotOffset? field
        = ((Record.make name fields).field? field).map fun f =>
        (f.offset, f.type))
    ∧ (∀ (ts : List Ty) (i : Int), Ty.tupleOffset ts i
        = if 0 ≤ i
        ∧ i < ts.length then some ((ts.take i.toNat).map
        Ty.slots).sum else none)
    ∧ (∀ (name : String) (fields : List (String × Ty)),
        (Record.make name fields).toTy.width < 2 ^ 63 →
          Tiles (Record.make name fields).ranges
            (Record.make name fields).toTy.slots.toInt)
    ∧ (∀ ts : List Ty, (Ty.tuple ts).width < 2 ^ 63 →
        Tiles (Ty.ranges ts) (Ty.tuple ts).slots.toInt)
    ∧ ∀ t : Ty, t.Flat → ∀ n, t.size = some n ↔ t.Whole ∧ t.slots = n := by
  refine ⟨fun name fields field =>
    (Record.placed_make name fields).slotOffset? field,
    fun ts i => ?_, Record.tiles_make, Ty.tiles_tuple,
    fun t ht n => ht.size_eq_some_iff n⟩
  rw [Ty.tupleOffset, Ty.slotsOfList_eq_sum]

/-- Fields of which two have the same name, one of them nested and one of them
an array. -/
def twofold : List (String × Ty) :=
  [("a", .u32), ("b", .array .felt 3), ("a", .tuple [.felt, .unit, .u32])]

/-- A record with a name used twice: the first field of that name is found by
both searches. -/
theorem offsets_agree_twofold :
    (Record.make "T" twofold).toTy.width < 2 ^ 63
    ∧ (Ty.tuple [.felt, .unit, .u32]).Flat
    ∧ (Record.make "T" twofold).slotOffset? "a" = some (0, .u32)
    ∧ Tiles [(0, 2), (2, 1), (3, 3)] 6
    ∧ Tiles [(0, 1), (1, 0), (1, 2)] 3
    ∧ (Ty.tuple [.felt, .unit, .u32]).size = some 3 := by
  have hfits : (Record.make "T" twofold).toTy.width < 2 ^ 63 := by decide
  have hflat : (Ty.tuple [.felt, .unit, .u32]).Flat := by
    refine .row rfl ?_
    simp only [List.forall_mem_cons]
    refine ⟨?_, ?_, ?_, by simp⟩ <;> exact .scalar rfl (by rintro u n ⟨⟩)
  have hwhole : (Ty.tuple [.felt, .unit, .u32]).Whole := by
    refine .row rfl ?_
    simp only [List.forall_mem_cons]
    refine ⟨?_, ?_, ?_, by simp⟩ <;> exact .scalar rfl (by rintro ⟨⟩)
  obtain ⟨hagree, -, hfields, helems, hsize⟩ := offsets_agree
  exact ⟨hfits, hflat, hagree "T" twofold "a", hfields "T" twofold hfits,
    helems [.felt, .unit, .u32] (by decide),
      (hsize _ hflat 3).mpr ⟨hwhole, rfl⟩⟩

end MirBackend
