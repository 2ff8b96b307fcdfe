/-
Stores are local, and loads give back what was stored.

For types whose words are counted exactly the bounds of an access can be told
in plain numbers: it is inside the memory or it is not (`Memory.Inside`). A
load or store of a row goes from component to component; the address advances
by words, the value by slots, and every component checks its own bounds again.
All these checks follow from the first one, so an access that passes it goes
through, and one that does not has touched nothing. An address may wrap. Then
it is negative, and no access is allowed there.

What a store leaves differs from what it found in the words of the type only,
however it ends (`store_written`).
-/
import Mathlib
import MirBackend.Proofs.Words

namespace MirBackend.Interp

namespace Value

variable {v : Value} {t : Ty}

/-- The slots of a component at the front. -/
theorem first_slots (hw : t.width < 2 ^ 63) (hlen : t.width ≤ v.slots.length) :
    v.first t.slots = .ok ⟨v.slots.take t.width, 0⟩ := by
  have hslots := t.toInt_slots hw
  have hpos : (0 : Int64) ≤ t.slots := by
    rw [Int64.le_iff_toInt_le, hslots]
    exact Int.natCast_nonneg _
  have hroom : t.slots.toInt ≤ v.room := by
    rw [hslots, room]
    omega
  rw [first, if_pos ⟨hpos, hroom⟩, hslots, Int.toNat_natCast, stored,
    List.take_append_of_le_length hlen]

/-- The slots behind a component. -/
theorem rest_slots (hw : t.width < 2 ^ 63) (hlen : t.width ≤ v.slots.length) :
    v.rest t.slots = .ok { v with slots := v.slots.drop t.width } := by
  have hslots := t.toInt_slots hw
  have hpos : (0 : Int64) ≤ t.slots := by
    rw [Int64.le_iff_toInt_le, hslots]
    exact Int.natCast_nonneg _
  have hin : t.slots.toInt ≤ v.slots.length := by
    rw [hslots]
    omega
  rw [rest, if_pos ⟨hpos, hin⟩, hslots, Int.toNat_natCast]

/-- Slots of a value that has them. -/
theorem part_slots {off m : Int64} {k n : Nat} (hoff : off.toInt = k)
    (hm : m.toInt = n) (hle : k + n ≤ v.slots.length) :
    ∃ z, v.part off m = .ok z ∧ z.slots = (v.slots.drop k).take n := by
  have hin : 0 ≤ off ∧ 0 ≤ m ∧ off.toInt + m.toInt ≤ v.room := by
    rw [Int64.le_iff_toInt_le, Int64.le_iff_toInt_le, hoff, hm, room]
    exact ⟨Int.natCast_nonneg _, Int.natCast_nonneg _, by omega⟩
  refine ⟨_, by rw [part, if_pos hin], ?_⟩
  rw [hoff, hm, stored, Int.toNat_natCast, Int.toNat_natCast,
    List.drop_append_of_le_length (by omega), List.take_append_of_le_length
      (by rw [List.length_drop]; omega)]
  rfl

end Value

namespace Memory

variable {m m' m₁ : Memory} {a : Int64} {n k : Nat} {t u : Ty}
  {ts : List Ty} {v : Value}

-- =============================================================== addresses

/-- An address further on: exact, or wrapped, and then negative. -/
theorem toInt_advance (a : Int64) (hn : n < 2 ^ 63) :
    (a + Int64.ofNat n).toInt = a.toInt + n
      ∨ (2 ^ 63 ≤ a.toInt + n ∧ (a + Int64.ofNat n).toInt
        = a.toInt + n - 2 ^ 64) := by
  have hlt := a.toInt_lt
  have hle := a.le_toInt
  rw [Int64.toInt_add, Int64.toInt_ofNat_of_lt hn]
  by_cases hfits : a.toInt + n < 2 ^ 63
  · left
    exact Int.bmod_eq_of_le (by omega) (by omega)
  · right
    refine ⟨by omega, ?_⟩
    rw [show a.toInt + n = a.toInt + n - 2 ^ 64 + (2 ^ 64 : Nat) by omega,
      Int.add_bmod_right, Int.bmod_eq_of_le (by omega) (by omega)]
    omega

/-- The `n` words from an address on are in the memory. -/
def Inside (m : Memory) (a : Int64) (n : Nat) : Prop :=
  0 < a.toInt ∧ a.toInt + n ≤ m.size

/-- Of words that are inside the first ones are, and so are those behind
them. -/
theorem Inside.split (hm : m.Bounded) (h : m.Inside a (n + k)) :
    m.Inside a n ∧ (a + Int64.ofNat n).toInt = a.toInt + n ∧ m.Inside
      (a + Int64.ofNat n) k := by
  obtain ⟨hpos, hle⟩ := h
  have hlimit := hm.limit
  unfold maxWords at hlimit
  have hnext : (a + Int64.ofNat n).toInt = a.toInt + n := by
    rcases toInt_advance a (by omega : n < 2 ^ 63) with h | h
    · exact h
    · omega
  unfold Inside
  rw [hnext]
  omega

/-- The check of the bounds, in plain numbers but for wrapping. -/
theorem extent_exact (ht : t.Exact) (hm : m.Bounded)
    (a : Int64) (e : RunError) :
    m.extent a t e = if 0 < a.toInt ∧ (a + Int64.ofNat t.words).toInt ≤ m.size
      then .ok (Int64.ofNat t.words) else .error (.fail e) := by
  have hsize : (Int64.ofNat m.size).toInt = m.size :=
    toInt_ofNat (by have := hm.limit; omega)
  have hpos : a ≤ 0 ↔ a.toInt ≤ 0 := Int64.le_iff_toInt_le
  unfold extent
  rw [ht.size_eq]
  by_cases h : a ≤ 0
  · rw [if_pos h]
    rw [hpos] at h
    rw [if_neg (by omega)]
  · rw [if_neg h]
    rw [hpos] at h
    simp only [orFault_some, liftChecked, ok_bind, gt_iff_lt,
      Int64.lt_iff_toInt_lt, hsize]
    by_cases hle : (a + Int64.ofNat t.words).toInt ≤ m.size
    · rw [if_neg (by omega), if_pos (by omega)]
      rfl
    · rw [if_pos (by omega), if_neg (by omega)]
      rfl

/-- An access that passes the check takes the words of its type. -/
theorem extent_words (ht : t.Exact) {e : RunError} {c : Int64}
    (h : m.extent a t e = .ok c) : 0 < a.toInt ∧ c = Int64.ofNat t.words := by
  unfold extent at h
  split at h
  · cases h
  · next hpos =>
    rw [Int64.le_iff_toInt_le, show (0 : Int64).toInt = 0 from rfl] at hpos
    rw [ht.size_eq, orFault_some, liftChecked, ok_bind] at h
    dsimp only at h
    split at h
    · cases h
    · cases h
      exact ⟨by omega, rfl⟩

/-- A range inside memory has the extent of its type. -/
theorem extent_of_inside (ht : t.Exact) (hm : m.Bounded)
    (h : m.Inside a t.words) (e : RunError) :
    m.extent a t e = .ok (Int64.ofNat t.words) := by
  obtain ⟨hnext, -⟩ := (Inside.split hm (k := 0) h).2
  rw [extent_exact ht hm, hnext]
  exact if_pos h

/-- An address that is not positive is out of bounds. -/
theorem extent_of_not_pos (h : a.toInt ≤ 0) (e : RunError) :
    m.extent a t e = .error (.fail e) := by
  have hpos : a ≤ 0 := Int64.le_iff_toInt_le.mpr h
  rw [extent, if_pos hpos]

/-- An access that is not inside fails its check, unless the address wraps. -/
theorem extent_of_not_inside (ht : t.Exact) (hm : m.Bounded)
    (h : ¬ m.Inside a t.words) (hfits : a.toInt + t.words < 2 ^ 63)
    (e : RunError) : m.extent a t e = .error (.fail e) := by
  have hnext : (a + Int64.ofNat t.words).toInt = a.toInt + t.words := by
    rcases toInt_advance a ht.words_lt with h | h
    · exact h
    · omega
  rw [extent_exact ht hm, hnext]
  exact if_neg h

/-- Where there is storage for words, their addresses do not wrap. -/
theorem range_words (hn : n < 2 ^ 63) {x : Nat × Nat}
    (h : m.range a (a + Int64.ofNat n) = .ok x) :
    0 ≤ a.toInt ∧ (a + Int64.ofNat n).toInt = a.toInt + n
        ∧ x = (a.toInt.toNat, n) := by
  unfold range at h
  simp only [Int64.le_iff_toInt_le] at h
  rw [show (0 : Int64).toInt = 0 from rfl] at h
  split at h
  · next hin =>
    cases h
    rcases toInt_advance a hn with hnext | hnext
    · rw [hnext, add_sub_cancel_left, Int.toNat_natCast]
      exact ⟨hin.1, rfl, rfl⟩
    · omega
  · cases h

/-- There is storage for the words of the memory. -/
theorem range_of_le (hm : m.Bounded) (ha : 0 ≤ a.toInt)
    (h : a.toInt + n ≤ m.size) :
    m.range a (a + Int64.ofNat n) = .ok (a.toInt.toNat, n) := by
  have hlimit := hm.limit
  have hstored := hm.stored
  unfold maxWords at hlimit
  have hnext : (a + Int64.ofNat n).toInt = a.toInt + n := by
    rcases toInt_advance a (by omega : n < 2 ^ 63) with h | h
    · exact h
    · omega
  have hin : 0 ≤ a ∧ a ≤ a + Int64.ofNat n
      ∧ (a + Int64.ofNat n).toInt ≤ m.room := by
    rw [Int64.le_iff_toInt_le, Int64.le_iff_toInt_le, hnext]
    exact ⟨ha, by omega, by omega⟩
  rw [range, if_pos hin, hnext, add_sub_cancel_left, Int.toNat_natCast]

/-- What was just written is read. -/
theorem read_write_self (m : Memory) (a : Nat) (xs : Slots) :
    (m.write a xs).read a xs.length = xs := by
  refine List.ext_getElem (by rw [read, List.length_map, List.length_range])
    fun i h₁ h₂ => ?_
  rw [← get_write_of_inside h₂ (m := m) (a := a)]
  simp [read]

/-- So nothing is loaded from it. -/
theorem load_of_not_pos (h : a.toInt ≤ 0) (t : Ty) :
    m.load a t = .error (.fail (.loadBounds a t)) := by
  rw [load, extent_of_not_pos h]
  rfl

/-- An array is loaded as its address, after its extent is checked. -/
theorem load_array (m : Memory) (a : Int64) (u : Ty) (c : Int64) :
    m.load a
      (.array u c)
        = (m.extent a (.array u c) (.loadBounds a (.array u c)) >>= fun _ =>
      pure ⟨[a], 0⟩) := by
  rw [load]

/-- What a load looks at: the bounds, and the words of the type. -/
structure SameAt (m m' : Memory) (a : Int64) (n : Nat) : Prop where
  size : m'.size = m.size
  room : m'.room = m.room
  words : ∀ i : Nat, a.toInt ≤ i → i < a.toInt + n → m'.get i = m.get i

/-- Extents depend on the size of memory only. -/
theorem SameAt.extent_eq (h : SameAt m m' a n) (b : Int64)
    (t : Ty) (e : RunError) : m'.extent b t e = m.extent b t e := by
  rw [extent, extent, h.size]

/-- Loads of several types in a row agree if those of each do where its words
are the same. -/
theorem loadList_congr (hwords : Ty.wordsOfList ts < 2 ^ 63)
    (hts : ∀ u ∈ ts, u.Exact)
    (heach : ∀ u ∈ ts, ∀ b, SameAt m m' b u.words → m'.load b u = m.load b u)
    (h : SameAt m m' a (Ty.wordsOfList ts)) (acc : Value) :
    m'.loadList ts a acc = m.loadList ts a acc := by
  induction ts generalizing a acc with
  | nil => rw [loadList, loadList]
  | cons u us ih =>
      rw [List.forall_mem_cons] at hts heach
      rw [Ty.wordsOfList] at hwords h
      rw [loadList, loadList]
      by_cases hpos : a.toInt ≤ 0
      · rw [load_of_not_pos hpos, load_of_not_pos hpos]
        rfl
      · have hfirst : SameAt m m' a u.words :=
          ⟨h.size, h.room, fun i hle hlt => h.words i hle (by omega)⟩
        have hrest : SameAt m m' (a + Int64.ofNat u.words)
            (Ty.wordsOfList us) := by
          have hlt := a.toInt_lt
          refine ⟨h.size, h.room, fun i hle hbelow => h.words i ?_ ?_⟩
          all_goals
            rcases toInt_advance a hts.1.words_lt with hnext | hnext
            all_goals omega
        rw [heach.1 a hfirst, hts.1.size_eq]
        cases m.load a u with
        | error e => rfl
        | ok x => exact ih (by omega) hts.2 heach.2 hrest _

/-- A load is unaffected by changes elsewhere. -/
theorem load_congr (ht : t.Exact) (h : SameAt m m' a t.words) :
    m'.load a t = m.load a t := by
  induction ht generalizing a with
  | @scalar t whole noArray sized =>
      have ht : t.Exact := .scalar whole noArray sized
      rw [load_scalar whole noArray, load_scalar whole noArray, h.extent_eq]
      cases hext : m.extent a t (.loadBounds a t) with
      | error e => rfl
      | ok c =>
          obtain ⟨-, rfl⟩ := extent_words ht hext
          have hrange : m'.range a (a + Int64.ofNat t.words)
              = m.range a (a + Int64.ofNat t.words) := by
            rw [range, range, h.room]
          rw [ok_bind, ok_bind, hrange]
          cases hr : m.range a (a + Int64.ofNat t.words) with
          | error e => rfl
          | ok x =>
              obtain ⟨hpos, -, rfl⟩ := range_words ht.words_lt hr
              have hread : m'.read a.toInt.toNat t.words
                  = m.read a.toInt.toNat t.words :=
                List.map_congr_left fun i hi => by
                  rw [List.mem_range] at hi
                  exact h.words _ (by omega) (by omega)
              rw [liftChecked, ok_bind, ok_bind, hread]
  | array => rw [load_array, load_array, h.extent_eq]
  | @row t ts parts each fits ih =>
      rw [load_row parts, load_row parts, h.extent_eq]
      rw [Ty.words_of_parts parts] at h
      have hlist := loadList_congr fits each (fun u hu b hb => ih u hu hb) h
      simp only [hlist]

/-- They succeed if each does inside memory. -/
theorem loadList_ok (hts : ∀ u ∈ ts, u.Exact) (hm : m.Bounded)
    (heach : ∀ u ∈ ts, ∀ b, m.Inside b u.words → ∃ x, m.load b u = .ok x)
    (h : m.Inside a (Ty.wordsOfList ts)) (acc : Value) :
    ∃ x, m.loadList ts a acc = .ok x := by
  induction ts generalizing a acc with
  | nil => exact ⟨acc, by rw [loadList]; rfl⟩
  | cons u us ih =>
      rw [List.forall_mem_cons] at hts heach
      rw [Ty.wordsOfList] at h
      obtain ⟨hfirst, -, hrest⟩ := h.split hm
      obtain ⟨x, hx⟩ := heach.1 a hfirst
      obtain ⟨y, hy⟩ := ih hts.2 heach.2 hrest (acc.append x.slots)
      refine ⟨y, ?_⟩
      rw [loadList, hx, ok_bind, hts.1.size_eq]
      exact hy

/-- What is inside can be loaded. -/
theorem load_ok (ht : t.Exact) (hm : m.Bounded) (h : m.Inside a t.words) :
    ∃ x, m.load a t = .ok x := by
  induction ht generalizing a with
  | @scalar t whole noArray sized =>
      have ht : t.Exact := .scalar whole noArray sized
      rw [load_scalar whole noArray, extent_of_inside ht hm h, ok_bind,
        range_of_le hm h.1.le h.2]
      exact ⟨_, rfl⟩
  | array elem length fits =>
      rw [load_array, extent_of_inside (.array elem length fits) hm h]
      exact ⟨_, rfl⟩
  | @row t ts parts each fits ih =>
      rw [load_row parts, extent_of_inside (.row parts each fits) hm h, ok_bind]
      rw [Ty.words_of_parts parts] at h
      exact loadList_ok each hm (fun u hu b hb => ih u hu hb) h default

/-- What a load of a type without arrays gives. -/
theorem load_ok_slots (ht : t.Exact) (hflat : t.Flat) (hm : m.Bounded)
    (h : m.Inside a t.words) :
    ∃ v, m.load a t = .ok v ∧ v.slots = m.read a.toInt.toNat t.width := by
  obtain ⟨v, hv⟩ := load_ok ht hm h
  refine ⟨v, hv, ?_⟩
  obtain ⟨hpos, hle⟩ := h
  have hlimit := hm.limit
  rw [← ofNat_toNat_of_nonneg hpos.le] at hv
  exact load_slots hflat hm (by omega) hv

-- ================================================================= storing

-- Storing is written in a monad of its own, taken apart here.
theorem answer_bind {α β : Type} (x : Access α)
    (f : α → Storing β) (m : Memory) : (answer x >>= f) m = match x with
      | .ok y => f y m
      | .error e => .error e m := by
  cases x <;> rfl

theorem sure_bind {α β : Type} (x : Checked α)
    (f : α → Storing β) (m : Memory) : (Memory.sure x >>= f) m = match x with
      | .ok y => f y m
      | .error e => .error (.halt e) m := by
  cases x <;> rfl

/-- An array is stored by copying the range that its address names. -/
theorem store_array (a : Int64) (u : Ty) (c : Int64) (v : Value) :
    store a (.array u c) v = (EStateM.get >>= fun m =>
      answer (m.extent a (.array u c) (.storeBounds a (.array u c)))
          >>= fun n =>
        Memory.sure (orFault v.slots.head?) >>= fun src =>
          Memory.sure (m.range a (a + n)) >>= fun x =>
            Memory.sure (m.range src (src + n)) >>= fun y =>
              EStateM.set (m.write x.1 (m.read y.1 y.2))) := by
  rw [store]

/-- A store that fails the check of its bounds has touched nothing. -/
theorem store_of_extent_error {e : Stop RunError}
    (h : m.extent a t (.storeBounds a t) = .error e) (v : Value) :
    store a t v m = .error e m := by
  have hget {β : Type} (f : Memory → Storing β) :
      (EStateM.get >>= f) m = f m m := rfl
  rw [store, hget, h, answer_bind]

/-- Types in a row are stored from the first on, each with the slots that are
its own. -/
theorem storeList_cons (a : Int64) (u : Ty) (us : List Ty) (v : Value) :
    storeList a (u :: us) v
        = (Memory.sure (v.first u.slots) >>= fun x => store a u x >>= fun _ =>
      Memory.sure (v.rest u.slots) >>= fun rest =>
        Memory.sure (orFault u.size) >>= fun n => storeList
          (a + n) us rest) := by
  rw [storeList]

/-- What is written inside a range is written inside a larger one. -/
theorem Written.widen {a : Nat} (h : Written m a n m₁) (hle : n ≤ k) :
    Written m a k m₁ :=
  ⟨h.size, h.room, fun b hb => h.outside b (by omega)⟩

/-- Where no address is left, nothing is stored. -/
theorem left_storeList_of_not_pos (h : a.toInt ≤ 0) (ts : List Ty)
    (v : Value) (m : Memory) : left (storeList a ts v m) = m := by
  cases ts with
  | nil => rw [storeList]; rfl
  | cons u us =>
      rw [storeList_cons, sure_bind]
      cases v.first u.slots with
      | error e => rfl
      | ok x =>
          dsimp only
          rw [bind_run, store_of_extent_error (extent_of_not_pos h _)]
          rfl

/-- A row of values is stored within its words when each of them is. -/
theorem storeList_written (hwords : Ty.wordsOfList ts < 2 ^ 63)
    (hts : ∀ u ∈ ts, u.Exact)
    (heach : ∀ u ∈ ts, ∀ b x m,
      Written m b.toInt.toNat u.words (left (store b u x m)))
    (a : Int64) (v : Value) (m : Memory) :
    Written m a.toInt.toNat (Ty.wordsOfList ts)
      (left (storeList a ts v m)) := by
  induction ts generalizing a v m with
  | nil =>
      rw [storeList]
      exact .refl _ _ _
  | cons u us ih =>
      rw [List.forall_mem_cons] at hts heach
      by_cases hpos : a.toInt ≤ 0
      · rw [left_storeList_of_not_pos hpos]
        exact .refl _ _ _
      rw [Ty.wordsOfList] at hwords ⊢
      rw [storeList_cons, sure_bind]
      cases v.first u.slots with
      | error e => exact .refl _ _ _
      | ok x =>
          have hfirst := heach.1 a x m
          dsimp only
          rw [bind_run]
          cases hstore : store a u x m with
          | error e m₂ =>
              rw [hstore] at hfirst
              exact hfirst.widen (Nat.le_add_right _ _)
          | ok _ m₂ =>
              rw [hstore] at hfirst
              dsimp only
              rw [sure_bind]
              cases v.rest u.slots with
              | error e => exact hfirst.widen (Nat.le_add_right _ _)
              | ok rest =>
                  dsimp only
                  rw [sure_bind, hts.1.size_eq, orFault_some]
                  dsimp only
                  -- the next address is behind the words just written, or there
                  -- is none
                  rcases toInt_advance a hts.1.words_lt
                    with hnext | ⟨hover, hnext⟩
                  · have hrest := ih (by omega) hts.2 heach.2
                      (a + Int64.ofNat u.words) rest m₂
                    rw [hnext, Int.toNat_add (by omega) (by omega),
                      Int.toNat_natCast] at hrest
                    exact hfirst.append hrest
                  · have hlt := a.toInt_lt
                    have hword := hts.1.words_lt
                    rw [left_storeList_of_not_pos (by omega)]
                    exact hfirst.widen (Nat.le_add_right _ _)

/-- A store changes words of its type only, however it ends. -/
theorem store_written (ht : t.Exact) (a : Int64) (v : Value) (m : Memory) :
    Written m a.toInt.toNat t.words (left (store a t v m)) := by
  have hget {β : Type} (f : Memory → Storing β) (m : Memory) :
      (EStateM.get >>= f) m = f m m := rfl
  induction ht generalizing a v m with
  | @scalar t whole noArray sized =>
      have ht : t.Exact := .scalar whole noArray sized
      rw [store_scalar whole noArray, hget, answer_bind]
      cases hext : m.extent a t (.storeBounds a t) with
      | error e => exact .refl _ _ _
      | ok c =>
          obtain ⟨-, rfl⟩ := extent_words ht hext
          dsimp only
          rw [sure_bind]
          cases hr : m.range a (a + Int64.ofNat t.words) with
          | error e => exact .refl _ _ _
          | ok x =>
              obtain ⟨-, -, rfl⟩ := range_words ht.words_lt hr
              have hlen := List.length_take_le t.words v.slots
              refine ⟨size_write _ _ _, room_write _ _ _, fun b hb => ?_⟩
              exact get_write_of_outside (by dsimp only; omega)
  | @array u c elem length fits =>
      have ht : (Ty.array u c).Exact := .array elem length fits
      rw [store_array, hget, answer_bind]
      cases hext : m.extent a (.array u c) (.storeBounds a (.array u c)) with
      | error e => exact .refl _ _ _
      | ok d =>
          obtain ⟨-, rfl⟩ := extent_words ht hext
          dsimp only
          rw [sure_bind]
          cases orFault v.slots.head? with
          | error e => exact .refl _ _ _
          | ok src =>
              dsimp only
              rw [sure_bind]
              cases hr : m.range a (a + Int64.ofNat (Ty.array u c).words) with
              | error e => exact .refl _ _ _
              | ok x =>
                  obtain ⟨-, -, rfl⟩ := range_words ht.words_lt hr
                  dsimp only
                  rw [sure_bind]
                  cases hs :
                      m.range src (src + Int64.ofNat (Ty.array u c).words) with
                  | error e => exact .refl _ _ _
                  | ok y =>
                      obtain ⟨-, -, rfl⟩ := range_words ht.words_lt hs
                      refine ⟨size_write _ _ _,
                        room_write _ _ _, fun b hb => ?_⟩
                      exact get_write_of_outside
                        (by rw [read, List.length_map, List.length_range]; exact hb)
  | @row t ts parts each fits ih =>
      rw [store_row parts, hget, answer_bind]
      cases hext : m.extent a t (.storeBounds a t) with
      | error e => exact .refl _ _ _
      | ok c =>
          rw [Ty.words_of_parts parts]
          exact storeList_written fits each (fun u hu b x m =>
            ih u hu b x m) a v m

-- ================================================================== arrays

/-- The slots of a value of the type whose arrays are regions of the memory. -/
def Holds (m : Memory) (t : Ty) (xs : Slots) : Prop :=
  ∀ i u x, t.ArrayAt i u → xs[i]? = some x →
    0 ≤ x.toInt ∧ x.toInt + u.words ≤ m.size

/-- The slots of values side by side whose arrays are regions of the memory. -/
def HoldsRow (m : Memory) (ts : List Ty) (xs : Slots) : Prop :=
  ∀ j u, ts[j]? = some u → m.Holds u (xs.drop (Ty.widthOfList (ts.take j)))

/-- A value that memory holds is held part by part. -/
theorem Holds.row {xs : Slots} (h : m.Holds t xs) (hts : t.parts = some ts) :
    m.HoldsRow ts xs := by
  intro j u hu i w x hw hx
  rw [List.getElem?_drop] at hx
  exact h _ w x (.part hts hu hw) hx

/-- So is any part of it. -/
theorem Holds.take {xs : Slots} (h : m.Holds t xs) (n : Nat) :
    m.Holds t (xs.take n) :=
  fun i u x hu hx => h i u x hu (List.getElem?_eq_some_iff.mpr (by
    obtain ⟨hlt, rfl⟩ := List.getElem?_eq_some_iff.mp hx
    rw [List.length_take] at hlt
    exact ⟨by omega, (List.getElem_take ..).symm⟩))

/-- Of types that are held in a row the first is held. -/
theorem HoldsRow.head {xs : Slots} (h : m.HoldsRow (u :: ts) xs) :
    m.Holds u xs := by
  have hzero := h 0 u rfl
  rwa [List.take_zero, Ty.widthOfList, List.drop_zero] at hzero

/-- The others are held behind it. -/
theorem HoldsRow.tail {xs : Slots} (h : m.HoldsRow (u :: ts) xs) :
    m.HoldsRow ts (xs.drop u.width) := by
  intro j w hw
  have hnext := h (j + 1) w hw
  rwa [List.take_succ_cons, Ty.widthOfList, ← List.drop_drop] at hnext

/-- Arrays lie inside a memory of the same size as before. -/
theorem HoldsRow.of_size {xs : Slots} (h : m.HoldsRow ts xs)
    (hsize : m₁.size = m.size) : m₁.HoldsRow ts xs := by
  intro j u hu i w x hw hx
  rw [hsize]
  exact h j u hu i w x hw hx

/-- As does every range. -/
theorem Inside.of_size (h : m.Inside a n) (hsize : m₁.size = m.size) :
    m₁.Inside a n := by
  rw [Inside, hsize]
  exact h

/-- Storing several types in a row succeeds inside memory if storing each does.
-/
theorem storeList_ok (hts : ∀ u ∈ ts, u.Exact)
    (heach : ∀ u ∈ ts, ∀ b (x : Value) (m : Memory), m.Bounded →
      x.slots.length = u.width →
      m.Holds u x.slots → m.Inside b u.words → ∃ m₁, store b u x m = .ok () m₁)
    (hm : m.Bounded) (hwidth : Ty.widthOfList ts < 2 ^ 63)
    (hlen : v.slots.length = Ty.widthOfList ts) (hsrc : m.HoldsRow ts v.slots)
    (h : m.Inside a (Ty.wordsOfList ts)) :
    ∃ m₁, storeList a ts v m = .ok () m₁ := by
  induction ts generalizing a v m with
  | nil => exact ⟨m, by rw [storeList]; rfl⟩
  | cons u us ih =>
      rw [List.forall_mem_cons] at hts heach
      rw [Ty.wordsOfList] at h
      rw [Ty.widthOfList] at hwidth hlen
      obtain ⟨hfirst, -, hrest⟩ := h.split hm
      have hx : (v.slots.take u.width).length = u.width := by
        rw [List.length_take]
        omega
      obtain ⟨m₂, hm₂⟩ := heach.1 a ⟨v.slots.take u.width,
        0⟩ m hm hx (hsrc.head.take _) hfirst
      have hwrote := store_written hts.1 a ⟨v.slots.take u.width, 0⟩ m
      rw [hm₂] at hwrote
      obtain ⟨m₁, hm₁⟩ :=
        ih (v := { v with slots := v.slots.drop u.width }) hts.2 heach.2
        (hwrote.bounded hm) (by omega) (by rw [List.length_drop]; omega)
        (hsrc.tail.of_size hwrote.size) (hrest.of_size hwrote.size)
      refine ⟨m₁, ?_⟩
      rw [storeList_cons, Value.first_slots (by omega) (by omega), sure_bind]
      dsimp only
      rw [bind_run, hm₂]
      dsimp only
      rw [Value.rest_slots (by omega) (by omega), sure_bind]
      dsimp only
      rw [hts.1.size_eq, orFault_some, sure_bind]
      exact hm₁

/-- A value with the slots of its type, and with its arrays in the memory, is
stored wherever there is room for it. -/
theorem store_ok (ht : t.Exact) (hm : m.Bounded) (hwidth : t.width < 2 ^ 63)
    (hlen : v.slots.length = t.width) (hsrc : m.Holds t v.slots)
    (h : m.Inside a t.words) : ∃ m₁, store a t v m = .ok () m₁ := by
  have hget {β : Type} (f : Memory → Storing β) (m : Memory) :
      (EStateM.get >>= f) m = f m m := rfl
  induction ht generalizing a v m with
  | @scalar t whole noArray sized =>
      have ht : t.Exact := .scalar whole noArray sized
      rw [store_scalar whole noArray, hget,
        extent_of_inside ht hm h, answer_bind]
      dsimp only
      rw [range_of_le hm h.1.le h.2, sure_bind]
      exact ⟨_, rfl⟩
  | @array u c elem length fits =>
      have ht : (Ty.array u c).Exact := .array elem length fits
      rw [Ty.width] at hlen
      obtain ⟨src, hslots⟩ := List.length_eq_one_iff.mp hlen
      obtain ⟨hpos, hin⟩ :=
        hsrc 0 (.array u c) src (.here u c) (by rw [hslots]; rfl)
      rw [store_array, hget, extent_of_inside ht hm h, answer_bind]
      dsimp only
      rw [hslots, List.head?_cons, orFault_some, sure_bind]
      dsimp only
      rw [range_of_le hm h.1.le h.2, sure_bind]
      dsimp only
      rw [range_of_le hm hpos hin, sure_bind]
      exact ⟨_, rfl⟩
  | @row t ts parts each fits ih =>
      rw [store_row parts, hget,
        extent_of_inside (.row parts each fits) hm h, answer_bind]
      rw [Ty.width_of_parts parts] at hwidth hlen
      rw [Ty.words_of_parts parts] at h
      refine storeList_ok each (fun u hu b x m hm hx hsrc h =>
        ih u hu hm ?_ hx hsrc h) hm hwidth hlen
        (hsrc.row parts) h
      exact lt_of_le_of_lt (Ty.width_le_widthOfList hu) hwidth

/-- A success is one for the first type and one for the others, behind its
words. -/
theorem storeList_cons_ok (hu : u.Exact)
    (h : storeList a (u :: ts) v m = .ok () m₁) :
    ∃ x m₂ rest, store a u x m = .ok () m₂
      ∧ storeList (a + Int64.ofNat u.words) ts rest m₂ = .ok () m₁ := by
  rw [storeList] at h
  simp only [bind_ok_iff, sure_ok_iff, orFault_eq_ok, hu.size_eq,
    Option.some.injEq] at h
  obtain ⟨x, _, ⟨-, rfl⟩, y, m₂, hm₂, rest, _, ⟨-, rfl⟩, _, _,
      ⟨rfl, rfl⟩, hrest⟩ := h
  exact ⟨x, _, rest, hm₂, hrest⟩

/-- And it shows that the row lies inside memory. -/
theorem storeList_inside (hts : ∀ u ∈ ts, u.Exact)
    (heach : ∀ u ∈ ts, ∀ b x (m m₁ : Memory), m.Bounded →
      store b u x m = .ok () m₁ →
      m.Inside b u.words)
    (hm : m.Bounded) (h : storeList a ts v m = .ok () m₁) :
    Ty.wordsOfList ts = 0 ∨ m.Inside a (Ty.wordsOfList ts) := by
  induction ts generalizing a v m with
  | nil => exact Or.inl (by rw [Ty.wordsOfList])
  | cons u us ih =>
      rw [List.forall_mem_cons] at hts heach
      obtain ⟨x, m₂, rest, hm₂, hrest⟩ := storeList_cons_ok hts.1 h
      have hfirst := heach.1 a x m m₂ hm hm₂
      have hwrote := store_written hts.1 a x m
      rw [hm₂] at hwrote
      obtain ⟨-, hnext, -⟩ := Inside.split hm (k := 0) hfirst
      obtain ⟨hpos, hle⟩ := hfirst
      rw [Ty.wordsOfList]
      rcases ih hts.2 heach.2 (hwrote.bounded hm) hrest with hzero | ⟨-, hin⟩
      · rw [hzero]
        exact Or.inr ⟨hpos, hle⟩
      · rw [hnext, hwrote.size] at hin
        exact Or.inr ⟨hpos, by omega⟩

/-- Only what is inside is stored. -/
theorem store_inside (ht : t.Exact) (hm : m.Bounded)
    (h : store a t v m = .ok () m₁) : m.Inside a t.words := by
  have hget {β : Type} (f : Memory → Storing β) (m : Memory) :
      (EStateM.get >>= f) m = f m m := rfl
  -- storage for all words, together with the check, is room in the memory
  have hwhole {t : Ty} (ht : t.Exact) {m : Memory} (hm : m.Bounded)
      {a : Int64} {x : Nat × Nat}
      {e : RunError} (hext : m.extent a t e = .ok (Int64.ofNat t.words))
      (hr : m.range a (a + Int64.ofNat t.words) = .ok x) :
          m.Inside a t.words := by
    obtain ⟨-, hnext, -⟩ := range_words ht.words_lt hr
    rw [extent_exact ht hm, hnext] at hext
    split at hext
    · assumption
    · cases hext
  induction ht generalizing a v m m₁ with
  | @scalar t whole noArray sized =>
      have ht : t.Exact := .scalar whole noArray sized
      rw [store_scalar whole noArray, hget] at h
      simp only [bind_ok_iff, answer_ok_iff, sure_ok_iff] at h
      obtain ⟨c, _, ⟨hext, -⟩, x, _, ⟨hr, -⟩, -⟩ := h
      obtain ⟨-, rfl⟩ := extent_words ht hext
      exact hwhole ht hm hext hr
  | @array u c elem length fits =>
      have ht : (Ty.array u c).Exact := .array elem length fits
      rw [store_array, hget] at h
      simp only [bind_ok_iff, answer_ok_iff, sure_ok_iff] at h
      obtain ⟨d, _, ⟨hext, -⟩, src, _, -, x, _, ⟨hr, -⟩, -⟩ := h
      obtain ⟨-, rfl⟩ := extent_words ht hext
      exact hwhole ht hm hext hr
  | @row t ts parts each fits ih =>
      have ht : t.Exact := .row parts each fits
      rw [store_row parts, hget] at h
      simp only [bind_ok_iff, answer_ok_iff] at h
      obtain ⟨c, _, ⟨hext, rfl⟩, hlist⟩ := h
      obtain ⟨hpos, rfl⟩ := extent_words ht hext
      rw [extent_exact ht hm, Ty.words_of_parts parts] at hext
      rw [Ty.words_of_parts parts]
      rcases storeList_inside each (fun u hu b x m m₁ hm h => ih u hu hm h) hm
        hlist with hzero | hin
      · rw [hzero] at hext ⊢
        rw [show Int64.ofNat 0 = 0 from rfl, Int64.add_zero] at hext
        split at hext
        · next hle => exact ⟨hpos, by omega⟩
        · cases hext
      · exact hin

/-- A value without arrays is loaded from where it was stored. -/
theorem load_store_self (hm : m.Bounded) (ht : t.Exact) (hflat : t.Flat)
    (hlen : v.slots.length = t.width) (h : store a t v m = .ok () m₁) :
    ∃ w, m₁.load a t = .ok w ∧ w.slots = v.slots := by
  have hin := store_inside ht hm h
  have hwrote := store_written ht a v m
  rw [h] at hwrote
  obtain ⟨w, hw, hslots⟩ :=
    load_ok_slots ht hflat (hwrote.bounded hm) (hin.of_size hwrote.size)
  refine ⟨w, hw, ?_⟩
  obtain ⟨hpos, hle⟩ := hin
  have hlimit := hm.limit
  rw [← ofNat_toNat_of_nonneg hpos.le] at h
  rw [hslots, store_eq_write hflat hm (by omega) hlen h, ← hlen]
  exact read_write_self _ _ _

-- ================================================================== result

/-- Storing a value of a type whose words are counted exactly. The value has the
slots of the type, and its arrays are regions of the memory; the memory is one
that there can be. The store goes through exactly where all words are inside the
memory. Where they are not, the error names the access and nothing has changed,
unless the addresses wrap. In any case only words of the type have changed.
After a store that went through, a value without arrays is loaded as it was
stored, and what is loaded from other words is loaded as before. -/
theorem store_local (hm : m.Bounded) (ht : t.Exact) (hwidth : t.width < 2 ^ 63)
    (hlen : v.slots.length = t.width) (hsrc : m.Holds t v.slots) (a : Int64) :
    ((∃ m₁, store a t v m = .ok () m₁) ↔ m.Inside a t.words)
    ∧ (¬ m.Inside a t.words → a.toInt + t.words < 2 ^ 63 →
      store a t v m = .error (.fail (.storeBounds a t)) m)
    ∧ Written m a.toInt.toNat t.words (left (store a t v m))
    ∧ ∀ m₁, store a t v m = .ok () m₁ →
      (t.Flat → ∃ w, m₁.load a t = .ok w ∧ w.slots = v.slots)
      ∧ ∀ u b, u.Exact →
        (b.toInt + u.words ≤ a.toInt ∨ a.toInt + t.words ≤ b.toInt) →
        m₁.load b u = m.load b u := by
  refine ⟨⟨fun ⟨m₁, h⟩ => store_inside ht hm h,
    store_ok ht hm hwidth hlen hsrc⟩,
    fun hout hfits => store_of_extent_error
    (extent_of_not_inside ht hm hout hfits _) v,
    store_written ht a v m, fun m₁ h => ?_⟩
  have hin := store_inside ht hm h
  have hwrote := store_written ht a v m
  rw [h] at hwrote
  refine ⟨fun hflat => load_store_self hm ht hflat hlen h,
    fun u b hu hapart => ?_⟩
  refine load_congr hu ⟨hwrote.size, hwrote.room,
    fun i hle hlt => hwrote.outside i ?_⟩
  have := hin.1
  omega

/-- Eight words, two of them written. -/
def eightWords : Memory := Memory.write { size := 8, room := 8 } 1 [11, 12]

/-- A word and the array that those two are, stored behind them. -/
theorem store_local_eightWords :
    eightWords.Bounded ∧ (Ty.tuple [.felt, .array .felt 2]).Exact
    ∧ eightWords.Holds (.tuple [.felt, .array .felt 2]) [9, 1]
    ∧ ∃ m₁, store 4 (.tuple [.felt, .array .felt 2]) ⟨[9, 1],
        0⟩ eightWords = .ok () m₁
      ∧ m₁.read 4 3 = [9, 11, 12] ∧ m₁.load 1 .u32
      = eightWords.load 1 .u32 := by
  have hm : eightWords.Bounded := ⟨by decide, by decide⟩
  have harray : (Ty.array .felt 2).Exact :=
    .array Ty.exact_felt (by decide) (by decide)
  have ht : (Ty.tuple [.felt, .array .felt 2]).Exact :=
    .row rfl (by simp [Ty.exact_felt, harray]) (by decide)
  have hsrc : eightWords.Holds (.tuple [.felt, .array .felt 2]) [9, 1] := by
    intro i u x hu hx
    cases hu with
    | @part _ w _ ts i j parts here inner =>
        cases parts
        cases j with
        | zero =>
            cases here
            cases inner with
            | part parts => cases parts
        | succ j =>
            cases j with
            | zero =>
                cases here
                cases inner with
                | here => cases hx; decide
                | part parts => cases parts
            | succ j => cases here
  obtain ⟨m₁, hstore, hread⟩ :
      ∃ m₁, store 4 (.tuple [.felt, .array .felt 2]) ⟨[9, 1], 0⟩ eightWords
      = .ok () m₁ ∧ m₁.read 4 3 = [9, 11, 12] := ⟨_, rfl, rfl⟩
  have hlocal := store_local hm ht (by decide) (v := ⟨[9, 1], 0⟩) rfl hsrc 4
  exact ⟨hm, ht, hsrc, m₁, hstore, hread, (hlocal.2.2.2 m₁ hstore).2 .u32 1
    Ty.exact_u32 (Or.inl (by decide))⟩

end Memory

end MirBackend.Interp
