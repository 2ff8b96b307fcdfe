/-
How many slots a type that is read can have.

Every form of a type is written with at least as many bytes as it has slots of
its own, and what its parts have is written in the parts. So a type that is read
has no more slots than bytes were taken for it (`type_width_le`): what the rules
have gathered so far and what they leave together never exceed what they were
given (`Spends`). An input is shorter than 2^63 bytes wherever there is one, and
then the parts of the tuples and structs that are read in it fill their slots in
order, with no bound on the types (`type_tiles`).
-/
import Mathlib
import MirBackend.Proofs.Offsets
import MirBackend.Proofs.Source.Bounds

namespace MirBackend.Source

open Text

variable {α β : Type} {s s' : List UInt8} {b n : Nat}
  {p : Scan α} {k : α → Scan β} {size : α → Nat} {size' : β → Nat}

-- ================================================================ judgement

/-- What the scanner answers with and the bytes it leaves are within `b`
together. -/
def Spends (s : List UInt8) (b : Nat) (p : Scan α) (size : α → Nat) : Prop :=
  ∀ a s', p s = .ok (a, s') → size a + s'.length ≤ b

namespace Spends

-- The judgement for what scanners are made of.
theorem bind (h : ∀ a s', p s = .ok (a, s') → Spends s' b (k a) size') :
    Spends s b (p >>= k) size' := by
  intro c s' hc
  obtain ⟨a, s₁, ha, hc⟩ := scan_bind_eq_ok.mp hc
  exact h a s₁ ha c s' hc

theorem pure {a : α} (h : size a + s.length ≤ b) :
    Spends s b (pure a) size := by
  intro a' s' ha
  obtain ⟨rfl, rfl⟩ := scan_pure_eq_ok.mp ha
  exact h

theorem fail {left : List UInt8} {e : ReadError} :
    Spends s b (failAt left e : Scan α) size :=
  fun _ _ h => absurd h failAt_ne_ok

theorem mono {b' : Nat} (h : Spends s b p size) (hb : b ≤ b') :
    Spends s b' p size :=
  fun a s' ha => Nat.le_trans (h a s' ha) hb

theorem set {t : List UInt8} {k : Unit → Scan β} (h : Spends t b (k ()) size') :
    Spends s b (set t >>= k) size' :=
  bind fun a s' ha => by cases ha; exact h

/-- Behind a scanner whose answer takes no slots. -/
theorem behind (hp : Within s s n p)
    (h : ∀ a s', s'.length + n ≤ s.length → Spends s' b (k a) size') :
    Spends s b (p >>= k) size' :=
  bind fun a s' ha => h a s' (hp.shorter ha)

/-- A comma before an item, unless it is the first. -/
theorem separated {first : Bool} {k : Unit → Scan β}
    (h : ∀ s', s'.length ≤ s.length → Spends s' b (k ()) size') :
    Spends s b (if (!first) = true then token "," >>= k else k ()) size' := by
  split
  · exact behind (token_within List.suffix_rfl ",") fun _ s' hs' => h s' hs'
  · exact h s (Nat.le_refl _)

end Spends

-- ==================================================================== types

/-- The slots of fields that were read. -/
def fieldsWidth (fs : List (String × Ty)) : Nat := Ty.widthOfList (fs.map (·.2))

theorem widthOfFields_place (off : Int64) (fs : List (String × Ty)) :
    Ty.widthOfFields (Record.place off fs) = fieldsWidth fs := by
  induction fs generalizing off with
  | nil => rfl
  | cons f fs ih => rw [Record.place, Ty.widthOfFields, ih, fieldsWidth,
      fieldsWidth, List.map_cons, Ty.widthOfList]

/-- Where its fields lie is no matter to the slots of a struct. -/
theorem width_make (name : String) (fs : List (String × Ty)) :
    (Record.make name fs).toTy.width = fieldsWidth fs := by
  rw [Record.toTy, Ty.width]
  exact widthOfFields_place 0 fs

/-- A field more adds its slots. -/
theorem fieldsWidth_concat (fs : List (String × Ty)) (name : String) (t : Ty) :
    fieldsWidth (fs ++ [(name, t)]) = fieldsWidth fs + t.width := by
  rw [fieldsWidth, List.map_append, Ty.widthOfList_append,
    List.map_singleton, Ty.widthOfList, Ty.widthOfList, Nat.add_zero]
  rfl

/-- The rules of types answer with no more slots than they take bytes, with any
number of turns. -/
structure TypesSpend (fuel : Nat) : Prop where
  type : ∀ s, Spends s s.length (typeWith fuel) Ty.width
  elems : ∀ s ts comma, Spends s (Ty.widthOfList ts + s.length)
    (elemsWith fuel ts comma)
    fun r => Ty.widthOfList r.1
  record : ∀ s name, Spends s s.length (recordWith fuel name)
    fun r => r.toTy.width
  fields : ∀ s fs, Spends s (fieldsWidth fs + s.length)
    (fieldsWith fuel fs) fieldsWidth

/-- A word that is read as a type was there in full. -/
theorem afterName_spends {fuel : Nat} (h : TypesSpend fuel)
    {front : List UInt8} {name : String} (hname : isName name = true) :
    Spends s ((bytesOf name).length + s.length)
      (afterName fuel front (some name)) Ty.width := by
  have hword : 0 < (bytesOf name).length := (opens_name hname).length_pos
  unfold afterName
  split
  · rename_i heq
    cases heq
  · rename_i heq
    cases heq
    exact .pure (by rw [Ty.width]; omega)
  · rename_i heq
    cases heq
    exact .pure (by rw [Ty.width]; omega)
  · rename_i heq
    cases heq
    rw [show bytesOf "u32" = [0x75, 0x33, 0x32] from bytesOf_ofList _]
    exact .pure (Nat.add_le_add_right (by rw [Ty.width]; decide) _)
  · rename_i heq
    cases heq
    refine .behind (token_within List.suffix_rfl "(") fun _ s₁ h₁ => ?_
    refine .behind ((typesWithin s₁ fuel).list s₁ List.suffix_rfl [])
      fun ps s₂ h₂ => ?_
    refine .behind (token_within List.suffix_rfl "->") fun _ s₃ h₃ => ?_
    refine .behind (token_within List.suffix_rfl "(") fun _ s₄ h₄ => ?_
    refine .behind ((typesWithin s₄ fuel).list s₄ List.suffix_rfl [])
      fun rs s₅ h₅ => ?_
    exact .pure (by rw [Ty.width]; omega)
  · rename_i heq
    cases heq
    refine .bind fun left s₁ hleft => ?_
    cases hleft
    split
    · refine .bind fun r s₂ hr => .pure ?_
      have hrecord : r.toTy.width + s₂.length ≤ s.length := h.record _ _ _ _ hr
      omega
    · exact .fail

/-- A form takes the byte that tells it, and hands what is left to its parts;
what they take is theirs. -/
theorem typeWith_spends {fuel : Nat} (h : TypesSpend fuel) (s : List UInt8) :
    Spends s s.length (typeWith (fuel + 1)) Ty.width := by
  -- blanks before the type only make more room
  have hskip := skipped_length_le s
  intro t s' ht
  rw [typeWith_succ] at ht
  refine Nat.le_trans ?_ hskip
  revert t s'
  show Spends (skipped s) (skipped s).length _ Ty.width
  split
  · exact .fail
  · rename_i front hfront
    rw [hfront, List.length_cons]
    exact .set (.pure (by rw [Ty.width]; omega))
  · rename_i front hfront
    rw [hfront, List.length_cons]
    refine .set (.bind fun u s₁ hu => .pure ?_)
    have htype : u.width + s₁.length ≤ front.length := h.type _ _ _ hu
    rw [Ty.width]
    omega
  · rename_i front hfront
    rw [hfront, List.length_cons]
    refine .set (.behind ((typesWithin front fuel).type front List.suffix_rfl)
      fun u s₁ h₁ => ?_)
    refine .behind (token_within List.suffix_rfl ";") fun _ s₂ h₂ => ?_
    refine .behind (arrayLength_within List.suffix_rfl) fun m s₃ h₃ => ?_
    refine .behind (token_within List.suffix_rfl "]") fun _ s₄ h₄ => ?_
    exact .pure (by rw [Ty.width]; omega)
  · rename_i front hfront
    rw [hfront, List.length_cons]
    refine .set (.behind (closes_within List.suffix_rfl ")")
      fun closed s₁ h₁ => ?_)
    split
    · exact .pure (by rw [Ty.width]; omega)
    · refine .bind fun r s₂ hr => ?_
      have helems : Ty.widthOfList r.1 + s₂.length ≤ s₁.length := by
        simpa [Ty.widthOfList] using h.elems _ _ _ _ _ hr
      split
      · rename_i u
        rw [Ty.widthOfList, Ty.widthOfList] at helems
        exact .pure (by omega)
      · refine .pure ?_
        rw [Ty.width]
        dsimp only at helems
        omega
  · refine .bind fun r s₁ hr => .pure ?_
    exact h.record _ _ _ _ hr
  · refine .bind fun o s₁ ho => ?_
    cases o with
    | none => exact .fail
    | some name =>
        obtain ⟨hname, hread⟩ := ident_reads (attempt_eq_some ho)
        have hskipped := skipped_length_le (skipped s)
        rw [hread, List.length_append] at hskipped
        exact (afterName_spends h hname).mono hskipped

/-- The components of a tuple that were read and those that are still to come. -/
theorem elemsWith_spends {fuel : Nat} (h : TypesSpend fuel) (s : List UInt8)
    (ts : List Ty) (comma : Bool) :
    Spends s (Ty.widthOfList ts + s.length) (elemsWith (fuel + 1) ts comma)
      fun r => Ty.widthOfList r.1 := by
  rw [elemsWith]
  refine .behind (closes_within List.suffix_rfl ")") fun closed s₁ h₁ => ?_
  split
  · exact .pure (Nat.add_le_add_left (by omega) _)
  · split
    · rename_i hempty
      obtain rfl := List.isEmpty_iff.mp hempty
      refine .bind fun t s₂ ht => ?_
      have htype : t.width + s₂.length ≤ s₁.length := h.type _ _ _ ht
      refine (h.elems s₂ [t] comma).mono ?_
      simp only [Ty.widthOfList]
      omega
    · refine .behind (token_within List.suffix_rfl ",") fun _ s₂ h₂ => ?_
      refine .behind (closes_within List.suffix_rfl ")")
        fun closed s₃ h₃ => ?_
      split
      · exact .pure (Nat.add_le_add_left (by omega) _)
      · refine .bind fun t s₄ ht => ?_
        have htype : t.width + s₄.length ≤ s₃.length := h.type _ _ _ ht
        refine (h.elems s₄ (ts ++ [t]) true).mono ?_
        simp only [Ty.widthOfList_append, Ty.widthOfList]
        omega

/-- The braces of a record take no slots. -/
theorem recordWith_spends {fuel : Nat} (h : TypesSpend fuel) (s : List UInt8)
    (name : String) :
    Spends s s.length (recordWith (fuel + 1) name) fun r => r.toTy.width := by
  rw [recordWith]
  refine .behind (token_within List.suffix_rfl "\x7b") fun _ s₁ h₁ => ?_
  refine .bind fun fs s₂ hfs => .pure ?_
  have hfields : fieldsWidth fs + s₂.length ≤ fieldsWidth [] + s₁.length :=
    h.fields _ _ _ _ hfs
  rw [width_make]
  rw [show fieldsWidth [] = 0 from rfl] at hfields
  omega

/-- The fields that were read and those that are still to come; their names take
no slots. -/
theorem fieldsWith_spends {fuel : Nat} (h : TypesSpend fuel) (s : List UInt8)
    (fs : List (String × Ty)) :
    Spends s (fieldsWidth fs + s.length) (fieldsWith (fuel + 1) fs)
      fieldsWidth := by
  rw [fieldsWith]
  refine .behind (closes_within List.suffix_rfl "\x7d") fun closed s₁ h₁ => ?_
  split
  · exact .pure (Nat.add_le_add_left (by omega) _)
  · refine .separated fun s₂ h₂ => ?_
    refine .behind ((ident_within List.suffix_rfl).inPart _)
      fun name s₃ h₃ => ?_
    refine .behind (token_within List.suffix_rfl ":") fun _ s₄ h₄ => ?_
    refine .bind fun t s₅ ht => ?_
    have htype : t.width + s₅.length ≤ s₄.length :=
      h.type _ _ _ (inPart_eq_ok.mp ht)
    refine (h.fields s₅ (fs ++ [(name, t)])).mono ?_
    rw [fieldsWidth_concat]
    omega

/-- By induction on the turns: without any left every rule fails, and one more
turn is spent on one of the four rules. -/
theorem typesSpend (fuel : Nat) : TypesSpend fuel := by
  induction fuel with
  | zero =>
      refine ⟨fun s => ?_, fun s ts comma => ?_,
        fun s name => ?_, fun s fs => ?_⟩
      · rw [typeWith]
        exact .bind fun _ _ _ => .fail
      · rw [elemsWith]
        exact .bind fun _ _ _ => .fail
      · rw [recordWith]
        exact .bind fun _ _ _ => .fail
      · rw [fieldsWith]
        exact .bind fun _ _ _ => .fail
  | succ fuel ih =>
      exact ⟨typeWith_spends ih, elemsWith_spends ih, recordWith_spends ih,
        fieldsWith_spends ih⟩

/-- A type has no more slots than bytes were read for it. -/
theorem type_width_le {t : Ty} (h : type s = .ok (t, s')) :
    t.width + s'.length ≤ s.length := by
  obtain ⟨left, s₁, hleft, h⟩ := scan_bind_eq_ok.mp h
  cases hleft
  exact (typesSpend _).type _ _ _ h

/-- The parts of a tuple or a struct that was read fill its slots in order. -/
theorem type_tiles {t : Ty} (h : type s = .ok (t, s'))
    (hs : s.length < 2 ^ 63) :
    (∀ ts, t = .tuple ts → Tiles (Ty.ranges ts) t.slots.toInt)
    ∧ ∀ name fields, t = .struct name fields →
      Tiles (Record.ranges ⟨name, fields⟩) t.slots.toInt := by
  have hwidth := type_width_le h
  constructor
  · rintro ts rfl
    exact Ty.tiles_tuple ts (by omega)
  · rintro name fields rfl
    cases type_formed h with
    | struct _ _ _ =>
        exact Record.tiles_make name
          _ (Nat.lt_of_le_of_lt (Nat.le_of_add_right_le hwidth) hs)

end MirBackend.Source
