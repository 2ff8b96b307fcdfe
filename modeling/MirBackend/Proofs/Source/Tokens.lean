/-
What scanners take, and that they take what was written.

Of every token two things are said: what a scanner can have read when it answers
(`..._spec`), and that it answers with the token when the token stands at the
front, behind blanks or not, and what follows does not go on with it
(`..._takes`). A letter, a digit or a point would go on with a name or a number;
`Ends` says that none of them follows.
-/
import Mathlib
import MirBackend.Proofs.Outcome
import MirBackend.Proofs.Text.Quoted
import MirBackend.Source.TypeReader

namespace MirBackend.Source

open Text

variable {α β : Type} {s s' rest : List UInt8}

-- =============================================================== sequences

/-- Scanners in turn succeed if both do, the second one on what the first one
left. Every statement about what a scanner answers is taken apart with this. -/
theorem scan_bind_eq_ok {x : Scan α} {k : α → Scan β} {b : β} :
    (x >>= k) s = .ok (b, s') ↔ ∃ a s₁, x s = .ok (a, s₁)
      ∧ k a s₁ = .ok (b, s') := by
  show (x s >>= fun y => k y.1 y.2) = _ ↔ _
  rw [bind_eq_ok]
  exact ⟨fun ⟨⟨a, s₁⟩, h₁, h₂⟩ => ⟨a, s₁, h₁, h₂⟩,
    fun ⟨a, s₁, h₁, h₂⟩ => ⟨(a, s₁), h₁, h₂⟩⟩

/-- A step that answers hands on what it left. -/
theorem scan_bind_of_ok {x : Scan α} {k : α → Scan β} {a : α} {s₁ : List UInt8}
    (h : x s = .ok (a, s₁)) : (x >>= k) s = k a s₁ := by
  show (x s >>= fun y => k y.1 y.2) = _
  rw [h]
  rfl

theorem scan_pure_eq_ok {a b : α} : (pure a : Scan α) s = .ok (b, s')
    ↔ a = b ∧ s = s' := by
  show Except.ok (a, s) = Except.ok (b, s') ↔ _
  rw [Except.ok.injEq, Prod.mk.injEq]

/-- A scanner that fails does not answer. -/
theorem failAt_ne_ok {left : List UInt8} {e : ReadError} {x : α × List UInt8} :
    (failAt left e : Scan α) s ≠ .ok x := fun h => by cases h

/-- Naming the part in errors does not change what is answered. -/
theorem inPart_eq_ok {part : String} {p : Scan α} {x : α × List UInt8} :
    inPart part p s = .ok x ↔ p s = .ok x := by
  unfold inPart
  cases p s with
  | ok r => rfl
  | error e => simp

theorem attempt_of_ok {p : Scan α} {a : α} (h : p s = .ok (a, s')) :
    attempt p s = .ok (some a, s') := by
  rw [attempt, h]

/-- An attempt that fails gives nothing back and takes nothing: the input is
that from before. -/
theorem attempt_of_error {p : Scan α} {e : Failure} (h : p s = .error e) :
    attempt p s = .ok (none, s) := by
  rw [attempt, h]

/-- An attempt that gives an answer is the answer of the scanner. -/
theorem attempt_eq_some {p : Scan α} {a : α}
    (h : attempt p s = .ok (some a, s')) : p s = .ok (a, s') := by
  unfold attempt at h
  split at h
  · rename_i hp
    cases h
    exact hp
  · cases h

-- =================================================================== bytes

/-- A fact about bytes is one about the numbers below 256. -/
theorem byte_forall {P : UInt8 → Prop} (h : ∀ n < 256, P (UInt8.ofNat n))
    (b : UInt8) : P b := by
  have hb := h b.toNat b.toNat_lt
  rwa [UInt8.ofNat_toNat] at hb

-- ================================================================== blanks

/-- A byte that is neither skipped nor begins a comment. -/
def isSolid (b : UInt8) : Bool := !isBlank b && b ≠ 0x0A && b ≠ 0x2F

/-- Nothing is skipped in front of a byte that is no blank and begins no
comment. -/
theorem skipped_of_solid {b : UInt8} (h : isSolid b = true) (s : List UInt8) :
    skipped (b :: s) = b :: s := by
  simp only [isSolid, Bool.and_eq_true, Bool.not_eq_true',
    decide_eq_true_eq] at h
  have hcomment : atComment (b :: s) = false := by
    unfold atComment
    split
    · rename_i heq
      cases heq
      exact absurd rfl h.2
    · rfl
  rw [skipped]
  simp [h.1.1, h.1.2, hcomment]

@[simp] theorem skipped_space (s : List UInt8) :
    skipped (0x20 :: s) = skipped s := by
  rw [skipped]
  simp [isBlank]

@[simp] theorem skipped_tab (s : List UInt8) :
    skipped (0x09 :: s) = skipped s := by
  rw [skipped]
  simp [isBlank]

@[simp] theorem skipped_line (s : List UInt8) :
    skipped (0x0A :: s) = skipped s := by
  rw [skipped]
  simp

/-- A byte that goes on with a name. -/
def goesOn (b : UInt8) : Bool := isLetter b || isDigit b || b = 0x2E

/-- What follows does not go on with a name or a number. -/
def Ends (rest : List UInt8) : Prop :=
  rest.head?.all (fun b => !goesOn b) = true

/-- A byte that goes on with no name and no number ends both. -/
theorem ends_cons {b : UInt8} (h : goesOn b = false) (s : List UInt8) :
    Ends (b :: s) := by
  simp [Ends, h]

-- ============================================================ fixed tokens

/-- What stands behind a token that is there. -/
theorem after?_append (t rest : List UInt8) :
    after? t (t ++ rest) = some rest := by
  induction t with
  | nil => rfl
  | cons b t ih => rw [List.cons_append, after?, if_pos rfl, ih]

/-- A token is not there if its first byte is not. -/
theorem after?_of_ne {b c : UInt8} (h : b ≠ c) (t s : List UInt8) :
    after? (b :: t) (c :: s) = none := by
  rw [after?, if_neg h]

/-- A token is looked for behind the blanks, and errors are placed there. -/
theorem token_eq (t : String) (s : List UInt8) :
    token t s = (match after? (bytesOf t) (skipped s) with
    | some s => set s
    | none => failAt (skipped s) (.expected t) : Scan Unit) (skipped s) := rfl

/-- A token is taken where it stands. -/
theorem token_takes {t : String} (h : skipped s = bytesOf t ++ rest) :
    token t s = .ok ((), rest) := by
  rw [token_eq, h, after?_append]
  rfl

/-- Another text in its place is an error, wherever it is placed. -/
theorem token_fails {t : String} (h : after? (bytesOf t) (skipped s) = none) :
    ∃ e, token t s = .error e := by
  have heq := token_eq t s
  rw [h] at heq
  exact ⟨_, heq⟩

/-- A closing token is seen and taken. -/
theorem closes_takes {t : String} (h : skipped s = bytesOf t ++ rest) :
    closes t s = .ok (true, rest) := by
  rw [closes, scan_bind_of_ok (attempt_of_ok (token_takes h))]
  rfl

/-- Without the closing token nothing is taken, not even the blanks. -/
theorem closes_fails {t : String} (h : after? (bytesOf t) (skipped s) = none) :
    closes t s = .ok (false, s) := by
  obtain ⟨e, he⟩ := token_fails h
  rw [closes, scan_bind_of_ok (attempt_of_error he)]
  rfl

/-- A keyword is a token with no letter and no digit behind it. -/
theorem keyword_eq (t : String) (s : List UInt8) :
    keyword t s = (match after? (bytesOf t) (skipped s) with
      | none => failAt (skipped s) (.expected t)
      | some rest =>
          if rest.head?.any fun b => isLetter b || isDigit b then failAt
            (skipped s) (.expected t)
          else set rest : Scan Unit) (skipped s) := rfl

/-- A keyword is taken where it stands alone. -/
theorem keyword_takes {t : String} (h : skipped s = bytesOf t ++ rest)
    (hrest : Ends rest) : keyword t s = .ok ((), rest) := by
  have hnone : (rest.head?.any fun b => isLetter b || isDigit b) = false := by
    cases rest with
    | nil => rfl
    | cons b rest =>
        simp only [Ends, goesOn, List.head?_cons, Option.all_some,
          Bool.not_eq_true', Bool.or_eq_false_iff] at hrest
        simp [hrest.1.1, hrest.1.2]
  rw [keyword_eq, h, after?_append]
  dsimp only
  rw [if_neg (by rw [hnone]; decide)]
  rfl

/-- Another text in the place of a keyword is an error. -/
theorem keyword_fails {t : String} (h : after? (bytesOf t) (skipped s) = none) :
    ∃ e, keyword t s = .error e := by
  have heq := keyword_eq t s
  rw [h] at heq
  exact ⟨_, heq⟩

-- =================================================================== names

/-- Whether a text is a name: a letter or underscore, then letters, digits and
points. -/
def isName (n : String) : Bool := match bytesOf n with
  | [] => false
  | b :: bs => isLetter b && bs.all goesOn

/-- The bytes of a name, taken apart. -/
theorem isName_iff {n : String} :
    isName n = true ↔ ∃ b bs, bytesOf n = b :: bs ∧ isLetter b = true
        ∧ ∀ c ∈ bs, goesOn c = true := by
  unfold isName
  cases bytesOf n with
  | nil => simp
  | cons b bs => simp

/-- Blanks in front of a name end where it begins. -/
theorem solid_of_isLetter {b : UInt8} : isLetter b = true → isSolid b = true :=
  byte_forall (P := fun b => isLetter b = true →
    isSolid b = true) (by decide +kernel) b

/-- Names and numbers are written in single bytes. -/
theorem lt_of_goesOn {b : UInt8} : goesOn b = true → b < 0x80 :=
  byte_forall (P := fun b => goesOn b = true → b < 0x80) (by decide +kernel) b

/-- Single bytes make a text of the same bytes, so that no name is changed by
reading it as text. -/
theorem bytesOf_asciiText {bs : List UInt8} (h : ∀ b ∈ bs, b < 0x80) :
    bytesOf (asciiText bs) = bs := by
  rw [asciiText, bytesOf_ofList, List.flatMap_map]
  induction bs with
  | nil => rfl
  | cons b bs ih =>
      rw [List.flatMap_cons, encodeChar_ofNat (h b List.mem_cons_self),
        ih fun c hc => h c (List.mem_cons_of_mem _ hc)]
      rfl

/-- What follows a row of bytes that pass a test. -/
theorem span_append {p : UInt8 → Bool} {bs rest : List UInt8}
    (hbs : ∀ b ∈ bs, p b = true)
    (hrest : rest.head?.all (fun b => !p b) = true) :
    (bs ++ rest).takeWhile p = bs ∧ (bs ++ rest).dropWhile p = rest := by
  have hstop : rest.takeWhile p = [] ∧ rest.dropWhile p = rest := by
    cases rest with
    | nil => exact ⟨rfl, rfl⟩
    | cons b rest =>
        have hb : p b = false := by simpa using hrest
        exact ⟨List.takeWhile_cons_of_neg (by simp [hb]),
          List.dropWhile_cons_of_neg (by simp [hb])⟩
  refine ⟨?_, ?_⟩
  · rw [List.takeWhile_append_of_pos hbs, hstop.1, List.append_nil]
  · rw [List.dropWhile_append_of_pos hbs, hstop.2]

/-- A name is read behind the blanks: a letter, and then as much as goes on. -/
theorem ident_eq (s : List UInt8) : ident s = (match skipped s with
    | [] => failAt [] .identExpected
    | b :: s =>
        if isLetter b then do
          set (s.dropWhile goesOn)
          return asciiText (b :: s.takeWhile goesOn)
        else failAt (b :: s) .identExpected : Scan String) (skipped s) := by
  show (match skipped s with | [] => _ | b :: s => _ : Scan String) (skipped s)
    = _
  cases skipped s <;> rfl

/-- A name is taken as a whole, up to where it ends. -/
theorem ident_takes {n : String} (hn : isName n = true)
    (h : skipped s = bytesOf n ++ rest) (hrest : Ends rest) :
    ident s = .ok (n, rest) := by
  obtain ⟨b, bs, hbytes, hb, hbs⟩ := isName_iff.mp hn
  obtain ⟨htake, hdrop⟩ := span_append hbs hrest
  have hname : asciiText (b :: bs) = n := by
    apply bytesOf_injective
    rw [bytesOf_asciiText, hbytes]
    intro c hc
    rcases List.mem_cons.mp hc with rfl | hc
    · exact lt_of_goesOn (by simp [goesOn, hb])
    · exact lt_of_goesOn (hbs c hc)
  rw [ident_eq, h, hbytes, List.cons_append]
  dsimp only
  rw [if_pos hb, htake, hdrop, hname]
  rfl

/-- What is read as a name is one, and it is what stood there. -/
theorem ident_reads {n : String} (h : ident s = .ok (n, s')) :
    isName n = true ∧ skipped s = bytesOf n ++ s' := by
  rw [ident_eq] at h
  cases hs : skipped s with
  | nil =>
      rw [hs] at h
      cases h
  | cons b t =>
      rw [hs] at h
      dsimp only at h
      split at h
      · rename_i hb
        cases h
        have hmore : ∀ c ∈ t.takeWhile goesOn, goesOn c = true := fun c hc =>
          List.mem_takeWhile_imp hc
        have hbytes : bytesOf (asciiText (b :: t.takeWhile goesOn))
            = b :: t.takeWhile goesOn := by
          refine bytesOf_asciiText fun c hc => ?_
          rcases List.mem_cons.mp hc with rfl | hc
          · exact lt_of_goesOn (by simp [goesOn, hb])
          · exact lt_of_goesOn (hmore c hc)
        refine ⟨isName_iff.mpr ⟨b, t.takeWhile goesOn, hbytes, hb, hmore⟩, ?_⟩
        rw [hbytes, List.cons_append, List.takeWhile_append_dropWhile]
      · cases h

/-- What is read as a name is one. -/
theorem ident_spec {n : String} (h : ident s = .ok (n, s')) : isName n = true :=
  (ident_reads h).1

/-- The same for an attempt at a name. -/
theorem attempt_ident_spec {n : String}
    (h : attempt ident s = .ok (some n, s')) :
    isName n = true := ident_spec (attempt_eq_some h)

/-- A name is read behind nothing that is skipped. -/
theorem skipped_name {n : String} (hn : isName n = true) (rest : List UInt8) :
    skipped (bytesOf n ++ rest) = bytesOf n ++ rest := by
  obtain ⟨b, bs, hbytes, hb, -⟩ := isName_iff.mp hn
  rw [hbytes]
  exact skipped_of_solid (solid_of_isLetter hb) _

-- ================================================================= numbers

/-- Blanks in front of a number end where it begins. -/
theorem solid_of_isDigit {b : UInt8} : isDigit b = true → isSolid b = true :=
  byte_forall (P := fun b => isDigit b = true →
    isSolid b = true) (by decide +kernel) b

/-- Decimal digits are read as the number they write. -/
theorem digits_repr (n : Nat) : bytesOf (toString n) ≠ []
    ∧ (∀ b ∈ bytesOf (toString n), isDigit b = true)
    ∧ digitsValue (bytesOf (toString n)) = n := by
  have hdigit : ∀ c ∈ Nat.toDigits 10 n, 48 ≤ c.toNat ∧ c.toNat ≤ 57 := by
    intro c hc
    have h := Nat.isDigit_of_mem_toDigits (by omega) (by omega) hc
    simp only [Char.isDigit, Bool.and_eq_true, decide_eq_true_eq, ge_iff_le,
      UInt32.le_iff_toNat_le] at h
    exact h
  have hbyte : ∀ c ∈ Nat.toDigits 10 n,
      (UInt8.ofNat c.toNat).toNat = c.toNat := by
    intro c hc
    exact UInt8.toNat_ofNat_of_lt' (lt_of_le_of_lt (hdigit c hc).2 (by decide))
  have htext : bytesOf (toString n) = (Nat.toDigits 10 n).map fun c =>
      UInt8.ofNat c.toNat := by
    rw [show toString n = String.ofList (Nat.toDigits 10 n) from rfl,
      bytesOf_ofList, List.map_eq_flatMap]
    refine List.flatMap_congr fun c hc => ?_
    exact encodeChar_of_lt (lt_of_le_of_lt (hdigit c hc).2 (by decide))
  rw [htext]
  refine ⟨?_, ?_, ?_⟩
  · rw [ne_eq, List.map_eq_nil_iff]
    exact List.ne_nil_of_length_pos Nat.length_toDigits_pos
  · intro b hb
    obtain ⟨c, hc, rfl⟩ := List.mem_map.mp hb
    have := hdigit c hc
    have hval := hbyte c hc
    simp only [isDigit, UInt8.le_iff_toNat_le, decide_eq_true_eq, hval]
    exact this
  · have hvalue : ∀ (cs : List Char) (acc : Nat),
        (∀ c ∈ cs, (UInt8.ofNat c.toNat).toNat = c.toNat) →
        (cs.map fun c => UInt8.ofNat c.toNat).foldl
          (fun n d => n * 10 + (d.toNat - 0x30)) acc
          = Nat.ofDigitChars 10 cs acc := by
      intro cs
      induction cs with
      | nil => exact fun _ _ => rfl
      | cons c cs ih =>
          intro acc hcs
          rw [List.map_cons, List.foldl_cons, hcs c List.mem_cons_self,
            Nat.ofDigitChars_cons,
            ih _ fun d hd => hcs d (List.mem_cons_of_mem _ hd), Nat.mul_comm]
          rfl
    rw [digitsValue, hvalue _ _ hbyte]
    exact Nat.ofDigitChars_toDigits (by omega) (by omega)

/-- The sign of a number and what follows it. -/
def signed : List UInt8 → Bool × List UInt8
  | 0x2D :: s => (true, s)
  | s => (false, s)

/-- A number is read behind the blanks: a sign, the digits, and the check that
it fits 64 bits. -/
theorem number_eq (s : List UInt8) : number s = (
    let ds := (signed (skipped s)).2.takeWhile isDigit
    if ds.isEmpty then failAt (skipped s) .numberExpected
    else
      let n : Int := if (signed (skipped s)).1 then -(digitsValue ds :
        Int) else digitsValue ds
      if -9223372036854775808 ≤ n ∧ n < 9223372036854775808 then do
        set ((signed (skipped s)).2.dropWhile isDigit)
        return n
      else failAt (skipped s)
        (.numberRange ((if (signed (skipped s)).1 then "-"
        else "") ++ asciiText ds))
      : Scan Int) (skipped s) := by
  rfl

/-- What is read as a number fits 64 bits. -/
theorem number_spec {n : Int} (h : number s = .ok (n, s')) :
    -9223372036854775808 ≤ n ∧ n < 9223372036854775808 := by
  rw [number_eq] at h
  generalize signed (skipped s) = parts at h
  obtain ⟨sign, unsigned⟩ := parts
  by_cases hempty : (unsigned.takeWhile isDigit).isEmpty = true
  · simp only [hempty, if_true] at h
    cases h
  · simp only [hempty, Bool.false_eq_true, if_false] at h
    generalize (if sign = true
      then -(digitsValue (unsigned.takeWhile isDigit) : Int)
      else digitsValue (unsigned.takeWhile isDigit)) = value at h
    by_cases hrange : -9223372036854775808 ≤ value ∧ value < 9223372036854775808
    · rw [if_pos hrange] at h
      cases h
      exact hrange
    · rw [if_neg hrange] at h
      cases h

/-- The written form of a negative number is that of a natural one behind a
minus. -/
theorem toString_negSucc (n : Nat) :
    toString (Int.negSucc n) = "-" ++ toString (n + 1) := rfl

/-- The digits of a number end where no digit follows. -/
theorem ends_digits (h : Ends rest) :
    rest.head?.all (fun b => !isDigit b) = true := by
  cases rest with
  | nil => rfl
  | cons b rest =>
      simp only [Ends, goesOn, List.head?_cons, Option.all_some,
        Bool.not_eq_true', Bool.or_eq_false_iff] at h
      simp [h.1.2]

/-- A number is taken where it stands, if it fits. -/
theorem number_takes {n : Int}
    (hn : -9223372036854775808 ≤ n ∧ n < 9223372036854775808)
    (h : skipped s = bytesOf (toString n) ++ rest) (hrest : Ends rest) :
    number s = .ok (n, rest) := by
  have hsign : bytesOf "-" = [0x2D] := bytesOf_ofList _
  -- the digits of a natural number, behind its sign
  have hdigits (m : Nat) (sign : Bool) (hs :
      signed (skipped s) = (sign, bytesOf (toString m) ++ rest))
      (hvalue : n = if sign then -(m : Int) else m) :
          number s = .ok (n, rest) := by
    obtain ⟨hne, hall, hm⟩ := digits_repr m
    obtain ⟨htake, hdrop⟩ := span_append hall (ends_digits hrest)
    have hempty : (bytesOf (toString m)).isEmpty = false := by
      rw [List.isEmpty_eq_false_iff]
      exact hne
    rw [number_eq, hs]
    simp only [htake, hdrop, hempty, Bool.false_eq_true, if_false, hm, ← hvalue,
      hn, and_self, if_true]
    rfl
  cases n with
  | ofNat m =>
      refine hdigits m false ?_ rfl
      have htext : skipped s = bytesOf (toString m) ++ rest := h
      rw [htext]
      obtain ⟨hne, hall, -⟩ := digits_repr m
      obtain ⟨b, bs, hb⟩ := List.exists_cons_of_ne_nil hne
      rw [hb, List.cons_append]
      have hdigit := hall b (by rw [hb]; exact List.mem_cons_self)
      unfold signed
      split
      · rename_i heq
        cases heq
        exact absurd hdigit (by decide)
      · rfl
  | negSucc m =>
      refine hdigits (m + 1) true ?_ ?_
      · rw [h, toString_negSucc, bytesOf_append, hsign]
        rfl
      · rw [if_pos rfl]
        rfl

/-- The written form of a number begins with its sign or a digit. -/
theorem number_head (n : Int) : ∃ b bs, bytesOf (toString n) = b :: bs
    ∧ (b = 0x2D ∨ isDigit b = true) := by
  cases n with
  | ofNat m =>
      obtain ⟨hne, hall, -⟩ := digits_repr m
      obtain ⟨b, bs, hb⟩ := List.exists_cons_of_ne_nil hne
      exact ⟨b, bs, hb, .inr (hall b (by rw [hb]; exact List.mem_cons_self))⟩
  | negSucc m =>
      refine ⟨0x2D, bytesOf (toString (m + 1)), ?_, .inl rfl⟩
      rw [toString_negSucc, bytesOf_append,
        show bytesOf "-" = [0x2D] from bytesOf_ofList _]
      rfl

/-- No blanks are skipped in front of a number. -/
theorem skipped_number (n : Int) (rest : List UInt8) :
    skipped (bytesOf (toString n) ++ rest) = bytesOf (toString n) ++ rest := by
  obtain ⟨b, bs, hbytes, hb⟩ := number_head n
  have hsolid : isSolid b = true := by
    rcases hb with rfl | hb
    · decide
    · exact solid_of_isDigit hb
  rw [hbytes]
  exact skipped_of_solid hsolid _

-- ======================================================== values and blocks

/-- What is read as the number of an id is not negative and fits 63 bits. -/
theorem idNumber_spec {left : List UInt8} {e : ReadError} {n : Int}
    (h : idNumber left e s = .ok (n, s')) : 0 ≤ n ∧ n < 2 ^ 63 := by
  unfold idNumber at h
  split at h
  · rename_i k t hk
    split at h
    · cases h
    · cases h
      have := number_spec hk
      omega
  · cases h

/-- The number of an id is taken where it stands. -/
theorem idNumber_takes {left : List UInt8} {e : ReadError} {n : Int}
    (hn : 0 ≤ n ∧ n < 2 ^ 63) (hrest : Ends rest) :
    idNumber left e (bytesOf (toString n) ++ rest) = .ok (n, rest) := by
  rw [idNumber, number_takes (by omega) (skipped_number n rest) hrest]
  exact if_neg (by omega)

/-- Whether a number can be written for a value. -/
def IsValueId (v : ValueId) : Prop := 0 ≤ v.toInt

/-- A value is a percent sign and a number. -/
theorem valueId_eq (s : List UInt8) : valueId s = (match skipped s with
    | 0x25 :: s => do
        set s
        return Int64.ofInt (← idNumber (0x25 :: s) .valueIdExpected)
    | s => failAt s .valueExpected : Scan ValueId) (skipped s) := rfl

/-- What is read as a value can be written as one. -/
theorem valueId_spec {v : ValueId}
    (h : valueId s = .ok (v, s')) : IsValueId v := by
  rw [valueId_eq] at h
  generalize skipped s = front at h
  revert h
  split
  · intro h
    obtain ⟨-, t, ht, h⟩ := scan_bind_eq_ok.mp h
    obtain ⟨n, t', hn, h⟩ := scan_bind_eq_ok.mp h
    cases h
    have hrange := idNumber_spec hn
    rw [IsValueId, Int64.toInt_ofInt_of_le (by omega) (by omega)]
    exact hrange.1
  · intro h
    cases h

theorem bytesOf_percent : bytesOf "%" = [0x25] := bytesOf_ofList _

theorem bytesOf_bb : bytesOf "bb" = [0x62, 0x62] := bytesOf_ofList _

/-- A value is taken where it stands. -/
theorem valueId_takes {v : ValueId} (hv : IsValueId v)
    (h : skipped s = bytesOf (valueText v) ++ rest) (hrest : Ends rest) :
    valueId s = .ok (v, rest) := by
  rw [valueText, bytesOf_append, bytesOf_percent, List.append_assoc,
    List.singleton_append] at h
  have hrange : 0 ≤ v.toInt ∧ v.toInt < 2 ^ 63 := ⟨hv, v.toInt_lt⟩
  rw [valueId_eq, h]
  show (do
    set (bytesOf (toString v.toInt) ++ rest)
    return Int64.ofInt
      (← idNumber (0x25 :: (bytesOf (toString v.toInt) ++ rest))
      .valueIdExpected) :
    Scan ValueId) _ = _
  rw [scan_bind_of_ok (a := ()) (by rfl),
    scan_bind_of_ok (idNumber_takes hrange hrest), Int64.ofInt_toInt]
  rfl

/-- No blanks are skipped in front of a value. -/
theorem skipped_value (v : ValueId) (rest : List UInt8) :
    skipped (bytesOf (valueText v) ++ rest) = bytesOf
      (valueText v) ++ rest := by
  rw [valueText, bytesOf_append, bytesOf_percent]
  exact skipped_of_solid (by decide) _

/-- Whether a number can be written for a block. -/
def IsBlockId (b : BlockId) : Prop := 0 ≤ b ∧ b < 2 ^ 63

/-- A block is two letters and a number. -/
theorem blockId_eq (s : List UInt8) : blockId s = (match skipped s with
    | 0x62 :: 0x62 :: s => do
        set s
        idNumber (0x62 :: 0x62 :: s) .blockIdExpected
    | s => failAt s .blockExpected : Scan BlockId) (skipped s) := rfl

/-- What is read as a block can be written as one. -/
theorem blockId_spec {b : BlockId}
    (h : blockId s = .ok (b, s')) : IsBlockId b := by
  rw [blockId_eq] at h
  generalize skipped s = front at h
  revert h
  split
  · intro h
    obtain ⟨-, t, ht, h⟩ := scan_bind_eq_ok.mp h
    exact idNumber_spec h
  · intro h
    cases h

/-- A block is taken where it stands. -/
theorem blockId_takes {b : BlockId} (hb : IsBlockId b)
    (h : skipped s = bytesOf (blockText b) ++ rest) (hrest : Ends rest) :
    blockId s = .ok (b, rest) := by
  rw [blockText, bytesOf_append, bytesOf_bb, List.append_assoc] at h
  rw [blockId_eq, h]
  show (do
    set (bytesOf (toString b) ++ rest)
    idNumber (0x62 :: 0x62 :: (bytesOf (toString b) ++ rest)) .blockIdExpected :
        Scan BlockId) _ = _
  rw [scan_bind_of_ok (a := ()) (by rfl)]
  exact idNumber_takes hb hrest

/-- No blanks are skipped in front of a block. -/
theorem skipped_block (b : BlockId) (rest : List UInt8) :
    skipped (bytesOf (blockText b) ++ rest) = bytesOf
      (blockText b) ++ rest := by
  rw [blockText, bytesOf_append, bytesOf_bb]
  exact skipped_of_solid (by decide) _

-- ================================================================ messages

/-- A message is a quoted text, found behind the blanks as a whole and then
taken out of its quotes. -/
theorem message_eq (s : List UInt8) :
    message s = (match quotedToken? (skipped s) with
    | none => failAt (skipped s) .messageExpected
    | some (t, rest) => match Text.unquote? t with
      | none => failAt (skipped s) .badMessage
      | some bs => do
          set rest
          return bs : Scan (List UInt8)) (skipped s) := rfl

/-- A quoted message is taken where it stands, whatever its bytes are. -/
theorem message_takes {bs : List UInt8}
    (h : skipped s = bytesOf (quote bs) ++ rest) :
    message s = .ok (bs, rest) := by
  rw [message_eq, h, quotedToken?_quote]
  dsimp only
  rw [unquote?_quote]
  rfl

end MirBackend.Source
