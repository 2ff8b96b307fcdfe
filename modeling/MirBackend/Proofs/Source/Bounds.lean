/-
Scanners stay inside the input.

What a scanner leaves is an end of what it was given, and where it fails is an
end of the input, so that a place can be counted for every error (`Within`). A
scanner that takes at least so many bytes leaves so many fewer; that is what
ends the loops. Loops are written with turns to be counted down; since a turn
uses up input, they come to their own end first, and any larger number of turns
gives the same answer (`typeWith_settled` for the rules of types, which call one
another).
-/
import MirBackend.Proofs.Source.Types

namespace MirBackend.Source

open Text

variable {α β : Type} {input s s' left : List UInt8} {n m : Nat}

-- ================================================================ judgement

/-- Run on an end of the input, the scanner leaves an end of that, shorter by
some bytes at least, or it fails at an end of the input. -/
structure Within (input s : List UInt8) (n : Nat) (p : Scan α) : Prop where
  inside : s <:+ input
  takes : ∀ a s', p s = .ok (a, s') → s' <:+ s ∧ s'.length + n ≤ s.length
  fails : ∀ e, p s = .error e → e.left <:+ input

/-- Scanners in turn fail if the first one does, or the second one behind it. -/
theorem scan_bind_eq_error {x : Scan α} {k : α → Scan β} {e : Failure} :
    (x >>= k) s = .error e ↔
    x s = .error e ∨ ∃ a s₁, x s = .ok (a, s₁) ∧ k a s₁ = .error e := by
  show (x s >>= fun y => k y.1 y.2) = _ ↔ _
  cases x s with
  | error e' => simp
  | ok y =>
      obtain ⟨a, s₁⟩ := y
      simp

namespace Within

variable {p q : Scan α} {k : α → Scan β}

/-- What is taken may be forgotten. -/
theorem weaken (h : Within input s n p) : Within input s 0 p :=
  ⟨h.inside, fun a s' ha => ⟨(h.takes a s' ha).1,
  (h.takes a s' ha).1.length_le⟩, h.fails⟩

-- The judgement for what scanners are made of.
theorem pure (hs : s <:+ input) (a : α) : Within input s 0 (pure a) :=
  ⟨hs, fun _ s' h => by
    obtain ⟨-, rfl⟩ := scan_pure_eq_ok.mp h
    exact ⟨List.suffix_rfl, Nat.le_refl _⟩, fun _ h => by cases h⟩

theorem fail (hs : s <:+ input) (hleft : left <:+ input) (e : ReadError) :
    Within input s n (failAt left e : Scan α) :=
  ⟨hs, fun _ _ h => absurd h failAt_ne_ok, fun _ h => by cases h; exact hleft⟩

theorem set (hs : s <:+ input) (h : s' <:+ s)
    (hlen : s'.length + n ≤ s.length) : Within input s n (set s' : Scan Unit) :=
  ⟨hs, fun _ _ h' => by cases h'; exact ⟨h, hlen⟩, fun _ h' => by cases h'⟩

/-- What a scanner takes, those behind it need not. -/
theorem bind (hp : Within input s m p)
    (hk : ∀ a s', p s = .ok (a, s') → s' <:+ input →
    s'.length + m ≤ s.length → Within input s' (n - m) (k a)) :
      Within input s n (p >>= k) := by
  refine ⟨hp.inside, fun b s' hb => ?_, fun e he => ?_⟩
  · obtain ⟨a, s₁, ha, hb⟩ := scan_bind_eq_ok.mp hb
    obtain ⟨hsuffix, hlen⟩ := hp.takes a s₁ ha
    obtain ⟨hsuffix', hlen'⟩ :=
      (hk a s₁ ha (hsuffix.trans hp.inside) hlen).takes b s' hb
    exact ⟨hsuffix'.trans hsuffix, by omega⟩
  · rcases scan_bind_eq_error.mp he with he | ⟨a, s₁, ha, he⟩
    · exact hp.fails e he
    · obtain ⟨hsuffix, hlen⟩ := hp.takes a s₁ ha
      exact (hk a s₁ ha (hsuffix.trans hp.inside) hlen).fails e he

theorem get {k : List UInt8 → Scan β} (h : Within input s n (k s)) :
    Within input s n (MonadState.get >>= k) :=
  ⟨h.inside, h.takes, h.fails⟩

/-- The part that is named in an error does not move its place. -/
theorem inPart (h : Within input s n p) (part : String) :
    Within input s n (inPart part p) := by
  refine ⟨h.inside, fun a s' ha => h.takes a s' (inPart_eq_ok.mp ha),
    fun e he => ?_⟩
  unfold Source.inPart at he
  cases hp : p s with
  | ok r =>
      rw [hp] at he
      cases he
  | error e' =>
      rw [hp] at he
      cases he
      exact h.fails e' hp

/-- An attempt does not fail, and takes nothing if it fails. -/
theorem attempt (h : Within input s n p) : Within input s 0 (attempt p) := by
  refine ⟨h.inside, fun o s' ho => ?_, fun e he => ?_⟩
  · unfold Source.attempt at ho
    cases hp : p s with
    | ok r =>
        obtain ⟨a, s₁⟩ := r
        rw [hp] at ho
        cases ho
        have := h.takes a s' hp
        exact ⟨this.1, by omega⟩
    | error e =>
        rw [hp] at ho
        cases ho
        exact ⟨List.suffix_rfl, Nat.le_refl _⟩
  · unfold Source.attempt at he
    cases hp : p s with
    | ok r =>
        rw [hp] at he
        cases he
    | error e' =>
        rw [hp] at he
        cases he

/-- What follows an attempt may rest on whether something was taken. -/
theorem attempted {k : Option α → Scan β} (hp : Within input s m p)
    (hsome : ∀ a s', p s = .ok (a, s') → s' <:+ input →
      s'.length + m ≤ s.length →
      Within input s' (n - m) (k (some a)))
    (hnone : Within input s n (k none)) :
    Within input s n (Source.attempt p >>= k) := by
  cases hps : p s with
  | error e =>
      have heq : (Source.attempt p >>= k) s = k none s :=
        scan_bind_of_ok (attempt_of_error hps)
      exact ⟨hp.inside, fun b s' hb => hnone.takes b s' (heq ▸ hb),
        fun e he => hnone.fails e (heq ▸ he)⟩
  | ok r =>
      obtain ⟨a, s₁⟩ := r
      have heq : (Source.attempt p >>= k) s = k (some a) s₁ :=
        scan_bind_of_ok (attempt_of_ok hps)
      obtain ⟨hsuffix, hlen⟩ := hp.takes a s₁ hps
      have hk := hsome a s₁ hps (hsuffix.trans hp.inside) hlen
      refine ⟨hp.inside, fun b s' hb => ?_, fun e he => hk.fails e (heq ▸ he)⟩
      obtain ⟨hsuffix', hlen'⟩ := hk.takes b s' (heq ▸ hb)
      exact ⟨hsuffix'.trans hsuffix, by omega⟩

end Within

-- =================================================================== tokens

/-- Skipping leaves an end of the input. -/
theorem skipped_suffix (s : List UInt8) : skipped s <:+ s := by
  have hboth : ∀ s : List UInt8, skipped s <:+ s ∧ skippedLine s <:+ s := by
    intro s
    induction s with
    | nil => exact ⟨List.suffix_rfl, List.suffix_rfl⟩
    | cons b s ih =>
        have hline := ih.2.trans (List.suffix_cons b s)
        have hmore := ih.1.trans (List.suffix_cons b s)
        refine ⟨?_, ?_⟩
        · rw [skipped]
          split
          · exact hmore
          · split
            · exact hline
            · exact List.suffix_rfl
        · rw [skippedLine]
          split
          · exact hmore
          · exact hline
  exact (hboth s).1

/-- A scanner that passes over what may stand before a token. -/
theorem Within.skipping {p q : Scan α} (h : p s = q (skipped s))
    (hs : s <:+ input) (hq : Within input (skipped s) n q) :
    Within input s n p := by
  have hskip := skipped_suffix s
  refine ⟨hs, fun a s' ha => ?_, fun e he => hq.fails e (h ▸ he)⟩
  obtain ⟨hsuffix, hlen⟩ := hq.takes a s' (h ▸ ha)
  have := hskip.length_le
  exact ⟨hsuffix.trans hskip, by omega⟩

theorem skip_within (hs : s <:+ input) : Within input s 0 skip :=
  ⟨hs, fun _ s' h => by
    cases h
    exact ⟨skipped_suffix s, (skipped_suffix s).length_le⟩,
      fun _ h => by cases h⟩

/-- A token that is there is what stands in front. -/
theorem after?_eq_some {t s rest : List UInt8} (h : after? t s = some rest) :
    s = t ++ rest := by
  induction t generalizing s with
  | nil => exact Option.some.inj h
  | cons b t ih =>
      cases s with
      | nil => cases h
      | cons c s =>
          rw [after?] at h
          split at h
          · rename_i hbc
            rw [hbc, ih h]
            rfl
          · cases h

/-- What follows a text is an end of what it stands in. -/
theorem after?_suffix {t s rest : List UInt8} (h : after? t s = some rest) :
    rest <:+ s ∧ rest.length + t.length ≤ s.length := by
  rw [after?_eq_some h, List.length_append]
  exact ⟨List.suffix_append t rest, by omega⟩

/-- A token is worth its length. -/
theorem token_within_length (hs : s <:+ input) (t : String) :
    Within input s (bytesOf t).length (token t) := by
  have hs' := (skipped_suffix s).trans hs
  refine .skipping (token_eq t s) hs ?_
  cases h : after? (bytesOf t) (skipped s) with
  | none => exact .fail hs' hs' _
  | some rest => exact .set hs' (after?_suffix h).1 (after?_suffix h).2

/-- Where the length of a token does not matter. -/
theorem token_within (hs : s <:+ input) (t : String) :
    Within input s 0 (token t) :=
  (token_within_length hs t).weaken

/-- A keyword is worth its length, too. -/
theorem keyword_within (hs : s <:+ input) (t : String) :
    Within input s (bytesOf t).length (keyword t) := by
  have hs' := (skipped_suffix s).trans hs
  refine .skipping (keyword_eq t s) hs ?_
  cases h : after? (bytesOf t) (skipped s) with
  | none => exact .fail hs' hs' _
  | some rest =>
      dsimp only
      split
      · exact .fail hs' hs' _
      · exact .set hs' (after?_suffix h).1 (after?_suffix h).2

/-- A closing token may be there or not. -/
theorem closes_within (hs : s <:+ input) (t : String) :
    Within input s 0 (closes t) :=
  (token_within hs t).attempt.bind fun _ _ _ hs' _ => .pure hs' _

/-- A name takes one byte at least. -/
theorem ident_within (hs : s <:+ input) : Within input s 1 ident := by
  have hs' := (skipped_suffix s).trans hs
  refine .skipping (ident_eq s) hs ?_
  cases h : skipped s with
  | nil => exact .fail (h ▸ hs') (List.nil_suffix) _
  | cons b t =>
      rw [h] at hs'
      dsimp only
      split
      · have hdrop : t.dropWhile goesOn <:+ b :: t :=
          (List.dropWhile_suffix _).trans (List.suffix_cons b t)
        have hlen := (List.dropWhile_suffix (l := t) goesOn).length_le
        exact (Within.set (n := 1) hs' hdrop (Nat.succ_le_succ hlen)).bind
          fun _ _ _ hs'' _ => .pure hs'' _
      · exact .fail hs' hs' _

/-- A sign is taken from the front. -/
theorem signed_suffix (s : List UInt8) : (signed s).2 <:+ s := by
  unfold signed
  split
  · exact List.suffix_cons _ _
  · exact List.suffix_rfl

/-- A number takes one digit at least. -/
theorem number_within (hs : s <:+ input) : Within input s 1 number := by
  have hs' := (skipped_suffix s).trans hs
  refine .skipping (number_eq s) hs ?_
  have hsigned := signed_suffix (skipped s)
  generalize signed (skipped s) = parts at hsigned ⊢
  obtain ⟨sign, unsigned⟩ := parts
  dsimp only at hsigned ⊢
  by_cases hempty : (unsigned.takeWhile isDigit).isEmpty = true
  · rw [if_pos hempty]
    exact .fail hs' hs' _
  · rw [if_neg hempty]
    generalize (if sign = true
      then -(digitsValue (unsigned.takeWhile isDigit) : Int)
      else digitsValue (unsigned.takeWhile isDigit)) = value
    by_cases hrange : -9223372036854775808 ≤ value ∧ value < 9223372036854775808
    · rw [if_pos hrange]
      have hsplit := congrArg List.length
        (List.takeWhile_append_dropWhile (p := isDigit) (l := unsigned))
      have hrest :=
        (List.dropWhile_suffix (l := unsigned) isDigit).trans hsigned
      have hpos : 0 < (unsigned.takeWhile isDigit).length := by
        rw [List.length_pos_iff]
        intro hnil
        exact hempty (by rw [hnil]; rfl)
      have hlen := hsigned.length_le
      rw [List.length_append] at hsplit
      exact (Within.set (n := 1) hs' hrest (by omega)).bind fun _ _ _ hs'' _ =>
        .pure hs'' _
    · rw [if_neg hrange]
      exact .fail hs' hs' _

/-- The number of an id takes one digit at least, and its errors are placed
where they are told to be. -/
theorem idNumber_within (hs : s <:+ input)
    (hleft : left <:+ input) (e : ReadError) :
    Within input s 1 (idNumber left e) := by
  have hnumber := number_within hs
  refine ⟨hs, fun a s' ha => ?_, fun e' he => ?_⟩
  · unfold idNumber at ha
    split at ha
    · rename_i k t hk
      split at ha
      · cases ha
      · cases ha
        exact hnumber.takes _ _ hk
    · cases ha
  · unfold idNumber at he
    split at he
    · split at he
      · cases he
        exact hleft
      · cases he
    · cases he
      exact hleft

theorem valueId_within (hs : s <:+ input) : Within input s 1 valueId := by
  have hs' := (skipped_suffix s).trans hs
  refine .skipping (valueId_eq s) hs ?_
  split
  · rename_i t h
    rw [h] at hs'
    have hset :=
      Within.set (n := 0) hs' (List.suffix_cons 0x25 t) (Nat.le_succ _)
    rw [h]
    exact hset.bind fun _ _ _ hs₁ _ =>
      (idNumber_within hs₁ hs' _).bind fun _ _ _ hs₂ _ => .pure hs₂ _
  · exact .fail hs' hs' _

theorem blockId_within (hs : s <:+ input) : Within input s 1 blockId := by
  have hs' := (skipped_suffix s).trans hs
  refine .skipping (blockId_eq s) hs ?_
  split
  · rename_i t h
    rw [h] at hs'
    have hset :=
      Within.set (n := 0) hs'
        (List.suffix_append [0x62, 0x62] t) (by simp; omega)
    rw [h]
    exact hset.bind fun _ _ _ hs₁ _ => idNumber_within hs₁ hs' _
  · exact .fail hs' hs' _

/-- What follows a quoted token is an end of the text. -/
theorem inside_suffix {t token rest : List UInt8}
    (h : quotedToken?.inside t = some (token, rest)) : rest <:+ t := by
  induction t using quotedToken?.inside.induct generalizing token rest with
  | case1 => cases h
  | case2 =>
      cases h
      exact List.nil_suffix
  | case3 b hb =>
      rw [quotedToken?.inside, if_neg hb] at h
      cases h
  | case4 c s ih =>
      rw [quotedToken?.inside, if_pos rfl, Option.map_eq_some_iff] at h
      obtain ⟨⟨token', rest'⟩, hinside, heq⟩ := h
      cases heq
      exact (ih hinside).trans
        ((List.suffix_cons c s).trans (List.suffix_cons _ _))
  | case5 c s hb =>
      rw [quotedToken?.inside, if_neg hb, if_pos rfl] at h
      cases h
      exact List.suffix_cons _ _
  | case6 c s hb hq =>
      rw [quotedToken?.inside, if_neg hb, if_neg hq, if_pos rfl] at h
      cases h
  | case7 b c s hb hq hl ih =>
      rw [quotedToken?.inside, if_neg hb, if_neg hq, if_neg hl,
        Option.map_eq_some_iff] at h
      obtain ⟨⟨token', rest'⟩, hinside, heq⟩ := h
      cases heq
      exact (ih hinside).trans (List.suffix_cons b (c :: s))

/-- A quoted text is taken from the front. -/
theorem quotedToken?_suffix {token rest : List UInt8}
    (h : quotedToken? s = some (token, rest)) : rest <:+ s := by
  unfold quotedToken? at h
  split at h
  · rw [Option.map_eq_some_iff] at h
    obtain ⟨⟨token', rest'⟩, hinside, heq⟩ := h
    cases heq
    exact (inside_suffix hinside).trans (List.suffix_cons _ _)
  · cases h

/-- A message is taken as a whole, and no error points into it. -/
theorem message_within (hs : s <:+ input) : Within input s 0 message := by
  have hs' := (skipped_suffix s).trans hs
  refine .skipping (message_eq s) hs ?_
  cases h : quotedToken? (skipped s) with
  | none => exact .fail hs' hs' _
  | some x =>
      obtain ⟨t, rest⟩ := x
      have hrest := quotedToken?_suffix h
      dsimp only
      cases unquote? t with
      | none => exact .fail hs' hs' _
      | some bs =>
          exact (Within.set (n := 0) hs' hrest hrest.length_le).bind
            fun _ _ _ hs'' _ => .pure hs'' _

/-- The length of an array is a number, and takes one digit at least. -/
theorem arrayLength_within (hs : s <:+ input) :
    Within input s 1 arrayLength := by
  have hnumber := number_within hs
  refine ⟨hs, fun a s' ha => ?_, fun e he => ?_⟩
  · unfold arrayLength at ha
    split at ha
    · rename_i k t hk
      split at ha
      · cases ha
      · cases ha
        exact hnumber.takes _ _ hk
    · cases ha
  · unfold arrayLength at he
    split at he
    · rename_i k t hk
      split at he
      · cases he
        exact (hnumber.takes _ _ hk).1.trans hs
      · cases he
    · rename_i e' he'
      cases he
      exact hnumber.fails e' he'

-- ==================================================================== types

/-- The rules of types stay inside the input, with any number of turns. -/
structure TypesWithin (input : List UInt8) (fuel : Nat) : Prop where
  type : ∀ s, s <:+ input → Within input s 1 (typeWith fuel)
  elems : ∀ s, s <:+ input →
    ∀ ts comma, Within input s 0 (elemsWith fuel ts comma)
  record : ∀ s, s <:+ input → ∀ name, Within input s 1 (recordWith fuel name)
  fields : ∀ s, s <:+ input → ∀ fs, Within input s 0 (fieldsWith fuel fs)
  list : ∀ s, s <:+ input → ∀ ts, Within input s 0 (listWith fuel ts)

/-- A comma before an item, unless it is the first. -/
theorem Within.separated {first : Bool} {k : Unit → Scan β} (hs : s <:+ input)
    (hk : ∀ s', s' <:+ input → s'.length ≤ s.length →
      Within input s' n (k ())) :
    Within input s n (if (!first) = true then token "," >>= k else k ()) := by
  split
  · exact (token_within hs ",").bind fun _ s' _ hs' hlen => hk s' hs' hlen
  · exact hk s hs (Nat.le_refl _)

/-- A word that is no type is an error where the word began. -/
theorem afterName_within {fuel : Nat} (h : TypesWithin input fuel)
    (hs : s <:+ input) {front : List UInt8} (hfront : front <:+ input)
    (o : Option String) : Within input s 0 (afterName fuel front o) := by
  unfold afterName
  split
  · exact .fail hs hfront _
  · exact .pure hs _
  · exact .pure hs _
  · exact .pure hs _
  · exact ((token_within hs "(").bind fun _ _ _ hs₁ _ =>
      (h.list _ hs₁ []).bind fun _ _ _ hs₂ _ =>
      (token_within hs₂ "->").bind fun _ _ _ hs₃ _ =>
      (token_within hs₃ "(").bind fun _ _ _ hs₄ _ =>
      (h.list _ hs₄ []).bind fun _ _ _ hs₅ _ =>
      .pure hs₅ _)
  · refine .get ?_
    split
    · exact ((h.record s hs _).bind fun _ _ _ hs₁ _ => .pure hs₁ _)
    · exact .fail hs hfront _

/-- By induction on the turns; without any, all rules fail where they are. -/
theorem typesWithin (input : List UInt8) (fuel : Nat) :
    TypesWithin input fuel := by
  induction fuel with
  | zero =>
      refine ⟨fun s hs => ?_, fun s hs ts comma => ?_, fun s hs name => ?_,
        fun s hs fs => ?_, fun s hs ts => ?_⟩
      · rw [typeWith]
        exact .get (.fail hs hs _)
      · rw [elemsWith]
        exact .get (.fail hs hs _)
      · rw [recordWith]
        exact .get (.fail hs hs _)
      · rw [fieldsWith]
        exact .get (.fail hs hs _)
      · rw [listWith]
        exact .get (.fail hs hs _)
  | succ fuel ih =>
      refine ⟨fun s hs => ?type, fun s hs ts comma => ?elems,
        fun s hs name => ?record, fun s hs fs => ?fields, fun s hs ts => ?list⟩
      -- the first byte that is not skipped decides, and it is taken before the
      -- rule goes on
      case type =>
        have hs' := (skipped_suffix s).trans hs
        refine .skipping (typeWith_succ fuel s) hs ?_
        split
        · exact .fail hs' List.nil_suffix _
        · rename_i t ht
          rw [ht] at hs' ⊢
          exact (Within.set (n := 1) hs' (List.suffix_cons _ t)
            (Nat.le_refl _)).bind
            fun _ _ _ hs₁ _ => .pure hs₁ _
        · rename_i t ht
          rw [ht] at hs' ⊢
          exact ((Within.set (n := 1) hs' (List.suffix_cons _ t)
            (Nat.le_refl _)).bind
            fun _ _ _ hs₁ _ => (ih.type _ hs₁).bind fun _ _ _ hs₂ _ =>
            .pure hs₂ _)
        · rename_i t ht
          rw [ht] at hs' ⊢
          exact ((Within.set (n := 1) hs' (List.suffix_cons _ t)
            (Nat.le_refl _)).bind
            fun _ _ _ hs₁ _ => (ih.type _ hs₁).bind fun _ _ _ hs₂ _ =>
            (token_within hs₂ ";").bind fun _ _ _ hs₃ _ =>
            (arrayLength_within hs₃).bind
            fun _ _ _ hs₄ _ => (token_within hs₄ "]").bind fun _ _ _ hs₅ _ =>
            .pure hs₅ _)
        · rename_i t ht
          rw [ht] at hs' ⊢
          refine (Within.set (n := 1) hs' (List.suffix_cons _ t)
            (Nat.le_refl _)).bind
            fun _ _ _ hs₁ _ => (closes_within hs₁ ")").bind
            fun closed _ _ hs₂ _ => ?_
          split
          · exact .pure hs₂ _
          · refine (ih.elems _ hs₂ [] false).bind fun r _ _ hs₃ _ => ?_
            split
            · exact .pure hs₃ _
            · exact .pure hs₃ _
        · exact (ih.record _ hs' "").bind fun _ _ _ hs₁ _ => .pure hs₁ _
        · exact .attempted (ident_within hs')
            (fun _ _ _ hs₁ _ => afterName_within ih hs₁ hs' _)
            (.fail hs' hs' _)
      -- either the closing parenthesis, or an element with what is behind it
      case elems =>
        rw [elemsWith]
        refine (closes_within hs ")").bind fun closed _ _ hs₁ _ => ?_
        split
        · exact .pure hs₁ _
        · split
          · exact ((ih.type _ hs₁).bind fun _ _ _ hs₂ _ => ih.elems _ hs₂ _ _)
          · refine ((token_within hs₁ ",").bind fun _ _ _ hs₂ _ =>
              (closes_within hs₂ ")").bind
              fun closed _ _ hs₃ _ => ?_)
            split
            · exact .pure hs₃ _
            · exact ((ih.type _ hs₃).bind fun _ _ _ hs₄ _ => ih.elems _ hs₄ _ _)
      -- an opening brace and the fields
      case record =>
        rw [recordWith]
        have hbrace := token_within_length hs "\x7b"
        rw [bytesOf_braceOpen] at hbrace
        exact (hbrace.bind fun _ _ _ hs₁ _ => (ih.fields _ hs₁ []).bind
          fun _ _ _ hs₂ _ => .pure hs₂ _)
      -- a name, a colon and a type, until the brace is closed
      case fields =>
        rw [fieldsWith]
        refine (closes_within hs "\x7d").bind fun closed _ _ hs₁ _ => ?_
        split
        · exact .pure hs₁ _
        · exact .separated hs₁ fun _ hs₂ _ => ((ident_within hs₂).inPart _).bind
            fun _ _ _ hs₃ _ => (token_within hs₃ ":").bind fun _ _ _ hs₄ _ =>
            ((ih.type _ hs₄).inPart _).bind fun _ _ _ hs₅ _ => ih.fields _ hs₅ _
      -- types with commas between them
      case list =>
        rw [listWith]
        refine (closes_within hs ")").bind fun closed _ _ hs₁ _ => ?_
        split
        · exact .pure hs₁ _
        · exact .separated hs₁ fun _ hs₂ _ =>
            (ih.type _ hs₂).bind fun _ _ _ hs₃ _ =>
            ih.list _ hs₃ _

/-- A type takes one byte at least. -/
theorem type_within (hs : s <:+ input) : Within input s 1 type :=
  .get ((typesWithin input _).type s hs)

theorem typedValue_within (hs : s <:+ input) : Within input s 1 typedValue :=
  (valueId_within hs).bind fun _ _ _ hs₁ _ =>
  (token_within hs₁ ":").bind fun _ _ _ hs₂ _ =>
    (type_within hs₂).bind fun _ _ _ hs₃ _ => .pure hs₃ _

-- ==================================================================== turns

/-- What a scanner leaves is shorter by what it takes. -/
theorem Within.shorter {p : Scan α} {a : α} (h : Within s s n p)
    (hp : p s = .ok (a, s')) : s'.length + n ≤ s.length := (h.takes a s' hp).2

end MirBackend.Source
