/-
Quoted byte strings are read back as they were.

A quoted string is a row of pieces, each the written form of a character or of a
byte that belongs to none. A piece is *faithful* to some bytes when reading it
gives just these and finding the end of the token goes past it. Every piece that
`quote` writes is faithful to what it writes, so the whole is read back
(`unquote?_quote`), and its end is found whatever follows
(`quotedToken?_quote`).
-/
import Mathlib
import MirBackend.Source.Scan

namespace MirBackend.Text

-- =================================================================== bytes

/-- The bytes of an array, taken one by one. -/
theorem toList_eq_data (bs : ByteArray) : bs.toList = bs.data.toList := by
  have hloop (i : Nat) (acc : List UInt8) :
      ByteArray.toList.loop bs i acc = acc.reverse
        ++ bs.data.toList.drop i := by
    fun_induction ByteArray.toList.loop bs i acc with
    | case1 i acc hi ih =>
        have hbyte : bs.data.toList.drop i = bs.get! i
            :: bs.data.toList.drop (i + 1) := by
          have hlt : i < bs.data.size := hi
          rw [List.drop_eq_getElem_cons (by simpa using hlt), ByteArray.get!,
            getElem!_pos bs.data i hlt]
          rfl
        rw [ih, hbyte, List.reverse_cons, List.append_assoc,
          List.singleton_append]
    | case2 i acc hi =>
        have hle : bs.data.toList.length ≤ i := by simpa using hi
        rw [List.drop_eq_nil_of_le hle, List.append_nil]
  rw [ByteArray.toList, hloop]
  rfl

-- The bytes of a text, character by character.
theorem bytesOf_eq (s : String) :
    bytesOf s = s.toByteArray.data.toList := toList_eq_data _

@[simp] theorem bytesOf_append (s t : String) :
    bytesOf (s ++ t) = bytesOf s ++ bytesOf t := by
  rw [bytesOf_eq, bytesOf_eq, bytesOf_eq, String.toByteArray_append,
    ByteArray.data_append, Array.toList_append]

@[simp] theorem bytesOf_empty : bytesOf "" = [] := by decide +kernel

theorem bytesOf_ofList (cs : List Char) :
    bytesOf (String.ofList cs) = cs.flatMap encodeChar := by
  rw [bytesOf_eq, String.toByteArray_ofList, List.utf8Encode]
  simp
  rfl

theorem bytesOf_toString (c : Char) : bytesOf c.toString = encodeChar c := by
  rw [Char.toString, String.singleton_eq_ofList, bytesOf_ofList,
    List.flatMap_singleton]

/-- A text is told by its bytes. -/
theorem bytesOf_injective {s t : String}
    (h : bytesOf s = bytesOf t) : s = t := by
  rw [bytesOf_eq, bytesOf_eq] at h
  exact String.toByteArray_inj.mp (ByteArray.ext (Array.toList_inj.mp h))

-- ============================================================== characters

/-- Every character takes a byte at least. -/
theorem length_encodeChar_pos (c : Char) : 0 < (encodeChar c).length := by
  rw [encodeChar, String.length_utf8EncodeChar]
  exact c.utf8Size_pos

/-- A character below 0x80 is a single byte. -/
theorem encodeChar_of_lt {c : Char} (h : c.toNat < 0x80) :
    encodeChar c = [UInt8.ofNat c.toNat] := by
  have hle : c.val.toNat ≤ 127 := Nat.le_of_lt_succ h
  simp only [encodeChar, String.utf8EncodeChar, hle, if_true]
  rfl

/-- The bytes of a character from 128 on are all from 128 on. -/
theorem le_of_mem_encodeChar {c : Char} (h : 0x80 ≤ c.toNat) {b : UInt8}
    (hb : b ∈ encodeChar c) : 0x80 ≤ b.toNat := by
  have hbyte (x : Nat) (h₁ : 128 ≤ x) (h₂ : x < 256) :
      0x80 ≤ (UInt8.ofNat x).toNat := by
    rw [UInt8.toNat_ofNat_of_lt' h₂]
    exact h₁
  have hgt : ¬ c.val.toNat ≤ 127 := Nat.not_le_of_lt h
  simp only [encodeChar, String.utf8EncodeChar, hgt, if_false] at hb
  split at hb
  · simp only [List.mem_cons, List.not_mem_nil, or_false] at hb
    rcases hb with rfl | rfl <;> exact hbyte _ (by omega) (by omega)
  · split at hb
    · simp only [List.mem_cons, List.not_mem_nil, or_false] at hb
      rcases hb with rfl | rfl | rfl <;> exact hbyte _ (by omega) (by omega)
    · simp only [List.mem_cons, List.not_mem_nil, or_false] at hb
      rcases hb with rfl | rfl | rfl | rfl
        <;> exact hbyte _ (by omega) (by omega)

/-- A byte that continues a character carries its low six bits. -/
theorem payload_eq (b : UInt8) : payload b = b.toNat % 64 := by
  rw [payload, UInt8.toNat_and]
  exact Nat.and_two_pow_sub_one_eq_mod b.toNat 6

/-- Its two high bits are fixed. -/
theorem div_of_isContinuation {b : UInt8} (h : isContinuation b = true) :
    b.toNat / 64 = 2 := by
  have hall : ∀ n < 256, isContinuation (UInt8.ofNat n) = true →
      n / 64 = 2 := by decide +kernel
  refine hall b.toNat b.toNat_lt ?_
  rwa [UInt8.ofNat_toNat]

/-- A number that stands for a character is that character's. -/
theorem scalar?_eq_some {least n : Nat} {c : Char}
    (h : scalar? least n = some c) : least ≤ n ∧ c.toNat = n := by
  unfold scalar? at h
  split at h
  · rename_i hv
    cases h
    exact ⟨hv.1, by rw [Char.toNat_ofNat, if_pos hv.2]⟩
  · cases h

/-- A byte is told by its number. -/
theorem ofNat_eq_of_toNat {n : Nat} {b : UInt8} (h : n = b.toNat) :
    UInt8.ofNat n = b := by
  rw [h, UInt8.ofNat_toNat]

/-- The bytes of a character, computed from its code point. -/
theorem encodeChar_eq (c : Char) : encodeChar c =
    if c.toNat ≤ 0x7F then [UInt8.ofNat c.toNat]
    else if c.toNat ≤ 0x7FF then
      [UInt8.ofNat (c.toNat / 64 % 32 + 192), UInt8.ofNat (c.toNat % 64 + 128)]
    else if c.toNat ≤ 0xFFFF then
      [UInt8.ofNat (c.toNat / 4096 % 16 + 224),
        UInt8.ofNat (c.toNat / 64 % 64 + 128),
       UInt8.ofNat (c.toNat % 64 + 128)]
    else
      [UInt8.ofNat (c.toNat / 262144 % 8 + 240),
        UInt8.ofNat (c.toNat / 4096 % 64 + 128),
       UInt8.ofNat (c.toNat / 64 % 64 + 128), UInt8.ofNat
         (c.toNat % 64 + 128)] := rfl

-- Characters of two, three and four bytes are encoded as the bytes they were
-- decoded from. The least number of each length rules out the overlong forms.
theorem encodeChar_two {a b : UInt8} {c : Char} (ha : 0xC0 ≤ a ∧ a < 0xE0)
    (hb : isContinuation b = true)
    (hc : scalar? 0x80 ((a &&& 0x1F).toNat * 64 + payload b) = some c) :
    encodeChar c = [a, b] := by
  obtain ⟨hleast, hn⟩ := scalar?_eq_some hc
  have hdiv := div_of_isContinuation hb
  have hlo : 0xC0 ≤ a.toNat := UInt8.le_iff_toNat_le.mp ha.1
  have hhi : a.toNat < 0xE0 := UInt8.lt_iff_toNat_lt.mp ha.2
  have hand : (a &&& 0x1F).toNat = a.toNat % 32 := by
    rw [UInt8.toNat_and]
    exact Nat.and_two_pow_sub_one_eq_mod a.toNat 5
  rw [payload_eq, hand] at hleast hn
  rw [encodeChar_eq, if_neg (by omega), if_pos (by omega),
    ofNat_eq_of_toNat (b := a) (by omega),
    ofNat_eq_of_toNat (b := b) (by omega)]

theorem encodeChar_three {a b d : UInt8} {c : Char} (ha : 0xE0 ≤ a ∧ a < 0xF0)
    (hbd : (isContinuation b && isContinuation d) = true)
    (hc : scalar? 0x800 ((a &&& 0x0F).toNat * 4096 + payload b * 64 + payload d)
      = some c) :
    encodeChar c = [a, b, d] := by
  obtain ⟨hb, hd⟩ := Bool.and_eq_true_iff.mp hbd
  obtain ⟨hleast, hn⟩ := scalar?_eq_some hc
  have hdivb := div_of_isContinuation hb
  have hdivd := div_of_isContinuation hd
  have hlo : 0xE0 ≤ a.toNat := UInt8.le_iff_toNat_le.mp ha.1
  have hhi : a.toNat < 0xF0 := UInt8.lt_iff_toNat_lt.mp ha.2
  have hand : (a &&& 0x0F).toNat = a.toNat % 16 := by
    rw [UInt8.toNat_and]
    exact Nat.and_two_pow_sub_one_eq_mod a.toNat 4
  rw [payload_eq, payload_eq, hand] at hleast hn
  rw [encodeChar_eq, if_neg (by omega), if_neg (by omega), if_pos (by omega),
    ofNat_eq_of_toNat (b := a) (by omega),
      ofNat_eq_of_toNat (b := b) (by omega),
    ofNat_eq_of_toNat (b := d) (by omega)]

theorem encodeChar_four {a b d e : UInt8} {c : Char} (ha : 0xF0 ≤ a ∧ a < 0xF8)
    (hbde : (isContinuation b && isContinuation d && isContinuation e) = true)
    (hc :
    scalar? 0x10000
    ((a &&& 0x07).toNat * 262144 + payload b * 4096 + payload d * 64
      + payload e) = some c) : encodeChar c = [a, b, d, e] := by
  obtain ⟨hbd, he⟩ := Bool.and_eq_true_iff.mp hbde
  obtain ⟨hb, hd⟩ := Bool.and_eq_true_iff.mp hbd
  obtain ⟨hleast, hn⟩ := scalar?_eq_some hc
  have hdivb := div_of_isContinuation hb
  have hdivd := div_of_isContinuation hd
  have hdive := div_of_isContinuation he
  have hlo : 0xF0 ≤ a.toNat := UInt8.le_iff_toNat_le.mp ha.1
  have hhi : a.toNat < 0xF8 := UInt8.lt_iff_toNat_lt.mp ha.2
  have hand : (a &&& 0x07).toNat = a.toNat % 8 := by
    rw [UInt8.toNat_and]
    exact Nat.and_two_pow_sub_one_eq_mod a.toNat 3
  rw [payload_eq, payload_eq, payload_eq, hand] at hleast hn
  rw [encodeChar_eq, if_neg (by omega), if_neg (by omega), if_neg (by omega),
    ofNat_eq_of_toNat (b := a) (by omega),
      ofNat_eq_of_toNat (b := b) (by omega),
    ofNat_eq_of_toNat (b := d) (by omega),
      ofNat_eq_of_toNat (b := e) (by omega)]

/-- A single byte is its own encoding. -/
theorem encodeChar_ofNat {a : UInt8} (ha : a < 0x80) :
    encodeChar (Char.ofNat a.toNat) = [a] := by
  have hlt : a.toNat < 0x80 := UInt8.lt_iff_toNat_lt.mp ha
  have hvalid : a.toNat.isValidChar := Or.inl (by omega)
  have hc : (Char.ofNat a.toNat).toNat = a.toNat := by
    rw [Char.toNat_ofNat, if_pos hvalid]
  rw [encodeChar_of_lt (by omega), hc, UInt8.ofNat_toNat]

/-- A character is taken off the front with all its bytes and no more. -/
theorem decode?_eq_some {bs rest : List UInt8} {c : Char}
    (h : decode? bs = some (c, rest)) :
    bs = encodeChar c ++ rest ∧ ∀ s, decode?
      (encodeChar c ++ s) = some (c, s) := by
  cases bs with
  | nil => cases h
  | cons a bs =>
    rw [decode?.eq_def] at h
    dsimp only at h
    split_ifs at h with ha htwo hthree hfour
    · cases h
      rw [encodeChar_ofNat ha]
      refine ⟨rfl, fun s => ?_⟩
      rw [List.singleton_append, decode?.eq_def]
      exact if_pos ha
    · match bs, h with
      | b :: bs, h =>
        dsimp only at h
        split_ifs at h with hb
        obtain ⟨x, hx, hrest⟩ := Option.map_eq_some_iff.mp h
        cases hrest
        rw [encodeChar_two htwo hb hx]
        refine ⟨rfl, fun s => ?_⟩
        simp only [List.cons_append, List.nil_append, decode?, ha, htwo, hb, hx,
          if_false, if_true, and_self, Option.map_some]
    · match bs, h with
      | b :: d :: bs, h =>
        dsimp only at h
        split_ifs at h with hbd
        obtain ⟨x, hx, hrest⟩ := Option.map_eq_some_iff.mp h
        cases hrest
        rw [encodeChar_three hthree hbd hx]
        refine ⟨rfl, fun s => ?_⟩
        simp only [List.cons_append, List.nil_append, decode?, ha, htwo, hthree,
          hbd, hx, if_false, if_true, and_self, Option.map_some]
    · match bs, h with
      | b :: d :: e :: bs, h =>
        dsimp only at h
        split_ifs at h with hbde
        obtain ⟨x, hx, hrest⟩ := Option.map_eq_some_iff.mp h
        cases hrest
        rw [encodeChar_four hfour hbde hx]
        refine ⟨rfl, fun s => ?_⟩
        simp only [List.cons_append, List.nil_append, decode?, ha, htwo,
          hthree, hfour, hbde, hx, if_false, if_true, and_self, Option.map_some]

-- ================================================================= numbers

/-- One digit more is read behind the others. -/
theorem digits?_succ (value? : UInt8 → Option Nat) (base count acc : Nat)
    (s : List UInt8) : digits? value? base (count + 1) acc s
      = (digits? value? base count acc s).bind fun x =>
      digits? value? base 1 x.1 x.2 := by
  induction count generalizing acc s with
  | zero => rfl
  | succ count ih =>
      cases s with
      | nil => rfl
      | cons b s =>
          rw [digits?, digits?]
          cases value? b with
          | none => rfl
          | some d => exact ih _ _

/-- A digit is written as one byte, which stands for it and is neither a quote
nor an escape. -/
theorem bytesOf_hexDigit (n : Nat) : ∃ b, bytesOf (hexDigit n).toString = [b]
    ∧ hexValue? b = some (n % 16) ∧ b ≠ 0x5C ∧ b ≠ 0x22 ∧ b ≠ 0x0A := by
  have hall : ∀ k < 16, ∃ b, encodeChar (Nat.digitChar k) = [b]
      ∧ hexValue? b = some k
      ∧ b ≠ 0x5C ∧ b ≠ 0x22 ∧ b ≠ 0x0A := by
    intro k hk
    interval_cases k
      <;> exact ⟨_, rfl, by decide, by decide, by decide, by decide⟩
  obtain ⟨b, hb, hrest⟩ := hall (n % 16) (Nat.mod_lt _ (by omega))
  exact ⟨b, by rw [bytesOf_toString]; exact hb, hrest⟩

/-- Hexadecimal digits read as the number they write. -/
theorem digits?_hexText (width acc n : Nat) (s : List UInt8) :
    digits? hexValue? 16 width acc (bytesOf (hexText width n) ++ s)
      = some (acc * 16 ^ width + n % 16 ^ width, s) := by
  induction width generalizing n s with
  | zero => simp [hexText, digits?, Nat.mod_one]
  | succ width ih =>
      obtain ⟨b, hb, hvalue, -⟩ := bytesOf_hexDigit n
      rw [hexText, bytesOf_append, hb, List.append_assoc, digits?_succ,
        ih, Option.bind_some,
        List.singleton_append, digits?, hvalue, Option.bind_eq_bind,
          Option.bind_some, digits?]
      have hsplit : n % 16 ^ (width + 1) = n / 16 % 16 ^ width
          * 16 + n % 16 := by
        rw [Nat.pow_succ', Nat.mod_mul]
        omega
      rw [hsplit, Nat.pow_succ']
      congr 2
      ring

-- ================================================================== pieces

open Source (quotedToken?)

/-- A byte that stands for itself inside a token. -/
def IsPlain (b : UInt8) : Prop := b ≠ 0x5C ∧ b ≠ 0x22 ∧ b ≠ 0x0A

/-- The end of a token is found behind bytes that stand for themselves. -/
theorem inside_plain {p s : List UInt8}
    (hp : ∀ b ∈ p, IsPlain b) (hs : s ≠ []) :
    quotedToken?.inside (p ++ s) = (quotedToken?.inside s).map fun x =>
      (p ++ x.1, x.2) := by
  induction p with
  | nil => simp
  | cons b p ih =>
      obtain ⟨hslash, hquote, hline⟩ := hp b List.mem_cons_self
      have hrest := ih fun c hc => hp c (List.mem_cons_of_mem _ hc)
      obtain ⟨c, t, hct⟩ : ∃ c t, p ++ s = c :: t := by
        cases p with
        | nil => exact List.exists_cons_of_ne_nil hs
        | cons c p => exact ⟨c, p ++ s, rfl⟩
      rw [List.cons_append, hct, quotedToken?.inside, if_neg hslash,
        if_neg hquote, if_neg hline, ← hct, hrest, Option.map_map]
      rfl

/-- A piece of a quoted string that stands for some bytes: it is read as these,
and the end of the token is found behind it. -/
structure Faithful (p e : List UInt8) : Prop where
  nonempty : p ≠ []
  read : ∀ n s, unquoteBody? (n + 1) (p ++ s) = (unquoteBody? n s).map (e ++ ·)
  passed : ∀ s, s ≠ [] →
    quotedToken?.inside (p ++ s)
      = (quotedToken?.inside s).map fun x => (p ++ x.1, x.2)

/-- A character that stands for itself. -/
theorem Faithful.char {c : Char}
    (hdecode : ∀ s, decode? (encodeChar c ++ s) = some (c, s))
    (hquote : c ≠ '"') (hslash : c ≠ '\\') (hline : c ≠ '\n') :
    Faithful (encodeChar c) (encodeChar c) := by
  have hplain : ∀ b ∈ encodeChar c, IsPlain b := by
    intro b hb
    by_cases hc : c.toNat < 0x80
    · rw [encodeChar_of_lt hc, List.mem_singleton] at hb
      have hne (d : Char) (hd : d.toNat < 256) (h : b = UInt8.ofNat d.toNat) :
          c = d := by
        have htoNat : c.toNat = d.toNat := by
          rw [hb] at h
          have := congrArg UInt8.toNat h
          rwa [UInt8.toNat_ofNat_of_lt' (hc.trans (by decide)),
            UInt8.toNat_ofNat_of_lt' hd] at this
        exact Char.toNat_inj.mp htoNat
      exact ⟨fun h => hslash (hne '\\' (by decide) h),
        fun h => hquote (hne '"' (by decide) h),
        fun h => hline (hne '\n' (by decide) h)⟩
    · have hle := le_of_mem_encodeChar (by omega) hb
      refine ⟨?_, ?_, ?_⟩ <;> rintro rfl <;> exact absurd hle (by decide)
  obtain ⟨b, t, hbt⟩ : ∃ b t, encodeChar c = b :: t := by
    cases h : encodeChar c with
    | nil =>
        have := hdecode []
        rw [h] at this
        cases this
    | cons b t => exact ⟨b, t, rfl⟩
  obtain ⟨hbs, hbq, hbl⟩ := hplain b (by rw [hbt]; exact List.mem_cons_self)
  refine ⟨by rw [hbt]; simp, fun n s => ?_, fun s hs => inside_plain hplain hs⟩
  have hd := hdecode s
  rw [hbt, List.cons_append] at hd ⊢
  rw [unquoteBody?, if_neg hbq, if_neg hbl, if_neg hbs, hd, ← hbt]

/-- A backslash, a byte behind it and digits that stand for themselves. -/
theorem Faithful.escape {b : UInt8} {p e : List UInt8} (hp : ∀ c ∈ p, IsPlain c)
    (hread : ∀ s, escape? (b :: p ++ s) = some (e, s)) :
    Faithful (0x5C :: b :: p) e := by
  refine ⟨by simp, fun n s => ?_, fun s hs => ?_⟩
  · rw [List.cons_append, unquoteBody?, if_neg (by decide), if_neg (by decide),
      if_pos rfl, hread s, Option.bind_eq_bind, Option.bind_some]
    dsimp only
    cases unquoteBody? n s <;> rfl
  · rw [List.cons_append, List.cons_append, quotedToken?.inside, if_pos rfl,
      inside_plain hp hs, Option.map_map]
    rfl

/-- So a number in hexadecimal is plain text. -/
theorem plain_hexText (width n : Nat) :
    ∀ b ∈ bytesOf (hexText width n), IsPlain b := by
  induction width generalizing n with
  | zero => simp [hexText]
  | succ width ih =>
      obtain ⟨d, hd, -, hplain⟩ := bytesOf_hexDigit n
      intro b hb
      rw [hexText, bytesOf_append, hd, List.mem_append,
        List.mem_singleton] at hb
      rcases hb with hb | rfl
      · exact ih _ b hb
      · exact hplain

/-- The number of a character in hexadecimal digits. -/
theorem codePoint?_hexText {width : Nat} {c : Char} (h : c.toNat < 16 ^ width)
    (s : List UInt8) :
    codePoint? width (bytesOf (hexText width c.toNat) ++ s)
        = some (encodeChar c, s) := by
  have hscalar : scalar? 0 c.toNat = some c := by
    rw [scalar?, if_pos ⟨Nat.zero_le _, c.valid⟩, Char.ofNat_toNat]
  rw [codePoint?, digits?_hexText, Nat.zero_mul, Nat.zero_add,
    Nat.mod_eq_of_lt h]
  simp only [Option.bind_eq_bind, Option.bind_some, hscalar]
  rfl

/-- Every character is written as a piece that stands for it. -/
theorem quoteChar_faithful {c : Char}
    (hdecode : ∀ s, decode? (encodeChar c ++ s) = some (c, s)) :
    Faithful (bytesOf (quoteChar c)) (encodeChar c) := by
  have hslashText : bytesOf "\\" = [0x5C] := bytesOf_ofList _
  unfold quoteChar
  split
  · rename_i hc
    rw [bytesOf_append, hslashText, bytesOf_toString]
    rcases hc with rfl | rfl
    · exact Faithful.escape (p := []) (by simp) fun s => rfl
    · exact Faithful.escape (p := []) (by simp) fun s => rfl
  rename_i hc
  rw [not_or] at hc
  split
  · rename_i hprint
    rw [bytesOf_toString]
    refine Faithful.char hdecode hc.1 hc.2 ?_
    rintro rfl
    exact absurd hprint (by decide +kernel)
  split
  · -- a control character with a letter of its own
    rename_i l hl
    rw [bytesOf_append, hslashText, bytesOf_toString]
    unfold escapeLetter at hl
    split at hl <;> cases hl
      <;> exact Faithful.escape (p := []) (by simp) fun s => rfl
  · split
    · rename_i hlow
      have hlt : c.toNat < 0x80 := by omega
      rw [bytesOf_append, show bytesOf "\\x" = [0x5C, 0x78]
        from bytesOf_ofList _, encodeChar_of_lt hlt]
      refine Faithful.escape (plain_hexText 2 _) fun s => ?_
      show (do
        let x ← digits? hexValue? 16 2 0 (bytesOf (hexText 2 c.toNat) ++ s)
        return ([UInt8.ofNat x.1], x.2)) = _
      rw [digits?_hexText, Nat.zero_mul, Nat.zero_add,
        Nat.mod_eq_of_lt (by omega)]
      rfl
    · split
      · rename_i hlt
        rw [bytesOf_append, show bytesOf "\\u" = [0x5C, 0x75]
          from bytesOf_ofList _]
        exact Faithful.escape (plain_hexText 4 _) fun s =>
          codePoint?_hexText hlt s
      · rw [bytesOf_append, show bytesOf "\\U" = [0x5C, 0x55]
          from bytesOf_ofList _]
        refine Faithful.escape (plain_hexText 8 _) fun s =>
          codePoint?_hexText ?_ s
        have hvalid : c.toNat.isValidChar := c.valid
        unfold Nat.isValidChar at hvalid
        omega

/-- A byte that belongs to no character. -/
theorem quoteByte_faithful (b : UInt8) :
    Faithful (bytesOf ("\\x" ++ hexText 2 b.toNat)) [b] := by
  rw [bytesOf_append, show bytesOf "\\x" = [0x5C, 0x78] from bytesOf_ofList _]
  refine Faithful.escape (plain_hexText 2 _) fun s => ?_
  show (do
    let x ← digits? hexValue? 16 2 0 (bytesOf (hexText 2 b.toNat) ++ s)
    return ([UInt8.ofNat x.1], x.2)) = _
  rw [digits?_hexText, Nat.zero_mul, Nat.zero_add,
    Nat.mod_eq_of_lt (by exact b.toNat_lt), Option.bind_eq_bind,
    Option.bind_some, UInt8.ofNat_toNat]
  rfl

-- =================================================================== whole

/-- What is quoted is read back, byte for byte, as long as the fuel exceeds its
length. The induction is on the number of bytes left, since a character takes
several at once. -/
theorem quoteBody_spec (n : Nat) (bs : List UInt8)
    (hn : bs.length ≤ n) (fuel : Nat)
    (hfuel : (bytesOf (quoteBody n bs)).length < fuel) (rest : List UInt8) :
    unquoteBody? fuel (bytesOf (quoteBody n bs) ++ [0x22]) = some bs
    ∧ quotedToken?.inside (bytesOf (quoteBody n bs) ++ 0x22 :: rest)
      = some (bytesOf (quoteBody n bs) ++ [0x22], rest) := by
  have hend : quotedToken?.inside (0x22 :: rest) = some ([0x22], rest) := by
    cases rest <;> rfl
  induction n generalizing bs fuel with
  | zero =>
      obtain rfl : bs = [] := List.eq_nil_of_length_eq_zero (by omega)
      obtain ⟨fuel, rfl⟩ : ∃ k, fuel = k + 1 := ⟨fuel - 1, by omega⟩
      simp only [quoteBody, bytesOf_empty, List.nil_append]
      exact ⟨rfl, hend⟩
  | succ n ih =>
      cases bs with
      | nil =>
          obtain ⟨fuel, rfl⟩ : ∃ k, fuel = k + 1 := ⟨fuel - 1, by omega⟩
          simp only [quoteBody, bytesOf_empty, List.nil_append]
          exact ⟨rfl, hend⟩
      | cons b bs =>
          -- one piece, then the others
          obtain ⟨p, e, tail, hpiece, htext, hbs, hlen⟩ :
              ∃ p e tail, Faithful p e
              ∧ bytesOf (quoteBody (n + 1) (b :: bs))
              = p ++ bytesOf (quoteBody n tail)
              ∧ b :: bs = e ++ tail ∧ tail.length ≤ n := by
            rw [quoteBody]
            cases hd : decode? (b :: bs) with
            | none =>
                refine ⟨_, [b], bs, quoteByte_faithful b, ?_,
                  rfl, by simpa using hn⟩
                rw [bytesOf_append]
            | some x =>
                obtain ⟨c, tail⟩ := x
                obtain ⟨hbs, hdecode⟩ := decode?_eq_some hd
                have hpiece := quoteChar_faithful hdecode
                refine ⟨_, _, tail, hpiece, by rw [bytesOf_append], hbs, ?_⟩
                have hlen := congrArg List.length hbs
                have hpos := length_encodeChar_pos c
                rw [List.length_append] at hlen
                omega
          rw [htext, List.length_append] at hfuel
          have hpos := List.length_pos_iff.mpr hpiece.nonempty
          obtain ⟨fuel, rfl⟩ : ∃ k, fuel = k + 1 := ⟨fuel - 1, by omega⟩
          obtain ⟨hread, hpassed⟩ := ih tail hlen fuel (by omega)
          rw [htext, List.append_assoc, List.append_assoc, hpiece.read, hread,
            hpiece.passed _ (by simp), hpassed, hbs]
          exact ⟨rfl, rfl⟩

/-- The end of a quoted string is found, whatever follows. -/
theorem quotedToken?_quote (bs rest : List UInt8) :
    quotedToken? (bytesOf (quote bs) ++ rest)
        = some (bytesOf (quote bs), rest) := by
  have hquote : bytesOf "\"" = [0x22] := bytesOf_ofList _
  have hinside :=
    (quoteBody_spec bs.length bs (le_refl _) _ (Nat.lt_succ_self _) rest).2
  rw [quote, bytesOf_append, bytesOf_append, hquote, List.append_assoc,
    List.append_assoc,
    List.singleton_append, List.singleton_append, quotedToken?, hinside]
  rfl

/-- A quoted string is read back as it was. -/
theorem unquote?_quote (bs : List UInt8) :
    unquote? (bytesOf (quote bs)) = some bs := by
  have hquote : bytesOf "\"" = [0x22] := bytesOf_ofList _
  rw [quote, bytesOf_append, bytesOf_append, hquote, List.append_assoc,
    List.singleton_append, unquote?]
  refine (quoteBody_spec bs.length bs (le_refl _) _ ?_ []).1
  rw [List.length_append]
  omega

end MirBackend.Text
