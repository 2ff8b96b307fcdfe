/-
Byte strings between double quotes.

`quote` writes printable characters as they are, a backslash before a quote or
a backslash, the usual letters for control characters, and the number of any
other character; a byte that belongs to no character is written `\xNN`.

`unquote?` reads the same escapes, octal ones too. A byte that begins no
character and is written raw reads as U+FFFD; written `\xNN` it stays that
byte. A raw line end, an unknown escape, or a code point that is no character
is not accepted.
-/
import MirBackend.Text.Printable
import MirBackend.Text.Utf8

namespace MirBackend.Text

-- ================================================================= writing

/-- One hexadecimal digit, in lower case. -/
def hexDigit (n : Nat) : Char := Nat.digitChar (n % 16)

/-- A number in exactly `width` hexadecimal digits, the low ones. -/
def hexText : Nat → Nat → String
  | 0, _ => ""
  | width + 1, n => hexText width (n / 16) ++ (hexDigit n).toString

/-- The letter that escapes a control character. -/
def escapeLetter : Char → Option Char
  | '\x07' => some 'a'
  | '\x08' => some 'b'
  | '\x0c' => some 'f'
  | '\n' => some 'n'
  | '\r' => some 'r'
  | '\t' => some 't'
  | '\x0b' => some 'v'
  | _ => none

/-- One character between quotes. -/
def quoteChar (c : Char) : String :=
  if c = '"' ∨ c = '\\' then "\\" ++ c.toString
  else if isPrintable c then c.toString
  else match escapeLetter c with
    | some l => "\\" ++ l.toString
    | none =>
        if c.toNat < 0x20 ∨ c.toNat = 0x7F then "\\x" ++ hexText 2 c.toNat
        else if c.toNat < 0x10000 then "\\u" ++ hexText 4 c.toNat
        else "\\U" ++ hexText 8 c.toNat

/-- Bytes between quotes, without the quotes; the number of turns is at least
that of the bytes. -/
def quoteBody : Nat → List UInt8 → String
  | 0, _ => ""
  | _, [] => ""
  | n + 1, b :: rest => match decode? (b :: rest) with
    | some (c, rest) => quoteChar c ++ quoteBody n rest
    | none => "\\x" ++ hexText 2 b.toNat ++ quoteBody n rest

/-- Bytes in double quotes. -/
def quote (bs : List UInt8) : String := "\"" ++ quoteBody bs.length bs ++ "\""

/-- A text in double quotes. -/
def quoteText (s : String) : String := quote (bytesOf s)

-- ================================================================= reading

/-- The value of a hexadecimal digit. -/
def hexValue? (b : UInt8) : Option Nat :=
  if 0x30 ≤ b ∧ b ≤ 0x39 then some (b.toNat - 0x30)
  else if 0x61 ≤ b ∧ b ≤ 0x66 then some (b.toNat - 0x61 + 10)
  else if 0x41 ≤ b ∧ b ≤ 0x46 then some (b.toNat - 0x41 + 10)
  else none

/-- The value of an octal digit. -/
def octalValue? (b : UInt8) : Option Nat :=
  if 0x30 ≤ b ∧ b ≤ 0x37 then some (b.toNat - 0x30) else none

/-- Exactly `count` digits of a base, continuing the number `acc`. -/
def digits? (value? : UInt8 → Option Nat) (base : Nat) :
    Nat → Nat → List UInt8 → Option (Nat × List UInt8)
  | 0, acc, s => some (acc, s)
  | _ + 1, _, [] => none
  | count + 1, acc, b :: s => do digits? value? base count (acc * base + (← value? b)) s

/-- A code point in `count` hexadecimal digits. -/
def codePoint? (count : Nat) (s : List UInt8) :
    Option (List UInt8 × List UInt8) := do
  let (n, s) ← digits? hexValue? 16 count 0 s
  return (encodeChar (← scalar? 0 n), s)

/-- What follows a backslash: the bytes it stands for, and the rest. -/
def escape? : List UInt8 → Option (List UInt8 × List UInt8)
  | [] => none
  | b :: s => match Char.ofNat b.toNat with
    | 'a' => some ([7], s)
    | 'b' => some ([8], s)
    | 'f' => some ([12], s)
    | 'n' => some ([10], s)
    | 'r' => some ([13], s)
    | 't' => some ([9], s)
    | 'v' => some ([11], s)
    | '\\' => some ([0x5C], s)
    | '"' => some ([0x22], s)
    | 'x' => do
        let (n, s) ← digits? hexValue? 16 2 0 s
        return ([UInt8.ofNat n], s)
    | 'u' => codePoint? 4 s
    | 'U' => codePoint? 8 s
    | _ => do
        let d ← octalValue? b
        let (n, s) ← digits? octalValue? 8 2 d s
        if n > 255 then none else some ([UInt8.ofNat n], s)

/-- The bytes up to the closing quote, which must come last; `n` bounds the
characters read. -/
def unquoteBody? : Nat → List UInt8 → Option (List UInt8)
  | 0, _ => none
  | _, [] => none
  | n + 1, b :: s =>
      if b = 0x22 then (if s.isEmpty then some [] else none)
      else if b = 0x0A then none
      else if b = 0x5C then do
        let (bs, s) ← escape? s
        return bs ++ (← unquoteBody? n s)
      else match decode? (b :: s) with
        | some (c, s) => (unquoteBody? n s).map (encodeChar c ++ ·)
        | none => (unquoteBody? n s).map (encodeChar '\uFFFD' ++ ·)

/-- The bytes that a token in double quotes stands for. -/
def unquote? : List UInt8 → Option (List UInt8)
  | 0x22 :: s => unquoteBody? (s.length + 1) s
  | _ => none

end MirBackend.Text
