/-
Characters in bytes, and bytes that are none.

`decode?` takes one character off the front of a byte sequence: the shortest
form only, no surrogates, nothing above U+10FFFF. Bytes that begin no such
character are for the caller to deal with, one at a time.
-/

namespace MirBackend.Text

/-- The bytes of a text. -/
def bytesOf (s : String) : List UInt8 := s.toUTF8.toList

/-- The bytes of a character. -/
def encodeChar (c : Char) : List UInt8 := String.utf8EncodeChar c

/-- Whether a byte continues a character. -/
def isContinuation (b : UInt8) : Bool := b &&& 0xC0 == 0x80

/-- The six low bits of a continuation byte. -/
def payload (b : UInt8) : Nat := (b &&& 0x3F).toNat

/-- The character of a code point that its form may hold: at least `least`, and
a character. -/
def scalar? (least n : Nat) : Option Char :=
  if least ≤ n ∧ n.isValidChar then some (Char.ofNat n) else none

/-- The character at the front and what follows it; none at the end and where no
character begins. -/
def decode? : List UInt8 → Option (Char × List UInt8)
  | [] => none
  | a :: rest =>
      if a < 0x80 then some (Char.ofNat a.toNat, rest)
      else if 0xC0 ≤ a ∧ a < 0xE0 then
        match rest with
        | b :: rest =>
            if isContinuation b then
              (scalar? 0x80 ((a &&& 0x1F).toNat * 64 + payload b)).map (·, rest)
            else none
        | _ => none
      else if 0xE0 ≤ a ∧ a < 0xF0 then
        match rest with
        | b :: c :: rest =>
            if isContinuation b && isContinuation c then
              (scalar? 0x800 ((a &&& 0x0F).toNat * 4096 + payload b * 64
                + payload c)).map (·, rest)
            else none
        | _ => none
      else if 0xF0 ≤ a ∧ a < 0xF8 then
        match rest with
        | b :: c :: d :: rest =>
            if isContinuation b && isContinuation c && isContinuation d then
              (scalar? 0x10000 ((a &&& 0x07).toNat * 262144
                + payload b * 4096 + payload c * 64
                + payload d)).map (·, rest)
            else none
        | _ => none
      else none

/-- The text of bytes that are all characters. -/
def ofBytes? (bs : List UInt8) : Option String :=
  String.fromUTF8? (ByteArray.mk bs.toArray)

end MirBackend.Text
