/-
Tokens of the source language.

A scanner takes bytes off the front of what is left of the input. When it
fails, it says what it expected and how much of the input was left where it
noticed, so that the place can be counted in lines and columns afterwards.
Blanks, line ends and comments from `//` to the end of the line may stand
before any token.
-/
import MirBackend.Ty
import MirBackend.Text.Quoted

namespace MirBackend.Source

open Text (bytesOf)

/-- Why a text is not a module. -/
inductive ReadError where
  | expected (token : String)
  | numberExpected
  | identExpected
  | valueExpected
  | valueIdExpected
  | blockExpected
  | blockIdExpected
  | typeExpected
  | lengthExpected
  | unitExpected
  | messageExpected
  | badMessage
  | numberRange (digits : String)
  | literalRange (n : Int)
  | unknownType (name : String)
  | unknownInstr (name : String)
  | unknownOperation (name : String)
  | notComparison (name : String)
  | notOneDest (operation : String)
  | notValue (operation : String)
  | badDest (operation kind : String)
  | notPointer (type : Ty)
  | elemCount (given : Nat) (wanted : Int64)
  | blockOrder (block wanted : BlockId)
  | entryUndefined (entry : BlockId)
  | targetUndefined (target : BlockId)
  | redefined (func : String)
  | calleeUndefined (name : String)
  | resultCount (name : String) (given wanted : Nat)
  | within (part : String) (error : ReadError)
deriving Repr

def ReadError.message : ReadError → String
  | .expected t => "\"" ++ t ++ "\" expected"
  | .numberExpected => "number expected"
  | .identExpected => "identifier expected"
  | .valueExpected => "value expected"
  | .valueIdExpected => "value id expected"
  | .blockExpected => "block expected"
  | .blockIdExpected => "block id expected"
  | .typeExpected => "type expected"
  | .lengthExpected => "array length expected"
  | .unitExpected => "unit literal expected"
  | .messageExpected => "debug: message expected"
  | .badMessage => "debug message: invalid syntax"
  | .numberRange ds => "number: strconv.ParseInt: parsing \"" ++ ds
      ++ "\": value out of range"
  | .literalRange n => "literal " ++ toString n ++ " overflows int32"
  | .unknownType n => "unknown type: " ++ n
  | .unknownInstr n => "unknown instruction: " ++ n
  | .unknownOperation n => "unknown operation: " ++ n
  | .notComparison n => "brcmp: comparison expected, got " ++ n
  | .notOneDest op => op ++ ": one destination expected"
  | .notValue op => op ++ ": value expected"
  | .badDest op kind => op ++ ": " ++ kind ++ " destination expected"
  | .notPointer t => "framealloc: pointer destination expected, got " ++ t.text
  | .elemCount given wanted =>
      "array: " ++ toString given ++ " elements, type wants "
          ++ toString wanted.toInt
  | .blockOrder b w => "block " ++ blockText b
      ++ " out of order, want " ++ blockText w
  | .entryUndefined b => "entry block " ++ blockText b ++ " not defined"
  | .targetUndefined b => "jump to undefined block " ++ blockText b
  | .redefined n => "function " ++ n ++ " redefined"
  | .calleeUndefined n => "call to undefined function " ++ n
  | .resultCount n given wanted =>
      "call " ++ n ++ ": " ++ toString given ++ " results, function returns "
          ++ toString wanted
  | .within part e => underHeading part e.message

/-- An error and what was left of the input where it was noticed. -/
structure Failure where
  left : List UInt8
  error : ReadError

/-- Take something off the front of the input. -/
abbrev Scan := StateT (List UInt8) (Except Failure)

/-- Fail at the given rest of the input. -/
def failAt {α : Type} (left : List UInt8) (e : ReadError) : Scan α :=
  fun _ => .error ⟨left, e⟩

/-- Name the part that was being read in an error. -/
def inPart {α : Type} (part : String) (p : Scan α) : Scan α := fun s =>
  match p s with
  | .ok r => .ok r
  | .error ⟨left, e⟩ => .error ⟨left, .within part e⟩

/-- Read something if it is there; the input stays if it is not. -/
def attempt {α : Type} (p : Scan α) : Scan (Option α) := fun s =>
  match p s with
  | .ok (a, s) => .ok (some a, s)
  | .error _ => .ok (none, s)

-- ================================================================== blanks

def isDigit (b : UInt8) : Bool := 0x30 ≤ b ∧ b ≤ 0x39

/-- A letter or the underscore. -/
def isLetter (b : UInt8) : Bool :=
  (0x61 ≤ b ∧ b ≤ 0x7A) ∨ (0x41 ≤ b ∧ b ≤ 0x5A) ∨ b = 0x5F

/-- A blank, a tabulator or a carriage return. -/
def isBlank (b : UInt8) : Bool := b = 0x20 ∨ b = 0x09 ∨ b = 0x0D

/-- Whether the input goes on with a comment. -/
def atComment : List UInt8 → Bool
  | 0x2F :: 0x2F :: _ => true
  | _ => false

mutual

/-- What is left after blanks, line ends and comments. -/
def skipped : List UInt8 → List UInt8
  | [] => []
  | b :: s =>
      if isBlank b || b = 0x0A then skipped s
      else if atComment (b :: s) then skippedLine s
      else b :: s

/-- What is left after the end of the line and all that may be skipped there. -/
def skippedLine : List UInt8 → List UInt8
  | [] => []
  | b :: s => if b = 0x0A then skipped s else skippedLine s

end

/-- What is left after blanks on the same line. -/
def skippedBlanks (s : List UInt8) : List UInt8 := s.dropWhile isBlank

/-- Pass over what may stand before a token. -/
def skip : Scan Unit := modify skipped

-- ================================================================== tokens

/-- What follows a fixed text at the front of the input. -/
def after? : List UInt8 → List UInt8 → Option (List UInt8)
  | [], s => some s
  | _ :: _, [] => none
  | t :: ts, b :: s => if t = b then after? ts s else none

/-- A fixed token. -/
def token (t : String) : Scan Unit := do
  skip
  let s ← get
  match after? (bytesOf t) s with
  | some s => set s
  | none => failAt s (.expected t)

/-- A fixed word, not followed by a letter or digit. -/
def keyword (t : String) : Scan Unit := do
  skip
  let s ← get
  match after? (bytesOf t) s with
  | none => failAt s (.expected t)
  | some rest =>
      if rest.head?.any fun b => isLetter b
          || isDigit b then failAt s (.expected t)
      else set rest

/-- The text of bytes that are all below 128. -/
def asciiText (bs : List UInt8) : String :=
  String.ofList (bs.map fun b => Char.ofNat b.toNat)

/-- A name: a letter or underscore, then letters, digits, underscores and
points. -/
def ident : Scan String := do
  skip
  match ← get with
  | [] => failAt [] .identExpected
  | b :: s =>
      if isLetter b then
        let more := fun c => isLetter c || isDigit c || c = 0x2E
        set (s.dropWhile more)
        return asciiText (b :: s.takeWhile more)
      else failAt (b :: s) .identExpected

/-- The number that decimal digits write. -/
def digitsValue (ds : List UInt8) : Nat :=
  ds.foldl (fun n d => n * 10 + (d.toNat - 0x30)) 0

/-- A decimal number with an optional sign that fits 64 bits. -/
def number : Scan Int := do
  skip
  let s ← get
  let (sign, unsigned) := match s with
    | 0x2D :: s => (true, s)
    | s => (false, s)
  let ds := unsigned.takeWhile isDigit
  if ds.isEmpty then failAt s .numberExpected
  else
    let n : Int := if sign then -(digitsValue ds : Int) else digitsValue ds
    if -9223372036854775808 ≤ n ∧ n < 9223372036854775808 then
      set (unsigned.dropWhile isDigit)
      return n
    else
      failAt s (.numberRange ((if sign then "-" else "") ++ asciiText ds))

/-- A number that is not negative, directly behind what was read; `left` is
where a failure is noticed. -/
def idNumber (left : List UInt8) (e : ReadError) : Scan Int := fun s =>
  match number s with
  | .ok (n, s) => if n < 0 then .error ⟨left, e⟩ else .ok (n, s)
  | .error _ => .error ⟨left, e⟩

/-- A value, `%` and its number. -/
def valueId : Scan ValueId := do
  skip
  match ← get with
  | 0x25 :: s =>
      set s
      return Int64.ofInt (← idNumber (0x25 :: s) .valueIdExpected)
  | s => failAt s .valueExpected

/-- A block, `bb` and its number. -/
def blockId : Scan BlockId := do
  skip
  match ← get with
  | 0x62 :: 0x62 :: s =>
      set s
      idNumber (0x62 :: 0x62 :: s) .blockIdExpected
  | s => failAt s .blockExpected

/-- The end of a quoted token: the token and what follows it. A backslash
protects the byte behind it; a line end before the closing quote means there is
no token. -/
def quotedToken? : List UInt8 → Option (List UInt8 × List UInt8)
  | 0x22 :: s => (inside s).map fun (t, rest) => (0x22 :: t, rest)
  | _ => none
where
  inside : List UInt8 → Option (List UInt8 × List UInt8)
    | [] => none
    | [b] => if b = 0x22 then some ([0x22], []) else none
    | b :: c :: s =>
        if b = 0x5C then (inside s).map fun (t, rest) => (b :: c :: t, rest)
        else if b = 0x22 then some ([0x22], c :: s)
        else if b = 0x0A then none
        else (inside (c :: s)).map fun (t, rest) => (b :: t, rest)

/-- A message in double quotes. -/
def message : Scan (List UInt8) := do
  skip
  let s ← get
  match quotedToken? s with
  | none => failAt s .messageExpected
  | some (t, rest) => match Text.unquote? t with
    | none => failAt s .badMessage
    | some bs =>
        set rest
        return bs

-- =============================================================== positions

/-- Line and column, from 1, of the end of a piece of input; columns count
bytes. -/
def lineColumn (before : List UInt8) : Nat × Nat :=
  before.foldl (fun (line, col) (b : UInt8) =>
    if b = 0x0A then (line + 1, 1) else (line, col + 1)) (1, 1)

/-- The text of a failure on the given input: line, column and error. -/
def Failure.message (input : List UInt8) (e : Failure) : String :=
  let (line, col) := lineColumn (input.take (input.length - e.left.length))
  underHeading (toString line ++ ":" ++ toString col) e.error.message

end MirBackend.Source
