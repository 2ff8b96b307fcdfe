/-
Types in the source language.

    ?  felt  bool  u32  ()  *T  [T; n]  (T)  (T,)  (T, U)
    {f: T, ...}  name{f: T, ...}  fn(T, ...) -> (U, ...)

Parentheses around a single type only group; a comma behind it makes a tuple
of one. Each rule takes at least one byte before it comes back to itself by
way of at most one other, so two turns a byte are enough; `fuel` counts them
down.
-/
import MirBackend.Source.Scan

namespace MirBackend.Source

/-- Whether the closing token is next; if so it is taken. -/
def closes (t : String) : Scan Bool := return (← attempt (token t)).isSome

mutual

/-- A type. -/
def typeWith : Nat → Scan Ty
  | 0 => do failAt (← get) .typeExpected
  | fuel + 1 => do
      skip
      match ← get with
      | [] => failAt [] .typeExpected
      | 0x3F :: s => set s; return .unknown
      | 0x2A :: s => set s; return .ptr (← typeWith fuel)
      | 0x5B :: s =>
          set s
          let elem ← typeWith fuel
          token ";"
          let n ← arrayLength
          token "]"
          return .array elem n
      | 0x28 :: s =>
          set s
          if ← closes ")" then return .unit
          else match ← elemsWith fuel [] false with
            | ([t], false) => return t
            | (ts, _) => return .tuple ts
      | 0x7B :: _ => return (← recordWith fuel "").toTy
      | s => match ← attempt ident with
        | none => failAt s .typeExpected
        | some "felt" => return .felt
        | some "bool" => return .bool
        | some "u32" => return .u32
        | some "fn" =>
            token "("
            let params ← listWith fuel []
            token "->"
            token "("
            return .fn params (← listWith fuel [])
        | some name =>
            if (← get).head? = some 0x7B
              then return (← recordWith fuel name).toTy
            else failAt s (.unknownType name)

/-- The components of a tuple up to the closing parenthesis, and whether a comma
was seen. -/
def elemsWith : Nat → List Ty → Bool → Scan (List Ty × Bool)
  | 0, _, _ => do failAt (← get) .typeExpected
  | fuel + 1, ts, comma => do
      if ← closes ")" then return (ts, comma)
      else if ts.isEmpty then
        let t ← typeWith fuel
        elemsWith fuel [t] comma
      else
        token ","
        if ← closes ")" then return (ts, true)
        else
          let t ← typeWith fuel
          elemsWith fuel (ts ++ [t]) true

/-- A struct type with the name, from its opening brace. -/
def recordWith : Nat → String → Scan Record
  | 0, _ => do failAt (← get) .typeExpected
  | fuel + 1, name => do
      token "\x7b"
      return Record.make name (← fieldsWith fuel [])

/-- The fields of a struct type up to the closing brace. -/
def fieldsWith : Nat → List (String × Ty) → Scan (List (String × Ty))
  | 0, _ => do failAt (← get) .typeExpected
  | fuel + 1, fs => do
      if ← closes "\x7d" then return fs
      else
        if !fs.isEmpty then token ","
        let name ← inPart "field name" ident
        token ":"
        let t ← inPart ("field " ++ name) (typeWith fuel)
        fieldsWith fuel (fs ++ [(name, t)])

/-- Types with commas between them up to the closing parenthesis. -/
def listWith : Nat → List Ty → Scan (List Ty)
  | 0, _ => do failAt (← get) .typeExpected
  | fuel + 1, ts => do
      if ← closes ")" then return ts
      else
        if !ts.isEmpty then token ","
        let t ← typeWith fuel
        listWith fuel (ts ++ [t])

/-- The length of an array: a number that is not negative. -/
def arrayLength : Scan Int64 := fun s =>
  match number s with
  | .ok (n, s) =>
    if n < 0 then .error ⟨s, .lengthExpected⟩ else .ok (Int64.ofInt n, s)
  | .error e => .error ⟨e.left, .lengthExpected⟩

end

/-- A type. -/
def type : Scan Ty := do typeWith (2 * (← get).length + 2)

/-- A value with its type, `%n: T`. -/
def typedValue : Scan (ValueId × Ty) := do
  let id ← valueId
  token ":"
  return (id, ← type)

/-- A text that is one type and nothing else but blanks before it. -/
def readType? (text : String) : Option Ty :=
  match type (Text.bytesOf text) with
  | .ok (t, _) => some t
  | .error _ => none

end MirBackend.Source
