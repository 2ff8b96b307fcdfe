/-
Types of values, and the room they take.

A type has two sizes. `Ty.slots` is the room of a *value* in a frame or in a
call, where an array counts one slot: its address. `Ty.size` is the room in
*memory*, where arrays lie inline. The two agree on types without arrays.
Both are 64-bit sums and wrap around. `Ty.missing` stands where no type was
recorded; it takes one slot as a value and has no size.

A struct type records each field's slot offset beside its type. `Record.make`
computes them, and types are compared by `Ty.same`, which does not look at
offsets.
-/
import MirBackend.Halt

namespace MirBackend

/-- A field of a struct type: its name, the slot where it starts, its type. -/
structure FieldOf (α : Type) where
  name : String
  offset : Int64
  type : α
deriving DecidableEq, Repr

inductive Ty where
  /-- No type was recorded. -/
  | missing
  | felt
  | bool
  | u32
  | unit
  /-- A type left open by the front end; it takes one slot. -/
  | unknown
  | ptr (target : Ty)
  | tuple (elems : List Ty)
  | struct (name : String) (fields : List (FieldOf Ty))
  | array (elem : Ty) (length : Int64)
  | fn (params results : List Ty)
deriving Repr, Inhabited

/-- A field of a struct type. -/
abbrev TyField := FieldOf Ty

/-- The contents of a struct type. -/
structure Record where
  name : String := ""
  fields : List TyField := []
deriving Repr, Inhabited

namespace Ty

-- =================================================================== sizes

mutual

/-- The slots of a value of the type. -/
def slots : Ty → Int64
  | .u32 => 2
  | .unit => 0
  | .tuple ts => slotsOfList ts
  | .struct _ fs => slotsOfFields fs
  | .missing | .felt | .bool | .unknown | .ptr _ | .array .. | .fn .. => 1

/-- The slots of values side by side. -/
def slotsOfList : List Ty → Int64
  | [] => 0
  | t :: ts => slots t + slotsOfList ts

/-- The slots of fields side by side. -/
def slotsOfFields : List TyField → Int64
  | [] => 0
  | ⟨_, _, t⟩ :: fs => slots t + slotsOfFields fs

end

mutual

/-- The words of the type in memory, arrays inline. A type with a missing part
has no size. -/
def size : Ty → Option Int64
  | .missing => none
  | .u32 => some 2
  | .unit => some 0
  | .tuple ts => sizeOfList ts
  | .struct _ fs => sizeOfFields fs
  | .array t n => (size t).map (· * n)
  | .felt | .bool | .unknown | .ptr _ | .fn .. => some 1

/-- The words of types one after the other. -/
def sizeOfList : List Ty → Option Int64
  | [] => some 0
  | t :: ts => do return (← size t) + (← sizeOfList ts)

/-- The words of fields one after the other. -/
def sizeOfFields : List TyField → Option Int64
  | [] => some 0
  | ⟨_, _, t⟩ :: fs => do return (← size t) + (← sizeOfFields fs)

end

/-- The slots of the types before position `i`, if there is a type at that
position. -/
def tupleOffset (elems : List Ty) (i : Int) : Option Int64 :=
  if 0 ≤ i
    ∧ i < elems.length then some (slotsOfList (elems.take i.toNat)) else none

def isMissing : Ty → Bool
  | .missing => true
  | _ => false

def asTuple : Ty → Option (List Ty)
  | .tuple ts => some ts
  | _ => none

def asRecord : Ty → Option Record
  | .struct n fs => some ⟨n, fs⟩
  | _ => none

-- ================================================================ equality

mutual

/-- Whether two types are the same; offsets do not count. -/
def same : Ty → Ty → Bool
  | .missing, .missing | .felt, .felt | .bool, .bool | .u32, .u32 | .unit, .unit
  | .unknown, .unknown => true
  | .ptr a, .ptr b => same a b
  | .array a m, .array b n => m == n && same a b
  | .tuple as, .tuple bs => sameLists as bs
  | .struct m fs, .struct n gs => m == n && sameFields fs gs
  | .fn as rs, .fn bs ss => sameLists as bs && sameLists rs ss
  | _, _ => false

def sameLists : List Ty → List Ty → Bool
  | [], [] => true
  | a :: as, b :: bs => same a b && sameLists as bs
  | _, _ => false

def sameFields : List TyField → List TyField → Bool
  | [], [] => true
  | ⟨m, _, a⟩ :: fs, ⟨n, _, b⟩ :: gs => m == n && same a b && sameFields fs gs
  | _, _ => false

end

-- ============================================================ written form

mutual

/-- The type as the source language writes it. -/
def text : Ty → String
  | .missing | .unknown => "?"
  | .felt => "felt"
  | .bool => "bool"
  | .u32 => "u32"
  | .unit => "()"
  | .ptr t => "*" ++ text t
  | .array t n => "[" ++ text t ++ "; " ++ toString n.toInt ++ "]"
  | .tuple [t] => "(" ++ text t ++ ",)"
  | .tuple ts => "(" ++ textOfList ts ++ ")"
  | .struct n fs => n ++ "\x7b" ++ textOfFields fs ++ "\x7d"
  | .fn as rs => "fn(" ++ textOfList as ++ ") -> (" ++ textOfList rs ++ ")"

/-- Types with a comma and a blank between them. -/
def textOfList : List Ty → String
  | [] => ""
  | [t] => text t
  | t :: ts => text t ++ ", " ++ textOfList ts

/-- Fields, each `name: type`, with a comma and a blank between them. -/
def textOfFields : List TyField → String
  | [] => ""
  | [⟨n, _, t⟩] => n ++ ": " ++ text t
  | ⟨n, _, t⟩ :: fs => n ++ ": " ++ text t ++ ", " ++ textOfFields fs

end

end Ty

namespace Record

def toTy (r : Record) : Ty := .struct r.name r.fields

/-- Fields laid one after the other from slot `off`. -/
def place (off : Int64) : List (String × Ty) → List TyField
  | [] => []
  | (n, t) :: fs => ⟨n, off, t⟩ :: place (off + t.slots) fs

/-- The struct type with the given fields, each at the slot where the ones
before it end. -/
def make (name : String) (fields : List (String × Ty)) : Record :=
  ⟨name, place 0 fields⟩

/-- The first field with the name. -/
def field? (r : Record) (name : String) : Option TyField :=
  r.fields.find? (·.name == name)

/-- The slots before the first field with the name, and its type, from the field
types alone. -/
def slotOffset? (r : Record) (name : String) : Option (Int64 × Ty) :=
  go 0 r.fields
where
  go (off : Int64) : List TyField → Option (Int64 × Ty)
    | [] => none
    | f :: fs => if f.name == name then some (off,
      f.type) else go (off + f.type.slots) fs

end Record

end MirBackend
