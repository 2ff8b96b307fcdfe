/-
Frame layout: where the values of a function live, relative to the frame
pointer. In a function with M parameter slots and K return slots:

    fp - M - K - 2   first parameter slot
    fp - K - 2       first return slot
    fp - 2           frame pointer of the caller
    fp - 1           return address
    fp + 0           first local slot

Locals follow in the order of their definitions, each value once. The
destination of a frame allocation owns the memory it stands for, arrays
inline. Locals on one side and parameters with returns on the other are
bounded by `maxFrame`, so that offsets fit 32 bits.
-/
import MirBackend.Func

namespace MirBackend

/-- A run of slots, by its first offset and its length. -/
structure Span where
  base : Int32
  len : Int64
deriving DecidableEq, Repr

structure Layout where
  name : String
  spans : Std.ExtTreeMap ValueId Span := ∅
  /-- Values in the order they were laid out; a parameter listed twice occurs
  twice. -/
  order : List ValueId := []
  frameSize : Int64 := 0
  params : Nat := 0
  paramSlots : Int64 := 0
  returns : Nat := 0
  returnSlots : Int64 := 0

instance : Inhabited Layout := ⟨{ name := "" }⟩

/-- Why a function has no layout, or a value no place in one. -/
inductive LayoutError where
  | untypedParam (value : ValueId)
  | untypedAlloc (value : ValueId)
  | untypedValue (value : ValueId)
  | signatureOverflow (params returns : Int64)
  | valueOverflow (value : ValueId) (slots frame : Int64)
  | noLayout (func : String) (value : ValueId)
deriving DecidableEq, Repr

namespace LayoutError

def message : LayoutError → String
  | .untypedParam v => "no type for param " ++ valueText v
  | .untypedAlloc v => "no type for frame allocation " ++ valueText v
  | .untypedValue v => "no type for value " ++ valueText v
  | .signatureOverflow p r =>
      toString p.toInt ++ " param and " ++ toString r.toInt
          ++ " return slots: frame overflow"
  | .valueOverflow v n at_ =>
      "value " ++ valueText v ++ " of " ++ toString n.toInt ++ " slots at "
        ++ toString at_.toInt ++ ": frame overflow"
  | .noLayout f v => "func " ++ f ++ ": value " ++ valueText v ++ ": no layout"

/-- Whether a frame got too large. -/
def isOverflow : LayoutError → Bool
  | .signatureOverflow .. | .valueOverflow .. => true
  | _ => false

end LayoutError

namespace Layout

/-- Slots that a call uses for the caller's frame pointer and the return
address. -/
def callerSlots : Int32 := 2

/-- The most slots that locals, or parameters and returns together, may take. -/
def maxFrame : Int64 := 16777216

def place (l : Layout) (v : ValueId) (s : Span) : Layout :=
  { l with spans := l.spans.insert v s, order := l.order ++ [v] }

/-- The slots of the parameters, which must all be typed. -/
def paramSlotsOf (f : Func) : Except (Stop LayoutError) Int64 :=
  f.params.foldlM (fun n p => match f.types[p]? with
    | some t => .ok (n + t.slots)
    | none => .error (.fail (.untypedParam p))) 0

/-- Lay the parameters out one after the other from an offset. -/
def placeParams (f : Func) : Int32 → List ValueId → Layout → Layout
  | _, [], l => l
  | off, p :: ps, l =>
      let n := (f.typeOf p).slots
      placeParams f (off + n.toInt32) ps (l.place p ⟨off, n⟩)

/-- The slots of a destination: for a frame allocation the memory it stands
for. -/
def destSlots (f : Func) (i : Instr) (d : ValueId) :
    Except (Stop LayoutError) Int64 :=
  match i with
  | .frameAlloc _ t =>
      if t.isMissing then .error (.fail (.untypedAlloc d)) else liftChecked
        (orFault t.size)
  | _ => match f.types[d]? with
    | some t =>
      if t.isMissing then .error (.fail (.untypedValue d)) else .ok t.slots
    | none => .error (.fail (.untypedValue d))

/-- Lay out one destination unless it has its place already. -/
def placeDest (f : Func) (i : Instr) (l : Layout) (d : ValueId) :
    Except (Stop LayoutError) Layout :=
  if l.spans.contains d then .ok l
  else do
    let n ← destSlots f i d
    if n > maxFrame - l.frameSize then throw (.fail (.valueOverflow d n l.frameSize))
    let l := l.place d ⟨l.frameSize.toInt32, n⟩
    return { l with frameSize := l.frameSize + n }

/-- Lay out the destinations of the instructions of one place in the block
list. -/
def placeBlock (f : Func) (l : Layout) (b : Option Block) :
    Except (Stop LayoutError) Layout := do
  (← liftChecked (orFault b)).instrs.foldlM (fun l i => do
    let i ← liftChecked i.present
    i.dests.foldlM (placeDest f i) l) l

/-- The layout of a function. -/
def compute (f : Func) : Except (Stop LayoutError) Layout := do
  let returnSlots := Ty.slotsOfList f.returns
  let paramSlots ← paramSlotsOf f
  if paramSlots + returnSlots > maxFrame then
    throw (.fail (.signatureOverflow paramSlots returnSlots))
  let l : Layout :=
    { name := f.name, params := f.params.length, paramSlots,
      returns := f.returns.length,
      returnSlots }
  let off := -paramSlots.toInt32 - returnSlots.toInt32 - callerSlots
  f.blocks.foldlM (placeBlock f) (placeParams f off f.params l)

-- ================================================================= queries

/-- The first slot of a value. -/
def offset (l : Layout) (v : ValueId) : Except LayoutError Int32 :=
  match l.spans[v]? with
  | some s => .ok s.base
  | none => .error (.noLayout l.name v)

/-- How many slots a value has; one if it is not in the layout. -/
def slots (l : Layout) (v : ValueId) : Int64 := (l.spans[v]?.map (·.len)).getD 1

/-- Grow the frame by some slots that belong to no value; the answer is where
they start. -/
def reserve (l : Layout) (n : Int64) : Int32 × Layout :=
  (l.frameSize.toInt32, { l with frameSize := l.frameSize + n })

/-- The offset of the first return slot. -/
def returnOffset (l : Layout) : Int32 := -l.returnSlots.toInt32 - callerSlots

end Layout

end MirBackend
