/-
Writing a function instruction by instruction.

A draft is a function and the block that is being written. Each step takes
fresh value numbers for its results, records their types and appends to the
current block; writing into a block that is not there is a fault.

A *place* is a memory location: a pointer and the projections that lead from
what it points at to a component. Its address is computed by instructions that
advance the pointer. Offsets are in memory words, where arrays lie inline;
steps of length zero are left out. When a projection does not fit its type the
instructions for the ones before it stay in the draft.
-/
import MirBackend.Func.Edges

namespace MirBackend

/-- A function and the block being written. -/
structure Draft where
  func : Func
  cur : BlockId
deriving Inhabited

/-- One step from a value to a component of it. -/
inductive Projection where
  | index (v : Operand)
  | field (name : String)
  | tuple (i : Int)
  | unsupported (kind : UInt8)
deriving DecidableEq, Repr

/-- A memory location: a pointer and the way from what it points at to a
component. -/
structure Place where
  base : ValueId
  projections : List Projection := []
deriving DecidableEq, Repr

/-- Why a place has no address. -/
inductive PlaceError where
  | notPointer (base : ValueId) (type : Ty)
  | notStruct (position : Nat) (field : String) (type : Ty)
  | noField (position : Nat) (field : String) (type : Ty)
  | badTuple (position : Nat) (index : Int) (type : Ty)
  | notArray (position : Nat) (type : Ty)
  | badKind (position : Nat) (kind : UInt8)
  | within (action : String) (error : PlaceError)
deriving Repr

def PlaceError.message : PlaceError → String
  | .notPointer v t => "place base " ++ valueText v
      ++ " is not a pointer: " ++ t.text
  | .notStruct i n t =>
      "projection " ++ toString i ++ ": field " ++ n
          ++ " of non-struct " ++ t.text
  | .noField i n t => "projection " ++ toString i ++ ": no field " ++ n
      ++ " in " ++ t.text
  | .badTuple i k t =>
      "projection " ++ toString i ++ ": tuple index " ++ toString k
          ++ " of " ++ t.text
  | .notArray i t => "projection " ++ toString i
      ++ ": index into non-array " ++ t.text
  | .badKind i k =>
      "projection " ++ toString i ++ ": unsupported kind " ++ toString k.toNat
  | .within action e => underHeading action e.message

/-- Steps of drafting; a draft cut short by an error keeps what was written. -/
abbrev Drafting := EStateM (Stop PlaceError) Draft

namespace Draft

/-- A draft that starts at the entry. -/
def start (f : Func) : Draft := ⟨f, f.entry⟩

-- ============================================================= basic steps

/-- A step that changes the function or halts. -/
def edit (g : Func → Changing Func Func) : Drafting Unit := fun d =>
  match g d.func with
  | .ok f => .ok () { d with func := f }
  | .error h => .error (.halt h.reason) { d with func := h.left }

/-- A step that takes something new from the function. -/
def take {α : Type} (g : Func → α × Func) : Drafting α := fun d =>
  let (a, f) := g d.func
  .ok a { d with func := f }

/-- What is there, or a fault. -/
def need {α : Type} (a : Option α) : Drafting α := fun d =>
  match a with
  | some a => .ok a d
  | none => .error (.halt .fault) d

/-- The type of an operand in the function being written. -/
def typeOf (v : Operand) : Drafting Ty := return (← get).func.operandType v

/-- Start a new block; the current one stays. -/
def block (name : String) : Drafting BlockId := take (·.newBlock name)

/-- Go on writing in another block. -/
def setBlock (b : BlockId) : Drafting Unit :=
  modify fun d => { d with cur := b }

/-- Append an instruction to the current block. -/
def push (i : Instr) : Drafting Unit := do
  let cur := (← get).cur
  edit (·.updateBlock cur (·.push i))

/-- Take a fresh value of the type and append the instruction that defines
it. -/
def define (t : Ty) (i : ValueId → Instr) : Drafting ValueId := do
  let d ← take (·.newTyped t)
  push (i d)
  return d

-- ============================================================ instructions

/-- The given type, or that of the operand when it is missing. -/
def typeOr (t : Ty) (v : Operand) : Drafting Ty :=
  if t.isMissing then typeOf v else pure t

def assign (v : Operand) (t : Ty) : Drafting ValueId := do
  let t ← typeOr t v
  define t fun d => .assign d v t

def unary (op : UnaryOp) (v : Operand) : Drafting ValueId := do
  let t ← typeOf v
  define (if op = .not then .bool else t) fun d => .unary op d v

def binary (op : BinaryOp) (l r : Operand) : Drafting ValueId := do
  define (op.resultType (← typeOf l)) fun d => .binary op d l r

/-- A phi goes behind the phis that the block has already. -/
def phi (t : Ty) (sources : List PhiSource) : Drafting ValueId := do
  let d ← take (·.newTyped t)
  let cur := (← get).cur
  edit (·.updateBlock cur (·.pushPhi (.phi d t sources)))
  return d

/-- Add a source to the first phi in the list that defines the value. -/
def addSource (dest : ValueId) (src : PhiSource) : List Instr →
    Option (List Instr)
  | [] => none
  | .phi d t ss :: rest =>
      if d = dest then some (.phi d t (ss ++ [src]) :: rest)
      else (addSource dest src rest).map (.phi d t ss :: ·)
  | i :: rest => (addSource dest src rest).map (i :: ·)

/-- Add a source to the phi that defines the value in a block; whether there is
one. -/
def addPhiSource (b : BlockId) (dest : ValueId) (src : PhiSource) :
    Drafting Bool := do
  let blk ← need ((← get).func.block? b)
  match addSource dest src blk.instrs with
  | none => return false
  | some is =>
      edit (·.updateBlock b fun blk => { blk with instrs := is })
      return true

def call (callee : FuncId) (sig : Signature) (args : List Operand) :
    Drafting (List ValueId) := do
  let ds ← sig.returns.mapM fun t => take (·.newTyped t)
  push (.call ds callee args sig)
  return ds

def frameAlloc (t : Ty) : Drafting ValueId :=
  define (.ptr t) fun d => .frameAlloc d t

def load (address : Operand) (t : Ty) : Drafting ValueId :=
  define t fun d => .load d t address

def store (address v : Operand) (t : Ty) : Drafting Unit := do
  push (.store address v (← typeOr t v))

/-- Advance an address; the result points at the element type. -/
def elementPtr (base offset : Operand) (elem : Ty) : Drafting ValueId :=
  define (.ptr elem) fun d => .elementPtr d base offset

def addressOf (v : ValueId) : Drafting ValueId := do
  define (.ptr (← typeOf (.value v))) fun d => .addressOf d v

def cast (v : Operand) (t : Ty) : Drafting ValueId := do
  let d ← take (·.newTyped t)
  push (.cast d v (← typeOf v) t)
  return d

def debug (message : List UInt8) (vs : List Operand) : Drafting Unit :=
  push (.debug message vs)

def makeTuple (vs : List Operand) : Drafting ValueId := do
  let ts ← vs.mapM typeOf
  define (.tuple ts) fun d => .makeTuple d vs ts

/-- The type of a tuple's component; unknown if there is none. -/
def componentType (t : Ty) (i : Int) : Ty :=
  match t with
  | .tuple ts => if 0 ≤ i then ts.getD i.toNat .unknown else .unknown
  | _ => .unknown

def extractTuple (v : Operand) (i : Int) : Drafting ValueId := do
  let t := componentType (← typeOf v) i
  define t fun d => .extractTuple d v i t

def insertTuple (v : Operand) (i : Int) (x : Operand) : Drafting ValueId := do
  let ts := (← typeOf v).asTuple.getD []
  define (.tuple ts) fun d => .insertTuple d v i x ts

def makeStruct (r : Record) (fields : List (String × Operand)) :
    Drafting ValueId :=
  define r.toTy fun d => .makeStruct d fields r

def extractField (v : Operand) (name : String) : Drafting ValueId := do
  let field := (← typeOf v).asRecord.bind (·.field? name)
  let t := (field.map (·.type)).getD .unknown
  define t fun d => .extractField d v name t

def insertField (v : Operand) (name : String) (x : Operand) :
    Drafting ValueId := do
  let r := (← typeOf v).asRecord.getD {}
  define r.toTy fun d => .insertField d v name x r

def makeArray (elem : Ty) (vs : List Operand) : Drafting ValueId :=
  define (.array elem (Int64.ofNat vs.length)) fun d => .makeArray d vs elem

-- ============================================================= terminators

/-- End the current block. -/
def terminate (t : Terminator) : Drafting Unit := do
  let cur := (← get).cur
  edit (·.setTerm cur (some t))
  edit (·.updateBlock cur fun b => { b with filled := true })

def jump (target : BlockId) : Drafting Unit := terminate (.jump target)

def branch (cond : Operand) (onTrue onFalse : BlockId) : Drafting Unit :=
  terminate (.branch cond onTrue onFalse)

def ret (vs : List Operand) : Drafting Unit := terminate (.ret vs)

-- ================================================================== places

/-- The words before the first field with the name, and its type. -/
def fieldPlace (name : String) (off : Int64) : List TyField →
    Drafting (Option (Int64 × Ty))
  | [] => return none
  | f :: fs =>
      if f.name == name then return some (off, f.type)
      else do fieldPlace name (off + (← need f.type.size)) fs

/-- The step to a component: its distance and its type. -/
def step (position : Nat) (t : Ty) : Projection → Drafting (Operand × Ty)
  | .field name => match t.asRecord with
    | none => throw (.fail (.notStruct position name t))
    | some r => do
        match ← fieldPlace name 0 r.fields with
        | none => throw (.fail (.noField position name t))
        | some (off, ft) => return (.int off.toInt32, ft)
  | .tuple i => match t.asTuple with
    | none => throw (.fail (.badTuple position i t))
    | some ts =>
        if 0 ≤ i ∧ i < ts.length then do
          let off ← need (Ty.sizeOfList (ts.take i.toNat))
          return (.int off.toInt32, ts.getD i.toNat .missing)
        else throw (.fail (.badTuple position i t))
  | .index v => match t with
    | .array elem _ => do
        let stride := (← need elem.size).toInt32
        match v.imm? with
        | some n => return (.int (n * stride), elem)
        | none =>
            if stride = 1 then return (v, elem)
            else return (.value (← binary .mul v (.int stride)), elem)
    | _ => throw (.fail (.notArray position t))
  | .unsupported k => throw (.fail (.badKind position k))

/-- Follow projections from an address to something of type `t`. -/
def follow (position : Nat) (addr : Operand) (t : Ty) : List Projection →
    Drafting (Operand × Ty)
  | [] => return (addr, t)
  | p :: ps => do
      let (off, t) ← step position t p
      if off.isZero then follow (position + 1) addr t ps
      else follow (position + 1) (.value (← elementPtr addr off t)) t ps

/-- The address of a place and the type of what lies there. -/
def placeAddress (p : Place) : Drafting (Operand × Ty) := do
  match ← typeOf (.value p.base) with
  | .ptr t => follow 0 (.value p.base) t p.projections
  | t => throw (.fail (.notPointer p.base t))

/-- Name the action in an error. -/
def during {α : Type} (action : String) (m : Drafting α) :
    Drafting α := fun d =>
  match m d with
  | .ok a d => .ok a d
  | .error (.fail e) d => .error (.fail (.within action e)) d
  | .error (.halt h) d => .error (.halt h) d

def loadPlace (p : Place) : Drafting ValueId := do
  let (addr, t) ← during "load place" (placeAddress p)
  load addr t

def storePlace (p : Place) (v : Operand) : Drafting Unit := do
  let (addr, t) ← during "store place" (placeAddress p)
  store addr v t

end Draft

end MirBackend
