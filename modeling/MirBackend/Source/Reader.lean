/-
Modules in the source language.

A function is read block by block into a list of instructions and a terminator
each; the edges are set at its end, when every block is known. A value is
announced where it is first mentioned and typed where it is defined, so the
types of stores and of what casts start from are filled in at the end of the
function too.

A call may name a function further down. While reading, a call carries the
number of its turn among all calls of the text; when the whole module is
there, the calls are resolved in that order.
-/
import MirBackend.Source.TypeReader
import MirBackend.Func.Edges

namespace MirBackend.Source

/-- A call whose callee is known by name or number only. -/
structure PendingCall where
  name : String
  /-- The number, if the callee was given as one. -/
  number : Option Int
  results : Nat
  /-- What was left of the input behind the word that announced the call. -/
  left : List UInt8

/-- What reading a function keeps beside the input. -/
structure Context where
  func : Func
  /-- All calls of the text so far, the latest first. -/
  calls : List PendingCall := []
  /-- Every type written for a value so far, with the function and the value,
  the latest first. -/
  annotations : List (String × ValueId × Ty) := []

/-- Read a part of a function. -/
abbrev Read := StateT Context Scan

/-- Name the part that was being read in an error. -/
def Read.inPart {α : Type} (part : String) (p : Read α) : Read α := fun c s =>
  Source.inPart part (p c) s

/-- Fail at the given rest of the input. -/
def Read.failAt {α : Type} (left : List UInt8) (e : ReadError) :
    Read α := fun _ =>
  Source.failAt left e

/-- What is left of the input. -/
def left : Read (List UInt8) := fun c s => .ok ((s, c), s)

/-- Go on with another rest of the input. -/
def setLeft (s : List UInt8) : Read Unit := fun c _ => .ok (((), c), s)

/-- As many turns as a loop can take that uses up input on each. -/
def turns : Read Nat := fun c s => .ok ((s.length + 1, c), s)

/-- Change the function being read. -/
def editFunc (g : Func → Func) : Read Unit :=
  modify fun c => { c with func := g c.func }

/-- Declare a value with the type written for it. -/
def annotate (id : ValueId) (t : Ty) : Read Unit := modify fun c =>
  { c with func := c.func.declare id t,
           annotations := (c.func.name, id, t) :: c.annotations }

-- ================================================================ operands

/-- A literal or a value; a value is announced to the function. -/
def operand : Read Operand := do
  skip
  let s ← left
  match s with
  | [] => Read.failAt s .valueExpected
  | b :: rest =>
      if b = 0x25 then
        let id ← (valueId : Scan ValueId)
        editFunc (·.announce id)
        return .value id
      else if b = 0x2D || isDigit b then
        let n ← (number : Scan Int)
        if -2147483648 ≤ n ∧ n < 2147483648 then return .int (Int32.ofInt n)
        else Read.failAt s (.literalRange n)
      else if b = 0x28 then
        setLeft rest
        if ← closes ")" then return .unit
        else Read.failAt (skipped rest) .unitExpected
      else if (← attempt (keyword "true")).isSome then return .bool true
      else if (← attempt (keyword "false")).isSome then return .bool false
      else match after? (Text.bytesOf "<error>") s with
        | some rest =>
            setLeft rest
            return .error
        | none => Read.failAt s .valueExpected

/-- Two operands with a comma between them. -/
def operandPair : Read (Operand × Operand) := do
  let l ← operand
  token ","
  return (l, ← operand)

/-- Further operands of a list that ends with the line: a comma must follow on
the same line. -/
def moreOperands : Nat → List Operand → Read (List Operand)
  | 0, vs => return vs
  | fuel + 1, vs => do
      match skippedBlanks (← left) with
      | 0x2C :: rest =>
          setLeft rest
          let v ← operand
          moreOperands fuel (vs ++ [v])
      | _ => return vs

/-- Operands up to the end of the line; there may be none. -/
def operandLine : Read (List Operand) := do
  let s := skippedBlanks (← left)
  setLeft s
  if s.isEmpty || s.head? = some 0x0A || s.head? = some 0x7D
      || atComment s then return []
  else
    let v ← operand
    moreOperands (← turns) [v]

/-- Items up to a closing token, with commas between them; an item knows its
position. -/
def itemsUpTo {α : Type} (close : String) (item : Nat → Read α) :
    Nat → List α → Read (List α)
  | 0, _ => do Read.failAt (← left) (.expected close)
  | fuel + 1, as => do
      if ← closes close then return as
      else
        if !as.isEmpty then token ","
        let a ← item as.length
        itemsUpTo close item fuel (as ++ [a])

-- ============================================================ instructions

/-- The name or number of a callee. -/
def callee : Scan (String × Option Int) := do
  if (← get).head?.any isDigit then
    let n ← number
    return (toString n, some n)
  else return (← ident, none)

/-- A call, behind the word that announces it. -/
def callWith (dests : List ValueId) : Read Instr := do
  let start ← left
  token "@"
  let (name, number) ← inPart "callee" callee
  token "("
  let args ← itemsUpTo ")"
    (fun j => Read.inPart ("arg " ++ toString j) operand) (← turns) []
  let c ← get
  let turn : FuncId := c.calls.length
  set { c with calls := ⟨name, number, dests.length, start⟩ :: c.calls }
  return .call dests turn args {}

/-- One source of a phi, `[block: value]`. -/
def phiSource : Read PhiSource := do
  token "["
  let b ← (blockId : Scan BlockId)
  token ":"
  let v ← operand
  token "]"
  return ⟨b, v⟩

/-- Further sources of a phi. -/
def morePhiSources : Nat → List PhiSource → Read (List PhiSource)
  | 0, ss => return ss
  | fuel + 1, ss => do
      if ← closes "," then
        let s ← phiSource
        morePhiSources fuel (ss ++ [s])
      else return ss

/-- The two targets of a branch. -/
def branchTargets : Scan (BlockId × BlockId) := do
  keyword "then"
  let t ← blockId
  keyword "else"
  return (t, ← blockId)

/-- A comma and a number. -/
def commaNumber : Scan Int := do
  token ","
  number

/-- The given values of a struct's fields, `name: value`, as many as the struct
has. -/
def fieldValues : List TyField → List (String × Operand) →
    Read (List (String × Operand))
  | [], vs => return vs
  | _ :: fs, vs => do
      if !vs.isEmpty then token ","
      let name ← (ident : Scan String)
      token ":"
      let v ← operand
      fieldValues fs (vs ++ [(name, v)])

/-- An operation that defines the value `d` of recorded type `t`. `opened` is
the input from the operation's name on and `named` the input behind it, for
failures noticed there. -/
def operation (op : String) (d : ValueId) (t : Ty)
    (opened named : List UInt8) : Read Instr := do
  match UnaryOp.ofName? op with
  | some u => return .unary u d (← operand)
  | none =>
  match BinaryOp.ofName? op with
  | some b =>
      let (l, r) ← operandPair
      return .binary b d l r
  | none =>
  match op with
  | "assign" => return .assign d (← operand) t
  | "load" => return .load d t (← operand)
  | "framealloc" => match t with
    | .ptr x => return .frameAlloc d x
    | _ => Read.failAt opened (.notPointer t)
  | "addressof" => match ← operand with
    | .value id => return .addressOf d id
    | _ => Read.failAt named (.notValue "addressof")
  | "gep" =>
      let (b, o) ← operandPair
      return .elementPtr d b o
  | "cast" => return .cast d (← operand) .missing t
  | "phi" =>
      let s ← phiSource
      return .phi d t (← morePhiSources (← turns) [s])
  | "tuple" => match t with
    | .tuple ts => return .makeTuple d (← operandLine) ts
    | _ => Read.failAt opened (.badDest "tuple" "tuple")
  | "extract" =>
      let v ← operand
      return .extractTuple d v (← (commaNumber : Scan Int)) t
  | "inserttuple" => match t with
    | .tuple ts =>
        let v ← operand
        let i ← (commaNumber : Scan Int)
        token ","
        return .insertTuple d v i (← operand) ts
    | _ => Read.failAt opened (.badDest "inserttuple" "tuple")
  | "struct" => match t with
    | .struct n fs => return .makeStruct d (← fieldValues fs []) ⟨n, fs⟩
    | _ => Read.failAt named (.badDest "struct" "struct")
  | "field" =>
      let v ← operand
      token ","
      return .extractField d v (← (ident : Scan String)) t
  | "insertfield" =>
      let v ← operand
      token ","
      let name ← (ident : Scan String)
      match t with
      | .struct n fs =>
          token ","
          return .insertField d v name (← operand) ⟨n, fs⟩
      | _ => Read.failAt named (.badDest "insertfield" "struct")
  | "array" => match t with
    | .array x n =>
        let vs ← operandLine
        if Int64.ofNat vs.length = n then return .makeArray d vs x
        else Read.failAt named (.elemCount vs.length n)
    | _ => Read.failAt named (.badDest "array" "array")
  | _ => Read.failAt opened (.unknownOperation op)

/-- What stands behind the equals sign of a definition. -/
def definition (dests : List ValueId) : Read Instr := do
  skip
  let opened ← left
  let op ← inPart "operation" ident
  if op = "call" then callWith dests
  else match dests with
    | [d] => operation op d ((← get).func.types.getD d .missing) opened (← left)
    | _ => Read.failAt opened (.notOneDest op)

/-- The destinations of a definition, each declared with its type. -/
def destinations : Nat → List ValueId → Read (List ValueId)
  | 0, ds => return ds
  | fuel + 1, ds => do
      let (id, t) ← (typedValue : Scan (ValueId × Ty))
      annotate id t
      if ← closes "," then destinations fuel (ds ++ [id]) else return ds ++ [id]

/-- An instruction or a terminator. -/
def statement : Read (Instr ⊕ Terminator) := do
  let start ← left
  skip
  if (← left).head? = some 0x25 then
    let ds ← destinations (← turns) []
    token "="
    return .inl (← definition ds)
  else
    let op ← inPart "instruction" ident
    match op with
    | "store" =>
        let (a, v) ← operandPair
        return .inl (.store a v .missing)
    | "debug" =>
        let m ← (message : Scan (List UInt8))
        return .inl (.debug m (← operandLine))
    | "nop" => return .inl .nop
    | "call" => return .inl (← callWith [])
    | "jump" => return .inr (.jump (← (blockId : Scan BlockId)))
    | "if" =>
        let c ← operand
        let (t, e) ← (branchTargets : Scan (BlockId × BlockId))
        return .inr (.branch c t e)
    | "brcmp" =>
        let named ← left
        let name ← (ident : Scan String)
        match (BinaryOp.ofName? name).filter BinaryOp.isComparison with
        | none => Read.failAt named (.notComparison name)
        | some b =>
            let (l, r) ← operandPair
            let (t, e) ← (branchTargets : Scan (BlockId × BlockId))
            return .inr (.branchCmp b l r t e)
    | "return" => return .inr (.ret (← operandLine))
    | "unreachable" => return .inr .unreachable
    | _ => Read.failAt start (.unknownInstr op)

-- ================================================================== blocks

/-- Statements up to the terminator, which comes with the input from it on. -/
def statements : Nat → List Instr → Read (List Instr × Terminator × List UInt8)
  | 0, _ => do Read.failAt (← left) .identExpected
  | fuel + 1, is => do
      let here := skipped (← left)
      match ← statement with
      | .inl i => statements fuel (is ++ [i])
      | .inr t => return (is, t, here)

/-- A block as it was read: its edges are not set yet. -/
structure RawBlock where
  name : String
  instrs : List Instr
  term : Terminator
  /-- The input from the terminator on. -/
  termLeft : List UInt8

/-- The block with the number `want`, from its label on. -/
def rawBlock (want : BlockId) : Read RawBlock := do
  let start := skipped (← left)
  let id ← inPart "block label" blockId
  if id ≠ want then Read.failAt start (.blockOrder id want)
  else
    let name := (← attempt ident).getD ""
    token ":"
    let (is, t, here) ← Read.inPart ("block " ++ blockText id)
      (do statements (← turns) [])
    return ⟨name, is, t, here⟩

/-- Blocks up to the closing brace. -/
def rawBlocks : Nat → List RawBlock → Read (List RawBlock)
  | 0, _ => do Read.failAt (← left) .blockExpected
  | fuel + 1, bs => do
      if ← closes "\x7d" then return bs
      else
        let b ← rawBlock bs.length
        rawBlocks fuel (bs ++ [b])

/-- Fill in the types that the text does not write: what a store stores and what
a cast starts from. -/
def fillTypes (f : Func) : Instr → Instr
  | .store a v .missing => .store a v (f.operandType v)
  | .cast d v .missing t => .cast d v (f.operandType v) t
  | i => i

/-- Set the terminators and with them the edges; a target must be one of the
blocks. -/
def setTerms (f : Func) : List (RawBlock × Nat) → Except Failure Func
  | [] => .ok f
  | (b, i) :: rest =>
      match b.term.targets.find? (!f.hasBlock ·) with
      | some s => .error ⟨b.termLeft, .targetUndefined s⟩
      | none => match f.setTerm i (some b.term) with
        | .ok f => setTerms f rest
        | .error _ => .error ⟨b.termLeft, .blockExpected⟩

-- =============================================================== functions

/-- A function. Without any block it keeps an empty entry. -/
def function : Read Func := do
  keyword "fn"
  let name ← inPart "function name" ident
  editFunc fun _ => Func.named name
  token "("
  let params ← itemsUpTo ")" (fun j => do
    let (id, t) ← inPart ("param " ++ toString j) typedValue
    annotate id t
    return id) (← turns) []
  token "->"
  token "("
  let returns ← itemsUpTo ")"
    (fun j => inPart ("return " ++ toString j) type) (← turns) []
  editFunc fun f => { f with params, returns }
  token "\x7b"
  if (← attempt (keyword "entry")).isSome then
    let entry ← inPart "entry" blockId
    editFunc fun f => { f with entry }
  let raw ← rawBlocks (← turns) []
  if !raw.isEmpty then
    editFunc fun f => { f with
      blocks := raw.map fun b =>
        some { name := b.name, instrs := b.instrs, filled := true, closed := true } }
  let f := (← get).func
  if f.hasBlock f.entry then
    match setTerms f raw.zipIdx with
    | .error e => Read.failAt e.left e.error
    | .ok f => return f.mapBlocks fun b =>
      { b with instrs := b.instrs.map (fillTypes f) }
  else Read.failAt (← left) (.entryUndefined f.entry)

/-- Functions up to the end of the text. -/
def functions : Nat → Module → Read Module
  | 0, m => return m
  | fuel + 1, m => do
      skip
      if (← left).isEmpty then return m
      else
        let f ← function
        if (m.lookup f.name).isSome then Read.failAt (← left) (.redefined f.name)
        else functions fuel (m.add f).2

-- ================================================================= modules

/-- The function that a call means, by name or else by number. -/
def PendingCall.resolve (m : Module) (c : PendingCall) :
    Except Failure (FuncId × Signature) :=
  match (m.lookup c.name).orElse fun _ => c.number with
  | none => .error ⟨c.left, .calleeUndefined c.name⟩
  | some id => match m.func? id with
    | none => .error ⟨c.left, .calleeUndefined c.name⟩
    | some f =>
        if c.results ≠ 0 ∧ c.results ≠ f.returns.length then
          .error ⟨c.left, .resultCount c.name c.results f.returns.length⟩
        else .ok (id, f.signature)

/-- Put the functions meant in the place of the calls' turns. -/
def resolveCall (callees : List (FuncId × Signature)) : Instr → Instr
  | .call ds turn args sig =>
      let (id, sig) := callees.getD turn.toNat (turn, sig)
      .call ds id args sig
  | i => i

/-- A module with its calls resolved, or where and why the text is none. -/
def readModule (input : List UInt8) : Except Failure Module := do
  let ((m, c), _) ← functions (input.length + 1) {}
    { func := Func.named "" } input
  let callees ← c.calls.reverse.mapM (·.resolve m)
  return ⟨m.functions.map (·.mapBlocks fun b =>
    { b with instrs := b.instrs.map (resolveCall callees) })⟩

end MirBackend.Source
