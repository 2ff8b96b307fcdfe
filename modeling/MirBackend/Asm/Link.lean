/-
Linking: the code of all functions, then their data, in one list of items.

Every label gets the address of its position, and the instructions that name
one get its number: the address itself, or for a relative instruction the
distance to it. A label may be defined once only.

Builders are linked by their places in a pool, and keep what linking resolved:
a builder may be listed more than once, and a later link finds numbers where
an earlier one put them, also if that one failed half way.
-/
import MirBackend.Asm.Builder
import MirBackend.Asm.Program

namespace MirBackend.Asm

namespace Link

/-- The addresses of labels while they are being defined. -/
structure Table where
  addresses : Std.ExtTreeMap String Int32 := ∅
  labels : List Label := []

/-- Define a label; a second definition is an error. -/
def Table.define (t : Table) (name : String) (address : Int32) :
    Except Cause Table :=
  if t.addresses.contains name then .error (.duplicateLabel name)
  else .ok ⟨t.addresses.insert name address, t.labels ++ [⟨name, address⟩]⟩

/-- Define the labels of a builder that stand in its data, or in its code, from
a base on. -/
def Table.defineAll (t : Table) (b : Builder) (inData : Bool) (base : Nat) :
    Except Cause Table :=
  (b.labels.filter (·.inData == inData)).foldlM
    (fun t l => t.define l.name (Int32.ofNat base + Int32.ofNat l.position)) t

/-- Define the labels of builders one after the other, each taking `size`
addresses. -/
def defineFrom (inData : Bool) (size : Builder → Nat) :
    Nat → List Builder → Table → Except Cause Table
  | _, [], t => .ok t
  | base, b :: bs, t => do
      let t ← t.defineAll b inData base
      defineFrom inData size (base + size b) bs t

/-- All labels of the builders, those in code before those in data. -/
def tableOf (bs : List Builder) : Except Cause Table := do
  let t ← defineFrom false (·.code.length) 0 bs {}
  defineFrom true (·.data.length)
    ((bs.map (·.code.length)).foldr (· + ·) 0) bs t

/-- An instruction at an address with its label resolved. -/
def resolve (t : Table) (pc : Nat) (x : Insn) : Except Cause Insn :=
  match x.imm with
  | .literal .. => .ok x
  | .label name => match t.addresses[name]? with
    | none => .error (.unresolved name pc)
    | some a =>
        let a := if x.opcode.isRelative then a - Int32.ofNat pc else a
        .ok { x with imm := .literal a name }

/-- Resolve instructions from an address on; the ones behind an error stay as
they were. -/
def resolveCode (t : Table) : Nat → List Insn → List Insn × Option Cause
  | _, [] => ([], none)
  | pc, x :: xs => match resolve t pc x with
    | .error c => (x :: xs, some c)
    | .ok x =>
        let (xs, e) := resolveCode t (pc + 1) xs
        (x :: xs, e)

/-- Resolve the code of the listed builders in the pool, from an address on. -/
def resolveAll (t : Table) : Nat → List Nat → List Builder →
    List Builder × Option Cause
  | _, [], pool => (pool, none)
  | pc, i :: is, pool =>
      let b := pool.getD i default
      match resolveCode t pc b.code with
      | (code, some c) => (pool.set i { b with code }, some c)
      | (code, none) => resolveAll t (pc + code.length) is
        (pool.set i { b with code })

/-- The program of resolved builders. -/
def assemble (t : Table) (bs : List Builder) : Program :=
  let entry := fun (m : Std.ExtTreeMap String Entrypoint) (b : Builder) =>
    match t.addresses[b.func]? with
    | some pc => m.insert b.func ⟨pc, b.args, b.returns⟩
    | none => m
  { items := bs.flatMap (·.code.map .insn) ++ bs.flatMap (·.data.map .data)
    labels := t.labels
    entrypoints := bs.foldl entry ∅ }

end Link

/-- Link the listed builders of a pool. The pool keeps what was resolved. -/
def linkPool (pool : List Builder) (order : List Nat) :
    List Builder × Except CodegenError Program :=
  match Link.tableOf (order.filterMap (pool[·]?)) with
  | .error c => (pool, .error (.cause c))
  | .ok t => match Link.resolveAll t 0 order pool with
    | (pool, some c) => (pool, .error (.cause c))
    | (pool, none) => (pool, .ok (Link.assemble t (order.filterMap (pool[·]?))))

/-- Link builders in order. -/
def link (bs : List Builder) : Except CodegenError Program :=
  (linkPool bs (List.range bs.length)).2

end MirBackend.Asm
