/-
The byte form in which parts of a function are logged.

An item starts with a byte of three bits for its kind and five for a number; a
number of 24 or more follows in one, two, four or eight bytes, the high ones
first. A negative integer is written as its opposite plus one. Maps write
their members one after the other, each key a string.
-/
import MirBackend.BitSet
import MirBackend.Func.Edges
import MirBackend.Layout
import MirBackend.Text.Utf8

namespace MirBackend.Wire

/-- The `count` low bytes of a number, the high ones first. -/
def bigEndian : Nat → Nat → List UInt8
  | 0, _ => []
  | count + 1, n => bigEndian count (n / 256) ++ [UInt8.ofNat n]

/-- The head of an item: its kind and a number. -/
def head (kind : UInt8) (n : UInt64) : List UInt8 :=
  let byte := fun low : UInt8 => kind <<< 5 ||| low
  if n < 24 then [byte n.toUInt8]
  else if n < 0x100 then byte 24 :: bigEndian 1 n.toNat
  else if n < 0x10000 then byte 25 :: bigEndian 2 n.toNat
  else if n < 0x100000000 then byte 26 :: bigEndian 4 n.toNat
  else byte 27 :: bigEndian 8 n.toNat

def int (n : Int64) : List UInt8 :=
  if n < 0 then head 1 (-n.toUInt64 + 1) else head 0 n.toUInt64

def string (s : String) : List UInt8 :=
  let bytes := Text.bytesOf s
  head 3 (UInt64.ofNat bytes.length) ++ bytes

/-- A map; its members are given in their byte form. -/
def map (members : List (String × List UInt8)) : List UInt8 :=
  head 5 (UInt64.ofNat members.length)
    ++ members.flatMap fun (k, v) => string k ++ v

/-- A list whose length is not given beforehand. -/
def openList (elems : List (List UInt8)) : List UInt8 :=
  0x9F :: elems.flatten ++ [0xFF]

/-- Nothing. -/
def null : List UInt8 := [0xF6]

def operand : Operand → List UInt8
  | .value id => int id
  | v => match v.imm? with
    | some n => int n.toInt64
    | none => string v.text

def edge (e : Edge) : List UInt8 :=
  map [("from", int (Int64.ofInt e.source)), ("to", int (Int64.ofInt e.target))]

/-- A run of slots; the length is left out for a single slot. -/
def span (s : Span) : List UInt8 :=
  if s.len = 1 then map [("off", int s.base.toInt64)]
  else map [("off", int s.base.toInt64), ("size", int s.len)]

/-- A set as a list of its numbers; one without storage is nothing. -/
def bitSet (s : BitSet) : List UInt8 :=
  if s.hasStorage then openList (s.toList.map fun k =>
    int (Int64.ofNat k)) else null

/-- A function: its name and its counts. -/
def func (f : Func) : Checked (List UInt8) := do
  let instrs ← f.instrCount
  return map
    [("name", string f.name), ("blocks", int (Int64.ofNat f.blocks.length)),
    ("instrs", int (Int64.ofNat instrs)), ("values", int f.nextValue)]

end MirBackend.Wire
