/-
Predecessor lists as one finds them later.

A predecessor list lies in a row of cells. A new predecessor is written into
the next cell, striking one moves those behind it a place forward, and
emptying the list changes no cell: cells behind the end of the list keep what
was in them. A list that fills its row moves to a new, larger row and leaves
the old one as it is.

Somebody who noted where a list lies, and how long it was, and looks again
later finds what those cells hold by then. `Func.predsNoted` replays the
journal of a function and tells what is found.
-/
import MirBackend.Func
import MirBackend.Storage

namespace MirBackend

/-- Where a list lies: its row, and how many cells of it are the list. -/
structure Lodging where
  row : Nat
  len : Nat
deriving DecidableEq, Repr

/-- All rows, and where the list of each block lies. -/
structure PredRows where
  rows : List (List BlockId) := []
  lodgings : List Lodging := []

namespace PredRows

/-- Give every block below `n` a row; the new rows have no cells. -/
def prepare (s : PredRows) (n : Nat) : PredRows :=
  let known := s.lodgings.length
  if n ≤ known then s
  else
    let fresh := List.range (n - known)
    ⟨s.rows ++ fresh.map fun _ => [],
     s.lodgings ++ fresh.map fun i => ⟨s.rows.length + i, 0⟩⟩

/-- What the cells of a lodging hold. -/
def cells (s : PredRows) (l : Lodging) : List BlockId :=
  (s.rows.getD l.row []).take l.len

/-- Write a predecessor behind the end of a block's list. -/
def add (s : PredRows) (b : Nat) (p : BlockId) : PredRows :=
  match s.lodgings[b]? with
  | none => s
  | some l =>
      let row := s.rows.getD l.row []
      if p ∈ s.cells l then s
      else if l.len < row.length then
        ⟨s.rows.set l.row (row.set l.len p),
        s.lodgings.set b ⟨l.row, l.len + 1⟩⟩
      else
        let blank :=
          List.replicate (Storage.regrown row.length (l.len + 1) - l.len - 1) 0
        ⟨s.rows ++ [s.cells l ++ p :: blank],
        s.lodgings.set b ⟨s.rows.length, l.len + 1⟩⟩

/-- Strike a predecessor from a block's list. -/
def strike (s : PredRows) (b : Nat) (p : BlockId) : PredRows :=
  match s.lodgings[b]? with
  | none => s
  | some l =>
      if p ∈ s.cells l then
        let row := (s.cells l).erase p
          ++ (s.rows.getD l.row []).drop (l.len - 1)
        ⟨s.rows.set l.row row, s.lodgings.set b ⟨l.row, l.len - 1⟩⟩
      else s

/-- Follow one edit. -/
def follow (s : PredRows) : EdgeEdit → PredRows
  | .connect e => (s.prepare (e.target.toNat + 1)).add e.target.toNat e.source
  | .disconnect e => s.strike e.target.toNat e.source
  | .clear => { s with lodgings := s.lodgings.map fun l => ⟨l.row, 0⟩ }
  | .keep blocks =>
      let s := s.prepare ((blocks.map (· + 1)).foldl max 0)
      { s with lodgings := blocks.filterMap (s.lodgings[·]?) }

end PredRows

/-- What is found now in the cells of the first `count` blocks' predecessor
lists as they lay when the journal had `seen` entries. -/
def Func.predsNoted (f : Func) (seen count : Nat) : List (List BlockId) :=
  let edits := f.journal.reverse
  let noted := ((edits.take seen).foldl PredRows.follow {}).prepare count
  let now := (edits.drop seen).foldl PredRows.follow noted
  (noted.lodgings.take count).map now.cells

end MirBackend
