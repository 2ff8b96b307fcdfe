/-
A disk: files in folders.

The name of a file is walked part by part, from the working folder or, after a
leading slash, from the root. A dot and an empty part stay where they are, two
dots go up, and whatever is walked through must be a folder. Folders
are not kept: one is there when a file lies under it.

Reading and writing are functions of the disk, so a run of the program is one.
-/
import MirBackend.Text.Utf8

namespace MirBackend

-- =================================================================== paths

/-- Where something lies: the folders on the way down from the working folder,
and its own name. A path from the root starts with the part `/`. -/
abbrev Path := List String

namespace Path

/-- The folder around. The root is in itself, and above the working folder there
are folders without a name of their own. -/
def up (p : Path) : Path :=
  if p == ["/"] then p
  else if p.all (· == "..") then p ++ [".."]
  else p.dropLast

/-- One step of a walk. -/
def step (p : Path) (part : String) : Path :=
  if part == "" || part == "." then p else if part
    == ".." then p.up else p ++ [part]

/-- Where a name starts, and its parts. -/
def split (name : String) : Path × List String :=
  (if name.startsWith "/" then ["/"] else [], name.splitOn "/")

/-- The path that a name spells, whatever lies on the way. -/
def ofName (name : String) : Path :=
  let (start, parts) := split name
  parts.foldl step start

end Path

-- ================================================================== errors

/-- Why a name leads to no file. -/
inductive DiskError where
  /-- There is nothing. -/
  | missing
  /-- The way leads through a file. -/
  | notFolder
  /-- A folder cannot be opened for writing. -/
  | folder
  /-- A folder cannot be read. -/
  | unreadableFolder
  | longName
  /-- No name holds a zero byte. -/
  | badName
deriving DecidableEq, Repr

/-- The text of an error, with the name as it was given. -/
def DiskError.message (name : String) : DiskError → String
  | .missing => "open " ++ name ++ ": no such file or directory"
  | .notFolder => "open " ++ name ++ ": not a directory"
  | .folder => "open " ++ name ++ ": is a directory"
  | .unreadableFolder => "read " ++ name ++ ": is a directory"
  | .longName => "open " ++ name ++ ": file name too long"
  | .badName => "open " ++ name ++ ": invalid argument"

-- =================================================================== disks

/-- Files by path. -/
structure Disk where
  files : List (Path × List UInt8) := []

namespace Disk

/-- The file that is always empty. -/
def nothing : Path := ["/", "dev", "null"]

/-- A disk with files of the given names. -/
def ofFiles (fs : List (String × List UInt8)) : Disk :=
  ⟨fs.map fun (n, c) => (.ofName n, c)⟩

/-- The contents of the file at a path. -/
def file? (d : Disk) (p : Path) : Option (List UInt8) :=
  if p == nothing then some [] else d.files.lookup p

/-- Whether a folder is at a path: one of the way to the working folder, the
root, or one with a file under it. -/
def isFolder (d : Disk) (p : Path) : Bool :=
  p.all (· == "..") || p == ["/"]
    || (nothing :: d.files.map (·.1)).any fun q => p != q && p.isPrefixOf q

/-- The most bytes of a part of a name. -/
def maxPart : Nat := 255

/-- The most bytes of a name. -/
def maxName : Nat := 4095

/-- Walk parts from a path on; every part starts in a folder. -/
def walk (d : Disk) : Path → List String → Except DiskError Path
  | p, [] => .ok p
  | p, part :: parts =>
      if d.isFolder p then
        if part.utf8ByteSize > maxPart then .error .longName else walk d
          (p.step part) parts
      else if (d.file? p).isSome then .error .notFolder
      else .error .missing

/-- A name that can be walked. -/
def checkName (name : String) : Except DiskError Unit :=
  if name.toList.contains (Char.ofNat 0) then .error .badName
  else if name.isEmpty then .error .missing
  else if name.utf8ByteSize > maxName then .error .longName
  else .ok ()

/-- Read the file with a name. -/
def read (d : Disk) (name : String) : Except DiskError (List UInt8) := do
  checkName name
  let (start, parts) := Path.split name
  let p ← d.walk start parts
  if d.isFolder p then .error .unreadableFolder
  else match d.file? p with
    | some contents => .ok contents
    | none => .error .missing

/-- Put a file at a path. -/
def put (d : Disk) (p : Path) (contents : List UInt8) : Disk :=
  if p == nothing then d else ⟨(p, contents) :: d.files.filter (·.1 != p)⟩

/-- Write a file with a name, which replaces one that is there. Its folder must
be there. -/
def write (d : Disk) (name : String) (contents : List UInt8) :
    Except DiskError Disk := do
  checkName name
  let (start, parts) := Path.split name
  -- a name that ends in a slash is that of a folder
  let named := (parts.reverse.dropWhile (·.isEmpty)).reverse
  let around ← d.walk start (named.dropLast ++ ["."])
  let own := named.getLastD "."
  if own == "." || own == ".." || named.length
      < parts.length then .error .folder
  else
    let p ← d.walk around [own]
    if d.isFolder p then .error .folder else .ok (d.put p contents)

end Disk

end MirBackend
