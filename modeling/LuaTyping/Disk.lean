import LuaTyping.Disk.Path

/-!
# Disks

A `Disk` is a tree of directories with a working directory, seen as a table: each file and each
directory stands under the names on the way from the root directory to it.  A file has a text, or
its bytes are no text.

* `Disk.canonical?`: where a path leads; none if there is nothing.
* `Disk.entry?`: what stands under names.
* `Disk.makeDirectory`, `Disk.write`, `Disk.remove`: the disk after a change.  A change that is not
  possible is left undone: nothing is put below a file, and no file in the place of a directory.
-/

namespace LuaTyping

/-- What stands at a place of a disk. -/
inductive DiskEntry
  | directory
  /-- A file; none for bytes that are no text. -/
  | file (text? : Option String)
  deriving DecidableEq, Repr, Inhabited

/-- The names on the way from the root directory. -/
abbrev Names := List String

/-- Files and directories, and the directory from which relative paths start. -/
structure Disk where
  /-- What there is beside the root directory, each under its names. -/
  entries : List (Names × DiskEntry) := []
  workingDirectory : Names := []
  deriving Repr, Inhabited

namespace Disk

/-- What stands under names. -/
def entry? (d : Disk) (names : Names) : Option DiskEntry :=
  if names = [] then some .directory
  else (d.entries.find? fun e => e.1 == names).map (·.2)

/-- There is a directory under names. -/
def isDirectory (d : Disk) (names : Names) : Bool := d.entry? names == some .directory

/-- Where pieces of a path lead from a place.  Only directories can be walked through, also by
pieces that stay where they are. -/
def follow? (d : Disk) : (pieces : List (List Char)) → Names → Option Names
  | [], place => some place
  | piece :: pieces, place =>
    if d.isDirectory place then
      match piece with
      | [] | ['.'] => d.follow? pieces place
      | ['.', '.'] => d.follow? pieces place.dropLast
      | cs =>
        let next := place ++ [String.ofList cs]
        if (d.entry? next).isSome then d.follow? pieces next else none
    else none

/-- The place from which a path starts. -/
def origin (d : Disk) (path : String) : Names :=
  if Path.isAbsolute path then [] else d.workingDirectory

/-- The place that a path leads to. -/
def find? (d : Disk) (path : String) : Option Names :=
  if path = "" then none else d.follow? (slashParts path.toList) (d.origin path)

/-- Names as an absolute path. -/
def pathOf (names : Names) : String := "/" ++ "/".intercalate names

/-- The names in a path. -/
def namesIn (path : String) : Names :=
  ((slashParts path.toList).filter (· != [])).map String.ofList

/-- The absolute path of the place that a path leads to, without detours. -/
def canonical? (d : Disk) (path : String) : Option String := (d.find? path).map pathOf

/-- What a path leads to. -/
def at? (d : Disk) (path : String) : Option DiskEntry := (d.find? path).bind d.entry?

/-- The path leads to a file. -/
def isFile (d : Disk) (path : String) : Bool :=
  match d.at? path with
  | some (.file _) => true
  | _ => false

/-- The text of the file that a path leads to. -/
def text? (d : Disk) (path : String) : Option String :=
  match d.at? path with
  | some (.file text?) => text?
  | _ => none

/-! ## Changes -/

/-- The most bytes that a name may have. -/
def nameLimit : Nat := 255

/-- The text has the character zero, which no name may have. -/
def hasZero (text : String) : Bool := text.toList.contains '\x00'

/-- An entry may have the name. -/
def isName (name : String) : Bool := decide (name.utf8ByteSize ≤ nameLimit) && !hasZero name

/-- The place that a path names, whether something stands there or not: its last piece is a name,
and what is in front of it leads to a directory. -/
def target? (d : Disk) (path : String) : Option Names :=
  let pieces := slashParts path.toList
  match pieces.getLast?.bind Path.innerPart? with
  | some (.name name) =>
    match d.follow? pieces.dropLast (d.origin path) with
    | some place => if d.isDirectory place && isName name then some (place ++ [name]) else none
    | none => none
  | _ => none

/-- The disk with an entry under names, in the place of what stood there. -/
def put (d : Disk) (names : Names) (e : DiskEntry) : Disk :=
  { d with entries := (d.entries.filter fun x => x.1 != names) ++ [(names, e)] }

/-- The disk with all directories on the way of the parts from a place on, as far as there can be
directories. -/
def makeWay (d : Disk) : List PathPart → Names → Disk
  | [], _ => d
  | .root :: parts, _ => d.makeWay parts []
  | .here :: parts, place => d.makeWay parts place
  | .up :: parts, place => d.makeWay parts place.dropLast
  | .name name :: parts, place =>
    let next := place ++ [name]
    match d.entry? next with
    | some .directory => d.makeWay parts next
    | some (.file _) => d
    | none => if isName name then (d.put next .directory).makeWay parts next else d

/-- The disk with a directory for the parts of a path, and all directories on the way. -/
def makeParts (d : Disk) (parts : List PathPart) (origin : Names) : Disk :=
  if parts.any fun p => hasZero p.text then d else d.makeWay parts origin

/-- The disk with a directory at a path and all directories on the way. -/
def makeDirectory (d : Disk) (path : String) : Disk := d.makeParts (Path.parts path) (d.origin path)

/-- The disk with a file at a path and all directories on the way. -/
def write (d : Disk) (path : String) (text? : Option String) : Disk :=
  let d := d.makeParts (Path.parts path).dropLast (d.origin path)
  match d.target? path with
  | some names => if d.isDirectory names then d else d.put names (.file text?)
  | none => d

/-- The disk without the file at a path. -/
def remove (d : Disk) (path : String) : Disk :=
  match d.target? path with
  | some names =>
    if d.isDirectory names then d
    else { d with entries := d.entries.filter fun e => e.1 != names }
  | none => d

end Disk

end LuaTyping
