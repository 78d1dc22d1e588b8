import LuaTyping.Project.Path

/-!
# Paths on a disk

A path on a disk is a text whose parts stand between slashes.  One that starts with a slash is
absolute.  Empty parts count for nothing, and neither do the parts `.`, but for one in front of a
path that is not absolute; the parts `..` stay as they are, because what they stand for depends on
the disk.

* `Path.parts`: the parts of a path.
* `Path.join`: a path seen from a directory.
* `Path.below?`: the parts of a path behind those of a directory.
* `Path.relative`: a path as seen from a directory, with single slashes.
* `Path.isLua`: the path of a Lua file.
-/

namespace LuaTyping

/-- A part of a path. -/
inductive PathPart
  /-- The slash in front of an absolute path. -/
  | root
  /-- A `.` in front of any other path. -/
  | here
  /-- A `..`. -/
  | up
  | name (text : String)
  deriving DecidableEq, Repr, Inhabited

/-- A part as it is written. -/
def PathPart.text : PathPart → String
  | root => "/"
  | here => "."
  | up => ".."
  | name text => text

namespace Path

/-- The part that stands between two slashes, if it counts. -/
def innerPart? : List Char → Option PathPart
  | [] => none
  | ['.'] => none
  | ['.', '.'] => some .up
  | cs => some (.name (String.ofList cs))

/-- The parts of a path. -/
def parts (path : String) : List PathPart :=
  match slashParts path.toList with
  | [[]] => []
  | [] :: rest => .root :: rest.filterMap innerPart?
  | ['.'] :: rest => .here :: rest.filterMap innerPart?
  | pieces => pieces.filterMap innerPart?

/-- The path starts with a slash. -/
def isAbsolute (path : String) : Bool := path.toList.head? = some '/'

/-- The path as seen from a directory: an absolute one stays as it is. -/
def join (directory path : String) : String :=
  if isAbsolute path then path
  else if directory = "" ∨ directory.toList.getLast? = some '/' then directory ++ path
  else directory ++ "/" ++ path

/-- The parts of a path behind those of a directory, if it starts with them. -/
def below? (directory path : String) : Option (List PathPart) :=
  let head := parts directory
  let whole := parts path
  if head.isPrefixOf whole then some (whole.drop head.length) else none

/-- Parts with slashes between them. -/
def ofParts (ps : List PathPart) : String := "/".intercalate (ps.map PathPart.text)

/-- The parts of a path behind those of a directory, or all of them if it is somewhere else, with
slashes between them. -/
def relative (directory path : String) : String :=
  ofParts ((below? directory path).getD (parts path))

/-- The name that a path ends with. -/
def fileName? (path : String) : Option String :=
  match (parts path).getLast? with
  | some (.name text) => some text
  | _ => none

/-- What follows the last point of a name, if something stands before the point. -/
def extension? (name : List Char) : Option (List Char) :=
  let ending := (name.reverse.takeWhile (· != '.')).reverse
  if ending.length + 1 < name.length then some ending else none

/-- A name with the ending of Lua files. -/
def isLuaName (name : String) : Bool := extension? name.toList == some ['l', 'u', 'a']

/-- The path of a Lua file. -/
def isLua (path : String) : Bool := (fileName? path).any isLuaName

end Path

end LuaTyping
