import LuaTyping.Text.Blank
import LuaTyping.Project.Path

/-!
# Finding required modules

A module name such as `lib.util` stands for the path `lib/util`.  Search patterns make candidates
of it by writing it for their question marks: first as they are, then in the directory of the file
that requires the module.  The first candidate that is a file of the project is the module.

If there is none, every file counts whose path, without `.lua` and a directory's `init`, ends with
the parts of the module path; the shortest path is taken, and of those the lowest number.

* `modulePath?`: the path of a module name.
* `Require.candidates`: the paths that are tried.
* `Require.resolve?`: the number of the file of a module.
-/

namespace LuaTyping

/-- The search patterns of a project that names no others. -/
def defaultPatterns : List String := ["?.lua", "?/init.lua"]

/-- The path of a module name: blanks around are dropped and points separate the parts. -/
def modulePath? (module : String) : Option String :=
  match trimBlanks module.toList with
  | [] => none
  | cs => some (String.ofList (cs.map fun c => if c = '.' then '/' else c))

namespace Require

/-- A pattern with a module path for its question marks. -/
def fill (pattern modulePath : String) : String :=
  String.ofList (pattern.toList.flatMap fun c => if c = '?' then modulePath.toList else [c])

/-- The path up to its last slash, if it has one. -/
def directory? (path : String) : Option String :=
  let name := path.toList.reverse.takeWhile (· != '/')
  if name.length < path.length then
    some (String.ofList (path.toList.take (path.length - name.length - 1)))
  else none

/-- The paths that are tried, first to last, for a module path required from a file. -/
def candidates (patterns : List String) (modulePath origin : String) : List String :=
  let plain := patterns.map fun p => fill p modulePath
  match directory? origin with
  | some dir => plain ++ plain.map fun p => dir ++ "/" ++ p
  | none => plain

/-- The list without an ending, if it ends so. -/
def dropEnding (ending cs : List Char) : List Char :=
  if ending.isSuffixOf cs then cs.take (cs.length - ending.length) else cs

/-- The path of a file as a module: without `.lua`, and then without `/init`. -/
def stem (path : String) : List Char :=
  dropEnding ['/', 'i', 'n', 'i', 't'] (dropEnding ['.', 'l', 'u', 'a'] path.toList)

/-- The stem of a file ends with the parts of a module path. -/
def endsWith (path : String) (wanted : List (List Char)) : Bool :=
  wanted.isSuffixOf (slashParts (stem path))

/-- A file comes before another as the answer to an inexact search: its path is shorter, or of
the same length and its number is lower. -/
def closer (a b : Nat × String) : Bool :=
  decide (a.2.utf8ByteSize < b.2.utf8ByteSize)
    || (a.2.utf8ByteSize == b.2.utf8ByteSize && decide (a.1 < b.1))

/-- The closest of the files, the first one if several are equally close. -/
def closest (files : List (Nat × String)) : Option (Nat × String) :=
  files.foldl (fun best f =>
    match best with
    | none => some f
    | some b => if closer f b then some f else best) none

/-- The number of the file that a module required from the file at `origin` is; files are numbers
with paths. -/
def resolve? (patterns : List String) (files : List (Nat × String)) (module origin : String) :
    Option Nat := do
  let path ← modulePath? module
  let exact := (candidates patterns path origin).findSome? fun c =>
    (files.find? fun f => f.2 == c).map (·.1)
  let wanted := slashParts path.toList
  exact.or ((closest (files.filter fun f => endsWith f.2 wanted)).map (·.1))

end Require

end LuaTyping
