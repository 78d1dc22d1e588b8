import LuaTyping.Infer.Expression
import LuaTyping.Json.Reader
import LuaTyping.TypeSet.Json
import LuaTyping.Workspace.Error
import LuaTyping.Workspace.Scan

/-!
# Workspaces

A `Workspace` is a project with a root directory and a configuration.  Paths given to it are
absolute or start at the root; what they lead to on the disk, if it exists, must be inside the
root.  A workspace is a value: an updated one leaves the project of the old one as it was.

* `Workspace.ofDisk`: the workspace of a directory.
* `Workspace.projectPath`: the path of a file inside the project.
* `Workspace.update`, `Workspace.reload`: the workspace with a new text of a file.
* `Workspace.inferAt`: what stands at a position, and its types.
* `Workspace.typeText`: a type in words, with the position of its site.
* `Workspace.diagnostics`: what is wrong with the files.
-/

namespace LuaTyping

/-- The name of the file with the configuration of a project. -/
def configFileName : String := ".luasense.json"

/-- The configuration of the project in a directory. -/
def Config.load (disk : Disk) (root : String) : Except WorkspaceError Config :=
  let path := Path.join root configFileName
  if disk.isFile path then
    match disk.text? path with
    | none => .error .unreadable
    | some text =>
      match (Json.parse? text).bind Config.ofJson? with
      | none => .error .malformed
      | some config =>
        match config.fault? with
        | some fault => .error (.configuration fault.text)
        | none => .ok config
  else .ok {}

/-- A project with a root directory and a configuration. -/
structure Workspace where
  root : String
  config : Config
  project : Project
  deriving Inhabited

/-- What stands at a position. -/
structure ExpressionType where
  text : String
  range : PositionRange
  /-- None if nothing is known. -/
  types : Option TypeSet

/-- What is wrong at a place of a file. -/
structure Diagnostic where
  path : String
  position : Position
  message : String
  deriving DecidableEq, Repr, Inhabited

namespace Workspace

/-- The workspace of files that are given with their paths. -/
def ofFiles (root : String) (config : Config) (files : List (String × String)) : Workspace :=
  ⟨root, config, Project.ofFiles config.patterns files⟩

/-- The workspace of a directory of a disk. -/
def ofDisk (disk : Disk) (root : String) : Except WorkspaceError Workspace := do
  let root := (disk.canonical? root).getD root
  let config ← Config.load disk root
  return ⟨root, config, Project.ofScan config.patterns (disk.scan config root)⟩

/-! ## Paths -/

/-- A path that is absolute or starts at the root. -/
def absolute (w : Workspace) (path : String) : String := Path.join w.root path

/-- The path of a file inside the project, if it is inside the root. -/
def projectPath (w : Workspace) (disk : Disk) (path : String) : Except WorkspaceError String :=
  let absolute := w.absolute path
  let absolute := (disk.canonical? absolute).getD absolute
  match Path.below? w.root absolute with
  | some parts => .ok (Path.ofParts parts)
  | none => .error (.outsideRoot path)

/-! ## Changes -/

/-- The workspace with a new text of a file, and the number of the file. -/
def update (w : Workspace) (disk : Disk) (path text : String) :
    Except WorkspaceError (Nat × Workspace) := do
  let path ← w.projectPath disk path
  let (id, project) := w.project.insert path text
  return (id, { w with project := project })

/-- The workspace with the text that a file has on the disk, and the number of the file. -/
def reload (w : Workspace) (disk : Disk) (path : String) :
    Except WorkspaceError (Nat × Workspace) :=
  let path := w.absolute path
  match disk.text? path with
  | some text => w.update disk path text
  | none => .error .unreadable

/-! ## Questions -/

/-- What is wrong with the files, file by file. -/
def diagnostics (w : Workspace) : List Diagnostic :=
  w.project.files.toList.flatMap fun f =>
    f.errors.map fun e => ⟨f.path, f.position e.span.start, e.message⟩

/-- A position in words, counted from one.  The numbers have 32 bits, so zero follows the last. -/
def positionText (p : Position) : String :=
  toString ((p.line + 1) % offsetCount) ++ ":" ++ toString ((p.column + 1) % offsetCount)

/-- What inference looks things up in. -/
def context (w : Workspace) : Context := ⟨w.project, w.config.maxDepth⟩

/-- The expression at a site with its types. -/
def expressionType (w : Workspace) (f : SourceFile) (id : NodeId) : ExpressionType :=
  ⟨f.tree.textOf id, f.range (f.tree.span id), w.context.infer ⟨f.id, id⟩⟩

/-- The expression at a position with its types; none if there is no expression. -/
def inferAt (w : Workspace) (disk : Disk) (path : String) (position : Position) :
    Except ServiceError (Option ExpressionType) := do
  let path ← (w.projectPath disk path).mapError WorkspaceError.toService
  match (w.project.fileId? path).bind w.project.file? with
  | none => .error (.notFound path)
  | some f =>
    match f.offset? position with
    | none => .error (.invalidArgument (positionText position ++ " is outside " ++ path))
    | some offset => return (f.expressionAt? offset).map (w.expressionType f)

/-- The place of a site in words, if there is such a node. -/
def siteText? (w : Workspace) (s : Site) : Option String :=
  (w.project.file? s.file).bind fun f =>
    if s.node < f.tree.size then
      some (f.path ++ ":" ++ positionText (f.position (f.tree.start s.node)))
    else none

/-- A type without its site in words. -/
def typeLabel : LuaType → String
  | .named name => name
  | .table _ => "table"
  | .global name _ => "global " ++ name
  | .function _ => "function"

/-- A type in words, with the position of its site. -/
def typeText (w : Workspace) (type : LuaType) : String :=
  match type.site?.bind w.siteText? with
  | some place => typeLabel type ++ " (" ++ place ++ ")"
  | none => type.text

end Workspace

/-! ## Answers in JSON -/

/-- A position as an object. -/
def Position.toJson (p : Position) : Json :=
  .object [("line", .natural p.line), ("column", .natural p.column)]

/-- A range as an object. -/
def PositionRange.toJson (r : PositionRange) : Json :=
  .object [("start", r.start.toJson), ("end", r.stop.toJson)]

/-- An expression with its types as an object. -/
def ExpressionType.toJson (e : ExpressionType) : Json := .object [
  ("text", .string e.text),
  ("range", e.range.toJson),
  ("types", match e.types with
    | some types => types.toJson
    | none => .null)]

end LuaTyping
