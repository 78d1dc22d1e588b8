import LuaTyping.Project.Path
import LuaTyping.Text.Quoted
import LuaTyping.Syntax.Parse
import LuaTyping.Scope

/-!
# Files of a project

A `SourceFile` is a text with all that is known of it without looking at other files: its tree,
what is wrong with it, its lines and its scopes.
-/

namespace LuaTyping

/-- A parsed file. -/
structure SourceFile where
  /-- The number of the file in its project. -/
  id : Nat
  path : String
  tree : Tree
  errors : List SyntaxError
  lines : Lines
  scopes : Scopes
  deriving Inhabited

namespace SourceFile

/-- Parses a text as a file. -/
def parse (id : Nat) (path text : String) : SourceFile :=
  let p := Parsed.ofText text
  ⟨id, normalizePath path, p.tree, p.errors, Lines.ofText text, Scopes.ofTree p.tree⟩

/-- The text of a file. -/
def text (f : SourceFile) : String := f.tree.text

/-- The position of an offset. -/
def position (f : SourceFile) (offset : Nat) : Position := f.lines.position f.text offset

/-- The offset of a position. -/
def offset? (f : SourceFile) (p : Position) : Option Nat := f.lines.offset? f.text p

/-- The positions of a span. -/
def range (f : SourceFile) (s : Span) : PositionRange := f.lines.range f.text s

/-- The expression nodes, each before what it contains. -/
def expressions (f : SourceFile) : List NodeId :=
  f.tree.walk.filter fun id => (f.tree.kind id).isExpression

/-- The shortest of the nodes, the first one if several are equally short. -/
def shortest (t : Tree) (ids : List NodeId) : Option NodeId :=
  ids.foldl (fun best id =>
    match best with
    | none => some id
    | some b => if (t.span id).length < (t.span b).length then some id else best) none

/-- The innermost expression that touches an offset.  Of expressions with one span the outermost
is taken, so that a value is preferred to what it wraps. -/
def expressionAt? (f : SourceFile) (offset : Nat) : Option NodeId :=
  shortest f.tree (f.expressions.filter fun id => (f.tree.span id).touchesOffset offset)

/-! ## Listings -/

/-- A file in one line: its number, its path, and how many nodes and errors it has. -/
def listing (f : SourceFile) : String :=
  s!"SourceUnit \x7b id: FileId({f.id}), path: {quoted f.path}, nodes: {f.tree.size}, " ++
    s!"errors: {f.errors.length} \x7d"

/-- A node in one line: its kind, its span and its site. -/
def nodeText (f : SourceFile) (id : NodeId) : String :=
  let kind := (f.tree.kind id).label
  s!"{kind}@{f.tree.start id}..{f.tree.stop id} ({f.id}#{id})"

end SourceFile

end LuaTyping
