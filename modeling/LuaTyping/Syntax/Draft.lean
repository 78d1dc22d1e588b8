import LuaTyping.Syntax.Maker
import LuaTyping.Syntax.Placement
import LuaTyping.Syntax.Tree

/-!
# Tables under construction

The parser makes its nodes from below, children before their parent.  A new node gets the next row
of the table; the rows of its children, which exist already, are told their parent.  Nothing else
is ever written, so it is up to the parser that a node is given as a child exactly once.
-/

namespace LuaTyping

/-- The rows made so far, and the layout of the text they are made for. -/
structure Draft where
  layout : Layout
  nodes : Array Node

namespace Draft

/-- The row of a node. -/
def row (d : Draft) (id : NodeId) : Node := d.nodes.getD id {}

/-- Tells a node its parent. -/
def adopt (nodes : Array Node) (parent child : NodeId) : Array Node :=
  nodes.modify child fun row => { row with parent := some parent }

/-- Adds a node over the given children. -/
def node : Draft → NodeKind → Span → List NodeId → NodeId × Draft
  | ⟨layout, nodes⟩, kind, span, children =>
    let id := nodes.size
    (id, ⟨layout, (children.foldl (adopt · id) nodes).push ⟨kind, span, none, children⟩⟩)

/-- Adds the comment in front of a token, if it has one. -/
def doc (d : Draft) (token : Nat) : (Nat × List NodeId) × Draft :=
  match d.layout.docSpan? token with
  | some span =>
    let (id, d) := d.node .comment span []
    ((span.start, [id]), d)
  | none => ((d.layout.tokenStart token, []), d)

instance : Maker Draft NodeId where
  tokenStart d := d.layout.tokenStart
  stopBefore d := d.layout.stopBefore
  tokenSpan d := d.layout.tokenSpan
  between _ := Span.ofNumbers
  kind d id := (d.row id).kind
  span d id := (d.row id).span
  node := node
  doc := doc

end Draft

end LuaTyping
