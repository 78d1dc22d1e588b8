import LuaTyping.Text.Span
import LuaTyping.Syntax.Kind

/-!
# Syntax trees as tables

A `Tree` is a text together with the table of its nodes.  Nodes are named by their index in the
table; children stand before their parent and the root is last, so that walking from a node to its
parent always climbs and walking to a child always descends.  What is asked of an index outside
the table is answered for a stray error node without family.

* `Tree.ancestors`: from a node up to the root.
* `Tree.preorder`: a subtree, each node before what it contains.
* `Tree.child?`, `Tree.childrenOf`: the children of a kind.
-/

namespace LuaTyping

/-- The index of a node in the table of its tree. -/
abbrev NodeId := Nat

/-- A row of the table. -/
structure Node where
  kind : NodeKind := .error
  span : Span := ⟨0, 0⟩
  parent : Option NodeId := none
  children : List NodeId := []
  deriving Repr, Inhabited

/-- A text and the table of its nodes. -/
structure Tree where
  text : String
  nodes : Array Node
  deriving Repr, Inhabited

namespace Tree

/-- The number of nodes. -/
def size (t : Tree) : Nat := t.nodes.size

/-- The last node. -/
def root (t : Tree) : NodeId := t.size - 1

/-- The node of an index. -/
def node (t : Tree) (id : NodeId) : Node := t.nodes.getD id {}

/-- The kind of a node. -/
def kind (t : Tree) (id : NodeId) : NodeKind := (t.node id).kind

/-- The place of a node in the text. -/
def span (t : Tree) (id : NodeId) : Span := (t.node id).span

/-- The offset a node starts at. -/
def start (t : Tree) (id : NodeId) : Nat := (t.span id).start

/-- The offset a node stops at. -/
def stop (t : Tree) (id : NodeId) : Nat := (t.span id).stop

/-- The node above, but for the root. -/
def parent (t : Tree) (id : NodeId) : Option NodeId := (t.node id).parent

/-- The nodes right below, in the order of the text. -/
def children (t : Tree) (id : NodeId) : List NodeId := (t.node id).children

/-- The text of a node. -/
def textOf (t : Tree) (id : NodeId) : String := (t.span id).slice t.text

/-- The nodes above a node, innermost first, at most `fuel` of them. -/
def ancestorsWithin (t : Tree) : (fuel : Nat) → NodeId → List NodeId
  | 0, _ => []
  | fuel + 1, id =>
    match t.parent id with
    | none => []
    | some p => p :: t.ancestorsWithin fuel p

/-- The nodes above a node, innermost first. -/
def ancestors (t : Tree) (id : NodeId) : List NodeId := t.ancestorsWithin t.size id

/-- The nodes of the subtrees in `work` that `keep` does not cut off, behind `done`, each before
what it contains, at most `fuel` of them. -/
def preorderWithin (t : Tree) (keep : NodeId → Bool) :
    (fuel : Nat) → (work : List NodeId) → (done : Array NodeId) → Array NodeId
  | 0, _, done => done
  | _, [], done => done
  | fuel + 1, id :: work, done =>
    t.preorderWithin keep fuel ((t.children id).filter keep ++ work) (done.push id)

/-- A subtree, each node before what it contains. -/
def preorder (t : Tree) (id : NodeId) : List NodeId :=
  (t.preorderWithin (fun _ => true) t.size [id] #[]).toList

/-- All nodes, each before what it contains. -/
def walk (t : Tree) : List NodeId := t.preorder t.root

/-- The first child of a kind. -/
def child? (t : Tree) (id : NodeId) (kind : NodeKind) : Option NodeId :=
  (t.children id).find? fun c => t.kind c == kind

/-- The children of a kind. -/
def childrenOf (t : Tree) (id : NodeId) (kind : NodeKind) : List NodeId :=
  (t.children id).filter fun c => t.kind c == kind

/-- How many children of the same parent and kind stand before a node. -/
def positionAmongSiblings (t : Tree) (id : NodeId) : Nat :=
  match t.parent id with
  | none => 0
  | some p => ((t.childrenOf p (t.kind id)).takeWhile (· != id)).length

end Tree

end LuaTyping
