import LuaTyping.Syntax.Kind

/-!
# Outlines: syntax trees over numbered tokens

The parser sees the kinds of the tokens and nothing else, so what it builds does not know where in
the text a token stands.  An `Outline` is an ordered tree of node kinds, in which every node begins
and ends at a *mark*.  Three marks belong to the token with number `i`:

* `Mark.doc i`: where the doc comment in front of the token starts, if it has one, and otherwise
  where the token starts;
* `Mark.start i`: where the token starts; for the number after the last token, the end of the text;
* `Mark.stop i`: where the token ends.

Marks are numbers, and their order is the order of the places in the text.

A statement has a doc slot as its first child.  Whether a comment stands there is not known to the
parser; the slot becomes a comment node or nothing once the tokens are placed in a text.
-/

namespace LuaTyping

namespace Mark

/-- Where the doc comment in front of a token starts, or else the token itself. -/
def doc (token : Nat) : Nat := 3 * token

/-- Where a token starts. -/
def start (token : Nat) : Nat := 3 * token + 1

/-- Where a token ends. -/
def stop (token : Nat) : Nat := 3 * token + 2

/-- Where the last of the first `count` tokens ends. -/
def stopBefore (count : Nat) : Nat := 3 * count - 1

end Mark

/-- An ordered tree of node kinds between marks. -/
inductive Outline
  /-- The place of the doc comment in front of a token. -/
  | doc (token : Nat)
  /-- A node from the mark `first` to the mark `last`. -/
  | node (kind : NodeKind) (first last : Nat) (children : List Outline)
  deriving Repr, Inhabited

namespace Outline

/-- The mark a tree begins at. -/
def first : Outline → Nat
  | doc i => Mark.doc i
  | node _ m _ _ => m

/-- The mark a tree ends at. -/
def last : Outline → Nat
  | doc i => Mark.doc i
  | node _ _ m _ => m

/-- The kind of the root; a doc slot stands for a comment. -/
def kind : Outline → NodeKind
  | doc _ => .comment
  | node k _ _ _ => k

/-- The subtrees of the root. -/
def children : Outline → List Outline
  | doc _ => []
  | node _ _ _ cs => cs

mutual

/-- The number of nodes of a tree, doc slots included. -/
def size : Outline → Nat
  | doc _ => 1
  | node _ _ _ cs => 1 + sizeList cs

/-- The number of nodes of trees in a row. -/
def sizeList : List Outline → Nat
  | [] => 0
  | c :: cs => c.size + sizeList cs

end

/-- A node for one token. -/
def leaf (kind : NodeKind) (token : Nat) : Outline :=
  node kind (Mark.start token) (Mark.stop token) []

/-- An empty node at a mark. -/
def empty (kind : NodeKind) (mark : Nat) : Outline := node kind mark mark []

/-- The node over `a` and `b` with the given children. -/
def join (kind : NodeKind) (a b : Outline) (children : List Outline) : Outline :=
  node kind (min a.first b.first) (max a.last b.last) children

/-- The value node around an operand. -/
def value (o : Outline) : Outline := node .valueExpr o.first o.last [o]

/-- The least node over its children; without children, an empty node at `fallback`. -/
def wrap (kind : NodeKind) (children : List Outline) (fallback : Nat) : Outline :=
  match children with
  | [] => empty kind fallback
  | c :: cs =>
    node kind (cs.foldl (fun m t => min m t.first) c.first)
      (cs.foldl (fun m t => max m t.last) c.last) children

end Outline

end LuaTyping
