import LuaTyping.Text.Span
import LuaTyping.Syntax.Kind

/-!
# Making nodes

While it reads, the parser has nodes in hand.  It asks for the kind of a node and for its place,
and it makes new nodes over those it has; of the text it knows only where its tokens stand.  What
keeps the nodes meanwhile is a `Maker`, and the grammar is written for any of them.

The parser itself is run with the table under construction, `Draft`, where a node in hand is the
number of its row.
-/

namespace LuaTyping

/-- `σ` keeps the nodes that are made, and `ν` is what one has in hand of a node. -/
class Maker (σ : Type) (ν : outParam Type) where
  /-- Where the token with a number starts; behind the last token, the end of the text. -/
  tokenStart : σ → Nat → Nat
  /-- Where the last of the first `count` tokens stops; of no tokens, the start of the text. -/
  stopBefore : σ → (count : Nat) → Nat
  /-- The span of the token with a number. -/
  tokenSpan : σ → Nat → Span
  /-- The span between two places. -/
  between : σ → (start stop : Nat) → Span
  kind : σ → ν → NodeKind
  span : σ → ν → Span
  /-- Makes a node over the given children. -/
  node : σ → NodeKind → Span → (children : List ν) → ν × σ
  /-- Makes the comment that documents a statement, from the number of the first token of the
  statement.  The answer is where the statement starts, its comment included, and the comment. -/
  doc : σ → (token : Nat) → (Nat × List ν) × σ

/-- The least span over some nodes. -/
def Maker.cover? {σ ν : Type} [Maker σ ν] (made : σ) : List ν → Option Span
  | [] => none
  | x :: xs => some (xs.foldl (fun s y => s.cover (Maker.span made y)) (Maker.span made x))

end LuaTyping
