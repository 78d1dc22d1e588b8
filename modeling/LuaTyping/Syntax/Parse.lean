import LuaTyping.Syntax.Grammar.Program
import LuaTyping.Syntax.Draft

/-!
# From text to tree

Every text has a tree.  What is wrong with the text is listed beside the tree: first the places
that are no token, in the order of the text, then what the grammar refuses, in the order of its
discovery.
-/

namespace LuaTyping

/-- The tree of a text and what is wrong with the text. -/
structure Parsed where
  tree : Tree
  errors : List SyntaxError
  deriving Repr, Inhabited

namespace Layout

/-- A fault at its place in the text. -/
def syntaxError (l : Layout) (limit : Nat) : Fault → SyntaxError
  | .unexpected token e => .unexpected ((l.tokenSpan token).slice l.text) e (l.tokenSpan token)
  | .unexpectedEnd e => .unexpectedEnd e (.emptyAt l.text.utf8ByteSize)
  | .tooDeep token => .tooDeep limit (.ofNumbers (l.tokenStart token) l.text.utf8ByteSize)

end Layout

namespace Parsed

/-- Reads the tokens of a layout.  The answer is the main block, with the tokens behind it, the
faults that were found, and the rows of the table. -/
def read (limit : Nat) (layout : Layout) : NodeId × Cursor Draft :=
  (Grammar.chunk limit (.start (layout.lexemes.map Lexeme.token).toList ⟨layout, #[]⟩)).val

/-- Parses a text in which statements and sub-expressions may be nested `limit` deep.  The root of
its tree takes the whole text. -/
def ofTextWithin (limit : Nat) (text : String) : Parsed :=
  let lexed := Lexed.ofText text
  let layout := Layout.ofLexed text lexed
  let (body, c) := read limit layout
  let (_, draft) := c.made.node .chunk (.ofNumbers 0 text.utf8ByteSize) [body]
  ⟨⟨text, draft.nodes⟩,
    lexed.invalid.toList.map .invalid ++ c.faults.reverse.map (layout.syntaxError limit)⟩

/-- Parses a text. -/
def ofText (text : String) : Parsed := ofTextWithin maxNesting text

end Parsed

end LuaTyping
