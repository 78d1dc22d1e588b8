import LuaTyping.Text.Blank
import LuaTyping.Text.Lines
import LuaTyping.Token.Lexer

/-!
# Where tokens and comments stand

A `Layout` knows where the tokens and the comments of a text stand, and finds the comment that
documents a statement.

The doc comment of a statement is the run of comments in front of its first token.  The run is
read backwards: a comment belongs to it if only blanks with at most one newline lie between it and
what follows, and only blanks before it on its own line.

* `Layout.tokenStart`, `Layout.stopBefore`: the places of tokens.
* `Layout.docSpan?`: the place of a doc comment.
-/

namespace LuaTyping

/-- A text and the places of what it consists of. -/
structure Layout where
  text : String
  lines : Lines
  lexemes : Array Lexeme
  comments : Array Span

namespace Layout

/-- The layout of a text that is already cut into tokens. -/
def ofLexed (text : String) (lexed : Lexed) : Layout :=
  ⟨text, Lines.ofText text, lexed.lexemes, lexed.comments⟩

/-- Where the token with a number starts; behind the last token, the end of the text. -/
def tokenStart (l : Layout) (token : Nat) : Nat :=
  match l.lexemes[token]? with
  | some x => x.span.start
  | none => l.text.utf8ByteSize

/-- Where the token with a number stops; behind the last token, the end of the text. -/
def tokenStop (l : Layout) (token : Nat) : Nat :=
  match l.lexemes[token]? with
  | some x => x.span.stop
  | none => l.text.utf8ByteSize

/-- The span of the token with a number. -/
def tokenSpan (l : Layout) (token : Nat) : Span := ⟨l.tokenStart token, l.tokenStop token⟩

/-- Where the token before the one with a number stops, or the start of the text. -/
def stopBefore (l : Layout) (token : Nat) : Nat :=
  match token with
  | 0 => 0
  | i + 1 => l.tokenStop i

/-! ## Doc comments -/

/-- Between a comment and what follows at `next` are only blanks with at most one newline. -/
def isNextTo (l : Layout) (comment : Span) (next : Nat) : Bool :=
  let gap := Span.slice l.text ⟨comment.stop, next⟩
  allBlank gap && decide (gap.toList.count '\n' ≤ 1)

/-- Only blanks stand before a comment on its line. -/
def startsLine (l : Layout) (comment : Span) : Bool :=
  allBlank (Span.slice l.text ⟨l.lines.lineStart comment.start, comment.start⟩)

/-- The first and the last comment of the run that ends at `next`, for the comments before `next`
from the last to the first; `found` is what is known from the part of the run already read. -/
def docRun (l : Layout) : List Span → Nat → Option (Span × Span) → Option (Span × Span)
  | [], _, found => found
  | c :: cs, next, found =>
    if l.isNextTo c next && l.startsLine c then
      l.docRun cs c.start (some (c, (found.map Prod.snd).getD c))
    else found

/-- The comments that stop in front of a token, from the last to the first. -/
def commentsBefore (l : Layout) (token : Nat) : List Span :=
  let start := l.tokenStart token
  let count := firstIndex (fun i => decide (start < (l.comments.getD i default).stop)) 0
    l.comments.size
  (l.comments.extract 0 count).toList.reverse

/-- The place of the doc comment in front of a token. -/
def docSpan? (l : Layout) (token : Nat) : Option Span :=
  (l.docRun (l.commentsBefore token) (l.tokenStart token) none).map fun r => r.1.cover r.2

end Layout

end LuaTyping
