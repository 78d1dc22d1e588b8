import LuaTyping.Text.Span
import LuaTyping.Token

/-!
# From text to tokens

A text is cut into pieces from left to right: each piece is the longest one that a rule of the
language allows at its place, and what no rule allows is an invalid piece.  Nothing is left out,
so the pieces put together are the text again; blanks, comments and the first line of a script
are pieces too.

An invalid piece reaches up to the character where every rule fails, and takes at least one
character:

* a quoted string that is not closed on its line reaches up to the newline;
* a long bracket, of a string or a comment, that is never closed reaches to the end of the text;
* `[` with equals signs that no second `[` follows is invalid together with them.

Main definitions:

* `scan`: the kind of the next piece and how many characters follow its first one.
* `pieces`: the pieces of a text.
* `Lexed.ofText`: the tokens, comments and invalid places of a text with their spans.
-/

namespace LuaTyping

/-- What a piece of text is to the language. -/
inductive PieceKind
  | token (t : Token)
  | comment
  | blank
  | shebang
  | invalid
  deriving DecidableEq, Repr, Inhabited

/-- A stretch of text of one kind. -/
structure Piece where
  kind : PieceKind
  text : List Char
  deriving DecidableEq, Repr, Inhabited

namespace Lexer

/-- The blanks between tokens. -/
def isGap (c : Char) : Bool :=
  c == ' ' || c == '\t' || c == '\r' || c == '\n' || c == '\x0c'

theorem isGap_iff {c : Char} :
    isGap c = true ↔ c = ' ' ∨ c = '\t' ∨ c = '\r' ∨ c = '\n' ∨ c = '\x0c' := by
  simp [isGap, or_assoc]

/-- A class without the five blanks has no blank in it. -/
theorem not_of_isGap (p : Char → Bool) {c : Char} (gap : isGap c = true)
    (none : [' ', '\t', '\r', '\n', '\x0c'].all (!p ·) = true) : p c = false := by
  have each : p c = true → ∀ d ∈ [' ', '\t', '\r', '\n', '\x0c'], d ≠ c := by
    rintro inside d mem rfl
    simpa [inside] using List.all_eq_true.mp none d mem
  cases inside : p c with
  | false => rfl
  | true =>
    have other := each inside
    rcases isGap_iff.mp gap with rfl | rfl | rfl | rfl | rfl <;> simp at other

theorem ne_of_isGap {c d : Char} (gap : isGap c = true) (other : isGap d = false) : c ≠ d := by
  rintro rfl
  rw [gap] at other
  exact Bool.noConfusion other

/-- A name starts with an ASCII letter or an underscore. -/
def isNameStart (c : Char) : Bool := c.isAlpha || c == '_'

/-- A name goes on with ASCII letters, digits and underscores. -/
def isNameChar (c : Char) : Bool := c.isAlphanum || c == '_'

/-- A hexadecimal digit. -/
def isHexDigit (c : Char) : Bool :=
  c.isDigit || (decide ('a' ≤ c) && decide (c ≤ 'f')) || (decide ('A' ≤ c) && decide (c ≤ 'F'))

/-- How many characters of the class the list starts with. -/
def runLength (p : Char → Bool) (cs : List Char) : Nat := (cs.takeWhile p).length

/-! ### Numbers -/

/-- The length of an optional exponent: its letter, an optional sign and at least one digit. -/
def exponentLength (letter : Char → Bool) : List Char → Nat
  | [] => 0
  | c :: cs =>
    if letter c then
      let sign := match cs with
        | s :: _ => if s == '+' || s == '-' then 1 else 0
        | [] => 0
      let digits := runLength Char.isDigit (cs.drop sign)
      if digits = 0 then 0 else 1 + sign + digits
    else 0

/-- The length of an optional fraction: a point and any number of digits. -/
def fractionLength (digit : Char → Bool) : List Char → Nat
  | '.' :: cs => 1 + runLength digit cs
  | _ => 0

/-- The length of digits, an optional fraction and an optional exponent. -/
def numeralLength (digit letter : Char → Bool) (cs : List Char) : Nat :=
  let whole := runLength digit cs
  let fraction := fractionLength digit (cs.drop whole)
  whole + fraction + exponentLength letter (cs.drop (whole + fraction))

/-- The letter of a decimal exponent. -/
def isDecimalMark (c : Char) : Bool := c == 'e' || c == 'E'

/-- The letter of a hexadecimal exponent. -/
def isHexMark (c : Char) : Bool := c == 'p' || c == 'P'

/-- The length of a number that starts with the digit `c`, without that digit. -/
def numberTail (c : Char) (cs : List Char) : Nat :=
  match cs with
  | x :: rest =>
    if c == '0' && (x == 'x' || x == 'X') then 1 + numeralLength isHexDigit isHexMark rest
    else numeralLength Char.isDigit isDecimalMark cs
  | [] => 0

/-! ### Strings and comments -/

/-- What follows the opening quote `q`, counted from `n`: whether the string is closed, and its
length.  A backslash takes the next character with it, also a newline. -/
def quotedTail (q : Char) : List Char → Nat → Bool × Nat
  | [], n => (false, n)
  | '\\' :: [], n => (false, n)
  | '\\' :: _ :: cs, n => quotedTail q cs (n + 2)
  | c :: cs, n =>
    if c = q then (true, n + 1)
    else if c = '\n' then (false, n)
    else quotedTail q cs (n + 1)

/-- The level of a long bracket whose first `[` is already read: its number of equals signs. -/
def bracketLevel? (cs : List Char) : Option Nat :=
  let level := runLength (· == '=') cs
  match cs.drop level with
  | '[' :: _ => some level
  | _ => none

/-- The equals signs and the second bracket of a closing long bracket. -/
def closingTail (level : Nat) : List Char := List.replicate level '=' ++ [']']

/-- The number of characters up to the end of the first closing bracket of the level, counted
from `n`. -/
def closingEnd? (level : Nat) : List Char → Nat → Option Nat
  | [], _ => none
  | c :: cs, n =>
    if c = ']' && (closingTail level).isPrefixOf cs then some (n + level + 2)
    else closingEnd? level cs (n + 1)

/-- The rest of a long bracket of the level, after the `opened` characters `cs` starts with. -/
def longTail (kind : PieceKind) (level opened : Nat) (cs : List Char) : PieceKind × Nat :=
  match closingEnd? level (cs.drop opened) opened with
  | some n => (kind, n)
  | none => (.invalid, cs.length)

/-- A piece that starts with `[`. -/
def bracketPiece (cs : List Char) : PieceKind × Nat :=
  match bracketLevel? cs with
  | some level => longTail (.token .longString) level (level + 1) cs
  | none =>
    let signs := runLength (· == '=') cs
    if signs = 0 then (.token .leftBracket, 0) else (.invalid, signs)

/-- The level of the long bracket that opens a comment, if one does.  The first dash of the
comment is already read; `cs` starts with the second. -/
def commentLevel? : List Char → Option Nat
  | '-' :: '[' :: rest => bracketLevel? rest
  | _ => none

/-- A comment whose first dash is already read: a long bracket right behind the dashes, or the
rest of the line. -/
def commentPiece (cs : List Char) : PieceKind × Nat :=
  match commentLevel? cs with
  | some level => longTail .comment level (level + 3) cs
  | none => (.comment, runLength (· != '\n') cs)

/-! ### The next piece -/

/-- A piece that starts with a point. -/
def dotPiece : List Char → PieceKind × Nat
  | '.' :: '.' :: _ => (.token .ellipsis, 2)
  | '.' :: _ => (.token .concat, 1)
  | cs =>
    let digits := runLength Char.isDigit cs
    if digits = 0 then (.token .dot, 0)
    else (.token .number, digits + exponentLength isDecimalMark (cs.drop digits))

/-- The longer token if the next character is `next`, else the shorter. -/
def orLonger (next : Char) (longer shorter : Token) : List Char → PieceKind × Nat
  | c :: _ => if c = next then (.token longer, 1) else (.token shorter, 0)
  | [] => (.token shorter, 0)

/-- A piece that starts with `~`, `<` or `>`: the first pair whose character comes next. -/
def oneOf (shorter : Token) (pairs : List (Char × Token)) : List Char → PieceKind × Nat
  | c :: _ =>
    match pairs.find? (·.1 == c) with
    | some p => (.token p.2, 1)
    | none => (.token shorter, 0)
  | [] => (.token shorter, 0)

/-- The operators and delimiters of one character that start no longer one. -/
def single? : Char → Option Token
  | '+' => some .plus | '*' => some .star | '%' => some .percent | '^' => some .caret
  | '#' => some .hash | '&' => some .ampersand | '|' => some .pipe
  | '(' => some .leftParen | ')' => some .rightParen
  | '{' => some .leftBrace | '}' => some .rightBrace | ']' => some .rightBracket
  | ';' => some .semicolon | ',' => some .comma
  | _ => none

/-- A piece that starts with neither blank, letter, digit nor quote. -/
def symbolPiece (c : Char) (cs : List Char) : PieceKind × Nat :=
  match c with
  | '-' => if cs.head? = some '-' then commentPiece cs else (.token .minus, 0)
  | '[' => bracketPiece cs
  | '.' => dotPiece cs
  | '/' => orLonger '/' .doubleSlash .slash cs
  | '=' => orLonger '=' .equal .assign cs
  | ':' => orLonger ':' .doubleColon .colon cs
  | '~' => oneOf .tilde [('=', .notEqual)] cs
  | '<' => oneOf .less [('<', .shiftLeft), ('=', .lessEqual)] cs
  | '>' => oneOf .greater [('>', .shiftRight), ('=', .greaterEqual)] cs
  | _ =>
    match single? c with
    | some t => (.token t, 0)
    | none => (.invalid, 0)

/-- The kind of the piece that starts with `c`, and how many characters of `cs` it takes. -/
def scan (c : Char) (cs : List Char) : PieceKind × Nat :=
  if isGap c then (.blank, runLength isGap cs)
  else if isNameStart c then
    let n := runLength isNameChar cs
    (.token (Token.ofWord (c :: cs.take n)), n)
  else if c.isDigit then (.token .number, numberTail c cs)
  else if c = '"' || c = '\'' then
    match quotedTail c cs 0 with
    | (true, n) => (.token .quoted, n)
    | (false, n) => (.invalid, n)
  else symbolPiece c cs

/-- The pieces of `cs`, added to `done`. -/
def piecesFrom : List Char → Array Piece → Array Piece
  | [], done => done
  | c :: cs, done =>
    let next := scan c cs
    piecesFrom (cs.drop next.2) (done.push ⟨next.1, c :: cs.take next.2⟩)
termination_by cs => cs.length
decreasing_by simp only [List.length_drop, List.length_cons]; omega

/-- The pieces of a text.  A first line that starts with `#!` is one piece, without its newline. -/
def pieces (cs : List Char) : Array Piece :=
  match cs with
  | '#' :: '!' :: _ =>
    piecesFrom (cs.dropWhile (· != '\n')) #[⟨.shebang, cs.takeWhile (· != '\n')⟩]
  | _ => piecesFrom cs #[]

end Lexer

/-- A token and its place. -/
structure Lexeme where
  token : Token
  span : Span
  deriving DecidableEq, Repr, Inhabited

/-- The tokens of a text in order, and beside them its comments and invalid places. -/
structure Lexed where
  lexemes : Array Lexeme
  comments : Array Span
  invalid : Array Span
  deriving Repr, Inhabited

namespace Lexed

/-- Adds a piece that takes the given span. -/
def add (l : Lexed) (kind : PieceKind) (span : Span) : Lexed :=
  match kind with
  | .token t => { l with lexemes := l.lexemes.push ⟨t, span⟩ }
  | .comment => { l with comments := l.comments.push span }
  | .invalid => { l with invalid := l.invalid.push span }
  | .blank | .shebang => l

/-- Places the next piece at `offset`. -/
def place (state : Nat × Lexed) (piece : Piece) : Nat × Lexed :=
  let stop := state.1 + byteLength piece.text
  (stop, state.2.add piece.kind (.ofNumbers state.1 stop))

/-- The tokens, comments and invalid places of a text. -/
def ofText (text : String) : Lexed :=
  ((Lexer.pieces text.toList).foldl place (0, ⟨#[], #[], #[]⟩)).2

end Lexed

end LuaTyping
