import LuaTyping.Text.Search
import LuaTyping.Text.Span

/-!
# Lines and columns

A `Position` is a zero-based line and a column that counts characters.  `Lines` holds the byte
offset at which each line of a text starts and converts between offsets and positions.  A line
ends before its newline.

* `Lines.position`: the position of an offset; offsets past the end of the text count as its end.
* `Lines.offset?`: the offset of a position; columns past the end of the line count as its end,
  and a line that does not exist has none.
-/

namespace LuaTyping

/-- Zero-based line and character column. -/
structure Position where
  line : Nat
  column : Nat
  deriving DecidableEq, Repr, Inhabited

/-- The order of places in a text: by line, then by column. -/
def Position.le (p q : Position) : Bool :=
  decide (p.line < q.line) || (p.line == q.line && decide (p.column ≤ q.column))

/-- The places between two positions. -/
structure PositionRange where
  start : Position
  stop : Position
  deriving DecidableEq, Repr, Inhabited

/-- Both ends belong to the range.  Lines are compared first, and columns only on the two lines
at the ends. -/
def PositionRange.contains (r : PositionRange) (p : Position) : Bool :=
  !(decide (p.line < r.start.line) || decide (p.line > r.stop.line))
    && !(p.line == r.start.line && decide (p.column < r.start.column))
    && !(p.line == r.stop.line && decide (p.column > r.stop.column))

/-- The byte offsets at which the lines of a text start.  There is always a first line. -/
structure Lines where
  starts : Array Nat
  deriving Repr, Inhabited

namespace Lines

/-- The offsets right after the newlines of `cs`, which starts at `offset`, added to `starts`. -/
def startsAfter : List Char → Nat → Array Nat → Array Nat
  | [], _, starts => starts
  | c :: cs, offset, starts =>
    let next := offset + c.utf8Size
    startsAfter cs next (if c = '\n' then starts.push next else starts)

/-- The lines of a text. -/
def ofText (text : String) : Lines := ⟨startsAfter text.toList 0 #[0]⟩

/-- The number of lines. -/
def count (l : Lines) : Nat := l.starts.size

/-- The last line that starts at or before an offset. -/
def lineOf (l : Lines) (offset : Nat) : Nat :=
  firstIndex (fun i => decide (offset < l.starts.getD i 0)) 0 l.count - 1

/-- The offset at which the line of an offset starts. -/
def lineStart (l : Lines) (offset : Nat) : Nat := l.starts.getD (l.lineOf offset) 0

/-- A character of `text` starts at `offset`, or the text ends there. -/
def isBoundary (text : String) (offset : Nat) : Bool := String.Pos.Raw.isValid text ⟨offset⟩

/-- The position of an offset.  Inside a character the column counts bytes. -/
def position (l : Lines) (text : String) (offset : Nat) : Position :=
  let offset := min offset text.utf8ByteSize
  let line := l.lineOf offset
  let start := l.starts.getD line 0
  ⟨line,
    if isBoundary text offset then (Span.slice text ⟨start, offset⟩).length else offset - start⟩

/-- The number of bytes of the first `n` characters. -/
def byteColumn (cs : List Char) (n : Nat) : Nat := byteLength (cs.take n)

/-- The offset of a position. -/
def offset? (l : Lines) (text : String) (p : Position) : Option Nat :=
  l.starts[p.line]?.map fun start =>
    let stop := match l.starts[p.line + 1]? with
      | some next => next - 1
      | none => text.utf8ByteSize
    start + byteColumn (Span.slice text ⟨start, stop⟩).toList p.column

/-- The positions of the two ends of a span. -/
def range (l : Lines) (text : String) (s : Span) : PositionRange :=
  ⟨l.position text s.start, l.position text s.stop⟩

end Lines

end LuaTyping
