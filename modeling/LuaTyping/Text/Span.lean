/-!
# Spans of a text

A place in a text is a byte offset into its UTF-8 form, and a `Span` is a half-open interval of
such offsets.  Spans are compared and joined as intervals of numbers; only `Span.slice` looks at
the text itself.

Offsets have 32 bits, so a larger number stands for its remainder.  Every span of a part of a text
is made by `Span.ofNumbers`, and numbers from elsewhere are reduced before they are compared.  In a
text with at least `offsetCount` bytes two places can therefore have one offset.

* `Span.ofNumbers`: the span between two numbers.
* `Span.cover`: the least span over two spans.
* `Span.slice`: the characters of a text inside a span.
-/

namespace LuaTyping

/-- The bytes from `start` up to, and not including, `stop`. -/
structure Span where
  start : Nat
  stop : Nat
  deriving DecidableEq, Repr, Inhabited

/-- The number of offsets. -/
def offsetCount : Nat := UInt32.size

namespace Span

/-- The span between two numbers. -/
def ofNumbers (start stop : Nat) : Span := ⟨start % offsetCount, stop % offsetCount⟩

/-- The empty span at a number. -/
def emptyAt (offset : Nat) : Span := ofNumbers offset offset

/-- The least span that holds both. -/
def cover (a b : Span) : Span := ⟨min a.start b.start, max a.stop b.stop⟩

/-- The number is the offset of one of the bytes of the span. -/
def containsOffset (a : Span) (offset : Nat) : Bool :=
  decide (a.start ≤ offset % offsetCount) && decide (offset % offsetCount < a.stop)

/-- Like `containsOffset`, and a cursor right after the last byte counts too. -/
def touchesOffset (a : Span) (offset : Nat) : Bool :=
  decide (a.start ≤ offset % offsetCount) && decide (offset % offsetCount ≤ a.stop)

/-- The other span lies inside this one, ends included. -/
def containsSpan (a b : Span) : Bool :=
  decide (a.start ≤ b.start) && decide (b.stop ≤ a.stop)

/-- The number of bytes.  A span that stops before its start reaches around the end of the
offsets. -/
def length (a : Span) : Nat :=
  (if a.start ≤ a.stop then a.stop else a.stop + offsetCount) - a.start

/-- No byte lies in the span. -/
def isEmpty (a : Span) : Bool := a.start == a.stop

/-- The characters of `text` inside the span.  Both ends are expected on character boundaries. -/
def slice (text : String) (a : Span) : String :=
  String.Pos.Raw.extract text ⟨a.start⟩ ⟨a.stop⟩

/-- Numbers that are offsets are kept. -/
theorem ofNumbers_of_lt {start stop : Nat} (first : start < offsetCount)
    (last : stop < offsetCount) : ofNumbers start stop = ⟨start, stop⟩ := by
  rw [ofNumbers, Nat.mod_eq_of_lt first, Nat.mod_eq_of_lt last]

theorem emptyAt_of_lt {offset : Nat} (inside : offset < offsetCount) :
    emptyAt offset = ⟨offset, offset⟩ :=
  ofNumbers_of_lt inside inside

theorem touchesOffset_of_containsOffset {a : Span} {offset : Nat}
    (h : a.containsOffset offset = true) : a.touchesOffset offset = true := by
  simp only [containsOffset, touchesOffset, Bool.and_eq_true, decide_eq_true_eq] at h ⊢
  omega

theorem cover_comm (a b : Span) : a.cover b = b.cover a := by
  simp only [cover, Nat.min_comm, Nat.max_comm]

theorem cover_assoc (a b c : Span) : (a.cover b).cover c = a.cover (b.cover c) := by
  simp only [cover, Nat.min_assoc, Nat.max_assoc]

end Span

/-- The number of bytes of a list of characters in UTF-8. -/
def byteLength (cs : List Char) : Nat := cs.foldl (fun n c => n + c.utf8Size) 0

end LuaTyping
