import LuaTyping.Proofs.Text.Lines

/-!
# Positions correspond to offsets

The offsets between the characters of a text and the positions on its lines are two readings of one
order.  Going from an offset to its position and back changes nothing; going the other way changes a
column behind the end of its line into the end of the line, and nothing else.  Since no order is
lost on the way, a range of positions holds a position just when the span that it was made from
touches the offset.

* `Lines.Faithful`: what it means that the lines of a text convert without loss.
* `Lines.faithful_ofText`: the lines of every text do.

Spans reduce offsets to 32 bits before they compare them, so the text has to be shorter than that.
Positions and offsets by themselves need no such bound.
-/

namespace LuaTyping

/-- The order of places in a text, without equality: an earlier line, or an earlier column of the
same line. -/
def Position.Before (p q : Position) : Prop :=
  p.line < q.line ∨ (p.line = q.line ∧ p.column < q.column)

/-- Inside the offsets of a text, touching is lying between the two ends. -/
theorem Span.touchesOffset_iff_of_lt {s : Span} {offset : Nat} (short : offset < offsetCount) :
    s.touchesOffset offset = true ↔ s.start ≤ offset ∧ offset ≤ s.stop := by
  rw [touchesOffset, Nat.mod_eq_of_lt short, Bool.and_eq_true, decide_eq_true_eq, decide_eq_true_eq]

namespace Lines

variable {text : String} {o : Nat} {p : Position}

/-- Between two characters there is no offset behind the end of the text. -/
theorem le_size_of_isBoundary (boundary : isBoundary text o = true) : o ≤ text.utf8ByteSize := by
  obtain ⟨before, after, split, rfl⟩ := isBoundary_iff.mp boundary
  rw [utf8ByteSize_eq, split, byteLength_append]
  exact Nat.le_add_right _ _

/-- The line with a number below the number of lines. -/
theorem exists_lineAt_of_lt_count {n : Nat} (inside : n < (ofText text).count) :
    ∃ front line back, LineAt text.toList n front line back := by
  rw [count_ofText] at inside
  exact LineAt.exists_of_le (Nat.le_of_lt_succ inside)

/-- On a line that exists, a position leads to an offset of that line, and from there back to the
column, or to the end of the line if the column lies behind it. -/
theorem position_offset?_of_lineAt {front line back : List Char}
    (lineAt : LineAt text.toList p.line front line back) :
    ∃ o, (ofText text).offset? text p = some o ∧ isBoundary text o = true
      ∧ byteLength front ≤ o ∧ o ≤ byteLength (front ++ line)
      ∧ (ofText text).position text o = ⟨p.line, min p.column line.length⟩ := by
  have found := offset?_of_lineAt lineAt p.column
  -- columns behind the end take the whole line with them
  have clamped : line.take p.column = line.take (min p.column line.length) :=
    List.take_eq_take_min
  refine ⟨_, found, isBoundary_of_offset?_eq_some found, ?_, ?_, ?_⟩
  · rw [byteLength_append]
    exact Nat.le_add_right _ _
  · have le := byteLength_take_le line (Nat.min_le_right p.column line.length)
    rw [List.take_length] at le
    rw [clamped, byteLength_append, byteLength_append]
    exact Nat.add_le_add_left le _
  · rw [clamped]
    exact position_of_lineAt lineAt (Nat.min_le_right _ _)

/-- The lines of a text convert between offsets and positions without loss.  The offsets are those
between two characters of the text, its two ends included. -/
structure Faithful (text : String) (l : Lines) : Prop where
  /-- From an offset to its position and back. -/
  offset_position : ∀ o, isBoundary text o = true → l.offset? text (l.position text o) = some o
  /-- From a position to an offset of its line, and back to the column or the end of the line. -/
  position_offset : ∀ p : Position, p.line < l.count →
    ∃ front line back, LineAt text.toList p.line front line back ∧
      ∃ o, l.offset? text p = some o ∧ isBoundary text o = true
        ∧ byteLength front ≤ o ∧ o ≤ byteLength (front ++ line)
        ∧ l.position text o = ⟨p.line, min p.column line.length⟩
  /-- Just the lines that do not exist have no offset. -/
  no_offset : ∀ p : Position, l.offset? text p = none ↔ l.count ≤ p.line
  /-- A later offset has a later position. -/
  order : ∀ o o', isBoundary text o = true → isBoundary text o' = true → o < o' →
    (l.position text o).Before (l.position text o')
  /-- A range holds the positions of just the offsets that its span touches. -/
  contains : ∀ (s : Span) (o : Nat), isBoundary text s.start = true →
    isBoundary text s.stop = true →
    isBoundary text o = true →
    ((l.range text s).contains (l.position text o) = true ↔ s.touchesOffset o = true)

/-- The lines of every text whose offsets fit 32 bits convert between offsets and positions without
loss. -/
theorem faithful_ofText (text : String) (short : text.utf8ByteSize < offsetCount) :
    Faithful text (ofText text) where
  offset_position _ boundary := offset?_position boundary
  position_offset p inside := by
    obtain ⟨front, line, back, lineAt⟩ := exists_lineAt_of_lt_count inside
    exact ⟨front, line, back, lineAt, position_offset?_of_lineAt lineAt⟩
  no_offset _ := offset?_eq_none_iff
  order _ _ boundary boundary' lt := position_lt boundary boundary' lt
  contains s o start stop boundary := by
    have inside := Nat.lt_of_le_of_lt (le_size_of_isBoundary boundary) short
    rw [contains_range_iff start stop boundary, Span.touchesOffset_iff_of_lt inside]

/-- A text with characters of more than one byte, an empty line and a newline at its end. -/
theorem faithful_ofText_accents :
    "é\n\nüab\n".utf8ByteSize < offsetCount
      ∧ Faithful "é\n\nüab\n" (ofText "é\n\nüab\n") :=
  ⟨by decide, faithful_ofText "é\n\nüab\n" (by decide)⟩

end Lines

end LuaTyping
