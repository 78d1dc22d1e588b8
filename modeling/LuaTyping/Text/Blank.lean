/-!
# Blanks

The characters of the Unicode property White_Space, and trimming by it.  Doc comments, type
expressions and module names are trimmed with this class; the lexer has a smaller one of its own.

* `isBlank`: membership, with `isBlank_of_isWhitespace` for the ASCII blanks.
* `trimBlanks`: what is left without the blanks at the two ends.
-/

namespace LuaTyping

/-- The ranges of code points of White_Space, both ends included. -/
def blankRanges : List (Nat × Nat) :=
  [(0x09, 0x0d), (0x20, 0x20), (0x85, 0x85), (0xa0, 0xa0), (0x1680, 0x1680), (0x2000, 0x200a),
   (0x2028, 0x2029), (0x202f, 0x202f), (0x205f, 0x205f), (0x3000, 0x3000)]

/-- The character has the property White_Space. -/
def isBlank (c : Char) : Bool :=
  blankRanges.any fun r => decide (r.1 ≤ c.toNat) && decide (c.toNat ≤ r.2)

theorem isBlank_of_isWhitespace {c : Char} (h : c.isWhitespace = true) : isBlank c = true := by
  simp only [Char.isWhitespace, Bool.or_eq_true, decide_eq_true_eq] at h
  rcases h with ((rfl | rfl) | rfl) | rfl <;> decide

/-- The list without the blanks it starts with. -/
def dropBlanks (cs : List Char) : List Char := cs.dropWhile isBlank

/-- The list without the blanks it ends with. -/
def dropBlanksRight (cs : List Char) : List Char := (cs.reverse.dropWhile isBlank).reverse

/-- The list without the blanks at its two ends. -/
def trimBlanks (cs : List Char) : List Char := dropBlanksRight (dropBlanks cs)

/-- All characters are blank. -/
def allBlank (s : String) : Bool := s.toList.all isBlank

end LuaTyping
