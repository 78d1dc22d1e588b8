import LuaTyping.Syntax.View.Literal
import LuaTyping.Proofs.Token.Alone

/-!
# Strings and their delimiters

A string is written between quotes or between long brackets of a level.  The lexer looks for the end
of the string in what follows the opening delimiter, and the contents are what is left of the whole
token without as many characters in front and behind.  The two go separate ways, and here they meet:
what may stand between the delimiters is the contents again, however it is written.

* `Lexer.Quotable`, `Lexer.Bracketable`: what may stand between quotes, and between long brackets.
* `Lexer.Delimits`: the notations of a string.
* `Lexer.Delimits.scan_eq`: a string ends at its closing delimiter, whatever stands behind it.
* `Lexer.Delimits.ofText_eq`: the text of a string is one token.
* `stringContents?_quotes`, `stringContents?_brackets`: the contents of a string.
-/

namespace LuaTyping

namespace Lexer

variable {q c : Char} {cs gap rest contents written : List Char} {level n : Nat} {t : Token}

/-! ## Runs -/

/-- A run ends in front of the first character of another class. -/
theorem runLength_append {p : Char → Bool} (all : ∀ c ∈ cs, p c = true)
    (other : ∀ c ∈ rest.head?, p c = false) : runLength p (cs ++ rest) = cs.length := by
  have none : rest.takeWhile p = [] := by
    cases rest with
    | nil => rfl
    | cons c rest =>
      exact List.takeWhile_cons_of_neg (by rw [other c rfl]; exact Bool.false_ne_true)
  rw [runLength, List.takeWhile_append_of_pos all, none, List.append_nil]

/-- Blanks in front of something else are one piece, if there are any. -/
theorem toList_piecesFrom_gaps (blank : ∀ c ∈ gap, isGap c = true)
    (next : ∀ c ∈ rest.head?, isGap c = false) :
    (piecesFrom (gap ++ rest) #[]).toList
      = (if gap = [] then [] else [⟨.blank, gap⟩]) ++ (piecesFrom rest #[]).toList := by
  cases gap with
  | nil => rfl
  | cons s gap =>
    have length := runLength_append (fun c mem => blank c (List.mem_cons_of_mem _ mem)) next
    rw [List.cons_append, toList_piecesFrom_cons, scan, if_pos (blank s List.mem_cons_self), length,
      if_neg (List.cons_ne_nil _ _), List.take_left', List.drop_left']
    · rfl
    · rfl
    · rfl

/-- A word ends in front of what is no part of a word. -/
theorem scan_word (start : isNameStart c = true) (solid : isGap c = false)
    (all : ∀ c ∈ cs, isNameChar c = true) (other : ∀ c ∈ rest.head?, isNameChar c = false) :
    scan c (cs ++ rest) = (.token (Token.ofWord (c :: cs)), cs.length) := by
  rw [scan, solid, if_neg Bool.false_ne_true, if_pos start, runLength_append all other]
  dsimp only
  rw [List.take_left' rfl]

/-- What a token takes is the next piece. -/
theorem toList_piecesFrom_of_scan (found : scan c (cs ++ rest) = (.token t, cs.length)) :
    (piecesFrom (c :: cs ++ rest) #[]).toList
      = ⟨.token t, c :: cs⟩ :: (piecesFrom rest #[]).toList := by
  rw [List.cons_append, toList_piecesFrom_cons, found, List.take_left' rfl, List.drop_left' rfl]

/-! ## Between quotes -/

/-- What may stand between two quotes: a backslash has a character behind it, and a newline or the
quote itself stands only there. -/
inductive Quotable (q : Char) : List Char → Prop
  | nil : Quotable q []
  | escaped (c : Char) {cs : List Char} : Quotable q cs → Quotable q ('\\' :: c :: cs)
  | plain {c : Char} {cs : List Char} : c ≠ '\\' → c ≠ '\n' → c ≠ q → Quotable q cs →
      Quotable q (c :: cs)

/-- A quoted string ends at its closing quote. -/
theorem quotedTail_quotable (quote : isQuote q = true) (quotable : Quotable q cs)
    (rest : List Char) (n : Nat) :
    quotedTail q (cs ++ q :: rest) n = (true, n + cs.length + 1) := by
  have unescaped : q ≠ '\\' := by
    rintro rfl
    exact absurd quote (by decide)
  induction quotable generalizing n with
  | nil =>
    rw [List.nil_append, quotedTail_cons unescaped, if_pos rfl, List.length_nil, Nat.add_zero]
  | escaped c _ ih =>
    rw [List.cons_append, List.cons_append, quotedTail, ih, List.length_cons, List.length_cons]
    congr 1
    omega
  | plain escape line other _ ih =>
    rw [List.cons_append, quotedTail_cons escape, if_neg other, if_neg line, ih, List.length_cons]
    congr 1
    omega

/-! ## Between long brackets -/

/-- The opening bracket of a level. -/
def opening (level : Nat) : List Char := '[' :: (List.replicate level '=' ++ ['['])

/-- The closing bracket of a level. -/
def closing (level : Nat) : List Char := ']' :: closingTail level

/-- What may stand between long brackets: with the closing bracket behind it, there is none
before. -/
def Bracketable (level : Nat) (cs : List Char) : Prop :=
  ∀ before after, cs ++ closing level = before ++ closing level ++ after →
    cs.length ≤ before.length

theorem length_opening (level : Nat) : (opening level).length = level + 2 := by
  simp [opening]

theorem length_closing (level : Nat) : (closing level).length = level + 2 := by
  rw [closing, List.length_cons, length_closingTail]

theorem bracketable_iff : Bracketable level cs ↔
    ∀ n < cs.length, (closing level).isPrefixOf ((cs ++ closing level).drop n) = false := by
  constructor
  · intro h n inside
    rw [← Bool.not_eq_true, List.isPrefixOf_iff_prefix]
    rintro ⟨after, eq⟩
    have whole : cs ++ closing level
        = (cs ++ closing level).take n ++ closing level ++ after := by
      rw [List.append_assoc, eq, List.take_append_drop]
    have early := h _ after whole
    rw [List.length_take] at early
    omega
  · intro none before after eq
    by_contra early
    have here := none before.length (Nat.lt_of_not_le early)
    rw [← Bool.not_eq_true, List.isPrefixOf_iff_prefix] at here
    refine here ⟨after, ?_⟩
    rw [eq, List.append_assoc, List.drop_left' rfl]

theorem Bracketable.tail (h : Bracketable level (c :: cs)) : Bracketable level cs := by
  intro before after eq
  have inside := h (c :: before) after (by rw [List.cons_append, eq]; rfl)
  exact Nat.le_of_succ_le_succ inside

/-- The brackets are found at the end. -/
theorem closingEnd?_bracketable (h : Bracketable level cs) (rest : List Char) (n : Nat) :
    closingEnd? level (cs ++ closing level ++ rest) n = some (n + cs.length + level + 2) := by
  induction cs generalizing n with
  | nil =>
    have closes : (closingTail level).isPrefixOf (closingTail level ++ rest) = true :=
      List.isPrefixOf_iff_prefix.mpr (List.prefix_append _ _)
    rw [List.nil_append, closing, List.cons_append, closingEnd?, closes]
    rfl
  | cons c cs ih =>
    have open_ : ¬(c = ']' && (closingTail level).isPrefixOf (cs ++ closing level ++ rest))
        = true := by
      intro closed
      rw [Bool.and_eq_true, decide_eq_true_eq, List.isPrefixOf_iff_prefix] at closed
      obtain ⟨rfl, found⟩ := closed
      -- the bracket would end in front of the closing one
      have within : closingTail level <+: cs ++ closing level := by
        refine List.prefix_of_prefix_length_le found (List.prefix_append _ rest) ?_
        rw [List.length_append, length_closing, length_closingTail]
        omega
      obtain ⟨after, eq⟩ := within
      have whole : ']' :: cs ++ closing level = [] ++ closing level ++ after := by
        rw [List.nil_append, List.cons_append, ← eq, closing, List.cons_append]
      exact absurd (h [] after whole) (Nat.not_succ_le_zero _)
    rw [List.cons_append, List.cons_append, closingEnd?, if_neg open_, ih h.tail, List.length_cons]
    congr 1
    omega

theorem bracketLevel?_replicate (level : Nat) (cs : List Char) :
    bracketLevel? (List.replicate level '=' ++ '[' :: cs) = some level := by
  have signs : runLength (· == '=') (List.replicate level '=' ++ '[' :: cs) = level := by
    rw [runLength_append, List.length_replicate]
    · intro c mem
      rw [List.eq_of_mem_replicate mem]
      rfl
    · intro c first
      obtain rfl := Option.some.inj first
      rfl
  rw [bracketLevel?, signs, List.drop_left' List.length_replicate]
  rfl

/-- A long string ends at its closing bracket. -/
theorem bracketPiece_bracketable (h : Bracketable level cs) (rest : List Char) :
    bracketPiece (List.replicate level '=' ++ '[' :: (cs ++ closing level ++ rest))
      = (.token .longString, level + 1 + cs.length + level + 2) := by
  have opened : (List.replicate level '=' ++ '[' :: (cs ++ closing level ++ rest)).drop (level + 1)
      = cs ++ closing level ++ rest := by
    rw [List.append_cons]
    exact List.drop_left' (by simp)
  rw [bracketPiece, bracketLevel?_replicate]
  dsimp only [longTail]
  rw [opened, closingEnd?_bracketable h]

/-! ## The notations of a string -/

/-- A token is a string with the contents between delimiters. -/
inductive Delimits (contents : List Char) : Token → List Char → Prop
  | quotes {q : Char} : isQuote q = true → Quotable q contents →
      Delimits contents .quoted (q :: (contents ++ [q]))
  | brackets {level : Nat} : Bracketable level contents →
      Delimits contents .longString (opening level ++ contents ++ closing level)

namespace Delimits

/-- Of a string all up to the closing delimiter is taken, whatever stands behind it. -/
theorem scan_eq (h : Delimits contents t written) :
    ∃ c cs, written = c :: cs ∧ isGap c = false ∧ isNameChar c = false
      ∧ ∀ rest, scan c (cs ++ rest) = (.token t, cs.length) := by
  cases h with
  | @quotes q quote quotable =>
    have solid : isGap q = false ∧ isNameChar q = false := by
      rcases isQuote_iff.mp quote with rfl | rfl <;> decide
    refine ⟨q, contents ++ [q], rfl, solid.1, solid.2, fun rest => ?_⟩
    rw [scan_quote quote, List.append_assoc, List.singleton_append,
      quotedTail_quotable quote quotable, Nat.zero_add, List.length_append]
    rfl
  | @brackets level bracketable =>
    refine ⟨'[', List.replicate level '=' ++ '[' :: (contents ++ closing level), ?_, by decide,
      by decide, fun rest => ?_⟩
    · simp [opening]
    · have piece := bracketPiece_bracketable bracketable rest
      rw [scan_bracket, List.append_assoc, List.cons_append, piece]
      simp only [List.length_append, List.length_replicate, List.length_cons, length_closing]
      congr 1
      omega

/-- The text of a string is cut into one piece. -/
theorem pieces_eq (h : Delimits contents t written) : pieces written = #[⟨.token t, written⟩] := by
  obtain ⟨c, cs, rfl, -, -, found⟩ := h.scan_eq
  have whole := found []
  rw [List.append_nil] at whole
  have piece := pieces_of_scan whole
  rwa [List.take_length] at piece

/-- The text of a string is one token, and there is nothing else in it. -/
theorem ofText_eq {text : String} (small : text.utf8ByteSize < offsetCount)
    (h : Delimits contents t text.toList) :
    Lexed.ofText text = ⟨#[⟨t, ⟨0, text.utf8ByteSize⟩⟩], #[], #[]⟩ := by
  have whole : Span.ofNumbers 0 text.utf8ByteSize = ⟨0, text.utf8ByteSize⟩ :=
    Span.ofNumbers_of_lt (by omega) small
  rw [utf8ByteSize_eq] at whole ⊢
  rw [Lexed.ofText, h.pieces_eq]
  simp [Lexed.place, Lexed.add, whole]

end Delimits

end Lexer

/-! ## Contents -/

open Lexer (isQuote opening closing Delimits)

theorem stringContents?_quotes {q : Char} (quote : isQuote q = true) (contents : List Char) :
    stringContents? (String.ofList (q :: (contents ++ [q]))) = some (String.ofList contents) := by
  have delimiter : q = '"' ∨ q = '\'' := Lexer.isQuote_iff.mp quote
  have noBracket : openingBracket? (q :: (contents ++ [q])) = none := by
    rcases delimiter with rfl | rfl <;> rfl
  rw [stringContents?, String.toList_ofList, noBracket]
  dsimp only
  rw [if_pos delimiter, quoteContents, List.getLast?_concat, if_pos rfl, List.dropLast_concat]

theorem stringContents?_brackets (level : Nat) (contents : List Char) :
    stringContents? (String.ofList (opening level ++ contents ++ closing level))
      = some (String.ofList (dropNewline contents)) := by
  have opened : openingBracket? (opening level ++ contents ++ closing level) = some level := by
    rw [opening, List.append_assoc, List.cons_append, List.append_assoc, openingBracket?]
    exact Lexer.bracketLevel?_replicate level _
  have width : (opening level ++ contents ++ closing level).length
      = 2 * (level + 2) + contents.length := by
    rw [List.length_append, List.length_append, Lexer.length_opening, Lexer.length_closing]
    omega
  have inner : ((opening level ++ contents ++ closing level).drop (level + 2)).take
      (2 * (level + 2) + contents.length - 2 * (level + 2)) = contents := by
    rw [List.append_assoc, List.drop_left' (Lexer.length_opening level), Nat.add_sub_cancel_left,
      List.take_left' rfl]
  rw [stringContents?, String.toList_ofList, opened]
  dsimp only
  rw [bracketContents?, width]
  rw [if_pos (Nat.le_add_right _ _), inner]
  rfl

/-- However it is written, a string that does not begin with a line end has its contents. -/
theorem Lexer.Delimits.stringContents?_eq {contents written : List Char} {t : Token}
    (h : Delimits contents t written) (inline : dropNewline contents = contents) :
    stringContents? (String.ofList written) = some (String.ofList contents) := by
  cases h with
  | quotes quote _ => exact stringContents?_quotes quote contents
  | brackets _ => rw [stringContents?_brackets, inline]

end LuaTyping
