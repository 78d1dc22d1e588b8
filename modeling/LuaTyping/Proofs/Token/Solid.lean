import LuaTyping.Text.Blank
import LuaTyping.Proofs.Token.Covers

/-!
# Tokens are no blanks

The blanks between tokens are some of the characters of the property White_Space, and the others
start no token either.  So every token begins with a character that is no blank.

* `Lexer.isBlank_of_scan`: what starts a token is no blank.
* `Lexed.exists_solid`: the first character of a token of a text.
-/

namespace LuaTyping

/-- No visible character of ASCII is blank. -/
theorem isBlank_of_visible {c : Char} (lower : 0x21 ≤ c.toNat) (upper : c.toNat ≤ 0x7e) :
    isBlank c = false := by
  simp only [isBlank, blankRanges, List.any_cons, List.any_nil, Bool.or_false,
    Bool.or_eq_false_iff, Bool.and_eq_false_iff, decide_eq_false_iff_not]
  omega

namespace Lexer

variable {c : Char} {cs : List Char} {t : Token}

theorem isBlank_of_isNameStart (start : isNameStart c = true) : isBlank c = false := by
  rw [isNameStart, Bool.or_eq_true, beq_iff_eq] at start
  rcases start with letter | rfl
  · rcases Bool.or_eq_true_iff.mp letter with upper | lower
    · obtain ⟨first, last⟩ := of_decide_eq_true upper
      exact isBlank_of_visible (Nat.le_trans (by decide) first) (Nat.le_trans last (by decide))
    · obtain ⟨first, last⟩ := Bool.and_eq_true_iff.mp lower
      exact isBlank_of_visible (Nat.le_trans (by decide) (of_decide_eq_true first))
        (Nat.le_trans (of_decide_eq_true last) (by decide))
  · rfl

theorem isBlank_of_isDigit (digit : c.isDigit = true) : isBlank c = false := by
  obtain ⟨first, last⟩ := Bool.and_eq_true_iff.mp digit
  exact isBlank_of_visible (Nat.le_trans (by decide) (of_decide_eq_true first))
    (Nat.le_trans (of_decide_eq_true last) (by decide))

theorem isBlank_of_single? (h : single? c = some t) : isBlank c = false := by
  unfold single? at h
  split at h
  all_goals first
    | rfl
    | exact absurd h (by simp)

theorem isBlank_of_symbolPiece (h : (symbolPiece c cs).1 = .token t) : isBlank c = false := by
  unfold symbolPiece at h
  split at h
  case h_10 =>
    split at h
    · next found => exact isBlank_of_single? found
    · exact absurd h (by simp)
  all_goals rfl

/-- What starts a token is no blank. -/
theorem isBlank_of_scan (h : (scan c cs).1 = .token t) : isBlank c = false := by
  fun_cases scan c cs with
  | case1 gap =>
    rw [scan, if_pos gap] at h
    exact absurd h (by simp)
  | case2 _ start => exact isBlank_of_isNameStart start
  | case3 _ _ digit => exact isBlank_of_isDigit digit
  | case4 _ _ _ quote | case5 _ _ _ quote =>
    rw [Bool.or_eq_true, decide_eq_true_eq, decide_eq_true_eq] at quote
    rcases quote with rfl | rfl <;> rfl
  | case6 gap start digit quote =>
    rw [scan, if_neg gap, if_neg start, if_neg digit, if_neg quote] at h
    exact isBlank_of_symbolPiece h

/-- The piece of a token begins with no blank. -/
theorem solid_of_mem_piecesFrom (cs : List Char) :
    ∀ p ∈ (piecesFrom cs #[]).toList, ∀ t, p.kind = .token t →
      ∃ c tail, p.text = c :: tail ∧ isBlank c = false := by
  match cs with
  | [] =>
    intro p mem
    rw [piecesFrom] at mem
    exact absurd mem List.not_mem_nil
  | c :: cs =>
    have rest := solid_of_mem_piecesFrom (cs.drop (scan c cs).2)
    intro p mem t token
    rw [toList_piecesFrom_cons] at mem
    rcases List.mem_cons.mp mem with rfl | mem
    · exact ⟨c, _, rfl, isBlank_of_scan token⟩
    · exact rest p mem t token
termination_by cs.length
decreasing_by simp only [List.length_drop, List.length_cons]; omega

end Lexer

/-- Where a token of a text starts stands a character that is no blank, and the token reaches
beyond it. -/
theorem Lexed.exists_solid {text : String} (small : text.utf8ByteSize < offsetCount) {x : Lexeme}
    (mem : x ∈ (ofText text).lexemes.toList) :
    ∃ before c after, text.toList = before ++ c :: after ∧ byteLength before = x.span.start
      ∧ byteLength (before ++ [c]) ≤ x.span.stop ∧ isBlank c = false := by
  rw [lexemes_ofText] at mem
  obtain ⟨y, place, found⟩ := List.mem_filterMap.mp mem
  obtain ⟨t, token⟩ : ∃ t, y.1 = .token t := by
    rw [lexeme?] at found
    split at found
    · next t token => exact ⟨t, token⟩
    · exact absurd found (by simp)
  have span : y.2 = x.span := lexeme?_eq_some found
  obtain ⟨rest, whole, behind, -⟩ := exists_placed_rest text.toList
  have small' : byteLength (shebang text.toList)
      + byteLength ((Lexer.piecesFrom rest #[]).toList.flatMap Piece.text) < offsetCount := by
    rwa [Lexer.flatMap_piecesFrom, ← byteLength_append, whole, ← utf8ByteSize_eq]
  obtain ⟨before, p, after, split, rfl⟩ :=
    exists_place_of_mem_placed small' (behind y place (by rw [token]; rfl))
  obtain ⟨c, tail, piece, solid⟩ := Lexer.solid_of_mem_piecesFrom rest p (by simp [split]) t token
  have around : text.toList = (shebang text.toList ++ before.flatMap Piece.text)
      ++ c :: (tail ++ after.flatMap Piece.text) := by
    conv_lhs => rw [← whole, ← Lexer.flatMap_piecesFrom rest, split]
    simp [piece]
  refine ⟨_, c, _, around, ?_, ?_, solid⟩
  · rw [← span, byteLength_append]
  · rw [← span, piece, byteLength_append, byteLength_append, ← List.singleton_append (l := tail),
      byteLength_append]
    dsimp only
    omega

end LuaTyping
