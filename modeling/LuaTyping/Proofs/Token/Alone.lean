import LuaTyping.Proofs.Token.Apart

/-!
# Tokens by themselves

A token is found by looking ahead, and what stands behind it is part of what is looked at: `1e` in
front of a name is a number and the start of a name, and a long string goes on until a bracket of
its level closes it.  Still nothing behind the last character of a token has a say in it.  Cut off
there, a text begins with the same token, and with nothing else.

Every rule takes a number of characters, and gives the same answer if only so many are there.

* `scan_take`: a token by itself is the same token.
* `pieces_of_mem`: the text of a token has this token as its only piece.
-/

namespace LuaTyping.Lexer

variable {cs : List Char} {p : Char → Bool} {n : Nat}

/-! ## Numbers -/

theorem runLength_take (h : runLength p cs ≤ n) : runLength p (cs.take n) = runLength p cs := by
  rw [runLength, ← List.take_takeWhile, List.take_of_length_le h, runLength]

theorem signLength_take (pos : 0 < n) : signLength (cs.take n) = signLength cs := by
  cases cs with
  | nil => rw [List.take_nil]
  | cons s cs =>
    cases n with
    | zero => exact absurd pos (Nat.lt_irrefl 0)
    | succ n => rfl

theorem exponentLength_take {letter : Char → Bool} (h : exponentLength letter cs ≤ n) :
    exponentLength letter (cs.take n) = exponentLength letter cs := by
  cases cs with
  | nil => rw [List.take_nil]
  | cons c cs =>
    cases n with
    | zero => exact (Nat.le_zero.mp h).symm
    | succ n =>
      rw [exponentLength_cons] at h
      rw [List.take_succ_cons, exponentLength_cons, exponentLength_cons]
      by_cases mark : letter c = true
      · rw [if_pos mark] at h
        rw [if_pos mark, if_pos mark]
        cases n with
        | zero =>
          -- there is no room for a digit, so there was none
          split at h
          · next none => rw [if_pos none]; rfl
          · omega
        | succ n =>
          have sign : signLength cs ≤ 1 := by
            cases cs with
            | nil => exact Nat.zero_le 1
            | cons s cs => rw [signLength]; split <;> omega
          have digits : runLength Char.isDigit ((cs.take (n + 1)).drop (signLength cs))
              = runLength Char.isDigit (cs.drop (signLength cs)) := by
            rw [List.drop_take]
            refine runLength_take ?_
            split at h <;> omega
          rw [signLength_take (Nat.succ_pos n), digits]
      · rw [if_neg mark, if_neg mark]

theorem fractionLength_take {digit : Char → Bool} (h : fractionLength digit cs ≤ n) :
    fractionLength digit (cs.take n) = fractionLength digit cs := by
  cases cs with
  | nil => rw [List.take_nil]
  | cons c cs =>
    cases n with
    | zero => exact (Nat.le_zero.mp h).symm
    | succ n =>
      rw [List.take_succ_cons]
      by_cases point : c = '.'
      · subst point
        rw [fractionLength] at h
        rw [fractionLength, fractionLength, runLength_take (by omega)]
      · simp [fractionLength, point]

theorem numeralLength_take {digit letter : Char → Bool} (h : numeralLength digit letter cs ≤ n) :
    numeralLength digit letter (cs.take n) = numeralLength digit letter cs := by
  rw [numeralLength] at h
  rw [numeralLength, numeralLength, runLength_take (by omega), List.drop_take,
    fractionLength_take (by omega), List.drop_take, exponentLength_take (by omega)]

theorem numberTail_take {c : Char} (h : numberTail c cs ≤ n) :
    numberTail c (cs.take n) = numberTail c cs := by
  cases cs with
  | nil => rw [List.take_nil]
  | cons x cs =>
    cases n with
    | zero => exact (Nat.le_zero.mp h).symm
    | succ n =>
      rw [numberTail] at h
      rw [List.take_succ_cons, numberTail, numberTail]
      split at h
      · next hex => rw [if_pos hex, if_pos hex, numeralLength_take (by omega)]
      · next decimal =>
        rw [if_neg decimal, if_neg decimal, ← List.take_succ_cons, numeralLength_take h]

/-! ## Strings -/

theorem le_quotedTail (q : Char) (cs : List Char) (m : Nat) : m ≤ (quotedTail q cs m).2 := by
  fun_induction quotedTail q cs m with
  | case3 | case6 => omega
  | _ => simp

theorem quotedTail_take {q : Char} {m : Nat} (h : quotedTail q cs m = (true, n)) :
    quotedTail q (cs.take (n - m)) m = (true, n) := by
  fun_induction quotedTail q cs m with
  | case1 | case2 => exact absurd h (by simp)
  | case3 d cs m ih =>
    have bound := le_quotedTail q cs (m + 2)
    rw [h] at bound
    have length : n - m = n - (m + 2) + 2 := by
      dsimp only at bound
      omega
    rw [length, List.take_succ_cons, List.take_succ_cons, quotedTail, ih h]
  | case4 cs m notLast notInside =>
    obtain rfl := (Prod.mk.inj h).2
    rw [Nat.add_sub_cancel_left, List.take_succ_cons,
      quotedTail_cons (ne_backslash notLast notInside), if_pos rfl]
  | case5 => exact absurd h (by simp)
  | case6 c cs m notLast notInside other line ih =>
    have bound := le_quotedTail q cs (m + 1)
    rw [h] at bound
    have length : n - m = n - (m + 1) + 1 := by
      dsimp only at bound
      omega
    rw [length, List.take_succ_cons, quotedTail_cons (ne_backslash notLast notInside),
      if_neg other, if_neg line, ih h]

/-! ## Long brackets -/

theorem length_closingTail (level : Nat) : (closingTail level).length = level + 1 := by
  rw [closingTail, List.length_append, List.length_replicate, List.length_singleton]

theorem lt_closingEnd? {level m : Nat} (h : closingEnd? level cs m = some n) : m < n := by
  fun_induction closingEnd? level cs m with
  | case1 => exact absurd h (by simp)
  | case2 c cs m found =>
    obtain rfl := Option.some.inj h
    omega
  | case3 c cs m other ih =>
    have := ih h
    omega

theorem closingEnd?_take {level m : Nat} (h : closingEnd? level cs m = some n) :
    closingEnd? level (cs.take (n - m)) m = some n := by
  fun_induction closingEnd? level cs m with
  | case1 => exact absurd h (by simp)
  | case2 c cs m found =>
    obtain rfl := Option.some.inj h
    have length : m + level + 2 - m = level + 1 + 1 := by omega
    rw [Bool.and_eq_true] at found
    have closes : (closingTail level).isPrefixOf (cs.take (level + 1)) = true := by
      rw [List.isPrefixOf_iff_prefix, List.prefix_take_iff]
      exact ⟨List.isPrefixOf_iff_prefix.mp found.2, (length_closingTail level).le⟩
    rw [length, List.take_succ_cons, closingEnd?, found.1, closes]
    rfl
  | case3 c cs m other ih =>
    have bound := lt_closingEnd? h
    have length : n - m = n - (m + 1) + 1 := by omega
    have open_ : ¬(c = ']' && (closingTail level).isPrefixOf (cs.take (n - (m + 1)))) = true := by
      intro closed
      rw [Bool.and_eq_true] at closed other
      refine other ⟨closed.1, List.isPrefixOf_iff_prefix.mpr ?_⟩
      exact (List.isPrefixOf_iff_prefix.mp closed.2).trans (List.take_prefix _ _)
    rw [length, List.take_succ_cons, closingEnd?, if_neg open_, ih h]

theorem bracketLevel?_take {level : Nat} (h : bracketLevel? cs = some level) (inside : level < n) :
    bracketLevel? (cs.take n) = some level := by
  rw [bracketLevel?] at h
  split at h
  · next rest found =>
    obtain rfl := Option.some.inj h
    have length : n - runLength (· == '=') cs = n - runLength (· == '=') cs - 1 + 1 := by omega
    rw [bracketLevel?, runLength_take (Nat.le_of_lt inside), List.drop_take, found, length,
      List.take_succ_cons]
    rfl
  · exact absurd h (by simp)

theorem bracketPiece_take {t : Token} (h : bracketPiece cs = (.token t, n)) :
    bracketPiece (cs.take n) = (.token t, n) := by
  rw [bracketPiece] at h
  cases opened : bracketLevel? cs with
  | none =>
    rw [opened] at h
    dsimp only at h
    split at h
    · obtain ⟨kind, rfl⟩ := Prod.mk.inj h
      rw [← kind]
      rfl
    · exact absurd (Prod.mk.inj h).1 (by simp)
  | some level =>
    rw [opened] at h
    dsimp only [longTail] at h
    cases closed : closingEnd? level (cs.drop (level + 1)) (level + 1) with
    | none =>
      rw [closed] at h
      exact absurd (Prod.mk.inj h).1 (by simp)
    | some m =>
      rw [closed] at h
      obtain ⟨kind, rfl⟩ := Prod.mk.inj h
      have bound := lt_closingEnd? closed
      rw [bracketPiece, bracketLevel?_take opened (by omega)]
      dsimp only [longTail]
      rw [List.drop_take, closingEnd?_take closed, kind]

/-! ## Symbols -/

theorem dotPiece_take {k : PieceKind} (h : dotPiece cs = (k, n)) :
    dotPiece (cs.take n) = (k, n) := by
  by_cases single : cs.head? = some '.'
  · obtain ⟨cs, rfl⟩ := List.head?_eq_some_iff.mp single
    cases cs with
    | nil =>
      obtain ⟨rfl, rfl⟩ := Prod.mk.inj h
      rfl
    | cons d cs =>
      by_cases third : d = '.'
      · subst third
        obtain ⟨rfl, rfl⟩ := Prod.mk.inj h
        rfl
      · have pair : dotPiece ('.' :: d :: cs) = (.token .concat, 1) := by simp [dotPiece, third]
        obtain ⟨rfl, rfl⟩ := Prod.mk.inj (pair.symm.trans h)
        rfl
  · have single' : (cs.take n).head? ≠ some '.' := by
      intro head
      rw [List.head?_take] at head
      split at head
      · exact absurd head (by simp)
      · exact single head
    rw [dotPiece_of_head single] at h
    rw [dotPiece_of_head single']
    split at h
    · next none =>
      obtain ⟨rfl, rfl⟩ := Prod.mk.inj h
      rfl
    · next some =>
      obtain ⟨kind, length⟩ := Prod.mk.inj h
      rw [runLength_take (by omega), if_neg some, List.drop_take, exponentLength_take (by omega),
        kind, length]

theorem orLonger_take {k : PieceKind} {next : Char} {longer shorter : Token}
    (h : orLonger next longer shorter cs = (k, n)) :
    orLonger next longer shorter (cs.take n) = (k, n) := by
  cases cs with
  | nil => rwa [List.take_nil]
  | cons c cs =>
    rw [orLonger] at h
    split at h
    · next same =>
      obtain ⟨rfl, rfl⟩ := Prod.mk.inj h
      rw [List.take_succ_cons, orLonger, if_pos same]
    · obtain ⟨rfl, rfl⟩ := Prod.mk.inj h
      rfl

theorem oneOf_take {k : PieceKind} {shorter : Token} {pairs : List (Char × Token)}
    (h : oneOf shorter pairs cs = (k, n)) : oneOf shorter pairs (cs.take n) = (k, n) := by
  cases cs with
  | nil => rwa [List.take_nil]
  | cons c cs =>
    rw [oneOf] at h
    split at h
    · next found =>
      obtain ⟨rfl, rfl⟩ := Prod.mk.inj h
      rw [List.take_succ_cons, oneOf, found]
    · obtain ⟨rfl, rfl⟩ := Prod.mk.inj h
      rfl

theorem symbolPiece_take {c : Char} {t : Token} (h : symbolPiece c cs = (.token t, n)) :
    symbolPiece c (cs.take n) = (.token t, n) := by
  fun_cases symbolPiece c cs with
  | case1 dashes =>
    rw [symbolPiece, if_pos dashes] at h
    exact absurd (congrArg Prod.fst h) (commentPiece_ne_token cs t)
  | case2 single =>
    rw [symbolPiece, if_neg single] at h
    obtain ⟨kind, rfl⟩ := Prod.mk.inj h
    rw [← kind]
    rfl
  | case3 => exact bracketPiece_take h
  | case4 => exact dotPiece_take h
  | case5 | case6 | case7 => exact orLonger_take h
  | case8 | case9 | case10 => exact oneOf_take h
  | case11 | case12 =>
    -- the character decides alone
    have alone : symbolPiece c (cs.take n) = symbolPiece c cs := by
      rw [symbolPiece, symbolPiece] <;> assumption
    rw [alone, h]

/-! ## Pieces -/

/-- A token by itself is the same token. -/
theorem scan_take {c : Char} {t : Token} (h : scan c cs = (.token t, n)) :
    scan c (cs.take n) = (.token t, n) := by
  rw [scan] at h ⊢
  by_cases blank : isGap c = true
  · rw [if_pos blank] at h
    exact absurd (Prod.mk.inj h).1 (by simp)
  rw [if_neg blank] at h ⊢
  by_cases name : isNameStart c = true
  · rw [if_pos name] at h ⊢
    obtain ⟨kind, rfl⟩ := Prod.mk.inj h
    dsimp only
    rw [runLength_take (Nat.le_refl _), List.take_take, Nat.min_self, kind]
  rw [if_neg name] at h ⊢
  by_cases number : c.isDigit = true
  · rw [if_pos number] at h ⊢
    obtain ⟨kind, rfl⟩ := Prod.mk.inj h
    rw [numberTail_take (Nat.le_refl _), kind]
  rw [if_neg number] at h ⊢
  by_cases quote : (decide (c = '"') || decide (c = '\'')) = true
  · rw [if_pos quote] at h ⊢
    split at h
    · next m found =>
      obtain ⟨kind, rfl⟩ := Prod.mk.inj h
      have closed := quotedTail_take found
      rw [Nat.sub_zero] at closed
      rw [closed, kind]
    · exact absurd (Prod.mk.inj h).1 (by simp)
  · rw [if_neg quote] at h ⊢
    exact symbolPiece_take h

theorem pieces_of_scan {c : Char} {t : Token} (h : scan c cs = (.token t, n)) :
    pieces (c :: cs.take n) = #[⟨.token t, c :: cs.take n⟩] := by
  have plain : ∀ tail, c :: cs.take n ≠ '#' :: '!' :: tail := by
    intro tail script
    obtain ⟨rfl, behind⟩ := List.cons.inj script
    -- a `#` that is a token takes nothing behind it
    obtain ⟨-, rfl⟩ := Prod.mk.inj (h.symm.trans rfl : (_, n) = (PieceKind.token .hash, 0))
    exact absurd behind (by simp)
  rw [pieces_eq plain, ← Array.toList_inj, toList_piecesFrom_cons, scan_take h]
  dsimp only
  rw [List.take_take, Nat.min_self, List.drop_take, Nat.sub_self, List.take_zero, piecesFrom]

theorem pieces_of_mem_piecesFrom {t : Token} {ds : List Char} (cs : List Char)
    (mem : ⟨.token t, ds⟩ ∈ (piecesFrom cs #[]).toList) : pieces ds = #[⟨.token t, ds⟩] := by
  match cs with
  | [] =>
    rw [piecesFrom] at mem
    exact absurd mem List.not_mem_nil
  | c :: cs =>
    rw [toList_piecesFrom_cons] at mem
    rcases List.mem_cons.mp mem with here | behind
    · obtain ⟨kind, rfl⟩ := Piece.mk.inj here
      exact pieces_of_scan (Prod.ext kind.symm rfl)
    · exact pieces_of_mem_piecesFrom _ behind
termination_by cs.length
decreasing_by simp only [List.length_drop, List.length_cons]; omega

/-- The text of a token is this token and nothing else. -/
theorem pieces_of_mem {t : Token} {ds : List Char} (mem : ⟨.token t, ds⟩ ∈ (pieces cs).toList) :
    pieces ds = #[⟨.token t, ds⟩] := by
  revert mem
  fun_cases pieces cs with
  | case1 rest =>
    intro mem
    rw [toList_piecesFrom] at mem
    rcases List.mem_append.mp mem with mem | mem
    · exact absurd (Piece.mk.inj (List.mem_singleton.mp mem)).1 (by simp)
    · exact pieces_of_mem_piecesFrom _ mem
  | case2 => exact pieces_of_mem_piecesFrom cs

end LuaTyping.Lexer
