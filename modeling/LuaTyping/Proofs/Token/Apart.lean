import LuaTyping.Proofs.Token.Placed

/-!
# Tokens in front of a blank

Whether a token ends can depend on the character behind it: `=` in front of `=` is half a token,
and a digit goes on with a digit.  No token goes on with a blank, and a token looks no further than
one that closes it.  So a text that is a token by itself is the same token in front of a blank,
whatever stands behind the blank.

Every rule counts characters of one class, looks at the next character or searches for a closing
mark; each of these has its lemma about a blank that is put behind the text.

* `scan_le`: a piece takes no more characters than there are.
* `scan_append_gap`: a token is found in front of a blank as it is found at the end of the text.
* `toList_piecesFrom_token`: the pieces of a token, a blank and the rest.
-/

namespace LuaTyping.Lexer

variable {cs rest : List Char} {p : Char → Bool} {s : Char}

/-! ## Characters of one class -/

/-- The quotes around a short string. -/
def isQuote (c : Char) : Bool := c == '"' || c == '\''

theorem isQuote_iff {c : Char} : isQuote c = true ↔ c = '"' ∨ c = '\'' := by
  simp [isQuote]

theorem runLength_le (p : Char → Bool) (cs : List Char) : runLength p cs ≤ cs.length :=
  (List.takeWhile_sublist p).length_le

theorem drop_runLength (p : Char → Bool) (cs : List Char) :
    cs.drop (runLength p cs) = cs.dropWhile p := by
  have rest : (cs.takeWhile p ++ cs.dropWhile p).drop (runLength p cs) = cs.dropWhile p :=
    List.drop_left
  rwa [List.takeWhile_append_dropWhile] at rest

theorem runLength_append_gap (other : p s = false) :
    runLength p (cs ++ s :: rest) = runLength p cs := by
  rw [runLength, runLength]
  congr 1
  induction cs with
  | nil => simp [other]
  | cons c cs ih =>
    rw [List.cons_append, List.takeWhile_cons, List.takeWhile_cons, ih]

/-! ## Numbers -/

/-- The length of an optional sign. -/
def signLength : List Char → Nat
  | [] => 0
  | s :: _ => if s == '+' || s == '-' then 1 else 0

theorem exponentLength_cons (letter : Char → Bool) (c : Char) (cs : List Char) :
    exponentLength letter (c :: cs) =
      if letter c then
        if runLength Char.isDigit (cs.drop (signLength cs)) = 0 then 0
        else 1 + signLength cs + runLength Char.isDigit (cs.drop (signLength cs))
      else 0 := by
  cases cs <;> rfl

theorem signLength_le (cs : List Char) : signLength cs ≤ cs.length := by
  cases cs with
  | nil => exact Nat.le_refl 0
  | cons s cs =>
    rw [signLength, List.length_cons]
    split <;> omega

theorem signLength_append_gap (gap : isGap s = true) :
    signLength (cs ++ s :: rest) = signLength cs := by
  cases cs with
  | nil =>
    have noSign := not_of_isGap (fun x => x == '+' || x == '-') gap (by decide)
    simp only [List.nil_append, signLength, noSign, Bool.false_eq_true, if_false]
  | cons x cs => rfl

theorem exponentLength_le (letter : Char → Bool) (cs : List Char) :
    exponentLength letter cs ≤ cs.length := by
  cases cs with
  | nil => exact Nat.le_refl 0
  | cons c cs =>
    have sign := signLength_le cs
    have digits := runLength_le Char.isDigit (cs.drop (signLength cs))
    rw [List.length_drop] at digits
    rw [exponentLength_cons, List.length_cons]
    repeat' split
    all_goals omega

theorem exponentLength_append_gap {letter : Char → Bool} (gap : isGap s = true)
    (other : letter s = false) :
    exponentLength letter (cs ++ s :: rest) = exponentLength letter cs := by
  cases cs with
  | nil => simp [exponentLength, other]
  | cons c cs =>
    rw [List.cons_append, exponentLength_cons, exponentLength_cons, signLength_append_gap gap,
      List.drop_append_of_le_length (signLength_le cs),
      runLength_append_gap (not_of_isGap Char.isDigit gap (by decide))]

theorem fractionLength_le (digit : Char → Bool) (cs : List Char) :
    fractionLength digit cs ≤ cs.length := by
  fun_cases fractionLength digit cs with
  | case1 cs =>
    have := runLength_le digit cs
    rw [List.length_cons]
    omega
  | case2 => exact Nat.zero_le _

theorem fractionLength_append_gap {digit : Char → Bool} (gap : isGap s = true)
    (other : digit s = false) :
    fractionLength digit (cs ++ s :: rest) = fractionLength digit cs := by
  cases cs with
  | nil => simp [fractionLength, ne_of_isGap gap (d := '.') rfl]
  | cons c cs =>
    by_cases point : c = '.'
    · subst point
      rw [List.cons_append, fractionLength, fractionLength, runLength_append_gap other]
    · simp [fractionLength, point]

theorem numeralLength_le (digit letter : Char → Bool) (cs : List Char) :
    numeralLength digit letter cs ≤ cs.length := by
  have whole := runLength_le digit cs
  have fraction := fractionLength_le digit (cs.drop (runLength digit cs))
  have exponent := exponentLength_le letter
    (cs.drop (runLength digit cs + fractionLength digit (cs.drop (runLength digit cs))))
  rw [List.length_drop] at fraction exponent
  rw [numeralLength]
  omega

theorem numeralLength_append_gap {digit letter : Char → Bool} (gap : isGap s = true)
    (noDigit : digit s = false) (noLetter : letter s = false) :
    numeralLength digit letter (cs ++ s :: rest) = numeralLength digit letter cs := by
  have whole := runLength_le digit cs
  have fraction := fractionLength_le digit (cs.drop (runLength digit cs))
  rw [List.length_drop] at fraction
  rw [numeralLength, numeralLength, runLength_append_gap noDigit]
  rw [List.drop_append_of_le_length whole, fractionLength_append_gap gap noDigit,
    List.drop_append_of_le_length (by omega), exponentLength_append_gap gap noLetter]

theorem numberTail_le (c : Char) (cs : List Char) : numberTail c cs ≤ cs.length := by
  cases cs with
  | nil => exact Nat.le_refl 0
  | cons x cs =>
    have hex := numeralLength_le isHexDigit isHexMark cs
    have decimal := numeralLength_le Char.isDigit isDecimalMark (x :: cs)
    rw [numberTail]
    split
    · rw [List.length_cons]
      omega
    · exact decimal

theorem numberTail_append_gap (gap : isGap s = true) (c : Char) :
    numberTail c (cs ++ s :: rest) = numberTail c cs := by
  have decimal (ds : List Char) : numeralLength Char.isDigit isDecimalMark (ds ++ s :: rest)
      = numeralLength Char.isDigit isDecimalMark ds :=
    numeralLength_append_gap gap (not_of_isGap _ gap (by decide)) (not_of_isGap _ gap (by decide))
  cases cs with
  | nil =>
    have notMark := not_of_isGap (fun x => x == 'x' || x == 'X') gap (by decide)
    have notHex : (c == '0' && (s == 'x' || s == 'X')) = false := by rw [notMark, Bool.and_false]
    have none := decimal []
    rw [List.nil_append] at none ⊢
    rw [numberTail, notHex, none]
    rfl
  | cons x cs =>
    have hex : numeralLength isHexDigit isHexMark (cs ++ s :: rest)
        = numeralLength isHexDigit isHexMark cs :=
      numeralLength_append_gap gap (not_of_isGap _ gap (by decide))
        (not_of_isGap _ gap (by decide))
    have all := decimal (x :: cs)
    rw [List.cons_append] at all ⊢
    rw [numberTail, numberTail, hex, all]

/-! ## Strings and comments -/

theorem quotedTail_le (q : Char) (cs : List Char) (n : Nat) :
    (quotedTail q cs n).2 ≤ n + cs.length := by
  fun_induction quotedTail q cs n with
  | case3 n d cs ih =>
    rw [List.length_cons, List.length_cons]
    omega
  | case6 n c cs escaped other line ih =>
    rw [List.length_cons]
    omega
  | _ => simp

theorem quotedTail_cons {q c : Char} (unescaped : c ≠ '\\') (cs : List Char) (n : Nat) :
    quotedTail q (c :: cs) n
      = if c = q then (true, n + 1) else if c = '\n' then (false, n)
        else quotedTail q cs (n + 1) := by
  cases cs <;> simp [quotedTail, unescaped]

/-- A character that is neither a last nor an inner backslash is none. -/
theorem ne_backslash {c : Char} (notLast : c = '\\' → cs = [] → False)
    (notInside : ∀ d ds, c = '\\' → cs = d :: ds → False) : c ≠ '\\' := by
  intro escape
  cases cs with
  | nil => exact notLast escape rfl
  | cons d ds => exact notInside d ds escape rfl

/-- A closed string is closed, whatever stands behind it. -/
theorem quotedTail_append {q : Char} {cs : List Char} {n : Nat}
    (closed : (quotedTail q cs n).1 = true) (more : List Char) :
    quotedTail q (cs ++ more) n = quotedTail q cs n := by
  fun_induction quotedTail q cs n with
  | case1 | case2 => exact absurd closed Bool.false_ne_true
  | case3 n d cs ih =>
    rw [List.cons_append, List.cons_append, quotedTail]
    exact ih closed
  | case4 cs n notLast notInside =>
    rw [List.cons_append, quotedTail_cons (ne_backslash notLast notInside), if_pos rfl]
  | case5 => exact absurd closed Bool.false_ne_true
  | case6 c cs n notLast notInside other line ih =>
    rw [List.cons_append, quotedTail_cons (ne_backslash notLast notInside), if_neg other,
      if_neg line]
    exact ih closed

theorem isPrefixOf_append_of_not_mem {mark : List Char} (other : s ∉ mark) (cs rest : List Char) :
    mark.isPrefixOf (cs ++ s :: rest) = mark.isPrefixOf cs := by
  induction mark generalizing cs with
  | nil => simp
  | cons m mark ih =>
    rw [List.mem_cons, not_or] at other
    cases cs with
    | nil =>
      have differs : (m == s) = false := beq_eq_false_iff_ne.mpr (Ne.symm other.1)
      rw [List.nil_append, List.isPrefixOf_cons_cons, differs, Bool.false_and]
      rfl
    | cons c cs =>
      rw [List.cons_append, List.isPrefixOf_cons_cons, List.isPrefixOf_cons_cons, ih other.2]

theorem closingEnd?_le {level n k : Nat} (h : closingEnd? level cs n = some k) :
    k ≤ n + cs.length := by
  fun_induction closingEnd? level cs n with
  | case1 => exact absurd h (by simp)
  | case2 n c cs found =>
    obtain rfl := Option.some.inj h
    rw [Bool.and_eq_true] at found
    have inside := (List.isPrefixOf_iff_prefix.mp found.2).length_le
    simp only [closingTail, List.length_append, List.length_replicate, List.length_singleton]
      at inside
    rw [List.length_cons]
    omega
  | case3 n c cs other ih =>
    have := ih h
    rw [List.length_cons]
    omega

theorem not_mem_closingTail (gap : isGap s = true) (level : Nat) : s ∉ closingTail level := by
  simp [closingTail, ne_of_isGap gap (d := '=') rfl, ne_of_isGap gap (d := ']') rfl]

/-- A closing bracket is found, whatever stands behind it. -/
theorem closingEnd?_append_gap {level n k : Nat} (gap : isGap s = true)
    (h : closingEnd? level cs n = some k) : closingEnd? level (cs ++ s :: rest) n = some k := by
  have other := not_mem_closingTail gap level
  fun_induction closingEnd? level cs n with
  | case1 => exact absurd h (by simp)
  | case2 n c cs found =>
    rw [List.cons_append, closingEnd?, isPrefixOf_append_of_not_mem other, if_pos found]
    exact h
  | case3 n c cs notFound ih =>
    rw [List.cons_append, closingEnd?, isPrefixOf_append_of_not_mem other, if_neg notFound]
    exact ih h

theorem bracketLevel?_append_gap (gap : isGap s = true) :
    bracketLevel? (cs ++ s :: rest) = bracketLevel? cs := by
  have notSign := not_of_isGap (· == '=') gap (by decide)
  have notBracket : s ≠ '[' := ne_of_isGap gap rfl
  have inside := runLength_le (· == '=') cs
  rw [bracketLevel?, bracketLevel?, runLength_append_gap (p := (· == '=')) notSign,
    List.drop_append_of_le_length inside]
  cases cs.drop (runLength (· == '=') cs) with
  | nil => simp [notBracket]
  | cons c cs => by_cases second : c = '[' <;> simp [second]

theorem bracketLevel?_lt {level : Nat} (h : bracketLevel? cs = some level) :
    level < cs.length := by
  rw [bracketLevel?] at h
  split at h
  · next rest found =>
    obtain rfl := Option.some.inj h
    have length := congrArg List.length found
    rw [List.length_drop, List.length_cons] at length
    omega
  · exact absurd h (by simp)

theorem longTail_le (kind : PieceKind) (level opened : Nat) (inside : opened ≤ cs.length) :
    (longTail kind level opened cs).2 ≤ cs.length := by
  rw [longTail]
  split
  · next n found =>
    have := closingEnd?_le found
    rw [List.length_drop] at this
    dsimp only
    omega
  · exact Nat.le_refl _

theorem bracketPiece_le (cs : List Char) : (bracketPiece cs).2 ≤ cs.length := by
  have signs := runLength_le (· == '=') cs
  rw [bracketPiece]
  split
  · next level found => exact longTail_le _ _ _ (bracketLevel?_lt found)
  · dsimp only
    split
    · exact Nat.zero_le _
    · exact signs

theorem bracketPiece_append_gap {t : Token} (gap : isGap s = true)
    (h : (bracketPiece cs).1 = .token t) : bracketPiece (cs ++ s :: rest) = bracketPiece cs := by
  have notSign := not_of_isGap (· == '=') gap (by decide)
  rw [bracketPiece, bracketLevel?_append_gap gap, runLength_append_gap (p := (· == '=')) notSign]
  rw [bracketPiece] at h ⊢
  cases opened : bracketLevel? cs with
  | none => rfl
  | some level =>
    rw [opened] at h
    have inside := bracketLevel?_lt opened
    dsimp only [longTail] at h ⊢
    rw [List.drop_append_of_le_length inside]
    cases closed : closingEnd? level (cs.drop (level + 1)) (level + 1) with
    | none =>
      rw [closed] at h
      exact absurd h (by simp)
    | some n => rw [closingEnd?_append_gap gap closed]

/-! ## Symbols -/

/-- A point in front of no other point. -/
theorem dotPiece_of_head (single : cs.head? ≠ some '.') :
    dotPiece cs =
      if runLength Char.isDigit cs = 0 then (.token .dot, 0)
      else (.token .number, runLength Char.isDigit cs
        + exponentLength isDecimalMark (cs.drop (runLength Char.isDigit cs))) := by
  cases cs with
  | nil => rfl
  | cons c cs =>
    have other : c ≠ '.' := by simpa using single
    simp [dotPiece, other]

theorem dotPiece_le (cs : List Char) : (dotPiece cs).2 ≤ cs.length := by
  by_cases single : cs.head? = some '.'
  · obtain ⟨cs, rfl⟩ := List.head?_eq_some_iff.mp single
    cases cs with
    | nil => exact Nat.le_refl 1
    | cons d cs => by_cases third : d = '.' <;> simp [dotPiece, third]
  · have digits := runLength_le Char.isDigit cs
    have exponent := exponentLength_le isDecimalMark (cs.drop (runLength Char.isDigit cs))
    rw [List.length_drop] at exponent
    rw [dotPiece_of_head single]
    split
    · exact Nat.zero_le _
    · dsimp only
      omega

theorem dotPiece_append_gap (gap : isGap s = true) : dotPiece (cs ++ s :: rest) = dotPiece cs := by
  have notDot : s ≠ '.' := ne_of_isGap gap rfl
  have notDigit : s.isDigit = false := not_of_isGap Char.isDigit gap (by decide)
  by_cases single : cs.head? = some '.'
  · obtain ⟨cs, rfl⟩ := List.head?_eq_some_iff.mp single
    cases cs with
    | nil => simp [dotPiece, notDot]
    | cons d cs => by_cases third : d = '.' <;> simp [dotPiece, third]
  · have single' : (cs ++ s :: rest).head? ≠ some '.' := by
      cases cs with
      | nil => simpa using notDot
      | cons c cs => exact single
    rw [dotPiece_of_head single, dotPiece_of_head single', runLength_append_gap notDigit,
      List.drop_append_of_le_length (runLength_le Char.isDigit cs),
      exponentLength_append_gap gap (not_of_isGap isDecimalMark gap (by decide))]

theorem orLonger_le (next : Char) (longer shorter : Token) (cs : List Char) :
    (orLonger next longer shorter cs).2 ≤ cs.length := by
  cases cs with
  | nil => exact Nat.le_refl 0
  | cons c cs =>
    rw [orLonger]
    split <;> simp

theorem orLonger_append_gap {next : Char} (gap : isGap s = true) (other : isGap next = false)
    (longer shorter : Token) :
    orLonger next longer shorter (cs ++ s :: rest) = orLonger next longer shorter cs := by
  cases cs with
  | nil => exact if_neg (ne_of_isGap gap other)
  | cons c cs => rfl

theorem oneOf_le (shorter : Token) (pairs : List (Char × Token)) (cs : List Char) :
    (oneOf shorter pairs cs).2 ≤ cs.length := by
  cases cs with
  | nil => exact Nat.le_refl 0
  | cons c cs =>
    rw [oneOf]
    split <;> simp

theorem oneOf_append_gap (gap : isGap s = true) (shorter : Token) {pairs : List (Char × Token)}
    (other : ∀ pair ∈ pairs, isGap pair.1 = false) :
    oneOf shorter pairs (cs ++ s :: rest) = oneOf shorter pairs cs := by
  cases cs with
  | nil =>
    have none : pairs.find? (·.1 == s) = none := by
      refine List.find?_eq_none.mpr fun pair mem => ?_
      simpa using (ne_of_isGap gap (other pair mem)).symm
    rw [List.nil_append, oneOf, none]
    rfl
  | cons c cs => rfl

/-- A comment in a long bracket starts with a dash and two brackets. -/
theorem commentLevel?_lt {level : Nat} (h : commentLevel? cs = some level) :
    level + 3 ≤ cs.length := by
  revert h
  fun_cases commentLevel? cs with
  | case1 rest =>
    intro h
    have := bracketLevel?_lt h
    rw [List.length_cons, List.length_cons]
    omega
  | case2 => exact fun h => absurd h (by simp)

theorem commentPiece_le (cs : List Char) : (commentPiece cs).2 ≤ cs.length := by
  rw [commentPiece]
  split
  · next level found => exact longTail_le _ _ _ (commentLevel?_lt found)
  · exact runLength_le _ _

/-- A comment is no token, not even if it is never closed. -/
theorem commentPiece_ne_token (cs : List Char) (t : Token) : (commentPiece cs).1 ≠ .token t := by
  rw [commentPiece]
  split
  · rw [longTail]
    split <;> exact PieceKind.noConfusion
  · exact PieceKind.noConfusion

theorem symbolPiece_le (c : Char) (cs : List Char) : (symbolPiece c cs).2 ≤ cs.length := by
  fun_cases symbolPiece c cs with
  | case1 => exact commentPiece_le cs
  | case3 => exact bracketPiece_le cs
  | case4 => exact dotPiece_le cs
  | case5 | case6 | case7 => exact orLonger_le _ _ _ cs
  | case8 | case9 | case10 => exact oneOf_le _ _ cs
  | case2 => exact Nat.zero_le _
  | case11 | case12 => split <;> exact Nat.zero_le _

/-- Only dashes and brackets start what can go on behind a blank. -/
theorem symbolPiece_append_gap_of_ne {c : Char} (gap : isGap s = true) (dash : c ≠ '-')
    (bracket : c ≠ '[') : symbolPiece c (cs ++ s :: rest) = symbolPiece c cs := by
  fun_cases symbolPiece c cs with
  | case1 | case2 => exact absurd rfl dash
  | case3 => exact absurd rfl bracket
  | case4 => exact dotPiece_append_gap gap
  | case5 | case6 | case7 => exact orLonger_append_gap gap rfl _ _
  | case8 | case9 | case10 => exact oneOf_append_gap gap _ (by decide)
  | case11 | case12 => rw [symbolPiece] <;> assumption

theorem head?_append_gap {d : Char} (gap : isGap s = true) (other : isGap d = false) :
    (cs ++ s :: rest).head? = some d ↔ cs.head? = some d := by
  cases cs with
  | nil => simpa using ne_of_isGap gap other
  | cons c cs => rfl

/-! ## Pieces -/

/-- A piece takes no more characters than there are. -/
theorem scan_le (c : Char) (cs : List Char) : (scan c cs).2 ≤ cs.length := by
  have quoted := quotedTail_le c cs 0
  rw [Nat.zero_add] at quoted
  fun_cases scan c cs with
  | case1 => exact runLength_le _ _
  | case2 => exact runLength_le _ _
  | case3 => exact numberTail_le c cs
  | case4 _ _ _ _ n found => simpa [found] using quoted
  | case5 _ _ _ _ n found => simpa [found] using quoted
  | case6 => exact symbolPiece_le c cs

/-- Names, numbers and most symbols end in front of a blank. -/
theorem scan_append_gap_of_ne {c : Char} (gap : isGap s = true) (blank : isGap c = false)
    (quote : isQuote c = false) (dash : c ≠ '-') (bracket : c ≠ '[') :
    scan c (cs ++ s :: rest) = scan c cs := by
  have blank' : ¬isGap c = true := by simp [blank]
  have quote' : ¬(decide (c = '"') || decide (c = '\'')) = true := by simpa [isQuote] using quote
  rw [scan, scan, if_neg blank', if_neg blank', if_neg quote', if_neg quote',
    runLength_append_gap (not_of_isGap isNameChar gap (by decide)), numberTail_append_gap gap,
    symbolPiece_append_gap_of_ne gap dash bracket]
  dsimp only
  rw [List.take_append_of_le_length (runLength_le _ _)]

theorem scan_quote {c : Char} (quote : isQuote c = true) (cs : List Char) :
    scan c cs = (if (quotedTail c cs 0).1 then .token .quoted else .invalid,
      (quotedTail c cs 0).2) := by
  obtain ⟨blank, name, digit⟩ : isGap c = false ∧ isNameStart c = false ∧ c.isDigit = false := by
    rcases isQuote_iff.mp quote with rfl | rfl <;> decide
  have quote' : (decide (c = '"') || decide (c = '\'')) = true := by simpa [isQuote] using quote
  rw [scan, blank, name, digit, if_neg Bool.false_ne_true, if_neg Bool.false_ne_true,
    if_neg Bool.false_ne_true, if_pos quote']
  obtain ⟨closed, n⟩ := quotedTail c cs 0
  cases closed <;> rfl

theorem scan_dash (cs : List Char) :
    scan '-' cs = if cs.head? = some '-' then commentPiece cs else (.token .minus, 0) := rfl

theorem scan_bracket (cs : List Char) : scan '[' cs = bracketPiece cs := rfl

/-- A token is found in front of a blank as it is found at the end of the text. -/
theorem scan_append_gap {c : Char} {t : Token} (gap : isGap s = true)
    (h : (scan c cs).1 = .token t) : scan c (cs ++ s :: rest) = scan c cs := by
  by_cases blank : isGap c = true
  · rw [scan, if_pos blank] at h
    exact absurd h (by simp)
  rw [Bool.not_eq_true] at blank
  by_cases quote : isQuote c = true
  · rw [scan_quote quote] at h ⊢
    have closed : (quotedTail c cs 0).1 = true := by
      by_contra unclosed
      rw [if_neg unclosed] at h
      exact absurd h (by simp)
    rw [scan_quote quote, quotedTail_append closed]
  rw [Bool.not_eq_true] at quote
  by_cases dash : c = '-'
  · subst dash
    have single : ¬cs.head? = some '-' := by
      intro comment
      rw [scan_dash, if_pos comment] at h
      exact commentPiece_ne_token cs t h
    rw [scan_dash, scan_dash, if_neg single, if_neg (mt (head?_append_gap gap rfl).mp single)]
  by_cases bracket : c = '['
  · subst bracket
    rw [scan_bracket] at h
    rw [scan_bracket, scan_bracket]
    exact bracketPiece_append_gap gap h
  · exact scan_append_gap_of_ne gap blank quote dash bracket

/-- A blank in front of what starts a piece that is no blank. -/
theorem scan_gap (gap : isGap s = true) (h : ∀ c ∈ rest.head?, isGap c = false) :
    scan s rest = (.blank, 0) := by
  have none : runLength isGap rest = 0 := by
    cases rest with
    | nil => rfl
    | cons c cs => simp [runLength, h c rfl]
  rw [scan, if_pos gap, none]

theorem pieces_eq (plain : ∀ tail, cs ≠ '#' :: '!' :: tail) : pieces cs = piecesFrom cs #[] := by
  rw [pieces]
  exact plain

/-- A token is not the first line of a script. -/
theorem not_script {t : Token} (h : pieces cs = #[⟨.token t, cs⟩]) :
    ∀ tail, cs ≠ '#' :: '!' :: tail := by
  rintro tail rfl
  have listed := congrArg Array.toList h
  rw [pieces, toList_piecesFrom] at listed
  have kind := congrArg Piece.kind (List.cons.inj listed).1
  exact absurd kind (by simp)

/-- A text that is one token starts with the token's first character. -/
theorem exists_scan {t : Token} (h : pieces cs = #[⟨.token t, cs⟩]) :
    ∃ c ds, cs = c :: ds ∧ isGap c = false ∧ scan c ds = (.token t, ds.length) := by
  have listed := congrArg Array.toList h
  rw [pieces_eq (not_script h)] at listed
  cases cs with
  | nil =>
    rw [piecesFrom] at listed
    exact absurd listed (by simp)
  | cons c ds =>
    rw [toList_piecesFrom_cons] at listed
    obtain ⟨kind, taken⟩ := Piece.mk.inj (List.cons.inj listed).1
    have length := congrArg List.length (List.cons.inj taken).2
    rw [List.length_take] at length
    have := scan_le c ds
    refine ⟨c, ds, rfl, ?_, Prod.ext kind (by dsimp only; omega)⟩
    by_contra gap
    rw [Bool.not_eq_false] at gap
    rw [scan, if_pos gap] at kind
    exact absurd kind (by simp)

/-- A token, a blank and the rest. -/
theorem toList_piecesFrom_token {t : Token} (h : pieces cs = #[⟨.token t, cs⟩])
    (gap : isGap s = true) (next : ∀ c ∈ rest.head?, isGap c = false) :
    (piecesFrom (cs ++ s :: rest) #[]).toList
      = ⟨.token t, cs⟩ :: ⟨.blank, [s]⟩ :: (piecesFrom rest #[]).toList := by
  obtain ⟨c, ds, rfl, -, found⟩ := exists_scan h
  have kind : (scan c ds).1 = .token t := by rw [found]
  rw [List.cons_append, toList_piecesFrom_cons, scan_append_gap gap kind, found]
  dsimp only
  rw [List.take_left', List.drop_left', toList_piecesFrom_cons, scan_gap gap next]
  · rfl
  · rfl
  · rfl

end LuaTyping.Lexer
