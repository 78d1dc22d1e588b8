import LuaTyping.Proofs.Token.Joined

/-!
# Line ends

In some texts a line ends with a newline, in others with a carriage return and a newline.  Both
characters are blanks, and most of the language does not see the difference.  The pieces of a text
and of the same text with the longer line ends are compared one by one.

A piece takes its characters with it, and with them a line end it goes over.  A piece that goes up
to a line end, as a comment does or a string that is not closed, takes the carriage return in; so
the rest that is still to be cut begins in both texts in front of the same character, but for a
newline that may have lost its carriage return.

There is one place where the language does see a difference.  In a string a backslash takes the next
character with it.  It takes the newline of a short line end, and the string goes on; of a long line
end it takes the carriage return, and the newline behind it ends the string.

* `crlf`: the text with long line ends.
* `Follows`: what is left to be cut of both texts.
* `scan_crlf`: the step; the next pieces are alike, or a string is broken.
* `alike_pieces`: the run; the pieces are alike up to the first string that is broken.
* `Lexed.sameKinds_crlf`: if no string goes over a line end, long line ends change nothing.
-/

namespace LuaTyping

namespace Lexer

/-! ## Long line ends -/

/-- The characters with a carriage return in front of every newline. -/
def crlf (cs : List Char) : List Char := cs.flatMap fun c => if c = '\n' then ['\r', '\n'] else [c]

variable {c : Char} {cs ds : List Char}

@[simp] theorem crlf_nil : crlf [] = [] := rfl

@[simp] theorem crlf_cons_newline (cs : List Char) : crlf ('\n' :: cs) = '\r' :: '\n' :: crlf cs :=
  rfl

theorem crlf_cons (inside : c ≠ '\n') (cs : List Char) : crlf (c :: cs) = c :: crlf cs := by
  rw [crlf, List.flatMap_cons, if_neg inside]
  rfl

theorem crlf_append (cs ds : List Char) : crlf (cs ++ ds) = crlf cs ++ crlf ds :=
  List.flatMap_append

theorem crlf_eq_self (inside : '\n' ∉ cs) : crlf cs = cs := by
  induction cs with
  | nil => rfl
  | cons c cs ih =>
    rw [List.mem_cons, not_or] at inside
    rw [crlf_cons (Ne.symm inside.1), ih inside.2]

/-- A text has one line, or it has a first line with a line end behind it. -/
theorem one_line_or_more (cs : List Char) :
    '\n' ∉ cs ∨ ∃ line rest, '\n' ∉ line ∧ cs = line ++ '\n' :: rest := by
  by_cases mem : '\n' ∈ cs
  · obtain ⟨line, rest, split, first⟩ := List.eq_append_cons_of_mem mem
    exact .inr ⟨line, rest, first, split⟩
  · exact .inl mem

/-- What looks no further than a blank is not changed by long line ends. -/
theorem eq_of_append_gap {α : Type} {f : List Char → α}
    (near : ∀ {s line rest}, isGap s = true → f (line ++ s :: rest) = f line) (cs : List Char) :
    f (crlf cs) = f cs := by
  rcases one_line_or_more cs with inside | ⟨line, rest, inside, rfl⟩
  · rw [crlf_eq_self inside]
  · rw [crlf_append, crlf_eq_self inside, crlf_cons_newline, near rfl, near rfl]

/-- And what it takes goes over no line end. -/
theorem newline_not_mem_take {f : List Char → Nat}
    (near : ∀ {s line rest}, isGap s = true → f (line ++ s :: rest) = f line)
    (le : ∀ cs, f cs ≤ cs.length) (cs : List Char) : '\n' ∉ cs.take (f cs) := by
  rcases one_line_or_more cs with inside | ⟨line, rest, inside, rfl⟩
  · exact mt List.mem_of_mem_take inside
  · rw [near rfl, List.take_append_of_le_length (le line)]
    exact mt List.mem_of_mem_take inside

/-- What follows characters without a line end. -/
theorem drop_crlf {n : Nat} (inside : '\n' ∉ cs.take n) (whole : n ≤ cs.length) :
    (crlf cs).drop n = crlf (cs.drop n) := by
  conv_lhs => rw [← List.take_append_drop n cs, crlf_append, crlf_eq_self inside]
  exact List.drop_left' (List.length_take_of_le whole)

theorem dropWhile_gap_crlf (cs : List Char) :
    (crlf cs).dropWhile isGap = crlf (cs.dropWhile isGap) := by
  induction cs with
  | nil => rfl
  | cons c cs ih =>
    by_cases line : c = '\n'
    · subst line
      exact ih
    · rw [crlf_cons line, List.dropWhile_cons, List.dropWhile_cons, ih]
      split
      · rfl
      · rw [crlf_cons line]

/-! ## What is left -/

/-- The rest of a text and the rest of the same text with long line ends; in front of a newline the
carriage return may be gone. -/
def Follows (cs ds : List Char) : Prop :=
  ds = crlf cs ∨ ∃ rest, cs = '\n' :: rest ∧ ds = '\n' :: crlf rest

theorem follows_crlf (cs : List Char) : Follows cs (crlf cs) := .inl rfl

/-- Both texts go up to the first line end. -/
theorem follows_line (cs : List Char) :
    Follows (cs.dropWhile (· != '\n')) ((crlf cs).dropWhile (· != '\n')) := by
  induction cs with
  | nil => exact .inl rfl
  | cons c cs ih =>
    by_cases line : c = '\n'
    · subst line
      exact .inr ⟨cs, rfl, rfl⟩
    · have inside : (c != '\n') = true := by simpa using line
      rw [crlf_cons line, List.dropWhile_cons, List.dropWhile_cons, if_pos inside, if_pos inside]
      exact ih

/-! ## Strings -/

/-- A string goes over a line end and is broken, or it takes the same characters but for a carriage
return at its end. -/
theorem quotedTail_crlf {q : Char} (quote : isQuote q = true) (cs : List Char) (n n' : Nat) :
    ∃ closed k, quotedTail q cs n = (closed, n + k) ∧ k ≤ cs.length
      ∧ ('\n' ∈ cs.take k ∧ (quotedTail q (crlf cs) n').1 = false
        ∨ '\n' ∉ cs.take k ∧ ∃ k', quotedTail q (crlf cs) n' = (closed, n' + k')
          ∧ Follows (cs.drop k) ((crlf cs).drop k')) := by
  have quotes := isQuote_iff.mp quote
  have return_ : '\r' ≠ q := by rintro rfl; simp at quotes
  have newline : '\n' ≠ q := by rintro rfl; simp at quotes
  have ends (cs : List Char) (n : Nat) : quotedTail q ('\n' :: cs) n = (false, n) := by
    rw [quotedTail_cons (by decide), if_neg newline, if_pos rfl]
  fun_induction quotedTail q cs n generalizing n' with
  | case1 n => exact ⟨_, 0, rfl, Nat.le_refl 0, .inr ⟨List.not_mem_nil, 0, rfl, .inl rfl⟩⟩
  | case2 n => exact ⟨_, 0, rfl, Nat.zero_le 1, .inr ⟨List.not_mem_nil, 0, rfl, .inl rfl⟩⟩
  | case3 d cs n ih =>
    obtain ⟨closed, k, found, le, rest⟩ := ih (n' + 2)
    refine ⟨closed, k + 2, by rw [found, Nat.add_assoc, Nat.add_comm 2], by simpa using le, ?_⟩
    by_cases line : d = '\n'
    · -- the newline is escaped, and the carriage return in its place leaves it alone
      subst line
      refine .inl ⟨by simp, ?_⟩
      rw [crlf_cons (by decide), crlf_cons_newline, quotedTail, ends]
    · rw [crlf_cons (by decide), crlf_cons line, quotedTail, List.take_succ_cons,
        List.take_succ_cons]
      refine rest.imp (fun broken => ⟨by simp [broken.1], broken.2⟩) ?_
      rintro ⟨inside, k', found', follows⟩
      refine ⟨by simp [inside, Ne.symm line], k' + 2, ?_, follows⟩
      rw [found', Nat.add_assoc, Nat.add_comm 2]
  | case4 cs n notLast notInside =>
    refine ⟨true, 1, rfl, by simp, .inr ⟨by simpa using newline, 1, ?_, .inl ?_⟩⟩
    · rw [crlf_cons (Ne.symm newline), quotedTail_cons (ne_backslash notLast notInside), if_pos rfl]
    · rw [crlf_cons (Ne.symm newline)]
      rfl
  | case5 cs n =>
    refine ⟨false, 0, rfl, Nat.zero_le _, .inr ⟨List.not_mem_nil, 1, ?_, .inr ⟨cs, rfl, rfl⟩⟩⟩
    rw [crlf_cons_newline, quotedTail_cons (by decide), if_neg return_, if_neg (by decide), ends]
  | case6 c cs n notLast notInside other line ih =>
    obtain ⟨closed, k, found, le, rest⟩ := ih (n' + 1)
    refine ⟨closed, k + 1, by rw [found, Nat.add_assoc, Nat.add_comm 1], by simpa using le, ?_⟩
    rw [crlf_cons line, quotedTail_cons (ne_backslash notLast notInside), if_neg other, if_neg line,
      List.take_succ_cons]
    refine rest.imp (fun broken => ⟨by simp [broken.1], broken.2⟩) ?_
    rintro ⟨inside, k', found', follows⟩
    refine ⟨by simp [inside, Ne.symm line], k' + 1, ?_, follows⟩
    rw [found', Nat.add_assoc, Nat.add_comm 1]

/-! ## Long brackets and comments -/

theorem closingTail_isPrefixOf_crlf (level : Nat) (cs : List Char) :
    (closingTail level).isPrefixOf (crlf cs) = (closingTail level).isPrefixOf cs :=
  eq_of_append_gap (fun gap => isPrefixOf_append_of_not_mem (not_mem_closingTail gap level) _ _) cs

theorem bracketLevel?_crlf (cs : List Char) : bracketLevel? (crlf cs) = bracketLevel? cs :=
  eq_of_append_gap (fun gap => bracketLevel?_append_gap gap) cs

/-- The first closing bracket is the same in both texts, and the same follows it. -/
theorem closingEnd?_crlf (level : Nat) (cs : List Char) (n n' : Nat) :
    closingEnd? level cs n = none ∧ closingEnd? level (crlf cs) n' = none
      ∨ ∃ k k', closingEnd? level cs n = some (n + k)
        ∧ closingEnd? level (crlf cs) n' = some (n' + k')
        ∧ (crlf cs).drop k' = crlf (cs.drop k) := by
  have sign : '\n' ∉ closingTail level := not_mem_closingTail rfl level
  induction cs generalizing n n' with
  | nil => exact .inl ⟨rfl, rfl⟩
  | cons c cs ih =>
    by_cases line : c = '\n'
    · subst line
      refine (ih (n + 1) (n' + 2)).imp id ?_
      rintro ⟨k, k', found, found', rest⟩
      refine ⟨k + 1, k' + 2, ?_, ?_, rest⟩
      · rw [Nat.add_comm k, ← Nat.add_assoc]
        exact found
      · rw [Nat.add_comm k', ← Nat.add_assoc]
        exact found'
    · rw [crlf_cons line, closingEnd?, closingEnd?, closingTail_isPrefixOf_crlf]
      by_cases closed : (c = ']' && (closingTail level).isPrefixOf cs) = true
      · rw [if_pos closed, if_pos closed]
        refine .inr ⟨level + 2, level + 2, rfl, rfl, ?_⟩
        obtain ⟨rest, rfl⟩ := List.isPrefixOf_iff_prefix.mp (Bool.and_eq_true _ _ ▸ closed).2
        rw [crlf_append, crlf_eq_self sign]
        have length := length_closingTail level
        rw [List.drop_succ_cons, List.drop_succ_cons, List.drop_left' length,
          List.drop_left' length]
      · rw [if_neg closed, if_neg closed]
        refine (ih (n + 1) (n' + 1)).imp id ?_
        rintro ⟨k, k', found, found', rest⟩
        refine ⟨k + 1, k' + 1, ?_, ?_, rest⟩
        · rw [Nat.add_comm k, ← Nat.add_assoc, found]
        · rw [Nat.add_comm k', ← Nat.add_assoc, found']

/-- A long bracket is closed in both texts or in none. -/
theorem longTail_crlf (kind : PieceKind) (level : Nat) {opened : Nat} {cs : List Char}
    (inside : '\n' ∉ cs.take opened) (whole : opened ≤ cs.length) :
    (longTail kind level opened (crlf cs)).1 = (longTail kind level opened cs).1
      ∧ Follows (cs.drop (longTail kind level opened cs).2)
          ((crlf cs).drop (longTail kind level opened (crlf cs)).2) := by
  have behind := drop_crlf inside whole
  rw [longTail, longTail, behind]
  rcases closingEnd?_crlf level (cs.drop opened) opened opened with
    ⟨found, found'⟩ | ⟨k, k', found, found', rest⟩
  · rw [found, found']
    refine ⟨rfl, .inl ?_⟩
    rw [List.drop_length, List.drop_length, crlf_nil]
  · rw [found, found']
    refine ⟨rfl, .inl ?_⟩
    dsimp only
    rw [← List.drop_drop, ← List.drop_drop, behind, rest]

/-- Both texts begin alike, but in front of a line end. -/
theorem exists_of_crlf_eq_cons (h : crlf cs = c :: ds) (other : c ≠ '\r') :
    ∃ es, cs = c :: es ∧ ds = crlf es := by
  cases cs with
  | nil => exact absurd h (by simp)
  | cons d es =>
    by_cases line : d = '\n'
    · subst line
      exact absurd (List.cons.inj h).1.symm other
    · rw [crlf_cons line] at h
      obtain ⟨rfl, rfl⟩ := List.cons.inj h
      exact ⟨es, rfl, rfl⟩

theorem head?_crlf {d : Char} (other : isGap d = false) (cs : List Char) :
    (crlf cs).head? = some d ↔ cs.head? = some d := by
  refine Iff.of_eq (eq_of_append_gap (f := fun cs => cs.head? = some d) (fun gap => ?_) cs)
  exact propext (head?_append_gap gap other)

/-- No line end stands in an opening bracket. -/
theorem newline_not_mem_opening {level : Nat} (h : bracketLevel? cs = some level) :
    '\n' ∉ cs.take (level + 1) := by
  have le (cs : List Char) : (bracketLevel? cs).elim 0 (· + 1) ≤ cs.length := by
    cases found : bracketLevel? cs with
    | none => exact Nat.zero_le _
    | some level => exact bracketLevel?_lt found
  have inside := newline_not_mem_take (fun gap => by rw [bracketLevel?_append_gap gap]) le cs
  rwa [h] at inside

theorem bracketPiece_crlf (cs : List Char) :
    (bracketPiece (crlf cs)).1 = (bracketPiece cs).1
      ∧ Follows (cs.drop (bracketPiece cs).2) ((crlf cs).drop (bracketPiece (crlf cs)).2) := by
  rw [bracketPiece, bracketPiece, bracketLevel?_crlf]
  cases opened : bracketLevel? cs with
  | some level =>
    exact longTail_crlf _ level (newline_not_mem_opening opened) (bracketLevel?_lt opened)
  | none =>
    have near {s : Char} {line rest : List Char} (gap : isGap s = true) :
        runLength (· == '=') (line ++ s :: rest) = runLength (· == '=') line :=
      runLength_append_gap (not_of_isGap (· == '=') gap (by decide))
    have signs := eq_of_append_gap (f := runLength (· == '=')) near cs
    dsimp only
    rw [signs]
    split
    · exact ⟨rfl, follows_crlf cs⟩
    · exact ⟨rfl, .inl (drop_crlf (newline_not_mem_take near (runLength_le _) cs)
        (runLength_le _ cs))⟩

theorem commentLevel?_crlf (cs : List Char) : commentLevel? (crlf cs) = commentLevel? cs := by
  fun_cases commentLevel? cs with
  | case1 rest => exact bracketLevel?_crlf rest
  | case2 =>
    rename_i other
    rw [commentLevel?]
    intro rest opened
    obtain ⟨ds, rfl, behind⟩ := exists_of_crlf_eq_cons opened (by decide)
    obtain ⟨es, rfl, -⟩ := exists_of_crlf_eq_cons behind.symm (by decide)
    exact other es rfl

theorem newline_not_mem_commentOpening {level : Nat} (h : commentLevel? cs = some level) :
    '\n' ∉ cs.take (level + 3) := by
  revert h
  fun_cases commentLevel? cs with
  | case1 rest =>
    intro h
    simpa using newline_not_mem_opening h
  | case2 => exact fun h => absurd h (by simp)

theorem commentPiece_crlf (cs : List Char) :
    (commentPiece (crlf cs)).1 = (commentPiece cs).1
      ∧ Follows (cs.drop (commentPiece cs).2) ((crlf cs).drop (commentPiece (crlf cs)).2) := by
  rw [commentPiece, commentPiece, commentLevel?_crlf]
  cases opened : commentLevel? cs with
  | some level =>
    exact longTail_crlf _ level (newline_not_mem_commentOpening opened) (commentLevel?_lt opened)
  | none =>
    refine ⟨rfl, ?_⟩
    dsimp only
    rw [drop_runLength, drop_runLength]
    exact follows_line cs

/-! ## The step -/

/-- What starts with `c` in both texts is a string that goes over a line end and is broken, or it is
of one kind and the same follows it. -/
theorem scan_crlf (line : c ≠ '\n') (cs : List Char) :
    isQuote c = true ∧ '\n' ∈ cs.take (scan c cs).2 ∧ (scan c (crlf cs)).1 = .invalid
      ∨ ¬(isQuote c = true ∧ '\n' ∈ cs.take (scan c cs).2)
        ∧ (scan c (crlf cs)).1 = (scan c cs).1
        ∧ Follows (cs.drop (scan c cs).2) ((crlf cs).drop (scan c (crlf cs)).2) := by
  by_cases quote : isQuote c = true
  · obtain ⟨closed, k, found, -, ⟨goesOver, broken⟩ | ⟨inside, k', found', rest⟩⟩ :=
      quotedTail_crlf quote cs 0 0
    all_goals
      rw [Nat.zero_add] at found
      rw [scan_quote quote, scan_quote quote, found]
    · exact .inl ⟨quote, goesOver, by rw [broken]; rfl⟩
    · rw [found', Nat.zero_add]
      exact .inr ⟨fun broken => inside broken.2, rfl, rest⟩
  refine .inr ⟨fun broken => quote broken.1, ?_⟩
  rw [Bool.not_eq_true] at quote
  by_cases gap : isGap c = true
  · rw [scan, if_pos gap, scan, if_pos gap]
    dsimp only
    rw [drop_runLength, drop_runLength, dropWhile_gap_crlf]
    exact ⟨rfl, follows_crlf _⟩
  rw [Bool.not_eq_true] at gap
  by_cases dash : c = '-'
  · subst dash
    by_cases comment : cs.head? = some '-'
    · rw [scan_dash, scan_dash, if_pos comment, if_pos ((head?_crlf rfl cs).mpr comment)]
      exact commentPiece_crlf cs
    · rw [scan_dash, scan_dash, if_neg comment, if_neg (mt (head?_crlf rfl cs).mp comment)]
      exact ⟨rfl, follows_crlf cs⟩
  by_cases bracket : c = '['
  · subst bracket
    rw [scan_bracket, scan_bracket]
    exact bracketPiece_crlf cs
  · have near {s : Char} {line rest : List Char} (blank : isGap s = true) :
        scan c (line ++ s :: rest) = scan c line :=
      scan_append_gap_of_ne blank gap quote dash bracket
    have inside := newline_not_mem_take (f := fun cs => (scan c cs).2)
      (fun blank => by rw [near blank]) (scan_le c) cs
    rw [eq_of_append_gap near cs]
    exact ⟨rfl, .inl (drop_crlf inside (scan_le c cs))⟩

/-! ## The run -/

end Lexer

/-- A string, closed or not, that goes over a line end. -/
def Piece.isBroken (p : Piece) : Bool :=
  p.text.head?.any Lexer.isQuote && decide ('\n' ∈ p.text)

namespace Lexer

/-- The pieces of both texts are of the same kinds up to the first string that goes over a line
end; in the other text this string is invalid. -/
inductive Alike : List Piece → List Piece → Prop
  | nil : Alike [] []
  | cons {p p' : Piece} {ps ps' : List Piece} (whole : p.isBroken = false)
      (kind : p'.kind = p.kind) (rest : Alike ps ps') : Alike (p :: ps) (p' :: ps')
  | broken {p p' : Piece} {ps ps' : List Piece} (broken : p.isBroken = true)
      (invalid : p'.kind = .invalid) : Alike (p :: ps) (p' :: ps')

/-- At a line end both texts have a blank. -/
theorem toList_piecesFrom_gap {s : Char} (gap : isGap s = true) (cs : List Char) :
    (piecesFrom (s :: cs) #[]).toList
      = ⟨.blank, s :: cs.takeWhile isGap⟩ :: (piecesFrom (cs.dropWhile isGap) #[]).toList := by
  rw [toList_piecesFrom_cons, scan, if_pos gap]
  dsimp only
  rw [drop_runLength, runLength, ← List.prefix_iff_eq_take.mp (List.takeWhile_prefix isGap)]

theorem isBroken_cons (line : c ≠ '\n') (k : PieceKind) (cs : List Char) :
    (Piece.mk k (c :: cs)).isBroken = true ↔ isQuote c = true ∧ '\n' ∈ cs := by
  simp [Piece.isBroken, Ne.symm line]

theorem alike_piecesFrom {cs ds : List Char} (h : Follows cs ds) :
    Alike (piecesFrom cs #[]).toList (piecesFrom ds #[]).toList := by
  match cs with
  | [] =>
    obtain rfl : ds = [] := by
      rcases h with rfl | ⟨rest, eq, -⟩
      · rfl
      · exact absurd eq (by simp)
    rw [piecesFrom]
    exact .nil
  | c :: cs =>
    by_cases line : c = '\n'
    · subst line
      have rest := alike_piecesFrom (follows_crlf (cs.dropWhile isGap))
      rw [← dropWhile_gap_crlf] at rest
      have whole (cs : List Char) : (Piece.mk .blank ('\n' :: cs)).isBroken = false := rfl
      rw [toList_piecesFrom_gap rfl]
      rcases h with rfl | ⟨cs, eq, rfl⟩
      · rw [crlf_cons_newline, toList_piecesFrom_gap rfl]
        exact .cons (whole _) rfl rest
      · obtain ⟨-, rfl⟩ := List.cons.inj eq
        rw [toList_piecesFrom_gap rfl]
        exact .cons (whole _) rfl rest
    · obtain rfl : ds = c :: crlf cs := by
        rcases h with rfl | ⟨rest, eq, -⟩
        · exact crlf_cons line cs
        · exact absurd (List.cons.inj eq).1 line
      rw [toList_piecesFrom_cons, toList_piecesFrom_cons]
      rcases scan_crlf line cs with ⟨quote, goesOver, invalid⟩ | ⟨whole, kind, rest⟩
      · exact .broken ((isBroken_cons line _ _).mpr ⟨quote, goesOver⟩) invalid
      · refine .cons ?_ kind (alike_piecesFrom rest)
        rw [← Bool.not_eq_true, isBroken_cons line]
        exact whole
termination_by cs.length
decreasing_by
  all_goals simp only [List.length_cons, List.length_drop]
  · exact Nat.lt_succ_of_le (List.dropWhile_sublist _).length_le
  · omega

theorem toList_pieces_script (tail : List Char) :
    (pieces ('#' :: '!' :: tail)).toList
      = ⟨.shebang, ('#' :: '!' :: tail).takeWhile (· != '\n')⟩
        :: (piecesFrom (('#' :: '!' :: tail).dropWhile (· != '\n')) #[]).toList := by
  rw [pieces, toList_piecesFrom]
  rfl

/-- The pieces of a text and of the same text with long line ends. -/
theorem alike_pieces (cs : List Char) : Alike (pieces cs).toList (pieces (crlf cs)).toList := by
  by_cases script : ∃ tail, cs = '#' :: '!' :: tail
  · obtain ⟨tail, rfl⟩ := script
    rw [crlf_cons (by decide), crlf_cons (by decide), toList_pieces_script, toList_pieces_script]
    refine .cons ?_ rfl (alike_piecesFrom ?_)
    · simp [Piece.isBroken, isQuote]
    have line := follows_line ('#' :: '!' :: tail)
    rwa [crlf_cons (by decide), crlf_cons (by decide)] at line
  · rw [pieces_eq fun tail eq => script ⟨tail, eq⟩, pieces_eq]
    · exact alike_piecesFrom (follows_crlf cs)
    · intro tail eq
      obtain ⟨ds, rfl, behind⟩ := exists_of_crlf_eq_cons eq (by decide)
      obtain ⟨es, rfl, -⟩ := exists_of_crlf_eq_cons behind.symm (by decide)
      exact script ⟨es, rfl⟩

/-- If no string is broken, all pieces are of the same kinds. -/
theorem Alike.map_kind {ps ps' : List Piece} (h : Alike ps ps')
    (whole : ∀ p ∈ ps, p.isBroken = false) : ps'.map Piece.kind = ps.map Piece.kind := by
  induction h with
  | nil => rfl
  | cons _ kind _ ih =>
    rw [List.map_cons, List.map_cons, kind, ih fun p mem => whole p (List.mem_cons_of_mem _ mem)]
  | broken broken =>
    exact absurd (broken.symm.trans (whole _ List.mem_cons_self)) (by simp)

/-- If a string is broken, something is invalid. -/
theorem Alike.exists_invalid {ps ps' : List Piece} (h : Alike ps ps')
    (broken : ∃ p ∈ ps, p.isBroken = true) : ∃ p ∈ ps', p.kind = .invalid := by
  induction h with
  | nil => exact absurd broken (by simp)
  | cons whole _ _ ih =>
    obtain ⟨p, mem, broken⟩ := broken
    rcases List.mem_cons.mp mem with rfl | mem
    · exact absurd (broken.symm.trans whole) (by simp)
    · obtain ⟨q, inside, invalid⟩ := ih ⟨p, mem, broken⟩
      exact ⟨q, List.mem_cons_of_mem _ inside, invalid⟩
  | broken _ invalid => exact ⟨_, List.mem_cons_self, invalid⟩

end Lexer

/-! ## Tokens, comments and errors -/

/-- The token that a piece of this kind is. -/
def PieceKind.token? : PieceKind → Option Token
  | .token t => some t
  | _ => none

namespace Lexed

theorem map_fst_placed (ps : List Piece) (offset : Nat) :
    (placed offset ps).map Prod.fst = ps.map Piece.kind := by
  induction ps generalizing offset with
  | nil => rfl
  | cons p ps ih => rw [placed, List.map_cons, ih, List.map_cons]

theorem map_token_lexemes (text : String) :
    (ofText text).lexemes.toList.map Lexeme.token
      = ((Lexer.pieces text.toList).toList.map Piece.kind).filterMap PieceKind.token? := by
  rw [lexemes_ofText, ← map_fst_placed _ 0, List.map_filterMap, List.filterMap_map]
  congr 1
  funext x
  obtain ⟨kind, span⟩ := x
  cases kind <;> rfl

theorem length_comments (text : String) :
    (ofText text).comments.toList.length
      = ((Lexer.pieces text.toList).toList.map Piece.kind).count .comment := by
  rw [comments_ofText, ← map_fst_placed _ 0, List.length_filterMap_eq_countP, List.count,
    List.countP_map]
  refine List.countP_congr fun x _ => ?_
  simp [comment?]

theorem length_invalid (text : String) :
    (ofText text).invalid.toList.length
      = ((Lexer.pieces text.toList).toList.map Piece.kind).count .invalid := by
  rw [invalid_ofText, ← map_fst_placed _ 0, List.length_filterMap_eq_countP, List.count,
    List.countP_map]
  refine List.countP_congr fun x _ => ?_
  simp [invalid?]

/-- The text with a carriage return in front of every newline. -/
def crlf (text : String) : String := String.ofList (Lexer.crlf text.toList)

/-- No string of the text, closed or not, goes over a line end. -/
def Unbroken (text : String) : Prop :=
  ∀ p ∈ (Lexer.pieces text.toList).toList, p.isBroken = false

instance (text : String) : Decidable (Unbroken text) :=
  inferInstanceAs (Decidable (∀ p ∈ (Lexer.pieces text.toList).toList, p.isBroken = false))

/-- The same tokens in the same order, and as many comments and invalid places. -/
structure SameKinds (l l' : Lexed) : Prop where
  tokens : l'.lexemes.toList.map Lexeme.token = l.lexemes.toList.map Lexeme.token
  comments : l'.comments.size = l.comments.size
  invalid : l'.invalid.size = l.invalid.size

/-- If no string goes over a line end, long line ends change nothing but places.  Else something is
invalid in the text with long line ends, even if nothing was before. -/
theorem sameKinds_crlf (text : String) :
    (Unbroken text → SameKinds (ofText text) (ofText (crlf text)))
      ∧ (¬Unbroken text → (ofText (crlf text)).invalid ≠ #[]) := by
  have characters : (crlf text).toList = Lexer.crlf text.toList := String.toList_ofList
  have alike := Lexer.alike_pieces text.toList
  rw [← characters] at alike
  refine ⟨fun whole => ?_, fun broken none => ?_⟩
  · have kinds := alike.map_kind whole
    refine ⟨?_, ?_, ?_⟩
    · rw [map_token_lexemes, map_token_lexemes, kinds]
    · rw [← Array.length_toList, ← Array.length_toList, length_comments, length_comments, kinds]
    · rw [← Array.length_toList, ← Array.length_toList, length_invalid, length_invalid, kinds]
  · simp only [Unbroken, not_forall] at broken
    obtain ⟨p, mem, goesOver⟩ := broken
    obtain ⟨q, inside, invalid⟩ := alike.exists_invalid ⟨p, mem, by simpa using goesOver⟩
    have count := length_invalid (crlf text)
    rw [none, List.length_nil, eq_comm, List.count_eq_zero] at count
    exact count (invalid ▸ List.mem_map_of_mem inside)

/-- A script, a comment, a long string over two lines and a string that is not closed. -/
theorem sameKinds_crlf_script :
    let text := "#!lua\nlocal s = [[a\n]] -- b\nx = \"y\n"
    Unbroken text ∧ SameKinds (ofText text) (ofText (crlf text)) :=
  ⟨by decide +kernel, (sameKinds_crlf _).1 (by decide +kernel)⟩

/-- A string that goes over a line end is a string no more if the line end is long. -/
theorem escaped_newline_crlf :
    let text := "return \"a\\\nb\""
    '\r' ∉ text.toList
      ∧ (ofText text).lexemes.toList.map Lexeme.token = [.returnKw, .quoted]
      ∧ (ofText text).invalid = #[]
      ∧ (ofText (crlf text)).lexemes.toList.map Lexeme.token = [.returnKw, .name]
      ∧ (ofText (crlf text)).invalid = #[⟨7, 11⟩, ⟨13, 14⟩] := by
  decide +kernel

end Lexed

end LuaTyping
