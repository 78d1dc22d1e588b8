import LuaTyping.Syntax.View.Literal
import LuaTyping.Proofs.Token.Covers
import LuaTyping.Proofs.Token.Joined

/-!
# How tokens are written

Most tokens are written in one way only.  The others can be told by their first characters: a name
starts with a letter, a number with a digit or with a point and a digit, a string with its quote or
bracket.  So the form of a literal can be read off its text, and of two reserved words that follow
each other the first one never touches the second.

* `Token.Writes`: the texts of a token.
* `Lexer.writes_scan`: what is read as a token is a text of it.
* `Word.text_eq_spelling`, `Word.literalForm_eq`: what follows for the text of a word.
* `Lexed.stop_ne_start`: words do not touch each other.
-/

namespace LuaTyping

open Lexer

namespace Token

/-- The token is written in more than one way. -/
def varies : Token → Bool
  | name | number | quoted | longString => true
  | _ => false

/-- A reserved word or a name. -/
def isWord (t : Token) : Bool := t == name || keywords.any (·.2 == t)

/-- The form of the literals that are the token. -/
def literalForm? : Token → Option LiteralForm
  | nilKw => some .nil
  | trueKw => some .true
  | falseKw => some .false
  | number => some .number
  | quoted | longString => some .string
  | ellipsis => some .vararg
  | _ => none

theorem isSome_literalForm? (t : Token) : t.literalForm?.isSome = t.isLiteral := by
  cases t <;> rfl

/-- The characters are a text of the token, as far as its first characters tell. -/
def Writes (t : Token) (cs : List Char) : Prop :=
  match t with
  | name => ∃ c ds, cs = c :: ds ∧ isNameStart c = true
  | number => ∃ c ds, cs = c :: ds
    ∧ (c.isDigit = true ∨ c = '.' ∧ ∃ d es, ds = d :: es ∧ d.isDigit = true)
  | quoted => ∃ c ds, cs = c :: ds ∧ (c = '"' ∨ c = '\'')
  | longString => ∃ ds, cs = '[' :: ds
  | t => cs = t.spelling.toList

variable {t : Token} {cs : List Char}

theorem Writes.literalForm_eq {form : LiteralForm} (writes : t.Writes cs)
    (h : t.literalForm? = some form) : LiteralForm.ofText (String.ofList cs) = form := by
  cases t <;> cases h
  case number =>
    obtain ⟨c, ds, rfl, start⟩ := writes
    have other : ∀ d, d.isDigit = false → d ≠ '.' → c ≠ d := by
      rintro d noDigit noPoint rfl
      rcases start with digit | ⟨point, -⟩
      · exact absurd (digit.symm.trans noDigit) (by decide)
      · exact noPoint point
    rw [LiteralForm.ofText, String.toList_ofList]
    split
    · next eq => exact absurd (List.cons.inj eq).1 (other _ (by decide) (by decide))
    · next eq => exact absurd (List.cons.inj eq).1 (other _ (by decide) (by decide))
    · next eq => exact absurd (List.cons.inj eq).1 (other _ (by decide) (by decide))
    · next eq =>
      obtain ⟨rfl, rfl⟩ := List.cons.inj eq
      rcases start with digit | ⟨-, d, es, same, digit⟩
      · exact absurd digit (by decide)
      · obtain ⟨rfl, -⟩ := List.cons.inj same
        exact absurd digit (by decide)
    · next eq =>
      obtain ⟨rfl, -⟩ := List.cons.inj eq
      rw [if_neg]
      rintro (quote | quote | bracket)
      · exact other _ (by decide) (by decide) quote
      · exact other _ (by decide) (by decide) quote
      · exact other _ (by decide) (by decide) bracket
    · next eq => exact absurd eq (by simp)
  case quoted =>
    obtain ⟨c, ds, rfl, quote⟩ := writes
    rcases quote with rfl | rfl <;> simp [LiteralForm.ofText]
  case longString =>
    obtain ⟨ds, rfl⟩ := writes
    simp [LiteralForm.ofText]
  all_goals
    rw [show cs = _ from writes]
    decide

theorem writes_iff (fixed : t.varies = false) : t.Writes cs ↔ cs = t.spelling.toList := by
  cases t <;> first
    | exact Iff.rfl
    | exact absurd fixed (by decide)

/-- A reserved word is what it is spelled. -/
theorem ofWord_eq (word : List Char) :
    ofWord word = name ∨ word = (ofWord word).spelling.toList := by
  have spelled : ∀ k ∈ keywords, k.2.spelling = k.1 := by decide
  rw [ofWord]
  cases found : keywords.find? fun k => k.1.toList == word with
  | none => exact .inl rfl
  | some k =>
    have same : k.1.toList = word := by simpa using List.find?_some found
    rw [Option.map_some, Option.getD_some, spelled k (List.mem_of_find?_eq_some found), same]
    exact .inr rfl

end Token

/-! ## Pieces -/

namespace Lexer

variable {cs : List Char} {t : Token} {n : Nat}

theorem eq_of_token_eq {u : Token} {m : Nat} (h : (PieceKind.token u, m) = (.token t, n)) :
    u = t ∧ m = n :=
  (Prod.mk.inj h).imp_left PieceKind.token.inj

theorem writes_ofWord {c : Char} (start : isNameStart c = true) (ds : List Char) :
    (Token.ofWord (c :: ds)).Writes (c :: ds) := by
  rcases Token.ofWord_eq (c :: ds) with isName | spelled
  · rw [isName]
    exact ⟨c, ds, rfl, start⟩
  · generalize Token.ofWord (c :: ds) = t at spelled
    cases t <;> first
      | exact spelled
      | exact absurd (List.cons.inj spelled).1 (by rintro rfl; exact absurd start (by decide))
      | exact ⟨c, ds, rfl, start⟩

theorem writes_bracketPiece (h : bracketPiece cs = (.token t, n)) :
    t.Writes ('[' :: cs.take n) := by
  rw [bracketPiece] at h
  split at h
  · rw [longTail] at h
    split at h
    · obtain ⟨rfl, -⟩ := eq_of_token_eq h
      exact ⟨_, rfl⟩
    · exact absurd (Prod.mk.inj h).1 (by simp)
  · dsimp only at h
    split at h
    · obtain ⟨rfl, rfl⟩ := eq_of_token_eq h
      exact List.take_zero ▸ rfl
    · exact absurd (Prod.mk.inj h).1 (by simp)

theorem writes_dotPiece (h : dotPiece cs = (.token t, n)) : t.Writes ('.' :: cs.take n) := by
  revert h
  fun_cases dotPiece cs with
  | case1 | case2 =>
    intro h
    obtain ⟨rfl, rfl⟩ := eq_of_token_eq h
    rfl
  | case3 =>
    intro h
    obtain ⟨rfl, rfl⟩ := eq_of_token_eq h
    exact List.take_zero ▸ rfl
  | case4 _ _ _ digits positive =>
    intro h
    obtain ⟨rfl, rfl⟩ := eq_of_token_eq h
    refine ⟨'.', _, rfl, .inr ⟨rfl, ?_⟩⟩
    cases cs with
    | nil => exact absurd rfl positive
    | cons d ds =>
      have digit : d.isDigit = true := by
        by_contra other
        exact positive (by simp [digits, runLength, other])
      obtain ⟨m, length⟩ := Nat.exists_eq_succ_of_ne_zero positive
      rw [length, Nat.succ_add]
      exact ⟨d, _, rfl, digit⟩

/-- One or two characters. -/
theorem writes_orLonger {c next : Char} {longer shorter : Token}
    (long : longer.Writes [c, next]) (short : shorter.Writes [c])
    (h : orLonger next longer shorter cs = (.token t, n)) : t.Writes (c :: cs.take n) := by
  cases cs with
  | nil =>
    obtain ⟨rfl, -⟩ := eq_of_token_eq h
    rwa [List.take_nil]
  | cons d ds =>
    rw [orLonger] at h
    split at h
    · next same =>
      obtain ⟨rfl, rfl⟩ := eq_of_token_eq h
      rwa [List.take_succ_cons, List.take_zero, same]
    · obtain ⟨rfl, rfl⟩ := eq_of_token_eq h
      exact short

theorem writes_oneOf {c : Char} {shorter : Token} {pairs : List (Char × Token)}
    (long : ∀ p ∈ pairs, p.2.Writes [c, p.1]) (short : shorter.Writes [c])
    (h : oneOf shorter pairs cs = (.token t, n)) : t.Writes (c :: cs.take n) := by
  cases cs with
  | nil =>
    obtain ⟨rfl, -⟩ := eq_of_token_eq h
    rwa [List.take_nil]
  | cons d ds =>
    rw [oneOf] at h
    split at h
    · next p found =>
      obtain ⟨rfl, rfl⟩ := eq_of_token_eq h
      have same : p.1 = d := by simpa using List.find?_some found
      rw [List.take_succ_cons, List.take_zero, ← same]
      exact long p (List.mem_of_find?_eq_some found)
    · obtain ⟨rfl, rfl⟩ := eq_of_token_eq h
      exact short

theorem writes_single? {c : Char} (h : single? c = some t) : t.Writes [c] := by
  revert h
  fun_cases single? c <;> intro h <;> first
    | exact Option.some.inj h ▸ rfl
    | exact absurd h (by simp)

theorem writes_symbolPiece {c : Char} (h : symbolPiece c cs = (.token t, n)) :
    t.Writes (c :: cs.take n) := by
  revert h
  fun_cases symbolPiece c cs with
  | case1 => exact fun h => absurd (congrArg Prod.fst h) (commentPiece_ne_token cs t)
  | case2 =>
    intro h
    obtain ⟨rfl, rfl⟩ := eq_of_token_eq h
    rfl
  | case3 => exact writes_bracketPiece
  | case4 => exact writes_dotPiece
  | case5 | case6 | case7 => exact writes_orLonger rfl rfl
  | case8 => exact writes_oneOf (by simp [Token.Writes, Token.spelling]) rfl
  | case9 | case10 => exact writes_oneOf (by simp [Token.Writes, Token.spelling]) rfl
  | case11 | case12 =>
    intro h
    split at h
    · next found =>
      obtain ⟨rfl, rfl⟩ := eq_of_token_eq h
      rw [List.take_zero]
      exact writes_single? found
    · exact absurd (Prod.mk.inj h).1 (by simp)

/-- What is read as a token is a text of it. -/
theorem writes_scan {c : Char} (h : scan c cs = (.token t, n)) : t.Writes (c :: cs.take n) := by
  revert h
  fun_cases scan c cs with
  | case1 => exact fun h => absurd (Prod.mk.inj h).1 (by simp)
  | case2 _ start =>
    intro h
    obtain ⟨rfl, rfl⟩ := eq_of_token_eq h
    exact writes_ofWord start _
  | case3 _ _ digit =>
    intro h
    obtain ⟨rfl, rfl⟩ := eq_of_token_eq h
    exact ⟨c, _, rfl, .inl digit⟩
  | case4 _ _ _ quote =>
    intro h
    obtain ⟨rfl, rfl⟩ := eq_of_token_eq h
    exact ⟨c, _, rfl, by simpa using quote⟩
  | case5 => exact fun h => absurd (Prod.mk.inj h).1 (by simp)
  | case6 => exact writes_symbolPiece

/-- A word starts with a letter and takes all letters that follow. -/
theorem of_scan_isWord {c : Char} (h : scan c cs = (.token t, n)) (word : t.isWord = true) :
    isNameStart c = true ∧ n = runLength isNameChar cs := by
  have start : isNameStart c = true := by
    have writes := writes_scan h
    by_cases fixed : t.varies = false
    · have letter : ∀ t : Token, t.isWord = true → t.varies = false →
          ∃ c ds, t.spelling.toList = c :: ds ∧ isNameStart c = true := by
        intro t word fixed
        cases t <;> first
          | exact ⟨_, _, rfl, rfl⟩
          | exact absurd word (by decide)
      obtain ⟨d, ds, spelled, letter⟩ := letter t word fixed
      rw [Token.writes_iff fixed, spelled] at writes
      exact (List.cons.inj writes).1 ▸ letter
    · obtain rfl : t = .name := by
        cases t <;> first
          | rfl
          | exact absurd word (by decide)
          | exact absurd rfl fixed
      obtain ⟨d, ds, eq, letter⟩ := writes
      exact (List.cons.inj eq).1 ▸ letter
  refine ⟨start, ?_⟩
  have noGap : isGap c = false := by
    by_contra gap
    have none := not_of_isGap isNameStart (Bool.eq_true_of_not_eq_false gap) (by decide)
    exact absurd (start.symm.trans none) (by decide)
  rw [scan, if_neg (by simp [noGap]), if_pos start] at h
  exact (Prod.mk.inj h).2.symm

/-- Each piece of a text is read off what is left of the text when it is its turn. -/
theorem exists_scan_of_split {before after : List Piece} {p : Piece}
    (split : (piecesFrom cs #[]).toList = before ++ p :: after) :
    ∃ c ds, p = ⟨(scan c ds).1, c :: ds.take (scan c ds).2⟩
      ∧ after = (piecesFrom (ds.drop (scan c ds).2) #[]).toList := by
  induction before generalizing cs with
  | nil =>
    cases cs with
    | nil =>
      rw [piecesFrom] at split
      exact absurd split (by simp)
    | cons c ds =>
      rw [toList_piecesFrom_cons] at split
      obtain ⟨head, tail⟩ := List.cons.inj split
      exact ⟨c, ds, head.symm, tail.symm⟩
  | cons q before ih =>
    cases cs with
    | nil =>
      rw [piecesFrom] at split
      exact absurd split (by simp)
    | cons c ds =>
      rw [toList_piecesFrom_cons] at split
      exact ih (List.cons.inj split).2

/-- The same of a text that may be a script. -/
theorem exists_scan_of_split_pieces {before after : List Piece} {p : Piece}
    (split : (pieces cs).toList = before ++ p :: after) (notScript : p.kind ≠ .shebang) :
    ∃ c ds, p = ⟨(scan c ds).1, c :: ds.take (scan c ds).2⟩
      ∧ after = (piecesFrom (ds.drop (scan c ds).2) #[]).toList := by
  revert split
  fun_cases pieces cs with
  | case1 rest =>
    intro split
    rw [toList_piecesFrom] at split
    cases before with
    | nil => exact absurd (List.cons.inj split).1 fun same => notScript (same ▸ rfl)
    | cons q before => exact exists_scan_of_split (List.cons.inj split).2
  | case2 => exact exists_scan_of_split

end Lexer

/-! ## Words -/

namespace Word

variable (w : Word)

theorem writes : w.token.Writes w.text.toList := by
  obtain ⟨c, ds, eq, -, found⟩ := exists_scan w.lexes
  rw [eq]
  have writes := writes_scan found
  rwa [List.take_length] at writes

/-- A word that can be written in one way is written in this way. -/
theorem text_eq_spelling (fixed : w.token.varies = false) : w.text = w.token.spelling :=
  String.toList_inj.mp ((Token.writes_iff fixed).mp w.writes)

/-- The form of a literal can be read off its text. -/
theorem literalForm_eq {form : LiteralForm} (h : w.token.literalForm? = some form) :
    LiteralForm.ofText w.text = form := by
  have read := w.writes.literalForm_eq h
  rwa [String.ofList_toList] at read

end Word

/-! ## Words of a text -/

namespace Lexed

variable {text : String} (small : text.utf8ByteSize < offsetCount) {x y : Lexeme}

include small in
/-- A token of a text is a word of it. -/
theorem exists_word (mem : x ∈ (ofText text).lexemes.toList) :
    ∃ w : Word, w.token = x.token ∧ w.text = x.span.slice text := by
  obtain ⟨ws, same⟩ := exists_words small
  have listed : (x.token, x.span.slice text) ∈ words text := List.mem_map_of_mem mem
  rw [← same] at listed
  obtain ⟨w, -, eq⟩ := List.mem_map.mp listed
  exact ⟨w, Prod.mk.inj eq⟩

theorem mem_lexemes :
    x ∈ (ofText text).lexemes.toList
      ↔ (.token x.token, x.span) ∈ placed 0 (Lexer.pieces text.toList).toList := by
  rw [lexemes_ofText, List.mem_filterMap]
  constructor
  · rintro ⟨⟨kind, s⟩, inside, found⟩
    cases kind with
    | token t => exact Option.some.inj found ▸ inside
    | _ => exact absurd found (by simp [lexeme?])
  · exact fun inside => ⟨_, inside, rfl⟩

/-- The piece that starts where another one stops is the next one. -/
theorem exists_next {before after : List Piece} {p : Piece} {y : PieceKind × Span}
    (small : 0 + byteLength ((before ++ p :: after).flatMap Piece.text) < offsetCount)
    (nonempty : ∀ q ∈ before ++ p :: after, q.text ≠ [])
    (mem : y ∈ placed 0 (before ++ p :: after))
    (touch : y.2.start = byteLength ((before ++ [p]).flatMap Piece.text)) :
    ∃ q rest, after = q :: rest ∧ y.1 = q.kind := by
  have grows := start_lt_stop_placed small nonempty mem
  rw [List.append_cons, List.flatMap_append, byteLength_append, ← Nat.add_assoc] at small
  rw [List.append_cons, placed_append, List.mem_append, ← touch] at mem
  rcases mem with mem | mem
  · have bound := (bounds_placed (Nat.lt_of_le_of_lt (Nat.le_add_right _ _) small) mem).2
    omega
  · rw [← touch, Nat.zero_add] at small
    cases after with
    | nil => exact absurd mem List.not_mem_nil
    | cons q rest =>
      refine ⟨q, rest, rfl, ?_⟩
      rw [Nat.zero_add] at mem
      obtain ⟨split, small⟩ := placed_cons small
      rw [split] at mem
      rcases List.mem_cons.mp mem with here | mem
      · rw [here]
      · have positive := byteLength_pos (nonempty q (by simp))
        have bound := (bounds_placed small mem).1
        omega

include small in
/-- Two words of a text do not touch: the first one would go on. -/
theorem stop_ne_start (mem : x ∈ (ofText text).lexemes.toList)
    (mem' : y ∈ (ofText text).lexemes.toList) (word : x.token.isWord = true)
    (word' : y.token.isWord = true) : x.span.stop ≠ y.span.start := by
  intro touch
  rw [← byteLength_pieces text] at small
  obtain ⟨before, p, after, split, place⟩ := exists_place_of_mem_placed small (mem_lexemes.mp mem)
  obtain ⟨kind, span⟩ := Prod.mk.inj place
  have notScript : p.kind ≠ .shebang := by simp [← kind]
  obtain ⟨c, ds, rfl, rest⟩ := exists_scan_of_split_pieces split notScript
  have stop : y.span.start = byteLength ((before ++ [Piece.mk (scan c ds).1
      (c :: ds.take (scan c ds).2)]).flatMap Piece.text) := by
    rw [← touch, span]
    simp
  have nonempty := Lexer.ne_nil_of_mem_pieces text.toList
  rw [split] at nonempty small
  obtain ⟨q, others, next, kind'⟩ := exists_next small nonempty (split ▸ mem_lexemes.mp mem') stop
  -- the second word is read where the run of letters of the first one ended
  have first : scan c ds = (.token x.token, (scan c ds).2) := Prod.ext kind.symm rfl
  obtain ⟨-, length⟩ := of_scan_isWord first word
  rw [length, drop_runLength, next] at rest
  have ended := List.head?_dropWhile_not isNameChar ds
  cases left : ds.dropWhile isNameChar with
  | nil =>
    rw [left, piecesFrom] at rest
    exact absurd rest (by simp)
  | cons d es =>
    rw [left, toList_piecesFrom_cons] at rest
    obtain ⟨rfl, -⟩ := List.cons.inj rest
    have second : scan d es = (.token y.token, (scan d es).2) := Prod.ext kind'.symm rfl
    obtain ⟨start, -⟩ := of_scan_isWord second word'
    rw [left] at ended
    have goesOn : isNameChar d = true := by
      rw [isNameStart, Bool.or_eq_true] at start
      rw [isNameChar, Char.isAlphanum, Bool.or_eq_true, Bool.or_eq_true]
      exact start.imp_left Or.inl
    exact absurd (goesOn.symm.trans ended) (by decide)

end Lexed

end LuaTyping
