import Mathlib.Data.List.Pairwise
import Mathlib.Data.List.TakeWhile
import LuaTyping.Proofs.Token.Placed

/-!
# Nothing of a text is lost

The tokens, the comments and the invalid places of a text lie side by side in it, and what they
leave free are blanks.  For they are pieces, the pieces fill the text, and there are but two other
kinds of pieces: runs of blanks, and the first line of a script.

Offsets count bytes, and the text is one in which every place has an offset of its own.  A piece is
made of whole characters, so it begins and ends between two characters; and a blank is one byte, so
each byte of a run of blanks is a blank.

* `PieceKind.isMark`: the three kinds of pieces that are handed on.
* `Lexer.isMark_scan`: what starts with no blank is handed on.
* `Lexed.Covers`: the spans of a text and what lies between them.
* `Lexed.covers_ofText`: the tokens, comments and invalid places of a text cover it but for blanks.
-/

namespace LuaTyping

/-! ## What is handed on -/

/-- A token, a comment or an invalid place. -/
def PieceKind.isMark : PieceKind → Bool
  | .token _ | .comment | .invalid => true
  | .blank | .shebang => false

namespace Lexer

theorem isMark_longTail {kind : PieceKind} (mark : kind.isMark = true) (level opened : Nat)
    (cs : List Char) : (longTail kind level opened cs).1.isMark = true := by
  rw [longTail]
  split
  · exact mark
  · rfl

theorem isMark_commentPiece (cs : List Char) : (commentPiece cs).1.isMark = true := by
  rw [commentPiece]
  split
  · exact isMark_longTail rfl _ _ _
  · rfl

theorem isMark_bracketPiece (cs : List Char) : (bracketPiece cs).1.isMark = true := by
  rw [bracketPiece]
  split
  · exact isMark_longTail rfl _ _ _
  · dsimp only
    split <;> rfl

theorem isMark_dotPiece (cs : List Char) : (dotPiece cs).1.isMark = true := by
  fun_cases dotPiece cs <;> rfl

theorem isMark_orLonger (next : Char) (longer shorter : Token) (cs : List Char) :
    (orLonger next longer shorter cs).1.isMark = true := by
  fun_cases orLonger next longer shorter cs <;> rfl

theorem isMark_oneOf (shorter : Token) (pairs : List (Char × Token)) (cs : List Char) :
    (oneOf shorter pairs cs).1.isMark = true := by
  fun_cases oneOf shorter pairs cs <;> rfl

theorem isMark_symbolPiece (c : Char) (cs : List Char) : (symbolPiece c cs).1.isMark = true := by
  fun_cases symbolPiece c cs with
  | case1 => exact isMark_commentPiece cs
  | case3 => exact isMark_bracketPiece cs
  | case4 => exact isMark_dotPiece cs
  | case5 | case6 | case7 => exact isMark_orLonger _ _ _ cs
  | case8 | case9 | case10 => exact isMark_oneOf _ _ cs
  | case2 => rfl
  | case11 | case12 => split <;> rfl

/-- What starts with no blank is handed on. -/
theorem isMark_scan {c : Char} (notGap : isGap c = false) (cs : List Char) :
    (scan c cs).1.isMark = true := by
  fun_cases scan c cs with
  | case1 gap => exact absurd (gap.symm.trans notGap) (by simp)
  | case2 | case3 => rfl
  | case4 _ _ _ _ n found | case5 _ _ _ _ n found => rfl
  | case6 => exact isMark_symbolPiece c cs

theorem of_mem_take_runLength {p : Char → Bool} {c : Char} {cs : List Char}
    (mem : c ∈ cs.take (runLength p cs)) : p c = true := by
  rw [runLength, ← List.prefix_iff_eq_take.mp (List.takeWhile_prefix p)] at mem
  exact List.mem_takeWhile_imp mem

/-- Behind the first line of a script stand runs of blanks and what is handed on. -/
theorem isMark_or_blank_of_mem_piecesFrom (cs : List Char) :
    ∀ p ∈ (piecesFrom cs #[]).toList, p.kind.isMark = true
      ∨ p.kind = .blank ∧ ∀ c ∈ p.text, isGap c = true := by
  match cs with
  | [] =>
    intro p mem
    rw [piecesFrom] at mem
    exact absurd mem List.not_mem_nil
  | c :: cs =>
    have rest := isMark_or_blank_of_mem_piecesFrom (cs.drop (scan c cs).2)
    intro p mem
    rw [toList_piecesFrom_cons] at mem
    rcases List.mem_cons.mp mem with rfl | mem
    · cases gap : isGap c with
      | false => exact .inl (isMark_scan gap cs)
      | true =>
        rw [scan, if_pos gap]
        refine .inr ⟨rfl, fun d inside => ?_⟩
        rcases List.mem_cons.mp inside with rfl | inside
        · exact gap
        · exact of_mem_take_runLength inside
    · exact rest p mem
termination_by cs.length
decreasing_by simp only [List.length_drop, List.length_cons]; omega

end Lexer

/-! ## Bytes -/

theorem byteLength_of_gaps {cs : List Char} (gaps : ∀ c ∈ cs, Lexer.isGap c = true) :
    byteLength cs = cs.length := by
  induction cs with
  | nil => rfl
  | cons c cs ih =>
    have size : c.utf8Size = 1 := by
      rcases Lexer.isGap_iff.mp (gaps c List.mem_cons_self) with rfl | rfl | rfl | rfl | rfl <;> rfl
    rw [← List.singleton_append, byteLength_append,
      ih fun d mem => gaps d (List.mem_cons_of_mem _ mem), List.length_append]
    change 0 + c.utf8Size + _ = _
    rw [size]
    rfl

theorem size_utf8Encode (cs : List Char) : cs.utf8Encode.size = byteLength cs := by
  rw [← String.toByteArray_ofList, String.size_toByteArray, utf8ByteSize_eq, String.toList_ofList]

/-- A character of one byte is this byte. -/
theorem getUTF8Byte_of_split {text : String} {before after : List Char} {c : Char}
    (split : text.toList = before ++ c :: after) (size : c.utf8Size = 1)
    (h : (⟨byteLength before⟩ : String.Pos.Raw) < text.rawEndPos) :
    text.getUTF8Byte ⟨byteLength before⟩ h = c.val.toUInt8 := by
  obtain rfl : text = String.ofList (before ++ c :: after) := by rw [← split, String.ofList_toList]
  have bytes : (String.ofList (before ++ c :: after)).toByteArray
      = before.utf8Encode ++ ([c].utf8Encode ++ after.utf8Encode) := by
    rw [String.toByteArray_ofList, List.utf8Encode_append, List.utf8Encode_cons]
  have one : [c].utf8Encode = [c.val.toUInt8].toByteArray := by
    rw [List.utf8Encode, List.flatMap_singleton, String.utf8EncodeChar_eq_singleton size]
  have length : [c].utf8Encode.size = 1 := by rw [one]; rfl
  simp only [String.getUTF8Byte, bytes]
  rw [ByteArray.getElem_append_right (size_utf8Encode before).le, ByteArray.getElem_append_left]
  · simp only [one, size_utf8Encode, Nat.sub_self]
    rfl
  · rw [size_utf8Encode, length, Nat.sub_self]
    exact Nat.zero_lt_one

/-- Between two characters of a text is a place of the text. -/
theorem isValid_byteLength {text : String} {before after : List Char}
    (split : text.toList = before ++ after) :
    String.Pos.Raw.IsValid text ⟨byteLength before⟩ := by
  refine String.Pos.Raw.isValid_iff_exists_append.mpr
    ⟨String.ofList before, String.ofList after, ?_, ?_⟩
  · rw [← String.ofList_append, ← split, String.ofList_toList]
  · rw [String.Pos.Raw.ext_iff, String.byteIdx_rawEndPos, utf8ByteSize_eq, String.toList_ofList]

namespace Lexed

/-- The places of the tokens, the comments and the invalid places. -/
def spans (l : Lexed) : List Span :=
  l.lexemes.toList.map Lexeme.span ++ l.comments.toList ++ l.invalid.toList

/-- The first line of a script, without its newline; another text has none. -/
def shebang (cs : List Char) : List Char :=
  match cs with
  | '#' :: '!' :: _ => cs.takeWhile (· != '\n')
  | _ => []

/-- Space, tab, carriage return, newline and form feed. -/
def blankBytes : List UInt8 := [0x20, 0x09, 0x0d, 0x0a, 0x0c]

/-- The spans lie side by side in the text from the byte `first` on, and what they leave free are
blanks. -/
structure Covers (l : Lexed) (text : String) (first : Nat) : Prop where
  nonempty : ∀ s ∈ l.spans, s.start < s.stop
  inside : ∀ s ∈ l.spans, first ≤ s.start ∧ s.stop ≤ text.utf8ByteSize
  boundaries : ∀ s ∈ l.spans,
    String.Pos.Raw.IsValid text ⟨s.start⟩ ∧ String.Pos.Raw.IsValid text ⟨s.stop⟩
  disjoint : l.spans.Pairwise fun s s' => s.stop ≤ s'.start ∨ s'.stop ≤ s.start
  lexemes : l.lexemes.toList.Pairwise fun x y => x.span.stop ≤ y.span.start
  comments : l.comments.toList.Pairwise fun s s' => s.stop ≤ s'.start
  invalid : l.invalid.toList.Pairwise fun s s' => s.stop ≤ s'.start
  blanks : ∀ (p : String.Pos.Raw) (h : p < text.rawEndPos), first ≤ p.byteIdx →
    (∀ s ∈ l.spans, ¬(s.start ≤ p.byteIdx ∧ p.byteIdx < s.stop)) →
      text.getUTF8Byte p h ∈ blankBytes

variable {text : String} {s : Span} {x : PieceKind × Span}

/-! ### Spans and pieces -/

theorem placed_append (offset : Nat) (ps qs : List Piece) :
    placed offset (ps ++ qs)
      = placed offset ps ++ placed (offset + byteLength (ps.flatMap Piece.text)) qs := by
  induction ps generalizing offset with
  | nil => rfl
  | cons p ps ih =>
    rw [List.cons_append, placed, placed, ih, List.flatMap_cons, byteLength_append, Nat.add_assoc,
      List.cons_append]

/-- At every byte of pieces in a row stands a piece. -/
theorem exists_mem_placed {ps : List Piece} {offset n : Nat}
    (small : offset + byteLength (ps.flatMap Piece.text) < offsetCount) (behind : offset ≤ n)
    (inside : n < offset + byteLength (ps.flatMap Piece.text)) :
    ∃ x ∈ placed offset ps, x.2.start ≤ n ∧ n < x.2.stop := by
  induction ps generalizing offset with
  | nil =>
    rw [List.flatMap_nil, byteLength_nil] at inside
    omega
  | cons p ps ih =>
    obtain ⟨split, small⟩ := placed_cons small
    rw [List.flatMap_cons, byteLength_append] at inside
    rw [split]
    by_cases here : n < offset + byteLength p.text
    · exact ⟨_, List.mem_cons_self, behind, here⟩
    · obtain ⟨x, mem, at_⟩ := ih small (Nat.le_of_not_lt here) (by omega)
      exact ⟨x, List.mem_cons_of_mem _ mem, at_⟩

theorem mem_map_lexemes :
    s ∈ (ofText text).lexemes.toList.map Lexeme.span
      ↔ ∃ t, (.token t, s) ∈ placed 0 (Lexer.pieces text.toList).toList := by
  rw [lexemes_ofText, List.mem_map]
  constructor
  · rintro ⟨y, mem, rfl⟩
    obtain ⟨⟨kind, s⟩, inside, found⟩ := List.mem_filterMap.mp mem
    cases kind with
    | token t => exact ⟨t, Option.some.inj found ▸ inside⟩
    | _ => exact absurd found (by simp [lexeme?])
  · rintro ⟨t, inside⟩
    exact ⟨⟨t, s⟩, List.mem_filterMap.mpr ⟨_, inside, rfl⟩, rfl⟩

theorem mem_comments :
    s ∈ (ofText text).comments.toList
      ↔ (.comment, s) ∈ placed 0 (Lexer.pieces text.toList).toList := by
  rw [comments_ofText, List.mem_filterMap]
  simp [comment?]

theorem mem_invalid :
    s ∈ (ofText text).invalid.toList
      ↔ (.invalid, s) ∈ placed 0 (Lexer.pieces text.toList).toList := by
  rw [invalid_ofText, List.mem_filterMap]
  simp [invalid?]

theorem mem_spans :
    s ∈ (ofText text).spans
      ↔ ∃ k, k.isMark = true ∧ (k, s) ∈ placed 0 (Lexer.pieces text.toList).toList := by
  rw [spans, List.mem_append, List.mem_append, mem_map_lexemes, mem_comments, mem_invalid]
  constructor
  · rintro ((⟨t, mem⟩ | mem) | mem)
    · exact ⟨_, rfl, mem⟩
    · exact ⟨_, rfl, mem⟩
    · exact ⟨_, rfl, mem⟩
  · rintro ⟨kind, mark, mem⟩
    cases kind with
    | token t => exact .inl (.inl ⟨t, mem⟩)
    | comment => exact .inl (.inr mem)
    | invalid => exact .inr mem
    | blank | shebang => exact absurd mark Bool.false_ne_true

/-- The first line of a script is one piece, and behind it come the pieces of the rest. -/
theorem exists_rest (cs : List Char) :
    ∃ (first : List Piece) (rest : List Char), first.flatMap Piece.text = shebang cs
      ∧ (∀ p ∈ first, p.kind.isMark = false) ∧ shebang cs ++ rest = cs
      ∧ (Lexer.pieces cs).toList = first ++ (Lexer.piecesFrom rest #[]).toList := by
  fun_cases Lexer.pieces cs with
  | case1 tail =>
    refine ⟨[⟨.shebang, _⟩], _, List.flatMap_singleton .., ?_, List.takeWhile_append_dropWhile,
      Lexer.toList_piecesFrom _ _⟩
    intro p mem
    rw [List.mem_singleton.mp mem]
    rfl
  | case2 =>
    have none : shebang cs = [] := by
      rw [shebang]
      assumption
    refine ⟨[], cs, none.symm, fun p mem => absurd mem List.not_mem_nil, ?_, rfl⟩
    rw [none, List.nil_append]

/-- What is handed on stands behind the first line of a script. -/
theorem exists_placed_rest (cs : List Char) :
    ∃ rest, shebang cs ++ rest = cs
      ∧ (∀ x ∈ placed 0 (Lexer.pieces cs).toList, x.1.isMark = true →
          x ∈ placed (byteLength (shebang cs)) (Lexer.piecesFrom rest #[]).toList)
      ∧ ∀ x ∈ placed (byteLength (shebang cs)) (Lexer.piecesFrom rest #[]).toList,
          x ∈ placed 0 (Lexer.pieces cs).toList := by
  obtain ⟨first, rest, line, noMark, whole, split⟩ := exists_rest cs
  have places : placed 0 (Lexer.pieces cs).toList = placed 0 first
      ++ placed (byteLength (shebang cs)) (Lexer.piecesFrom rest #[]).toList := by
    rw [split, placed_append, line, Nat.zero_add]
  rw [places]
  refine ⟨rest, whole, fun x mem mark => ?_, fun x mem => List.mem_append_right _ mem⟩
  rcases List.mem_append.mp mem with mem | mem
  · obtain ⟨before, p, after, rfl, rfl⟩ := exists_split_of_mem_placed mem
    exact absurd (mark.symm.trans (noMark p (by simp))) (by simp)
  · exact mem

/-! ### What the spans of a text have -/

theorem boundaries_placed (small : text.utf8ByteSize < offsetCount)
    (mem : x ∈ placed 0 (Lexer.pieces text.toList).toList) :
    String.Pos.Raw.IsValid text ⟨x.2.start⟩ ∧ String.Pos.Raw.IsValid text ⟨x.2.stop⟩ := by
  rw [← byteLength_pieces text] at small
  obtain ⟨before, p, after, split, rfl⟩ := exists_place_of_mem_placed small mem
  have whole : text.toList
      = before.flatMap Piece.text ++ (p.text ++ after.flatMap Piece.text) := by
    rw [← Lexer.flatMap_pieces text.toList, split, List.flatMap_append, List.flatMap_cons]
  refine ⟨?_, ?_⟩
  · rw [Nat.zero_add]
    exact isValid_byteLength whole
  · rw [Nat.zero_add, ← byteLength_append]
    exact isValid_byteLength (whole.trans (List.append_assoc ..).symm)

/-- Of two pieces of a row the one stops before the other starts. -/
theorem apart_of_ne {ps : List Piece} {offset : Nat} {y : PieceKind × Span}
    (small : offset + byteLength (ps.flatMap Piece.text) < offsetCount) (mem : x ∈ placed offset ps)
    (mem' : y ∈ placed offset ps) (ne : x ≠ y) :
    x.2.stop ≤ y.2.start ∨ y.2.stop ≤ x.2.start := by
  have apart : (placed offset ps).Pairwise fun x y =>
      x.2.stop ≤ y.2.start ∨ y.2.stop ≤ x.2.start := (pairwise_placed small).imp Or.inl
  have symm : Std.Symm fun x y : PieceKind × Span =>
      x.2.stop ≤ y.2.start ∨ y.2.stop ≤ x.2.start := ⟨fun _ _ => Or.symm⟩
  exact apart.forall mem mem' ne

section

variable (small : text.utf8ByteSize < offsetCount)

include small

theorem pairwise_invalid :
    (ofText text).invalid.toList.Pairwise fun s s' => s.stop ≤ s'.start := by
  rw [invalid_ofText]
  rw [← byteLength_pieces text] at small
  refine (pairwise_placed small).filterMap invalid? fun x y before s found s' found' => ?_
  rw [invalid?, Option.ite_none_right_eq_some] at found found'
  rwa [← Option.some.inj found.2, ← Option.some.inj found'.2]

theorem disjoint_spans :
    (ofText text).spans.Pairwise fun s s' => s.stop ≤ s'.start ∨ s'.stop ≤ s.start := by
  have lexemes : ((ofText text).lexemes.toList.map Lexeme.span).Pairwise fun s s' =>
      s.stop ≤ s'.start := (pairwise_lexemes small).map _ fun _ _ before => before
  rw [spans, List.pairwise_append, List.pairwise_append]
  refine ⟨⟨lexemes.imp Or.inl, (pairwise_comments small).imp Or.inl, fun s mem s' mem' => ?_⟩,
    (pairwise_invalid small).imp Or.inl, fun s mem s' mem' => ?_⟩
  all_goals rw [← byteLength_pieces text] at small
  · obtain ⟨t, mem⟩ := mem_map_lexemes.mp mem
    exact apart_of_ne small mem (mem_comments.mp mem') (by simp)
  · rcases List.mem_append.mp mem with mem | mem
    · obtain ⟨t, mem⟩ := mem_map_lexemes.mp mem
      exact apart_of_ne small mem (mem_invalid.mp mem') (by simp)
    · exact apart_of_ne small (mem_comments.mp mem) (mem_invalid.mp mem') (by simp)

end

/-- Every byte of a run of blanks is a blank. -/
theorem blank_of_split {before gaps after : List Char}
    (split : text.toList = before ++ gaps ++ after)
    (blank : ∀ c ∈ gaps, Lexer.isGap c = true) {p : String.Pos.Raw} (h : p < text.rawEndPos)
    (behind : byteLength before ≤ p.byteIdx)
    (inside : p.byteIdx < byteLength before + byteLength gaps) :
    text.getUTF8Byte p h ∈ blankBytes := by
  obtain ⟨i, index⟩ : ∃ i, p.byteIdx = byteLength before + i := Nat.exists_eq_add_of_le behind
  have here : i < gaps.length := by
    rw [byteLength_of_gaps blank] at inside
    omega
  have place : byteLength (before ++ gaps.take i) = p.byteIdx := by
    rw [byteLength_append, byteLength_of_gaps fun c mem => blank c (List.mem_of_mem_take mem),
      List.length_take_of_le here.le, index]
  have around : text.toList
      = (before ++ gaps.take i) ++ gaps[i] :: (gaps.drop (i + 1) ++ after) := by
    have cut : gaps.take i ++ gaps[i] :: gaps.drop (i + 1) = gaps := by
      rw [← List.drop_eq_getElem_cons here, List.take_append_drop]
    conv_lhs => rw [split, ← cut]
    simp only [List.append_assoc, List.cons_append]
  have gap := Lexer.isGap_iff.mp (blank gaps[i] (List.getElem_mem here))
  obtain rfl : p = ⟨byteLength (before ++ gaps.take i)⟩ := String.Pos.Raw.ext place.symm
  rw [getUTF8Byte_of_split around]
  · rcases gap with eq | eq | eq | eq | eq <;> rw [eq] <;> decide
  · rcases gap with eq | eq | eq | eq | eq <;> rw [eq] <;> rfl

/-- The tokens, comments and invalid places of a text. -/
theorem covers (small : text.utf8ByteSize < offsetCount) :
    (ofText text).Covers text (byteLength (shebang text.toList)) := by
  obtain ⟨rest, whole, behind, back⟩ := exists_placed_rest text.toList
  have length : text.utf8ByteSize = byteLength (shebang text.toList) + byteLength rest := by
    rw [utf8ByteSize_eq, ← byteLength_append, whole]
  have small' : byteLength (shebang text.toList)
      + byteLength ((Lexer.piecesFrom rest #[]).toList.flatMap Piece.text) < offsetCount := by
    rwa [Lexer.flatMap_piecesFrom, ← length]
  refine ⟨fun s mem => ?_, fun s mem => ?_, fun s mem => ?_, disjoint_spans small,
    pairwise_lexemes small, pairwise_comments small, pairwise_invalid small,
    fun p h first free => ?_⟩
  · obtain ⟨k, mark, mem⟩ := mem_spans.mp mem
    rw [← byteLength_pieces text] at small
    exact start_lt_stop_placed small (Lexer.ne_nil_of_mem_pieces _) mem
  · obtain ⟨k, mark, mem⟩ := mem_spans.mp mem
    have bounds := bounds_placed small' (behind _ mem mark)
    rwa [Lexer.flatMap_piecesFrom, ← length] at bounds
  · obtain ⟨k, -, mem⟩ := mem_spans.mp mem
    exact boundaries_placed small mem
  · have here : p.byteIdx < text.utf8ByteSize := by
      rwa [String.Pos.Raw.lt_iff, String.byteIdx_rawEndPos] at h
    rw [length, ← Lexer.flatMap_piecesFrom rest] at here
    obtain ⟨x, mem, start, stop⟩ := exists_mem_placed small' first here
    obtain ⟨before, q, after, split, rfl⟩ := exists_place_of_mem_placed small' mem
    have inside : q ∈ (Lexer.piecesFrom rest #[]).toList := by
      rw [split]
      exact List.mem_append_right _ List.mem_cons_self
    rcases Lexer.isMark_or_blank_of_mem_piecesFrom rest q inside with mark | ⟨-, blank⟩
    · exact absurd ⟨start, stop⟩ (free _ (mem_spans.mpr ⟨_, mark, back _ mem⟩))
    · have around : text.toList = shebang text.toList ++ before.flatMap Piece.text ++ q.text
          ++ after.flatMap Piece.text := by
        conv_lhs => rw [← whole, ← Lexer.flatMap_piecesFrom rest, split]
        simp
      refine blank_of_split around blank h ?_ ?_
      · rwa [byteLength_append]
      · rwa [byteLength_append]

theorem length_le_byteLength {ps : List Piece} (nonempty : ∀ p ∈ ps, p.text ≠ []) :
    ps.length ≤ byteLength (ps.flatMap Piece.text) := by
  induction ps with
  | nil => exact Nat.zero_le _
  | cons p ps ih =>
    have pos := byteLength_pos (nonempty p List.mem_cons_self)
    have rest := ih fun q mem => nonempty q (List.mem_cons_of_mem _ mem)
    rw [List.length_cons, List.flatMap_cons, byteLength_append]
    omega

/-- A text is cut into no more pieces than it has bytes. -/
theorem size_pieces_le (text : String) :
    (Lexer.pieces text.toList).size ≤ text.utf8ByteSize := by
  have bound := length_le_byteLength (Lexer.ne_nil_of_mem_pieces text.toList)
  rwa [Lexer.flatMap_pieces, ← utf8ByteSize_eq, Array.length_toList] at bound

/-- A text is cut in at most as many steps as it has bytes.  Its tokens, comments and invalid places
cover it from the end of its first line on, if this is the first line of a script, and else from its
start.  Their spans are made of offsets. -/
theorem covers_ofText (text : String) (short : text.utf8ByteSize < offsetCount) :
    (Lexer.pieces text.toList).size ≤ text.utf8ByteSize
      ∧ (ofText text).Covers text (byteLength (shebang text.toList))
      ∧ ∀ s ∈ (ofText text).spans, Span.ofNumbers s.start s.stop = s := by
  have all := covers short
  refine ⟨size_pieces_le text, all, fun s mem => ?_⟩
  have order := all.nonempty s mem
  have bound := (all.inside s mem).2
  rw [Span.ofNumbers, Nat.mod_eq_of_lt (by omega), Nat.mod_eq_of_lt (by omega)]

/-- The first line of a script, a name, an invalid place of two bytes, a line comment and a long
bracket that nothing closes. -/
theorem covers_script :
    let text := "#!lua\nx é\t--ü\r\n[=[ ]]"
    text.utf8ByteSize < offsetCount
      ∧ (ofText text).spans = [⟨6, 7⟩, ⟨11, 16⟩, ⟨8, 10⟩, ⟨17, 23⟩]
      ∧ (ofText text).Covers text 5 :=
  ⟨by decide +kernel, by decide +kernel, (covers_ofText _ (by decide +kernel)).2.1⟩

end Lexed

end LuaTyping
