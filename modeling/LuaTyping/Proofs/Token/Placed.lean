import Mathlib.Data.String.Basic
import LuaTyping.Token.Lexer

/-!
# Where the pieces of a text stand

The pieces of a text stand one behind the other, from the start of the text to its end.  So in a
text whose places all have an offset of their own the tokens are in order, and so are the comments.

* `Lexed.placed`: pieces in a row, each with its span.
* `Lexed.lexemes_ofText`, `Lexed.comments_ofText`, `Lexed.invalid_ofText`: what becomes of them.
* `Lexed.pairwise_placed`: each piece ends before the next one begins.
-/

namespace LuaTyping

/-! ## Lengths -/

theorem byteLength_eq (cs : List Char) : byteLength cs = String.utf8Len cs := by
  have from_ (n : Nat) : cs.foldl (fun n c => n + c.utf8Size) n = n + String.utf8Len cs := by
    induction cs generalizing n with
    | nil => rfl
    | cons c cs ih => rw [List.foldl_cons, ih, String.utf8Len_cons, Nat.add_assoc, Nat.add_comm
        c.utf8Size]
  rw [byteLength, from_, Nat.zero_add]

@[simp] theorem byteLength_nil : byteLength [] = 0 := rfl

@[simp] theorem byteLength_append (cs ds : List Char) :
    byteLength (cs ++ ds) = byteLength cs + byteLength ds := by
  rw [byteLength_eq, byteLength_eq, byteLength_eq, String.utf8Len_append]

theorem byteLength_pos {cs : List Char} (h : cs ≠ []) : 0 < byteLength cs := by
  rw [byteLength_eq]
  exact Nat.pos_of_ne_zero (mt String.utf8Len_eq_zero.mp h)

theorem utf8ByteSize_eq (text : String) : text.utf8ByteSize = byteLength text.toList := by
  rw [byteLength_eq, ← String.utf8ByteSize_ofList, String.ofList_toList]

/-- The characters between two places of a text. -/
theorem Span.slice_eq {text : String} {l m r : List Char} (h : text.toList = l ++ m ++ r) :
    slice text ⟨byteLength l, byteLength l + byteLength m⟩ = String.ofList m := by
  have eq : text = String.ofList (l ++ m ++ r) := by rw [← h, String.ofList_toList]
  rw [slice, eq, byteLength_eq, byteLength_eq, String.extract_of_valid]

@[simp] theorem Span.slice_empty (text : String) (n : Nat) : slice text ⟨n, n⟩ = "" := by
  simp [slice, String.Pos.Raw.extract]

@[simp] theorem Span.slice_whole (text : String) : slice text ⟨0, text.utf8ByteSize⟩ = text := by
  have whole := slice_eq (l := []) (m := text.toList) (r := []) (by simp : text.toList = _)
  rwa [byteLength_nil, Nat.zero_add, ← utf8ByteSize_eq, String.ofList_toList] at whole

/-! ## Pieces -/

namespace Lexer

theorem toList_piecesFrom (cs : List Char) (done : Array Piece) :
    (piecesFrom cs done).toList = done.toList ++ (piecesFrom cs #[]).toList := by
  match cs with
  | [] => rw [piecesFrom, piecesFrom, List.append_nil]
  | c :: cs =>
    have rest (done' : Array Piece) := toList_piecesFrom (cs.drop (scan c cs).2) done'
    rw [piecesFrom, piecesFrom, rest, rest (#[].push _)]
    simp
termination_by cs.length
decreasing_by simp only [List.length_drop, List.length_cons]; omega

/-- The next piece and the pieces of the rest. -/
theorem toList_piecesFrom_cons (c : Char) (cs : List Char) :
    (piecesFrom (c :: cs) #[]).toList
      = ⟨(scan c cs).1, c :: cs.take (scan c cs).2⟩
        :: (piecesFrom (cs.drop (scan c cs).2) #[]).toList := by
  rw [piecesFrom, toList_piecesFrom]
  rfl

/-- Nothing is left out. -/
theorem flatMap_piecesFrom (cs : List Char) :
    (piecesFrom cs #[]).toList.flatMap Piece.text = cs := by
  match cs with
  | [] => rw [piecesFrom]; rfl
  | c :: cs =>
    have rest := flatMap_piecesFrom (cs.drop (scan c cs).2)
    rw [toList_piecesFrom_cons, List.flatMap_cons, rest, List.cons_append,
      List.take_append_drop]
termination_by cs.length
decreasing_by simp only [List.length_drop, List.length_cons]; omega

theorem ne_nil_of_mem_piecesFrom (cs : List Char) :
    ∀ p ∈ (piecesFrom cs #[]).toList, p.text ≠ [] := by
  match cs with
  | [] =>
    intro p mem
    rw [piecesFrom] at mem
    exact absurd mem List.not_mem_nil
  | c :: cs =>
    have rest := ne_nil_of_mem_piecesFrom (cs.drop (scan c cs).2)
    intro p mem
    rw [toList_piecesFrom_cons] at mem
    rcases List.mem_cons.mp mem with rfl | mem
    · exact List.cons_ne_nil _ _
    · exact rest p mem
termination_by cs.length
decreasing_by simp only [List.length_drop, List.length_cons]; omega

/-- The pieces of a text put together are the text. -/
theorem flatMap_pieces (cs : List Char) : (pieces cs).toList.flatMap Piece.text = cs := by
  fun_cases pieces cs with
  | case1 rest =>
    rw [toList_piecesFrom, List.flatMap_append, flatMap_piecesFrom, List.flatMap_singleton,
      List.takeWhile_append_dropWhile]
  | case2 => exact flatMap_piecesFrom cs

/-- No piece is empty. -/
theorem ne_nil_of_mem_pieces (cs : List Char) : ∀ p ∈ (pieces cs).toList, p.text ≠ [] := by
  fun_cases pieces cs with
  | case1 rest =>
    intro p mem
    rw [toList_piecesFrom] at mem
    rcases List.mem_append.mp mem with mem | mem
    · rw [List.mem_singleton.mp mem]
      simp
    · exact ne_nil_of_mem_piecesFrom _ p mem
  | case2 => exact ne_nil_of_mem_piecesFrom cs

end Lexer

/-! ## Places -/

namespace Lexed

/-- Pieces in a row from an offset on, each with its span. -/
def placed (offset : Nat) : List Piece → List (PieceKind × Span)
  | [] => []
  | p :: ps =>
    (p.kind, .ofNumbers offset (offset + byteLength p.text))
      :: placed (offset + byteLength p.text) ps

/-- The token at a place, if one stands there. -/
def lexeme? (x : PieceKind × Span) : Option Lexeme :=
  match x.1 with
  | .token t => some ⟨t, x.2⟩
  | _ => none

def comment? (x : PieceKind × Span) : Option Span := if x.1 = .comment then some x.2 else none

def invalid? (x : PieceKind × Span) : Option Span := if x.1 = .invalid then some x.2 else none

theorem foldl_place (ps : List Piece) (offset : Nat) (l : Lexed) :
    ((ps.foldl place (offset, l)).2.lexemes.toList
        = l.lexemes.toList ++ (placed offset ps).filterMap lexeme?)
      ∧ ((ps.foldl place (offset, l)).2.comments.toList
        = l.comments.toList ++ (placed offset ps).filterMap comment?)
      ∧ ((ps.foldl place (offset, l)).2.invalid.toList
        = l.invalid.toList ++ (placed offset ps).filterMap invalid?) := by
  induction ps generalizing offset l with
  | nil => simp [placed]
  | cons p ps ih =>
    have ih := ih (offset + byteLength p.text)
      (l.add p.kind (.ofNumbers offset (offset + byteLength p.text)))
    rw [List.foldl_cons, placed, place]
    dsimp only
    rw [ih.1, ih.2.1, ih.2.2]
    cases found : p.kind <;> simp [add, List.filterMap_cons, lexeme?, comment?, invalid?]

/-- The tokens of a text. -/
theorem lexemes_ofText (text : String) :
    (ofText text).lexemes.toList
      = (placed 0 (Lexer.pieces text.toList).toList).filterMap lexeme? := by
  rw [ofText, ← Array.foldl_toList, (foldl_place _ _ _).1]
  rfl

theorem comments_ofText (text : String) :
    (ofText text).comments.toList
      = (placed 0 (Lexer.pieces text.toList).toList).filterMap comment? := by
  rw [ofText, ← Array.foldl_toList, (foldl_place _ _ _).2.1]
  rfl

theorem invalid_ofText (text : String) :
    (ofText text).invalid.toList
      = (placed 0 (Lexer.pieces text.toList).toList).filterMap invalid? := by
  rw [ofText, ← Array.foldl_toList, (foldl_place _ _ _).2.2]
  rfl

/-- The next piece where every place has an offset of its own. -/
theorem placed_cons {p : Piece} {ps : List Piece} {offset : Nat}
    (small : offset + byteLength ((p :: ps).flatMap Piece.text) < offsetCount) :
    placed offset (p :: ps) = (p.kind, ⟨offset, offset + byteLength p.text⟩)
        :: placed (offset + byteLength p.text) ps
      ∧ offset + byteLength p.text + byteLength (ps.flatMap Piece.text) < offsetCount := by
  rw [List.flatMap_cons, byteLength_append, ← Nat.add_assoc] at small
  rw [placed, Span.ofNumbers_of_lt (by omega) (by omega)]
  exact ⟨rfl, small⟩

/-- Pieces stand between the first offset and the end of their text. -/
theorem bounds_placed {ps : List Piece} {offset : Nat} {x : PieceKind × Span}
    (small : offset + byteLength (ps.flatMap Piece.text) < offsetCount)
    (mem : x ∈ placed offset ps) :
    offset ≤ x.2.start ∧ x.2.stop ≤ offset + byteLength (ps.flatMap Piece.text) := by
  induction ps generalizing offset with
  | nil => exact absurd mem List.not_mem_nil
  | cons p ps ih =>
    obtain ⟨split, small⟩ := placed_cons small
    rw [split] at mem
    rw [List.flatMap_cons, byteLength_append]
    rcases List.mem_cons.mp mem with rfl | mem
    · dsimp only
      omega
    · have := ih small mem
      omega

theorem start_lt_stop_placed {ps : List Piece} {offset : Nat} {x : PieceKind × Span}
    (small : offset + byteLength (ps.flatMap Piece.text) < offsetCount)
    (nonempty : ∀ p ∈ ps, p.text ≠ []) (mem : x ∈ placed offset ps) : x.2.start < x.2.stop := by
  induction ps generalizing offset with
  | nil => exact absurd mem List.not_mem_nil
  | cons p ps ih =>
    obtain ⟨split, small⟩ := placed_cons small
    rw [split] at mem
    rcases List.mem_cons.mp mem with rfl | mem
    · have := byteLength_pos (nonempty p List.mem_cons_self)
      dsimp only
      omega
    · exact ih small (fun q inside => nonempty q (List.mem_cons_of_mem _ inside)) mem

/-- A placed piece stands behind the pieces that are placed before it. -/
theorem exists_split_of_mem_placed {ps : List Piece} {offset : Nat} {x : PieceKind × Span}
    (mem : x ∈ placed offset ps) :
    ∃ before p after, ps = before ++ p :: after
      ∧ x = (p.kind, .ofNumbers (offset + byteLength (before.flatMap Piece.text))
          (offset + byteLength (before.flatMap Piece.text) + byteLength p.text)) := by
  induction ps generalizing offset with
  | nil => exact absurd mem List.not_mem_nil
  | cons p ps ih =>
    rw [placed] at mem
    rcases List.mem_cons.mp mem with rfl | mem
    · exact ⟨[], p, ps, rfl, rfl⟩
    · obtain ⟨before, q, after, rfl, rfl⟩ := ih mem
      refine ⟨p :: before, q, after, rfl, ?_⟩
      rw [List.flatMap_cons, byteLength_append, Nat.add_assoc offset]

/-- Where every place has an offset of its own, this is where the piece stands. -/
theorem exists_place_of_mem_placed {ps : List Piece} {offset : Nat} {x : PieceKind × Span}
    (small : offset + byteLength (ps.flatMap Piece.text) < offsetCount)
    (mem : x ∈ placed offset ps) :
    ∃ before p after, ps = before ++ p :: after
      ∧ x = (p.kind, ⟨offset + byteLength (before.flatMap Piece.text),
          offset + byteLength (before.flatMap Piece.text) + byteLength p.text⟩) := by
  obtain ⟨before, p, after, rfl, rfl⟩ := exists_split_of_mem_placed mem
  rw [List.flatMap_append, List.flatMap_cons, byteLength_append, byteLength_append] at small
  exact ⟨before, p, after, rfl, by rw [Span.ofNumbers_of_lt (by omega) (by omega)]⟩

/-- A piece stops before the next one starts. -/
theorem pairwise_placed {ps : List Piece} {offset : Nat}
    (small : offset + byteLength (ps.flatMap Piece.text) < offsetCount) :
    (placed offset ps).Pairwise fun x y => x.2.stop ≤ y.2.start := by
  induction ps generalizing offset with
  | nil => exact List.Pairwise.nil
  | cons p ps ih =>
    obtain ⟨split, small⟩ := placed_cons small
    rw [split, List.pairwise_cons]
    exact ⟨fun y mem => (bounds_placed small mem).1, ih small⟩

/-! ## Tokens and comments of a text -/

variable {text : String}

theorem lexeme?_eq_some {x : PieceKind × Span} {y : Lexeme} (h : lexeme? x = some y) :
    x.2 = y.span := by
  rw [lexeme?] at h
  split at h
  · rw [← Option.some.inj h]
  · exact absurd h (by simp)

theorem comment?_eq_some {x : PieceKind × Span} {y : Span} (h : comment? x = some y) :
    x.2 = y := by
  rw [comment?] at h
  split at h
  · exact Option.some.inj h
  · exact absurd h (by simp)

/-- The pieces of a text take all of its bytes. -/
theorem byteLength_pieces (text : String) :
    0 + byteLength ((Lexer.pieces text.toList).toList.flatMap Piece.text) = text.utf8ByteSize := by
  rw [Lexer.flatMap_pieces, Nat.zero_add, ← utf8ByteSize_eq]

section

variable (small : text.utf8ByteSize < offsetCount)

include small

theorem bounds_lexeme {x : Lexeme} (mem : x ∈ (ofText text).lexemes.toList) :
    x.span.start < x.span.stop ∧ x.span.stop ≤ text.utf8ByteSize := by
  rw [lexemes_ofText] at mem
  obtain ⟨y, mem, found⟩ := List.mem_filterMap.mp mem
  rw [← lexeme?_eq_some found]
  rw [← byteLength_pieces text] at small ⊢
  exact ⟨start_lt_stop_placed small (Lexer.ne_nil_of_mem_pieces _) mem,
    (bounds_placed small mem).2⟩

theorem pairwise_lexemes :
    (ofText text).lexemes.toList.Pairwise fun x y => x.span.stop ≤ y.span.start := by
  rw [lexemes_ofText]
  rw [← byteLength_pieces text] at small
  refine (pairwise_placed small).filterMap lexeme? fun x y before x' found y' found' => ?_
  rw [← lexeme?_eq_some found, ← lexeme?_eq_some found']
  exact before

theorem start_lt_stop_comment {c : Span} (mem : c ∈ (ofText text).comments.toList) :
    c.start < c.stop := by
  rw [comments_ofText] at mem
  obtain ⟨y, mem, found⟩ := List.mem_filterMap.mp mem
  rw [← comment?_eq_some found]
  rw [← byteLength_pieces text] at small
  exact start_lt_stop_placed small (Lexer.ne_nil_of_mem_pieces _) mem

theorem pairwise_comments :
    (ofText text).comments.toList.Pairwise fun c d => c.stop ≤ d.start := by
  rw [comments_ofText]
  rw [← byteLength_pieces text] at small
  refine (pairwise_placed small).filterMap comment? fun x y before x' found y' found' => ?_
  rw [← comment?_eq_some found, ← comment?_eq_some found']
  exact before

end

end Lexed

end LuaTyping
