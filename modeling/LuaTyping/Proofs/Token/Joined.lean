import Mathlib.Data.Set.List
import LuaTyping.Proofs.Syntax.Phrase
import LuaTyping.Proofs.Token.Alone

/-!
# Tokens with a blank between them

Words put together with a blank between any two of them are cut into these words again: a word is
found in front of a blank as it is found by itself, and no word is the first line of a script.

This can be said of any text, for the text of each of its tokens is a word.  Comments, blanks and
invalid places are dropped, and what was between two tokens becomes one newline; the tokens and
their texts stay.

* `Word.toList_pieces_joined`: the pieces of words that are put together.
* `Lexed.words`: the tokens of a text with their texts.
* `Lexed.words_listed`: the tokens of a text, put together, are the tokens of the text.
-/

namespace LuaTyping

/-! ## Lists with something between neighbours -/

section

variable {α β : Type} {a x : α} {xs : List α}

theorem filterMap_intersperse {f : α → Option β} (none : f a = none) :
    (xs.intersperse a).filterMap f = xs.filterMap f := by
  induction xs with
  | nil => rfl
  | cons x xs ih =>
    cases xs with
    | nil => rfl
    | cons y xs =>
      rw [List.intersperse_cons_cons, List.filterMap_cons, List.filterMap_cons_none none, ih]
      exact List.filterMap_cons.symm

theorem eq_or_mem_of_mem_intersperse (mem : x ∈ xs.intersperse a) : x = a ∨ x ∈ xs := by
  induction xs with
  | nil => exact .inr mem
  | cons y xs ih =>
    cases xs with
    | nil => exact .inr mem
    | cons z xs =>
      rw [List.intersperse_cons_cons, List.mem_cons, List.mem_cons] at mem
      rcases mem with rfl | rfl | mem
      · exact .inr List.mem_cons_self
      · exact .inl rfl
      · exact (ih mem).imp_right (List.mem_cons_of_mem _)

end

/-! ## Words -/

namespace Word

variable {s : Char} {ws : List Word} {w : Word}

/-- The word as a piece of a text. -/
def piece (w : Word) : Piece := ⟨.token w.token, w.text.toList⟩

/-- Words with the same character between any two of them. -/
def joined (s : Char) (ws : List Word) : String :=
  (String.singleton s).intercalate (ws.map text)

@[simp] theorem joined_nil (s : Char) : joined s [] = "" := rfl

@[simp] theorem toList_joined_singleton (s : Char) (w : Word) :
    (joined s [w]).toList = w.text.toList := by
  simp [joined]

theorem toList_joined_cons_cons (s : Char) (w v : Word) (ws : List Word) :
    (joined s (w :: v :: ws)).toList = w.text.toList ++ s :: (joined s (v :: ws)).toList := by
  simp [joined]

/-- What is put together begins with its first word. -/
theorem exists_toList_joined_cons (s : Char) (w : Word) (ws : List Word) :
    ∃ rest, (joined s (w :: ws)).toList = w.text.toList ++ rest := by
  cases ws with
  | nil => exact ⟨[], by rw [toList_joined_singleton, List.append_nil]⟩
  | cons v ws => exact ⟨_, toList_joined_cons_cons s w v ws⟩

/-- No word begins with a blank. -/
theorem head_joined : ∀ c ∈ (joined s ws).toList.head?, Lexer.isGap c = false := by
  cases ws with
  | nil => exact fun c mem => absurd mem (by simp)
  | cons w ws =>
    obtain ⟨c, ds, eq, notGap, -⟩ := Lexer.exists_scan w.lexes
    obtain ⟨rest, joined⟩ := exists_toList_joined_cons s w ws
    rw [joined, eq]
    intro d mem
    rw [← Option.some.inj mem]
    exact notGap

/-- Words with blanks between them are no script. -/
theorem joined_not_script (gap : Lexer.isGap s = true) :
    ∀ tail, (joined s ws).toList ≠ '#' :: '!' :: tail := by
  intro tail script
  match ws with
  | [] => exact absurd script (by simp)
  | [w] =>
    rw [toList_joined_singleton] at script
    exact Lexer.not_script w.lexes tail script
  | w :: v :: ws =>
    have notScript := Lexer.not_script w.lexes
    obtain ⟨c, ds, eq, -, -⟩ := Lexer.exists_scan w.lexes
    rw [toList_joined_cons_cons, eq] at script
    rw [eq] at notScript
    obtain ⟨first, second⟩ := List.cons.inj script
    cases ds with
    | nil => exact absurd (List.cons.inj second).1 (Lexer.ne_of_isGap gap rfl)
    | cons d ds => exact notScript ds (by rw [first, (List.cons.inj second).1])

theorem toList_piecesFrom_word (w : Word) :
    (Lexer.piecesFrom w.text.toList #[]).toList = [w.piece] := by
  rw [← Lexer.pieces_eq (Lexer.not_script w.lexes), w.lexes]
  rfl

/-- Words with blanks between them are cut into the words and the blanks. -/
theorem toList_pieces_joined (gap : Lexer.isGap s = true) (ws : List Word) :
    (Lexer.pieces (joined s ws).toList).toList = (ws.map piece).intersperse ⟨.blank, [s]⟩ := by
  rw [Lexer.pieces_eq (joined_not_script gap)]
  induction ws with
  | nil =>
    rw [joined_nil, String.toList_empty, Lexer.piecesFrom]
    rfl
  | cons w ws ih =>
    cases ws with
    | nil =>
      rw [toList_joined_singleton, toList_piecesFrom_word]
      rfl
    | cons v ws =>
      rw [toList_joined_cons_cons, Lexer.toList_piecesFrom_token w.lexes gap head_joined, ih]
      rfl

end Word

/-! ## The tokens of a text -/

namespace Lexed

/-- The tokens of a text in order, each with its text. -/
def words (text : String) : List (Token × String) :=
  (ofText text).lexemes.toList.map fun x => (x.token, x.span.slice text)

/-- The texts of the tokens of a text with a newline between any two of them. -/
def listed (text : String) : String := "\n".intercalate ((words text).map Prod.snd)

/-- A piece that is a token, with its text. -/
def word? (p : Piece) : Option (Token × String) :=
  match p.kind with
  | .token t => some (t, String.ofList p.text)
  | _ => none

/-- At the place of a piece stands its text, if every place has an offset of its own. -/
theorem map_lexeme?_placed {text : String} (small : text.utf8ByteSize < offsetCount)
    (ps : List Piece) (before : List Char)
    (split : text.toList = before ++ ps.flatMap Piece.text) :
    ((placed (byteLength before) ps).filterMap lexeme?).map
        (fun x => (x.token, x.span.slice text))
      = ps.filterMap word? := by
  induction ps generalizing before with
  | nil => rfl
  | cons p ps ih =>
    rw [utf8ByteSize_eq, split, byteLength_append] at small
    rw [(placed_cons small).1, List.filterMap_cons, List.filterMap_cons]
    rw [List.flatMap_cons, ← List.append_assoc] at split
    have rest := ih (before ++ p.text) split
    rw [byteLength_append] at rest
    cases kind : p.kind with
    | token t =>
      simp only [lexeme?, word?, kind, List.map_cons, rest, Span.slice_eq split]
    | _ => simpa only [lexeme?, word?, kind] using rest

theorem words_eq {text : String} (small : text.utf8ByteSize < offsetCount) :
    words text = (Lexer.pieces text.toList).toList.filterMap word? := by
  rw [words, lexemes_ofText]
  exact map_lexeme?_placed small _ [] (Lexer.flatMap_pieces _).symm

theorem comments_eq_empty {text : String}
    (none : ∀ p ∈ (Lexer.pieces text.toList).toList, p.kind ≠ .comment) :
    (ofText text).comments = #[] := by
  rw [← Array.toList_eq_nil_iff, comments_ofText, List.filterMap_eq_nil_iff]
  intro x mem
  obtain ⟨before, p, after, split, rfl⟩ := exists_split_of_mem_placed mem
  exact if_neg (none p (split ▸ List.mem_append_right _ List.mem_cons_self))

theorem invalid_eq_empty {text : String}
    (none : ∀ p ∈ (Lexer.pieces text.toList).toList, p.kind ≠ .invalid) :
    (ofText text).invalid = #[] := by
  rw [← Array.toList_eq_nil_iff, invalid_ofText, List.filterMap_eq_nil_iff]
  intro x mem
  obtain ⟨before, p, after, split, rfl⟩ := exists_split_of_mem_placed mem
  exact if_neg (none p (split ▸ List.mem_append_right _ List.mem_cons_self))

/-- The tokens of a text are words. -/
theorem exists_words {text : String} (small : text.utf8ByteSize < offsetCount) :
    ∃ ws : List Word, ws.map (fun w => (w.token, w.text)) = words text := by
  have each : ∀ x ∈ words text, ∃ w : Word, (w.token, w.text) = x := by
    intro x mem
    rw [words_eq small] at mem
    obtain ⟨p, inside, found⟩ := List.mem_filterMap.mp mem
    rw [word?] at found
    split at found
    · next t kind =>
      have piece : ⟨.token t, p.text⟩ ∈ (Lexer.pieces text.toList).toList := by rwa [← kind]
      have alone := Lexer.pieces_of_mem piece
      refine ⟨⟨t, String.ofList p.text, ?_⟩, Option.some.inj found⟩
      rw [String.toList_ofList]
      exact alone
    · exact absurd found (by simp)
  have range := Set.range_list_map fun w : Word => (w.token, w.text)
  exact range.symm.subset each

theorem listed_eq {text : String} {ws : List Word}
    (h : ws.map (fun w => (w.token, w.text)) = words text) : listed text = Word.joined '\n' ws := by
  rw [listed, ← h, List.map_map]
  rfl

theorem words_joined {s : Char} (gap : Lexer.isGap s = true) {ws : List Word}
    (small : (Word.joined s ws).utf8ByteSize < offsetCount) :
    words (Word.joined s ws) = ws.map fun w => (w.token, w.text) := by
  have each : word? ∘ Word.piece = some ∘ fun w : Word => (w.token, w.text) := by
    funext w
    simp [word?, Word.piece]
  rw [words_eq small, Word.toList_pieces_joined gap, filterMap_intersperse rfl,
    List.filterMap_map, each,
    ← List.filterMap_eq_map]

/-- Words with blanks between them are cut into tokens and blanks. -/
theorem kind_of_mem_joined {s : Char} (gap : Lexer.isGap s = true) {ws : List Word} {p : Piece}
    (mem : p ∈ (Lexer.pieces (Word.joined s ws).toList).toList) :
    p.kind = .blank ∨ ∃ t, p.kind = .token t := by
  rw [Word.toList_pieces_joined gap] at mem
  rcases eq_or_mem_of_mem_intersperse mem with rfl | mem
  · exact .inl rfl
  · obtain ⟨w, -, rfl⟩ := List.mem_map.mp mem
    exact .inr ⟨w.token, rfl⟩

section

variable {s : Char} (gap : Lexer.isGap s = true) (ws : List Word)

include gap

theorem comments_joined : (ofText (Word.joined s ws)).comments = #[] :=
  comments_eq_empty fun p mem => by
    rcases kind_of_mem_joined gap mem with kind | ⟨t, kind⟩ <;> simp [kind]

theorem invalid_joined : (ofText (Word.joined s ws)).invalid = #[] :=
  invalid_eq_empty fun p mem => by
    rcases kind_of_mem_joined gap mem with kind | ⟨t, kind⟩ <;> simp [kind]

end

/-- The tokens of a text, put together with a newline between any two of them, are read as the
tokens of the text; there is no comment among them and nothing that is no token.  In both texts
every place has an offset of its own. -/
theorem words_listed {text : String} (small : text.utf8ByteSize < offsetCount)
    (small' : (listed text).utf8ByteSize < offsetCount) :
    words (listed text) = words text
      ∧ (ofText (listed text)).comments = #[] ∧ (ofText (listed text)).invalid = #[] := by
  obtain ⟨ws, same⟩ := exists_words small
  rw [listed_eq same] at small' ⊢
  rw [words_joined rfl small', same]
  exact ⟨rfl, comments_joined rfl ws, invalid_joined rfl ws⟩

/-- A point belongs to the number before it and the next one to the number behind it. -/
theorem words_listed_points :
    listed "x=1..2 --[[y]]~" = "x\n=\n1.\n.2\n~"
      ∧ words "x\n=\n1.\n.2\n~" = words "x=1..2 --[[y]]~" := by
  have same : listed "x=1..2 --[[y]]~" = "x\n=\n1.\n.2\n~" := by decide +kernel
  have small : "x=1..2 --[[y]]~".utf8ByteSize < offsetCount := by decide
  have kept := (words_listed small (by rw [same]; decide)).1
  rw [same] at kept
  exact ⟨same, kept⟩

end Lexed

end LuaTyping
