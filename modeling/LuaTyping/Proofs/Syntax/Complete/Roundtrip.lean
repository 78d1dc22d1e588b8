import LuaTyping.Proofs.Token.Joined
import LuaTyping.Proofs.Syntax.Arranged
import LuaTyping.Proofs.Syntax.Complete.Statement

/-!
# Programs are read as they are printed

A printed program is cut into its words again, since a space stands between any two of them.  The
parser then finds its phrase, and the table of the tree shows this phrase node by node: the kinds,
the texts and the children, and nothing besides.

* `Word.lexemes`: where words stand that are printed one behind the other.
* `Layout.Prints`: a layout of printed words; the text between two tokens is printed, too.
* `Tree.Shows`: a node of a tree with everything below it is a phrase.
* `Parsed.ofText_program`: the tree of a printed program is the program.
-/

namespace LuaTyping

open Lexed (placed lexeme?)

/-! ## Printed words -/

namespace Word

/-- Words with a space behind each of them. -/
def led (ws : List Word) : List Char := ws.flatMap fun w => w.text.toList ++ [' ']

variable {ws vs : List Word} {w : Word}

theorem spaced_eq (ws : List Word) : spaced ws = joined ' ' ws := rfl

theorem toList_spaced_cons_cons (w v : Word) (ws : List Word) :
    (spaced (w :: v :: ws)).toList = w.text.toList ++ ' ' :: (spaced (v :: ws)).toList :=
  toList_joined_cons_cons ' ' w v ws

theorem toList_spaced_singleton (w : Word) : (spaced [w]).toList = w.text.toList :=
  toList_joined_singleton ' ' w

theorem toList_spaced_append (ne : vs ≠ []) :
    (spaced (ws ++ vs)).toList = led ws ++ (spaced vs).toList := by
  induction ws with
  | nil => rfl
  | cons w ws ih =>
    obtain ⟨v, us, eq⟩ := List.exists_cons_of_ne_nil (List.append_ne_nil_of_right_ne_nil ws ne)
    rw [List.cons_append, eq, toList_spaced_cons_cons, ← eq, ih]
    simp [led]

/-- What is printed behind words begins with a space. -/
theorem exists_toList_spaced_append (ws vs : List Word) :
    ∃ rest, (spaced (ws ++ vs)).toList = (spaced ws).toList ++ rest := by
  rcases List.eq_nil_or_concat ws with rfl | ⟨us, w, rfl⟩
  · exact ⟨(spaced vs).toList, rfl⟩
  · cases vs with
    | nil => exact ⟨[], by rw [List.append_nil, List.append_nil]⟩
    | cons v vs =>
      refine ⟨' ' :: (spaced (v :: vs)).toList, ?_⟩
      rw [List.concat_eq_append, toList_spaced_append (List.cons_ne_nil v vs),
        toList_spaced_append (List.cons_ne_nil w []), toList_spaced_singleton, led, led,
        List.flatMap_append, List.flatMap_singleton]
      simp

/-- Where words stand that are printed from an offset on. -/
def lexemes (offset : Nat) : List Word → List Lexeme
  | [] => []
  | w :: ws =>
    ⟨w.token, ⟨offset, offset + byteLength w.text.toList⟩⟩
      :: lexemes (offset + byteLength w.text.toList + 1) ws

@[simp] theorem led_append (ws vs : List Word) : led (ws ++ vs) = led ws ++ led vs :=
  List.flatMap_append

theorem byteLength_led_cons (w : Word) (ws : List Word) :
    byteLength (led (w :: ws)) = byteLength w.text.toList + 1 + byteLength (led ws) := by
  rw [led, List.flatMap_cons, byteLength_append, byteLength_append]
  rfl

theorem lexemes_append (offset : Nat) (ws vs : List Word) :
    lexemes offset (ws ++ vs)
      = lexemes offset ws ++ lexemes (offset + byteLength (led ws)) vs := by
  induction ws generalizing offset with
  | nil => rfl
  | cons w ws ih =>
    rw [List.cons_append, lexemes, lexemes, ih, byteLength_led_cons, List.cons_append]
    congr 3
    omega

@[simp] theorem length_lexemes (offset : Nat) (ws : List Word) :
    (lexemes offset ws).length = ws.length := by
  induction ws generalizing offset with
  | nil => rfl
  | cons w ws ih => rw [lexemes, List.length_cons, ih, List.length_cons]

theorem map_token_lexemes (offset : Nat) (ws : List Word) :
    (lexemes offset ws).map Lexeme.token = ws.map token := by
  induction ws generalizing offset with
  | nil => rfl
  | cons w ws ih => rw [lexemes, List.map_cons, ih, List.map_cons]

/-- Of printed words and the spaces between them only the words are tokens. -/
theorem filterMap_lexeme?_placed {offset : Nat} {ws : List Word}
    (small : offset + byteLength (((ws.map piece).intersperse ⟨.blank, [' ']⟩).flatMap Piece.text)
      < offsetCount) :
    (placed offset ((ws.map piece).intersperse ⟨.blank, [' ']⟩)).filterMap lexeme?
      = lexemes offset ws := by
  induction ws generalizing offset with
  | nil => rfl
  | cons w ws ih =>
    cases ws with
    | nil =>
      rw [List.map_singleton, List.intersperse_singleton] at small ⊢
      rw [(Lexed.placed_cons small).1]
      rfl
    | cons v ws =>
      rw [List.map_cons, List.map_cons, List.intersperse_cons_cons] at small ⊢
      obtain ⟨first, small⟩ := Lexed.placed_cons small
      obtain ⟨space, small⟩ := Lexed.placed_cons small
      rw [first, space, lexemes]
      exact congrArg _ (ih small)

end Word

/-! ## The layout of a printed text -/

namespace Layout

/-- The layout of words that are printed with spaces between them. -/
structure Prints (l : Layout) (ws : List Word) : Prop where
  text : l.text = Word.spaced ws
  lexemes : l.lexemes.toList = Word.lexemes 0 ws
  comments : l.comments = #[]

theorem prints_ofLexed {ws : List Word} (small : (Word.spaced ws).utf8ByteSize < offsetCount) :
    (ofLexed (Word.spaced ws) (Lexed.ofText (Word.spaced ws))).Prints ws where
  text := rfl
  lexemes := by
    have pieces : (Lexer.pieces (Word.spaced ws).toList).toList
        = (ws.map Word.piece).intersperse ⟨.blank, [' ']⟩ := by
      rw [Word.spaced_eq]
      exact Word.toList_pieces_joined rfl ws
    rw [← Lexed.byteLength_pieces, pieces] at small
    rw [ofLexed, Lexed.lexemes_ofText, pieces]
    exact Word.filterMap_lexeme?_placed small
  comments := by
    rw [ofLexed, Word.spaced_eq]
    exact Lexed.comments_joined rfl ws

variable {l : Layout} {ws us vs : List Word} {w : Word}

namespace Prints

/-- Nothing is documented. -/
theorem docSpan?_eq (h : l.Prints ws) (i : Nat) : l.docSpan? i = none := by
  simp [docSpan?, commentsBefore, h.comments, docRun]

theorem lexemes_getElem? (h : l.Prints (ws ++ w :: vs)) :
    l.lexemes[ws.length]? = some ⟨w.token, ⟨byteLength (Word.led ws),
      byteLength (Word.led ws) + byteLength w.text.toList⟩⟩ := by
  rw [← Array.getElem?_toList, h.lexemes, Word.lexemes_append, Nat.zero_add,
    List.getElem?_append_right (by simp), Word.length_lexemes, Nat.sub_self]
  rfl

theorem tokenStart_eq (h : l.Prints (ws ++ w :: vs)) :
    l.tokenStart ws.length = byteLength (Word.led ws) := by
  rw [tokenStart, h.lexemes_getElem?]

theorem tokenStop_eq (h : l.Prints (ws ++ w :: vs)) :
    l.tokenStop ws.length = byteLength (Word.led ws) + byteLength w.text.toList := by
  rw [tokenStop, h.lexemes_getElem?]

/-- From the start of a token to the stop of another the words from the one to the other are
printed. -/
theorem slice_eq (h : l.Prints (us ++ (ws ++ [w]) ++ vs)) :
    Span.slice l.text ⟨l.tokenStart us.length, l.tokenStop (us.length + ws.length)⟩
      = Word.spaced (ws ++ [w]) := by
  have start : l.tokenStart us.length = byteLength (Word.led us) := by
    obtain ⟨v, rest, eq⟩ : ∃ v rest, ws ++ [w] ++ vs = v :: rest := by
      cases ws <;> exact ⟨_, _, rfl⟩
    rw [List.append_assoc, eq] at h
    exact h.tokenStart_eq
  have stop : l.tokenStop (us.length + ws.length)
      = byteLength (Word.led us) + byteLength (Word.spaced (ws ++ [w])).toList := by
    have last : l.Prints ((us ++ ws) ++ w :: vs) := by simpa using h
    have found := last.tokenStop_eq
    rw [List.length_append] at found
    rw [found, Word.toList_spaced_append (List.cons_ne_nil w []), Word.toList_spaced_singleton,
      Word.led_append, byteLength_append, byteLength_append, Nat.add_assoc]
  obtain ⟨rest, behind⟩ := Word.exists_toList_spaced_append (ws ++ [w]) vs
  have split : l.text.toList
      = Word.led us ++ (Word.spaced (ws ++ [w])).toList ++ rest := by
    rw [h.text, List.append_assoc, Word.toList_spaced_append (by simp), behind, List.append_assoc]
  rw [start, stop, Span.slice_eq split, String.ofList_toList]

/-- A group begins with its first word, as there are no comments. -/
theorem offset_firstMark (h : l.Prints ws) (kind : NodeKind) (i n : Nat) :
    l.offset (Phrase.firstMark kind i n) = l.tokenStart i := by
  have doc : l.offset (Mark.doc i) = l.tokenStart i := offset_doc_of_none (h.docSpan?_eq i)
  rw [Phrase.firstMark]
  split
  · exact doc
  · exact offset_start l i

/-- Between the marks of a group stand its words. -/
theorem slice_group (kind : NodeKind) (h : l.Prints (us ++ ws ++ vs)) :
    Span.slice l.text ⟨l.offset (Phrase.firstMark kind us.length ws.length),
        l.offset (Phrase.lastMark kind us.length ws.length)⟩
      = Word.spaced ws := by
  rcases List.eq_nil_or_concat ws with rfl | ⟨ws, w, rfl⟩
  · rw [List.length_nil, Phrase.lastMark_zero, Span.slice_empty]
    rfl
  · rw [List.concat_eq_append] at h ⊢
    have last : Mark.stopBefore (us.length + (ws ++ [w]).length)
        = Mark.stop (us.length + ws.length) := by
      rw [List.length_append, List.length_singleton, ← Nat.add_assoc, Phrase.stopBefore_succ]
    rw [h.offset_firstMark, Phrase.lastMark_of_pos _ _ (by simp), last, offset_stop, h.slice_eq]

end Prints

end Layout

/-! ## Phrases in a tree -/

mutual

/-- A node with everything below it is a phrase: it has its kind and its text, and its children are
the groups of the phrase. -/
def Tree.Shows (t : Tree) (id : NodeId) : Phrase → Prop
  | .word _ => False
  | .group kind parts =>
    t.kind id = kind ∧ t.textOf id = (Phrase.group kind parts).text
      ∧ t.ShowsAll (t.children id) parts
termination_by structural p => p

/-- Nodes in a row are the groups of phrases in a row. -/
def Tree.ShowsAll (t : Tree) (ids : List NodeId) : List Phrase → Prop
  | [] => ids = []
  | p :: ps =>
    match p with
    | .word _ => t.ShowsAll ids ps
    | .group _ _ => ∃ id rest, ids = id :: rest ∧ t.Shows id p ∧ t.ShowsAll rest ps
termination_by structural ps => ps

end

namespace Layout

open Phrase (outlines outlinesOf docSlot firstMark lastMark)

variable {l : Layout} {t : Tree} {r : Branch}

/-- The branch of a group without comments. -/
theorem Prints.branchesOf_group {ws : List Word} (h : l.Prints ws) (next i : Nat) (kind : NodeKind)
    (parts : List Phrase) :
    ∃ id below, l.branchesOf next (outlines i (.group kind parts))
      = [.node id kind ⟨l.offset (firstMark kind i (Phrase.count parts)),
          l.offset (lastMark kind i (Phrase.count parts))⟩
          (l.branchesOf below (outlinesOf i parts))] := by
  obtain ⟨id, below, eq⟩ := l.branchesOf_group next i kind parts
  have slot : l.branchesOf next (docSlot kind i) = [] := by
    rw [docSlot]
    split
    · rw [branchesOf_singleton, branches, h.docSpan?_eq]
    · rfl
  rw [slot, List.nil_append] at eq
  exact ⟨id, below, eq⟩

mutual

/-- The branch of a group shows the group. -/
theorem shows_group (grows : t.Grows r) (text : t.text = l.text) {us vs : List Word}
    {b : Branch} {next : Nat} : (p : Phrase) → l.Prints (us ++ p.words ++ vs) →
      b ∈ l.branchesOf next (outlines us.length p) → b ∈ r.all → t.Shows b.id p
  | .word w, _, mem, _ => absurd mem List.not_mem_nil
  | .group kind parts, h, mem, inside => by
    obtain ⟨id, below, eq⟩ := h.branchesOf_group next us.length kind parts
    rw [eq] at mem
    obtain rfl := List.mem_singleton.mp mem
    have children (c : Branch) (child : c ∈ l.branchesOf below (outlinesOf us.length parts)) :
        c ∈ r.all := Branch.mem_all_trans inside (Branch.mem_all_of_mem_children child)
    refine ⟨grows.kind inside, ?_, ?_⟩
    · rw [Tree.textOf, grows.span inside, text]
      exact Prints.slice_group kind h
    · rw [grows.children inside]
      exact showsAll_outlinesOf grows text below parts h children

/-- The branches of phrases in a row show their groups. -/
theorem showsAll_outlinesOf (grows : t.Grows r) (text : t.text = l.text) {us vs : List Word}
    (next : Nat) : (ps : List Phrase) → l.Prints (us ++ Phrase.wordsOf ps ++ vs) →
      (∀ b ∈ l.branchesOf next (outlinesOf us.length ps), b ∈ r.all) →
        t.ShowsAll ((l.branchesOf next (outlinesOf us.length ps)).map Branch.id) ps
  | [], _, _ => rfl
  | p :: ps, h, inside => by
    have split : outlinesOf us.length (p :: ps)
        = outlines us.length p ++ outlinesOf (us.length + p.words.length) ps := rfl
    have words : Phrase.wordsOf (p :: ps) = p.words ++ Phrase.wordsOf ps := rfl
    rw [split, branchesOf_append] at inside ⊢
    have first : l.Prints (us ++ p.words ++ (Phrase.wordsOf ps ++ vs)) := by
      rw [words] at h
      simpa using h
    have behind : l.Prints ((us ++ p.words) ++ Phrase.wordsOf ps ++ vs) := by
      rw [words] at h
      simpa using h
    have rest := showsAll_outlinesOf grows text _ ps behind fun b mem =>
      inside b (List.mem_append_right _ (by rwa [List.length_append] at mem))
    rw [List.length_append] at rest
    cases p with
    | word w => exact rest
    | group kind parts =>
      obtain ⟨b, eq⟩ : ∃ b, l.branchesOf next (outlines us.length (.group kind parts)) = [b] := by
        obtain ⟨id, below, eq⟩ := first.branchesOf_group next us.length kind parts
        exact ⟨_, eq⟩
      have mem : b ∈ l.branchesOf next (outlines us.length (.group kind parts)) := by
        rw [eq]
        exact List.mem_singleton.mpr rfl
      have head := shows_group grows text (.group kind parts) first mem
        (inside _ (List.mem_append_left _ mem))
      rw [eq] at rest ⊢
      exact ⟨b.id, _, rfl, head, rest⟩

end

/-- The tree of a printed phrase shows it below its root. -/
theorem Prints.shows_root {ws : List Word} {p : Phrase} {o : Outline} (h : l.Prints ws)
    (grows : t.Grows (l.root o)) (text : t.text = l.text) (words : Phrase.wordsOf [p] = ws)
    (outline : outlinesOf 0 [p] = [o]) : t.Shows t.root (.group .chunk [p]) := by
  have self := Branch.self_mem_all (l.root o)
  rw [grows.root_eq]
  refine ⟨grows.kind self, ?_, ?_⟩
  · have whole := Span.slice_whole l.text
    rw [h.text] at whole
    rw [Tree.textOf, grows.span self, Phrase.text, Phrase.words, words, text, root, Branch.span,
      h.text, whole]
  · have below : (l.root o).children = l.branchesOf 0 (outlinesOf 0 [p]) := by
      rw [outline, branchesOf_singleton]
      rfl
    rw [grows.children self, below]
    have all : l.Prints ([] ++ Phrase.wordsOf [p] ++ []) := by
      rw [List.append_nil, List.nil_append, words]
      exact h
    refine showsAll_outlinesOf grows text 0 [p] all fun b mem => ?_
    rw [List.length_nil, ← below] at mem
    exact Branch.mem_all_of_mem_children mem

end Layout

/-- Printed with a semicolon behind every statement, a program in which every operand that needs
parentheses has them and which does not nest too deep is read without an error, and its tree is the
program.  The text has to be so short that every place of it has an offset of its own. -/
theorem Parsed.ofText_program {ss : List Stat} (grouped : Stat.GroupedAll ss)
    (shallow : Stat.nestingAll ss ≤ maxNesting)
    (small : (Stat.program ss).text.utf8ByteSize < offsetCount) :
    (Parsed.ofText (Stat.program ss).text).errors = [] ∧
      (Parsed.ofText (Stat.program ss).text).tree.Shows
        (Parsed.ofText (Stat.program ss).text).tree.root (.group .chunk [Stat.program ss]) := by
  obtain ⟨o, outline⟩ : ∃ o, Phrase.outlinesOf 0 [Stat.program ss] = [o] := ⟨_, rfl⟩
  have words : Phrase.wordsOf [Stat.program ss] = (Stat.program ss).words := List.append_nil _
  rw [Phrase.text, ← words] at small ⊢
  have errors := errors_ofTextWithin maxNesting (Word.spaced (Phrase.wordsOf [Stat.program ss]))
  have grows := grows_root maxNesting small
  generalize printed : Phrase.wordsOf [Stat.program ss] = ws at small errors grows ⊢
  have prints := Layout.prints_ofLexed small
  have invalid : (Lexed.ofText (Word.spaced ws)).invalid = #[] := by
    rw [Word.spaced_eq]
    exact Lexed.invalid_joined rfl ws
  have tokens : ((Lexed.ofText (Word.spaced ws)).lexemes.map Lexeme.token).toList
      = Phrase.tokens [Stat.program ss] := by
    rw [Array.toList_map, show (Lexed.ofText (Word.spaced ws)).lexemes.toList = _ from
      prints.lexemes, Word.map_token_lexemes, ← printed]
    rfl
  have program : Program.ofTokens maxNesting (Phrase.tokens [Stat.program ss]) = ⟨o, []⟩ :=
    Program.ofTokens_eq grouped shallow ⟨(List.append_nil _).symm, outline.symm, rfl⟩
  rw [tokens, program] at errors grows
  rw [invalid] at errors
  exact ⟨errors, prints.shows_root grows rfl printed outline⟩

/-- `local x = ( 0 + 0 ) * 0 ; return x ;` -/
def Stat.scaledSum : List Stat :=
  let zero : Exp := .literal ⟨Token.number.word, rfl⟩
  let x : Name := ⟨Token.name.word, rfl⟩
  let sum : Exp := .binary zero ⟨Token.plus.word, 10, 10, rfl⟩ zero
  [.locals ⟨x, none⟩ [] [.binary (.suffixed (.paren sum)) ⟨Token.star.word, 11, 11, rfl⟩ zero],
    .returns [.suffixed (.name x)] true]

theorem Parsed.ofText_scaledSum :
    Stat.GroupedAll Stat.scaledSum ∧ Stat.nestingAll Stat.scaledSum ≤ maxNesting
      ∧ (Stat.program Stat.scaledSum).text.utf8ByteSize < offsetCount
      ∧ (Parsed.ofText (Stat.program Stat.scaledSum).text).errors = []
      ∧ (Parsed.ofText (Stat.program Stat.scaledSum).text).tree.Shows
          (Parsed.ofText (Stat.program Stat.scaledSum).text).tree.root
          (.group .chunk [Stat.program Stat.scaledSum]) := by
  have grouped : Stat.GroupedAll Stat.scaledSum := by
    simp [Stat.scaledSum, Stat.GroupedAll, Stat.Grouped, Exp.GroupedAll, Exp.Grouped,
      Suffixed.Grouped, Exp.BareBefore, Exp.BareBehind]
  have shallow : Stat.nestingAll Stat.scaledSum ≤ maxNesting := by decide
  have small : (Stat.program Stat.scaledSum).text.utf8ByteSize < offsetCount := by decide +kernel
  exact ⟨grouped, shallow, small, Parsed.ofText_program grouped shallow small⟩

end LuaTyping
