import LuaTyping.Token.Lexer
import LuaTyping.Proofs.Syntax.Outline

/-!
# Words and phrases

A `Word` is a token together with a text that is this token and nothing else.  A `Phrase` is a tree
over words in which nothing of the text is left out: below a node stand its subtrees, and between
them the words that have no node of their own.

From a phrase everything can be read off that the parser has to do with it: its words, and the
outline it has when it begins at a given token.  `Phrase.Spans` holds both together, in the form in
which the steps of the parser are described.

* `Token.word`: every token has a word.
* `Phrase.spans_plain`, `Phrase.spans_statement`: the outlines of a group, mark by mark.
* `Phrase.wrap_outlinesOf`: a wrapped list takes exactly the words of its phrases.
-/

namespace LuaTyping

/-! ## Words -/

/-- One way to write a token; there is no other but for names and literals. -/
def Token.spelling : Token → String
  | .andKw => "and" | .breakKw => "break" | .doKw => "do" | .elseKw => "else"
  | .elseifKw => "elseif" | .endKw => "end" | .falseKw => "false" | .forKw => "for"
  | .functionKw => "function" | .gotoKw => "goto" | .ifKw => "if" | .inKw => "in"
  | .localKw => "local" | .nilKw => "nil" | .notKw => "not" | .orKw => "or"
  | .repeatKw => "repeat" | .returnKw => "return" | .thenKw => "then" | .trueKw => "true"
  | .untilKw => "until" | .whileKw => "while"
  | .plus => "+" | .minus => "-" | .star => "*" | .slash => "/" | .doubleSlash => "//"
  | .percent => "%" | .caret => "^" | .hash => "#" | .ampersand => "&" | .tilde => "~"
  | .pipe => "|" | .shiftLeft => "<<" | .shiftRight => ">>" | .equal => "==" | .notEqual => "~="
  | .lessEqual => "<=" | .greaterEqual => ">=" | .less => "<" | .greater => ">" | .assign => "="
  | .leftParen => "(" | .rightParen => ")" | .leftBrace => "\x7b" | .rightBrace => "\x7d"
  | .leftBracket => "[" | .rightBracket => "]" | .doubleColon => "::" | .semicolon => ";"
  | .colon => ":" | .comma => "," | .dot => "." | .concat => ".." | .ellipsis => "..."
  | .name => "x" | .number => "0" | .quoted => "\"\"" | .longString => "[[]]"

/-- A token and a text that is just this token. -/
structure Word where
  token : Token
  text : String
  lexes : Lexer.pieces text.toList = #[⟨.token token, text.toList⟩]

theorem Token.lexes_spelling (t : Token) :
    Lexer.pieces t.spelling.toList = #[⟨.token t, t.spelling.toList⟩] := by
  cases t <;> decide +kernel

/-- A token as it is usually written. -/
def Token.word (t : Token) : Word := ⟨t, t.spelling, t.lexes_spelling⟩

@[simp] theorem Token.token_word (t : Token) : t.word.token = t := rfl

/-! ## Phrases -/

/-- A tree of node kinds over words. -/
inductive Phrase
  | word (w : Word)
  | group (kind : NodeKind) (parts : List Phrase)

namespace Phrase

mutual

/-- The words of a phrase, in order. -/
def words : Phrase → List Word
  | word w => [w]
  | group _ parts => wordsOf parts
termination_by structural p => p

/-- The words of phrases in a row. -/
def wordsOf : List Phrase → List Word
  | [] => []
  | p :: ps => p.words ++ wordsOf ps
termination_by structural ps => ps

end

/-- The number of words of phrases in a row. -/
def count (ps : List Phrase) : Nat := (wordsOf ps).length

/-- The tokens of phrases in a row. -/
def tokens (ps : List Phrase) : List Token := (wordsOf ps).map Word.token

/-- Where a group of `n` words begins that stands at token `i`: a statement begins with its doc
comment, and a block with its first statement. -/
def firstMark (kind : NodeKind) (i n : Nat) : Nat :=
  if kind.isStatement ∨ (kind = .block ∧ 0 < n) then Mark.doc i else Mark.start i

/-- Where a group of `n` words ends that stands at token `i`. -/
def lastMark (kind : NodeKind) (i n : Nat) : Nat :=
  max (Mark.stopBefore (i + n)) (firstMark kind i n)

/-- The doc slot of a statement. -/
def docSlot (kind : NodeKind) (i : Nat) : List Outline :=
  if kind.isStatement then [.doc i] else []

mutual

/-- The outline of a phrase that stands at token `i`; a word of its own has none. -/
def outlines (i : Nat) : Phrase → List Outline
  | word _ => []
  | group kind parts =>
    [.node kind (firstMark kind i (count parts)) (lastMark kind i (count parts))
      (docSlot kind i ++ outlinesOf i parts)]
termination_by structural p => p

/-- The outlines of phrases in a row, the first of which stands at token `i`. -/
def outlinesOf (i : Nat) : List Phrase → List Outline
  | [] => []
  | p :: ps => outlines i p ++ outlinesOf (i + p.words.length) ps
termination_by structural ps => ps

end

/-- Separated by commas, each comma in front of the phrase that it is followed by. -/
def commaTail : List Phrase → List Phrase
  | [] => []
  | p :: ps => word Token.comma.word :: p :: commaTail ps

/-- Separated by commas. -/
def commaList : List Phrase → List Phrase
  | [] => []
  | p :: ps => p :: commaTail ps

section Counting

variable {p : Phrase} {ps qs : List Phrase} {w : Word} {kind : NodeKind} {i : Nat}

@[simp] theorem wordsOf_append : wordsOf (ps ++ qs) = wordsOf ps ++ wordsOf qs := by
  induction ps with
  | nil => rfl
  | cons p ps ih => rw [List.cons_append, wordsOf, wordsOf, ih, List.append_assoc]

@[simp] theorem count_nil : count [] = 0 := rfl

@[simp] theorem count_cons : count (p :: ps) = p.words.length + count ps := by
  rw [count, wordsOf, List.length_append, count]

@[simp] theorem count_append : count (ps ++ qs) = count ps + count qs := by
  rw [count, wordsOf_append, List.length_append, count, count]

@[simp] theorem length_words_word : (word w).words.length = 1 := rfl

@[simp] theorem length_words_group : (group kind ps).words.length = count ps := rfl

@[simp] theorem tokens_append : tokens (ps ++ qs) = tokens ps ++ tokens qs := by
  rw [tokens, wordsOf_append, List.map_append, tokens, tokens]

theorem tokens_nil : tokens [] = [] := rfl

theorem tokens_word_cons : tokens (word w :: ps) = w.token :: tokens ps := rfl

theorem tokens_group_cons : tokens (group kind ps :: qs) = tokens ps ++ tokens qs := List.map_append

theorem length_tokens : (tokens ps).length = count ps := List.length_map _

theorem outlinesOf_append :
    outlinesOf i (ps ++ qs) = outlinesOf i ps ++ outlinesOf (i + count ps) qs := by
  induction ps generalizing i with
  | nil => rfl
  | cons p ps ih =>
    rw [List.cons_append, outlinesOf, outlinesOf, ih, count_cons, List.append_assoc,
      Nat.add_assoc]

end Counting

/-! ## Phrases among tokens -/

/-- The phrases `ps` are the tokens of `ts` up to `us`, from token `i` to token `j`, and have the
outlines `os` there. -/
structure Spans (ps : List Phrase) (i : Nat) (ts : List Token) (os : List Outline) (j : Nat)
    (us : List Token) : Prop where
  tokens_eq : ts = tokens ps ++ us
  outlines_eq : os = outlinesOf i ps
  stop_eq : j = i + count ps

section Spans

variable {p : Phrase} {ps qs parts : List Phrase} {w : Word} {kind : NodeKind} {i j k : Nat}
  {ts us vs : List Token} {os os' : List Outline} {o : Outline}

theorem spans_nil : Spans [] i ts os j us ↔ us = ts ∧ os = [] ∧ j = i := by
  constructor
  · rintro ⟨rfl, rfl, rfl⟩
    exact ⟨rfl, rfl, rfl⟩
  · rintro ⟨rfl, rfl, rfl⟩
    exact ⟨rfl, rfl, rfl⟩

theorem spans_append :
    Spans (ps ++ qs) i ts os k vs ↔
      ∃ os₁ j us os₂, Spans ps i ts os₁ j us ∧ Spans qs j us os₂ k vs ∧ os = os₁ ++ os₂ := by
  constructor
  · rintro ⟨rfl, rfl, rfl⟩
    refine ⟨_, _, _, _, ⟨?_, rfl, rfl⟩, ⟨rfl, rfl, ?_⟩, outlinesOf_append⟩
    · rw [tokens_append, List.append_assoc]
    · rw [count_append, Nat.add_assoc]
  · rintro ⟨os₁, j, us, os₂, ⟨rfl, rfl, rfl⟩, ⟨rfl, rfl, rfl⟩, rfl⟩
    refine ⟨?_, outlinesOf_append.symm, ?_⟩
    · rw [tokens_append, List.append_assoc]
    · rw [count_append, Nat.add_assoc]

theorem spans_cons :
    Spans (p :: ps) i ts os k vs ↔
      ∃ os₁ j us os₂, Spans [p] i ts os₁ j us ∧ Spans ps j us os₂ k vs ∧ os = os₁ ++ os₂ := by
  rw [← List.singleton_append, spans_append]

/-- A word in front of phrases. -/
theorem spans_word_cons :
    Spans (word w :: ps) i ts os j us ↔
      ∃ ts', ts = w.token :: ts' ∧ Spans ps (i + 1) ts' os j us := by
  rw [spans_cons]
  constructor
  · rintro ⟨os₁, j', us', os₂, ⟨rfl, rfl, rfl⟩, rest, rfl⟩
    exact ⟨us', rfl, rest⟩
  · rintro ⟨ts', rfl, rest⟩
    exact ⟨[], i + 1, ts', os, ⟨rfl, rfl, rfl⟩, rest, rfl⟩

theorem Spans.append (h : Spans ps i ts os j us) (h' : Spans qs j us os' k vs) :
    Spans (ps ++ qs) i ts (os ++ os') k vs :=
  spans_append.mpr ⟨os, j, us, os', h, h', rfl⟩

@[simp] theorem spans_word :
    Spans [word w] i ts os j us ↔ ts = w.token :: us ∧ os = [] ∧ j = i + 1 := by
  constructor
  · rintro ⟨rfl, rfl, rfl⟩
    exact ⟨rfl, rfl, rfl⟩
  · rintro ⟨rfl, rfl, rfl⟩
    exact ⟨rfl, rfl, rfl⟩

theorem Spans.word (w : Word) : Spans [.word w] i (w.token :: us) [] (i + 1) us :=
  spans_word.mpr ⟨rfl, rfl, rfl⟩

/-- A group has one outline, over the outlines of its parts. -/
theorem spans_group :
    Spans [group kind parts] i ts os j us ↔
      ∃ os', Spans parts i ts os' j us ∧
        os = [.node kind (firstMark kind i (j - i))
          (max (Mark.stopBefore j) (firstMark kind i (j - i))) (docSlot kind i ++ os')] := by
  constructor
  · rintro ⟨rfl, rfl, rfl⟩
    have stop : count [group kind parts] = count parts := by simp
    refine ⟨outlinesOf i parts, ⟨?_, rfl, by rw [stop]⟩, ?_⟩
    · simp only [tokens, wordsOf, words, List.append_nil]
    · simp only [outlinesOf, outlines, lastMark, List.append_nil, stop, Nat.add_sub_cancel_left]
  · rintro ⟨_, ⟨rfl, rfl, rfl⟩, rfl⟩
    refine ⟨?_, ?_, by simp⟩
    · simp only [tokens, wordsOf, words, List.append_nil]
    · simp only [outlinesOf, outlines, lastMark, List.append_nil, Nat.add_sub_cancel_left]

/-- A group that is neither statement nor block begins with its first word. -/
theorem spans_plain (notStat : kind.isStatement = false) (notBlock : kind ≠ .block) :
    Spans [group kind parts] i ts os j us ↔
      ∃ os', Spans parts i ts os' j us ∧
        os = [.node kind (Mark.start i) (max (Mark.stopBefore j) (Mark.start i)) os'] := by
  simp [spans_group, firstMark, docSlot, notStat, notBlock]

/-- A statement begins with its doc slot. -/
theorem spans_statement (stat : kind.isStatement = true) :
    Spans [group kind parts] i ts os j us ↔
      ∃ os', Spans parts i ts os' j us ∧
        os = [.node kind (Mark.doc i) (max (Mark.stopBefore j) (Mark.doc i)) (.doc i :: os')] := by
  simp [spans_group, firstMark, docSlot, stat]

theorem Spans.plain (h : Spans parts i ts os j us) (kind : NodeKind)
    (notStat : kind.isStatement = false) (notBlock : kind ≠ .block) :
    Spans [group kind parts] i ts
      [.node kind (Mark.start i) (max (Mark.stopBefore j) (Mark.start i)) os] j us :=
  (spans_plain notStat notBlock).mpr ⟨os, h, rfl⟩

theorem Spans.statement (h : Spans parts i ts os j us) (kind : NodeKind)
    (stat : kind.isStatement = true) :
    Spans [group kind parts] i ts
      [.node kind (Mark.doc i) (max (Mark.stopBefore j) (Mark.doc i)) (.doc i :: os)] j us :=
  (spans_statement stat).mpr ⟨os, h, rfl⟩

theorem stopBefore_succ (i : Nat) : Mark.stopBefore (i + 1) = Mark.stop i := by
  simp only [Mark.stopBefore, Mark.stop]
  omega

/-- A node of one word. -/
theorem spans_leaf (notStat : kind.isStatement = false) (notBlock : kind ≠ .block) :
    Spans [group kind [.word w]] i ts os j us ↔
      ts = w.token :: us ∧ os = [.leaf kind i] ∧ j = i + 1 := by
  have last : max (Mark.stopBefore (i + 1)) (Mark.start i) = Mark.stop i := by
    simp only [stopBefore_succ, Mark.stop, Mark.start]
    omega
  rw [spans_plain notStat notBlock]
  constructor
  · rintro ⟨os', spans, rfl⟩
    obtain ⟨rfl, rfl, rfl⟩ := spans_word.mp spans
    rw [last]
    exact ⟨rfl, rfl, rfl⟩
  · rintro ⟨rfl, rfl, rfl⟩
    refine ⟨[], Spans.word w, ?_⟩
    rw [last]
    rfl

theorem Spans.leaf (kind : NodeKind) (w : Word) (notStat : kind.isStatement = false)
    (notBlock : kind ≠ .block) :
    Spans [group kind [.word w]] i (w.token :: us) [.leaf kind i] (i + 1) us :=
  (spans_leaf notStat notBlock).mpr ⟨rfl, rfl, rfl⟩

/-- What is read lies between the tokens ahead before and after. -/
theorem Spans.le (h : Spans ps i ts os j us) : i ≤ j := by
  rw [h.stop_eq]
  exact Nat.le_add_right i _

end Spans

/-! ## Wrapped lists -/

/-- A group with at least one word that is neither statement nor block. -/
def Plain : Phrase → Prop
  | word _ => False
  | group kind parts => kind.isStatement = false ∧ kind ≠ .block ∧ 0 < count parts

/-- A statement: a group of a statement's kind with at least one word. -/
def IsStatement : Phrase → Prop
  | word _ => False
  | group kind parts => kind.isStatement = true ∧ 0 < count parts

/-- A group with at least one word. -/
def Solid : Phrase → Prop
  | word _ => False
  | group _ parts => 0 < count parts

theorem Plain.solid {p : Phrase} (h : p.Plain) : p.Solid := by
  cases p with
  | word => exact h
  | group => exact h.2.2

theorem IsStatement.solid {p : Phrase} (h : p.IsStatement) : p.Solid := by
  cases p with
  | word => exact h
  | group => exact h.2

theorem foldl_min_first {m : Nat} {os : List Outline} (h : ∀ o ∈ os, m ≤ o.first) :
    os.foldl (fun m t => min m t.first) m = m := by
  induction os with
  | nil => rfl
  | cons o os ih =>
    have head := h o List.mem_cons_self
    rw [List.foldl_cons, Nat.min_eq_left head]
    exact ih fun o' mem => h o' (List.mem_cons_of_mem _ mem)

theorem foldl_max_last {m n : Nat} {os : List Outline} (bound : ∀ o ∈ os, o.last ≤ n)
    (below : m ≤ n) (reached : m = n ∨ ∃ o ∈ os, o.last = n) :
    os.foldl (fun m t => max m t.last) m = n := by
  induction os generalizing m with
  | nil => simpa using reached
  | cons o os ih =>
    have head := bound o List.mem_cons_self
    rw [List.foldl_cons]
    refine ih (fun o' mem => bound o' (List.mem_cons_of_mem _ mem))
      (Nat.max_le.mpr ⟨below, head⟩) ?_
    rcases reached with rfl | ⟨o', mem, rfl⟩
    · exact .inl (Nat.max_eq_left head)
    · rcases List.mem_cons.mp mem with rfl | mem
      · exact .inl (Nat.max_eq_right below)
      · exact .inr ⟨o', mem, rfl⟩

section Wrap

variable {p : Phrase} {ps : List Phrase} {i : Nat}

/-- What the outline of a solid phrase begins and ends with. -/
theorem outlines_of_solid (h : p.Solid) :
    ∃ o, p.outlines i = [o] ∧ Mark.doc i ≤ o.first ∧ o.first ≤ Mark.start i
      ∧ o.last = Mark.stopBefore (i + p.words.length) := by
  cases p with
  | word w => exact absurd h id
  | group kind parts =>
    have positive : 0 < count parts := h
    refine ⟨_, rfl, ?_, ?_, ?_⟩
    · simp only [Outline.first, firstMark, Mark.doc, Mark.start]
      split <;> omega
    · simp only [Outline.first, firstMark, Mark.doc, Mark.start]
      split <;> omega
    · simp only [Outline.last, lastMark, firstMark, Mark.stopBefore, Mark.doc, Mark.start,
        length_words_group]
      split <;> omega

/-- Groups and words in a row, of which the last is a group. -/
inductive Row : List Phrase → Prop
  | last {p : Phrase} : p.Solid → Row [p]
  | solid {p : Phrase} {ps : List Phrase} : p.Solid → Row ps → Row (p :: ps)
  | word {w : Word} {ps : List Phrase} : Row ps → Row (word w :: ps)

theorem row_commaTail (ne : ps ≠ []) (solid : ∀ p ∈ ps, p.Solid) : Row (commaTail ps) := by
  induction ps with
  | nil => exact absurd rfl ne
  | cons p ps ih =>
    have head := solid p List.mem_cons_self
    refine .word ?_
    cases ps with
    | nil => exact .last head
    | cons q ps =>
      exact .solid head
        (ih (List.cons_ne_nil q ps) fun r mem => solid r (List.mem_cons_of_mem _ mem))

/-- The outlines of a row lie within its words, and one of them ends with the last word. -/
theorem Row.bounds (h : Row ps) :
    (∀ o ∈ outlinesOf i ps, Mark.doc i ≤ o.first ∧ o.last ≤ Mark.stopBefore (i + count ps))
      ∧ ∃ o ∈ outlinesOf i ps, o.last = Mark.stopBefore (i + count ps) := by
  induction h generalizing i with
  | @last p solid =>
    obtain ⟨o, eq, first, -, last⟩ := outlines_of_solid (i := i) solid
    have only : outlinesOf i [p] = [o] := by rw [outlinesOf, eq, outlinesOf, List.append_nil]
    rw [only, count_cons, count_nil, Nat.add_zero, ← last]
    refine ⟨?_, o, List.mem_singleton.mpr rfl, rfl⟩
    intro o' mem
    rw [List.mem_singleton.mp mem]
    exact ⟨first, Nat.le_refl _⟩
  | @solid p ps solid _ ih =>
    obtain ⟨o, eq, first, -, last⟩ := outlines_of_solid (i := i) solid
    obtain ⟨within, reached⟩ := ih (i := i + p.words.length)
    rw [outlinesOf, eq, count_cons, ← Nat.add_assoc]
    constructor
    · intro o' mem
      rcases List.mem_append.mp mem with mem | mem
      · rw [List.mem_singleton.mp mem, last]
        refine ⟨first, ?_⟩
        simp only [Mark.stopBefore]
        omega
      · obtain ⟨first', last'⟩ := within o' mem
        refine ⟨?_, last'⟩
        simp only [Mark.doc] at first' ⊢
        omega
    · obtain ⟨o', mem, stop⟩ := reached
      exact ⟨o', List.mem_append_right _ mem, stop⟩
  | @word w ps _ ih =>
    obtain ⟨within, reached⟩ := ih (i := i + 1)
    rw [outlinesOf, outlines, List.nil_append, length_words_word, count_cons, length_words_word,
      ← Nat.add_assoc]
    refine ⟨fun o mem => ?_, reached⟩
    obtain ⟨first, last⟩ := within o mem
    refine ⟨?_, last⟩
    simp only [Mark.doc] at first ⊢
    omega

/-- A row that starts with a group is wrapped into a node that takes exactly its words. -/
theorem wrap_outlinesOf {kind k : NodeKind} {parts : List Phrase} {fallback : Nat}
    (row : Row (group k parts :: ps)) (positive : 0 < count parts) :
    Outline.wrap kind (outlinesOf i (group k parts :: ps)) fallback
      = .node kind (firstMark k i (count parts))
          (Mark.stopBefore (i + count (group k parts :: ps)))
          (outlinesOf i (group k parts :: ps)) := by
  obtain ⟨within, reached⟩ := row.bounds (i := i)
  rw [outlinesOf, outlines, List.singleton_append, length_words_group] at within reached ⊢
  rw [Outline.wrap, Outline.first]
  have later : ∀ o ∈ outlinesOf (i + count parts) ps, firstMark k i (count parts) ≤ o.first := by
    intro o mem
    have bound : Mark.doc (i + count parts) ≤ o.first := by
      cases row with
      | last => exact absurd mem List.not_mem_nil
      | solid _ rest => exact ((rest.bounds (i := i + count parts)).1 o mem).1
    refine Nat.le_trans ?_ bound
    simp only [firstMark, Mark.doc, Mark.start]
    split <;> omega
  rw [foldl_min_first later]
  rw [foldl_max_last (n := Mark.stopBefore (i + count (group k parts :: ps)))
    (fun o mem => (within o (List.mem_cons_of_mem _ mem)).2) (within _ List.mem_cons_self).2]
  obtain ⟨o, mem, stop⟩ := reached
  rcases List.mem_cons.mp mem with rfl | mem
  · exact .inl stop
  · exact .inr ⟨o, mem, stop⟩

section Spans

variable {k kind : NodeKind} {parts : List Phrase} {fallback j : Nat} {ts us : List Token}
  {os : List Outline}

/-- A wrapped row is the outline of the group of its phrases. -/
theorem Spans.wrap_eq (h : Spans (group k parts :: ps) i ts os j us)
    (row : Row (group k parts :: ps)) (positive : 0 < count parts)
    (sameStart : firstMark kind i (j - i) = firstMark k i (count parts)) :
    Outline.wrap kind os fallback
      = .node kind (firstMark kind i (j - i))
          (max (Mark.stopBefore j) (firstMark kind i (j - i))) os := by
  obtain ⟨-, rfl, rfl⟩ := h
  have nonempty :
      firstMark k i (count parts) ≤ Mark.stopBefore (i + count (group k parts :: ps)) := by
    simp only [firstMark, count_cons, length_words_group, Mark.doc, Mark.start, Mark.stopBefore]
    split <;> omega
  rw [wrap_outlinesOf row positive, sameStart, Nat.max_eq_left nonempty]

/-- A list whose node is wrapped around its elements. -/
theorem spans_wrap {p : Phrase} (fallback : Nat) (row : Row (p :: ps)) (head : p.Plain)
    (notStat : kind.isStatement = false) (notBlock : kind ≠ .block) :
    Spans [group kind (p :: ps)] i ts os j us ↔
      ∃ os', Spans (p :: ps) i ts os' j us ∧ os = [.wrap kind os' fallback] := by
  cases p with
  | word w => exact absurd head id
  | group k parts =>
    obtain ⟨headNotStat, headNotBlock, positive⟩ := head
    rw [spans_plain notStat notBlock]
    refine exists_congr fun os' => and_congr_right fun spans => ?_
    have starts : firstMark kind i (j - i) = Mark.start i := by
      simp [firstMark, notStat, notBlock]
    have startsElement : firstMark k i (count parts) = Mark.start i := by
      simp [firstMark, headNotStat, headNotBlock]
    rw [spans.wrap_eq row positive (starts.trans startsElement.symm), starts]

theorem Spans.wrap {p : Phrase} (h : Spans (p :: ps) i ts os j us) (kind : NodeKind)
    (fallback : Nat) (row : Row (p :: ps)) (head : p.Plain) (notStat : kind.isStatement = false)
    (notBlock : kind ≠ .block) :
    Spans [group kind (p :: ps)] i ts [.wrap kind os fallback] j us :=
  (spans_wrap fallback row head notStat notBlock).mpr ⟨os, h, rfl⟩

theorem row_of_solid (ne : ps ≠ []) (solid : ∀ p ∈ ps, p.Solid) : Row ps := by
  induction ps with
  | nil => exact absurd rfl ne
  | cons p ps ih =>
    have head := solid p List.mem_cons_self
    cases ps with
    | nil => exact .last head
    | cons q ps =>
      exact .solid head
        (ih (List.cons_ne_nil q ps) fun r mem => solid r (List.mem_cons_of_mem _ mem))

/-- A block is wrapped around its statements. -/
theorem spans_block (stats : ∀ p ∈ ps, p.IsStatement) :
    Spans [group .block ps] i ts os j us ↔
      ∃ os', Spans ps i ts os' j us ∧ os = [.wrap .block os' (Mark.start i)] := by
  rw [spans_group]
  have slot : docSlot .block i = [] := rfl
  refine exists_congr fun os' => and_congr_right fun spans => ?_
  rw [slot, List.nil_append]
  cases ps with
  | nil =>
    obtain ⟨-, rfl, rfl⟩ := spans_nil.mp spans
    have starts : firstMark .block j (j - j) = Mark.start j := by
      simp [firstMark, NodeKind.isStatement]
    have stops : max (Mark.stopBefore j) (Mark.start j) = Mark.start j := by
      simp only [Mark.stopBefore, Mark.start]
      omega
    rw [starts, stops]
    rfl
  | cons p ps =>
    have head := stats p List.mem_cons_self
    cases p with
    | word => exact absurd head id
    | group k parts =>
      have row := row_of_solid (List.cons_ne_nil _ _) fun q mem => (stats q mem).solid
      have taken : 0 < j - i := by
        rw [spans.stop_eq, count_cons, length_words_group]
        have := head.2
        omega
      have sameStart : firstMark .block i (j - i) = firstMark k i (count parts) := by
        simp [firstMark, head.1, taken]
      rw [spans.wrap_eq row head.2 sameStart]

end Spans

end Wrap

end Phrase

end LuaTyping
