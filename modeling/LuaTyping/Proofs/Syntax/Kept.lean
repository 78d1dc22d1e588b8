import LuaTyping.Syntax.Parse
import LuaTyping.Proofs.Syntax.Sites

/-!
# Names, literals and operators are kept

A text without faults is the text of some statements, and its tree is that of their phrase.  In the
phrase every name, every literal and every operator has a group of its own, whatever form it
belongs to, but for what stands in the attribute of a local name: there the name and the angle
brackets around it, which are operators elsewhere, are words of the attribute.  And nothing else has
a group of such a kind.

So a walk over the tree meets these tokens one by one, each at its place, and in the order of the
text.

* `Token.hasNode`: the tokens in question.
* `Phrase.Kept`: what is said of a phrase; `Stat.kept_phrase`: it holds of every statement.
* `Phrase.Kept.words`: the groups of single words are the tokens in question, one by one.
* `Parsed.word_nodes_eq_tokens`: the same of the tree of a text.
-/

namespace LuaTyping

open Phrase

/-- A token that has a node of its own: a name, a literal or an operator. -/
def Token.hasNode (t : Token) : Bool :=
  t == .name || t.isLiteral || t.isUnary || t.binaryPowers.isSome

namespace Phrase

mutual

/-- Every name, literal and operator of the phrase is a node of its own or stands in an attribute,
and nothing else is such a node. -/
def Kept : Phrase → Prop
  | word w => w.token.hasNode = false
  | group kind parts =>
    if kind.isWord = true then ∃ w, parts = [word w] ∧ w.token.hasNode = true
    else if kind = .attrib then ∀ p ∈ parts, ∃ w, p = word w
    else KeptAll parts
termination_by structural p => p

def KeptAll : List Phrase → Prop
  | [] => True
  | p :: ps => p.Kept ∧ KeptAll ps
termination_by structural ps => ps

end

section Groups

variable {kind : NodeKind} {p : Phrase} {ps qs stats : List Phrase}

theorem kept_word (w : Word) : (word w).Kept ↔ w.token.hasNode = false := Iff.rfl

@[simp] theorem kept_key (t : Token) : (key t).Kept ↔ t.hasNode = false := Iff.rfl

@[simp] theorem keptAll_nil : KeptAll [] := trivial

@[simp] theorem keptAll_cons : KeptAll (p :: ps) ↔ p.Kept ∧ KeptAll ps := Iff.rfl

@[simp] theorem keptAll_append : KeptAll (ps ++ qs) ↔ KeptAll ps ∧ KeptAll qs := by
  induction ps with
  | nil => simp
  | cons p ps ih => rw [List.cons_append, keptAll_cons, keptAll_cons, ih, and_assoc]

theorem keptAll_of_forall (each : ∀ q ∈ ps, q.Kept) : KeptAll ps := by
  induction ps with
  | nil => trivial
  | cons p ps ih =>
    obtain ⟨head, tail⟩ := List.forall_mem_cons.mp each
    exact ⟨head, ih tail⟩

theorem kept_group (notWord : kind.isWord = false) (notAttrib : kind ≠ .attrib) :
    (group kind ps).Kept ↔ KeptAll ps := by
  rw [Kept, notWord, if_neg Bool.false_ne_true, if_neg notAttrib]

theorem kept_leaf (isWord : kind.isWord = true) {w : Word} (content : w.token.hasNode = true) :
    (leaf kind w).Kept := by
  rw [leaf, Kept, if_pos isWord]
  exact ⟨w, rfl, content⟩

theorem kept_ofName (isWord : kind.isWord = true) (n : Name) : (ofName kind n).Kept :=
  kept_leaf isWord (by rw [n.isName]; rfl)

theorem kept_literal (text : Literal) : (leaf .literal text.word).Kept :=
  kept_leaf rfl (by simp [Token.hasNode, text.isLiteral])

theorem kept_string (text : StringText) : (leaf .literal text.word).Kept := by
  have string := text.isString
  refine kept_leaf rfl ?_
  cases token : text.word.token <;> first
    | rfl
    | exact absurd string (by rw [token]; decide)

theorem kept_unary (op : UnaryOp) : (leaf .operator op.word).Kept :=
  kept_leaf rfl (by simp [Token.hasNode, op.isUnary])

theorem kept_binary (op : BinaryOp) : (leaf .operator op.word).Kept :=
  kept_leaf rfl (by simp [Token.hasNode, op.powers])

@[simp] theorem keptAll_commaTail : KeptAll (commaTail ps) ↔ KeptAll ps := by
  have comma : (word Token.comma.word).Kept := rfl
  induction ps with
  | nil => rfl
  | cons p ps ih => simp [commaTail, ih, comma]

@[simp] theorem keptAll_commaList : KeptAll (commaList ps) ↔ KeptAll ps := by
  cases ps with
  | nil => rfl
  | cons p ps => simp [commaList]

@[simp] theorem kept_value : (value p).Kept ↔ p.Kept := by
  simp +decide [value, kept_group]

@[simp] theorem kept_tableOf : (tableOf ps).Kept ↔ KeptAll ps := by
  simp +decide [tableOf, kept_group]

@[simp] theorem kept_call {callee args : Phrase} :
    (call callee args).Kept ↔ callee.Kept ∧ args.Kept := by
  simp +decide [call, kept_group]

@[simp] theorem kept_methodCall {e args : Phrase} (n : Name) :
    (methodCall e n args).Kept ↔ e.Kept ∧ args.Kept := by
  simp +decide [methodCall, kept_group, kept_ofName]

@[simp] theorem kept_exprList : (exprList ps).Kept ↔ KeptAll ps := by
  simp +decide [exprList, kept_group]

@[simp] theorem keptAll_initializer : KeptAll (initializer ps) ↔ KeptAll ps := by
  cases ps with
  | nil => rfl
  | cons p ps => simp +decide [initializer]

@[simp] theorem kept_funcBody (params : Params) :
    (funcBody params stats).Kept ↔ KeptAll stats := by
  have elements : KeptAll (paramsOf params) := by
    refine keptAll_append.mpr ⟨keptAll_of_forall fun q mem => ?_, ?_⟩
    · obtain ⟨n, -, rfl⟩ := List.mem_map.mp mem
      exact kept_ofName rfl n
    · split
      · exact ⟨kept_leaf rfl rfl, trivial⟩
      · trivial
  simp +decide [funcBody, kept_group, elements]

@[simp] theorem keptAll_loopBody : KeptAll (loopBody stats) ↔ KeptAll stats := by
  simp +decide [loopBody, kept_group]

@[simp] theorem keptAll_localName (n : LocalName) : KeptAll (localName n) := by
  rw [localName, keptAll_cons]
  refine ⟨kept_ofName rfl n.name, ?_⟩
  split
  · trivial
  · refine ⟨?_, trivial⟩
    rw [Kept, if_neg (by decide), if_pos rfl]
    simp [key]

@[simp] theorem keptAll_localNamesTail (ns : List LocalName) : KeptAll (localNamesTail ns) := by
  induction ns with
  | nil => trivial
  | cons n ns ih => simp +decide [localNamesTail, ih]

@[simp] theorem kept_funcName (n : FuncName) : (funcName n).Kept := by
  rw [funcName, kept_group (by decide) (by decide), keptAll_cons, keptAll_append]
  refine ⟨kept_ofName rfl n.base, keptAll_of_forall fun q mem => ?_, ?_⟩
  · obtain ⟨f, -, mem⟩ := List.mem_flatMap.mp mem
    rcases List.mem_cons.mp mem with rfl | mem
    · rfl
    · rw [List.mem_singleton.mp mem]
      exact kept_ofName rfl f
  · split
    · trivial
    · exact ⟨rfl, kept_ofName rfl _, trivial⟩

end Groups

end Phrase

/-! ### Forms -/

mutual

theorem Exp.kept_phrase : (e : Exp) → e.phrase.Kept
  | .literal text => kept_value.mpr (kept_literal text)
  | .table fields => by
    have inner := fields.kept_phrases
    simp [Exp.phrase, inner]
  | .function params body => by
    have inner := Stat.kept_phrases body
    simp +decide [Exp.phrase, kept_group, inner]
  | .suffixed e => kept_value.mpr e.kept_phrase
  | .unary op e => by
    have operand := e.kept_phrase
    simp +decide [Exp.phrase, kept_group, kept_unary, operand]
  | .binary left op right => by
    have front := left.kept_phrase
    have back := right.kept_phrase
    simp +decide [Exp.phrase, kept_group, kept_binary, front, back]

theorem Exp.kept_phrases : (es : List Exp) → Phrase.KeptAll (Exp.phrases es)
  | [] => trivial
  | e :: es => ⟨e.kept_phrase, Exp.kept_phrases es⟩

theorem Suffixed.kept_phrase : (e : Suffixed) → e.phrase.Kept
  | .name n => kept_ofName rfl n
  | .paren e => by
    have inner := e.kept_phrase
    simp +decide [Suffixed.phrase, kept_group, inner]
  | .field e n => by
    have inner := e.kept_phrase
    simp +decide [Suffixed.phrase, kept_group, kept_ofName, inner]
  | .index e k => by
    have inner := e.kept_phrase
    have key := k.kept_phrase
    simp +decide [Suffixed.phrase, kept_group, inner, key]
  | .call e args => kept_call.mpr ⟨e.kept_phrase, args.kept_phrase⟩
  | .method e n args => (kept_methodCall n).mpr ⟨e.kept_phrase, args.kept_phrase⟩

theorem Suffixed.kept_phrases : (es : List Suffixed) → Phrase.KeptAll (Suffixed.phrases es)
  | [] => trivial
  | e :: es => ⟨e.kept_phrase, Suffixed.kept_phrases es⟩

theorem Args.kept_phrase : (args : Args) → args.phrase.Kept
  | .list es => by
    have elements := Exp.kept_phrases es
    simp +decide [Args.phrase, kept_group, elements]
  | .table fields => by
    have inner := fields.kept_phrases
    simp +decide [Args.phrase, kept_group, inner]
  | .string text => by simp +decide [Args.phrase, kept_group, kept_string]

theorem Fields.kept_phrases : (fields : Fields) → Phrase.KeptAll fields.phrases
  | .none => trivial
  | .last f => ⟨f.kept_phrase, trivial⟩
  | .more f separator rest => ⟨f.kept_phrase, by cases separator <;> rfl, rest.kept_phrases⟩

theorem Field.kept_phrase : (f : Field) → f.phrase.Kept
  | .keyed k v => by
    have key := k.kept_phrase
    have value := v.kept_phrase
    simp +decide [Field.phrase, kept_group, key, value]
  | .named n v => by
    have value := v.kept_phrase
    simp +decide [Field.phrase, kept_group, kept_ofName, value]
  | .positional v => by
    have value := v.kept_phrase
    simp +decide [Field.phrase, kept_group, value]

theorem Stat.kept_phrase : (s : Stat) → s.phrase.Kept
  | .empty => by simp +decide [Stat.phrase, kept_group]
  | .locals n ns values => by
    have elements := Exp.kept_phrases values
    simp +decide [Stat.phrase, kept_group, elements]
  | .localFunction n params body => by
    have inner := Stat.kept_phrases body
    simp +decide [Stat.phrase, kept_group, kept_ofName, inner]
  | .function name params body => by
    have inner := Stat.kept_phrases body
    simp +decide [Stat.phrase, kept_group, inner]
  | .returns values closed => by
    have elements := Exp.kept_phrases values
    cases values <;> cases closed <;>
      simp_all +decide [Stat.phrase, kept_group, Exp.phrases]
  | .block body => by
    have inner := Stat.kept_phrases body
    simp +decide [Stat.phrase, kept_group, inner]
  | .while condition body => by
    have guard := condition.kept_phrase
    have inner := Stat.kept_phrases body
    simp +decide [Stat.phrase, kept_group, guard, inner]
  | .repeat body condition => by
    have inner := Stat.kept_phrases body
    have guard := condition.kept_phrase
    simp +decide [Stat.phrase, kept_group, guard, inner]
  | .if condition body clauses => by
    have guard := condition.kept_phrase
    have inner := Stat.kept_phrases body
    have rest := clauses.kept_phrases
    simp +decide [Stat.phrase, kept_group, guard, inner, rest]
  | .numericFor n start stop stride body => by
    have first := start.kept_phrase
    have last := stop.kept_phrase
    have step := Exp.kept_stride stride
    have inner := Stat.kept_phrases body
    simp +decide [Stat.phrase, kept_group, kept_ofName, first, last, step, inner]
  | .genericFor n ns e es body => by
    have head := e.kept_phrase
    have values := Exp.kept_phrases es
    have inner := Stat.kept_phrases body
    have names : Phrase.KeptAll (ns.map (ofName .nameDef)) :=
      keptAll_of_forall fun q mem => by
        obtain ⟨m, -, rfl⟩ := List.mem_map.mp mem
        exact kept_ofName rfl m
    simp +decide [Stat.phrase, kept_group, kept_ofName, head, values, inner, names]
  | .break => by simp +decide [Stat.phrase, kept_group]
  | .goto n => by simp +decide [Stat.phrase, kept_group, kept_ofName]
  | .label n => by simp +decide [Stat.phrase, kept_group, kept_ofName]
  | .assign target targets trailing e es => by
    have first := target.kept_phrase
    have others := Suffixed.kept_phrases targets
    have head := e.kept_phrase
    have values := Exp.kept_phrases es
    cases trailing <;> simp +decide [Stat.phrase, kept_group, first, others, head, values]
  | .call e args => by
    have callee := e.kept_phrase
    have arguments := args.kept_phrase
    simp +decide [Stat.phrase, kept_group, callee, arguments]
  | .methodCall e n args => by
    have callee := e.kept_phrase
    have arguments := args.kept_phrase
    simp +decide [Stat.phrase, kept_group, callee, arguments]

theorem Stat.kept_phrases : (ss : List Stat) → Phrase.KeptAll (Stat.phrases ss)
  | [] => trivial
  | s :: ss => ⟨s.kept_phrase, Stat.kept_phrases ss⟩

theorem Exp.kept_stride : (stride : Option Exp) → Phrase.KeptAll (Exp.stridePhrases stride)
  | none => trivial
  | some e => ⟨rfl, e.kept_phrase, trivial⟩

theorem Clauses.kept_phrases : (clauses : Clauses) → Phrase.KeptAll clauses.phrases
  | .none => trivial
  | .else body => by
    have inner := Stat.kept_phrases body
    simp +decide [Clauses.phrases, kept_group, inner]
  | .elseif condition body rest => by
    have guard := condition.kept_phrase
    have inner := Stat.kept_phrases body
    have clauses := rest.kept_phrases
    simp +decide [Clauses.phrases, kept_group, guard, inner, clauses]

end

/-! ## Tokens of a phrase -/

namespace Phrase

/-- The token with this number is one of the words of an attribute. -/
def inAttrib (ss : List GroupAt) (k : Nat) : Bool :=
  ss.any fun s => s.kind == .attrib && decide (s.first ≤ k ∧ k < s.first + s.count)

theorem inAttrib_append (ss ss' : List GroupAt) (k : Nat) :
    inAttrib (ss ++ ss') k = (inAttrib ss k || inAttrib ss' k) := List.any_append

theorem inAttrib_eq_false {ss : List GroupAt} {k : Nat}
    (outside : ∀ s ∈ ss, ¬(s.first ≤ k ∧ k < s.first + s.count)) : inAttrib ss k = false := by
  refine List.any_eq_false.mpr fun s mem holds => outside s mem ?_
  exact of_decide_eq_true ((Bool.and_eq_true _ _).mp holds).2

/-- The tokens of a phrase at token `i` that have a node and do not stand in an attribute, with
their numbers. -/
def content (i : Nat) (ss : List GroupAt) (ts : List Token) : List (Token × Nat) :=
  (ts.zipIdx i).filter fun x => x.1.hasNode && !inAttrib ss x.2

theorem content_append {i : Nat} {ss ss' : List GroupAt} {ts us : List Token}
    (front : ∀ s ∈ ss, s.first + s.count ≤ i + ts.length)
    (back : ∀ s ∈ ss', i + ts.length ≤ s.first) :
    content i (ss ++ ss') (ts ++ us) = content i ss ts ++ content (i + ts.length) ss' us := by
  rw [content, List.zipIdx_append, List.filter_append, content, content]
  congr 1
  · refine List.filter_congr fun x mem => ?_
    have bound := (List.mem_zipIdx mem).2.1
    have none : inAttrib ss' x.2 = false := inAttrib_eq_false fun s inside => by
      have := back s inside
      omega
    rw [inAttrib_append, none, Bool.or_false]
  · refine List.filter_congr fun x mem => ?_
    have bound := (List.mem_zipIdx mem).1
    have none : inAttrib ss x.2 = false := inAttrib_eq_false fun s inside => by
      have := front s inside
      omega
    rw [inAttrib_append, none, Bool.false_or]

theorem sitesOf_words {i : Nat} {ps : List Phrase} (words : ∀ p ∈ ps, ∃ w, p = word w) :
    sitesOf i ps = [] := by
  induction ps generalizing i with
  | nil => rfl
  | cons p ps ih =>
    obtain ⟨⟨w, rfl⟩, rest⟩ := List.forall_mem_cons.mp words
    exact ih rest

/-- Nothing is left of the words of an attribute. -/
theorem content_attrib (i : Nat) (ts : List Token) :
    content i [⟨.attrib, i, ts.length⟩] ts = [] := by
  refine List.filter_eq_nil_iff.mpr fun x mem => ?_
  have bounds := List.mem_zipIdx mem
  simp [inAttrib, bounds.1, bounds.2.1]

theorem content_cons {kind : NodeKind} (notAttrib : kind ≠ .attrib) (i j n : Nat)
    (ss : List GroupAt) (ts : List Token) :
    content i (⟨kind, j, n⟩ :: ss) ts = content i ss ts := by
  have other : (kind == NodeKind.attrib) = false := beq_false_of_ne notAttrib
  simp [content, inAttrib, other]

mutual

/-- The groups of single words are the tokens that have a node, one by one. -/
theorem Kept.words {i : Nat} : (p : Phrase) → p.Kept →
    ((sites i p).filter fun s => s.kind.isWord).map (fun s => (s.first, s.count))
      = (content i (sites i p) (p.words.map Word.token)).map fun x => (x.2, 1)
  | .word w, kept => by
    rw [kept_word] at kept
    simp [sites, words, content, kept]
  | .group kind parts, kept => by
    by_cases isWord : kind.isWord = true
    · rw [Kept, if_pos isWord] at kept
      obtain ⟨w, rfl, node⟩ := kept
      have notAttrib : kind ≠ .attrib := by rintro rfl; exact absurd isWord (by decide)
      rw [sites, content_cons notAttrib, List.filter_cons, if_pos isWord]
      simp [sitesOf, sites, words, wordsOf, content, inAttrib, node]
    · by_cases isAttrib : kind = .attrib
      · subst isAttrib
        rw [Kept, if_neg isWord, if_pos rfl] at kept
        have length : count parts = ((group .attrib parts).words.map Word.token).length := by
          rw [List.length_map, length_words_group]
        rw [sites, sitesOf_words kept, length, content_attrib]
        rfl
      · rw [Kept, if_neg isWord, if_neg isAttrib] at kept
        have parts := KeptAll.words parts kept (i := i)
        rw [sites, content_cons isAttrib, List.filter_cons, if_neg isWord]
        exact parts

theorem KeptAll.words {i : Nat} : (ps : List Phrase) → KeptAll ps →
    ((sitesOf i ps).filter fun s => s.kind.isWord).map (fun s => (s.first, s.count))
      = (content i (sitesOf i ps) (tokens ps)).map fun x => (x.2, 1)
  | [], _ => rfl
  | p :: ps, kept => by
    have head := Kept.words p kept.1 (i := i)
    have tail := KeptAll.words ps kept.2 (i := i + p.words.length)
    have split : tokens (p :: ps) = p.words.map Word.token ++ tokens ps := List.map_append
    have length : (p.words.map Word.token).length = p.words.length := List.length_map _
    rw [split, sitesOf, content_append, length, List.filter_append, List.map_append,
      List.map_append, head, tail]
    · intro s mem
      rw [length]
      exact (bounds_sites p mem).2
    · intro s mem
      rw [length]
      exact (bounds_sitesOf ps mem).1

end

end Phrase

/-! ## Tokens of a text -/

/-- The bytes stand in an attribute. -/
def Tree.inAttrib (t : Tree) (s : Span) : Bool :=
  t.walk.any fun id => t.kind id == .attrib && (t.span id).containsSpan s

namespace Layout

variable {l : Layout} {t : Tree} {body : Outline} {ps : List Phrase}

/-- A token stands in an attribute of the tree if it is a word of one. -/
theorem inAttrib_tree (grows : t.Grows (l.root body)) (h : l.Faithful)
    (outline : [body] = outlinesOf 0 ps) {k : Nat} (inside : k < l.lexemes.size) :
    t.inAttrib l.lexemes[k].span = Phrase.inAttrib (sitesOf 0 ps) k := by
  have nodes := l.map_span_walk grows outline (P := (· == .attrib)) rfl rfl
  have spans : t.inAttrib l.lexemes[k].span
      = ((t.walk.filter fun id => t.kind id == .attrib).map t.span).any
          (·.containsSpan l.lexemes[k].span) := by
    rw [List.any_map, List.any_filter]
    rfl
  rw [spans, nodes, List.any_map, List.any_filter, Phrase.inAttrib]
  congr 1
  funext s
  by_cases isAttrib : s.kind = .attrib
  · have plain : firstMark s.kind s.first s.count = Mark.start s.first := by
      rw [isAttrib]
      rfl
    rw [Function.comp_apply, Bool.eq_iff_iff, Bool.and_eq_true, Bool.and_eq_true,
      containsSpan_spanOf h inside plain, decide_eq_true_eq]
  · rw [beq_false_of_ne isAttrib, Bool.false_and, Bool.false_and]

/-- The place of a group of one word is the place of this word. -/
theorem map_spanOf_words (l : Layout) (ss : List GroupAt) :
    (ss.filter fun s => s.kind.isWord).map l.spanOf
      = ((ss.filter fun s => s.kind.isWord).map fun s => (s.first, s.count)).map fun x =>
          ⟨l.offset (Mark.start x.1),
            l.offset (max (Mark.stopBefore (x.1 + x.2)) (Mark.start x.1))⟩ := by
  rw [List.map_map]
  refine List.map_congr_left fun s mem => ?_
  have isWord := (List.mem_filter.mp mem).2
  have plain : firstMark s.kind s.first s.count = Mark.start s.first := by
    rw [firstMark]
    refine if_neg ?_
    rintro (isStat | ⟨isBlock, -⟩)
    · cases kind : s.kind <;> simp_all [NodeKind.isWord, NodeKind.isStatement]
    · rw [isBlock] at isWord
      exact absurd isWord Bool.false_ne_true
  rw [spanOf, lastMark, plain]
  rfl

/-- The nodes of single words are the tokens that have a node and do not stand in an attribute. -/
theorem word_nodes_eq_tokens_of_kept (grows : t.Grows (l.root body)) (h : l.Faithful)
    (outline : [body] = outlinesOf 0 ps) (kept : KeptAll ps)
    (same : tokens ps = l.lexemes.toList.map Lexeme.token) :
    (t.walk.filter fun id => (t.kind id).isWord).map t.span
      = (l.lexemes.toList.filter fun x => x.token.hasNode && !t.inAttrib x.span).map
          Lexeme.span := by
  have numbered {x : Lexeme × Nat} (mem : x ∈ l.lexemes.toList.zipIdx) :
      ∃ inside : x.2 < l.lexemes.size, x.1 = l.lexemes[x.2] := by
    obtain ⟨-, inside, eq⟩ := List.mem_zipIdx mem
    exact ⟨by simpa using inside, by simpa using eq⟩
  have single (k : Nat) : max (Mark.stopBefore (k + 1)) (Mark.start k) = Mark.stop k := by
    simp only [Mark.stopBefore, Mark.start, Mark.stop]
    omega
  have kinds : l.lexemes.toList.zipIdx.filter
        ((fun x => x.1.hasNode && !Phrase.inAttrib (sitesOf 0 ps) x.2) ∘ Prod.map Lexeme.token id)
      = l.lexemes.toList.zipIdx.filter
        ((fun x => x.token.hasNode && !t.inAttrib x.span) ∘ Prod.fst) :=
    List.filter_congr fun x mem => by
      obtain ⟨inside, eq⟩ := numbered mem
      rw [Function.comp_apply, Function.comp_apply, eq, inAttrib_tree grows h outline inside,
        ← eq]
      rfl
  rw [l.map_span_walk grows outline rfl rfl, map_spanOf_words, KeptAll.words ps kept, content, same,
    List.zipIdx_map, List.filter_map, kinds, List.map_map, List.map_map]
  conv_rhs =>
    rw [← List.zipIdx_map_fst 0 l.lexemes.toList, List.filter_map, List.map_map]
  refine List.map_congr_left fun x mem => ?_
  obtain ⟨inside, eq⟩ := numbered (List.mem_filter.mp mem).1
  simp only [Function.comp_apply, Prod.map_snd, id_eq, single, offset_start, offset_stop,
    tokenStart_of_lt inside, tokenStop_of_lt inside, eq]

end Layout

/-- A walk over the tree of a text without faults meets the names, literals and operators of the
text that do not stand in attributes, one by one, and no other nodes of their kinds, where every
place of the text has an offset of its own. -/
theorem Parsed.word_nodes_eq_tokens {text : String} (small : text.utf8ByteSize < offsetCount)
    (clean : (Parsed.ofText text).errors = []) :
    ((Parsed.ofText text).tree.walk.filter
        fun id => ((Parsed.ofText text).tree.kind id).isWord).map (Parsed.ofText text).tree.span
      = ((Lexed.ofText text).lexemes.toList.filter
          fun x => x.token.hasNode
            && !(Parsed.ofText text).tree.inAttrib x.span).map Lexeme.span := by
  rw [Parsed.ofText, errors_ofTextWithin] at clean
  obtain ⟨-, faults⟩ := List.append_eq_nil_iff.mp clean
  obtain ⟨ss, spans⟩ := Program.exists_phrases (List.map_eq_nil_iff.mp faults)
  have kept : KeptAll [group .block (Stat.phrases ss)] :=
    ⟨(kept_group rfl (by decide)).mpr (Stat.kept_phrases ss), trivial⟩
  refine Layout.word_nodes_eq_tokens_of_kept (grows_root maxNesting small)
    (Layout.faithful_ofLexed small) spans.outlines_eq kept ?_
  have tokens := spans.tokens_eq
  rw [List.append_nil, Array.toList_map] at tokens
  exact tokens.symm

/-- An attribute, a comparison, a function with a dotted name, a method and `...`, and a label: the
brackets and the name of the attribute are left out, and the sign of the comparison is not. -/
theorem Parsed.word_nodes_eq_tokens_attrib :
    let text := "local a <const> = 1 < 2 function b:c(...) return -a end ::d::"
    text.utf8ByteSize < offsetCount ∧ (Parsed.ofText text).errors = []
      ∧ ((Parsed.ofText text).tree.walk.filter
          fun id => ((Parsed.ofText text).tree.kind id).isWord).map (Parsed.ofText text).tree.span
        = [⟨6, 7⟩, ⟨18, 19⟩, ⟨20, 21⟩, ⟨22, 23⟩, ⟨33, 34⟩, ⟨35, 36⟩, ⟨37, 40⟩, ⟨49, 50⟩, ⟨50, 51⟩,
          ⟨58, 59⟩] := by
  have small : "local a <const> = 1 < 2 function b:c(...) return -a end ::d::".utf8ByteSize
      < offsetCount := by decide
  have clean :
      (Parsed.ofText "local a <const> = 1 < 2 function b:c(...) return -a end ::d::").errors
        = [] := by decide +kernel
  exact ⟨small, clean, (word_nodes_eq_tokens small clean).trans (by decide +kernel)⟩

end LuaTyping
