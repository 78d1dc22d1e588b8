import LuaTyping.Proofs.Syntax.Standing
import LuaTyping.Proofs.Token.Written

/-!
# Which nodes cover their children

A node reaches to the last word read for it, and its children lie between its words, so a node
covers its children.  This fails for one kind of child: a block without statements has no words and
stands where the next word starts, which may be a word that its parent does not have.  In a
function, a loop or a `do` the word behind the block still belongs to the parent, and behind the
block of `repeat` and `if` there are more parts.  A clause of an `if` ends with its block; the next
word belongs to the `if`, it is a reserved word like the last word of the clause, and between two
such words there is at least one blank.

* `Branch.Stands.covers`: a node covers the nodes of its parts, but for such a block.
* `Branch.Stands.stop_lt_start`: such a block lies behind the clause.
* `Parsed.containsSpan_child_iff`: which nodes of a text without faults cover their children.
-/

namespace LuaTyping

open Phrase (count outlinesOf group word firstMark lastMark tokens kinds)

/-- The node is a clause of an `if`, and the child is its block and has no statements. -/
def Tree.IsEmptyClause (t : Tree) (clause block : NodeId) : Prop :=
  (t.kind clause).isClause = true ∧ t.kind block = .block ∧ t.children block = []

/-! ## Parts and words -/

namespace Phrase

variable {kind k : NodeKind} {parts ps qs rs : List Phrase}

/-- What stands behind a block that is not the end of a clause has words. -/
theorem count_pos_of_behind (formed : (group kind parts).Formed) (rule : Rule kind parts)
    (other : kind.isClause = false) (split : parts = qs ++ group .block ps :: rs) :
    0 < count rs := by
  have ends {qs : List Phrase} (last : parts.getLast? = some (group .block qs)) : False :=
    absurd ((rule.isClause last).symm.trans other) (by decide)
  rcases List.eq_nil_or_concat' rs with rfl | ⟨rest, last, rfl⟩
  · exact (ends (by rw [split, List.getLast?_concat])).elim
  · have formedLast := formedAll_iff.mp formed.2 last (by simp [split])
    rw [count_append, count_cons, count_nil]
    cases last with
    | word w =>
      rw [length_words_word]
      omega
    | group k parts =>
      rw [length_words_group]
      rcases formedLast.1.count_pos with positive | ⟨rfl, rfl⟩
      · omega
      · rw [← List.cons_append, ← List.append_assoc] at split
        exact (ends (by rw [split, List.getLast?_concat])).elim

/-- A clause ends with its block, and in front of the block stands a reserved word. -/
theorem Rule.word_before (rule : Rule kind parts) (clause : kind.isClause = true)
    (split : parts = qs ++ group .block ps :: rs) :
    rs = [] ∧ ∃ front w, qs = front ++ [word w] ∧ w.token.isWord = true := by
  cases rule with
  | @elseif e stats expression =>
    match qs, split with
    | [], split => simp [key] at split
    | [_], split =>
      obtain ⟨-, rfl, -⟩ : _ ∧ e = group .block ps ∧ _ := by simpa using split
      exact absurd expression Bool.false_ne_true
    | [_, _], split => simp [key] at split
    | [_, _, _], split =>
      simp only [List.cons_append, List.nil_append, List.cons.injEq, group.injEq] at split
      obtain ⟨rfl, rfl, rfl, -, rfl⟩ := split
      exact ⟨rfl, [key .elseifKw, e], Token.thenKw.word, rfl, rfl⟩
    | _ :: _ :: _ :: _ :: _, split => simp at split
  | @«else» stats =>
    match qs, split with
    | [], split => simp [key] at split
    | [_], split =>
      simp only [List.cons_append, List.nil_append, List.cons.injEq, group.injEq] at split
      obtain ⟨rfl, -, rfl⟩ := split
      exact ⟨rfl, [], Token.elseKw.word, rfl, rfl⟩
    | _ :: _ :: _, split => simp at split
  | name _ name =>
    cases kind <;> first
      | exact absurd name (by decide)
      | exact absurd clause (by decide)
  | _ => exact absurd clause (by decide)

theorem exists_split_of_not_mem {front back : List Phrase} {p : Phrase}
    (split : front ++ back = qs ++ p :: rs) (behind : p ∉ front) :
    ∃ before, back = before ++ p :: rs := by
  rcases List.append_eq_append_iff.mp split with ⟨before, -, eq⟩ | ⟨others, rfl, eq⟩
  · exact ⟨before, eq⟩
  · cases others with
    | nil => exact ⟨[], eq.symm⟩
    | cons q others =>
      obtain ⟨rfl, -⟩ := List.cons.inj eq
      exact absurd (by simp) behind

/-- Behind a clause comes a word that ends blocks. -/
theorem Rule.endsBlock_behind (rule : Rule kind parts) (clause : k.isClause = true)
    (split : parts = qs ++ group k ps :: rs) :
    ∃ t us, tokens rs = t :: us ∧ t.endsBlock = true := by
  have inside : group k ps ∈ parts := by simp [split]
  obtain rfl := rule.eq_ifStat inside clause
  cases rule with
  | @«if» e stats clauses expression each =>
    have notFront : group k ps ∉ [key .ifKw, e, key .thenKw, group .block stats] := by
      intro mem
      simp only [List.mem_cons, key, reduceCtorEq, List.not_mem_nil, or_false, false_or] at mem
      rcases mem with rfl | eq
      · cases k <;> first
          | exact absurd clause (by decide)
          | exact absurd expression Bool.false_ne_true
      · obtain ⟨rfl, -⟩ := group.inj eq
        exact absurd clause (by decide)
    have cut : [key .ifKw, e, key .thenKw, group .block stats] ++ (clauses ++ [key .endKw])
        = qs ++ group k ps :: rs := split
    obtain ⟨before, tail⟩ := exists_split_of_not_mem cut notFront
    -- the clause is among the clauses, and behind it come others or the last word
    rcases List.append_eq_append_iff.mp tail with ⟨rest, -, last⟩ | ⟨rest, rfl, here⟩
    · cases rest with
      | nil => exact absurd (List.cons.inj last).1 (by simp [key])
      | cons _ _ => simp at last
    · cases rest with
      | nil => exact absurd (List.cons.inj here).1 (by simp [key])
      | cons q rest =>
        obtain ⟨-, rfl⟩ := List.cons.inj here
        cases rest with
        | nil => exact ⟨.endKw, [], rfl, rfl⟩
        | cons q rest =>
          have next := each q (by simp)
          match q, next with
          | group _ (word w :: _), next => exact ⟨w.token, _, rfl, next.2⟩
  | name _ name => exact absurd name (by decide)

end Phrase

theorem Token.isWord_of_endsBlock {t : Token} (ends : t.endsBlock = true) : t.isWord = true := by
  cases t <;> first
    | rfl
    | exact absurd ends (by decide)

/-! ## Nodes and their children -/

namespace Branch.Stands

variable {l : Layout} {b c : Branch} {i j : Nat} {kind k : NodeKind}
  {parts ps qs rs : List Phrase}

theorem containsSpan_iff (stands : b.Stands l i kind parts) :
    b.span.containsSpan c.span = true
      ↔ l.offset (firstMark kind i (count parts)) ≤ c.span.start
        ∧ c.span.stop ≤ l.offset (lastMark kind i (count parts)) := by
  rw [stands.span_eq, Layout.spanOf, Span.containsSpan, Bool.and_eq_true, decide_eq_true_eq,
    decide_eq_true_eq]

/-- A statement covers the comment in front of it. -/
theorem covers_comment (h : l.Faithful) (stands : b.Stands l i kind parts)
    (stat : kind.isStatement = true) (comment : l.docSpan? i = some c.span) :
    b.span.containsSpan c.span = true := by
  have positive : 0 < count parts := by
    rcases stands.formed.1.count_pos with positive | ⟨rfl, -⟩
    · exact positive
    · exact absurd stat (by decide)
  have first : firstMark kind i (count parts) = Mark.doc i := if_pos (.inl stat)
  have inside : i ≤ l.lexemes.size := stands.first_le_size
  have stop := (h.bounds_docSpan inside comment).2.2
  rw [stands.containsSpan_iff, first, Layout.offset_doc inside, comment]
  refine ⟨Nat.le_refl _, ?_⟩
  rw [← Layout.offset_start] at stop
  refine Nat.le_trans stop (Layout.offset_le h ?_)
  rw [Phrase.lastMark_of_pos _ _ positive]
  simp only [Mark.start, Mark.stopBefore]
  omega

/-- A node covers the node of a part, unless it is a clause and the part a block without words. -/
theorem covers (h : l.Faithful) (stands : b.Stands l i kind parts) (child : c ∈ b.children)
    (split : parts = qs ++ group k ps :: rs) (part : c.Stands l (i + count qs) k ps)
    (filled : ¬ (kind.isClause = true ∧ k = .block ∧ ps = [])) :
    b.span.containsSpan c.span = true := by
  have total : count parts = count qs + (count ps + count rs) := by
    rw [split, Phrase.count_append, Phrase.count_cons, Phrase.length_words_group]
  rw [stands.containsSpan_iff]
  constructor
  · obtain ⟨next, below, children⟩ := stands.children_eq
    rw [children, List.mem_append] at child
    rcases child with slot | mem
    · have comment := (Layout.isComment_of_mem_docSlot slot).1
      exact absurd (part.kind_eq.symm.trans comment) part.kind_ne_comment
    · exact Layout.group_start_le h stands.formed.1 mem
  · rw [part.span_eq, Layout.spanOf]
    refine Layout.offset_le h ?_
    rcases part.formed.1.count_pos with positive | ⟨rfl, rfl⟩
    · rw [Phrase.lastMark_of_pos _ _ positive, Phrase.lastMark_of_pos _ _ (by omega)]
      simp only [Mark.stopBefore]
      omega
    · have other : kind.isClause = false :=
        Bool.eq_false_iff.mpr fun clause => filled ⟨clause, rfl, rfl⟩
      have behind := Phrase.count_pos_of_behind stands.formed stands.rule other split
      have first := Phrase.firstMark_le_start .block (i + count qs) 0
      rw [Phrase.count_nil, Phrase.lastMark_zero, Phrase.lastMark_of_pos _ _ (by omega)]
      simp only [Mark.start, Mark.stopBefore] at first ⊢
      omega

/-- A block has no children if it has no statements. -/
theorem children_eq_nil_iff (stands : c.Stands l i .block ps) : c.children = [] ↔ ps = [] := by
  constructor
  · intro empty
    obtain ⟨docs, -, -, kinds⟩ := stands.map_kind_children
    rw [empty, List.map_nil, eq_comm, List.append_eq_nil_iff] at kinds
    cases ps with
    | nil => rfl
    | cons p ps =>
      cases stands.rule with
      | block statements =>
        cases p with
        | word w => exact (statements (word w) List.mem_cons_self).elim
        | group k parts => exact absurd kinds.2 (List.cons_ne_nil _ _)
      | name _ name => exact absurd name (by decide)
  · rintro rfl
    obtain ⟨next, below, children⟩ := stands.children_eq
    exact children

theorem start_le_stop (h : l.Faithful) (stands : b.Stands l i kind parts) :
    b.span.start ≤ b.span.stop := by
  rw [stands.span_eq]
  exact Layout.offset_le h (Nat.le_max_right _ _)

/-- A clause stops before its block, if the block is empty. -/
theorem stop_lt_start {text : String} (small : text.utf8ByteSize < offsetCount) {a : Branch}
    {outer : NodeKind} {others : List Phrase} (above : a.Stands (Layout.ofText text) j outer others)
    (below : b ∈ a.children)
    (clause : b.kind.isClause = true) (child : c ∈ b.children) (block : c.kind = .block)
    (empty : c.children = []) : b.span.stop < c.span.start := by
  rcases above.child below with ⟨comment, -⟩ | ⟨qs, k, ps, rs, around, stands⟩
  · rw [comment.1] at clause
    exact absurd clause (by decide)
  rcases stands.child child with ⟨comment, -⟩ | ⟨front, k', stats, back, inside, last⟩
  · exact absurd (comment.1.symm.trans block) (by decide)
  obtain rfl : k' = .block := last.kind_eq.symm.trans block
  obtain rfl := last.children_eq_nil_iff.mp empty
  rw [stands.kind_eq] at clause
  obtain ⟨rfl, front, w, rfl, word⟩ := stands.rule.word_before clause inside
  obtain ⟨t, us, behind, ends⟩ := above.rule.endsBlock_behind clause around
  -- the words are the last one of the clause and the first one behind it
  have size : count ps = count front + 1 := by simp [inside]
  obtain ⟨bound, token⟩ := stands.exists_lexeme (p := tokens front) (t := w.token) (s := [])
    (m := j + count qs + count front)
    (by simp [inside, Phrase.tokens_word_cons, Phrase.tokens_group_cons, Phrase.tokens_nil])
    (by rw [Phrase.length_tokens])
  obtain ⟨bound', token'⟩ := above.exists_lexeme (p := tokens qs ++ tokens ps) (t := t) (s := us)
    (m := j + count qs + count front + 1)
    (by simp [around, behind, Phrase.tokens_group_cons])
    (by rw [List.length_append, Phrase.length_tokens, Phrase.length_tokens]; omega)
  have stop : b.span.stop = (Layout.ofText text).tokenStop (j + count qs + count front) := by
    have end_eq :
        lastMark k (j + count qs) (count ps) = Mark.stop (j + count qs + count front) := by
      rw [size, Phrase.lastMark_of_pos _ _ (Nat.succ_pos _)]
      simp only [Mark.stopBefore, Mark.stop]
      omega
    rw [stands.span_eq, Layout.spanOf, end_eq, Layout.offset_stop]
  have start : c.span.start = (Layout.ofText text).tokenStart (j + count qs + count front + 1) := by
    have start_eq : firstMark .block (j + count qs + count (front ++ [.word w])) (count [])
        = Mark.start (j + count qs + count front + 1) := by
      rw [Phrase.count_append]
      rfl
    rw [last.span_eq, Layout.spanOf, start_eq, Layout.offset_start]
  -- both are reserved words, and two such words do not touch
  rw [stop, start, Layout.tokenStop_of_lt bound, Layout.tokenStart_of_lt bound']
  have le := Layout.stop_le_start_succ (Layout.ofText_faithful small).ordered
    (j + count qs + count front)
  rw [Layout.tokenStop_of_lt bound, Layout.tokenStart_of_lt bound'] at le
  exact Nat.lt_of_le_of_ne le (Lexed.stop_ne_start small (Array.getElem_mem_toList bound)
    (Array.getElem_mem_toList bound') (token.symm ▸ word)
    (token'.symm ▸ Token.isWord_of_endsBlock ends))

end Branch.Stands

/-! ## Texts -/

namespace Parsed

variable {text : String} {p c : NodeId}

/-- In a text without faults a node covers its children, but for a clause and its block without
statements: there the block lies behind the clause.  Every place of the text has to have an offset
of its own, since spans are kept in 32 bits. -/
theorem containsSpan_child_iff (small : text.utf8ByteSize < offsetCount)
    (clean : (ofText text).errors = [])
    (child : c ∈ (ofText text).tree.children p) :
    ((ofText text).tree.span p).containsSpan ((ofText text).tree.span c) = true
      ↔ ¬ (ofText text).tree.IsEmptyClause p c := by
  obtain ⟨r, b, grows, root, whole, only, ⟨stats, block⟩, each⟩ := exists_standing small clean
  obtain ⟨d, mem, e, below, rfl, rfl⟩ := grows.exists_child child
  have mem' := Tree.Grows.mem_of_child mem below
  rw [grows.span mem, grows.span mem', Tree.IsEmptyClause, grows.kind mem, grows.kind mem',
    grows.children mem', List.map_eq_nil_iff]
  have faithful := Layout.ofText_faithful small
  have inRoot {x : Branch} (inside : x ∈ r.children) : x = b := by
    rw [only] at inside
    exact List.mem_singleton.mp inside
  by_cases empty : d.kind.isClause = true ∧ e.kind = .block ∧ e.children = []
  · refine iff_of_false (fun covered => ?_) (not_not_intro empty)
    obtain ⟨clause, kind, none⟩ := empty
    rw [Span.containsSpan, Bool.and_eq_true, decide_eq_true_eq, decide_eq_true_eq] at covered
    rcases Branch.eq_or_exists_parent r mem with rfl | ⟨a, outer, above⟩
    · rw [root] at clause
      exact absurd clause (by decide)
    · rcases each a outer with rfl | comment | ⟨i, k, parts, stands⟩
      · rw [inRoot above, block.kind_eq] at clause
        exact absurd clause (by decide)
      · rw [comment.2] at above
        exact absurd above List.not_mem_nil
      · have apart := stands.stop_lt_start small above clause below kind none
        have forward : e.span.start ≤ e.span.stop := by
          rcases each e mem' with rfl | comment | ⟨i, k, parts, stands⟩
          · exact absurd (root.symm.trans kind) (by decide)
          · exact absurd (comment.1.symm.trans kind) (by decide)
          · exact stands.start_le_stop faithful
        omega
  · refine iff_of_true ?_ empty
    rcases each d mem with rfl | comment | ⟨i, k, parts, stands⟩
    · rw [inRoot below, whole, Span.containsSpan, Bool.and_eq_true, decide_eq_true_eq,
        decide_eq_true_eq]
      rw [block.span_eq]
      exact ⟨Nat.zero_le _, Layout.offset_le_size faithful _⟩
    · rw [comment.2] at below
      exact absurd below List.not_mem_nil
    · rcases stands.child below with ⟨-, stat, found⟩ | ⟨qs, k', ps, rs, split, part⟩
      · exact stands.covers_comment faithful stat found
      · refine stands.covers faithful below split part ?_
        rintro ⟨clause, rfl, rfl⟩
        exact empty ⟨stands.kind_eq ▸ clause, part.kind_eq, part.children_eq_nil_iff.mpr rfl⟩

/-- The body of a function covers its block without statements. -/
theorem containsSpan_child_body :
    "f = function() end".utf8ByteSize < offsetCount
      ∧ (ofText "f = function() end").errors = []
        ∧ 3 ∈ (ofText "f = function() end").tree.children 4
      ∧ ((ofText "f = function() end").tree.span 4).containsSpan
        ((ofText "f = function() end").tree.span 3) = true := by
  have small : "f = function() end".utf8ByteSize < offsetCount := by decide +kernel
  have clean : (ofText "f = function() end").errors = [] := by decide +kernel
  have child : 3 ∈ (ofText "f = function() end").tree.children 4 := by decide +kernel
  exact ⟨small, clean, child, (containsSpan_child_iff small clean child).mpr fun empty =>
    absurd empty.1 (by decide +kernel)⟩

/-- An `else` without statements stops before its block. -/
theorem not_containsSpan_child_else :
    (ofText "if x then else end").errors = [] ∧ 3 ∈ (ofText "if x then else end").tree.children 4
      ∧ (ofText "if x then else end").tree.span 4 = ⟨10, 14⟩
      ∧ (ofText "if x then else end").tree.span 3 = ⟨15, 15⟩
      ∧ ((ofText "if x then else end").tree.span 4).containsSpan
        ((ofText "if x then else end").tree.span 3) = false := by
  decide +kernel

end Parsed

end LuaTyping
