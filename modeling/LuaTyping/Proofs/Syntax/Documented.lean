import LuaTyping.Proofs.Syntax.Drawn
import LuaTyping.Proofs.Syntax.Entered
import LuaTyping.Proofs.Syntax.Realized

/-!
# Doc comments

Every statement that the parser enters has a slot for a doc comment, and what the slot becomes is
decided by the comments in front of the first token of the statement.  So a statement has a comment
as a child exactly if the longest run of comments in front of it is not empty, and the comment is
the first child and covers the run.  This includes statements that turn out to be none: then the
block goes on with the token that was dropped in their place.

Two slots belong to two tokens, and between the comments in front of them stands at least the first
of the two.  So no comment of the text is part of two doc comments.

* `Tree.Documented`: a statement and the comments in front of it.
* `Tree.Entries`: the children of a block.
* `Outline.Kept`: what the nodes of a program are made of.
* `Parsed.Commented`, `Parsed.commented_ofText`: doc comments of a text.
-/

namespace LuaTyping

namespace Tree

/-- A statement whose first token is `x`: it has a comment exactly if the longest run of comments in
front of `x` is not empty, and the comment is its first child and covers the run. -/
structure Documented (t : Tree) (lexed : Lexed) (id : NodeId) (x : Lexeme) : Prop where
  token : x ∈ lexed.lexemes.toList
  first : ∀ y ∈ lexed.lexemes.toList, t.start id ≤ y.span.start ↔ x.span.start ≤ y.span.start
  comment : ∃ run, IsCommentRun t.text lexed.comments.toList x.span.start run
    ∧ ((∃ c ∈ t.children id, t.kind c = .comment) ↔ run ≠ [])
    ∧ ∀ c ∈ t.children id, t.kind c = .comment →
        (t.children id).head? = some c ∧ coverRun? run = some (t.span c)

/-- The children of a block: statements that were entered, the tokens that were dropped behind a
statement that is none, and at the end an empty error where the nesting was too deep. -/
inductive Entries (t : Tree) (lexed : Lexed) (errors : List SyntaxError) : List NodeId → Prop
  | nil : t.Entries lexed errors []
  | statement {id : NodeId} {x : Lexeme} {ids : List NodeId} :
    (t.kind id).isForm = true → t.Documented lexed id x → x.span.stop ≤ t.stop id →
    t.Entries lexed errors ids → t.Entries lexed errors (id :: ids)
  | dropped {id token : NodeId} {x : Lexeme} {ids : List NodeId} :
    t.kind id = .error → t.Documented lexed id x →
    t.kind token = .error → t.children token = [] → t.span token = x.span →
    t.Entries lexed errors ids → t.Entries lexed errors (id :: token :: ids)
  | cut {id : NodeId} :
    t.kind id = .error → t.children id = [] → t.span id = ⟨t.start id, t.start id⟩ →
    .tooDeep maxNesting ⟨t.start id, t.text.utf8ByteSize⟩ ∈ errors →
    t.Entries lexed errors [id]

end Tree

/-- Doc comments of a text: a block holds statements with the comments in front of them, every
statement stands in a block, and no comment of the text is part of two doc comments. -/
structure Parsed.Commented (p : Parsed) (lexed : Lexed) : Prop where
  block : ∀ b, p.tree.kind b = .block → p.tree.Entries lexed p.errors (p.tree.children b)
  statement : ∀ id, (p.tree.kind id).isStatement = true →
    ∃ b, p.tree.kind b = .block ∧ id ∈ p.tree.children b
  once : ∀ s ∈ lexed.comments.toList, ∀ c c', p.tree.kind c = .comment → p.tree.kind c' = .comment →
    (p.tree.span c).containsSpan s = true → (p.tree.span c').containsSpan s = true → c = c'

/-! ## Outlines -/

namespace Outline

variable {known : List Fault} {o c : Outline} {cs : List Outline} {i : Nat}

/-- What the nodes of a program are made of, but for its root. -/
inductive Kept (known : List Fault) : Outline → Prop
  | doc (i : Nat) : Kept known (.doc i)
  | part {kind : NodeKind} {first last : Nat} {cs : List Outline} :
    kind.isPart = true → (∀ c ∈ cs, c.Housed known) → Kept known (.node kind first last cs)
  | block {first last : Nat} {cs : List Outline} :
    Entries known cs → Kept known (.node .block first last cs)
  | form {kind : NodeKind} {first last i : Nat} {cs : List Outline} :
    kind.isForm = true → (∀ c ∈ cs, c.Housed known) →
    Kept known (.node kind first last (.doc i :: cs))

theorem Housed.kept (h : o.Housed known) : o.Kept known := by
  cases h with
  | node part all => exact .part part all
  | block entries => exact .block entries

/-- What stands in a block. -/
theorem Entries.kept_of_mem : {cs : List Outline} → Entries known cs → ∀ c ∈ cs, c.Kept known
  | _, .nil => List.forall_mem_nil _
  | _, .stat form _ all rest => List.forall_mem_cons.mpr ⟨.form form all, rest.kept_of_mem⟩
  | _, .dropped rest => List.forall_mem_cons.mpr ⟨.form rfl (List.forall_mem_nil _),
      List.forall_mem_cons.mpr ⟨.part rfl (List.forall_mem_nil _), rest.kept_of_mem⟩⟩
  | _, .cut _ => List.forall_mem_singleton.mpr (.part rfl (List.forall_mem_nil _))

/-- The parts of what is kept are kept. -/
theorem Kept.child (h : o.Kept known) (mem : c ∈ o.children) : c.Kept known := by
  cases h with
  | doc i => exact absurd mem List.not_mem_nil
  | part _ all => exact (all c mem).kept
  | block entries => exact entries.kept_of_mem c mem
  | form _ all =>
    rcases List.mem_cons.mp mem with rfl | mem
    · exact .doc _
    · exact (all c mem).kept

theorem Housed.kind_ne (h : o.Housed known) : o.kind ≠ .comment ∧ o.kind.isStatement = false := by
  cases h with
  | block => exact ⟨nofun, rfl⟩
  | @node kind first last cs part =>
    change kind ≠ .comment ∧ kind.isStatement = false
    cases kind <;> first
      | exact absurd part Bool.false_ne_true
      | exact ⟨by decide, rfl⟩

/-- Comments come from slots only. -/
theorem Kept.kind_ne_comment {kind : NodeKind} {first last : Nat}
    (h : Kept known (.node kind first last cs)) : kind ≠ .comment := by
  rintro rfl
  cases h with
  | part part => exact absurd part Bool.false_ne_true
  | form form => exact absurd form Bool.false_ne_true

/-- What a block is made of. -/
theorem Kept.entries (h : o.Kept known) (block : o.kind = .block) : Entries known o.children := by
  cases h with
  | doc i => exact nomatch block
  | block entries => exact entries
  | @part kind _ _ _ part =>
    obtain rfl : kind = .block := block
    exact absurd part Bool.false_ne_true
  | @form kind _ _ _ _ form =>
    obtain rfl : kind = .block := block
    exact absurd form Bool.false_ne_true

/-- Statements stand in blocks only. -/
theorem Kept.kind_eq_block (h : o.Kept known) (mem : c ∈ o.children)
    (stat : c.kind.isStatement = true) : o.kind = .block := by
  cases h with
  | doc i => exact absurd mem List.not_mem_nil
  | block => rfl
  | part _ all => rw [(all c mem).kind_ne.2] at stat; exact absurd stat Bool.false_ne_true
  | form _ all =>
    rcases List.mem_cons.mp mem with rfl | mem
    · exact absurd stat Bool.false_ne_true
    · rw [(all c mem).kind_ne.2] at stat
      exact absurd stat Bool.false_ne_true

/-- The slots of the parts of an outline are its slots. -/
theorem mem_docs_of_children (inside : i ∈ docsOf o.children) : i ∈ o.docs := by
  cases o with
  | doc token => exact absurd inside List.not_mem_nil
  | node kind first last cs => exact inside

theorem mem_docsOf (mem : c ∈ cs) (inside : i ∈ c.docs) : i ∈ docsOf cs := by
  induction cs with
  | nil => exact absurd mem List.not_mem_nil
  | cons o cs ih =>
    rw [docsOf, List.mem_append]
    rcases List.mem_cons.mp mem with rfl | mem
    · exact .inl inside
    · exact .inr (ih mem)

end Outline

/-! ## Branches -/

namespace Layout

open Outline (Kept docsOf)

variable {l : Layout} {known : List Fault} {body o : Outline} {b : Branch} {next : Nat}

theorem children_of_mem_branches (mem : b ∈ l.branches next o) :
    ∃ below, b.children = l.branchesOf below o.children := by
  cases o with
  | doc token => exact ⟨next, (comment_of_mem_branches mem).2⟩
  | node kind first last cs => exact ⟨next, (eq_of_mem_branches mem).2.2⟩

/-- The branch of the first of some outlines, if it is a node. -/
theorem exists_branchesOf_eq (l : Layout) (next : Nat) (kind : NodeKind) (first last : Nat)
    (cs os : List Outline) :
    ∃ b below, l.branchesOf next (.node kind first last cs :: os) = b :: l.branchesOf below os
      ∧ b.kind = kind ∧ b.span = ⟨l.offset first, l.offset last⟩
      ∧ b.children = l.branchesOf next cs := by
  rw [branchesOf, branches]
  exact ⟨_, _, rfl, rfl, rfl, rfl⟩

/-- Below the root is what is kept. -/
theorem exists_kept (housed : body.Housed known) :
    ∀ b ∈ Branch.allOf (l.branches 0 body), ∃ o next, b ∈ l.branches next o ∧ o.Kept known
      ∧ ∀ i ∈ o.docs, i ∈ body.docs := by
  refine Branch.forall_mem_allOf (fun p above c child => ?_) _
    fun b mem => ⟨body, 0, mem, housed.kept, fun _ => id⟩
  obtain ⟨o, next, mem, kept, slots⟩ := above
  obtain ⟨below, children⟩ := children_of_mem_branches mem
  rw [children] at child
  obtain ⟨o', mem', next', inside, -⟩ := exists_of_mem_branchesOf child
  exact ⟨o', next', inside, kept.child mem', fun i slot =>
    slots i (Outline.mem_docs_of_children (Outline.mem_docsOf mem' slot))⟩

/-- The places of the comments among some nodes. -/
def commentSpans (bs : List Branch) : List Span :=
  (bs.filter fun b => b.kind == .comment).map Branch.span

@[simp] theorem commentSpans_append (bs cs : List Branch) :
    commentSpans (bs ++ cs) = commentSpans bs ++ commentSpans cs := by
  rw [commentSpans, List.filter_append, List.map_append, commentSpans, commentSpans]

mutual

/-- Comments stand where slots are filled. -/
theorem commentSpans_branches (next : Nat) : (o : Outline) → o.Kept known →
    commentSpans (Branch.allOf (l.branches next o)) = o.docs.filterMap l.docSpan?
  | .doc token, _ => by
    rw [branches, Outline.docs]
    cases found : l.docSpan? token <;> simp [commentSpans, Branch.allOf, Branch.all, found,
      Branch.kind, Branch.span]
  | .node kind first last cs, kept => by
    have other := kept.kind_ne_comment
    have inner := commentSpans_branchesOf next cs fun c mem => kept.child mem
    rw [branches, Outline.docs, ← inner, Branch.allOf, Branch.all, Branch.allOf, List.append_nil,
      commentSpans_append]
    simp [commentSpans, Branch.kind, other]

theorem commentSpans_branchesOf (next : Nat) : (cs : List Outline) → (∀ c ∈ cs, c.Kept known) →
    commentSpans (Branch.allOf (l.branchesOf next cs)) = (docsOf cs).filterMap l.docSpan?
  | [], _ => rfl
  | c :: cs, kept => by
    rw [branchesOf, Branch.allOf_append, commentSpans_append, docsOf, List.filterMap_append,
      commentSpans_branches next c (kept c List.mem_cons_self),
      commentSpans_branchesOf _ cs fun d mem => kept d (List.mem_cons_of_mem c mem)]

end

/-- Of a slot and what has no comments, only the slot becomes a comment, and it covers a run. -/
theorem comment_of_slot (next : Nat) {i : Nat} {cs : List Outline} {run : List Span}
    (covers : l.docSpan? i = coverRun? run) (plain : ∀ c ∈ cs, c.kind ≠ .comment) :
    ((∃ b ∈ l.branchesOf next (.doc i :: cs), b.kind = .comment) ↔ run ≠ []) ∧
      ∀ b ∈ l.branchesOf next (.doc i :: cs), b.kind = .comment →
        (l.branchesOf next (.doc i :: cs)).head? = some b ∧ coverRun? run = some b.span := by
  have others {next : Nat} {b : Branch} (part : b ∈ l.branchesOf next cs) : b.kind ≠ .comment := by
    obtain ⟨o, inside, next', drawn, -⟩ := exists_of_mem_branchesOf part
    rw [kind_of_mem_branches drawn]
    exact plain o inside
  rw [branchesOf, branches, covers]
  cases run with
  | nil =>
    refine ⟨iff_of_false ?_ (not_not_intro rfl), fun b part comment => absurd comment (others part)⟩
    rintro ⟨b, part, comment⟩
    exact others part comment
  | cons c cs =>
    refine ⟨iff_of_true ⟨_, List.mem_cons_self, rfl⟩ (List.cons_ne_nil c cs),
      fun b part comment => ?_⟩
    rcases List.mem_cons.mp part with rfl | part
    · exact ⟨rfl, rfl⟩
    · exact absurd comment (others part)

/-- A token stops before the doc comment of a later one starts. -/
theorem tokenStop_le_stopBefore (h : l.Faithful) {i k : Nat} (lt : i < k) :
    l.tokenStop i ≤ l.stopBefore k := by
  cases k with
  | zero => exact absurd lt (Nat.not_lt_zero i)
  | succ k =>
    have marks : Mark.stop i ≤ Mark.stop k := by
      simp only [Mark.stop]
      omega
    have between := offset_le h marks
    rwa [offset_stop, offset_stop] at between

/-- The tokens behind the doc comment of a token are the token and those behind it. -/
theorem offset_doc_le_iff (h : l.Faithful) {i k : Nat} (inside : k < l.lexemes.size) :
    l.offset (Mark.doc i) ≤ l.tokenStart k ↔ l.tokenStart i ≤ l.tokenStart k := by
  obtain ⟨lower, upper⟩ := bounds_offset_doc h i
  refine ⟨fun le => ?_, Nat.le_trans upper⟩
  rcases Nat.lt_or_ge k i with before | behind
  · have stop := tokenStop_le_stopBefore h before
    have taken := start_lt_stop h.ordered inside
    omega
  · have marks : Mark.start i ≤ Mark.start k := by
      simp only [Mark.start]
      omega
    have between := offset_le h marks
    rwa [offset_start, offset_start] at between

/-- The doc comments of tokens stand in the order of the tokens. -/
theorem pairwise_docSpans (h : l.Faithful) {tokens : List Nat} (order : tokens.Pairwise (· < ·))
    (inside : ∀ i ∈ tokens, i < l.lexemes.size) :
    (tokens.filterMap l.docSpan?).Pairwise fun s s' => s.stop ≤ s'.start := by
  have order : tokens.Pairwise fun i k => i < k ∧ k < l.lexemes.size :=
    order.imp_of_mem fun _ mem lt => ⟨lt, inside _ mem⟩
  refine order.filterMap l.docSpan? fun i k before s found s' found' => ?_
  obtain ⟨lt, last⟩ := before
  have first := (h.bounds_docSpan (Nat.lt_trans lt last).le found).2.2
  have second := (h.bounds_docSpan last.le found').1
  have taken := start_le_stop h.ordered i
  have between := tokenStop_le_stopBefore h lt
  omega

/-- Of two comments of a program one stops before the other starts. -/
theorem apart_of_comment (h : l.Faithful) (housed : body.Housed known)
    (slots : body.docs.Pairwise (· < ·)) (inside : ∀ i ∈ body.docs, i < l.lexemes.size)
    {b c : Branch} (mem : b ∈ (l.root body).all) (mem' : c ∈ (l.root body).all)
    (comment : b.kind = .comment) (comment' : c.kind = .comment) (ne : b ≠ c) :
    b.span.stop ≤ c.span.start ∨ c.span.stop ≤ b.span.start := by
  have among {b : Branch} (mem : b ∈ (l.root body).all) (comment : b.kind = .comment) :
      b ∈ (Branch.allOf (l.branches 0 body)).filter fun b => b.kind == .comment := by
    rw [root, Branch.all, List.mem_append, List.mem_singleton] at mem
    rcases mem with mem | rfl
    · exact List.mem_filter.mpr ⟨mem, beq_iff_eq.mpr comment⟩
    · exact absurd comment (by simp [Branch.kind])
  have spans : (commentSpans (Branch.allOf (l.branches 0 body))).Pairwise
      fun s s' => s.stop ≤ s'.start := by
    rw [commentSpans_branches 0 body housed.kept]
    exact pairwise_docSpans h slots inside
  have apart : ((Branch.allOf (l.branches 0 body)).filter fun b => b.kind == .comment).Pairwise
      fun b c => b.span.stop ≤ c.span.start ∨ c.span.stop ≤ b.span.start :=
    (List.pairwise_map.mp spans).imp Or.inl
  have symm : Std.Symm fun b c : Branch =>
      b.span.stop ≤ c.span.start ∨ c.span.stop ≤ b.span.start := ⟨fun _ _ => Or.symm⟩
  exact apart.forall (among mem comment) (among mem' comment') ne

end Layout

/-! ## Trees -/

namespace Tree.Grows

open Layout (ofLexed)

variable {t : Tree} {r b : Branch} {text : String} {lexed : Lexed}

theorem tokenStart_ofLexed {i : Nat} (inside : i < lexed.lexemes.size) :
    (ofLexed text lexed).tokenStart i = lexed.lexemes[i].span.start :=
  Layout.tokenStart_of_lt inside

theorem tokenStop_ofLexed {i : Nat} (inside : i < lexed.lexemes.size) :
    (ofLexed text lexed).tokenStop i = lexed.lexemes[i].span.stop :=
  Layout.tokenStop_of_lt inside

section Entries

variable (h : t.Grows r) (same : t.text = text) (faithful : (ofLexed text lexed).Faithful)
  {errors : List SyntaxError} {i last next : Nat} {cs ds : List Outline}

include h same faithful

/-- A statement with a slot for the token it begins at has the comment in front of this token. -/
theorem documented (mem : b ∈ r.all) (inside : i < lexed.lexemes.size)
    (start : b.span.start = (ofLexed text lexed).offset (Mark.doc i))
    (children : b.children = (ofLexed text lexed).branchesOf next (.doc i :: ds))
    (plain : ∀ d ∈ ds, d.kind ≠ .comment) : t.Documented lexed b.id lexed.lexemes[i] where
  token := Array.getElem_mem_toList inside
  first y mem' := by
    obtain ⟨k, inside', rfl⟩ := List.getElem_of_mem mem'
    have tokens := Layout.offset_doc_le_iff (i := i) faithful inside'
    rw [← start, tokenStart_ofLexed inside, tokenStart_ofLexed inside'] at tokens
    rw [Tree.start, h.span mem]
    exact tokens
  comment := by
    obtain ⟨run, isRun, covers⟩ := faithful.exists_commentRun i
    obtain ⟨present, only⟩ := Layout.comment_of_slot next covers plain
    have kinds : ∀ c ∈ b.children, t.kind c.id = c.kind := fun c child =>
      h.kind (mem_of_child mem child)
    rw [tokenStart_ofLexed inside, ← same] at isRun
    rw [← children] at present only
    refine ⟨run, isRun, ?_, ?_⟩
    · rw [h.children mem, ← present]
      simp only [List.mem_map, exists_exists_and_eq_and]
      exact exists_congr fun c => and_congr_right fun child => by rw [kinds c child]
    · rw [h.children mem]
      intro id mem' comment
      obtain ⟨c, child, rfl⟩ := List.mem_map.mp mem'
      rw [kinds c child] at comment
      obtain ⟨head, cover⟩ := only c child comment
      rw [List.head?_map, head, h.span (mem_of_child mem child)]
      exact ⟨rfl, cover⟩

/-- A statement in front of what a block holds. -/
theorem entries_statement {kind : NodeKind} (form : kind.isForm = true) (reach : Mark.stop i ≤ last)
    (plain : ∀ d ∈ ds, d.kind ≠ .comment) (inside : i < lexed.lexemes.size)
    (mem : ∀ b ∈ (ofLexed text lexed).branchesOf next
      (.node kind (Mark.doc i) last (.doc i :: ds) :: cs), b ∈ r.all)
    (rest : ∀ below, (∀ b ∈ (ofLexed text lexed).branchesOf below cs, b ∈ r.all) →
      t.Entries lexed errors (((ofLexed text lexed).branchesOf below cs).map Branch.id)) :
    t.Entries lexed errors (((ofLexed text lexed).branchesOf next
      (.node kind (Mark.doc i) last (.doc i :: ds) :: cs)).map Branch.id) := by
  obtain ⟨b, below, eq, isForm, span, children⟩ :=
    (ofLexed text lexed).exists_branchesOf_eq next kind (Mark.doc i) last (.doc i :: ds) cs
  rw [eq] at mem ⊢
  obtain ⟨stat, others⟩ := List.forall_mem_cons.mp mem
  have behind := Layout.offset_le faithful reach
  rw [Layout.offset_stop, tokenStop_ofLexed inside] at behind
  refine .statement ?_ (h.documented same faithful stat inside (by rw [span]) children plain) ?_
    (rest below others)
  · rw [h.kind stat, isForm]
    exact form
  · rw [Tree.stop, h.span stat, span]
    exact behind

/-- A statement that is none, and the token that was dropped, in front of what a block holds. -/
theorem entries_dropped (inside : i < lexed.lexemes.size)
    (mem : ∀ b ∈ (ofLexed text lexed).branchesOf next
      (.node .error (Mark.doc i) last [.doc i] :: .leaf .error i :: cs), b ∈ r.all)
    (rest : ∀ below, (∀ b ∈ (ofLexed text lexed).branchesOf below cs, b ∈ r.all) →
      t.Entries lexed errors (((ofLexed text lexed).branchesOf below cs).map Branch.id)) :
    t.Entries lexed errors (((ofLexed text lexed).branchesOf next
      (.node .error (Mark.doc i) last [.doc i] :: .leaf .error i :: cs)).map Branch.id) := by
  obtain ⟨b, middle, eq, error, span, children⟩ := (ofLexed text lexed).exists_branchesOf_eq next
    .error (Mark.doc i) last [.doc i] (.leaf .error i :: cs)
  obtain ⟨d, below, eq', error', span', none⟩ := (ofLexed text lexed).exists_branchesOf_eq middle
    .error (Mark.start i) (Mark.stop i) [] cs
  rw [eq, Outline.leaf, eq'] at mem ⊢
  obtain ⟨stat, mem⟩ := List.forall_mem_cons.mp mem
  obtain ⟨token, others⟩ := List.forall_mem_cons.mp mem
  refine .dropped ((h.kind stat).trans error) (h.documented same faithful stat inside
    (by rw [span]) children (List.forall_mem_nil _)) ((h.kind token).trans error') ?_ ?_
    (rest below others)
  · rw [h.children token, none]
    rfl
  · rw [h.span token, span', Layout.offset_start, Layout.offset_stop, tokenStart_ofLexed inside,
      tokenStop_ofLexed inside]

omit faithful in
/-- The error at the end of a block where the nesting is too deep. -/
theorem entries_cut
    (fault : .tooDeep maxNesting ⟨(ofLexed text lexed).tokenStart i, text.utf8ByteSize⟩ ∈ errors)
    (mem : ∀ b ∈ (ofLexed text lexed).branchesOf next [.empty .error (Mark.start i)], b ∈ r.all) :
    t.Entries lexed errors (((ofLexed text lexed).branchesOf next
      [.empty .error (Mark.start i)]).map Branch.id) := by
  obtain ⟨b, below, eq, error, span, none⟩ := (ofLexed text lexed).exists_branchesOf_eq next
    .error (Mark.start i) (Mark.start i) [] []
  rw [Outline.empty, eq] at mem ⊢
  have stat := mem b List.mem_cons_self
  rw [Layout.offset_start] at span
  refine .cut ((h.kind stat).trans error) ?_ ?_ ?_
  · rw [h.children stat, none]
    rfl
  · rw [Tree.start, h.span stat, span]
  · rw [Tree.start, h.span stat, span, same]
    exact fault

/-- What a block of an outline holds is what the block of the tree holds. -/
theorem entries {known : List Fault} {cs : List Outline}
    (deep : ∀ i, .tooDeep i ∈ known →
      .tooDeep maxNesting ⟨(ofLexed text lexed).tokenStart i, text.utf8ByteSize⟩ ∈ errors)
    (held : Outline.Entries known cs) (next : Nat)
    (mem : ∀ b ∈ (ofLexed text lexed).branchesOf next cs, b ∈ r.all)
    (slots : ∀ i ∈ Outline.docsOf cs, i < lexed.lexemes.size) :
    t.Entries lexed errors (((ofLexed text lexed).branchesOf next cs).map Branch.id) := by
  cases held with
  | nil => exact .nil
  | @stat _ i _ _ _ form reach all rest =>
    refine h.entries_statement same faithful form reach (fun d part => (all d part).kind_ne.1)
      (slots i List.mem_cons_self) mem fun below others => ?_
    exact entries deep rest below others fun k slot =>
      slots k (List.mem_append_right _ slot)
  | @dropped i _ _ rest =>
    refine h.entries_dropped same faithful (slots i List.mem_cons_self) mem fun below others => ?_
    exact entries deep rest below others fun k slot =>
      slots k (List.mem_append_right _ (List.mem_append_right _ slot))
  | cut fault => exact h.entries_cut same (deep _ fault) mem
termination_by cs.length

end Entries

variable {l : Layout} {body : Outline} {known : List Fault} {id : NodeId}

/-- A node that is neither the root nor a stray one is drawn from something that is kept. -/
theorem exists_kept (h : t.Grows (l.root body)) (housed : body.Housed known)
    (stray : t.kind id ≠ .error) (root : t.kind id ≠ .chunk) :
    ∃ b ∈ (l.root body).all, b.id = id ∧ ∃ o next, b ∈ l.branches next o ∧ o.Kept known
      ∧ ∀ i ∈ o.docs, i ∈ body.docs := by
  have inside : id < t.size := by
    by_contra outside
    exact stray (kind_of_ge (Nat.le_of_not_lt outside))
  obtain ⟨b, mem, rfl⟩ := h.exists_mem inside
  have mem' := mem
  rw [Layout.root, Branch.all, List.mem_append, List.mem_singleton] at mem'
  rcases mem' with below | rfl
  · exact ⟨b, mem, rfl, Layout.exists_kept housed b below⟩
  · exact absurd (h.kind mem) root

/-- A block of the tree holds what a block of the outline holds. -/
theorem entries_of_block (h : t.Grows ((ofLexed text lexed).root body)) (same : t.text = text)
    (faithful : (ofLexed text lexed).Faithful) (housed : body.Housed known)
    (slots : ∀ i ∈ body.docs, i < lexed.lexemes.size) {errors : List SyntaxError}
    (deep : ∀ i, .tooDeep i ∈ known →
      .tooDeep maxNesting ⟨(ofLexed text lexed).tokenStart i, text.utf8ByteSize⟩ ∈ errors)
    (block : t.kind id = .block) : t.Entries lexed errors (t.children id) := by
  obtain ⟨b, mem, rfl, o, next, drawn, kept, docs⟩ :=
    h.exists_kept housed (by rw [block]; decide) (by rw [block]; decide)
  rw [h.kind mem, Layout.kind_of_mem_branches drawn] at block
  obtain ⟨below, children⟩ := Layout.children_of_mem_branches drawn
  rw [h.children mem, children]
  refine h.entries same faithful deep (kept.entries block) below (fun c child => ?_) fun i slot =>
    slots i (docs i (Outline.mem_docs_of_children slot))
  exact mem_of_child mem (children ▸ child)

/-- Statements stand in blocks. -/
theorem exists_block (h : t.Grows (l.root body)) (housed : body.Housed known)
    (stat : (t.kind id).isStatement = true) : ∃ β, t.kind β = .block ∧ id ∈ t.children β := by
  have other : t.kind id ≠ .error ∧ t.kind id ≠ .chunk := by
    constructor <;> intro same <;> rw [same] at stat <;> exact absurd stat Bool.false_ne_true
  obtain ⟨b, mem, rfl, -⟩ := h.exists_kept housed other.1 other.2
  rw [h.kind mem] at stat
  obtain ⟨p, mem', child⟩ : ∃ p ∈ (l.root body).all, b ∈ p.children := by
    refine (Branch.eq_or_exists_parent _ mem).resolve_left ?_
    rintro rfl
    exact other.2 (h.kind mem)
  refine ⟨p.id, ?_, h.children mem' ▸ List.mem_map_of_mem child⟩
  rw [h.kind mem']
  rw [Layout.root, Branch.all, List.mem_append, List.mem_singleton] at mem'
  rcases mem' with below | rfl
  · obtain ⟨o, next, drawn, kept, -⟩ := Layout.exists_kept housed p below
    obtain ⟨next', children⟩ := Layout.children_of_mem_branches drawn
    rw [children] at child
    obtain ⟨c, part, n, drawn', -⟩ := Layout.exists_of_mem_branchesOf child
    rw [Layout.kind_of_mem_branches drawn'] at stat
    rw [Layout.kind_of_mem_branches drawn]
    exact kept.kind_eq_block part stat
  · rw [Layout.kind_of_mem_branches child, housed.kind_ne.2] at stat
    exact absurd stat Bool.false_ne_true

/-- No comment of the text lies in two doc comments. -/
theorem eq_of_comment (h : t.Grows (l.root body)) (faithful : l.Faithful)
    (housed : body.Housed known) (slots : body.docs.Pairwise (· < ·))
    (within : ∀ i ∈ body.docs, i < l.lexemes.size) {s : Span} (taken : s.start < s.stop)
    {c c' : NodeId} (comment : t.kind c = .comment)
    (comment' : t.kind c' = .comment) (inside : (t.span c).containsSpan s = true)
    (inside' : (t.span c').containsSpan s = true) : c = c' := by
  have drawn {id : NodeId} (comment : t.kind id = .comment)
      (inside : (t.span id).containsSpan s = true) : ∃ b ∈ (l.root body).all, b.id = id
        ∧ b.kind = .comment ∧ b.span.start ≤ s.start ∧ s.stop ≤ b.span.stop := by
    obtain ⟨b, mem, rfl, -⟩ := h.exists_kept housed (by rw [comment]; decide)
      (by rw [comment]; decide)
    rw [h.kind mem] at comment
    rw [h.span mem, Span.containsSpan, Bool.and_eq_true, decide_eq_true_eq,
      decide_eq_true_eq] at inside
    exact ⟨b, mem, rfl, comment, inside⟩
  obtain ⟨b, mem, rfl, comment, start, stop⟩ := drawn comment inside
  obtain ⟨b', mem', rfl, comment', start', stop'⟩ := drawn comment' inside'
  by_contra ne
  have apart := Layout.apart_of_comment faithful housed slots within mem mem' comment comment'
    fun same => ne (congrArg Branch.id same)
  omega

end Tree.Grows

/-- In every text the doc comment of a statement is the run of comments in front of it, where every
place of the text has an offset of its own. -/
theorem Parsed.commented_ofText {text : String} (small : text.utf8ByteSize < offsetCount) :
    (ofText text).Commented (Lexed.ofText text) := by
  have faithful := Layout.faithful_ofLexed small
  have housed := Program.housed maxNesting ((Lexed.ofText text).lexemes.map Lexeme.token).toList
  obtain ⟨slots, within⟩ := Program.ascend_docs maxNesting
    ((Lexed.ofText text).lexemes.map Lexeme.token).toList
  rw [Array.length_toList, Array.size_map] at within
  have within := fun i slot => (within i slot).2
  have grows := grows_root maxNesting small
  refine ⟨fun β block => ?_, fun id stat => ?_,
    fun s mem c c' comment comment' inside inside' => ?_⟩
  · refine grows.entries_of_block rfl faithful housed within (fun i fault => ?_) block
    rw [List.mem_reverse] at fault
    have error := List.mem_map_of_mem
      (f := (Layout.ofLexed text (Lexed.ofText text)).syntaxError maxNesting) fault
    rw [faithful.syntaxError_tooDeep] at error
    rw [ofText, errors_ofTextWithin]
    exact List.mem_append_right _ error
  · exact grows.exists_block housed stat
  · exact grows.eq_of_comment faithful housed slots within
      (faithful.ordered.comment_nonempty s mem) comment comment' inside inside'

/-- A comment in front of a statement. -/
theorem Parsed.commented_ofText_line : "--a\nx = 1".utf8ByteSize < offsetCount
    ∧ (ofText "--a\nx = 1").Commented (Lexed.ofText "--a\nx = 1")
    ∧ (ofText "--a\nx = 1").tree.kind 0 = .comment
    ∧ (ofText "--a\nx = 1").tree.span 0 = ⟨0, 3⟩ := by
  have small : "--a\nx = 1".utf8ByteSize < offsetCount := by decide +kernel
  exact ⟨small, Parsed.commented_ofText small, by decide +kernel, by decide +kernel⟩

/-- A line comment and a block comment in front of one statement, and a comment behind it. -/
example :
    let t := (Parsed.ofText "--a\n--[[b]]\nx = 1 --c\ny = 2").tree
    (t.walk.filter fun id => t.kind id == .comment).map t.span = [⟨0, 11⟩] := by decide +kernel

end LuaTyping
