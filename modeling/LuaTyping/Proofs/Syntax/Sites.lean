import LuaTyping.Proofs.Syntax.Arranged

/-!
# Nodes in the order of a walk

A walk over the tree of a text without faults meets the groups of its phrase, each group before
what stands in it, and besides them the comments in front of statements.  So the nodes of some kinds
are, in the order of the walk, the groups of these kinds, and their places are the places of the
groups' words.

* `Phrase.sites`: the groups of a phrase, each with its first word and the number of its words.
* `Branch.inOrder`: the nodes of a branch in the order of a walk.
* `Layout.map_span_outlines`: the nodes of a phrase are its groups.
* `Layout.containsSpan_spanOf`: a group holds a token if the token is one of its words.
-/

namespace LuaTyping

namespace Phrase

/-- A group among the tokens of a text: its kind, its first token and the number of its tokens. -/
structure GroupAt where
  kind : NodeKind
  first : Nat
  count : Nat
  deriving DecidableEq, Repr

mutual

/-- The groups of a phrase that stands at token `i`, each before those inside it. -/
def sites (i : Nat) : Phrase → List GroupAt
  | word _ => []
  | group kind parts => ⟨kind, i, count parts⟩ :: sitesOf i parts
termination_by structural p => p

/-- The groups of phrases in a row. -/
def sitesOf (i : Nat) : List Phrase → List GroupAt
  | [] => []
  | p :: ps => sites i p ++ sitesOf (i + p.words.length) ps
termination_by structural ps => ps

end

mutual

/-- The words of a group are among those of the phrase. -/
theorem bounds_sites {i : Nat} {s : GroupAt} : (p : Phrase) → s ∈ sites i p →
    i ≤ s.first ∧ s.first + s.count ≤ i + p.words.length
  | word _, mem => absurd mem List.not_mem_nil
  | group kind parts, mem => by
    rw [length_words_group]
    rcases List.mem_cons.mp mem with rfl | mem
    · exact ⟨Nat.le_refl _, Nat.le_refl _⟩
    · exact bounds_sitesOf parts mem

theorem bounds_sitesOf {i : Nat} {s : GroupAt} : (ps : List Phrase) → s ∈ sitesOf i ps →
    i ≤ s.first ∧ s.first + s.count ≤ i + Phrase.count ps
  | [], mem => absurd mem List.not_mem_nil
  | p :: ps, mem => by
    rw [count_cons]
    rcases List.mem_append.mp mem with mem | mem
    · have bounds := bounds_sites p mem
      omega
    · have bounds := bounds_sitesOf ps mem
      omega

end

end Phrase

/-! ## Branches -/

namespace Branch

mutual

/-- The nodes of a branch, each before what is below it. -/
def inOrder : Branch → List Branch
  | node id kind span children => node id kind span children :: inOrderOf children
termination_by structural b => b

def inOrderOf : List Branch → List Branch
  | [] => []
  | b :: bs => b.inOrder ++ inOrderOf bs
termination_by structural bs => bs

end

theorem inOrderOf_append (bs cs : List Branch) :
    inOrderOf (bs ++ cs) = inOrderOf bs ++ inOrderOf cs := by
  induction bs with
  | nil => rfl
  | cons b bs ih => rw [List.cons_append, inOrderOf, inOrderOf, ih, List.append_assoc]

mutual

theorem map_id_inOrder : (b : Branch) → b.inOrder.map Branch.id = b.preorder
  | node id kind span children => by
    rw [inOrder, preorder, List.map_cons, map_id_inOrderOf children]
    rfl

theorem map_id_inOrderOf : (bs : List Branch) → (inOrderOf bs).map Branch.id = preorderOf bs
  | [] => rfl
  | b :: bs => by
    rw [inOrderOf, preorderOf, List.map_append, map_id_inOrder b, map_id_inOrderOf bs]

end

mutual

theorem mem_all_of_mem_inOrder {c : Branch} : (b : Branch) → c ∈ b.inOrder → c ∈ b.all
  | node id kind span children, mem => by
    rw [all, List.mem_append, List.mem_singleton]
    rcases List.mem_cons.mp mem with here | below
    · exact .inr here
    · exact .inl (mem_allOf_of_mem_inOrderOf children below)

theorem mem_allOf_of_mem_inOrderOf {c : Branch} : (bs : List Branch) → c ∈ inOrderOf bs →
    c ∈ allOf bs
  | [], mem => mem
  | b :: bs, mem => by
    rw [allOf, List.mem_append]
    exact (List.mem_append.mp mem).imp (mem_all_of_mem_inOrder b) (mem_allOf_of_mem_inOrderOf bs)

end

end Branch

namespace Tree

/-- The nodes that a walk meets are those of the branch. -/
theorem Grows.map_span_walk {t : Tree} {r : Branch} (h : t.Grows r) (P : NodeKind → Bool) :
    (t.walk.filter fun id => P (t.kind id)).map t.span
      = (r.inOrder.filter fun b => P b.kind).map Branch.span := by
  have kinds : r.inOrder.filter (fun b => P (t.kind b.id)) = r.inOrder.filter fun b => P b.kind :=
    List.filter_congr fun b mem => by rw [h.kind (Branch.mem_all_of_mem_inOrder r mem)]
  rw [h.walk_eq, ← Branch.map_id_inOrder, List.filter_map, List.map_map]
  refine (congrArg _ kinds).trans (List.map_congr_left fun b mem => ?_)
  exact h.span (Branch.mem_all_of_mem_inOrder r (List.mem_filter.mp mem).1)

end Tree

/-! ## Layouts -/

namespace Layout

open Phrase (GroupAt sites sitesOf outlinesOf docSlot firstMark lastMark)

variable {l : Layout}

/-- The place of a group in the text. -/
def spanOf (l : Layout) (s : GroupAt) : Span :=
  ⟨l.offset (firstMark s.kind s.first s.count), l.offset (lastMark s.kind s.first s.count)⟩

/-- In front of a statement are only comments. -/
theorem filter_inOrderOf_docSlot {P : NodeKind → Bool} (noComment : P .comment = false)
    (next i : Nat) (kind : NodeKind) :
    (Branch.inOrderOf (l.branchesOf next (docSlot kind i))).filter (fun b => P b.kind) = [] := by
  refine List.filter_eq_nil_iff.mpr fun b mem => ?_
  obtain ⟨c, inside, mem⟩ := Branch.mem_allOf.mp (Branch.mem_allOf_of_mem_inOrderOf _ mem)
  have comment := isComment_of_mem_docSlot inside
  rw [Branch.all_eq, comment.2] at mem
  rw [List.mem_singleton.mp mem, comment.1, noComment]
  exact Bool.false_ne_true

mutual

/-- The nodes of a phrase of some kinds are its groups of these kinds, in order. -/
theorem map_span_outlines {P : NodeKind → Bool} (noComment : P .comment = false) {i : Nat} :
    (p : Phrase) → (next : Nat) →
      ((Branch.inOrderOf (l.branchesOf next (Phrase.outlines i p))).filter
          fun b => P b.kind).map Branch.span
        = ((sites i p).filter fun s => P s.kind).map l.spanOf
  | .word w, _ => rfl
  | .group kind parts, next => by
    obtain ⟨id, below, eq⟩ := l.branchesOf_group next i kind parts
    have inner := map_span_outlinesOf noComment (i := i) parts below
    have docs := l.filter_inOrderOf_docSlot noComment next i kind
    rw [eq, Branch.inOrderOf, Branch.inOrderOf, List.append_nil, Branch.inOrder, sites,
      Branch.inOrderOf_append, List.filter_cons, Branch.kind, List.filter_append, docs,
      List.nil_append, List.filter_cons]
    split
    · rw [List.map_cons, List.map_cons, inner]
      rfl
    · exact inner

theorem map_span_outlinesOf {P : NodeKind → Bool} (noComment : P .comment = false) {i : Nat} :
    (ps : List Phrase) → (next : Nat) →
      ((Branch.inOrderOf (l.branchesOf next (outlinesOf i ps))).filter
          fun b => P b.kind).map Branch.span
        = ((sitesOf i ps).filter fun s => P s.kind).map l.spanOf
  | [], _ => rfl
  | p :: ps, next => by
    rw [outlinesOf, branchesOf_append, Branch.inOrderOf_append, List.filter_append, List.map_append,
      map_span_outlines noComment p next, map_span_outlinesOf noComment ps _, sitesOf,
      List.filter_append, List.map_append]

end

/-- The nodes of a tree of some kinds are the groups of its phrase of these kinds, in order. -/
theorem map_span_walk {t : Tree} {body : Outline} {ps : List Phrase}
    (grows : t.Grows (l.root body)) (outline : [body] = outlinesOf 0 ps) {P : NodeKind → Bool}
    (noComment : P .comment = false) (noChunk : P .chunk = false) :
    (t.walk.filter fun id => P (t.kind id)).map t.span
      = ((sitesOf 0 ps).filter fun s => P s.kind).map l.spanOf := by
  have below : l.branches 0 body = l.branchesOf 0 (outlinesOf 0 ps) := by
    rw [← outline, branchesOf_singleton]
  rw [grows.map_span_walk, root, Branch.inOrder, below,
    List.filter_cons_of_neg (by simp [Branch.kind, noChunk]), map_span_outlinesOf noComment]

/-- A group holds a token if the token is one of its words. -/
theorem containsSpan_spanOf (h : l.Faithful) {k : Nat} (inside : k < l.lexemes.size) {s : GroupAt}
    (plain : firstMark s.kind s.first s.count = Mark.start s.first) :
    (l.spanOf s).containsSpan l.lexemes[k].span = true
      ↔ s.first ≤ k ∧ k < s.first + s.count := by
  have start : l.offset (Mark.start k) = l.lexemes[k].span.start := by
    rw [offset_start, tokenStart_of_lt inside]
  have stop : l.offset (Mark.stop k) = l.lexemes[k].span.stop := by
    rw [offset_stop, tokenStop_of_lt inside]
  rw [spanOf, Span.containsSpan, Bool.and_eq_true, decide_eq_true_eq, decide_eq_true_eq, lastMark,
    plain, ← start, ← stop]
  constructor
  · rintro ⟨front, back⟩
    constructor
    · by_contra before
      refine Nat.not_lt.mpr front (offset_lt h inside (Nat.le_refl _) ?_)
      simp only [Mark.stop, Mark.start]
      omega
    · by_contra behind
      refine Nat.not_lt.mpr back (offset_lt h inside ?_ (Nat.le_refl _))
      simp only [Mark.stopBefore, Mark.start]
      omega
  · rintro ⟨front, back⟩
    constructor
    · refine offset_le h ?_
      simp only [Mark.start]
      omega
    · refine offset_le h (Nat.le_trans ?_ (Nat.le_max_left _ _))
      simp only [Mark.stop, Mark.stopBefore]
      omega

end Layout

end LuaTyping
