import Mathlib.Data.List.Forall2
import LuaTyping.Proofs.Syntax.Offsets
import LuaTyping.Proofs.Syntax.Table
import LuaTyping.Proofs.Syntax.Spread
import LuaTyping.Proofs.Infer.Alike

/-!
# The same tokens with other spaces

Two layouts without comments are *respaced* if they have the same tokens, whatever stands between
them.  An outline makes the same table in both but for the spans, and these are the offsets of the
same marks.  Where a mark is compared with the start of a token, the answer is the order of the
marks in both layouts, since a token takes at least one byte; it is only the end of a token and the
start of the next one that one layout may tell apart and the other not.

* `Layout.Respaced`, `Tree.Respaced`.
* `Layout.Respaced.offset_le_tokenStart_iff`: the order of a mark and a token.
* `Layout.rows_root`: the rows of a program in respaced layouts.
* `Layout.Respaced.tree`: an outline makes the same tree in respaced layouts.
-/

namespace LuaTyping

open Outline (Lies LieIn Sited)

/-! ## Layouts -/

/-- The layouts have the same tokens and no comments. -/
structure Layout.Respaced (l l' : Layout) : Prop where
  faithful : l.Faithful
  faithful' : l'.Faithful
  bare : l.comments = #[]
  bare' : l'.comments = #[]
  size_eq : l.lexemes.size = l'.lexemes.size
  text_eq : ∀ i < l.lexemes.size, Span.slice l.text ⟨l.tokenStart i, l.tokenStop i⟩
    = Span.slice l'.text ⟨l'.tokenStart i, l'.tokenStop i⟩

namespace Layout

/-- Without comments there are no doc comments. -/
theorem docSpan?_eq_none {l : Layout} (bare : l.comments = #[]) (token : Nat) :
    l.docSpan? token = none := by
  have none : l.commentsBefore token = [] := by
    rw [commentsBefore, bare]
    simp
  rw [docSpan?, none, docRun]
  rfl

/-- A mark is no later than the start of a token if it is so as a number. -/
theorem offset_le_tokenStart_iff {l : Layout} (h : l.Faithful) {mark i : Nat}
    (inside : i < l.lexemes.size) : l.offset mark ≤ l.tokenStart i ↔ mark ≤ Mark.start i := by
  rw [← offset_start]
  constructor
  · intro le
    by_contra behind
    have stop : Mark.stop i ≤ mark := by
      simp only [Mark.start, Mark.stop] at behind ⊢
      omega
    exact absurd le (Nat.not_le_of_lt (offset_lt h inside (Nat.le_refl _) stop))
  · exact offset_le h

/-! ## Branches -/

variable {l l' : Layout}

mutual

/-- Without comments the nodes of an outline are the same in all layouts, but for their places. -/
theorem bareOf_branches (bare : l.comments = #[]) (bare' : l'.comments = #[]) (next : Nat) :
    (o : Outline) →
    Branch.bareOf (l.branches next o) = Branch.bareOf (l'.branches next o)
  | .doc token => by
    rw [branches, branches, docSpan?_eq_none bare, docSpan?_eq_none bare']
  | .node kind first last children => by
    have below := bareOf_branchesOf bare bare' next children
    have count := Branch.length_allOf_eq below
    simp only [branches, Branch.bareOf, Branch.bare, below, count]

theorem bareOf_branchesOf (bare : l.comments = #[]) (bare' : l'.comments = #[]) (next : Nat) :
    (os : List Outline) →
    Branch.bareOf (l.branchesOf next os) = Branch.bareOf (l'.branchesOf next os)
  | [] => rfl
  | o :: os => by
    have head := bareOf_branches bare bare' next o
    have count := Branch.length_allOf_eq head
    have tail := bareOf_branchesOf bare bare'
      (next + (Branch.allOf (l.branches next o)).length) os
    rw [Branch.bareOf_eq_map, Branch.bareOf_eq_map] at head tail ⊢
    rw [branchesOf, branchesOf, List.map_append, List.map_append, head, tail, count]

end

/-- The rows are of one node: the same but for the span, and at the same marks.  Nothing is said
of the span of a whole program. -/
structure Row.Respaced (l l' : Layout) (n n' : Node) : Prop where
  kind_eq : n.kind = n'.kind
  parent_eq : n.parent = n'.parent
  children_eq : n.children = n'.children
  notComment : n.kind ≠ .comment
  place : n.kind = .chunk ∨ n.kind = .error ∨ ∃ first last,
    n.span = ⟨l.offset first, l.offset last⟩ ∧ n'.span = ⟨l'.offset first, l'.offset last⟩ ∧
    (n.kind.isWord = true → ∃ i < l.lexemes.size, first = Mark.start i ∧ last = Mark.stop i)

/-- An outline that lies somewhere among the tokens of the layout. -/
def LiesWithin (l : Layout) (o : Outline) : Prop := ∃ i j, Lies i j o ∧ j ≤ l.lexemes.size

/-- A node with the given marks is at the same place in both layouts. -/
theorem Row.Respaced.of_sited {i j first last : Nat} {kind : NodeKind} {cs : List Outline}
    {parent : Option NodeId} {below : List NodeId}
    (sited : Sited i j first last kind cs) (within : j ≤ l.lexemes.size) :
    Row.Respaced l l' ⟨kind, ⟨l.offset first, l.offset last⟩, parent, below⟩
      ⟨kind, ⟨l'.offset first, l'.offset last⟩, parent, below⟩ where
  kind_eq := rfl
  parent_eq := rfl
  children_eq := rfl
  notComment := by
    rintro rfl
    exact sited
  place := by
    refine .inr (.inr ⟨first, last, rfl, rfl, fun word => ?_⟩)
    have only : first = Mark.start i ∧ last = Mark.stop i ∧ i < j := by
      cases kind <;> first
        | exact absurd word Bool.false_ne_true
        | exact sited rfl
    exact ⟨i, Nat.lt_of_lt_of_le only.2.2 within, only.1, only.2.1⟩

/-- The rows of branches in a row. -/
def rowsOf (parent : Option NodeId) (bs : List Branch) : List Node :=
  (Branch.familyOf parent bs).map Branch.row

mutual

/-- The rows of an outline in two layouts without comments. -/
theorem rows_branches (bare : l.comments = #[]) (bare' : l'.comments = #[]) (next : Nat)
    (parent : Option NodeId) : (o : Outline) → l.LiesWithin o →
    List.Forall₂ (Row.Respaced l l') (rowsOf parent (l.branches next o))
      (rowsOf parent (l'.branches next o))
  | .doc token, _ => by
    rw [branches, branches, docSpan?_eq_none bare, docSpan?_eq_none bare']
    exact .nil
  | .node kind first last children, within => by
    obtain ⟨i, j, lies, le⟩ := within
    obtain _ | ⟨-, sited, inner⟩ := lies
    have same := bareOf_branchesOf bare bare' next children
    have count := Branch.length_allOf_eq same
    have ids := Branch.map_id_eq same
    have below := rows_branchesOf bare bare' next (some (next + (Branch.allOf (l.branchesOf next
      children)).length)) children fun o child => by
        obtain ⟨k, m, -, lies, back⟩ := inner.mem child
        exact ⟨k, m, lies, Nat.le_trans back le⟩
    simp only [branches, rowsOf, Branch.familyOf, Branch.family, List.append_nil, List.map_append,
      List.map_cons, List.map_nil, Branch.row, Branch.kind, Branch.span, Branch.children, ← count,
      ← ids]
    exact List.rel_append below (.cons (.of_sited sited le) .nil)

theorem rows_branchesOf (bare : l.comments = #[]) (bare' : l'.comments = #[]) (next : Nat)
    (parent : Option NodeId) : (os : List Outline) → (∀ o ∈ os, l.LiesWithin o) →
    List.Forall₂ (Row.Respaced l l') (rowsOf parent (l.branchesOf next os))
      (rowsOf parent (l'.branchesOf next os))
  | [], _ => .nil
  | o :: os, within => by
    have count := Branch.length_allOf_eq (bareOf_branches bare bare' next o)
    have head := rows_branches bare bare' next parent o (within o List.mem_cons_self)
    have tail := rows_branchesOf bare bare' (next + (Branch.allOf (l.branches next o)).length)
      parent os fun o' mem => within o' (List.mem_cons_of_mem _ mem)
    simp only [branchesOf, rowsOf, Branch.familyOf_append, List.map_append, ← count]
    exact List.rel_append head tail

end

/-- Without comments a program is the same in all layouts, but for the places. -/
theorem bare_root (bare : l.comments = #[]) (bare' : l'.comments = #[]) (body : Outline) :
    (l.root body).bare = (l'.root body).bare := by
  have same := bareOf_branches bare bare' 0 body
  have count : l.nodeCount body = l'.nodeCount body := Branch.length_allOf_eq same
  rw [root, root, Branch.bare, Branch.bare, same, count]

/-- The rows of a program in two layouts without comments. -/
theorem rows_root (bare : l.comments = #[]) (bare' : l'.comments = #[]) {body : Outline}
    (within : l.LiesWithin body) :
    List.Forall₂ (Row.Respaced l l') (((l.root body).family none).map Branch.row)
      (((l'.root body).family none).map Branch.row) := by
  have same := bareOf_branches bare bare' 0 body
  have count : l.nodeCount body = l'.nodeCount body := Branch.length_allOf_eq same
  rw [root, root, Branch.family, Branch.family, List.map_append, List.map_append, ← count]
  refine List.rel_append (rows_branches bare bare' 0 _ body within) (.cons ?_ .nil)
  exact ⟨rfl, rfl, Branch.map_id_eq same, NodeKind.noConfusion, .inl rfl⟩

end Layout

/-! ## Trees -/

/-- The trees have the same nodes, at the same marks of two layouts that are respaced. -/
structure Tree.Respaced (l l' : Layout) (t t' : Tree) : Prop where
  layouts : l.Respaced l'
  text_eq : t.text = l.text
  text_eq' : t'.text = l'.text
  size_eq : t.size = t'.size
  node : ∀ id, Layout.Row.Respaced l l' (t.node id) (t'.node id)

/-- An outline makes the same tree in respaced layouts. -/
theorem Layout.Respaced.tree {l l' : Layout} {t t' : Tree} (h : l.Respaced l')
    (text : t.text = l.text) (text' : t'.text = l'.text) {body : Outline}
    (grows : t.Grows (l.root body)) (grows' : t'.Grows (l'.root body))
    (within : l.LiesWithin body) : Tree.Respaced l l' t t' := by
  have rows := rows_root h.bare h.bare' within
  rw [← grows.nodes, ← grows'.nodes] at rows
  have size : t.size = t'.size := rows.length_eq
  refine ⟨h, text, text', size, fun id => ?_⟩
  by_cases inside : id < t.size
  · have inside' : id < t'.size := Nat.lt_of_lt_of_eq inside size
    have row := rows.get inside inside'
    have known {t : Tree} (inside : id < t.size) : t.node id = t.nodes.toList.get ⟨id, inside⟩ := by
      rw [Tree.node, Array.getD_eq_getD_getElem?, Array.getElem?_eq_getElem inside]
      rfl
    rw [known inside, known inside']
    exact row
  · rw [Tree.node_of_ge (Nat.le_of_not_lt inside), Tree.node_of_ge (size ▸ Nat.le_of_not_lt inside)]
    exact ⟨rfl, rfl, rfl, NodeKind.noConfusion, .inr (.inl rfl)⟩

namespace Tree.Respaced

variable {l l' : Layout} {t t' : Tree} {id : NodeId}

/-- A word is a token of both layouts. -/
theorem word (h : Tree.Respaced l l' t t') (is : (t.kind id).isWord = true) :
    ∃ i < l.lexemes.size, t.span id = ⟨l.tokenStart i, l.tokenStop i⟩ ∧
      t'.span id = ⟨l'.tokenStart i, l'.tokenStop i⟩ := by
  rcases (h.node id).place with chunk | error | ⟨first, last, span, span', token⟩
  · rw [kind, chunk] at is
    exact absurd is Bool.false_ne_true
  · rw [kind, error] at is
    exact absurd is Bool.false_ne_true
  · obtain ⟨i, inside, rfl, rfl⟩ := token is
    rw [Layout.offset_start, Layout.offset_stop] at span span'
    exact ⟨i, inside, span, span'⟩

/-- The trees of respaced layouts read alike. -/
theorem alike (h : Tree.Respaced l l' t t') : t.Alike t' where
  size_eq := h.size_eq
  kind_eq := funext fun id => (h.node id).kind_eq
  parent_eq := funext fun id => (h.node id).parent_eq
  children_eq := funext fun id => (h.node id).children_eq
  textOf_eq id read := by
    rcases read with is | comment
    · obtain ⟨i, inside, span, span'⟩ := h.word is
      rw [textOf, textOf, span, span', h.text_eq, h.text_eq', h.layouts.text_eq i inside]
    · exact absurd comment (h.node id).notComment

end Tree.Respaced

end LuaTyping
