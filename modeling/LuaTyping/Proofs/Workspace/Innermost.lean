import LuaTyping.Proofs.Syntax.Drawn
import LuaTyping.Proofs.Scope.Shadowing
import LuaTyping.Proofs.Workspace.Answers

/-!
# The innermost expression

The search for an expression at an offset takes the shortest one that touches it, and of several the
one that a walk meets first.  Two expressions that touch at the offset may both be the shortest, so
this is not the same as the innermost one.  But along the way up from a node spans only grow and
walks come later, so what is found is the innermost expression of the way that it lies on, and the
outermost of those with its span.

* `SourceFile.covers_of_touches`: what stands above an expression covers it.
* `Tree.Grows.pair_sublist_walk`: a walk meets a node before what is below it.
* `SourceFile.Innermost`: an expression is the innermost one at an offset.
* `SourceFile.expressionAt?_innermost`: the search finds such an expression if there is any.
-/

namespace LuaTyping

/-- A span that a span covers is the same span, if it is not shorter. -/
theorem Span.eq_of_covers {a b : Span} (covers : a.start ≤ b.start ∧ b.stop ≤ a.stop)
    {offset : Nat} (touches : b.touchesOffset offset = true) (long : a.length ≤ b.length) :
    b = a := by
  obtain ⟨start, stop⟩ := a
  obtain ⟨start', stop'⟩ := b
  simp only [touchesOffset, Bool.and_eq_true, decide_eq_true_eq] at touches
  have forward : start' ≤ stop' := Nat.le_trans touches.1 touches.2
  simp only [length] at covers long
  rw [if_pos forward, if_pos (by omega)] at long
  rw [Span.mk.injEq]
  omega

namespace Tree

/-- An expression is not empty. -/
theorem Arranged.holds_of_isExpression {t : Tree} (h : t.Arranged) {id : NodeId}
    (inside : id < t.size) (expression : (t.kind id).isExpression = true) : t.Holds id := by
  have notRoot : id ≠ t.root := by
    rintro rfl
    rw [h.root_kind] at expression
    exact absurd expression (by decide)
  have notComment : t.kind id ≠ .comment := fun comment => by
    rw [comment] at expression
    exact absurd expression (by decide)
  refine (h.holds inside notComment notRoot).resolve_right ?_
  rintro ⟨block, -⟩
  rw [block] at expression
  exact absurd expression (by decide)

/-- A walk meets a node before what is below it. -/
theorem Grows.pair_sublist_walk {t : Tree} {r b d : Branch} (h : t.Grows r) (mem : b ∈ r.all)
    (inside : d ∈ r.all) (above : b.id ∈ t.ancestors d.id) : [b.id, d.id].Sublist t.walk := by
  have below := (h.mem_ancestors_iff mem d inside).mp above
  have met := (Branch.preorderOf_perm b.children).mem_iff.mpr
    (List.mem_map_of_mem (f := Branch.id) below)
  rw [h.walk_eq]
  refine List.Sublist.trans ?_ (Branch.preorder_sublist r mem)
  rw [Branch.preorder_eq]
  exact (List.singleton_sublist.mpr met).cons_cons b.id

end Tree

namespace SourceFile

/-- The node is the innermost expression at an offset: what lies inside it and touches the offset
too has its span, and it lies in no expression with its span. -/
structure Innermost (f : SourceFile) (offset : Nat) (e : NodeId) : Prop where
  touches : f.Touches offset e
  inner : ∀ d, f.Touches offset d → e ∈ f.tree.ancestors d → f.tree.span d = f.tree.span e
  outer : ∀ a ∈ f.tree.ancestors e, (f.tree.kind a).isExpression = true →
    f.tree.span a ≠ f.tree.span e

variable {i : Nat} {path text : String} {o : Nat} {a d e : NodeId}

/-- What lies inside an expression lies inside its span. -/
theorem covers_of_touches (small : text.utf8ByteSize < offsetCount)
    (clean : (Parsed.ofText text).errors = [])
    (touches : (parse i path text).Touches o d) (above : e ∈ (parse i path text).tree.ancestors d) :
    (parse i path text).tree.start e ≤ (parse i path text).tree.start d
      ∧ (parse i path text).tree.stop d ≤ (parse i path text).tree.stop e := by
  have arranged : (parse i path text).tree.Arranged := Parsed.arranged small clean
  exact arranged.covers_of_mem_ancestors
    (arranged.holds_of_isExpression touches.1 touches.2.1) above

/-- Of expressions that touch an offset, a walk meets the outer ones first. -/
theorem pair_sublist_candidates (touches : (parse i path text).Touches o a)
    (touches' : (parse i path text).Touches o e)
    (above : a ∈ (parse i path text).tree.ancestors e) :
    [a, e].Sublist ((parse i path text).expressions.filter
      fun id => ((parse i path text).tree.span id).touchesOffset o) := by
  obtain ⟨r, grows, -⟩ : ∃ r, (parse i path text).tree.Grows r ∧ _ :=
    Parsed.realizes maxNesting text
  have pair : [a, e].Sublist (parse i path text).tree.walk := by
    obtain ⟨b, mem, rfl⟩ := grows.exists_mem touches.1
    obtain ⟨c, mem', rfl⟩ := grows.exists_mem touches'.1
    exact grows.pair_sublist_walk mem mem' above
  have both (p : NodeId → Bool) (outer : p a = true) (inner : p e = true) :
      [a, e].filter p = [a, e] := by
    rw [List.filter_cons_of_pos outer, List.filter_cons_of_pos inner, List.filter_nil]
  have kept := (pair.filter fun id => ((parse i path text).tree.kind id).isExpression).filter
    fun id => ((parse i path text).tree.span id).touchesOffset o
  rw [both _ touches.2.1 touches'.2.1, both _ touches.2.2 touches'.2.2] at kept
  exact kept

/-- Of expressions with one span, the outermost is found. -/
theorem not_mem_ancestors_of_span_eq (found : (parse i path text).expressionAt? o = some e)
    (touches : (parse i path text).Touches o a)
    (same : (parse i path text).tree.span a = (parse i path text).tree.span e) :
    a ∉ (parse i path text).tree.ancestors e := by
  intro above
  have pair := pair_sublist_candidates touches (expressionAt?_eq_some found).1 above
  have nodup : ((parse i path text).expressions.filter
      fun id => ((parse i path text).tree.span id).touchesOffset o).Nodup := by
    have walk :=
      (Parsed.realizes maxNesting text).wellFormed.walk_perm.nodup_iff.mpr List.nodup_range
    exact (walk.filter _).filter _
  have before := (Tree.pairwise_idxOf nodup).sublist pair
  rw [expressionAt?_eq_argmin] at found
  have first := List.index_of_argmin found (mem_candidates_iff.mpr touches) (by rw [same])
  rw [List.pairwise_pair] at before
  exact absurd before (Nat.not_lt_of_le first)

/-- In a text without faults, what is found is the innermost expression at the offset, and nothing
is found just if no expression touches the offset, where every place of the text has an offset of
its own. -/
theorem expressionAt?_innermost (small : text.utf8ByteSize < offsetCount)
    (clean : (Parsed.ofText text).errors = []) (i : Nat) (path : String)
    (o : Nat) :
    (∀ e, (parse i path text).expressionAt? o = some e → (parse i path text).Innermost o e)
      ∧ ((parse i path text).expressionAt? o = none
        ↔ ∀ id, ¬ (parse i path text).Touches o id) := by
  refine ⟨fun e found => ?_, expressionAt?_eq_none_iff⟩
  obtain ⟨touches, least⟩ := expressionAt?_eq_some found
  refine ⟨touches, fun d touches' above => ?_, fun a above expression same => ?_⟩
  · have covers := covers_of_touches small clean touches' above
    exact Span.eq_of_covers covers touches'.2.2 (least d touches')
  · have inside : a < (parse i path text).tree.size :=
      (Parsed.walked text).lt_of_mem_ancestors above
    have outer : (parse i path text).Touches o a :=
      ⟨inside, expression, by rw [same]; exact touches.2.2⟩
    exact not_mem_ancestors_of_span_eq found outer same above

/-- In the name of a field, the value of the field is found, and not the field inside it. -/
theorem expressionAt?_innermost_field :
    "return t.field".utf8ByteSize < offsetCount ∧ (Parsed.ofText "return t.field").errors = []
      ∧ (parse 0 "m.lua" "return t.field").tree.kind 3 = .valueExpr
      ∧ (parse 0 "m.lua" "return t.field").Innermost 10 3 := by
  have clean : (Parsed.ofText "return t.field").errors = [] := by decide +kernel
  have found : (parse 0 "m.lua" "return t.field").expressionAt? 10 = some 3 := by decide +kernel
  have small : "return t.field".utf8ByteSize < offsetCount := by decide
  exact ⟨small, clean, by decide +kernel,
    (expressionAt?_innermost small clean 0 "m.lua" 10).1 3 found⟩

end SourceFile

end LuaTyping
