import LuaTyping.Proofs.Syntax.Table
import LuaTyping.Proofs.Syntax.Spread

/-!
# Where the nodes of a tree lie

A branch is *drawn* at the tokens from `i` up to `j` if it is what a layout makes of an outline that
lies there.  Every node of the tree of a program is drawn somewhere, the children of a node one
behind the other among its tokens.

* `Layout.Draws`, `Layout.Draws.of_mem_all`: the nodes below a drawn node are drawn.
* `Tree.Grows.mem_ancestors_iff`: above a node are the nodes that it is below of.
-/

namespace LuaTyping

open Outline (Lies LieIn Sited Sealed)

namespace Layout

/-- The branch is what the layout makes of an outline at the tokens from `i` up to `j`.  Nothing is
said of the span of a comment or of a whole program. -/
def Draws (l : Layout) (i j : Nat) (b : Branch) : Prop :=
  ∃ next cs, b.children = l.branchesOf next cs ∧ LieIn i j cs ∧
    (b.kind = .chunk ∨ b.kind = .comment ∨ ∃ first last,
      b.span = ⟨l.offset first, l.offset last⟩ ∧ Sited i j first last b.kind cs)

variable {l : Layout} {i j k m next : Nat} {o : Outline} {cs : List Outline} {b c : Branch}

/-- A branch of a row is a branch of one of its outlines. -/
theorem exists_of_mem_branchesOf (mem : b ∈ l.branchesOf next cs) :
    ∃ o ∈ cs, ∃ n, b ∈ l.branches n o ∧ ∀ c ∈ l.branches n o, c ∈ l.branchesOf next cs := by
  induction cs generalizing next with
  | nil => exact absurd mem List.not_mem_nil
  | cons o cs ih =>
    rw [branchesOf] at mem ⊢
    rcases List.mem_append.mp mem with mem | mem
    · exact ⟨o, List.mem_cons_self, next, mem, fun c inside => List.mem_append_left _ inside⟩
    · obtain ⟨o', mem', n, inside, all⟩ := ih mem
      exact ⟨o', List.mem_cons_of_mem _ mem', n, inside,
        fun c inside => List.mem_append_right _ (all c inside)⟩

/-- A branch of a node. -/
theorem eq_of_mem_branches {kind : NodeKind} {first last : Nat}
    (mem : b ∈ l.branches next (.node kind first last cs)) :
    b.kind = kind ∧ b.span = ⟨l.offset first, l.offset last⟩ ∧
      b.children = l.branchesOf next cs := by
  rw [branches, List.mem_singleton] at mem
  rw [mem]
  exact ⟨rfl, rfl, rfl⟩

/-- A branch of a doc slot. -/
theorem comment_of_mem_branches {token : Nat} (mem : b ∈ l.branches next (.doc token)) :
    b.kind = .comment ∧ b.children = [] := by
  rw [branches] at mem
  split at mem
  · rw [List.mem_singleton] at mem
    rw [mem]
    exact ⟨rfl, rfl⟩
  · exact absurd mem List.not_mem_nil

theorem kind_of_mem_branches (mem : b ∈ l.branches next o) : b.kind = o.kind := by
  cases o with
  | doc token => exact (comment_of_mem_branches mem).1
  | node kind first last cs => exact (eq_of_mem_branches mem).1

namespace Draws

theorem of_lies (h : Lies i j o) (mem : b ∈ l.branches next o) : l.Draws i j b := by
  obtain le | ⟨-, sited, inner⟩ := h
  · obtain ⟨comment, children⟩ := comment_of_mem_branches mem
    exact ⟨next, [], children, .nil le, .inr (.inl comment)⟩
  · obtain ⟨rfl, span, children⟩ := eq_of_mem_branches mem
    exact ⟨next, _, children, inner, .inr (.inr ⟨_, _, span, sited⟩)⟩

/-- A branch of a row is drawn among the tokens of the row. -/
theorem of_mem_branchesOf (h : LieIn i j cs) (mem : b ∈ l.branchesOf next cs) :
    ∃ k m, i ≤ k ∧ m ≤ j ∧ l.Draws k m b := by
  obtain ⟨o, inside, n, mem, -⟩ := exists_of_mem_branchesOf mem
  obtain ⟨k, m, front, lies, back⟩ := h.mem inside
  exact ⟨k, m, front, back, of_lies lies mem⟩

/-- The branches of a row are drawn one behind the other. -/
theorem pairwise (h : LieIn i j cs) (next : Nat) :
    (l.branchesOf next cs).Pairwise fun d e =>
      ∃ k m k' m', l.Draws k m d ∧ l.Draws k' m' e ∧ m ≤ k' := by
  induction cs generalizing i next with
  | nil => exact List.Pairwise.nil
  | cons o cs ih =>
    obtain _ | @⟨_, k, m, _, _, _, -, lies, rest⟩ := h
    rw [branchesOf, List.pairwise_append]
    refine ⟨?_, ih rest _, fun d mem e mem' => ?_⟩
    · cases o with
      | doc token =>
        rw [branches]
        split
        · exact List.pairwise_singleton _ _
        · exact List.Pairwise.nil
      | node kind first last cs =>
        rw [branches]
        exact List.pairwise_singleton _ _
    · obtain ⟨k', m', front, -, drawn⟩ := of_mem_branchesOf rest mem'
      exact ⟨k, m, k', m', of_lies lies mem, drawn, front⟩

/-- Every node of a drawn branch is drawn among its tokens. -/
theorem of_mem_all (h : l.Draws i j b) (mem : c ∈ b.all) :
    ∃ k m, i ≤ k ∧ m ≤ j ∧ l.Draws k m c := by
  refine Branch.forall_mem_all (P := fun c => ∃ k m, i ≤ k ∧ m ≤ j ∧ l.Draws k m c)
    (fun p drawn c child => ?_) b ⟨i, j, Nat.le_refl i, Nat.le_refl j, h⟩ c mem
  obtain ⟨k, m, front, back, next, cs, children, inner, -⟩ := drawn
  rw [children] at child
  obtain ⟨k', m', front', back', drawn'⟩ := of_mem_branchesOf inner child
  exact ⟨k', m', Nat.le_trans front front', Nat.le_trans back' back, drawn'⟩

/-- What a drawn node is made of, if it is neither a comment nor a whole program. -/
theorem exists_sited (h : l.Draws i j b) (known : b.kind ≠ .chunk ∧ b.kind ≠ .comment) :
    ∃ next cs first last, b.children = l.branchesOf next cs ∧ LieIn i j cs ∧
      b.span = ⟨l.offset first, l.offset last⟩ ∧ Sited i j first last b.kind cs := by
  obtain ⟨next, cs, children, inner, chunk | comment | ⟨first, last, span, sited⟩⟩ := h
  · exact absurd chunk known.1
  · exact absurd comment known.2
  · exact ⟨next, cs, first, last, children, inner, span, sited⟩

/-- The whole tree of a program is drawn where its main block lies. -/
theorem root (h : Lies i j o) : l.Draws i j (l.root o) := by
  refine ⟨0, [o], ?_, h.single, .inl rfl⟩
  rw [branchesOf, branchesOf, List.append_nil]
  rfl

end Draws

end Layout

/-! ## Ancestors -/

namespace Tree.Grows

variable {t : Tree} {r b c d : Branch}

/-- Above a node are the nodes that it is below of. -/
theorem mem_ancestors_iff (h : t.Grows r) (mem : b ∈ r.all) :
    ∀ d ∈ r.all, b.id ∈ t.ancestors d.id ↔ d ∈ Branch.allOf b.children := by
  have parents {c : Branch} (inside : c ∈ Branch.allOf b.children) :
      ∃ p ∈ r.all, c ∈ p.children ∧ (p = b ∨ p ∈ Branch.allOf b.children) := by
    rcases Branch.mem_or_exists_parent _ inside with child | ⟨p, inside, child⟩
    · exact ⟨b, mem, child, .inl rfl⟩
    · exact ⟨p, Branch.mem_all_trans mem (Branch.mem_all_of_below inside), child, .inr inside⟩
  have top : r ∈ r.all ∧ (b.id ∈ t.ancestors r.id ↔ r ∈ Branch.allOf b.children) := by
    refine ⟨Branch.self_mem_all r, ?_⟩
    rw [h.ancestors_root]
    refine iff_of_false List.not_mem_nil fun inside => ?_
    obtain ⟨p, mem', child, -⟩ := parents inside
    have parent := h.parent mem' child
    rw [h.parent_root] at parent
    exact absurd parent (by simp)
  suffices all : ∀ d ∈ r.all, d ∈ r.all ∧
      (b.id ∈ t.ancestors d.id ↔ d ∈ Branch.allOf b.children) from fun d mem => (all d mem).2
  refine Branch.forall_mem_all (fun p above c child => ?_) r top
  obtain ⟨inside, above⟩ := above
  refine ⟨Grows.mem_of_child inside child, ?_⟩
  rw [h.ancestors_child inside child, List.mem_cons, above]
  constructor
  · rintro (same | below)
    · rw [h.eq_of_id_eq mem inside same]
      exact Branch.mem_allOf.mpr ⟨c, child, Branch.self_mem_all c⟩
    · obtain ⟨e, mem', inner⟩ := Branch.mem_allOf.mp below
      exact Branch.mem_allOf.mpr
        ⟨e, mem', Branch.mem_all_trans inner (Branch.mem_all_of_mem_children child)⟩
  · intro below
    obtain ⟨q, mem', child', which⟩ := parents below
    have same : some q.id = some p.id := (h.parent mem' child').symm.trans (h.parent inside child)
    rw [h.eq_of_id_eq mem' inside (Option.some.inj same)] at which
    exact which.imp (fun eq => by rw [eq]) id

/-- The nodes above a node have larger and larger numbers. -/
theorem pairwise_ancestors (h : t.Grows r) :
    ∀ b ∈ r.all, (b.id :: t.ancestors b.id).Pairwise (· < ·) := by
  have top : r ∈ r.all ∧ (r.id :: t.ancestors r.id).Pairwise (· < ·) := by
    refine ⟨Branch.self_mem_all r, ?_⟩
    rw [h.ancestors_root]
    exact List.pairwise_singleton _ _
  suffices all : ∀ b ∈ r.all, b ∈ r.all ∧ (b.id :: t.ancestors b.id).Pairwise (· < ·) from
    fun b mem => (all b mem).2
  refine Branch.forall_mem_all (fun p above c child => ?_) r top
  obtain ⟨inside, above⟩ := above
  have below := h.id_lt_id inside child
  refine ⟨Grows.mem_of_child inside child, ?_⟩
  rw [h.ancestors_child inside child, List.pairwise_cons]
  refine ⟨fun a mem => ?_, above⟩
  rcases List.mem_cons.mp mem with rfl | mem
  · exact below
  · exact Nat.lt_trans below ((List.pairwise_cons.mp above).1 a mem)

theorem lt_of_mem_ancestors (h : t.Grows r) (mem : b ∈ r.all) {a : NodeId}
    (above : a ∈ t.ancestors b.id) : b.id < a :=
  (List.pairwise_cons.mp (h.pairwise_ancestors b mem)).1 a above

end Tree.Grows

end LuaTyping
