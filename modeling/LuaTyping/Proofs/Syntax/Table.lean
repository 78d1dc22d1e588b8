import Mathlib.Data.List.Nodup
import LuaTyping.Proofs.Syntax.Branch
import LuaTyping.Proofs.Syntax.Offsets

/-!
# The table of a tree as a tree

An outline that is put into its text is a tree of branches.  Its nodes are numbered like the rows of
a table that is filled from below, children before parents and earlier children first.

* `Layout.branches`, `Layout.root`: the nodes of an outline, and those of a program.
* `Tree.Grows`: a tree and the branch of its root; the rows of the table, the ancestors of a node
  and the order of a walk are read off the branch.
* `Tree.Realizes`: a tree has the nodes of an outline.
-/

namespace LuaTyping

/-! ## Numbering an outline -/

namespace Layout

variable (l : Layout)

mutual

/-- The nodes of an outline, numbered from `next` on; a doc slot without a comment is no node. -/
def branches (next : Nat) : Outline → List Branch
  | .doc token =>
    match l.docSpan? token with
    | some s => [.node next .comment s []]
    | none => []
  | .node kind first last children =>
    let below := branchesOf next children
    [.node (next + (Branch.allOf below).length) kind ⟨l.offset first, l.offset last⟩ below]
termination_by structural o => o

def branchesOf (next : Nat) : List Outline → List Branch
  | [] => []
  | o :: os =>
    branches next o ++ branchesOf (next + (Branch.allOf (branches next o)).length) os
termination_by structural os => os

end

theorem branchesOf_append (next : Nat) (os os' : List Outline) :
    l.branchesOf next (os ++ os')
      = l.branchesOf next os
        ++ l.branchesOf (next + (Branch.allOf (l.branchesOf next os)).length) os' := by
  induction os generalizing next with
  | nil => rfl
  | cons o os ih =>
    rw [List.cons_append, branchesOf, branchesOf, ih, Branch.allOf_append, List.length_append,
      List.append_assoc, Nat.add_assoc]

theorem branchesOf_singleton (next : Nat) (o : Outline) :
    l.branchesOf next [o] = l.branches next o := by
  rw [branchesOf, branchesOf, List.append_nil]

/-- The number of nodes of an outline. -/
def nodeCount (o : Outline) : Nat := (Branch.allOf (l.branches 0 o)).length

/-- The whole tree of a program with the given main block. -/
def root (body : Outline) : Branch :=
  .node (l.nodeCount body) .chunk ⟨0, l.text.utf8ByteSize⟩ (l.branches 0 body)

mutual

/-- Nodes are numbered without gaps, in the order of `Branch.all`. -/
theorem ids_branches (next : Nat) : (o : Outline) →
    (Branch.allOf (l.branches next o)).map Branch.id
      = List.range' next (Branch.allOf (l.branches next o)).length
  | .doc token => by
    rw [branches]
    split <;> rfl
  | .node kind first last children => by
    have ih := ids_branchesOf next children
    simp only [branches, Branch.allOf, Branch.all, List.append_nil, List.map_append, ih,
      List.length_append, List.map_cons, List.map_nil, Branch.id, List.length_cons,
      List.length_nil]
    rw [List.range'_concat]
    simp

theorem ids_branchesOf (next : Nat) : (os : List Outline) →
    (Branch.allOf (l.branchesOf next os)).map Branch.id
      = List.range' next (Branch.allOf (l.branchesOf next os)).length
  | [] => rfl
  | o :: os => by
    have head := ids_branches next o
    have tail := ids_branchesOf (next + (Branch.allOf (l.branches next o)).length) os
    simp only [branchesOf, Branch.allOf_append, List.map_append, List.length_append, head, tail]
    rw [List.range'_append_1]

end

end Layout

/-! ## Reading the table -/

namespace Tree

/-- The tree has the branch `r` as its root: the nodes are numbered in the order of `Branch.all`,
and the table has their rows. -/
structure Grows (t : Tree) (r : Branch) : Prop where
  ids : r.all.map Branch.id = List.range t.size
  nodes : t.nodes.toList = (r.family none).map Branch.row

/-- A row without its place is a row of the table without places. -/
theorem bare_node (t : Tree) (id : NodeId) :
    (t.node id).bare = ((t.nodes.toList.map Node.bare)[id]?).getD {} := by
  rw [Tree.node, Array.getD_eq_getD_getElem?, ← Array.getElem?_toList, List.getElem?_map]
  exact (Option.getD_map Node.bare {} _).symm

/-- Outside the table there are only stray nodes. -/
theorem node_of_ge {t : Tree} {id : NodeId} (outside : t.size ≤ id) : t.node id = {} := by
  rw [Tree.node, Array.getD_eq_getD_getElem?, Array.getElem?_eq_none outside]
  rfl

theorem kind_of_ge {t : Tree} {id : NodeId} (outside : t.size ≤ id) : t.kind id = .error := by
  rw [Tree.kind, node_of_ge outside]

/-- A node outside the table is an error. -/
theorem lt_size_of_kind {t : Tree} {id : NodeId} {kind : NodeKind}
    (is : t.kind id = kind) (known : kind ≠ .error) : id < t.size := by
  refine Nat.lt_of_not_le fun outside => known ?_
  rw [← is, kind_of_ge outside]

/-- Outside the table there are no children. -/
theorem children_of_ge {t : Tree} {id : NodeId} (outside : t.size ≤ id) : t.children id = [] := by
  rw [Tree.children, node_of_ge outside]

namespace Grows

variable {t : Tree} {r a b c : Branch} {id : NodeId}

/-- There is one table for a branch and a text. -/
theorem tree_eq {t' : Tree} (h : t.Grows r) (h' : t'.Grows r) (same : t.text = t'.text) :
    t = t' := by
  obtain ⟨text, nodes⟩ := t
  obtain ⟨text', nodes'⟩ := t'
  obtain rfl : text = text' := same
  obtain rfl : nodes = nodes' := Array.toList_inj.mp (h.nodes.trans h'.nodes.symm)
  rfl

theorem nodes_bare (h : t.Grows r) :
    t.nodes.toList.map Node.bare = (r.bare.family none).map Branch.row := by
  rw [h.nodes, Branch.map_row_family_bare]

/-- Tables of branches that differ in places only are the same but for the places. -/
theorem same_of_bare_eq {t' : Tree} {r' : Branch} (h : t.Grows r) (h' : t'.Grows r')
    (same : r.bare = r'.bare) : t.size = t'.size ∧ ∀ id, t.kind id = t'.kind id ∧
      t.parent id = t'.parent id ∧ t.children id = t'.children id := by
  have rows : t.nodes.toList.map Node.bare = t'.nodes.toList.map Node.bare := by
    rw [h.nodes_bare, h'.nodes_bare, same]
  have size := congrArg List.length rows
  rw [List.length_map, List.length_map] at size
  refine ⟨size, fun id => ?_⟩
  have node : (t.node id).bare = (t'.node id).bare := by
    rw [bare_node, bare_node, rows]
  have kind := congrArg Node.kind node
  have parent := congrArg Node.parent node
  have children := congrArg Node.children node
  exact ⟨kind, parent, children⟩

theorem length_all (h : t.Grows r) : r.all.length = t.size := by
  have lengths := congrArg List.length h.ids
  rwa [List.length_map, List.length_range] at lengths

/-- The node in a row has the number of the row. -/
theorem id_getElem_family (h : t.Grows r) {i : Nat} (inside : i < (r.family none).length) :
    ((r.family none)[i]).1.id = i := by
  have ids := h.ids
  rw [← Branch.map_fst_family none, List.map_map] at ids
  have row := congrArg (·[i]?) ids
  rw [List.getElem?_map, List.getElem?_eq_getElem inside, List.getElem?_range] at row
  · exact Option.some.inj row
  · rwa [← h.length_all, ← Branch.map_fst_family none, List.length_map]

/-- The row of a node says what the branch says. -/
theorem rows (h : t.Grows r) {x : Branch × Option NodeId} (mem : x ∈ r.family none) :
    t.node x.1.id = Branch.row x := by
  obtain ⟨i, inside, rfl⟩ := List.getElem_of_mem mem
  rw [h.id_getElem_family inside, Tree.node, Array.getD_eq_getD_getElem?, ← Array.getElem?_toList,
    h.nodes, List.getElem?_map, List.getElem?_eq_getElem inside]
  rfl

theorem row (h : t.Grows r) (mem : b ∈ r.all) :
    ∃ parent, t.node b.id = ⟨b.kind, b.span, parent, b.children.map Branch.id⟩ := by
  rw [← Branch.map_fst_family none] at mem
  obtain ⟨x, inside, rfl⟩ := List.mem_map.mp mem
  exact ⟨x.2, h.rows inside⟩

theorem kind (h : t.Grows r) (mem : b ∈ r.all) : t.kind b.id = b.kind := by
  obtain ⟨_, row⟩ := h.row mem
  rw [Tree.kind, row]

theorem span (h : t.Grows r) (mem : b ∈ r.all) : t.span b.id = b.span := by
  obtain ⟨_, row⟩ := h.row mem
  rw [Tree.span, row]

theorem children (h : t.Grows r) (mem : b ∈ r.all) :
    t.children b.id = b.children.map Branch.id := by
  obtain ⟨_, row⟩ := h.row mem
  rw [Tree.children, row]

theorem parent (h : t.Grows r) (mem : b ∈ r.all) (child : c ∈ b.children) :
    t.parent c.id = some b.id := by
  rw [Tree.parent, h.rows (Branch.mem_family_of_mem_children r mem child), Branch.row]

theorem parent_root (h : t.Grows r) : t.parent r.id = none := by
  rw [Tree.parent, h.rows (Branch.self_mem_family r), Branch.row]

theorem id_lt_size (h : t.Grows r) (mem : b ∈ r.all) : b.id < t.size := by
  have inside := List.mem_map_of_mem (f := Branch.id) mem
  rw [h.ids] at inside
  exact List.mem_range.mp inside

/-- Every number in the table is the number of a node. -/
theorem exists_mem (h : t.Grows r) (inside : id < t.size) : ∃ b ∈ r.all, b.id = id := by
  have mem := List.mem_range.mpr inside
  rw [← h.ids] at mem
  exact List.mem_map.mp mem

/-- A node of a kind is the node of a branch, if it is no error. -/
theorem exists_mem_of_kind (h : t.Grows r) {kind : NodeKind} (is : t.kind id = kind)
    (known : kind ≠ .error) : ∃ b ∈ r.all, b.kind = kind ∧ b.id = id := by
  obtain ⟨b, mem, rfl⟩ := h.exists_mem (lt_size_of_kind is known)
  exact ⟨b, mem, (h.kind mem).symm.trans is, rfl⟩

/-- A child in the table is a child of a branch. -/
theorem exists_child (h : t.Grows r) {p i : NodeId} (child : i ∈ t.children p) :
    ∃ b ∈ r.all, ∃ d ∈ b.children, b.id = p ∧ d.id = i := by
  have inside : p < t.size := by
    refine Nat.lt_of_not_le fun outside => ?_
    rw [children_of_ge outside] at child
    exact absurd child List.not_mem_nil
  obtain ⟨b, mem, rfl⟩ := h.exists_mem inside
  rw [h.children mem] at child
  obtain ⟨d, below, rfl⟩ := List.mem_map.mp child
  exact ⟨b, mem, d, below, rfl, rfl⟩

theorem mem_of_child {d : Branch} (mem : b ∈ r.all) (child : d ∈ b.children) : d ∈ r.all :=
  Branch.mem_all_trans mem (Branch.mem_all_of_mem_children child)

/-- A node is known by its number. -/
theorem eq_of_id_eq (h : t.Grows r) (mem : b ∈ r.all) (mem' : c ∈ r.all) (same : b.id = c.id) :
    b = c := by
  have nodup : (r.all.map Branch.id).Nodup := by
    rw [h.ids]
    exact List.nodup_range
  exact List.inj_on_of_nodup_map nodup mem mem' same

theorem id_lt_id (h : t.Grows r) (mem : b ∈ r.all) (child : c ∈ b.children) : c.id < b.id := by
  have increasing : (b.all.map Branch.id).Pairwise (· < ·) := by
    refine List.Pairwise.sublist ((Branch.all_sublist r mem).map Branch.id) ?_
    rw [h.ids]
    exact List.pairwise_lt_range
  rw [Branch.all_eq, List.map_append, List.pairwise_append] at increasing
  refine increasing.2.2 _ (List.mem_map_of_mem ?_) _ (List.mem_singleton.mpr rfl)
  exact Branch.mem_allOf.mpr ⟨c, child, Branch.self_mem_all c⟩

theorem root_eq (h : t.Grows r) : t.root = r.id := by
  have ids := h.ids
  have size := h.length_all
  rw [Branch.all_eq, List.length_append, List.length_singleton] at size
  rw [Branch.all_eq, List.map_append, ← size, List.range_succ] at ids
  have last := (List.append_inj' ids rfl).2
  rw [Tree.root, ← size, Nat.add_sub_cancel]
  exact (List.singleton_inj.mp last).symm

/-! ### Ancestors -/

/-- As many rounds are enough as there are nodes behind the first one. -/
theorem ancestorsWithin_eq (h : t.Grows r) (mem : b ∈ r.all) (fuel fuel' : Nat)
    (enough : t.size ≤ b.id + fuel) (enough' : t.size ≤ b.id + fuel') :
    t.ancestorsWithin fuel b.id = t.ancestorsWithin fuel' b.id := by
  have inside := h.id_lt_size mem
  induction fuel generalizing b fuel' with
  | zero => omega
  | succ fuel ih =>
    obtain ⟨fuel', rfl⟩ : ∃ n, fuel' = n + 1 := ⟨fuel' - 1, by omega⟩
    rw [ancestorsWithin, ancestorsWithin]
    rcases Branch.eq_or_exists_parent r mem with rfl | ⟨p, mem', child⟩
    · rw [h.parent_root]
    · have below := h.id_lt_id mem' child
      rw [h.parent mem' child]
      dsimp only
      rw [ih mem' fuel' (by omega) (by omega) (h.id_lt_size mem')]

theorem ancestors_child (h : t.Grows r) (mem : b ∈ r.all) (child : c ∈ b.children) :
    t.ancestors c.id = b.id :: t.ancestors b.id := by
  have inside := h.id_lt_size mem
  have below := h.id_lt_id mem child
  obtain ⟨n, size⟩ : ∃ n, t.size = n + 1 := ⟨t.size - 1, by omega⟩
  rw [ancestors, size, ancestorsWithin, h.parent mem child]
  dsimp only
  rw [ancestors, h.ancestorsWithin_eq mem n t.size (by omega) (by omega)]

theorem ancestors_root (h : t.Grows r) : t.ancestors r.id = [] := by
  rw [ancestors]
  cases t.size with
  | zero => rfl
  | succ n => rw [ancestorsWithin, h.parent_root]

/-! ### Walks -/

theorem preorderWithin_eq (h : t.Grows r) (bs : List Branch) (mem : ∀ b ∈ bs, b ∈ r.all)
    {fuel : Nat} (enough : (Branch.preorderOf bs).length ≤ fuel) (done : Array NodeId) :
    (t.preorderWithin (fun _ => true) fuel (bs.map Branch.id) done).toList
      = done.toList ++ Branch.preorderOf bs := by
  induction fuel generalizing bs done with
  | zero =>
    rw [List.length_eq_zero_iff.mp (Nat.le_zero.mp enough), List.append_nil, preorderWithin]
  | succ fuel ih =>
    cases bs with
    | nil => rw [List.map_nil, preorderWithin, Branch.preorderOf, List.append_nil]; simp
    | cons b bs =>
      have inside := mem b List.mem_cons_self
      have work : (t.children b.id).filter (fun _ => true) ++ bs.map Branch.id
          = (b.children ++ bs).map Branch.id := by
        rw [h.children inside, List.filter_eq_self.mpr fun _ _ => rfl, List.map_append]
      rw [Branch.preorderOf, Branch.preorder_eq, List.cons_append, List.length_cons,
        ← Branch.preorderOf_append] at enough
      rw [List.map_cons, preorderWithin, work, ih _ ?_ (by omega), Branch.preorderOf,
        Branch.preorder_eq]
      · simp
      · intro c child
        rcases List.mem_append.mp child with child | child
        · exact Branch.mem_all_trans inside (Branch.mem_all_of_mem_children child)
        · exact mem c (List.mem_cons_of_mem _ child)

/-- A walk from the root with at least as many rounds as there are nodes. -/
theorem preorderWithin_root (h : t.Grows r) {fuel : Nat} (enough : t.size ≤ fuel) :
    (t.preorderWithin (fun _ => true) fuel [t.root] #[]).toList = r.preorder := by
  have length : (Branch.preorderOf [r]).length = t.size := by
    rw [(Branch.preorderOf_perm [r]).length_eq, List.length_map, ← h.length_all, Branch.allOf,
      Branch.allOf, List.append_nil]
  have walk := h.preorderWithin_eq [r]
    (fun b mem => List.mem_singleton.mp mem ▸ Branch.self_mem_all r) (length ▸ enough) #[]
  rw [h.root_eq]
  simpa [Branch.preorderOf] using walk

/-- A walk over the whole tree. -/
theorem walk_eq (h : t.Grows r) : t.walk = r.preorder := h.preorderWithin_root (Nat.le_refl _)

end Grows

end Tree

/-- The tree has the nodes of a program with the given main block, in kinds, parents and children.
They stand at the places of the outline where every place of the text has an offset of its own. -/
def Tree.Realizes (t : Tree) (l : Layout) (body : Outline) : Prop :=
  ∃ r, t.Grows r ∧ r.bare = (l.root body).bare
    ∧ (l.text.utf8ByteSize < offsetCount → r = l.root body)

/-- The root stands over the nodes of the main block. -/
theorem Tree.Realizes.size_eq {t : Tree} {l : Layout} {body : Outline} (h : t.Realizes l body) :
    t.size = l.nodeCount body + 1 := by
  obtain ⟨r, grows, bare, -⟩ := h
  have all := congrArg (fun b => b.all.length) bare
  simp only [Branch.all_bare, List.length_map] at all
  rw [← grows.length_all, all, Layout.root, Branch.all, List.length_append, Layout.nodeCount,
    List.length_singleton]

end LuaTyping
