import LuaTyping.Syntax.Tree

/-!
# Branches

A `Branch` is a node together with everything below it.  It is what the table of a tree stands for,
and what is recursive about a tree is recursive on branches.

* `Branch.all`: the nodes of a branch, in the order in which a table numbers them.
* `Branch.family`: the nodes in this order, each with its parent.
* `Branch.preorder`: the nodes in the order of a walk.
* `Branch.bare`: a branch without the places of its nodes.
* `Branch.forall_mem_all`: what passes from parents to children holds in a whole branch.
* `Branch.pairwise_preorder`: the order of a walk.
-/

namespace LuaTyping

/-- A row without the place of its node. -/
def Node.bare (n : Node) : Node := { n with span := default }

/-- A node with everything below it. -/
inductive Branch
  | node (id : Nat) (kind : NodeKind) (span : Span) (children : List Branch)

namespace Branch

def id : Branch → Nat
  | node id _ _ _ => id

def kind : Branch → NodeKind
  | node _ kind _ _ => kind

def span : Branch → Span
  | node _ _ span _ => span

def children : Branch → List Branch
  | node _ _ _ children => children

mutual

/-- The nodes of a branch, each behind what is below it and in front of its parent. -/
def all : Branch → List Branch
  | node id kind span children => allOf children ++ [node id kind span children]
termination_by structural b => b

def allOf : List Branch → List Branch
  | [] => []
  | b :: bs => b.all ++ allOf bs
termination_by structural bs => bs

end

mutual

/-- The nodes of a branch in the order of `all`, each with its parent. -/
def family (parent : Option NodeId) : Branch → List (Branch × Option NodeId)
  | node id kind span children =>
    familyOf (some id) children ++ [(node id kind span children, parent)]
termination_by structural b => b

def familyOf (parent : Option NodeId) : List Branch → List (Branch × Option NodeId)
  | [] => []
  | b :: bs => family parent b ++ familyOf parent bs
termination_by structural bs => bs

end

/-- The row of a node with the given parent. -/
def row (x : Branch × Option NodeId) : Node :=
  ⟨x.1.kind, x.1.span, x.2, x.1.children.map id⟩

mutual

/-- A branch without the places of its nodes. -/
def bare : Branch → Branch
  | node id kind _ children => node id kind default (bareOf children)
termination_by structural b => b

def bareOf : List Branch → List Branch
  | [] => []
  | b :: bs => b.bare :: bareOf bs
termination_by structural bs => bs

end

mutual

/-- The nodes of a branch, each before what is below it. -/
def preorder : Branch → List NodeId
  | node id _ _ children => id :: preorderOf children
termination_by structural b => b

def preorderOf : List Branch → List NodeId
  | [] => []
  | b :: bs => b.preorder ++ preorderOf bs
termination_by structural bs => bs

end

/-- A branch is one of its nodes. -/
theorem self_mem_all (b : Branch) : b ∈ b.all := by
  cases b
  rw [all]
  exact List.mem_append_right _ (List.mem_singleton.mpr rfl)

theorem mem_allOf {b : Branch} {bs : List Branch} : b ∈ allOf bs ↔ ∃ c ∈ bs, b ∈ c.all := by
  induction bs with
  | nil => simp [allOf]
  | cons c bs ih => simp [allOf, ih]

@[simp] theorem allOf_append (bs cs : List Branch) : allOf (bs ++ cs) = allOf bs ++ allOf cs := by
  induction bs with
  | nil => rfl
  | cons b bs ih => rw [List.cons_append, allOf, allOf, ih, List.append_assoc]

theorem familyOf_append (parent : Option NodeId) (bs cs : List Branch) :
    familyOf parent (bs ++ cs) = familyOf parent bs ++ familyOf parent cs := by
  induction bs with
  | nil => rfl
  | cons b bs ih => rw [List.cons_append, familyOf, familyOf, ih, List.append_assoc]

/-- The nodes of a branch are it and the nodes of its children. -/
theorem all_eq (b : Branch) : b.all = allOf b.children ++ [b] := by
  cases b
  rw [all, children]

mutual

theorem map_fst_family (parent : Option NodeId) :
    (b : Branch) → (b.family parent).map Prod.fst = b.all
  | node id kind span children => by
    rw [family, all, List.map_append, map_fst_familyOf (some id) children]
    rfl

theorem map_fst_familyOf (parent : Option NodeId) :
    (bs : List Branch) → (familyOf parent bs).map Prod.fst = allOf bs
  | [] => rfl
  | b :: bs => by
    rw [familyOf, allOf, List.map_append, map_fst_family parent b, map_fst_familyOf parent bs]

end

theorem length_familyOf (parent : Option NodeId) (bs : List Branch) :
    (familyOf parent bs).length = (allOf bs).length := by
  rw [← map_fst_familyOf parent, List.length_map]

/-! ## Without places -/

@[simp] theorem id_bare (b : Branch) : b.bare.id = b.id := by
  cases b
  rfl

@[simp] theorem kind_bare (b : Branch) : b.bare.kind = b.kind := by
  cases b
  rfl

theorem bareOf_eq_map (bs : List Branch) : bareOf bs = bs.map bare := by
  induction bs with
  | nil => rfl
  | cons b bs ih => rw [bareOf, ih, List.map_cons]

@[simp] theorem children_bare (b : Branch) : b.bare.children = b.children.map bare := by
  cases b
  rw [bare, children, bareOf_eq_map, children]

mutual

theorem all_bare : (b : Branch) → b.bare.all = b.all.map bare
  | node id kind span children => by
    rw [bare, all, all, List.map_append, allOf_bareOf children]
    rfl

theorem allOf_bareOf : (bs : List Branch) → allOf (bareOf bs) = (allOf bs).map bare
  | [] => rfl
  | b :: bs => by rw [bareOf, allOf, allOf, List.map_append, all_bare b, allOf_bareOf bs]

end

mutual

theorem family_bare (parent : Option NodeId) : (b : Branch) →
    b.bare.family parent = (b.family parent).map (Prod.map bare fun p => p)
  | node id kind span children => by
    rw [bare, family, family, List.map_append, familyOf_bareOf (some id) children]
    rfl

theorem familyOf_bareOf (parent : Option NodeId) : (bs : List Branch) →
    familyOf parent (bareOf bs) = (familyOf parent bs).map (Prod.map bare fun p => p)
  | [] => rfl
  | b :: bs => by
    rw [bareOf, familyOf, familyOf, List.map_append, family_bare parent b,
      familyOf_bareOf parent bs]

end

/-- The rows of a branch without places. -/
theorem map_row_family_bare (b : Branch) (parent : Option NodeId) :
    (b.bare.family parent).map row = ((b.family parent).map row).map Node.bare := by
  rw [family_bare, List.map_map, List.map_map]
  refine List.map_congr_left fun x _ => ?_
  have ids : x.1.bare.children.map id = x.1.children.map id := by
    rw [children_bare, List.map_map]
    exact List.map_congr_left fun c _ => id_bare c
  simp only [Function.comp_apply, row, Node.bare, Prod.map_fst, Prod.map_snd, kind_bare, ids]
  cases x.1
  rfl

/-- Branches that differ in places only have as many nodes. -/
theorem length_allOf_eq {bs cs : List Branch} (same : bareOf bs = bareOf cs) :
    (allOf bs).length = (allOf cs).length := by
  rw [← List.length_map bare, ← allOf_bareOf, same, allOf_bareOf, List.length_map]

/-- They have the same numbers. -/
theorem map_id_eq {bs cs : List Branch} (same : bareOf bs = bareOf cs) :
    bs.map id = cs.map id := by
  have ids := congrArg (List.map id) same
  simpa only [bareOf_eq_map, List.map_map, Function.comp_def, id_bare] using ids

/-! ## Order -/

mutual

/-- What is below a node of a branch is below the branch, in the same order. -/
theorem all_sublist {c : Branch} : (b : Branch) → c ∈ b.all → c.all.Sublist b.all
  | node id kind span children, mem => by
    rw [all, List.mem_append, List.mem_singleton] at mem
    rcases mem with mem | rfl
    · exact (all_sublist_of_mem children mem).trans (List.sublist_append_left _ _)
    · exact List.Sublist.refl _

theorem all_sublist_of_mem {c : Branch} : (bs : List Branch) → c ∈ allOf bs →
    c.all.Sublist (allOf bs)
  | [], mem => absurd mem List.not_mem_nil
  | b :: bs, mem => by
    rw [allOf] at mem ⊢
    rcases List.mem_append.mp mem with mem | mem
    · exact (all_sublist b mem).trans (List.sublist_append_left _ _)
    · exact (all_sublist_of_mem bs mem).trans (List.sublist_append_right _ _)

end

mutual

theorem preorder_sublist {c : Branch} : (b : Branch) → c ∈ b.all →
    c.preorder.Sublist b.preorder
  | node id kind span children, mem => by
    rw [all, List.mem_append, List.mem_singleton] at mem
    rcases mem with mem | rfl
    · exact (preorder_sublist_of_mem children mem).trans (List.sublist_cons_self _ _)
    · exact List.Sublist.refl _

theorem preorder_sublist_of_mem {c : Branch} : (bs : List Branch) → c ∈ allOf bs →
    c.preorder.Sublist (preorderOf bs)
  | [], mem => absurd mem List.not_mem_nil
  | b :: bs, mem => by
    rw [allOf, List.mem_append] at mem
    rw [preorderOf]
    rcases mem with mem | mem
    · exact (preorder_sublist b mem).trans (List.sublist_append_left _ _)
    · exact (preorder_sublist_of_mem bs mem).trans (List.sublist_append_right _ _)

end

mutual

/-- A walk meets every node once. -/
theorem preorder_perm : (b : Branch) → b.preorder.Perm (b.all.map Branch.id)
  | node id kind span children => by
    have ih := preorderOf_perm children
    rw [preorder, all, List.map_append]
    exact (ih.cons id).trans (List.perm_append_singleton id _).symm

theorem preorderOf_perm : (bs : List Branch) → (preorderOf bs).Perm ((allOf bs).map Branch.id)
  | [] => List.Perm.nil
  | b :: bs => by
    rw [preorderOf, allOf, List.map_append]
    exact (preorder_perm b).append (preorderOf_perm bs)

end

theorem preorder_eq (b : Branch) : b.preorder = b.id :: preorderOf b.children := by
  cases b
  rw [preorder, id, children]

@[simp] theorem preorderOf_append (bs cs : List Branch) :
    preorderOf (bs ++ cs) = preorderOf bs ++ preorderOf cs := by
  induction bs with
  | nil => rfl
  | cons b bs ih => rw [List.cons_append, preorderOf, preorderOf, ih, List.append_assoc]

/-- A walk over branches meets the branches themselves in their order. -/
theorem ids_sublist_preorderOf (bs : List Branch) :
    (bs.map Branch.id).Sublist (preorderOf bs) := by
  induction bs with
  | nil => exact List.Sublist.slnil
  | cons b bs ih =>
    rw [preorderOf, preorder_eq, List.map_cons, List.cons_append]
    exact (ih.trans (List.sublist_append_right _ _)).cons_cons _

theorem mem_all_of_mem_children {b c : Branch} (mem : c ∈ b.children) : c ∈ b.all := by
  rw [all_eq]
  exact List.mem_append_left _ (mem_allOf.mpr ⟨c, mem, self_mem_all c⟩)

/-- What is below a node is in its branch. -/
theorem mem_all_of_below {b c : Branch} (below : c ∈ allOf b.children) : c ∈ b.all := by
  rw [all_eq]
  exact List.mem_append_left _ below

theorem mem_all_trans {a b c : Branch} (outer : b ∈ a.all) (inner : c ∈ b.all) : c ∈ a.all :=
  (all_sublist a outer).subset inner

mutual

/-- A node of a branch is the branch or a child of one of its nodes. -/
theorem eq_or_exists_parent {c : Branch} : (b : Branch) → c ∈ b.all →
    c = b ∨ ∃ p ∈ b.all, c ∈ p.children
  | node id kind span children, mem => by
    rw [all, List.mem_append, List.mem_singleton] at mem
    rcases mem with mem | rfl
    · rcases mem_or_exists_parent children mem with mem | ⟨p, inside, child⟩
      · exact .inr ⟨_, self_mem_all _, mem⟩
      · exact .inr ⟨p, List.mem_append_left _ inside, child⟩
    · exact .inl rfl

theorem mem_or_exists_parent {c : Branch} : (bs : List Branch) → c ∈ allOf bs →
    c ∈ bs ∨ ∃ p ∈ allOf bs, c ∈ p.children
  | [], mem => absurd mem List.not_mem_nil
  | b :: bs, mem => by
    rcases List.mem_append.mp mem with mem | mem
    · rcases eq_or_exists_parent b mem with rfl | ⟨p, inside, child⟩
      · exact .inl List.mem_cons_self
      · exact .inr ⟨p, List.mem_append_left _ inside, child⟩
    · rcases mem_or_exists_parent bs mem with mem | ⟨p, inside, child⟩
      · exact .inl (List.mem_cons_of_mem _ mem)
      · exact .inr ⟨p, List.mem_append_right _ inside, child⟩

end

mutual

/-- A child has its parent as parent. -/
theorem mem_family_of_mem_children {parent : Option NodeId} {b c : Branch} :
    (r : Branch) → b ∈ r.all → c ∈ b.children → (c, some b.id) ∈ family parent r
  | node id kind span children, mem, child => by
    rw [all, List.mem_append, List.mem_singleton] at mem
    rw [family, List.mem_append]
    rcases mem with mem | rfl
    · exact .inl (mem_familyOf_of_mem_children children mem child)
    · exact .inl (mem_familyOf_of_mem children child)

theorem mem_familyOf_of_mem_children {parent : Option NodeId} {b c : Branch} :
    (rs : List Branch) → b ∈ allOf rs → c ∈ b.children → (c, some b.id) ∈ familyOf parent rs
  | [], mem, _ => absurd mem List.not_mem_nil
  | r :: rs, mem, child => by
    rw [allOf, List.mem_append] at mem
    rw [familyOf, List.mem_append]
    rcases mem with mem | mem
    · exact .inl (mem_family_of_mem_children r mem child)
    · exact .inr (mem_familyOf_of_mem_children rs mem child)

theorem mem_familyOf_of_mem {parent : Option NodeId} {c : Branch} :
    (rs : List Branch) → c ∈ rs → (c, parent) ∈ familyOf parent rs
  | [], mem => absurd mem List.not_mem_nil
  | r :: rs, mem => by
    rw [familyOf, List.mem_append]
    rcases List.mem_cons.mp mem with rfl | mem
    · exact .inl (self_mem_family c)
    · exact .inr (mem_familyOf_of_mem rs mem)

theorem self_mem_family {parent : Option NodeId} : (b : Branch) → (b, parent) ∈ family parent b
  | node id kind span children => by
    rw [family]
    exact List.mem_append_right _ (List.mem_singleton.mpr rfl)

end

/-- What stands in a branch stands, but for its place, in every branch of the same shape. -/
theorem exists_bare_eq {b c d : Branch} (same : b.bare = c.bare) (mem : d ∈ b.all) :
    ∃ e ∈ c.all, e.bare = d.bare := by
  have inside : d.bare ∈ c.bare.all := by
    rw [← same, all_bare]
    exact List.mem_map_of_mem mem
  rwa [all_bare, List.mem_map] at inside

/-! ## From parents to children -/

mutual

/-- What passes from parents to children holds in a whole branch. -/
theorem forall_mem_all {P : Branch → Prop} (step : ∀ p, P p → ∀ c ∈ p.children, P c) :
    (b : Branch) → P b → ∀ d ∈ b.all, P d
  | node id kind span children, top => by
    intro d mem
    rw [all, List.mem_append, List.mem_singleton] at mem
    rcases mem with mem | rfl
    · exact forall_mem_allOf step children (step _ top) d mem
    · exact top

theorem forall_mem_allOf {P : Branch → Prop} (step : ∀ p, P p → ∀ c ∈ p.children, P c) :
    (bs : List Branch) → (∀ b ∈ bs, P b) → ∀ d ∈ allOf bs, P d
  | [], _ => fun _ mem => absurd mem List.not_mem_nil
  | b :: bs, top => by
    intro d mem
    rw [allOf, List.mem_append] at mem
    rcases mem with mem | mem
    · exact forall_mem_all step b (top b List.mem_cons_self) d mem
    · exact forall_mem_allOf step bs (fun c mem => top c (List.mem_cons_of_mem _ mem)) d mem

end

mutual

/-- Of two nodes that a walk meets, the second is below the first, or they are below two children
of one node. -/
theorem pairwise_preorder {R : NodeId → NodeId → Prop} : (b : Branch) →
    (∀ c ∈ b.all, ∀ d ∈ allOf c.children, R c.id d.id) →
    (∀ c ∈ b.all, c.children.Pairwise fun d e => ∀ x ∈ d.all, ∀ y ∈ e.all, R x.id y.id) →
    b.preorder.Pairwise R
  | node id kind span children, below, apart => by
    have inner : ∀ c ∈ allOf children, c ∈ (node id kind span children).all := fun c mem => by
      rw [all]
      exact List.mem_append_left _ mem
    rw [preorder, List.pairwise_cons]
    constructor
    · intro s mem
      obtain ⟨d, inside, rfl⟩ := List.mem_map.mp ((preorderOf_perm children).subset mem)
      exact below _ (self_mem_all _) d inside
    · exact pairwise_preorderOf children (fun c mem => below c (inner c mem))
        (fun c mem => apart c (inner c mem)) (apart _ (self_mem_all _))

theorem pairwise_preorderOf {R : NodeId → NodeId → Prop} : (bs : List Branch) →
    (∀ c ∈ allOf bs, ∀ d ∈ allOf c.children, R c.id d.id) →
    (∀ c ∈ allOf bs, c.children.Pairwise fun d e => ∀ x ∈ d.all, ∀ y ∈ e.all, R x.id y.id) →
    (bs.Pairwise fun d e => ∀ x ∈ d.all, ∀ y ∈ e.all, R x.id y.id) →
    (preorderOf bs).Pairwise R
  | [], _, _, _ => List.Pairwise.nil
  | b :: bs, below, apart, row => by
    obtain ⟨head, tail⟩ := List.pairwise_cons.mp row
    rw [preorderOf, List.pairwise_append]
    refine ⟨pairwise_preorder b (fun c mem => below c (List.mem_append_left _ mem))
        fun c mem => apart c (List.mem_append_left _ mem),
      pairwise_preorderOf bs (fun c mem => below c (List.mem_append_right _ mem))
        (fun c mem => apart c (List.mem_append_right _ mem)) tail, fun s mem s' mem' => ?_⟩
    obtain ⟨x, inside, rfl⟩ := List.mem_map.mp ((preorder_perm b).subset mem)
    obtain ⟨y, inside', rfl⟩ := List.mem_map.mp ((preorderOf_perm bs).subset mem')
    obtain ⟨e, child, inside'⟩ := mem_allOf.mp inside'
    exact head e child x inside y inside'

end

end Branch

end LuaTyping
