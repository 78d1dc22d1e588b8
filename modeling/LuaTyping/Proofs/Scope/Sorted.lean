import LuaTyping.Proofs.Syntax.Total.Program
import LuaTyping.Proofs.Syntax.Drawn
import LuaTyping.Proofs.Scope.Bindings

/-!
# The bindings of every text are sorted

In the tree of every text, also of a faulty one, the bindings of an owner become visible in their
order.  What a function or a loop opens is visible from where its body starts, and what a statement
binds becomes visible among the tokens of the statement; so it is enough to know where the nodes lie
(`Layout.Draws`) and that what is sealed binds nothing in a scope around it.

* `Tree.Grows.encloses_of_sealed`: local statements in a sealed branch stand in scopes of it.
* `Tree.Grows.binds_bounds`: what a statement binds becomes visible among its tokens.
* `Tree.Sorted`, `Parsed.sorted_tree`: the bindings of every owner are sorted.
-/

namespace LuaTyping

open Outline (Lies LieIn Sited Sealed)

/-- A search in increasing numbers finds one that is at most any that fits. -/
theorem exists_find?_le {ids : List Nat} {p : Nat → Bool} {a : Nat}
    (sorted : ids.Pairwise (· < ·)) (mem : a ∈ ids) (fits : p a = true) :
    ∃ o, ids.find? p = some o ∧ o ≤ a := by
  induction ids with
  | nil => exact absurd mem List.not_mem_nil
  | cons i ids ih =>
    obtain ⟨first, sorted⟩ := List.pairwise_cons.mp sorted
    by_cases head : p i = true
    · refine ⟨i, List.find?_cons_of_pos head, ?_⟩
      rcases List.mem_cons.mp mem with rfl | mem
      · exact Nat.le_refl _
      · exact Nat.le_of_lt (first a mem)
    · rcases List.mem_cons.mp mem with rfl | mem
      · exact absurd fits head
      · rw [List.find?_cons_of_neg head]
        exact ih sorted mem

/-- A row of outlines that ends with a block is drawn with the block at its end. -/
theorem Layout.exists_block {l : Layout} {i j : Nat} {ds : List Outline} {o : Outline}
    (inner : LieIn i j (ds ++ [o])) (block : o.kind = .block) (next : Nat) :
    ∃ c k m, l.branchesOf next (ds ++ [o]) = l.branchesOf next ds ++ [c] ∧ c.kind = .block ∧
      l.Draws k m c := by
  obtain ⟨k, m, -, lies, -⟩ := inner.mem (List.mem_append_right ds List.mem_cons_self)
  rw [Layout.branchesOf_append, Layout.branchesOf_singleton]
  cases o with
  | doc token => exact absurd block NodeKind.noConfusion
  | node kind first last cs =>
    exact ⟨_, k, m, rfl, block, .of_lies lies (List.mem_singleton_self _)⟩

namespace Tree

/-- The bindings of every owner become visible in their order. -/
def Sorted (t : Tree) : Prop :=
  ∀ a, (t.bindings a).Pairwise fun x y => x.visibleFrom ≤ y.visibleFrom

/-- What is found in the scope of a node is the last visible binding of the name. -/
theorem Sorted.latest_eq {t : Tree} (h : t.Sorted) (owner : NodeId) (name : String) (offset : Nat) :
    Scopes.latest (t.allBindings.getD owner #[]) name offset
      = ((t.bindings owner).filter fun b => decide (b.visibleFrom ≤ offset)).reverse.find?
          fun b => b.name == name :=
  Scopes.latest_eq _ (h owner) name offset

/-- There are bindings for the nodes of the table only. -/
theorem bindings_of_ge {t : Tree} {a : NodeId} (outside : t.size ≤ a) : t.bindings a = [] := by
  have inner (bs : List (NodeId × Binding)) (table : Array (Array Binding)) :
      (bs.foldl (fun table b => table.modify b.1 (·.push b.2)) table).size = table.size := by
    induction bs generalizing table with
    | nil => rfl
    | cons b bs ih => rw [List.foldl_cons, ih, Array.size_modify]
  have outer (ids : List NodeId) (table : Array (Array Binding)) :
      (ids.foldl (fun table id =>
        (t.bindingsAt id).foldl (fun table b => table.modify b.1 (·.push b.2)) table) table).size
        = table.size := by
    induction ids generalizing table with
    | nil => rfl
    | cons id ids ih => rw [List.foldl_cons, ih, inner]
  have size : t.allBindings.size ≤ a := by
    rwa [allBindings, outer, Array.size_replicate]
  rw [bindings, Array.getD_eq_getD_getElem?, Array.getElem?_eq_none size]
  rfl

/-- The kinds of statements that bind names for what follows them. -/
def IsLocal (kind : NodeKind) : Prop := kind = .localStat ∨ kind = .localFuncStat

theorem IsLocal.known {kind : NodeKind} (h : IsLocal kind) : kind ≠ .chunk ∧ kind ≠ .comment := by
  rcases h with rfl | rfl <;> exact ⟨NodeKind.noConfusion, NodeKind.noConfusion⟩

/-- What binds names is a local statement. -/
theorem isLocal_of_mem_binds {t : Tree} {s : NodeId} {x : Binding} (mem : x ∈ t.binds s) :
    IsLocal (t.kind s) := by
  by_contra other
  rw [IsLocal, not_or] at other
  rw [binds_eq_nil t other.1 other.2] at mem
  exact absurd mem List.not_mem_nil

/-- The kinds of nodes that open a scope with names of their own. -/
def opensNames : NodeKind → Bool
  | .funcBody | .numericForStat | .genericForStat => true
  | _ => false

theorem ownBindings_eq_nil (t : Tree) {id : NodeId} (none : opensNames (t.kind id) = false) :
    t.ownBindings id = [] := by
  unfold ownBindings
  split <;> rename_i kind
  · rw [kind] at none
    exact absurd none.symm Bool.false_ne_true
  · rw [kind] at none
    exact absurd none.symm Bool.false_ne_true
  · rw [kind] at none
    exact absurd none.symm Bool.false_ne_true
  · rfl

/-- What a node binds in the scope of an owner. -/
def bindsIn (t : Tree) (owner s : NodeId) : List Binding :=
  if t.scopeOwner? s = some owner then t.binds s else []

theorem mem_bindsIn {t : Tree} {owner s : NodeId} {x : Binding} :
    x ∈ t.bindsIn owner s ↔ t.scopeOwner? s = some owner ∧ x ∈ t.binds s := by
  rw [bindsIn]
  split
  · rename_i found
    exact ⟨fun bound => ⟨found, bound⟩, fun both => both.2⟩
  · rename_i other
    exact ⟨fun bound => absurd bound List.not_mem_nil, fun both => absurd both.1 other⟩

/-- Local statements in the branch stand in scopes of the branch. -/
def Encloses (t : Tree) (b : Branch) : Prop :=
  ∀ d ∈ b.all, IsLocal d.kind → ∃ a, t.scopeOwner? d.id = some a ∧ a ≤ b.id

namespace Grows

variable {l : Layout} {t : Tree} {r b c d : Branch} {i j next : Nat} {o : Outline}
  {cs : List Outline}

/-! ## Scopes of sealed branches -/

/-- A node that owns a scope is at least the owner of the scope of what is below it. -/
theorem scopeOwner?_le (h : t.Grows r) (mem : b ∈ r.all) (below : d ∈ Branch.allOf b.children)
    (owns : t.ownsScope b.id = true) : ∃ a, t.scopeOwner? d.id = some a ∧ a ≤ b.id := by
  have inside : d ∈ r.all := Branch.mem_all_trans mem (Branch.mem_all_of_below below)
  exact exists_find?_le (List.pairwise_cons.mp (h.pairwise_ancestors d inside)).2
    ((h.mem_ancestors_iff mem d inside).mpr below) owns

/-- Below a node whose children enclose their local statements, the scopes are further down. -/
theorem scopeOwner?_lt_of_encloses (h : t.Grows r) (mem : b ∈ r.all) {ds : List Branch}
    (children : ∀ c ∈ ds, c ∈ b.children) (enclose : ∀ c ∈ ds, t.Encloses c)
    (below : d ∈ Branch.allOf ds) (isLocal : IsLocal d.kind) :
    ∃ a, t.scopeOwner? d.id = some a ∧ a < b.id := by
  obtain ⟨c, child, inside⟩ := Branch.mem_allOf.mp below
  obtain ⟨a, owner, le⟩ := enclose c child d inside isLocal
  exact ⟨a, owner, Nat.lt_of_le_of_lt le (h.id_lt_id mem (children c child))⟩

/-- Sealed branches enclose their local statements. -/
theorem encloses_of_sealed (h : t.Grows r) (closed : o.Sealed) {next : Nat}
    (all : ∀ b ∈ l.branches next o, b ∈ r.all) : ∀ b ∈ l.branches next o, t.Encloses b := by
  induction closed generalizing next with
  | doc token =>
    intro b mem d inside isLocal
    obtain ⟨comment, children⟩ := Layout.comment_of_mem_branches mem
    rw [Branch.all_eq, children, Branch.allOf, List.nil_append, List.mem_singleton] at inside
    rw [inside, comment] at isLocal
    exact absurd isLocal (by simp [IsLocal])
  | @funcBody first last cs =>
    intro b mem d inside isLocal
    obtain ⟨kind, -, -⟩ := Layout.eq_of_mem_branches mem
    rw [Branch.all_eq, List.mem_append, List.mem_singleton] at inside
    rcases inside with below | rfl
    · refine h.scopeOwner?_le (all b mem) below ?_
      rw [ownsScope, h.kind (all b mem), kind]
    · rw [kind] at isLocal
      exact absurd isLocal (by simp [IsLocal])
  | @node kind first last cs notLocal notFunction _ _ ih =>
    intro b mem d inside isLocal
    obtain ⟨kindEq, -, children⟩ := Layout.eq_of_mem_branches mem
    rw [Branch.all_eq, List.mem_append, List.mem_singleton] at inside
    rcases inside with below | rfl
    · have enclose : ∀ c ∈ b.children, t.Encloses c := fun c child => by
        rw [children] at child
        obtain ⟨o, mem', n, drawn, sub⟩ := Layout.exists_of_mem_branchesOf child
        exact ih o mem' (fun c drawn => Grows.mem_of_child (all b mem) (children ▸ sub c drawn))
          c drawn
      obtain ⟨a, owner, lt⟩ := h.scopeOwner?_lt_of_encloses (all b mem) (fun _ child => child)
        enclose below isLocal
      exact ⟨a, owner, Nat.le_of_lt lt⟩
    · rw [kindEq] at isLocal
      exact absurd isLocal (by simp [IsLocal, notLocal, notFunction])

/-- Below a node, in children of sealed outlines, local statements stand in scopes of their own. -/
theorem scopeOwner?_lt_of_sealed (h : t.Grows r) (mem : b ∈ r.all)
    (children : ∀ c ∈ l.branchesOf next cs, c ∈ b.children) (closed : ∀ c ∈ cs, c.Sealed)
    (below : d ∈ Branch.allOf (l.branchesOf next cs)) (isLocal : IsLocal d.kind) :
    ∃ a, t.scopeOwner? d.id = some a ∧ a < b.id := by
  refine h.scopeOwner?_lt_of_encloses mem children (fun c child => ?_) below isLocal
  obtain ⟨o, mem', n, drawn, sub⟩ := Layout.exists_of_mem_branchesOf child
  exact h.encloses_of_sealed (closed o mem')
    (fun c drawn => Grows.mem_of_child mem (children c (sub c drawn))) c drawn

/-- Below a local statement, local statements stand in scopes of their own. -/
theorem scopeOwner?_of_isLocal (h : t.Grows r) (mem : b ∈ r.all) (drawn : l.Draws i j b)
    (isLocal : IsLocal b.kind) (below : d ∈ Branch.allOf b.children) (isLocal' : IsLocal d.kind) :
    ∃ a, t.scopeOwner? d.id = some a ∧ a < b.id := by
  obtain ⟨next, cs, first, last, children, -, -, sited⟩ := drawn.exists_sited isLocal.known
  have closed : ∀ c ∈ cs, c.Sealed := by
    rcases isLocal with kind | kind <;> rw [kind] at sited
    · exact sited.2.2
    · exact sited.1
  rw [children] at below
  exact h.scopeOwner?_lt_of_sealed mem (fun c child => by rwa [children]) closed below isLocal'

/-- A sealed outline is no block. -/
theorem kind_ne_block_of_sealed (closed : o.Sealed) : o.kind ≠ .block := by
  cases closed with
  | doc => exact NodeKind.noConfusion
  | funcBody => exact NodeKind.noConfusion
  | node _ _ notBlock _ => exact notBlock

/-! ## Where bindings become visible -/

/-- What a statement binds becomes visible among its tokens. -/
theorem binds_bounds (h : t.Grows r) (mem : b ∈ r.all) (drawn : l.Draws i j b) {x : Binding}
    (bound : x ∈ t.binds b.id) :
    ∃ m, Mark.stop i ≤ m ∧ m ≤ Mark.stopBefore j ∧ x.visibleFrom = l.offset m := by
  have isLocal := isLocal_of_mem_binds bound
  rw [h.kind mem] at isLocal
  obtain ⟨next, cs, first, last, children, inner, span, sited⟩ := drawn.exists_sited isLocal.known
  unfold binds at bound
  rw [h.kind mem] at bound
  rcases isLocal with kind | kind
  · rw [kind] at bound sited
    obtain ⟨n, -, rfl⟩ := List.mem_map.mp bound
    refine ⟨last, sited.1, sited.2.1, ?_⟩
    rw [bindingOf, stop, h.span mem, span]
  · rw [kind] at bound sited
    obtain ⟨n, name, rfl⟩ := List.mem_map.mp bound
    have name := Option.mem_toList.mp name
    have child := List.mem_of_find?_eq_some name
    have nameKind : t.kind n = .nameDef := by simpa using List.find?_some name
    rw [h.children mem] at child
    obtain ⟨c, below, rfl⟩ := List.mem_map.mp child
    have inside := Grows.mem_of_child mem below
    rw [h.kind inside] at nameKind
    rw [children] at below
    obtain ⟨o, mem', k, drawn, -⟩ := Layout.exists_of_mem_branchesOf below
    rw [Layout.kind_of_mem_branches drawn] at nameKind
    obtain ⟨first', last'⟩ := sited.2 o mem' nameKind
    refine ⟨o.first, first', last', ?_⟩
    cases o with
    | doc token => exact absurd nameKind (by simp [Outline.kind])
    | node kind first last cs =>
      obtain ⟨-, span, -⟩ := Layout.eq_of_mem_branches drawn
      rw [bindingOf, start, h.span inside, span]
      rfl

/-- Two statements that are drawn one behind the other bind names one behind the other. -/
theorem binds_le_binds (h : t.Grows r) (faithful : l.Faithful) (mem : b ∈ r.all) (mem' : c ∈ r.all)
    {k m : Nat} (drawn : l.Draws i j b) (drawn' : l.Draws k m c) (le : j ≤ k) {x y : Binding}
    (bound : x ∈ t.binds b.id) (bound' : y ∈ t.binds c.id) : x.visibleFrom ≤ y.visibleFrom := by
  obtain ⟨last, -, before, atLast⟩ := h.binds_bounds mem drawn bound
  obtain ⟨first, behind, -, atFirst⟩ := h.binds_bounds mem' drawn' bound'
  rw [atLast, atFirst]
  refine Layout.offset_le faithful (Nat.le_trans before (Nat.le_trans ?_ behind))
  simp only [Mark.stopBefore, Mark.stop]
  omega

/-- In a drawn tree, of two nodes that a walk meets the second is below the first, or what they
bind becomes visible in this order. -/
theorem pairwise_walk (h : t.Grows r) (faithful : l.Faithful) (drawn : l.Draws i j r) :
    r.preorder.Pairwise fun s s' =>
      s ∈ t.ancestors s' ∨ ∀ x ∈ t.binds s, ∀ y ∈ t.binds s', x.visibleFrom ≤ y.visibleFrom := by
  refine Branch.pairwise_preorder r (fun c mem d below => .inl ?_) fun c mem => ?_
  · exact (h.mem_ancestors_iff mem d
      (Branch.mem_all_trans mem (Branch.mem_all_of_below below))).mpr below
  · obtain ⟨k, m, -, -, next, cs, children, inner, -⟩ := drawn.of_mem_all mem
    have row := Layout.Draws.pairwise (l := l) inner next
    rw [← children] at row
    refine row.imp_of_mem fun {d e} child child' both x below y below' => .inr ?_
    obtain ⟨k, m, k', m', drawn, drawn', le⟩ := both
    obtain ⟨k₁, m₁, -, le₁, drawn₁⟩ := drawn.of_mem_all below
    obtain ⟨k₂, m₂, le₂, -, drawn₂⟩ := drawn'.of_mem_all below'
    have inside := Branch.mem_all_trans (Grows.mem_of_child mem child) below
    have inside' := Branch.mem_all_trans (Grows.mem_of_child mem child') below'
    exact fun x bound y bound' => h.binds_le_binds faithful inside inside' drawn₁ drawn₂
      (Nat.le_trans le₁ (Nat.le_trans le le₂)) bound bound'

/-! ## The bindings of an owner -/

/-- Who contributes to an owner is the owner or below it. -/
theorem mem_preorder_of_contributes (h : t.Grows r) (mem : b ∈ r.all) {s : NodeId}
    (inside : s ∈ r.preorder) (some_ : t.contributes b.id s ≠ []) : s ∈ b.preorder := by
  obtain ⟨d, mem', rfl⟩ := List.mem_map.mp ((Branch.preorder_perm r).subset inside)
  rw [contributes_eq] at some_
  refine (Branch.preorder_perm b).mem_iff.mpr (List.mem_map_of_mem ?_)
  rw [Branch.all_eq]
  by_cases same : d.id = b.id
  · rw [h.eq_of_id_eq mem' mem same]
    exact List.mem_append_right _ List.mem_cons_self
  · rw [if_neg same, List.append_nil] at some_
    have owner : t.scopeOwner? d.id = some b.id := by
      by_contra other
      rw [if_neg other] at some_
      exact some_ rfl
    exact List.mem_append_left _
      ((h.mem_ancestors_iff mem d mem').mp (List.mem_of_find?_eq_some owner))

/-- The bindings of an owner: its own, and behind them those of the statements below it that stand
in its scope. -/
theorem bindings_eq_append (h : t.Grows r) (mem : b ∈ r.all) :
    t.bindings b.id
      = t.ownBindings b.id ++ (Branch.preorderOf b.children).flatMap (t.bindsIn b.id) := by
  have nodup : r.preorder.Nodup := by
    rw [(Branch.preorder_perm r).nodup_iff, h.ids]
    exact List.nodup_range
  have sub := Branch.preorder_sublist r mem
  rw [bindings_eq_flatMap t (h.id_lt_size mem), h.walk_eq,
    Arranged.flatMap_eq_of_sublist sub nodup fun s inside =>
      h.mem_preorder_of_contributes mem inside, Branch.preorder_eq, List.flatMap_cons]
  have fresh := (List.nodup_cons.mp (Branch.preorder_eq b ▸ nodup.sublist sub)).1
  congr 1
  · have notOwn : t.scopeOwner? b.id ≠ some b.id := fun owner =>
      Nat.lt_irrefl _ (h.lt_of_mem_ancestors mem (List.mem_of_find?_eq_some owner))
    rw [contributes_eq, if_neg notOwn, if_pos rfl, List.nil_append]
  · refine List.flatMap_congr fun s inside => ?_
    have other : s ≠ b.id := fun same => fresh (same ▸ inside)
    rw [contributes_eq, if_neg other, List.append_nil, bindsIn]

/-- What is bound in a branch becomes visible behind the start of its first token. -/
theorem offset_le_visibleFrom (h : t.Grows r) (faithful : l.Faithful) (mem : b ∈ r.all)
    (drawn : l.Draws i j b) (below : d ∈ b.all) {y : Binding} (bound : y ∈ t.binds d.id)
    {mark : Nat} (le : mark ≤ Mark.start i) : l.offset mark ≤ y.visibleFrom := by
  obtain ⟨k, m, front, -, drawn⟩ := drawn.of_mem_all below
  obtain ⟨first, first_le, -, eq⟩ := h.binds_bounds (Branch.mem_all_trans mem below) drawn bound
  rw [eq]
  refine Layout.offset_le faithful (Nat.le_trans le (Nat.le_trans ?_ first_le))
  simp only [Mark.start, Mark.stop]
  omega

/-- The block of a loop whose other parts are sealed. -/
theorem block?_of_sealed (h : t.Grows r) (mem : b ∈ r.all) {ds : List Outline}
    (children : b.children = l.branchesOf next ds ++ [c]) (block : c.kind = .block)
    (closed : ∀ o ∈ ds, o.Sealed) : t.block? b.id = some c.id := by
  have front : ((l.branchesOf next ds).map Branch.id).find? (fun e => t.kind e == .block)
      = none := by
    refine List.find?_eq_none.mpr fun e inside => ?_
    obtain ⟨e, child, rfl⟩ := List.mem_map.mp inside
    obtain ⟨o, mem', n, drawn, -⟩ := Layout.exists_of_mem_branchesOf child
    have inside := Grows.mem_of_child mem (by
      rw [children]
      exact List.mem_append_left _ child)
    rw [h.kind inside, Layout.kind_of_mem_branches drawn, beq_iff_eq]
    exact kind_ne_block_of_sealed (closed o mem')
  have last : t.kind c.id = .block := by
    rw [h.kind (Grows.mem_of_child mem (by rw [children]; exact List.mem_concat_self)), block]
  rw [block?, child?, h.children mem, children, List.map_append, List.find?_append, front,
    Option.none_or, List.map_singleton, List.find?_singleton, last]
  rfl

/-- The variables of a loop are visible from the start of its block, and all that is bound in its
scope stands in the block. -/
theorem bodyStart_le (h : t.Grows r) (faithful : l.Faithful) (mem : b ∈ r.all)
    (children : b.children = l.branchesOf next cs) (inner : LieIn i j cs)
    (sited : ∃ ds β, cs = ds ++ [β] ∧ β.kind = .block ∧ ∀ o ∈ ds, o.Sealed)
    (below : d ∈ Branch.allOf b.children) (owner : t.scopeOwner? d.id = some b.id) {y : Binding}
    (bound : y ∈ t.binds d.id) : t.bodyStart b.id ≤ y.visibleFrom := by
  obtain ⟨ds, β, rfl, blockKind, closed⟩ := sited
  obtain ⟨c, k, m, row, block, drawn⟩ := Layout.exists_block (l := l) inner blockKind next
  rw [row] at children
  have inside : c ∈ r.all := Grows.mem_of_child mem (by
    rw [children]
    exact List.mem_concat_self)
  have atBody : t.bodyStart b.id = t.start c.id := by
    rw [bodyStart, h.block?_of_sealed mem children block closed]
  have isLocal := isLocal_of_mem_binds bound
  rw [h.kind (Branch.mem_all_trans mem (Branch.mem_all_of_below below))] at isLocal
  rw [children, Branch.allOf_append, List.mem_append, Branch.allOf, Branch.allOf,
    List.append_nil] at below
  rcases below with outside | below
  · -- a statement in front of the block would stand in a scope of its own
    obtain ⟨a, owner', lt⟩ := h.scopeOwner?_lt_of_sealed mem
      (fun e child => by rw [children]; exact List.mem_append_left _ child) closed outside isLocal
    rw [owner] at owner'
    exact absurd lt (Option.some.inj owner' ▸ Nat.lt_irrefl _)
  · have known : c.kind ≠ .chunk ∧ c.kind ≠ .comment := by
      rw [block]
      exact ⟨NodeKind.noConfusion, NodeKind.noConfusion⟩
    obtain ⟨_, _, first, last, -, -, span, sited⟩ := drawn.exists_sited known
    rw [block] at sited
    rw [atBody, start, h.span inside, span]
    exact h.offset_le_visibleFrom faithful inside drawn below bound sited

/-- What a function or a loop opens is visible no later than what is bound in its scope. -/
theorem openAt_le (h : t.Grows r) (faithful : l.Faithful) (mem : b ∈ r.all)
    (drawn : l.Draws i j b) (opens : t.ownBindings b.id ≠ []) (below : d ∈ Branch.allOf b.children)
    (owner : t.scopeOwner? d.id = some b.id) {y : Binding} (bound : y ∈ t.binds d.id) :
    t.openAt b.id ≤ y.visibleFrom := by
  have known : b.kind ≠ .chunk ∧ b.kind ≠ .comment := by
    constructor <;> intro kind <;>
      exact opens (t.ownBindings_eq_nil (by rw [h.kind mem, kind]; rfl))
  obtain ⟨next, cs, first, last, children, inner, span, sited⟩ := drawn.exists_sited known
  cases kind : b.kind with
  | funcBody =>
    rw [kind] at sited
    rw [openAt, if_pos ((h.kind mem).trans kind), start, h.span mem, span]
    exact h.offset_le_visibleFrom faithful mem drawn (Branch.mem_all_of_below below) bound sited
  | numericForStat =>
    rw [kind] at sited
    rw [openAt, if_neg (by rw [h.kind mem, kind]; exact NodeKind.noConfusion)]
    exact h.bodyStart_le faithful mem children inner sited below owner bound
  | genericForStat =>
    rw [kind] at sited
    rw [openAt, if_neg (by rw [h.kind mem, kind]; exact NodeKind.noConfusion)]
    exact h.bodyStart_le faithful mem children inner sited below owner bound
  | _ => exact absurd (t.ownBindings_eq_nil (by rw [h.kind mem, kind]; rfl)) opens

/-- Of two nodes that bind names in the same scope, neither is above the other. -/
theorem not_above_of_bindsIn (h : t.Grows r) (drawn : l.Draws i j r) (mem : d ∈ r.all)
    (mem' : c ∈ r.all) {a : NodeId} {x y : Binding} (bound : x ∈ t.bindsIn a d.id)
    (bound' : y ∈ t.bindsIn a c.id) : d.id ∉ t.ancestors c.id := by
  intro above
  obtain ⟨owner, bound⟩ := mem_bindsIn.mp bound
  obtain ⟨owner', bound'⟩ := mem_bindsIn.mp bound'
  have below := (h.mem_ancestors_iff mem c mem').mp above
  -- what is below a local statement stands in a scope of its own
  obtain ⟨_, _, -, -, drawn_d⟩ := drawn.of_mem_all mem
  obtain ⟨closer, owner_c, lt⟩ := h.scopeOwner?_of_isLocal mem drawn_d
    (h.kind mem ▸ isLocal_of_mem_binds bound) below (h.kind mem' ▸ isLocal_of_mem_binds bound')
  obtain rfl : a = closer := Option.some.inj (owner'.symm.trans owner_c)
  exact Nat.lt_asymm lt (h.lt_of_mem_ancestors mem (List.mem_of_find?_eq_some owner))

/-- What is bound in the scope of an owner becomes visible in the order of the walk. -/
theorem pairwise_bindsIn (h : t.Grows r) (faithful : l.Faithful) (drawn : l.Draws i j r)
    (mem : b ∈ r.all) : (Branch.preorderOf b.children).Pairwise fun s s' =>
      ∀ x ∈ t.bindsIn b.id s, ∀ y ∈ t.bindsIn b.id s', x.visibleFrom ≤ y.visibleFrom := by
  have sub : (Branch.preorderOf b.children).Sublist r.preorder := by
    refine List.Sublist.trans ?_ (Branch.preorder_sublist r mem)
    rw [Branch.preorder_eq]
    exact List.sublist_cons_self _ _
  have node {s : NodeId} (inside : s ∈ Branch.preorderOf b.children) : ∃ d ∈ r.all, d.id = s :=
    List.mem_map.mp ((Branch.preorder_perm r).subset (sub.subset inside))
  refine ((h.pairwise_walk faithful drawn).sublist sub).imp_of_mem
    fun mem_s mem_s' before x bound y bound' => ?_
  obtain ⟨d, mem_d, rfl⟩ := node mem_s
  obtain ⟨c, mem_c, rfl⟩ := node mem_s'
  rcases before with above | le
  · exact absurd above (h.not_above_of_bindsIn drawn mem_d mem_c bound bound')
  · exact le x (mem_bindsIn.mp bound).2 y (mem_bindsIn.mp bound').2

/-- In a drawn tree, the bindings of an owner become visible in their order. -/
theorem sorted (h : t.Grows r) (faithful : l.Faithful) (drawn : l.Draws i j r) : t.Sorted := by
  intro a
  rcases Nat.lt_or_ge a t.size with inside | outside
  swap
  · rw [bindings_of_ge outside]
    exact List.Pairwise.nil
  obtain ⟨b, mem, rfl⟩ := h.exists_mem inside
  rw [h.bindings_eq_append mem, List.pairwise_append]
  refine ⟨t.pairwise_ownBindings b.id, List.pairwise_flatMap.mpr ⟨fun s _ => ?_, ?_⟩,
    fun x own y mem' => ?_⟩
  · rw [bindsIn]
    split
    · exact t.pairwise_binds s
    · exact List.Pairwise.nil
  · exact h.pairwise_bindsIn faithful drawn mem
  · obtain ⟨s, mem_s, bound⟩ := List.mem_flatMap.mp mem'
    obtain ⟨owner, bound⟩ := mem_bindsIn.mp bound
    obtain ⟨d, below, rfl⟩ := List.mem_map.mp ((Branch.preorderOf_perm b.children).subset mem_s)
    obtain ⟨_, _, -, -, drawn_b⟩ := drawn.of_mem_all mem
    rw [visibleFrom_ownBindings t own]
    exact h.openAt_le faithful mem drawn_b (List.ne_nil_of_mem own) below owner bound

end Grows

end Tree

/-! ## Programs -/

/-- The main block of a program lies at its tokens. -/
theorem Program.lies (limit : Nat) (tokens : List Token) :
    ∃ j ≤ tokens.length, Lies 0 j (Program.ofTokens limit tokens).body := by
  obtain ⟨-, -, ⟨j, le, body⟩, -⟩ := Grammar.yields_chunk limit (.start tokens ⟨⟩)
  have inside := (Grammar.chunk limit (.start tokens (⟨⟩ : Sketch))).property.of_start.2
  exact ⟨j, Nat.le_trans le inside, body.lies⟩

/-- In the tree of every text, the bindings of every owner become visible in their order, where
every place of the text has an offset of its own. -/
theorem Parsed.sorted_tree {text : String} (small : text.utf8ByteSize < offsetCount) :
    (Parsed.ofText text).tree.Sorted := by
  obtain ⟨j, -, lies⟩ := Program.lies maxNesting
    ((Lexed.ofText text).lexemes.map Lexeme.token).toList
  exact (grows_root maxNesting small).sorted (Layout.faithful_ofLexed small) (.root lies)

end LuaTyping
