import Mathlib.Data.List.Pairwise
import LuaTyping.Proofs.Scope.Bindings

/-!
# Which bindings are visible where

A binding of a statement becomes visible inside the statement, behind its first word.  So the
bindings of an owner become visible in their order, and at the words of a statement those of the
statements in front of it are visible, and none of the statements behind it.

* `Tree.seen`: the bindings of an owner that are visible at an offset, the latest first.
* `Tree.Arranged.sorted_bindings`: the bindings of an owner become visible in their order.
* `Tree.Arranged.lookup_eq`: a lookup goes through what is seen of the nodes above.
* `Tree.Arranged.seen_statement`, `Tree.Arranged.seen_before`, `Tree.Arranged.seen_behind`: what is
  seen at a statement of the block, in front of the block and behind it.
-/

namespace LuaTyping

namespace Tree

/-- What is visible at an offset of the bindings in the scope of a node, the latest first. -/
def seen (t : Tree) (offset : Nat) (owner : NodeId) : Environment :=
  (((t.bindings owner).filter fun b => decide (b.visibleFrom ≤ offset)).reverse).map
    Binding.declared

/-- What is visible at an offset of the bindings in the scopes of some nodes. -/
def seenFrom (t : Tree) (offset : Nat) (owners : List NodeId) : Environment :=
  owners.flatMap (t.seen offset)

theorem seen_congr {t : Tree} {a : NodeId} {offset offset' : Nat}
    (same : ∀ b ∈ t.bindings a, b.visibleFrom ≤ offset ↔ b.visibleFrom ≤ offset') :
    t.seen offset a = t.seen offset' a := by
  rw [seen, seen]
  congr 2
  exact List.filter_congr fun b mem => decide_eq_decide.mpr (same b mem)

theorem seenFrom_congr {t : Tree} {owners : List NodeId} {offset offset' : Nat}
    (same : ∀ a ∈ owners, t.seen offset a = t.seen offset' a) :
    t.seenFrom offset owners = t.seenFrom offset' owners :=
  List.flatMap_congr same

/-- What a node itself opens, as far as it is visible, the latest first. -/
def opened (t : Tree) (offset : Nat) (a : NodeId) : Environment :=
  ((t.ownBindings a).filter fun b => decide (b.visibleFrom ≤ offset)).reverse.map Binding.declared

theorem opened_of_le {t : Tree} {offset : Nat} {a : NodeId} (open_ : t.openAt a ≤ offset) :
    t.opened offset a = ((t.ownBindings a).map Binding.declared).reverse := by
  rw [opened, List.filter_eq_self.mpr fun b mem => ?_, List.map_reverse]
  rw [t.visibleFrom_ownBindings mem]
  exact decide_eq_true open_

theorem opened_of_lt {t : Tree} {offset : Nat} {a : NodeId} (closed : offset < t.openAt a) :
    t.opened offset a = [] := by
  rw [opened, List.filter_eq_nil_iff.mpr fun b mem => ?_]
  · rfl
  · rw [t.visibleFrom_ownBindings mem]
    simpa using closed

@[simp] theorem seenFrom_cons (t : Tree) (offset : Nat) (a : NodeId) (owners : List NodeId) :
    t.seenFrom offset (a :: owners) = t.seen offset a ++ t.seenFrom offset owners :=
  List.flatMap_cons

namespace Arranged

variable {t : Tree} {p c d a β s : NodeId} {b : Binding} {offset : Nat}

/-! ## Places -/

theorem holds_of_child (h : t.Arranged) (child : c ∈ t.children p)
    (notComment : t.kind c ≠ .comment)
    (notBlock : t.kind c ≠ .block) : t.Holds c := by
  rcases h.holds (h.child_lt_size child) notComment (h.child_ne_root child) with holds | ⟨block, -⟩
  · exact holds
  · exact absurd block notBlock

/-- What has children holds words. -/
theorem holds_of_children (h : t.Arranged) (child : c ∈ t.children p) (below : d ∈ t.children c) :
    t.Holds c := by
  rcases h.holds (h.child_lt_size child) (h.parent_ne_comment below) (h.child_ne_root child)
    with holds | ⟨-, none⟩
  · exact holds
  · rw [none] at below
    exact absurd below List.not_mem_nil

/-- Of two children that hold words, one stops before the other starts. -/
theorem order_of_ne (h : t.Arranged) (part : c ∈ t.parts p) (part' : d ∈ t.parts p)
    (ne : c ≠ d) : (t.Holds c → t.stop c ≤ t.start d) ∨ (t.Holds d → t.stop d ≤ t.start c) := by
  obtain ⟨i, hi, rfl⟩ := List.getElem_of_mem part
  obtain ⟨j, hj, rfl⟩ := List.getElem_of_mem part'
  have order := List.pairwise_iff_getElem.mp (h.order p)
  rcases Nat.lt_trichotomy i j with lt | rfl | lt
  · exact .inl (order i j hi hj lt)
  · exact absurd rfl ne
  · exact .inr (order j i hj hi lt)

theorem parts_block (h : t.Arranged) (block : t.kind β = .block) : t.parts β = t.children β :=
  h.bare (by rw [block]; decide) (by rw [block]; decide)

/-- The statements of a block hold words. -/
theorem holds_statement (h : t.Arranged) (block : t.kind β = .block) (child : s ∈ t.children β) :
    t.Holds s := by
  have part : s ∈ t.parts β := by
    rw [h.parts_block block]
    exact child
  have mem := List.mem_map_of_mem (f := t.kind) part
  have admits := h.admits_parent child
  rw [block] at admits
  generalize (t.parts β).map t.kind = ks at admits mem
  cases admits with
  | block stats =>
    have stat := stats _ mem
    refine h.holds_of_child child (mem_parts.mp part).2 ?_
    intro kind
    rw [kind] at stat
    exact absurd stat (by decide)
  | flat flat => exact absurd flat (by decide)
  | body holds => exact absurd holds (by decide)

theorem bounds_statement (h : t.Arranged) (block : t.kind β = .block) (child : s ∈ t.children β) :
    t.start β ≤ t.start s ∧ t.start s < t.stop s ∧ t.stop s ≤ t.stop β := by
  have part : s ∈ t.parts β := by
    rw [h.parts_block block]
    exact child
  have holds := h.holds_statement block child
  have inside := h.inside part holds
  exact ⟨inside.1, holds.2, inside.2⟩

/-- The name of a local function is a part of the statement. -/
theorem bounds_ownName (h : t.Arranged) {n : NodeId} (isFunction : t.kind s = .localFuncStat)
    (found : t.ownName? s = some n) :
    n ∈ t.parts s ∧ t.start s < t.start n ∧ t.start n < t.stop n ∧ t.stop n ≤ t.stop s := by
  have child := List.mem_of_find?_eq_some found
  have kind : t.kind n = .nameDef := by simpa using List.find?_some found
  have part := mem_parts.mpr ⟨child, by rw [kind]; decide⟩
  have holds := h.holds_of_child child (by rw [kind]; decide) (by rw [kind]; decide)
  exact ⟨part, h.late isFunction part, holds.2, (h.inside part holds).2⟩

/-- A binding of a statement becomes visible inside the statement. -/
theorem bounds_binds (h : t.Arranged) (block : t.kind β = .block) (child : s ∈ t.children β)
    (mem : b ∈ t.binds s) : t.start s < b.visibleFrom ∧ b.visibleFrom ≤ t.stop s := by
  have bounds := h.bounds_statement block child
  unfold binds at mem
  split at mem
  · obtain ⟨n, -, rfl⟩ := List.mem_map.mp mem
    exact ⟨bounds.2.1, Nat.le_refl _⟩
  · rename_i kind
    obtain ⟨n, found, rfl⟩ := List.mem_map.mp mem
    have name := h.bounds_ownName kind (Option.mem_toList.mp found)
    dsimp only [bindingOf]
    omega
  · exact absurd mem List.not_mem_nil

/-- What an owner opens is visible where its block starts. -/
theorem openAt_le_start (h : t.Arranged) (owns : t.Owns a β) (child : s ∈ t.children β)
    (mem : b ∈ t.ownBindings a) : b.visibleFrom ≤ t.start β := by
  rw [t.visibleFrom_ownBindings mem, openAt]
  obtain ⟨block, ⟨rfl, -⟩ | ⟨inside, -, -⟩⟩ := owns
  · unfold ownBindings at mem
    rw [block] at mem
    exact absurd mem List.not_mem_nil
  · split
    · have part := mem_parts.mpr ⟨inside, by rw [block]; decide⟩
      exact (h.inside part (h.holds_of_children inside child)).1
    · rw [bodyStart, h.block?_eq inside block]

/-- The bindings of an owner become visible in their order. -/
theorem sorted_bindings (h : t.Arranged) (inside : a < t.size) :
    (t.bindings a).Pairwise fun b c => b.visibleFrom ≤ c.visibleFrom := by
  cases own : t.ownsScope a with
  | false =>
    rw [bindings_eq_nil inside own]
    exact List.Pairwise.nil
  | true =>
    obtain ⟨β, owns⟩ := h.exists_owned inside own
    have block := owns.1
    rw [h.bindings_eq owns inside, List.pairwise_append]
    refine ⟨t.pairwise_ownBindings a, ?_, ?_⟩
    · rw [List.pairwise_flatMap]
      constructor
      · exact fun s _ => t.pairwise_binds s
      · have order := h.order β
        rw [h.parts_block block] at order
        refine order.imp_of_mem fun {s s'} child child' before b mem c mem' => ?_
        have last := (h.bounds_binds block child mem).2
        have first := (h.bounds_binds block child' mem').1
        have between := before (h.holds_statement block child)
        omega
    · intro b mem c mem'
      obtain ⟨s, child, mem'⟩ := List.mem_flatMap.mp mem'
      have first := h.openAt_le_start owns child mem
      have start := (h.bounds_statement block child).1
      have bounds := (h.bounds_binds block child mem').1
      omega

/-! ## Lookups -/

/-- A lookup goes through what is seen of the nodes above. -/
theorem lookup_eq (h : t.Arranged) {id : NodeId} (above : ∀ a ∈ t.ancestors id, a < t.size)
    (name : String) :
    ((Scopes.ofTree t).lookup t id name).map Binding.declared
      = Environment.lookup? (t.seenFrom (t.start id) (t.ancestors id)) name := by
  have table : (Scopes.ofTree t).bindings = t.allBindings := rfl
  rw [Scopes.lookup, Environment.lookup?, seenFrom, List.find?_flatMap, table]
  generalize t.ancestors id = owners at above
  induction owners with
  | nil => rfl
  | cons a owners ih =>
    have head := Scopes.latest_eq (t.allBindings.getD a #[])
      (h.sorted_bindings (above a List.mem_cons_self)) name (t.start id)
    have ih := ih fun a' mem => above a' (List.mem_cons_of_mem _ mem)
    rw [List.findSome?_cons, List.findSome?_cons, head, seen, List.find?_map, bindings]
    have same : (fun d => d.name == name) ∘ Binding.declared = fun b : Binding => b.name == name :=
      rfl
    rw [same]
    cases (((t.allBindings.getD a #[]).toList.filter fun b =>
        decide (b.visibleFrom ≤ t.start id)).reverse.find? fun b => b.name == name) with
    | some b => rfl
    | none => exact ih

/-! ## What is seen of an owner -/

theorem seen_eq_nil (inside : a < t.size) (notOwner : t.ownsScope a = false) :
    t.seen offset a = [] := by
  rw [seen, bindings_eq_nil inside notOwner]
  rfl

/-- What is seen of an owner of which the statements of `before` are visible, and of the statement
`s` as much as `visible`. -/
theorem seen_eq (h : t.Arranged) (owns : t.Owns a β) (inside : a < t.size)
    (before behind : List NodeId) (visible : List Binding)
    (split : t.children β = before ++ behind)
    (earlier : ∀ s ∈ before, ∀ b ∈ t.binds s, b.visibleFrom ≤ offset)
    (later : (behind.flatMap t.binds).filter (fun b => decide (b.visibleFrom ≤ offset)) = visible) :
    t.seen offset a
      = visible.reverse.map Binding.declared ++ (before.flatMap t.declares).reverse
        ++ t.opened offset a := by
  have all : (before.flatMap t.binds).filter (fun b => decide (b.visibleFrom ≤ offset))
      = before.flatMap t.binds := by
    refine List.filter_eq_self.mpr fun b mem => ?_
    obtain ⟨s, mem, bound⟩ := List.mem_flatMap.mp mem
    exact decide_eq_true (earlier s mem b bound)
  have names : (before.flatMap t.binds).map Binding.declared = before.flatMap t.declares := by
    rw [List.map_flatMap]
    exact List.flatMap_congr fun s _ => t.declared_binds s
  rw [seen, h.bindings_eq owns inside, split, List.flatMap_append, List.filter_append,
    List.filter_append, all, later, List.reverse_append, List.reverse_append, List.map_append,
    List.map_append, List.map_reverse (l := before.flatMap t.binds), names, opened]

/-- At the words of a statement those of the statements in front of it are seen, and its own as far
as they are visible. -/
theorem seen_statement (h : t.Arranged) (owns : t.Owns a β) (inside : a < t.size)
    {before behind : List NodeId} (split : t.children β = before ++ s :: behind)
    (first : t.start s ≤ offset) (last : offset < t.stop s) :
    t.seen offset a
      = ((t.binds s).filter fun b => decide (b.visibleFrom ≤ offset)).reverse.map Binding.declared
        ++ (before.flatMap t.declares).reverse ++ t.opened offset a := by
  have block := owns.1
  have order := h.order β
  rw [h.parts_block block, split, List.pairwise_append] at order
  have member {s' : NodeId} (mem : s' ∈ before ∨ s' = s ∨ s' ∈ behind) : s' ∈ t.children β := by
    rw [split]
    rcases mem with mem | rfl | mem
    · exact List.mem_append_left _ mem
    · exact List.mem_append_right _ List.mem_cons_self
    · exact List.mem_append_right _ (List.mem_cons_of_mem _ mem)
  refine h.seen_eq owns inside before (s :: behind) _ split (fun s' mem b bound => ?_) ?_
  · have stop := order.2.2 s' mem s List.mem_cons_self
      (h.holds_statement block (member (.inl mem)))
    have bounds := (h.bounds_binds block (member (.inl mem)) bound).2
    omega
  · rw [List.flatMap_cons, List.filter_append]
    have none :
        (behind.flatMap t.binds).filter (fun b => decide (b.visibleFrom ≤ offset)) = [] := by
      refine List.filter_eq_nil_iff.mpr fun b mem => ?_
      obtain ⟨s', mem, bound⟩ := List.mem_flatMap.mp mem
      have start := (List.pairwise_cons.mp order.2.1).1 s' mem
        (h.holds_statement block (member (.inr (.inl rfl))))
      have bounds := (h.bounds_binds block (member (.inr (.inr mem))) bound).1
      rw [decide_eq_true_eq]
      omega
    rw [none, List.append_nil]

/-- Up to the start of the block nothing of its statements is seen. -/
theorem seen_before (h : t.Arranged) (owns : t.Owns a β) (inside : a < t.size)
    (before : offset ≤ t.start β) : t.seen offset a = t.opened offset a := by
  have block := owns.1
  have none : ((t.children β).flatMap t.binds).filter (fun b => decide (b.visibleFrom ≤ offset))
      = [] := by
    refine List.filter_eq_nil_iff.mpr fun b mem => ?_
    obtain ⟨s, mem, bound⟩ := List.mem_flatMap.mp mem
    have bounds := h.bounds_binds block mem bound
    have start := h.bounds_statement block mem
    rw [decide_eq_true_eq]
    omega
  exact h.seen_eq owns inside [] (t.children β) [] rfl
    (fun s mem => absurd mem List.not_mem_nil) none

/-- Behind the block all of its statements are seen. -/
theorem seen_behind (h : t.Arranged) (owns : t.Owns a β) (inside : a < t.size)
    (behind : t.stop β ≤ offset) :
    t.seen offset a = ((t.children β).flatMap t.declares).reverse ++ t.opened offset a := by
  have block := owns.1
  refine h.seen_eq owns inside (t.children β) [] [] (List.append_nil _).symm
    (fun s mem b bound => ?_) rfl
  have bounds := h.bounds_binds block mem bound
  have stop := h.bounds_statement block mem
  omega

/-- In the block all that its owner opens is visible. -/
theorem opened_of_block (h : t.Arranged) (owns : t.Owns a β) (child : s ∈ t.children β)
    (behind : t.start β ≤ offset) :
    t.opened offset a = ((t.ownBindings a).map Binding.declared).reverse := by
  rw [opened, List.filter_eq_self.mpr fun b mem => ?_, List.map_reverse]
  exact decide_eq_true (Nat.le_trans (h.openAt_le_start owns child mem) behind)

end Arranged

end Tree

end LuaTyping
