import LuaTyping.Proofs.Syntax.Respaced
import LuaTyping.Proofs.Scope.Sorted
import LuaTyping.Proofs.Infer.Near

/-!
# Scopes do not depend on spaces

In respaced layouts a name has the same binding.  The offsets that are compared are of two kinds.
From where a binding is visible is compared with the start of a name, which is a token: there the
order of the marks decides.  And it is compared with where another binding of the same owner is
visible: there the bindings are sorted in both layouts.

* `Binding.Respaced`, `GlobalDef.Respaced`: the same, at the same mark of two layouts.
* `Tree.Twins.lookup_eq`: a name has the same binding.
* `Tree.Twins.globalsOf`, `Tree.Alike.members_eq`: the same definitions.
-/

namespace LuaTyping

/-- The bindings declare the same, from the same mark on. -/
structure Binding.Respaced (l l' : Layout) (b b' : Binding) : Prop where
  declared_eq : b.declared = b'.declared
  mark : ∃ m, b.visibleFrom = l.offset m ∧ b'.visibleFrom = l'.offset m

/-- The definitions define the same and stop at the same mark. -/
structure GlobalDef.Respaced (l l' : Layout) (d d' : GlobalDef) : Prop where
  name_eq : d.name = d'.name
  node_eq : d.node = d'.node
  kind_eq : d.kind = d'.kind
  mark : ∃ m, d.stop = l.offset m ∧ d'.stop = l'.offset m

/-! ## Rows that correspond -/

section Rows

open List (Forall₂)

variable {α β γ : Type} {R : α → β → Prop}

theorem forall₂_map_same {xs : List γ} {f : γ → α} {g : γ → β} (h : ∀ x ∈ xs, R (f x) (g x)) :
    Forall₂ R (xs.map f) (xs.map g) := by
  rw [List.forall₂_map_left_iff, List.forall₂_map_right_iff]
  exact List.forall₂_same.mpr h

theorem forall₂_flatMap_same {xs : List γ} {f : γ → List α} {g : γ → List β}
    (h : ∀ x ∈ xs, Forall₂ R (f x) (g x)) : Forall₂ R (xs.flatMap f) (xs.flatMap g) := by
  induction xs with
  | nil => exact .nil
  | cons x xs ih =>
    rw [List.flatMap_cons, List.flatMap_cons]
    exact List.rel_append (h x List.mem_cons_self)
      (ih fun y mem => h y (List.mem_cons_of_mem _ mem))

theorem forall₂_filter {xs : List α} {ys : List β} {p : α → Bool} {q : β → Bool}
    (same : Forall₂ R xs ys) (h : ∀ x y, R x y → p x = q y) :
    Forall₂ R (xs.filter p) (ys.filter q) :=
  List.rel_filter (fun x y related => by simp only [h x y related]) same

/-- The first entries that fit correspond. -/
theorem map_find?_eq {xs : List α} {ys : List β} {p : α → Bool} {q : β → Bool} {f : α → γ}
    {g : β → γ} (same : Forall₂ R xs ys) (h : ∀ x y, R x y → p x = q y)
    (hf : ∀ x y, R x y → f x = g y) : (xs.find? p).map f = (ys.find? q).map g := by
  induction same with
  | nil => rfl
  | @cons x y xs ys related _ ih =>
    by_cases fits : p x = true
    · rw [List.find?_cons_of_pos fits, List.find?_cons_of_pos (h x y related ▸ fits),
        Option.map_some, Option.map_some, hf x y related]
    · rw [List.find?_cons_of_neg fits, List.find?_cons_of_neg (h x y related ▸ fits), ih]

theorem map_head?_eq {xs : List α} {ys : List β} {f : α → γ} {g : β → γ} (same : Forall₂ R xs ys)
    (hf : ∀ x y, R x y → f x = g y) : xs.head?.map f = ys.head?.map g := by
  cases same with
  | nil => rfl
  | cons related _ => exact congrArg some (hf _ _ related)

theorem map_getLast?_eq {xs : List α} {ys : List β} {f : α → γ} {g : β → γ}
    (same : Forall₂ R xs ys) (hf : ∀ x y, R x y → f x = g y) :
    xs.getLast?.map f = ys.getLast?.map g := by
  rw [← List.head?_reverse, ← List.head?_reverse]
  exact map_head?_eq (List.rel_reverse same) hf

end Rows

namespace Tree

/-! ## What only looks at nodes -/

namespace Alike

variable {t t' : Tree}

theorem ownsScope_eq (h : t.Alike t') : t.ownsScope = t'.ownsScope := by
  funext id
  rw [ownsScope, ownsScope, h.kind_eq, h.parent_eq]

theorem scopeOwner?_eq (h : t.Alike t') : t.scopeOwner? = t'.scopeOwner? := by
  funext id
  rw [scopeOwner?, scopeOwner?, h.ancestors_eq, h.ownsScope_eq]

theorem nameBase?_eq (h : t.Alike t') : t.nameBase? = t'.nameBase? := by
  funext name
  rw [nameBase?, nameBase?, h.child?_eq]

theorem membersAt_eq (h : t.Alike t') : t.membersAt = t'.membersAt := by
  have assigned : t.assignedMember? = t'.assignedMember? := by
    funext stat target index
    rw [assignedMember?, assignedMember?, owner?, owner?, h.isMember_eq, h.exprAt?_eq, h.cast?_eq,
      h.keyName?_eq, h.valueAt?_eq]
  funext id
  rw [membersAt, membersAt, assigned, h.kind_eq, h.targets_eq, funcName?, funcName?, body?, body?,
    h.child?_eq, h.nameBase?_eq, h.nameFields_eq, h.nameMethod?_eq]

theorem members_eq (h : t.Alike t') :
    (Scopes.ofTree t).members = (Scopes.ofTree t').members := by
  rw [Scopes.ofTree, Scopes.ofTree, h.walk_eq, h.membersAt_eq]

theorem parentFuncStat_eq (h : t.Alike t') (body : NodeId) :
    (t.parent body).bind (t.cast? .funcStat) = (t'.parent body).bind (t'.cast? .funcStat) := by
  rw [h.parent_eq, h.cast?_eq]

end Alike

/-! ## Bindings -/

namespace Respaced

variable {l l' : Layout} {t t' : Tree} {id : NodeId}

/-- A known node has its span at the same marks. -/
theorem span_marks (h : Tree.Respaced l l' t t') {kind : NodeKind} (is : t.kind id = kind)
    (known : kind ≠ .chunk ∧ kind ≠ .error) : ∃ first last,
      t.span id = ⟨l.offset first, l.offset last⟩ ∧
        t'.span id = ⟨l'.offset first, l'.offset last⟩ := by
  rcases (h.node id).place with chunk | error | ⟨first, last, span, span', -⟩
  · exact absurd (is.symm.trans chunk) known.1
  · exact absurd (is.symm.trans error) known.2
  · exact ⟨first, last, span, span'⟩

theorem start_mark (h : Tree.Respaced l l' t t') {kind : NodeKind} (is : t.kind id = kind)
    (known : kind ≠ .chunk ∧ kind ≠ .error) :
    ∃ m, t.start id = l.offset m ∧ t'.start id = l'.offset m := by
  obtain ⟨first, last, span, span'⟩ := h.span_marks is known
  exact ⟨first, by rw [start, span], by rw [start, span']⟩

theorem stop_mark (h : Tree.Respaced l l' t t') {kind : NodeKind} (is : t.kind id = kind)
    (known : kind ≠ .chunk ∧ kind ≠ .error) :
    ∃ m, t.stop id = l.offset m ∧ t'.stop id = l'.offset m := by
  obtain ⟨first, last, span, span'⟩ := h.span_marks is known
  exact ⟨last, by rw [stop, span], by rw [stop, span']⟩

theorem bodyStart_mark (h : Tree.Respaced l l' t t') {kind : NodeKind}
    (is : t.kind id = kind) (known : kind ≠ .chunk ∧ kind ≠ .error) :
    ∃ m, t.bodyStart id = l.offset m ∧ t'.bodyStart id = l'.offset m := by
  rw [bodyStart, bodyStart, block?, block?, ← h.alike.child?_eq]
  cases found : t.child? id .block with
  | none => exact h.stop_mark is known
  | some β => exact h.start_mark (kind_of_child? found) (by decide)

theorem binding (h : Tree.Respaced l l' t t') {name : NodeId}
    {word : NodeKind} (is : t.kind name = word) (isWord : word.isWord = true) (node : NodeId)
    (kind : BindingKind) {from_ from' : Nat}
    (mark : ∃ m, from_ = l.offset m ∧ from' = l'.offset m) :
    Binding.Respaced l l' (t.bindingOf name node kind from_)
      (t'.bindingOf name node kind from') := by
  refine ⟨?_, mark⟩
  rw [bindingOf, bindingOf, h.alike.text_word is isWord]
  rfl

theorem binds (h : Tree.Respaced l l' t t') (s : NodeId) :
    List.Forall₂ (Binding.Respaced l l') (t.binds s) (t'.binds s) := by
  have a := h.alike
  unfold Tree.binds
  rw [← a.kind_eq, ← a.listedNames_eq, ownName?, ownName?, ← a.child?_eq]
  split
  · rename_i kind
    exact forall₂_map_same fun n mem => h.binding (kind_of_listedNames mem) rfl _ _
      (h.stop_mark kind (by decide))
  · refine forall₂_map_same fun n mem => ?_
    have is := kind_of_child? (Option.mem_toList.mp mem)
    exact h.binding is rfl _ _ (h.start_mark is (by decide))
  · exact .nil

theorem ownBindings (h : Tree.Respaced l l' t t') (id : NodeId) :
    List.Forall₂ (Binding.Respaced l l') (t.ownBindings id) (t'.ownBindings id) := by
  have a := h.alike
  unfold Tree.ownBindings Tree.selfBinding
  rw [← a.kind_eq, ← a.params_eq, ← a.parentFuncStat_eq, ← a.isMethod_eq, ← a.listedNames_eq,
    ownName?, ownName?, ← a.child?_eq]
  split
  · rename_i kind
    have mark := h.start_mark kind (by decide)
    refine List.rel_append (forall₂_map_same fun n mem =>
      h.binding (kind_of_params mem) rfl _ _ mark) ?_
    split
    · split
      · exact .cons ⟨rfl, mark⟩ .nil
      · exact .nil
    · exact .nil
  · rename_i kind
    refine forall₂_map_same fun n mem => ?_
    exact h.binding (kind_of_child? (Option.mem_toList.mp mem)) rfl _ _
      (h.bodyStart_mark kind (by decide))
  · rename_i kind
    exact forall₂_map_same fun n mem => h.binding (kind_of_listedNames mem) rfl _ _
      (h.bodyStart_mark kind (by decide))
  · exact .nil

/-- An owner has the same bindings in the same order. -/
theorem bindings (h : Tree.Respaced l l' t t') (owner : NodeId) :
    List.Forall₂ (Binding.Respaced l l') (t.bindings owner) (t'.bindings owner) := by
  have a := h.alike
  rcases Nat.lt_or_ge owner t.size with inside | outside
  swap
  · rw [bindings_of_ge outside, bindings_of_ge (a.size_eq ▸ outside)]
    exact .nil
  rw [t.bindings_eq_flatMap inside, t'.bindings_eq_flatMap (a.size_eq ▸ inside), ← a.walk_eq]
  refine forall₂_flatMap_same fun s _ => ?_
  rw [contributes_eq, contributes_eq, ← a.scopeOwner?_eq]
  refine List.rel_append ?_ ?_
  · split
    · exact h.binds s
    · exact .nil
  · split
    · exact h.ownBindings s
    · exact .nil

/-! ## Names -/

/-- The latest binding of a name in front of a token is the same, if the bindings are sorted. -/
theorem latest_eq (layouts : l.Respaced l') {bs bs' : Array Binding}
    (same : List.Forall₂ (Binding.Respaced l l') bs.toList bs'.toList)
    (sorted : bs.toList.Pairwise fun b c => b.visibleFrom ≤ c.visibleFrom)
    (sorted' : bs'.toList.Pairwise fun b c => b.visibleFrom ≤ c.visibleFrom) (name : String)
    {i : Nat} (inside : i < l.lexemes.size) :
    (Scopes.latest bs name (l.tokenStart i)).map Binding.declared
      = (Scopes.latest bs' name (l'.tokenStart i)).map Binding.declared := by
  rw [Scopes.latest_eq bs sorted, Scopes.latest_eq bs' sorted']
  have visible := forall₂_filter (p := fun b => decide (b.visibleFrom ≤ l.tokenStart i))
    (q := fun b => decide (b.visibleFrom ≤ l'.tokenStart i)) same fun b b' related => by
      obtain ⟨m, mark, mark'⟩ := related.mark
      simp only [mark, mark', Layout.offset_le_tokenStart_iff layouts.faithful inside,
        Layout.offset_le_tokenStart_iff layouts.faithful' (layouts.size_eq ▸ inside)]
  refine map_find?_eq (List.rel_reverse visible) (fun b b' related => ?_) fun b b' related =>
    related.declared_eq
  have names : b.name = b'.name := congrArg Declared.name related.declared_eq
  rw [names]

/-- The definition that a global name takes in its own file is the same. -/
theorem nearestGlobal_eq (layouts : l.Respaced l') {defs defs' : List GlobalDef} {γ : Type}
    {f g : GlobalDef → γ} (same : List.Forall₂ (GlobalDef.Respaced l l') defs defs')
    (hf : ∀ d d', GlobalDef.Respaced l l' d d' → f d = g d') {i : Nat}
    (inside : i < l.lexemes.size) :
    (Project.nearestGlobal defs (l.tokenStart i)).map f
      = (Project.nearestGlobal defs' (l'.tokenStart i)).map g := by
  have before := forall₂_filter (p := fun d => decide (d.stop ≤ l.tokenStart i))
    (q := fun d => decide (d.stop ≤ l'.tokenStart i)) same fun d d' related => by
      obtain ⟨m, mark, mark'⟩ := related.mark
      simp only [mark, mark', Layout.offset_le_tokenStart_iff layouts.faithful inside,
        Layout.offset_le_tokenStart_iff layouts.faithful' (layouts.size_eq ▸ inside)]
  rw [Project.nearestGlobal, Project.nearestGlobal, Option.map_or, Option.map_or,
    map_getLast?_eq before hf, map_head?_eq same hf]

end Respaced

/-- Respaced trees with sorted bindings. -/
structure Twins (l l' : Layout) (t t' : Tree) : Prop extends Tree.Respaced l l' t t' where
  sorted : t.Sorted
  sorted' : t'.Sorted

namespace Twins

variable {l l' : Layout} {t t' : Tree} {id : NodeId} {s s' : Scopes}

/-- A name has the same binding. -/
theorem lookup_eq (h : Tree.Twins l l' t t') (is : t.kind id = .nameExpr)
    (hs : s.bindings = t.allBindings) (hs' : s'.bindings = t'.allBindings) (name : String) :
    (s.lookup t id name).map Binding.declared = (s'.lookup t' id name).map Binding.declared := by
  obtain ⟨i, token, span, span'⟩ := h.word (by rw [is]; rfl)
  rw [Scopes.lookup, Scopes.lookup, ← h.alike.ancestors_eq, List.map_findSome?,
    List.map_findSome?, hs, hs', start, span, start, span']
  exact findSome?_congr fun a _ =>
    Respaced.latest_eq h.layouts (h.bindings a) (h.sorted a) (h.sorted' a) name token

theorem isUnbound_eq (h : Tree.Twins l l' t t') (is : t.kind id = .nameExpr)
    (hs : s.bindings = t.allBindings) (hs' : s'.bindings = t'.allBindings) :
    t.isUnbound s id = t'.isUnbound s' id := by
  have same := congrArg Option.isNone (h.lookup_eq is hs hs' (t.textOf id))
  rw [Option.isNone_map, Option.isNone_map] at same
  rw [isUnbound, isUnbound, same, h.alike.text_word is rfl]

/-! ## Definitions -/

/-- What a name defines is the same. -/
theorem globalDef (h : Tree.Twins l l' t t') {name : NodeId} (is : t.kind name = .nameExpr)
    (node : NodeId) (kind : GlobalKind) {stop stop' : Nat}
    (mark : ∃ m, stop = l.offset m ∧ stop' = l'.offset m) :
    GlobalDef.Respaced l l' ⟨t.textOf name, node, kind, stop⟩ ⟨t'.textOf name, node, kind, stop'⟩ :=
  ⟨h.alike.text_word is rfl, rfl, rfl, mark⟩

theorem globalsAt (h : Tree.Twins l l' t t') (hs : s.bindings = t.allBindings)
    (hs' : s'.bindings = t'.allBindings) (stat : NodeId) :
    List.Forall₂ (GlobalDef.Respaced l l') (t.globalsAt s stat) (t'.globalsAt s' stat) := by
  have a := h.alike
  unfold Tree.globalsAt
  rw [← a.kind_eq, ← a.targets_eq, funcName?, funcName?, body?, body?, ← a.child?_eq]
  split
  · rename_i kind
    refine List.rel_filterMap (R := Eq) (fun target target' same => ?_)
      (List.forall₂_same.mpr fun _ _ => rfl)
    subst same
    by_cases is : t.kind target = .nameExpr
    · rw [← h.isUnbound_eq is hs hs']
      split
      · exact .some (h.globalDef is _ _ (h.stop_mark kind (by decide)))
      · exact .none
    · rw [if_neg fun both => is both.1, if_neg fun both => is both.1]
      exact .none
  · rename_i kind
    split
    · rename_i name body _ _
      rw [← a.nameBase?_eq, ← a.nameFields_eq, ← a.nameMethod?_eq]
      split
      · rename_i base found _ _
        have is := kind_of_child? found
        rw [← h.isUnbound_eq is hs hs']
        split
        · exact .cons (h.globalDef is _ _ (h.stop_mark kind (by decide))) .nil
        · exact .nil
      · exact .nil
    · exact .nil
  · exact .nil

/-- The definitions of a global variable are the same in the same order. -/
theorem globalsOf (h : Tree.Twins l l' t t') (name : String) :
    List.Forall₂ (GlobalDef.Respaced l l') ((Scopes.ofTree t).globalsOf name)
      ((Scopes.ofTree t').globalsOf name) := by
  refine forall₂_filter ?_ fun d d' related => by rw [related.name_eq]
  rw [Scopes.ofTree, Scopes.ofTree]
  dsimp only
  rw [← h.alike.walk_eq]
  exact forall₂_flatMap_same fun stat _ => h.globalsAt rfl rfl stat

end Twins

end Tree

end LuaTyping
