import LuaTyping.Proofs.Scope.Rules
import LuaTyping.Proofs.Scope.Visible

/-!
# Parameters and the unwritten `self`

A name in the body of a function that nothing inside the body binds stands for a parameter, if one
has its name.  All parameters of a function become visible at once, so it is the order of the
bindings that decides between two of one name: the last one counts.  The unwritten `self` of a colon
method comes behind the listed parameters and hides a parameter `self`.  In Lua it comes in front of
them.

* `Tree.BoundInside`: a name is bound inside a block.
* `Tree.Arranged.lookup_eq_find?`: a lookup that nothing inside the body answers is answered by the
  function.
* `Scopes.lookup_parameter`: which of the parameters of one name is found.
* `Tree.ListedSelfWins`: the rule of Lua, and a method that breaks it.
-/

namespace LuaTyping

namespace Tree

/-- A name is visible at a node through a binding that stands inside the block. -/
def BoundInside (t : Tree) (block node : NodeId) (name : String) : Prop :=
  ∃ b, t.Visible node b ∧ b.name = name ∧ block ∈ t.ancestors b.node

/-- The statement that declares a function as a colon method. -/
def methodOf? (t : Tree) (body : NodeId) : Option NodeId :=
  ((t.parent body).bind (t.cast? .funcStat)).filter t.isMethod

/-- The bindings inside a block are found in the table. -/
theorem Walked.boundInside_iff {t : Tree} (h : t.Walked) {block node : NodeId} {name : String} :
    t.BoundInside block node name ↔ ∃ owner ∈ t.ancestors node, ∃ b ∈ t.bindings owner,
      b.visibleFrom ≤ t.start node ∧ b.name = name ∧ block ∈ t.ancestors b.node := by
  constructor
  · rintro ⟨b, ⟨owner, above, owned, visible⟩, named, inside⟩
    have mem := (h.mem_bindings_iff (h.lt_of_mem_ancestors above)).mpr owned
    exact ⟨owner, above, b, mem, visible, named, inside⟩
  · rintro ⟨owner, above, b, mem, visible, named, inside⟩
    have owned := (h.mem_bindings_iff (h.lt_of_mem_ancestors above)).mp mem
    exact ⟨b, ⟨owner, above, owned, visible⟩, named, inside⟩

theorem selfBinding_eq (t : Tree) (body : NodeId) :
    t.selfBinding body
      = (t.methodOf? body).toList.map fun stat => ⟨"self", stat, .self, t.start body⟩ := by
  rw [selfBinding, methodOf?]
  cases (t.parent body).bind (t.cast? .funcStat) with
  | none => rfl
  | some stat => by_cases method : t.isMethod stat = true <;> simp [method, Option.filter]

namespace Arranged

variable {t : Tree} {a c p body β r : NodeId} {b : Binding} {name : String}

/-! ## The way up -/

theorem lt_size_of_mem_ancestors (above : a ∈ t.ancestors c) : c < t.size := by
  refine Nat.lt_of_not_le fun outside => ?_
  have none : t.ancestors c = [] := by
    rw [ancestors]
    cases t.size with
    | zero => rfl
    | succ fuel => rw [ancestorsWithin, parent_of_ge outside]
  rw [none] at above
  exact absurd above List.not_mem_nil

/-- The way up from a node passes each node above it and goes on as from there. -/
theorem ancestors_eq_append (h : t.Arranged) (above : a ∈ t.ancestors c) :
    ∃ inner, t.ancestors c = inner ++ a :: t.ancestors a ∧ ∀ d ∈ inner, a ∈ t.ancestors d := by
  have inside := lt_size_of_mem_ancestors above
  revert above
  refine h.forall_of_root (motive := fun c => a ∈ t.ancestors c → ∃ inner,
    t.ancestors c = inner ++ a :: t.ancestors a ∧ ∀ d ∈ inner, a ∈ t.ancestors d)
    (fun above => ?_) (fun {p c} child ih above => ?_) inside
  · rw [h.root_ancestors] at above
    exact absurd above List.not_mem_nil
  · rw [h.child_ancestors child] at above ⊢
    rcases List.mem_cons.mp above with rfl | above
    · exact ⟨[], rfl, fun d mem => absurd mem List.not_mem_nil⟩
    · obtain ⟨inner, eq, below⟩ := ih above
      refine ⟨p :: inner, by rw [eq, List.cons_append], fun d mem => ?_⟩
      rcases List.mem_cons.mp mem with rfl | mem
      · exact above
      · exact below d mem

theorem mem_ancestors_trans (h : t.Arranged) (above : a ∈ t.ancestors c)
    (higher : p ∈ t.ancestors a) : p ∈ t.ancestors c := by
  obtain ⟨inner, eq, -⟩ := h.ancestors_eq_append above
  rw [eq]
  exact List.mem_append_right _ (List.mem_cons_of_mem _ higher)

theorem mem_ancestors_child (h : t.Arranged) (child : c ∈ t.children p)
    (above : a = p ∨ a ∈ t.ancestors p) : a ∈ t.ancestors c := by
  rw [h.child_ancestors child]
  exact List.mem_cons.mpr above

/-- What stands above words covers them. -/
theorem covers_of_mem_ancestors (h : t.Arranged) (holds : t.Holds c) (above : a ∈ t.ancestors c) :
    t.start a ≤ t.start c ∧ t.stop c ≤ t.stop a := by
  have inside := lt_size_of_mem_ancestors above
  revert holds above
  refine h.forall_of_root (motive := fun c => t.Holds c → a ∈ t.ancestors c →
    t.start a ≤ t.start c ∧ t.stop c ≤ t.stop a)
    (fun _ above => ?_) (fun {p c} child ih holds above => ?_) inside
  · rw [h.root_ancestors] at above
    exact absurd above List.not_mem_nil
  · have within := h.inside (mem_parts.mpr ⟨child, holds.1⟩) holds
    rw [h.child_ancestors child] at above
    rcases List.mem_cons.mp above with rfl | above
    · exact within
    · rcases h.exists_parent (parent_lt_size child) with rfl | ⟨q, -, up⟩
      · rw [h.root_ancestors] at above
        exact absurd above List.not_mem_nil
      · have higher := ih (h.holds_of_children up child) above
        exact ⟨Nat.le_trans higher.1 within.1, Nat.le_trans within.2 higher.2⟩

/-! ## Names inside a block -/

theorem mem_ancestors_childrenOf (h : t.Arranged) {p list n : NodeId} {kind kind' : NodeKind}
    (found : t.child? p kind = some list) (listed : n ∈ t.childrenOf list kind')
    (above : a = p ∨ a ∈ t.ancestors p) : a ∈ t.ancestors n := by
  have inner := (List.mem_filter.mp listed).1
  exact h.mem_ancestors_child inner
    (.inr (h.mem_ancestors_child (List.mem_of_find?_eq_some found) above))

theorem mem_ancestors_listedNames (h : t.Arranged) {stat n : NodeId}
    (listed : n ∈ t.listedNames stat) (above : a = stat ∨ a ∈ t.ancestors stat) :
    a ∈ t.ancestors n := by
  unfold listedNames at listed
  split at listed
  · rename_i list found
    exact h.mem_ancestors_childrenOf found listed above
  · exact absurd listed List.not_mem_nil

theorem mem_ancestors_params (h : t.Arranged) {n : NodeId} (listed : n ∈ t.params body)
    (above : a = body ∨ a ∈ t.ancestors body) : a ∈ t.ancestors n := by
  unfold params at listed
  split at listed
  · rename_i list found
    exact h.mem_ancestors_childrenOf found listed above
  · exact absurd listed List.not_mem_nil

/-- The names in the scope of a node inside a block stand inside the block. -/
theorem mem_ancestors_of_scoped (h : t.Arranged) (block : t.kind β = .block)
    (below : β ∈ t.ancestors a) (owned : t.Scoped a b) : β ∈ t.ancestors b.node := by
  cases owned with
  | @localName stat n _ _ listed around =>
    have above := h.mem_ancestors_trans (List.mem_of_find?_eq_some around) below
    exact h.mem_ancestors_listedNames listed (.inr above)
  | @localFunction stat n _ _ _ around =>
    exact h.mem_ancestors_trans (List.mem_of_find?_eq_some around) below
  | @param _ n _ listed => exact h.mem_ancestors_params listed (.inr below)
  | @method _ stat _ parent isStat _ =>
    have inside : a < t.size := by
      refine Nat.lt_of_not_le fun outside => ?_
      rw [parent_of_ge outside] at parent
      exact absurd parent nofun
    rcases h.exists_parent inside with rfl | ⟨q, -, child⟩
    · rw [h.root_ancestors] at below
      exact absurd below List.not_mem_nil
    · obtain rfl := Option.some.inj ((h.child_parent child).symm.trans parent)
      rw [h.child_ancestors child] at below
      rcases List.mem_cons.mp below with rfl | below
      · rw [block] at isStat
        exact absurd isStat nofun
      · exact below
  | @counter _ n _ own =>
    exact h.mem_ancestors_child (List.mem_of_find?_eq_some own) (.inr below)
  | @loopName _ n _ listed => exact h.mem_ancestors_listedNames listed (.inr below)

/-- The names that the statements of a block bind stand inside the block. -/
theorem mem_ancestors_of_binds (h : t.Arranged) {s : NodeId} (child : s ∈ t.children β)
    (mem : b ∈ t.binds s) : β ∈ t.ancestors b.node := by
  have above : β ∈ t.ancestors s := h.mem_ancestors_child child (.inl rfl)
  unfold binds at mem
  split at mem
  · obtain ⟨n, listed, rfl⟩ := List.mem_map.mp mem
    exact h.mem_ancestors_listedNames listed (.inr above)
  · obtain ⟨n, -, rfl⟩ := List.mem_map.mp mem
    exact above
  · exact absurd mem List.not_mem_nil

/-! ## Lookups in a function -/

theorem owns_funcBody (h : t.Arranged) (isBody : t.kind body = .funcBody)
    (child : β ∈ t.children body) (block : t.kind β = .block) : t.Owns body β := by
  refine ⟨block, .inr ⟨child, ?_, ?_⟩⟩
  · rw [h.ownsScope_block child block, isBody]
    rfl
  · rw [ownsScope, isBody]

/-- A lookup in the body of a function that no binding inside the body answers is answered by the
parameters, if one has the name. -/
theorem lookup_eq_find? (h : t.Arranged) (walked : t.Walked) (sorted : t.Sorted)
    (isBody : t.kind body = .funcBody) (found : t.block? body = some β) (holds : t.Holds r)
    (above : β ∈ t.ancestors r)
    (free : ¬ t.BoundInside β r name)
    (some_ : ((t.ownBindings body).reverse.find? fun b => b.name == name) = some b) :
    (Scopes.ofTree t).lookup t r name = some b := by
  have child : β ∈ t.children body := List.mem_of_find?_eq_some found
  have block : t.kind β = .block := by simpa using List.find?_some found
  have owns := h.owns_funcBody isBody child block
  have inside : body < t.size := parent_lt_size child
  obtain ⟨inner, eq, below⟩ := h.ancestors_eq_append above
  rw [h.child_ancestors child] at eq
  have bodyAbove : body ∈ t.ancestors r := by simp [eq]
  rw [Scopes.lookup, show (Scopes.ofTree t).bindings = t.allBindings from rfl, eq,
    List.findSome?_append, List.findSome?_cons, List.findSome?_cons]
  simp only [sorted.latest_eq]
  -- up to the block every binding of the name would stand inside it
  have quiet : inner.findSome? (fun owner =>
      ((t.bindings owner).filter fun b => decide (b.visibleFrom ≤ t.start r)).reverse.find?
        fun b => b.name == name) = none := by
    refine List.findSome?_eq_none_iff.mpr fun a mem => List.find?_eq_none.mpr fun x hit named => ?_
    have aboveA : a ∈ t.ancestors r := by
      rw [eq]
      exact List.mem_append_left _ mem
    obtain ⟨hit, visible⟩ := List.mem_filter.mp (List.mem_reverse.mp hit)
    have owned := (walked.mem_bindings_iff (walked.lt_of_mem_ancestors aboveA)).mp hit
    exact free ⟨x, ⟨a, aboveA, owned, of_decide_eq_true visible⟩, eq_of_beq named,
      h.mem_ancestors_of_scoped block (below a mem) owned⟩
  -- the block of a function has no scope of its own
  have bare : t.bindings β = [] := by
    refine bindings_eq_nil (h.child_lt_size child) ?_
    rw [h.ownsScope_block child block, isBody]
    rfl
  have statements : (((t.children β).flatMap t.binds).filter fun b =>
      decide (b.visibleFrom ≤ t.start r)).reverse.find? (fun b => b.name == name) = none := by
    refine List.find?_eq_none.mpr fun x hit named => ?_
    obtain ⟨hit, visible⟩ := List.mem_filter.mp (List.mem_reverse.mp hit)
    obtain ⟨s, stat, bound⟩ := List.mem_flatMap.mp hit
    have mem : x ∈ t.bindings body := by
      rw [h.bindings_eq owns inside]
      exact List.mem_append_right _ hit
    exact free ⟨x, ⟨body, bodyAbove, (walked.mem_bindings_iff inside).mp mem,
      of_decide_eq_true visible⟩, eq_of_beq named, h.mem_ancestors_of_binds stat bound⟩
  have opened : (t.ownBindings body).filter (fun b => decide (b.visibleFrom ≤ t.start r))
      = t.ownBindings body := by
    refine List.filter_eq_self.mpr fun x mem => decide_eq_true ?_
    rw [t.visibleFrom_ownBindings mem, openAt, if_pos isBody]
    exact (h.covers_of_mem_ancestors holds bodyAbove).1
  rw [quiet, bare, h.bindings_eq owns inside, List.filter_append, List.reverse_append,
    List.find?_append, statements, opened, some_]
  rfl

end Arranged

end Tree

/-- Which parameter a name stands for in the body of a function, in every text without faults where
every place has an offset of its own, if no binding inside the body captures it: in a colon method
`self` is the unwritten one, also where `self` is listed; every other name is the last parameter
that has it. -/
theorem Scopes.lookup_parameter (text : String) (small : text.utf8ByteSize < offsetCount)
    (clean : (Parsed.ofText text).errors = [])
    (body β r p : NodeId) (before behind : List NodeId) (name : String)
    (isBody : (Parsed.ofText text).tree.kind body = .funcBody)
    (block : (Parsed.ofText text).tree.block? body = some β)
    (params : (Parsed.ofText text).tree.params body = before ++ p :: behind)
    (named : (Parsed.ofText text).tree.textOf p = name)
    (last : ∀ q ∈ behind, (Parsed.ofText text).tree.textOf q ≠ name)
    (isName : (Parsed.ofText text).tree.kind r = .nameExpr)
    (above : β ∈ (Parsed.ofText text).tree.ancestors r)
    (free : ¬ (Parsed.ofText text).tree.BoundInside β r name) :
    let t := (Parsed.ofText text).tree
    (∀ stat, t.methodOf? body = some stat → name = "self" →
      (Scopes.ofTree t).lookup t r name = some ⟨"self", stat, .self, t.start body⟩)
    ∧ (t.methodOf? body = none ∨ name ≠ "self" →
      (Scopes.ofTree t).lookup t r name = some ⟨name, p, .param, t.start body⟩) := by
  have h := Parsed.arranged small clean
  have walked := Parsed.walked text
  have sorted := Parsed.sorted_tree small
  generalize (Parsed.ofText text).tree = t
    at h walked sorted isBody block params named last isName above free
  dsimp only
  have notRoot : r ≠ t.root := by
    rintro rfl
    rw [h.root_kind] at isName
    exact absurd isName nofun
  obtain ⟨q, -, child⟩ :=
    (h.exists_parent (Tree.lt_size_of_kind isName nofun)).resolve_left notRoot
  have holds := h.holds_of_child child (by rw [isName]; decide) (by rw [isName]; decide)
  have own : t.ownBindings body
      = (t.params body).map (fun p => t.bindingOf p p .param (t.start body))
        ++ (t.methodOf? body).toList.map fun stat => ⟨"self", stat, .self, t.start body⟩ := by
    rw [Tree.ownBindings, isBody, ← t.selfBinding_eq]
  -- the last parameter of the name, as far as the unwritten one has another
  have listed : (((t.params body).map fun p => t.bindingOf p p .param (t.start body)).reverse.find?
      fun b => b.name == name) = some ⟨name, p, .param, t.start body⟩ := by
    have later : (behind.map fun p => t.bindingOf p p .param (t.start body)).reverse.find?
        (fun b => b.name == name) = none := by
      refine List.find?_eq_none.mpr fun x mem hit => ?_
      obtain ⟨q, later, rfl⟩ := List.mem_map.mp (List.mem_reverse.mp mem)
      exact last q later (eq_of_beq hit)
    rw [params, List.map_append, List.map_cons, List.reverse_append, List.reverse_cons,
      List.find?_append, List.find?_append, later, ← named]
    simp [Tree.bindingOf]
  constructor
  · intro stat method isSelf
    refine h.lookup_eq_find? walked sorted isBody block holds above free ?_
    rw [own, method, isSelf]
    simp
  · intro other
    refine h.lookup_eq_find? walked sorted isBody block holds above free ?_
    rw [own, List.reverse_append, List.find?_append, listed]
    rcases other with none | other
    · rw [none]
      rfl
    · have unwritten : ((t.methodOf? body).toList.map fun stat =>
          (⟨"self", stat, .self, t.start body⟩ : Binding)).reverse.find? (fun b => b.name == name)
          = none := by
        refine List.find?_eq_none.mpr fun x mem hit => ?_
        obtain ⟨stat, -, rfl⟩ := List.mem_map.mp (List.mem_reverse.mp mem)
        exact other (eq_of_beq hit).symm
      rw [unwritten, Option.none_or]

/-- In a closure inside a method that lists `self` twice. -/
theorem Scopes.lookup_parameter_closure :
    let t := (Parsed.ofText "function M:m(self, self) return function() return self end end").tree
    (∀ stat, t.methodOf? 18 = some stat → "self" = "self" →
      (Scopes.ofTree t).lookup t 7 "self" = some ⟨"self", stat, .self, t.start 18⟩)
    ∧ (t.methodOf? 18 = none ∨ "self" ≠ "self" →
      (Scopes.ofTree t).lookup t 7 "self" = some ⟨"self", 4, .param, t.start 18⟩) :=
  Scopes.lookup_parameter "function M:m(self, self) return function() return self end end"
    (by decide +kernel) (by decide +kernel) 18 17 7 4 [3] [] "self" (by decide +kernel)
    (by decide +kernel)
    (by decide +kernel) (by decide +kernel) (fun _ mem => absurd mem List.not_mem_nil)
    (by decide +kernel) (by decide +kernel)
    (by
      rw [(Parsed.walked _).boundInside_iff]
      decide +kernel)

/-! ## The rule of Lua -/

/-- In a colon method with a parameter `self` in its list, the last one of them is what `self`
stands for where no binding inside the body captures it. -/
def Tree.ListedSelfWins (t : Tree) : Prop :=
  ∀ (body stat β r p : NodeId) (before behind : List NodeId), t.kind body = .funcBody →
    t.methodOf? body = some stat → t.block? body = some β → t.params body = before ++ p :: behind →
    t.textOf p = "self" → (∀ q ∈ behind, t.textOf q ≠ "self") → t.kind r = .nameExpr →
    t.textOf r = "self" → β ∈ t.ancestors r → ¬ t.BoundInside β r "self" →
    ∃ b, (Scopes.ofTree t).lookup t r "self" = some b ∧ b.node = p

/-- The unwritten `self` wins against one in the list. -/
theorem Parsed.not_listedSelfWins :
    ¬ ∀ text, (Parsed.ofText text).errors = [] → (Parsed.ofText text).tree.ListedSelfWins := by
  intro wins
  have free :
      ¬ (Parsed.ofText "function M:m(self) return self end").tree.BoundInside 9 5 "self" := by
    rw [(Parsed.walked _).boundInside_iff]
    decide +kernel
  obtain ⟨b, found, node⟩ := wins "function M:m(self) return self end" (by decide +kernel)
    10 11 9 5 3 [] [] (by decide +kernel) (by decide +kernel) (by decide +kernel)
    (by decide +kernel) (by decide +kernel) (fun _ mem => absurd mem List.not_mem_nil)
    (by decide +kernel) (by decide +kernel) (by decide +kernel) free
  have self : ((Scopes.ofTree (Parsed.ofText "function M:m(self) return self end").tree).lookup
      (Parsed.ofText "function M:m(self) return self end").tree 5 "self").map Binding.node
      = some 11 := by
    decide +kernel
  rw [found, Option.map_some, node] at self
  exact absurd self (by decide)

end LuaTyping
