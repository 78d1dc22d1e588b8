import LuaTyping.Proofs.Syntax.WellFormed
import LuaTyping.Proofs.Scope.Sorted

/-!
# The rules of scoping

The scopes of a file are a table of bindings and a list of definitions of global variables, both
filled in walks over the tree, the list with lookups in the table.  Here is said without table and
list what is in them: which nodes bind which names where, and which statements define which global
variables.  Faulty texts have scopes too, so nothing is asked of the text; visibility is what the
offsets of the nodes say.

* `Tree.Walked`, `Parsed.walked`: what is asked of a tree.
* `Tree.Scoped`, `Tree.Visible`, `Tree.Bound`: the local names, and where they are visible.
* `Tree.Walked.visible_of_lookup`, `Tree.Walked.lookup_eq_none_iff`: a lookup finds a visible
  binding whenever there is one.
* `Tree.Defines`, `Tree.Precedes`: the definitions of global variables, and their order.
* `Tree.Walked.mem_definitions_iff`, `Tree.Walked.pairwise_definitions`: these definitions are
  listed, in this order.
* `Tree.nameMember?_of_mem_membersAt`: which member a `function` statement defines.
-/

namespace LuaTyping

namespace Tree

/-! ## Trees that are walked -/

/-- A walk meets all nodes, no child is listed twice, and parents are nodes. -/
structure Walked (t : Tree) : Prop where
  mem_walk : ∀ {id}, id ∈ t.walk ↔ id < t.size
  walk_nodup : t.walk.Nodup
  children_nodup : ∀ p, (t.children p).Nodup
  parent_lt : ∀ {id p}, t.parent id = some p → p < t.size

theorem walked_empty (text : String) : (⟨text, #[]⟩ : Tree).Walked where
  mem_walk := iff_of_false List.not_mem_nil (Nat.not_lt_zero _)
  walk_nodup := List.nodup_nil
  children_nodup p := by
    rw [children_of_ge (Nat.zero_le p)]
    exact List.nodup_nil
  parent_lt parent := by
    rw [parent_of_ge (Nat.zero_le _)] at parent
    exact absurd parent nofun

theorem WellFormed.walked {t : Tree} (h : t.WellFormed) : t.Walked where
  mem_walk := h.walk_perm.mem_iff.trans List.mem_range
  walk_nodup := h.walk_perm.nodup_iff.mpr List.nodup_range
  children_nodup p := by
    refine List.nodup_iff_count_le_one.mpr fun c => ?_
    rw [h.count_children]
    split
    · exact Nat.le_refl 1
    · exact Nat.zero_le 1
  parent_lt {id p} parent := by
    refine Nat.lt_of_not_le fun outside => ?_
    have count := h.count_children p id
    rw [children_of_ge outside, if_pos parent] at count
    exact absurd count nofun

end Tree

theorem Parsed.walked (text : String) : (Parsed.ofText text).tree.Walked :=
  (Parsed.realizes maxNesting text).wellFormed.walked

namespace Tree

variable {t : Tree} {id stat node owner a : NodeId} {b : Binding} {name : String}

theorem Walked.lt_of_mem_ancestorsWithin (h : t.Walked) {fuel : Nat}
    (above : a ∈ t.ancestorsWithin fuel id) : a < t.size := by
  induction fuel generalizing id with
  | zero => exact absurd above List.not_mem_nil
  | succ fuel ih =>
    rw [ancestorsWithin] at above
    cases parent : t.parent id with
    | none =>
      rw [parent] at above
      exact absurd above List.not_mem_nil
    | some p =>
      rw [parent] at above
      rcases List.mem_cons.mp above with rfl | further
      · exact h.parent_lt parent
      · exact ih further

theorem Walked.lt_of_mem_ancestors (h : t.Walked) (above : a ∈ t.ancestors id) : a < t.size :=
  h.lt_of_mem_ancestorsWithin above

/-! ## Local names -/

/-- A local name belongs to the scope of a node.  Names of statements belong to the innermost
scope around the statement: those of `local` from behind the statement on, that of a local function
from itself on.  Parameters, the unwritten `self` of a colon method, and the variables of a loop
belong to the function and to the loop. -/
inductive Scoped (t : Tree) : NodeId → Binding → Prop
  | localName {stat n owner : NodeId} : t.kind stat = .localStat → n ∈ t.listedNames stat →
      t.scopeOwner? stat = some owner → Scoped t owner ⟨t.textOf n, n, .variable, t.stop stat⟩
  | localFunction {stat n owner : NodeId} : t.kind stat = .localFuncStat →
      t.ownName? stat = some n →
      t.scopeOwner? stat = some owner → Scoped t owner ⟨t.textOf n, stat, .function, t.start n⟩
  | param {body n : NodeId} : t.kind body = .funcBody → n ∈ t.params body →
      Scoped t body ⟨t.textOf n, n, .param, t.start body⟩
  | method {body stat : NodeId} : t.kind body = .funcBody → t.parent body = some stat →
      t.kind stat = .funcStat → t.isMethod stat = true →
      Scoped t body ⟨"self", stat, .self, t.start body⟩
  | counter {loop n : NodeId} : t.kind loop = .numericForStat → t.ownName? loop = some n →
      Scoped t loop ⟨t.textOf n, n, .variable, t.bodyStart loop⟩
  | loopName {loop n : NodeId} : t.kind loop = .genericForStat → n ∈ t.listedNames loop →
      Scoped t loop ⟨t.textOf n, n, .variable, t.bodyStart loop⟩

/-- A binding is visible at a node that stands in its scope, from its offset on.  Offsets are
compared as spans keep them; in a text with less than `offsetCount` bytes these are its places. -/
def Visible (t : Tree) (node : NodeId) (b : Binding) : Prop :=
  ∃ owner ∈ t.ancestors node, t.Scoped owner b ∧ b.visibleFrom ≤ t.start node

/-- There is a visible local name at a node. -/
def Bound (t : Tree) (node : NodeId) (name : String) : Prop :=
  ∃ b, t.Visible node b ∧ b.name = name

/-- What a statement binds belongs to the scope around it. -/
theorem scoped_of_mem_binds (mem : b ∈ t.binds stat) (around : t.scopeOwner? stat = some owner) :
    t.Scoped owner b := by
  unfold binds at mem
  split at mem
  · rename_i isLocal
    obtain ⟨n, listed, rfl⟩ := List.mem_map.mp mem
    exact .localName isLocal listed around
  · rename_i isFunction
    obtain ⟨n, own, rfl⟩ := List.mem_map.mp mem
    exact .localFunction isFunction (Option.mem_toList.mp own) around
  · exact absurd mem List.not_mem_nil

/-- What a function or a loop binds belongs to its own scope. -/
theorem scoped_of_mem_ownBindings (mem : b ∈ t.ownBindings owner) : t.Scoped owner b := by
  unfold ownBindings at mem
  split at mem
  · rename_i isBody
    rcases List.mem_append.mp mem with mem | mem
    · obtain ⟨n, listed, rfl⟩ := List.mem_map.mp mem
      exact .param isBody listed
    · unfold selfBinding at mem
      split at mem
      · rename_i stat found
        obtain ⟨p, parent, isStat⟩ := Option.bind_eq_some_iff.mp found
        obtain ⟨isStat, same⟩ := Option.ite_none_right_eq_some.mp isStat
        cases same
        split at mem
        · rename_i method
          rw [List.mem_singleton.mp mem]
          exact .method isBody parent isStat method
        · exact absurd mem List.not_mem_nil
      · exact absurd mem List.not_mem_nil
  · rename_i isLoop
    obtain ⟨n, own, rfl⟩ := List.mem_map.mp mem
    exact .counter isLoop (Option.mem_toList.mp own)
  · rename_i isLoop
    obtain ⟨n, listed, rfl⟩ := List.mem_map.mp mem
    exact .loopName isLoop listed
  · exact absurd mem List.not_mem_nil

/-- Every name in a scope is bound there by a node. -/
theorem Scoped.exists_node (h : t.Scoped owner b) : ∃ id < t.size,
    (t.scopeOwner? id = some owner ∧ b ∈ t.binds id) ∨ (id = owner ∧ b ∈ t.ownBindings id) := by
  cases h with
  | @localName stat n _ isLocal listed around =>
    refine ⟨stat, lt_size_of_kind isLocal nofun, .inl ⟨around, ?_⟩⟩
    rw [binds, isLocal]
    exact List.mem_map_of_mem listed
  | @localFunction stat n _ isFunction own around =>
    refine ⟨stat, lt_size_of_kind isFunction nofun, .inl ⟨around, ?_⟩⟩
    simp only [binds, isFunction, own, Option.toList_some, List.map_cons, List.map_nil]
    exact List.mem_singleton_self _
  | @param body n isBody listed =>
    refine ⟨owner, lt_size_of_kind isBody nofun, .inr ⟨rfl, ?_⟩⟩
    simp only [ownBindings, isBody]
    exact List.mem_append_left _ (List.mem_map_of_mem listed)
  | @method body stat isBody parent isStat method =>
    refine ⟨owner, lt_size_of_kind isBody nofun, .inr ⟨rfl, ?_⟩⟩
    simp only [ownBindings, isBody, selfBinding, parent, Option.bind_some, cast?, isStat, method,
      if_true]
    exact List.mem_append_right _ (List.mem_singleton_self _)
  | @counter loop n isLoop own =>
    refine ⟨owner, lt_size_of_kind isLoop nofun, .inr ⟨rfl, ?_⟩⟩
    simp only [ownBindings, isLoop, own, Option.toList_some, List.map_cons, List.map_nil]
    exact List.mem_singleton_self _
  | @loopName loop n isLoop listed =>
    refine ⟨owner, lt_size_of_kind isLoop nofun, .inr ⟨rfl, ?_⟩⟩
    simp only [ownBindings, isLoop]
    exact List.mem_map_of_mem listed

/-- The bindings of a node in the table are the names that belong to its scope. -/
theorem Walked.mem_bindings_iff (h : t.Walked) (inside : owner < t.size) :
    b ∈ t.bindings owner ↔ t.Scoped owner b := by
  rw [bindings_eq_flatMap t inside, List.mem_flatMap]
  constructor
  · rintro ⟨id, -, mem⟩
    rw [contributes_eq, List.mem_append] at mem
    rcases mem with mem | mem
    · split at mem
      · exact scoped_of_mem_binds mem ‹_›
      · exact absurd mem List.not_mem_nil
    · split at mem
      · subst owner
        exact scoped_of_mem_ownBindings mem
      · exact absurd mem List.not_mem_nil
  · intro owned
    obtain ⟨id, inside, ⟨around, mem⟩ | ⟨rfl, mem⟩⟩ := owned.exists_node
    · refine ⟨id, h.mem_walk.mpr inside, ?_⟩
      rw [contributes_eq, if_pos around]
      exact List.mem_append_left _ mem
    · refine ⟨id, h.mem_walk.mpr inside, ?_⟩
      rw [contributes_eq, if_pos rfl]
      exact List.mem_append_right _ mem

/-! ### Lookups -/

/-- What a lookup finds is visible and has the name. -/
theorem Walked.visible_of_lookup (h : t.Walked)
    (found : (Scopes.ofTree t).lookup t node name = some b) :
    t.Visible node b ∧ b.name = name := by
  obtain ⟨owner, above, found⟩ := List.exists_of_findSome?_eq_some found
  obtain ⟨mem, from_, named⟩ := Scopes.of_latest found
  have owned := (h.mem_bindings_iff (h.lt_of_mem_ancestors above)).mp mem
  exact ⟨⟨owner, above, owned, from_⟩, named⟩

/-- A lookup finds nothing only where no such name is visible. -/
theorem Walked.lookup_eq_none_iff (h : t.Walked) :
    (Scopes.ofTree t).lookup t node name = none ↔ ¬ t.Bound node name := by
  constructor
  · rintro none ⟨b, ⟨owner, above, owned, from_⟩, named⟩
    have here := List.findSome?_eq_none_iff.mp none owner above
    have mem := (h.mem_bindings_iff (h.lt_of_mem_ancestors above)).mpr owned
    exact Scopes.not_of_latest here b mem from_ named
  · intro unbound
    cases found : (Scopes.ofTree t).lookup t node name with
    | none => rfl
    | some b => exact absurd ⟨b, h.visible_of_lookup found⟩ unbound

theorem Walked.isUnbound_iff (h : t.Walked) (n : NodeId) :
    t.isUnbound { bindings := t.allBindings } n = true ↔ ¬ t.Bound n (t.textOf n) := by
  rw [isUnbound, Option.isNone_iff_eq_none]
  exact h.lookup_eq_none_iff

/-! ## Global variables -/

/-- A statement defines a global variable: it assigns a name, or it declares a function under a name
without fields and methods, and no local name of this kind is visible there. -/
inductive Defines (t : Tree) (name : String) : (stat : NodeId) → GlobalDef → Prop
  | assignment {stat target : NodeId} : t.kind stat = .assignStat → target ∈ t.targets stat →
      t.kind target = .nameExpr → t.textOf target = name → ¬ t.Bound target name →
      Defines t name stat ⟨name, target, .assignment, t.stop stat⟩
  | function {stat full base body : NodeId} : t.kind stat = .funcStat →
      t.funcName? stat = some full → t.body? stat = some body → t.nameBase? full = some base →
      t.nameFields full = [] → t.nameMethod? full = none → t.textOf base = name →
      ¬ t.Bound base name → Defines t name stat ⟨name, stat, .function, t.stop stat⟩

/-- The order of definitions in the text: that in which a walk meets the statements, each before
those inside it, and in one statement that of the targets. -/
def Precedes (t : Tree) (stat : NodeId) (d : GlobalDef) (stat' : NodeId) (d' : GlobalDef) : Prop :=
  t.walk.idxOf stat < t.walk.idxOf stat' ∨
    (stat = stat' ∧ (t.targets stat).idxOf d.node < (t.targets stat).idxOf d'.node)

variable {d : GlobalDef}

/-- What a statement is listed for is defined by it. -/
theorem Walked.defines_of_mem (h : t.Walked)
    (mem : d ∈ t.globalsAt { bindings := t.allBindings } stat) : t.Defines d.name stat d := by
  unfold globalsAt at mem
  split at mem
  · rename_i isAssign
    obtain ⟨target, assigned, found⟩ := List.mem_filterMap.mp mem
    obtain ⟨⟨isName, unbound⟩, same⟩ := Option.ite_none_right_eq_some.mp found
    cases same
    exact .assignment isAssign assigned isName rfl ((h.isUnbound_iff target).mp unbound)
  · rename_i isFunction
    split at mem
    · rename_i full body hasName hasBody
      split at mem
      · rename_i base hasBase noFields noMethod
        split at mem
        · rename_i unbound
          rw [List.mem_singleton.mp mem]
          exact .function isFunction hasName hasBody hasBase noFields noMethod rfl
            ((h.isUnbound_iff base).mp unbound)
        · exact absurd mem List.not_mem_nil
      · exact absurd mem List.not_mem_nil
    · exact absurd mem List.not_mem_nil
  · exact absurd mem List.not_mem_nil

/-- What a statement defines is listed. -/
theorem Walked.mem_of_defines (h : t.Walked) (defines : t.Defines name stat d) :
    stat < t.size ∧ d.name = name ∧ d ∈ t.globalsAt { bindings := t.allBindings } stat := by
  cases defines with
  | @assignment target isAssign assigned isName named unbound =>
    refine ⟨lt_size_of_kind isAssign nofun, rfl, ?_⟩
    simp only [globalsAt, isAssign]
    refine List.mem_filterMap.mpr ⟨target, assigned, ?_⟩
    rw [← named] at unbound
    rw [if_pos ⟨isName, (h.isUnbound_iff target).mpr unbound⟩, named]
  | @function full base body isFunction hasName hasBody hasBase noFields noMethod named unbound =>
    refine ⟨lt_size_of_kind isFunction nofun, rfl, ?_⟩
    rw [← named] at unbound
    simp only [globalsAt, isFunction, hasName, hasBody, hasBase, noFields, noMethod,
      (h.isUnbound_iff base).mpr unbound, if_true, named]
    exact List.mem_singleton_self _

theorem pairwise_idxOf {ids : List NodeId} (nodup : ids.Nodup) :
    ids.Pairwise fun a b => ids.idxOf a < ids.idxOf b := by
  refine List.pairwise_iff_getElem.mpr fun i j inside inside' lt => ?_
  rwa [nodup.idxOf_getElem i inside, nodup.idxOf_getElem j inside']

theorem Walked.targets_nodup (h : t.Walked) (stat : NodeId) : (t.targets stat).Nodup := by
  unfold targets
  split
  · exact (h.children_nodup _).filter _
  · exact List.nodup_nil

/-- The definitions of one statement are in the order of its targets. -/
theorem Walked.pairwise_globalsAt (h : t.Walked) (s : Scopes) (stat : NodeId) :
    (t.globalsAt s stat).Pairwise fun d d' =>
      (t.targets stat).idxOf d.node < (t.targets stat).idxOf d'.node := by
  unfold globalsAt
  split
  · refine (pairwise_idxOf (h.targets_nodup stat)).filterMap _ fun n n' lt d found d' found' => ?_
    obtain ⟨-, same⟩ := Option.ite_none_right_eq_some.mp found
    obtain ⟨-, same'⟩ := Option.ite_none_right_eq_some.mp found'
    cases same
    cases same'
    exact lt
  · split
    · split
      · split
        · exact List.pairwise_singleton _ _
        · exact List.Pairwise.nil
      · exact List.Pairwise.nil
    · exact List.Pairwise.nil
  · exact List.Pairwise.nil

/-- The definitions of a global variable in the list, each with its statement. -/
def definitions (t : Tree) (name : String) : List (NodeId × GlobalDef) :=
  t.walk.flatMap fun stat =>
    ((t.globalsAt { bindings := t.allBindings } stat).filter fun d => d.name == name).map (stat, ·)

theorem globalsOf_eq (t : Tree) (name : String) :
    (Scopes.ofTree t).globalsOf name = (t.definitions name).map Prod.snd := by
  rw [Scopes.globalsOf, Scopes.ofTree, List.filter_flatMap, definitions, List.map_flatMap]
  refine List.flatMap_congr fun stat _ => ?_
  rw [List.map_map]
  exact (List.map_id _).symm

/-- A definition is listed with its statement. -/
theorem Walked.mem_definitions_iff (h : t.Walked) :
    (stat, d) ∈ t.definitions name ↔ t.Defines name stat d := by
  rw [definitions, List.mem_flatMap]
  constructor
  · rintro ⟨stat', -, mem⟩
    obtain ⟨d', mem, same⟩ := List.mem_map.mp mem
    cases same
    obtain ⟨mem, named⟩ := List.mem_filter.mp mem
    rw [← eq_of_beq named]
    exact h.defines_of_mem mem
  · intro defines
    obtain ⟨inside, named, mem⟩ := h.mem_of_defines defines
    refine ⟨stat, h.mem_walk.mpr inside, List.mem_map_of_mem (List.mem_filter.mpr ⟨mem, ?_⟩)⟩
    exact beq_iff_eq.mpr named

/-- The list has the order of the text. -/
theorem Walked.pairwise_definitions (h : t.Walked) (name : String) :
    (t.definitions name).Pairwise fun e e' => t.Precedes e.1 e.2 e'.1 e'.2 := by
  refine List.pairwise_flatMap.mpr ⟨fun stat _ => ?_, ?_⟩
  · refine List.pairwise_map.mpr (((h.pairwise_globalsAt _ stat).filter _).imp ?_)
    exact fun lt => .inr ⟨rfl, lt⟩
  · refine (pairwise_idxOf h.walk_nodup).imp fun {stat stat'} lt e mem e' mem' => .inl ?_
    obtain ⟨d, -, rfl⟩ := List.mem_map.mp mem
    obtain ⟨d', -, rfl⟩ := List.mem_map.mp mem'
    exact lt

/-! ## Members -/

/-- The member that a `function` statement defines is the one that its full name ends in, of what
the name begins with. -/
theorem nameMember?_of_mem_membersAt {m : MemberDef} (isFunction : t.kind stat = .funcStat)
    (mem : m ∈ t.membersAt stat) :
    ∃ full body, t.funcName? stat = some full ∧ t.body? stat = some body ∧
      t.nameBase? full = some m.base ∧ t.nameMember? full = some m.name ∧
      m.value = .function body := by
  unfold membersAt at mem
  rw [isFunction] at mem
  dsimp only at mem
  split at mem
  · rename_i full body hasName hasBody
    split at mem
    · rename_i base field hasBase fields noMethod
      obtain rfl := List.mem_singleton.mp mem
      refine ⟨full, body, hasName, hasBody, hasBase, ?_, rfl⟩
      rw [nameMember?, fields, noMethod]
      rfl
    · rename_i base method hasBase noFields hasMethod
      obtain rfl := List.mem_singleton.mp mem
      refine ⟨full, body, hasName, hasBody, hasBase, ?_, rfl⟩
      rw [nameMember?, hasMethod]
      rfl
    · exact absurd mem List.not_mem_nil
  · exact absurd mem List.not_mem_nil

end Tree

end LuaTyping
