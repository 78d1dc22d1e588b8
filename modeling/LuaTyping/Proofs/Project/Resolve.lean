import LuaTyping.Resolve
import LuaTyping.Proofs.Scope.Rules
import LuaTyping.Proofs.Infer.Made

/-!
# What names refer to

A name refers to a local name that is visible where it stands, and otherwise to a definition of a
global variable: in its own file to the nearest one in front of it, and in another file to the
first.  The resolution of names looks all this up in the scopes of the files; here it is shown
against the rules of `Tree.Visible` and `Tree.Defines`, for every project that is made.

* `Project.Declares`: a declaration introduces a name.
* `Tree.Nearest`, `Tree.Leads`: the definition that is taken in the own file, and in another one.
* `Project.resolve?_sound_and_complete`: a name is resolved whenever there is something that it can
  refer to, and to what it refers to.
-/

namespace LuaTyping

/-- The kinds of declarations of local names. -/
def DeclarationKind.isLocal : DeclarationKind → Bool
  | .variable | .param | .localFunction | .self => true
  | .globalFunction | .assignment | .other => false

/-! ## Definitions in order -/

namespace Tree

/-- The definition of a variable for names at an offset.  If it stops in front of the offset, it is
the last one that does; otherwise none does, and it is the first one of all. -/
structure Nearest (t : Tree) (name : String) (offset : Nat) (stat : NodeId) (d : GlobalDef) :
    Prop where
  defines : t.Defines name stat d
  last : d.stop ≤ offset → ∀ stat' d', t.Defines name stat' d' → d'.stop ≤ offset →
    (stat', d') = (stat, d) ∨ t.Precedes stat' d' stat d
  first : offset < d.stop → ∀ stat' d', t.Defines name stat' d' →
    offset < d'.stop ∧ ((stat', d') = (stat, d) ∨ t.Precedes stat d stat' d')

/-- The first definition of a variable. -/
structure Leads (t : Tree) (name : String) (stat : NodeId) (d : GlobalDef) : Prop where
  defines : t.Defines name stat d
  first : ∀ stat' d', t.Defines name stat' d' →
    (stat', d') = (stat, d) ∨ t.Precedes stat d stat' d'

section Ordered

variable {α : Type} {R : α → α → Prop} {as : List α} {a b : α}

theorem first_of_head? (ordered : as.Pairwise R) (head : as.head? = some a) (mem : b ∈ as) :
    b = a ∨ R a b := by
  cases as with
  | nil => exact absurd mem List.not_mem_nil
  | cons a' as =>
    cases head
    exact (List.mem_cons.mp mem).imp_right (List.rel_of_pairwise_cons ordered)

theorem last_of_getLast? (ordered : as.Pairwise R) (last : as.getLast? = some a) (mem : b ∈ as) :
    b = a ∨ R b a := by
  obtain ⟨front, rfl⟩ := List.getLast?_eq_some_iff.mp last
  rcases List.mem_append.mp mem with mem | mem
  · exact .inr ((List.pairwise_append.mp ordered).2.2 b mem a (List.mem_singleton_self a))
  · exact .inl (List.mem_singleton.mp mem)

end Ordered

variable {t : Tree} {name : String} {offset : Nat} {d : GlobalDef}

theorem Walked.leads_of_head? (h : t.Walked)
    (head : ((Scopes.ofTree t).globalsOf name).head? = some d) : ∃ stat, t.Leads name stat d := by
  rw [globalsOf_eq, List.head?_map] at head
  obtain ⟨⟨stat, d'⟩, first, rfl⟩ := Option.map_eq_some_iff.mp head
  refine ⟨stat, h.mem_definitions_iff.mp (List.mem_of_head? first), fun stat' d' defines => ?_⟩
  exact first_of_head? (h.pairwise_definitions name) first (h.mem_definitions_iff.mpr defines)

theorem Walked.head?_eq_none_iff (h : t.Walked) :
    ((Scopes.ofTree t).globalsOf name).head? = none ↔ ∀ stat d, ¬ t.Defines name stat d := by
  rw [globalsOf_eq, List.head?_eq_none_iff, List.map_eq_nil_iff, List.eq_nil_iff_forall_not_mem]
  refine ⟨fun none stat d defines => ?_, fun none e mem => ?_⟩
  · exact none (stat, d) (h.mem_definitions_iff.mpr defines)
  · exact none e.1 e.2 (h.mem_definitions_iff.mp mem)

/-- The definitions that stop in front of an offset, with their statements. -/
theorem filter_globalsOf (t : Tree) (name : String) (offset : Nat) :
    ((Scopes.ofTree t).globalsOf name).filter (fun d => decide (d.stop ≤ offset))
      = ((t.definitions name).filter fun e => decide (e.2.stop ≤ offset)).map Prod.snd := by
  rw [globalsOf_eq, List.filter_map]
  rfl

theorem Walked.nearest_of_nearestGlobal (h : t.Walked)
    (found : Project.nearestGlobal ((Scopes.ofTree t).globalsOf name) offset = some d) :
    ∃ stat, t.Nearest name offset stat d := by
  rw [Project.nearestGlobal, filter_globalsOf, List.getLast?_map] at found
  rcases Option.or_eq_some_iff.mp found with found | ⟨none, head⟩
  · obtain ⟨⟨stat, d'⟩, last, rfl⟩ := Option.map_eq_some_iff.mp found
    obtain ⟨mem, stops⟩ := List.mem_filter.mp (List.mem_of_getLast? last)
    refine ⟨stat, h.mem_definitions_iff.mp mem, fun _ stat' d'' defines stops' => ?_,
      fun behind => ?_⟩
    · exact last_of_getLast? ((h.pairwise_definitions name).filter _) last
        (List.mem_filter.mpr ⟨h.mem_definitions_iff.mpr defines, decide_eq_true stops'⟩)
    · exact absurd (of_decide_eq_true stops) (Nat.not_le_of_lt behind)
  · rw [Option.map_eq_none_iff, List.getLast?_eq_none_iff, List.filter_eq_nil_iff] at none
    have behind {stat' d'} (defines : t.Defines name stat' d') : offset < d'.stop := by
      refine Nat.lt_of_not_le fun stops => ?_
      exact none _ (h.mem_definitions_iff.mpr defines) (decide_eq_true stops)
    obtain ⟨stat, leads⟩ := h.leads_of_head? head
    refine ⟨stat, leads.defines, fun stops => ?_, fun _ stat' d' defines => ?_⟩
    · exact absurd stops (Nat.not_le_of_lt (behind leads.defines))
    · exact ⟨behind defines, leads.first stat' d' defines⟩

theorem Walked.nearestGlobal_eq_none_iff (h : t.Walked) :
    Project.nearestGlobal ((Scopes.ofTree t).globalsOf name) offset = none
      ↔ ∀ stat d, ¬ t.Defines name stat d := by
  rw [Project.nearestGlobal, Option.or_eq_none_iff, h.head?_eq_none_iff, and_iff_right_iff_imp]
  intro none
  rw [List.head?_eq_none_iff.mp (h.head?_eq_none_iff.mpr none)]
  rfl

end Tree

namespace Project

variable {p : Project} {file : Nat} {owner stat : NodeId} {b : Binding} {d : GlobalDef}
  {name : String}

/-! ## Declarations -/

/-- The declaration is what its kind says and introduces the name.  Where it is global, no local
name hides the variable from the name that defines it. -/
def Declares (p : Project) (d : Declaration) (name : String) : Prop :=
  let t := p.tree d.site.file
  let node := d.site.node
  match d.kind with
  | .variable => t.kind node = .nameDef ∧ t.textOf node = name
  | .param => t.kind node = .paramDef ∧ t.textOf node = name
  | .localFunction =>
    t.kind node = .localFuncStat ∧ ∃ n, t.ownName? node = some n ∧ t.textOf n = name
  | .self => t.kind node = .funcStat ∧ t.isMethod node = true ∧ name = "self"
  | .assignment => t.kind node = .nameExpr ∧ t.textOf node = name ∧ ¬ t.Bound node name
  | .globalFunction =>
    t.kind node = .funcStat ∧ ∃ full base, t.funcName? node = some full ∧
      t.nameBase? full = some base ∧ t.nameFields full = [] ∧ t.nameMethod? full = none ∧
      t.textOf base = name ∧ ¬ t.Bound base name
  | .other => False

theorem declaration_of_kind {node : NodeId} {expected : NodeKind} {kind : DeclarationKind}
    (is : (p.tree file).kind node = expected) :
    p.declaration file node expected kind = ⟨kind, ⟨file, node⟩⟩ := by
  rw [declaration, if_pos is]

/-- A local name is declared by the node that binds it. -/
theorem localDeclaration_of_scoped (owned : (p.tree file).Scoped owner b) :
    ∃ kind : DeclarationKind, kind.isLocal = true
      ∧ p.localDeclaration file b = ⟨kind, ⟨file, b.node⟩⟩
      ∧ p.Declares ⟨kind, ⟨file, b.node⟩⟩ b.name := by
  cases owned with
  | localName _ listed _ =>
    have isName := Tree.kind_of_listedNames listed
    exact ⟨.variable, rfl, declaration_of_kind isName, isName, rfl⟩
  | @localFunction stat n _ isFunction own _ =>
    exact ⟨.localFunction, rfl, declaration_of_kind isFunction, isFunction, n, own, rfl⟩
  | param _ listed =>
    have isParam := Tree.kind_of_params listed
    exact ⟨.param, rfl, declaration_of_kind isParam, isParam, rfl⟩
  | method _ _ isStat method =>
    exact ⟨.self, rfl, declaration_of_kind isStat, isStat, method, rfl⟩
  | counter _ own =>
    have isName := Tree.kind_of_child? own
    exact ⟨.variable, rfl, declaration_of_kind isName, isName, rfl⟩
  | loopName _ listed =>
    have isName := Tree.kind_of_listedNames listed
    exact ⟨.variable, rfl, declaration_of_kind isName, isName, rfl⟩

/-- A global variable is declared by what defines it. -/
theorem globalDeclaration_of_defines (defines : (p.tree file).Defines name stat d) :
    ∃ kind : DeclarationKind, kind.isLocal = false
      ∧ p.globalDeclaration file d = ⟨kind, ⟨file, d.node⟩⟩
      ∧ p.Declares ⟨kind, ⟨file, d.node⟩⟩ name := by
  cases defines with
  | assignment _ _ isName named unbound =>
    exact ⟨.assignment, rfl, declaration_of_kind isName, isName, named, unbound⟩
  | @function full base _ isFunction hasName _ hasBase noFields noMethod named unbound =>
    exact ⟨.globalFunction, rfl, declaration_of_kind isFunction, isFunction, full, base, hasName,
      hasBase, noFields, noMethod, named, unbound⟩

/-! ## Resolution -/

/-- The trees of a project are walked. -/
theorem Stocked.walked (h : p.Stocked) (file : Nat) : (p.tree file).Walked := by
  cases found : p.file? file with
  | none =>
    rw [tree, found]
    exact Tree.walked_empty ""
  | some f =>
    rw [h.tree_eq found]
    exact Parsed.walked f.text

theorem findSome?_range_eq_some {β : Type} {f : Nat → Option β} {n : Nat} {b : β}
    (found : (List.range n).findSome? f = some b) :
    ∃ i < n, f i = some b ∧ ∀ j < i, f j = none := by
  induction n with
  | zero => exact absurd found nofun
  | succ n ih =>
    rw [List.range_succ, List.findSome?_append, Option.or_eq_some_iff] at found
    rcases found with found | ⟨none, found⟩
    · obtain ⟨i, lt, here, before⟩ := ih found
      exact ⟨i, Nat.lt_succ_of_lt lt, here, before⟩
    · rw [List.findSome?_singleton] at found
      refine ⟨n, Nat.lt_succ_self n, found, fun j lt => ?_⟩
      exact List.findSome?_eq_none_iff.mp none j (List.mem_range.mpr lt)

/-- A local name is found where one is visible. -/
theorem Stocked.resolveLocal?_isSome_iff (h : p.Stocked) (s : Site) :
    (p.resolveLocal? s).isSome = true
      ↔ (p.tree s.file).Bound s.node ((p.tree s.file).textOf s.node) := by
  rw [resolveLocal?, Option.isSome_map, h.scopes_eq, Option.isSome_iff_ne_none, Ne,
    (h.walked s.file).lookup_eq_none_iff, not_not]

/-- What is found is a visible local name. -/
theorem Stocked.declares_of_resolveLocal? (h : p.Stocked) {s : Site} {decl : Declaration}
    (found : p.resolveLocal? s = some decl) :
    decl.kind.isLocal = true
      ∧ p.Declares decl ((p.tree s.file).textOf s.node)
      ∧ ∃ b, (p.tree s.file).Visible s.node b ∧ b.name = (p.tree s.file).textOf s.node
        ∧ decl.site = ⟨s.file, b.node⟩ := by
  rw [resolveLocal?, h.scopes_eq] at found
  obtain ⟨b, bound, rfl⟩ := Option.map_eq_some_iff.mp found
  obtain ⟨visible, named⟩ := (h.walked s.file).visible_of_lookup bound
  obtain ⟨owner, -, owned, -⟩ := id visible
  obtain ⟨kind, isLocal, eq, declares⟩ := localDeclaration_of_scoped owned
  rw [named] at declares
  rw [eq]
  exact ⟨isLocal, declares, b, visible, named, rfl⟩

/-- A global variable is found where some file defines it. -/
theorem Stocked.resolveGlobal?_eq_none_iff (h : p.Stocked) (s : Site) :
    p.resolveGlobal? s = none
      ↔ ∀ file stat d, ¬ (p.tree file).Defines ((p.tree s.file).textOf s.node) stat d := by
  unfold resolveGlobal?
  dsimp only
  rw [h.scopes_eq]
  cases near : nearestGlobal _ _ with
  | some d =>
    obtain ⟨stat, nearest⟩ := (h.walked s.file).nearest_of_nearestGlobal near
    exact iff_of_false nofun fun absent => absent s.file stat d nearest.defines
  | none =>
    have here := (h.walked s.file).nearestGlobal_eq_none_iff.mp near
    dsimp only
    rw [Option.map_eq_none_iff, h.numbered.globalElsewhere?_eq, List.findSome?_eq_none_iff]
    refine ⟨fun absent file => ?_, fun absent file _ => ?_⟩
    · by_cases own : file = s.file
      · rw [own]
        exact here
      · by_cases inside : file < p.size
        · have other := absent file (List.mem_range.mpr inside)
          rw [if_neg own, Option.map_eq_none_iff, h.scopes_eq] at other
          exact (h.walked file).head?_eq_none_iff.mp other
        · -- a number without a file stands for a tree without nodes
          have missing : p.file? file = none := Array.getElem?_eq_none (Nat.le_of_not_lt inside)
          intro stat d defines
          have known := ((h.walked file).mem_of_defines defines).1
          rw [tree, missing] at known
          exact absurd known (Nat.not_lt_zero stat)
    · split
      · rfl
      · rw [h.scopes_eq, (h.walked file).head?_eq_none_iff.mpr (absent file), Option.map_none]

/-- What is found is the nearest definition in the own file, or else the first one in the first
other file with any. -/
theorem Stocked.declares_of_resolveGlobal? (h : p.Stocked) {s : Site} {decl : Declaration}
    (found : p.resolveGlobal? s = some decl) :
    let t := p.tree s.file
    let name := t.textOf s.node
    decl.kind.isLocal = false
      ∧ p.Declares decl name
      ∧ ((∃ stat d, t.Nearest name (t.start s.node) stat d ∧ decl.site = ⟨s.file, d.node⟩)
        ∨ ((∀ stat d, ¬ t.Defines name stat d) ∧ ∃ file stat d, file ≠ s.file
          ∧ (p.tree file).Leads name stat d ∧ decl.site = ⟨file, d.node⟩
          ∧ ∀ file' < file, ∀ stat d, ¬ (p.tree file').Defines name stat d)) := by
  intro t name
  unfold resolveGlobal? at found
  dsimp only at found
  rw [h.scopes_eq] at found
  cases near : nearestGlobal ((Scopes.ofTree t).globalsOf name) (t.start s.node) with
  | some d =>
    rw [near] at found
    obtain ⟨stat, nearest⟩ := (h.walked s.file).nearest_of_nearestGlobal near
    obtain ⟨kind, isGlobal, eq, declares⟩ := globalDeclaration_of_defines nearest.defines
    cases found
    rw [eq]
    exact ⟨isGlobal, declares, .inl ⟨stat, d, nearest, rfl⟩⟩
  | none =>
    rw [near] at found
    have here := (h.walked s.file).nearestGlobal_eq_none_iff.mp near
    obtain ⟨e, elsewhere, rfl⟩ := Option.map_eq_some_iff.mp found
    rw [h.numbered.globalElsewhere?_eq] at elsewhere
    obtain ⟨file, -, there, before⟩ := findSome?_range_eq_some elsewhere
    obtain ⟨notOwn, there⟩ := Option.ite_none_left_eq_some.mp there
    obtain ⟨d, head, rfl⟩ := Option.map_eq_some_iff.mp there
    rw [h.scopes_eq] at head
    obtain ⟨stat, leads⟩ := (h.walked file).leads_of_head? head
    obtain ⟨kind, isGlobal, eq, declares⟩ := globalDeclaration_of_defines leads.defines
    rw [eq]
    refine ⟨isGlobal, declares, .inr ⟨here, file, stat, d, notOwn, leads, rfl, ?_⟩⟩
    intro file' lt
    by_cases own : file' = s.file
    · rw [own]
      exact here
    · have none := before file' lt
      rw [if_neg own, Option.map_eq_none_iff, h.scopes_eq] at none
      exact (h.walked file').head?_eq_none_iff.mp none

/-- A name is resolved unless no local name is visible there and no file defines a global variable
of this name.  What it is resolved to introduces this name.  Where a local name is visible, it is
local and one that is visible.  Otherwise it is the nearest definition of a global variable in the
file of the name, or if that has none, the first definition in the first file that has one.  What
is visible and what is near goes by the offsets of nodes, which are the places in a text as long as
it has less than `offsetCount` bytes. -/
theorem resolve?_sound_and_complete (made : p.Made) (s : Site) :
    let t := p.tree s.file
    let name := t.textOf s.node
    (p.resolve? s = none
      ↔ ¬ t.Bound s.node name ∧ ∀ file stat d, ¬ (p.tree file).Defines name stat d)
    ∧ ((p.resolveLocal? s).isSome = true ↔ t.Bound s.node name)
    ∧ ∀ decl, p.resolve? s = some decl →
      p.Declares decl name
      ∧ decl.kind ≠ .other
      ∧ (decl.kind.isLocal = true ↔ (p.resolveLocal? s).isSome = true)
      ∧ (decl.kind.isLocal = true → p.resolveLocal? s = some decl
        ∧ ∃ b, t.Visible s.node b ∧ b.name = name ∧ decl.site = ⟨s.file, b.node⟩)
      ∧ (decl.kind.isLocal = false →
        (∃ stat d, t.Nearest name (t.start s.node) stat d ∧ decl.site = ⟨s.file, d.node⟩)
        ∨ ((∀ stat d, ¬ t.Defines name stat d) ∧ ∃ file stat d, file ≠ s.file
          ∧ (p.tree file).Leads name stat d ∧ decl.site = ⟨file, d.node⟩
          ∧ ∀ file' < file, ∀ stat d, ¬ (p.tree file').Defines name stat d)) := by
  intro t name
  have stocked := made.stocked
  refine ⟨?_, stocked.resolveLocal?_isSome_iff s, fun decl found => ?_⟩
  · rw [resolve?, Option.or_eq_none_iff, stocked.resolveGlobal?_eq_none_iff,
      ← Option.not_isSome_iff_eq_none, stocked.resolveLocal?_isSome_iff]
  · rcases Option.or_eq_some_iff.mp found with found | ⟨absent, found⟩
    · obtain ⟨isLocal, declares, visible⟩ := stocked.declares_of_resolveLocal? found
      have known : (p.resolveLocal? s).isSome = true := by rw [found, Option.isSome_some]
      refine ⟨declares, ?_, iff_of_true isLocal known, fun _ => ⟨found, visible⟩,
        fun isGlobal => ?_⟩
      · intro other
        rw [other] at isLocal
        exact Bool.false_ne_true isLocal
      · exact absurd (isGlobal.symm.trans isLocal) Bool.false_ne_true
    · obtain ⟨isGlobal, declares, chosen⟩ := stocked.declares_of_resolveGlobal? found
      have notLocal : ¬ decl.kind.isLocal = true := by rw [isGlobal]; exact Bool.false_ne_true
      refine ⟨declares, ?_, iff_of_false notLocal ?_, fun isLocal => absurd isLocal notLocal,
        fun _ => chosen⟩
      · intro other
        rw [Declares, other] at declares
        exact declares
      · rw [absent]
        exact Bool.false_ne_true

/-- Of two assignments in front of a name, the second one. -/
theorem resolve?_second_assignment :
    (ofFiles [] [("a.lua", "x = 1 x = 2 return x")]).resolve? ⟨0, 12⟩ = some ⟨.assignment, ⟨0, 6⟩⟩
      ∧ ∃ stat d, ((ofFiles [] [("a.lua", "x = 1 x = 2 return x")]).tree 0).Nearest "x" 19 stat d
        ∧ d.node = 6 := by
  have found : (ofFiles [] [("a.lua", "x = 1 x = 2 return x")]).resolve? ⟨0, 12⟩
      = some ⟨.assignment, ⟨0, 6⟩⟩ := by decide +kernel
  have name : ((ofFiles [] [("a.lua", "x = 1 x = 2 return x")]).tree 0).textOf 12 = "x" := by
    decide +kernel
  have start : ((ofFiles [] [("a.lua", "x = 1 x = 2 return x")]).tree 0).start 12 = 19 := by
    decide +kernel
  obtain ⟨-, -, -, -, chosen⟩ :=
    (resolve?_sound_and_complete (made_ofFiles _ _) ⟨0, 12⟩).2.2 _ found
  rw [name, start] at chosen
  rcases chosen rfl with ⟨stat, d, nearest, site⟩ | ⟨-, file, stat, d, other, -, site, -⟩
  · exact ⟨found, stat, d, nearest, (congrArg Site.node site).symm⟩
  · exact absurd (congrArg Site.file site).symm other

end Project

end LuaTyping
