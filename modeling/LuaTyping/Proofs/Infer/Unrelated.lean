import Mathlib.Data.List.Basic
import LuaTyping.Proofs.Project.Insert

/-!
# Unrelated files do not disturb answers

A file that is added to a project can change the types of older expressions only by what leads into
it: a global variable it defines, a member it gives to a global variable, and a module name that
now finds it.  A file without any of these is *unrelated*, and it changes nothing.

Inference reaches other files along the recursion of its plans, so this is shown of all plans at
once: the old files are the near ones of `Project.Alike`.

* `Project.alike_insert`: with an unrelated file, old files are alike.
* `Project.infer_insert_unrelated`: with an unrelated file, old expressions keep their types.
-/

namespace LuaTyping

namespace Project

variable {p : Project} {path text : String}

/-! ## Unrelated files -/

/-- Nothing leads from old files into a text inserted under a path: it defines no global variable,
where it defines members, the variable is local, and every module is found where it was. -/
structure Unrelated (p : Project) (path text : String) : Prop where
  globals : ((p.insert path text).2.scopes p.size).globals = []
  members : ∀ d ∈ ((p.insert path text).2.scopes p.size).members,
    ((p.insert path text).2.tree p.size).isUnbound ((p.insert path text).2.scopes p.size) d.base
      = false
  modules : ∀ module origin, origin < p.size →
    (p.insert path text).2.require? module origin = p.require? module origin

theorem resolveLocal?_insert (new : p.fileId? path = none) {s : Site} (old : s.file < p.size) :
    (p.insert path text).2.resolveLocal? s = p.resolveLocal? s := by
  have declare : (p.insert path text).2.localDeclaration s.file = p.localDeclaration s.file := by
    funext b
    unfold localDeclaration declaration
    rw [tree_insert new old]
  rw [resolveLocal?, resolveLocal?, tree_insert new old, scopes_insert new old, declare]

/-- Old files are the same as before. -/
theorem alikeFiles_insert (new : p.fileId? path = none) :
    p.AlikeFiles (· < p.size) (p.insert path text).2 where
  tree f old := by
    rw [tree_insert new old]
    exact .refl _
  members_eq f old := by rw [scopes_insert new old]
  resolveLocal?_eq s old _ := (resolveLocal?_insert new old).symm

/-- An unrelated file has no members of global variables. -/
theorem Unrelated.memberDefs (h : p.Unrelated path text) (global name : String) :
    (p.insert path text).2.memberDefs p.size (.global global) name = [] := by
  refine List.filter_eq_nil_iff.mpr fun d mem found => ?_
  have bound := h.members d mem
  rw [Tree.isUnbound, Option.isNone_eq_false_iff] at bound
  obtain ⟨b, found'⟩ := Option.isSome_iff_exists.mp bound
  have notGlobal : (p.insert path text).2.isNamedBy (.global global) ⟨p.size, d.base⟩ = false := by
    have declared : (p.insert path text).2.resolveLocal? ⟨p.size, d.base⟩
        = some ((p.insert path text).2.localDeclaration p.size b) := by
      rw [resolveLocal?, found', Option.map_some]
    unfold isNamedBy
    rw [declared]
  rw [notGlobal, Bool.and_false] at found
  exact absurd found Bool.false_ne_true

theorem Unrelated.globalMember? (h : p.Unrelated path text) (made : p.Made)
    (new : p.fileId? path = none) (global name : String) :
    (p.insert path text).2.globalMember? global name = p.globalMember? global name := by
  rw [(made.insert path text).stocked.numbered.globalMember?_eq,
    made.stocked.numbered.globalMember?_eq, size_insert new, List.range_succ,
    List.flatMap_append, List.flatMap_singleton, h.memberDefs, List.filterMap_nil,
    List.append_nil]
  congr 1
  refine List.flatMap_congr fun i mem => ?_
  have old := List.mem_range.mp mem
  rw [← (alikeFiles_insert new).memberDefs_eq old, ← (alikeFiles_insert new).memberSource?_eq old]

theorem Unrelated.globalElsewhere? (h : p.Unrelated path text) (made : p.Made)
    (new : p.fileId? path = none) (file : Nat) (name : String) :
    (p.insert path text).2.globalElsewhere? file name = p.globalElsewhere? file name := by
  have none : ((p.insert path text).2.scopes p.size).globalsOf name = [] := by
    rw [Scopes.globalsOf, h.globals, List.filter_nil]
  rw [(made.insert path text).stocked.numbered.globalElsewhere?_eq,
    made.stocked.numbered.globalElsewhere?_eq, size_insert new, List.range_succ,
    List.findSome?_append, List.findSome?_singleton, none, List.head?_nil, Option.map_none,
    ite_self, Option.or_none]
  refine findSome?_congr fun i mem => ?_
  rw [scopes_insert new (List.mem_range.mp mem)]

/-- A definition in another file is in a file of the project. -/
theorem Made.globalElsewhere?_lt (made : p.Made) {file : Nat} {name : String} {d : Nat × GlobalDef}
    (found : p.globalElsewhere? file name = some d) : d.1 < p.size := by
  rw [made.stocked.numbered.globalElsewhere?_eq] at found
  obtain ⟨i, mem, found⟩ := List.exists_of_findSome?_eq_some found
  split at found
  · cases found
  · obtain ⟨g, -, rfl⟩ := Option.map_eq_some_iff.mp found
    exact List.mem_range.mp mem

theorem globalDeclaration_insert (new : p.fileId? path = none) {file : Nat} (old : file < p.size) :
    (p.insert path text).2.globalDeclaration file = p.globalDeclaration file := by
  funext d
  unfold globalDeclaration declaration
  rw [tree_insert new old]

theorem Unrelated.resolveGlobal? (h : p.Unrelated path text) (made : p.Made)
    (new : p.fileId? path = none) {s : Site} (old : s.file < p.size) :
    (p.insert path text).2.resolveGlobal? s = p.resolveGlobal? s := by
  unfold Project.resolveGlobal?
  dsimp only
  rw [tree_insert new old, scopes_insert new old, h.globalElsewhere? made new,
    globalDeclaration_insert new old]
  have elsewhere : (p.globalElsewhere? s.file ((p.tree s.file).textOf s.node)).map
        (fun d => (p.insert path text).2.globalDeclaration d.1 d.2)
      = (p.globalElsewhere? s.file ((p.tree s.file).textOf s.node)).map
        fun d => p.globalDeclaration d.1 d.2 :=
    Option.map_congr fun d found => by
      rw [globalDeclaration_insert new (made.globalElsewhere?_lt found)]
  rw [elsewhere]

theorem site_globalDeclaration (p : Project) (file : Nat) (d : GlobalDef) :
    (p.globalDeclaration file d).site = ⟨file, d.node⟩ := by
  unfold globalDeclaration
  split <;> rfl

theorem Made.resolveGlobal?_lt (made : p.Made) {s : Site} {d : Declaration}
    (inside : s.file < p.size) (found : p.resolveGlobal? s = some d) : d.site.file < p.size := by
  unfold Project.resolveGlobal? at found
  dsimp only at found
  split at found
  · cases found
    rwa [site_globalDeclaration]
  · obtain ⟨g, elsewhere, rfl⟩ := Option.map_eq_some_iff.mp found
    rw [site_globalDeclaration]
    exact made.globalElsewhere?_lt elsewhere

theorem Made.globalMember?_lt (made : p.Made) {global name : String} {source : MemberSource}
    (found : p.globalMember? global name = some source) : source.site.file < p.size := by
  rw [made.stocked.numbered.globalMember?_eq] at found
  obtain ⟨i, mem, found⟩ := List.mem_flatMap.mp (List.mem_of_getLast? found)
  obtain ⟨d, -, found⟩ := List.mem_filterMap.mp found
  rw [file_of_memberSource? found]
  exact List.mem_range.mp mem

/-- With an unrelated file in the project, what leads out of old files leads where it led. -/
theorem alike_insert (made : p.Made) (new : p.fileId? path = none) (h : p.Unrelated path text) :
    p.Alike (· < p.size) (p.insert path text).2 where
  toAlikeFiles := alikeFiles_insert new
  resolveGlobal?_eq _ old _ := (h.resolveGlobal? made new old).symm
  resolveGlobal?_near _ _ old found := made.resolveGlobal?_lt old found
  globalMember?_eq global name := (h.globalMember? made new global name).symm
  globalMember?_near _ _ _ found := made.globalMember?_lt found
  require?_eq module origin old := (h.modules module origin old).symm
  require?_near _ _ _ _ found := made.stocked.numbered.require?_lt found

/-- A new file that is unrelated does not change the type of any expression of an old file. -/
theorem infer_insert_unrelated (made : p.Made) (new : p.fileId? path = none)
    (h : p.Unrelated path text) (maxDepth : Nat) {e : Site} (old : e.file < p.size) :
    Context.infer ⟨(p.insert path text).2, maxDepth⟩ e = Context.infer ⟨p, maxDepth⟩ e :=
  ((alike_insert made new h).infer_eq maxDepth old).symm

/-- The same module names find `b.lua`, whether there is a `b/init.lua` beside it or not. -/
theorem resolve?_init (module origin : String) :
    Require.resolve? [] [(0, "b.lua"), (1, "b/init.lua")] module origin
      = Require.resolve? [] [(0, "b.lua")] module origin := by
  have exact (path : String) : Require.candidates [] path origin = [] := by
    unfold Require.candidates
    split <;> rfl
  have same (wanted : List (List Char)) :
      Require.endsWith "b/init.lua" wanted = Require.endsWith "b.lua" wanted := by
    have stems : Require.stem "b/init.lua" = Require.stem "b.lua" := by decide +kernel
    rw [Require.endsWith, Require.endsWith, stems]
  refine Option.bind_congr fun path _ => ?_
  rw [exact]
  dsimp only
  rw [List.filter_cons, List.filter_cons, List.filter_cons, List.filter_nil, same]
  cases Require.endsWith "b.lua" (slashParts path.toList)
  · rfl
  · decide +kernel

/-- A table in a local variable with the name of a global one of another file. -/
theorem infer_insert_unrelated_local :
    Context.infer ⟨((ofFiles [] [("b.lua", "x = 1 return x")]).insert "b/init.lua"
        "local x = {} x.k = 1 return x").2, 8⟩ ⟨0, 7⟩
      = some ((TypeSet.single .number).insert (.global "x" ⟨0, 0⟩)) := by
  have unrelated : (ofFiles [] [("b.lua", "x = 1 return x")]).Unrelated "b/init.lua"
      "local x = {} x.k = 1 return x" := by
    refine ⟨by decide +kernel, by decide +kernel, fun module origin old => ?_⟩
    have before : (ofFiles [] [("b.lua", "x = 1 return x")]).files.toList.map
        (fun f => (f.id, f.path)) = [(0, "b.lua")] := by decide +kernel
    have after : ((ofFiles [] [("b.lua", "x = 1 return x")]).insert "b/init.lua"
        "local x = {} x.k = 1 return x").2.files.toList.map (fun f => (f.id, f.path))
        = [(0, "b.lua"), (1, "b/init.lua")] := by decide +kernel
    rw [require?, require?, before, after, file?_insert (by decide +kernel) old]
    exact resolve?_init module _
  rw [infer_insert_unrelated (made_ofFiles _ _) (by decide +kernel) unrelated 8 (by decide +kernel)]
  decide +kernel

end Project

end LuaTyping
