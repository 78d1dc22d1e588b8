import LuaTyping.Proofs.Disk.Path
import LuaTyping.Workspace.Basic

/-!
# Paths inside the root

A workspace takes a path if its parts start with the parts of the root.  This is done on the parts
as the disk gives them: of a path that leads to something they are the names on the way, but of a
path that leads to nothing they are those that are written, and a `..` among them is a part like any
other one.  Such a path can leave the root and still start with it.

* `Workspace.lexicalPath`: the path inside the project by the places that paths lead to.
* `Workspace.projectPath_of_parts_eq`: what is taken, and under which path.
* `Workspace.projectPath_eq_lexicalPath_iff`: where nothing exists on the disk, the two ways agree
  on every path without `..`, and of those with `..` just on the ones that neither of them takes.
-/

namespace LuaTyping

namespace Workspace

/-- The path inside the project of the place that a path leads to, as it is written, if this place
is below that of the root. -/
def lexicalPath (w : Workspace) (path : String) : Except WorkspaceError String :=
  let root := Path.place w.root
  let place := Path.place (w.absolute path)
  if root <+: place then .ok ("/".intercalate (place.drop root.length))
  else .error (.outsideRoot path)

theorem lexicalPath_of_place_eq {w : Workspace} {path : String} {rest : Names}
    (place : Path.place (w.absolute path) = Path.place w.root ++ rest) :
    w.lexicalPath path = .ok ("/".intercalate rest) := by
  simp [lexicalPath, place]

theorem lexicalPath_eq_error_iff {w : Workspace} {path : String} :
    w.lexicalPath path = .error (.outsideRoot path)
      ↔ ¬ Path.place w.root <+: Path.place (w.absolute path) := by
  simp [lexicalPath]

section Written

/-! ## Paths that stay as they are written -/

variable {w : Workspace} {disk : Disk} {path : String}

/-- The disk has no other way to write the path from the root directory, as when it leads to
nothing. -/
def Untouched (w : Workspace) (disk : Disk) (path : String) : Prop :=
  Path.parts ((disk.canonical? (w.absolute path)).getD (w.absolute path))
    = Path.parts (w.absolute path)

theorem untouched_of_canonical?_eq_none (nothing : disk.canonical? (w.absolute path) = none) :
    w.Untouched disk path := by
  rw [Untouched, nothing, Option.getD_none]

theorem projectPath_of_parts_eq (untouched : w.Untouched disk path) {rest : List PathPart}
    (whole : Path.parts (w.absolute path) = Path.parts w.root ++ rest) :
    w.projectPath disk path = .ok (Path.ofParts rest) := by
  rw [projectPath, Path.below?_eq_some_iff.mpr (untouched.trans whole)]

theorem projectPath_of_not_isPrefix (untouched : w.Untouched disk path)
    (elsewhere : ¬ Path.parts w.root <+: Path.parts (w.absolute path)) :
    w.projectPath disk path = .error (.outsideRoot path) := by
  rw [projectPath, Path.below?_eq_none_iff.mpr (untouched ▸ elsewhere)]

theorem absolute_of_isAbsolute (w : Workspace) (absolute : Path.isAbsolute path) :
    w.absolute path = path := by
  rw [Workspace.absolute, Path.join, if_pos absolute]

variable (root : Path.isAbsolute w.root)

include root

theorem parts_absolute (relative : Path.isAbsolute path = false) :
    Path.parts (w.absolute path) = Path.parts w.root ++ Path.inner path.toList :=
  Path.parts_join root relative

theorem isAbsolute_absolute : Path.isAbsolute (w.absolute path) :=
  Path.isAbsolute_join root path

/-- Behind the root there are only names and `..`. -/
theorem isInner_of_parts_absolute {rest : List PathPart}
    (whole : Path.parts (w.absolute path) = Path.parts w.root ++ rest) :
    ∀ p ∈ rest, Path.IsInner p := by
  intro p mem
  rw [Path.parts_of_isAbsolute root, List.cons_append,
    Path.parts_of_isAbsolute (isAbsolute_absolute root)] at whole
  have inside : p ∈ Path.inner (w.absolute path).toList := by
    rw [(List.cons.inj whole).2]
    exact List.mem_append_right _ mem
  exact Path.isInner_of_mem_inner inside

/-- Without a `..` a path is taken by its place. -/
theorem lexicalPath_of_up_not_mem {rest : List PathPart} (noUp : .up ∉ rest)
    (whole : Path.parts (w.absolute path) = Path.parts w.root ++ rest) :
    w.lexicalPath path = .ok (Path.ofParts rest) := by
  refine lexicalPath_of_place_eq ?_
  rw [Path.place, whole, Path.walk_append,
    Path.walk_of_up_not_mem (isInner_of_parts_absolute root whole) noUp]
  rfl

/-- With a `..` behind the root, the path is not that of a place. -/
theorem lexicalPath_ne_of_up_mem {rest : List PathPart} (up : .up ∈ rest)
    (whole : Path.parts (w.absolute path) = Path.parts w.root ++ rest) :
    w.lexicalPath path ≠ .ok (Path.ofParts rest) := by
  have entries : ∀ name ∈ Path.place (w.absolute path), Path.IsEntryName name :=
    Path.isEntryName_of_mem_place (isAbsolute_absolute root)
  rw [lexicalPath]
  split
  · refine fun same => ?_
    refine Path.ofParts_ne_of_up_mem (isInner_of_parts_absolute root whole) up
      (fun name mem => ?_) (Except.ok.inj same).symm
    exact entries name (List.mem_of_mem_drop mem)
  · exact nofun

variable (plain : .up ∉ Path.parts w.root)

include plain

theorem up_mem_parts_absolute_iff :
    .up ∈ Path.parts (w.absolute path) ↔ .up ∈ Path.parts path := by
  cases absolute : Path.isAbsolute path with
  | true => rw [absolute_of_isAbsolute w absolute]
  | false =>
    rw [parts_absolute root absolute, List.mem_append, or_iff_right plain, Path.up_mem_parts_iff]

/-- Where nothing stands on the disk, a path is taken by the place that it leads to, unless it has a
`..`.  With a `..` it is right only to refuse a path that neither is written below the root nor
leads there; in particular each path from the root is taken, and its `..` stays. -/
theorem projectPath_eq_lexicalPath_iff (untouched : w.Untouched disk path) :
    w.projectPath disk path = w.lexicalPath path
      ↔ (.up ∈ Path.parts path →
          Path.isAbsolute path ∧ ¬ Path.parts w.root <+: Path.parts path
            ∧ ¬ Path.place w.root <+: Path.place path) := by
  by_cases below : Path.parts w.root <+: Path.parts (w.absolute path)
  · obtain ⟨rest, whole⟩ := below
    have up_iff : .up ∈ Path.parts path ↔ .up ∈ rest := by
      rw [← up_mem_parts_absolute_iff root plain, ← whole, List.mem_append, or_iff_right plain]
    rw [projectPath_of_parts_eq untouched whole.symm, up_iff]
    by_cases up : .up ∈ rest
    · refine iff_of_false (lexicalPath_ne_of_up_mem root up whole.symm).symm fun refused => ?_
      obtain ⟨absolute, elsewhere, -⟩ := refused up
      exact elsewhere ⟨rest, absolute_of_isAbsolute w absolute ▸ whole⟩
    · exact iff_of_true (lexicalPath_of_up_not_mem root up whole.symm).symm (absurd · up)
  · -- Only an absolute path can be written elsewhere, and then the root is not put in front.
    have absolute : Path.isAbsolute path := by
      refine (Bool.eq_false_or_eq_true _).resolve_right fun relative => below ?_
      exact ⟨_, (parts_absolute root relative).symm⟩
    rw [projectPath_of_not_isPrefix untouched below, eq_comm, lexicalPath_eq_error_iff]
    rw [absolute_of_isAbsolute w absolute] at below ⊢
    by_cases up : .up ∈ Path.parts path
    · simp only [up, absolute, below, not_false_eq_true, true_and, forall_const]
    · refine iff_of_true ?_ (absurd · up)
      rwa [← Path.parts_isPrefix_iff root plain absolute up]

end Written

/-- A workspace on an empty disk. -/
def bare : Workspace := ofFiles "/project" {} []

/-- A path with `..` inside the root keeps it; one that passes the root by is refused. -/
theorem projectPath_lexicalPath_bare :
    (Path.isAbsolute bare.root ∧ .up ∉ Path.parts bare.root
      ∧ bare.Untouched {} "src//./a.lua" ∧ bare.Untouched {} "src/../a.lua"
      ∧ bare.Untouched {} "/other/../projects/a.lua")
    ∧ bare.projectPath {} "src//./a.lua" = bare.lexicalPath "src//./a.lua"
    ∧ bare.projectPath {} "src/../a.lua" ≠ bare.lexicalPath "src/../a.lua"
    ∧ bare.projectPath {} "/other/../projects/a.lua"
      = bare.lexicalPath "/other/../projects/a.lua" := by
  have root : Path.isAbsolute bare.root := by decide +kernel
  have plain : .up ∉ Path.parts bare.root := by decide +kernel
  have untouched (path) (nothing : Disk.canonical? {} (bare.absolute path) = none) :
      bare.Untouched {} path := untouched_of_canonical?_eq_none nothing
  have dots := untouched "src//./a.lua" (by decide +kernel)
  have up := untouched "src/../a.lua" (by decide +kernel)
  have away := untouched "/other/../projects/a.lua" (by decide +kernel)
  refine ⟨⟨root, plain, dots, up, away⟩, ?_, ?_, ?_⟩
  · exact (projectPath_eq_lexicalPath_iff root plain dots).mpr (by decide +kernel)
  · exact mt (projectPath_eq_lexicalPath_iff root plain up).mp (by decide +kernel)
  · exact (projectPath_eq_lexicalPath_iff root plain away).mpr (by decide +kernel)

/-- Not every path is taken by the place that it leads to.  A path out of the root is taken, two
paths to one place are taken under two names, and a way around into the root is refused. -/
theorem not_forall_projectPath_eq_lexicalPath :
    ¬ (∀ (w : Workspace) (disk : Disk) (path : String), Path.isAbsolute w.root →
        .up ∉ Path.parts w.root → disk.canonical? (w.absolute path) = none →
        w.projectPath disk path = w.lexicalPath path)
    ∧ bare.projectPath {} "../a.lua" = .ok "../a.lua"
    ∧ bare.lexicalPath "../a.lua" = .error (.outsideRoot "../a.lua")
    ∧ bare.projectPath {} "src/../a.lua" = .ok "src/../a.lua"
    ∧ bare.lexicalPath "src/../a.lua" = .ok "a.lua"
    ∧ bare.projectPath {} "/other/../project/a.lua"
      = .error (.outsideRoot "/other/../project/a.lua")
    ∧ bare.lexicalPath "/other/../project/a.lua" = .ok "a.lua" := by
  refine ⟨fun all => ?_, rfl, rfl, rfl, rfl, rfl, rfl⟩
  have same : Except.ok "../a.lua" = Except.error (WorkspaceError.outsideRoot "../a.lua") :=
    all bare {} "../a.lua" (by decide +kernel) (by decide +kernel) (by decide +kernel)
  exact nomatch same

end Workspace

end LuaTyping
