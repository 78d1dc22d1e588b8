import LuaTyping.LuaType
import LuaTyping.Project.File
import LuaTyping.Project.Require

/-!
# Projects

A `Project` is a row of files, numbered from zero in the order in which they came, and the
patterns by which they find each other.  Beside the files it keeps an index of their paths.  A path
names at most one file: a text inserted under the path of a file replaces that file and keeps its
number.

* `PathIndex`: the numbers of paths.
* `Project.insert`: adds or replaces a file.
* `Project.fileId?`: the number of the file with a path.
* `Project.require?`: the number of the file that a module is.
-/

namespace LuaTyping

/-- A map from paths to numbers.  No path has two of them. -/
structure PathIndex where
  entries : List (String × Nat)
  nodup : (entries.map Prod.fst).Nodup

namespace PathIndex

instance : EmptyCollection PathIndex := ⟨⟨[], List.nodup_nil⟩⟩

instance : Inhabited PathIndex := ⟨∅⟩

/-- The number of a path. -/
def get? (m : PathIndex) (path : String) : Option Nat := m.entries.lookup path

/-- Gives a path a number, in the place of the one that it has. -/
def insert (m : PathIndex) (path : String) (id : Nat) : PathIndex where
  entries := (path, id) :: m.entries.filter fun e => e.1 != path
  nodup := by
    refine List.nodup_cons.mpr ⟨fun mem => ?_, m.nodup.sublist (List.filter_sublist.map _)⟩
    obtain ⟨e, kept, same⟩ := List.mem_map.mp mem
    exact absurd same (bne_iff_ne.mp (List.mem_filter.mp kept).2)

@[simp] theorem get?_empty (path : String) : (∅ : PathIndex).get? path = none := rfl

@[simp] theorem get?_insert_self (m : PathIndex) (path : String) (id : Nat) :
    (m.insert path id).get? path = some id :=
  List.lookup_cons_self

theorem get?_insert_of_ne (m : PathIndex) {path path' : String} (id : Nat) (other : path' ≠ path) :
    (m.insert path id).get? path' = m.get? path' := by
  have head : (path' == path) = false := beq_false_of_ne other
  have others : (m.entries.filter fun e => e.1 != path).lookup path' = m.entries.lookup path' := by
    induction m.entries with
    | nil => rfl
    | cons e entries ih =>
      by_cases same : e.1 = path
      · rw [List.filter_cons_of_neg (by simp [same]), ih, List.lookup_cons, same, head]
      · rw [List.filter_cons_of_pos (by simp [same]), List.lookup_cons, List.lookup_cons, ih]
  rw [get?, get?, insert, List.lookup_cons, head, others]

end PathIndex

/-- The files of a project, the index of their paths, and its search patterns. -/
structure Project where
  files : Array SourceFile := #[]
  byPath : PathIndex := ∅
  patterns : List String := defaultPatterns
  deriving Inhabited

namespace Project

/-- A project without files. -/
def empty (patterns : List String) : Project := { patterns := patterns }

/-- The number of files. -/
def size (p : Project) : Nat := p.files.size

/-- The file with a number. -/
def file? (p : Project) (id : Nat) : Option SourceFile := p.files[id]?

/-- The number of the file with a path. -/
def fileId? (p : Project) (path : String) : Option Nat := p.byPath.get? (normalizePath path)

/-- Parses a text as the file with a path, in the place of the file that has the path. -/
def insert (p : Project) (path text : String) : Nat × Project :=
  let path := normalizePath path
  match p.byPath.get? path with
  | some id => (id, { p with files := p.files.setIfInBounds id (.parse id path text) })
  | none =>
    (p.size, { p with
      files := p.files.push (.parse p.size path text)
      byPath := p.byPath.insert path p.size })

/-- The project of paths with their texts. -/
def ofFiles (patterns : List String) (files : List (String × String)) : Project :=
  files.foldl (fun p f => (p.insert f.1 f.2).2) (empty patterns)

/-- Adds a file behind the others, also if one of them has the same path. -/
def push (p : Project) (f : SourceFile) : Project :=
  { p with files := p.files.push f, byPath := p.byPath.insert f.path f.id }

/-- The project of files with their texts, numbered in order. -/
def ofScan (patterns : List String) (files : List (String × String)) : Project :=
  (files.zipIdx.map fun f => SourceFile.parse f.2 f.1.1 f.1.2).foldl push (empty patterns)

/-- The number of the file that a module required from a file is. -/
def require? (p : Project) (module : String) (origin : Nat) : Option Nat :=
  let path := ((p.file? origin).map SourceFile.path).getD ""
  Require.resolve? p.patterns (p.files.toList.map fun f => (f.id, f.path)) module path

/-! ## Nodes by site -/

/-- The tree of a file; an empty one for a number without file. -/
def tree (p : Project) (file : Nat) : Tree :=
  ((p.file? file).map SourceFile.tree).getD ⟨"", #[]⟩

/-- The scopes of a file. -/
def scopes (p : Project) (file : Nat) : Scopes :=
  ((p.file? file).map SourceFile.scopes).getD {}

/-- The kind of the node at a site. -/
def kindAt (p : Project) (s : Site) : NodeKind := (p.tree s.file).kind s.node

end Project

end LuaTyping
