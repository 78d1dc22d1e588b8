import Mathlib.Data.List.Basic
import Mathlib.Data.List.Induction
import Mathlib.Data.List.Nodup
import LuaTyping.Proofs.Infer.Made

/-!
# Insertions into projects

A project of inserted files is a map from paths to texts.  The texts come one after the other, each
under some spelling of its path, and the project has to find out which of them are the same path:
it brings a path into its form when a text is inserted, once more when the text is parsed, and when
a path is looked up.  That this is done three times does no harm, for a path in its form stays as
it is (`normalizePath_normalizePath`).

The files know their paths, and the index knows the numbers of paths.  An insertion writes to one of
them or to both, and each stays the inverse of the other.

* `Project.insert_known`, `Project.insert_new`: what an insertion does to the files and the index.
* `Project.Indexed`: a path has a number just if a file has the path, and the file has the number.
* `Project.Keeps`: the project is the map that the insertions make, and the number of a path is the
  number of different paths before it.
* `Project.keeps_ofFiles`, `Project.Keeps.insert`: it stays so, insertion by insertion.
* `Project.Keeps.fileId?_eq_some_iff`, `Project.Keeps.text?_eq`: what is found under a path.
-/

namespace LuaTyping

/-! ## Paths in their form -/

theorem withSlashes_eq_self {cs : List Char} (h : '\\' ∉ cs) : withSlashes cs = cs := by
  rw [withSlashes]
  refine (List.map_congr_left fun c mem => ?_).trans (List.map_id cs)
  rw [if_neg]
  · rfl
  · rintro rfl
    exact h mem

theorem backslash_not_mem_withSlashes (cs : List Char) : '\\' ∉ withSlashes cs := by
  intro mem
  obtain ⟨c, -, eq⟩ := List.mem_map.mp mem
  split at eq
  · exact absurd eq (by decide)
  · exact absurd eq ‹_›

theorem dropHere_suffix (cs : List Char) : dropHere cs <:+ cs := by
  fun_induction dropHere cs with
  | case1 cs ih => exact ih.trans ((List.suffix_cons _ _).trans (List.suffix_cons _ _))
  | case2 cs _ => exact List.suffix_rfl

theorem dropHere_dropHere (cs : List Char) : dropHere (dropHere cs) = dropHere cs := by
  fun_induction dropHere cs with
  | case1 cs ih => exact ih
  | case2 cs other => rw [dropHere.eq_2 cs other]

/-- A path in its form stays as it is. -/
theorem normalizePath_normalizePath (path : String) :
    normalizePath (normalizePath path) = normalizePath path := by
  have plain : '\\' ∉ dropHere (withSlashes path.toList) := fun mem =>
    backslash_not_mem_withSlashes _ ((dropHere_suffix _).subset mem)
  rw [normalizePath, normalizePath, String.toList_ofList, withSlashes_eq_self plain,
    dropHere_dropHere]

/-! ## The order of first occurrences -/

section FirstOccurrences

variable {α : Type} [BEq α] [LawfulBEq α]

theorem eraseDups_concat_of_mem {as : List α} {a : α} (known : a ∈ as) :
    (as ++ [a]).eraseDups = as.eraseDups := by
  rw [List.eraseDups_append, List.removeAll, List.filter_cons, List.filter_nil]
  simp [known]

theorem eraseDups_concat_of_not_mem {as : List α} {a : α} (new : a ∉ as) :
    (as ++ [a]).eraseDups = as.eraseDups ++ [a] := by
  rw [List.eraseDups_append, List.removeAll, List.filter_cons, List.filter_nil]
  simp [new, List.eraseDups_cons]

end FirstOccurrences

namespace Project

variable {p : Project} {path text : String}

/-! ## What an insertion does -/

/-- A new path gets the next number. -/
theorem insert_new (new : p.fileId? path = none) :
    p.insert path text
      = (p.size, { p with
          files := p.files.push (.parse p.size (normalizePath path) text)
          byPath := p.byPath.insert (normalizePath path) p.size }) := by
  rw [fileId?] at new
  unfold insert
  dsimp only
  rw [new]

/-- A known path keeps its number. -/
theorem insert_known {id : Nat} (known : p.fileId? path = some id) :
    p.insert path text
      = (id,
        { p with files := p.files.setIfInBounds id (.parse id (normalizePath path) text) }) := by
  rw [fileId?] at known
  unfold insert
  dsimp only
  rw [known]

/-- A file with a new path stands behind the others. -/
theorem files_insert (new : p.fileId? path = none) :
    (p.insert path text).2.files = p.files.push (.parse p.size (normalizePath path) text) := by
  rw [insert_new new]

theorem size_insert (new : p.fileId? path = none) :
    (p.insert path text).2.size = p.size + 1 := by
  rw [size, files_insert new, Array.size_push, size]

theorem size_insert_known {id : Nat} (known : p.fileId? path = some id) :
    (p.insert path text).2.size = p.size := by
  rw [insert_known known, size, Array.size_setIfInBounds, size]

/-- The other files stay. -/
theorem file?_insert_of_ne {i : Nat} (other : i ≠ (p.insert path text).1) :
    (p.insert path text).2.file? i = p.file? i := by
  cases found : p.fileId? path with
  | none =>
    rw [insert_new found] at other
    have inner : ¬ i = p.files.size := other
    rw [file?, file?, files_insert found, Array.getElem?_push, if_neg inner]
  | some id =>
    rw [insert_known found] at other ⊢
    rw [file?, file?, Array.getElem?_setIfInBounds_ne other.symm]

/-! ### New paths -/

theorem file?_insert (new : p.fileId? path = none) {i : Nat} (old : i < p.size) :
    (p.insert path text).2.file? i = p.file? i := by
  refine file?_insert_of_ne ?_
  rw [insert_new new]
  exact Nat.ne_of_lt old

theorem tree_insert (new : p.fileId? path = none) {i : Nat} (old : i < p.size) :
    (p.insert path text).2.tree i = p.tree i := by
  rw [tree, tree, file?_insert new old]

theorem scopes_insert (new : p.fileId? path = none) {i : Nat} (old : i < p.size) :
    (p.insert path text).2.scopes i = p.scopes i := by
  rw [scopes, scopes, file?_insert new old]

/-! ## Look-up -/

/-- The paths of the files, in the order of their numbers. -/
def paths (p : Project) : List String := p.files.toList.map SourceFile.path

/-- The text that is found under a path. -/
def text? (p : Project) (path : String) : Option String :=
  ((p.fileId? path).bind p.file?).map SourceFile.text

theorem paths_getElem? (p : Project) (i : Nat) :
    p.paths[i]? = (p.file? i).map SourceFile.path := by
  rw [paths, List.getElem?_map, file?, Array.getElem?_toList]

/-- The index is the inverse of the paths of the files: a path has a number just if it is the path
of the file with this number. -/
def Indexed (p : Project) : Prop :=
  ∀ path i, p.byPath.get? path = some i ↔ p.paths[i]? = some path

theorem indexed_empty (patterns : List String) : (empty patterns).Indexed :=
  fun _ _ => iff_of_false nofun nofun

namespace Indexed

/-- No two files have one path, since the path has one number. -/
theorem nodup_paths (h : p.Indexed) : p.paths.Nodup := by
  refine List.nodup_iff_getElem?_ne_getElem?.mpr fun i j before inside same => ?_
  have place : p.paths[j]? = some p.paths[j] := List.getElem?_eq_getElem inside
  have number := (h _ j).mpr place
  have number' := (h _ i).mpr (same.trans place)
  exact Nat.ne_of_lt before (Option.some.inj (number'.symm.trans number))

/-- A path without a number is the path of no file. -/
theorem fileId?_eq_none_iff (h : p.Indexed) :
    p.fileId? path = none ↔ normalizePath path ∉ p.paths := by
  rw [fileId?, List.mem_iff_getElem?, Option.eq_none_iff_forall_ne_some, not_exists]
  exact forall_congr' fun i => not_congr (h _ i)

/-- A path has the number of the file that has its form. -/
theorem fileId?_eq_some_iff (h : p.Indexed) {i : Nat} :
    p.fileId? path = some i ↔ ∃ f, p.file? i = some f ∧ f.path = normalizePath path := by
  rw [fileId?, h, paths_getElem?, Option.map_eq_some_iff]

/-- The inserted file stands under the number that is answered. -/
theorem file?_insert_self (h : p.Indexed) (path text : String) :
    (p.insert path text).2.file? (p.insert path text).1
      = some (.parse (p.insert path text).1 (normalizePath path) text) := by
  cases found : p.fileId? path with
  | none =>
    rw [insert_new found, file?, size, Array.getElem?_push_size]
  | some id =>
    obtain ⟨f, at_id, -⟩ := h.fileId?_eq_some_iff.mp found
    obtain ⟨inside, -⟩ := Array.getElem?_eq_some_iff.mp at_id
    rw [insert_known found, file?, Array.getElem?_setIfInBounds_self_of_lt inside]

/-- A new path comes behind the others. -/
theorem paths_insert_new (new : p.fileId? path = none) (text : String) :
    (p.insert path text).2.paths = p.paths ++ [normalizePath path] := by
  rw [paths, files_insert new, Array.toList_push, List.map_append, List.map_singleton, paths,
    SourceFile.parse, normalizePath_normalizePath]

/-- A known path stays where it is. -/
theorem paths_insert_known (h : p.Indexed) {id : Nat} (known : p.fileId? path = some id)
    (text : String) : (p.insert path text).2.paths = p.paths := by
  obtain ⟨inside, at_path⟩ := List.getElem?_eq_some_iff.mp ((h _ _).mp known)
  have same : (SourceFile.parse id (normalizePath path) text).path = p.paths[id] := by
    rw [at_path]
    exact normalizePath_normalizePath path
  rw [insert_known known, paths, Array.toList_setIfInBounds, List.map_set, same]
  exact List.set_getElem_self inside

/-- The index stays the inverse of the paths. -/
theorem insert (h : p.Indexed) (path text : String) : (p.insert path text).2.Indexed := by
  cases found : p.fileId? path with
  | some id =>
    have paths := h.paths_insert_known found text
    have byPath : (p.insert path text).2.byPath = p.byPath := by rw [insert_known found]
    exact fun path' i => by rw [paths, byPath, h]
  | none =>
    have absent := h.fileId?_eq_none_iff.mp found
    have paths := paths_insert_new found text
    have byPath : (p.insert path text).2.byPath
        = p.byPath.insert (normalizePath path) p.size := by rw [insert_new found]
    have length : p.paths.length = p.size := by
      rw [Project.paths, List.length_map, Array.length_toList, size]
    intro path' i
    rw [paths, byPath]
    by_cases own : path' = normalizePath path
    · -- the path stands behind the others and nowhere among them
      rw [own, PathIndex.get?_insert_self, Option.some.injEq, ← length, List.getElem?_append,
        List.getElem?_singleton]
      constructor
      · rintro rfl
        rw [if_neg (Nat.lt_irrefl _), Nat.sub_self, if_pos rfl]
      · intro place
        split at place
        · exact absurd (List.mem_of_getElem? place) absent
        · split at place
          · omega
          · exact absurd place (Option.some_ne_none _).symm
    · rw [PathIndex.get?_insert_of_ne _ _ own, h, List.getElem?_append, List.getElem?_singleton]
      split
      · rfl
      · next outside =>
        rw [List.getElem?_eq_none (Nat.le_of_not_lt outside)]
        split
        · simp [Ne.symm own]
        · rfl

end Indexed

/-! ## What is kept -/

/-- The text that was inserted last under a path, in whatever spelling. -/
def lastText? (inserts : List (String × String)) (path : String) : Option String :=
  (inserts.reverse.find? fun e => normalizePath e.1 == normalizePath path).map Prod.snd

theorem lastText?_concat_of_eq {inserts : List (String × String)} {path' : String}
    (same : normalizePath path = normalizePath path') :
    lastText? (inserts ++ [(path, text)]) path' = some text := by
  have here : (normalizePath path == normalizePath path') = true := beq_iff_eq.mpr same
  simp only [lastText?, List.reverse_append, List.reverse_singleton, List.singleton_append,
    List.find?_cons, here, Option.map_some]

theorem lastText?_concat_of_ne {inserts : List (String × String)} {path' : String}
    (other : normalizePath path ≠ normalizePath path') :
    lastText? (inserts ++ [(path, text)]) path' = lastText? inserts path' := by
  rw [lastText?, List.reverse_append, List.reverse_singleton, List.singleton_append,
    List.find?_cons_of_neg (by simpa using other), lastText?]

theorem lastText?_eq_none {inserts : List (String × String)}
    (absent : normalizePath path ∉ inserts.map fun e => normalizePath e.1) :
    lastText? inserts path = none := by
  rw [lastText?, Option.map_eq_none_iff, List.find?_eq_none]
  intro e mem same
  exact absent (List.mem_map.mpr ⟨e, List.mem_reverse.mp mem, beq_iff_eq.mp same⟩)

/-- The project is what insertions made of it.  Every file is the parse of a text under its
number, and the index is the inverse of the paths; the paths are those that were inserted, each
once, in the order in which they came; and the text of a file is the one that was inserted last
under its path. -/
structure Keeps (p : Project) (inserts : List (String × String)) : Prop where
  stocked : p.Stocked
  indexed : p.Indexed
  paths_eq : p.paths = (inserts.map fun e => normalizePath e.1).eraseDups
  last : ∀ i f, p.file? i = some f → lastText? inserts f.path = some f.text

theorem keeps_empty (patterns : List String) : (empty patterns).Keeps [] :=
  ⟨fun i f found => by simp [empty, file?] at found, indexed_empty patterns, rfl,
    fun i f found => by simp [empty, file?] at found⟩

namespace Keeps

variable {inserts : List (String × String)} {i : Nat} {f : SourceFile}

theorem numbered (h : p.Keeps inserts) : p.Numbered := h.stocked.numbered

/-- Paths are kept in their form. -/
theorem normalizePath_path (h : p.Keeps inserts) (found : p.file? i = some f) :
    normalizePath f.path = f.path := by
  obtain ⟨path, text, rfl⟩ := h.stocked i f found
  exact normalizePath_normalizePath path

theorem fileId?_eq_some_iff (h : p.Keeps inserts) :
    p.fileId? path = some i ↔ ∃ f, p.file? i = some f ∧ f.path = normalizePath path :=
  h.indexed.fileId?_eq_some_iff

theorem fileId?_eq_none_iff (h : p.Keeps inserts) :
    p.fileId? path = none ↔ normalizePath path ∉ inserts.map fun e => normalizePath e.1 := by
  rw [h.indexed.fileId?_eq_none_iff, h.paths_eq, List.mem_eraseDups]

/-- Under a path is found what was inserted last under it. -/
theorem text?_eq (h : p.Keeps inserts) (path : String) :
    p.text? path = lastText? inserts path := by
  rw [text?]
  cases found : p.fileId? path with
  | none =>
    rw [lastText?_eq_none (h.fileId?_eq_none_iff.mp found)]
    rfl
  | some i =>
    obtain ⟨f, at_i, same⟩ := h.fileId?_eq_some_iff.mp found
    have last := h.last i f at_i
    rw [lastText?, h.normalizePath_path at_i, same] at last
    rw [Option.bind_some, at_i, Option.map_some, ← last, lastText?]

/-- A new path comes behind the others, and a known one stays where it is. -/
theorem paths_insert (h : p.Keeps inserts) (path text : String) :
    (p.insert path text).2.paths
      = ((inserts ++ [(path, text)]).map fun e => normalizePath e.1).eraseDups := by
  rw [List.map_append, List.map_singleton]
  cases found : p.fileId? path with
  | none =>
    rw [eraseDups_concat_of_not_mem (h.fileId?_eq_none_iff.mp found), ← h.paths_eq,
      Indexed.paths_insert_new found]
  | some id =>
    have known := Option.ne_none_iff_exists'.mpr ⟨id, found⟩
    rw [Ne, h.fileId?_eq_none_iff, not_not] at known
    rw [eraseDups_concat_of_mem known, ← h.paths_eq, h.indexed.paths_insert_known found]

/-- An insertion is kept. -/
theorem insert (h : p.Keeps inserts) (path text : String) :
    (p.insert path text).2.Keeps (inserts ++ [(path, text)]) := by
  have indexed := h.indexed.insert path text
  refine ⟨h.stocked.insert path text, indexed, h.paths_insert path text, fun i f found => ?_⟩
  have self := h.indexed.file?_insert_self path text
  by_cases same : i = (p.insert path text).1
  · rw [same, self] at found
    cases found
    refine lastText?_concat_of_eq ?_
    rw [SourceFile.parse, normalizePath_normalizePath, normalizePath_normalizePath]
  · have old := found
    rw [file?_insert_of_ne same] at old
    rw [lastText?_concat_of_ne ?_, h.last i f old]
    -- were the path that of the insertion, the file would stand under two numbers
    intro samePath
    rw [h.normalizePath_path old] at samePath
    have place : (p.insert path text).2.paths[i]? = some (normalizePath path) := by
      rw [paths_getElem?, found, Option.map_some, samePath]
    have place' : (p.insert path text).2.paths[(p.insert path text).1]?
        = some (normalizePath path) := by
      rw [paths_getElem?, self, Option.map_some, SourceFile.parse, normalizePath_normalizePath]
    have number := (indexed _ _).mpr place
    have number' := (indexed _ _).mpr place'
    exact same (Option.some.inj (number.symm.trans number'))

/-- Many insertions are kept. -/
theorem insertMany (h : p.Keeps inserts) (files : List (String × String)) :
    (files.foldl (fun p f => (p.insert f.1 f.2).2) p).Keeps (inserts ++ files) := by
  induction files generalizing p inserts with
  | nil => rwa [List.append_nil]
  | cons f fs ih =>
    have rest := ih (h.insert f.1 f.2)
    rwa [List.append_assoc] at rest

/-- What is inserted later does not change the number of a path. -/
theorem fileId?_of_later {q : Project} {later : List (String × String)} (h : p.Keeps inserts)
    (h' : q.Keeps (inserts ++ later)) (found : p.fileId? path = some i) :
    q.fileId? path = some i := by
  obtain ⟨f, at_i, same⟩ := h.fileId?_eq_some_iff.mp found
  have first : p.paths <+: q.paths := by
    rw [h.paths_eq, h'.paths_eq, List.map_append, List.eraseDups_append]
    exact List.prefix_append _ _
  have place : p.paths[i]? = some (normalizePath path) := by
    rw [paths_getElem?, at_i, Option.map_some, same]
  obtain ⟨inside, at_path⟩ := List.getElem?_eq_some_iff.mp place
  have place' := List.prefix_iff_getElem?.mp first i inside
  rw [paths_getElem?, at_path] at place'
  exact h'.fileId?_eq_some_iff.mpr (Option.map_eq_some_iff.mp place')

end Keeps

/-- A project of inserted files keeps them. -/
theorem keeps_ofFiles (patterns : List String) (files : List (String × String)) :
    (ofFiles patterns files).Keeps files :=
  (keeps_empty patterns).insertMany files

end Project

end LuaTyping
