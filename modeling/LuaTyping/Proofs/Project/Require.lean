import Mathlib.Data.List.Forall2
import Mathlib.Data.List.MinMax
import Mathlib.Data.List.Nodup
import Mathlib.Data.Prod.Lex
import LuaTyping.Project.Require
import LuaTyping.Proofs.Text.Pieces
import LuaTyping.Proofs.Disk.Path

/-!
# The file that a module is

The search for a module goes through the patterns, then through the directory of the file that
requires it, and then through all paths that end like the module.  What it finds is said here
without the search: in which paths a module is looked for, which of them comes first, and which file
is the closest of those that end like the module.  Nothing of this depends on the order of the
files, as long as no two of them have the same path.

* `Require.Names`, `Require.Fills`, `Require.LiesIn`, `Require.Stem`: module names, patterns,
  directories, and paths as modules.
* `Require.Tries`, `Require.Fits`: the paths that are tried, and the files that end like a module.
* `Require.Finds`: the file that a module is.
* `Require.resolve?_eq_iff_finds`: the search finds it, whatever the order of the files.
-/

namespace LuaTyping

namespace Require

variable {patterns paths : List String} {module m origin path pattern directory : String}
  {files : List (Nat × String)} {r : Option Nat} {cs rest ending : List Char}

/-! ## Names of modules -/

/-- The module stands for the path: blanks apart, it is the path with points for the slashes. -/
def Names (module path : String) : Prop :=
  ∃ name, name ≠ [] ∧ Trims module.toList name ∧ Replaces '.' ['/'] name path.toList

theorem modulePath?_eq_some_iff : modulePath? module = some path ↔ Names module path := by
  have slashes (name : List Char) : (name.map fun c => if c = '.' then '/' else c)
      = name.flatMap fun c => if c = '.' then ['/'] else [c] := by
    rw [List.map_eq_flatMap]
    refine List.flatMap_congr fun c _ => ?_
    split <;> rfl
  rw [modulePath?]
  constructor
  · intro found
    split at found
    · cases found
    · next filled =>
      obtain rfl := Option.some.inj found
      refine ⟨_, filled, trims_trimBlanks _, replaces_iff.mpr ?_⟩
      rw [String.toList_ofList, slashes]
  · rintro ⟨name, filled, trims, replaces⟩
    rw [trims_iff.mp trims]
    split
    · exact absurd rfl filled
    · rw [slashes, replaces_iff.mp replaces, String.ofList_toList]

theorem modulePath?_eq_none_iff : modulePath? module = none ↔ allBlank module = true := by
  rw [allBlank, List.all_eq_true, ← trims_nil_iff, trims_iff, modulePath?]
  split <;> simp_all

/-! ## Paths that are tried -/

/-- A path is the pattern with the module path for its question marks. -/
def Fills (m pattern path : String) : Prop := Replaces '?' m.toList pattern.toList path.toList

theorem fills_iff : Fills m pattern path ↔ fill pattern m = path := by
  rw [Fills, replaces_iff, fill, ← String.toList_inj, String.toList_ofList]

/-- A file lies in a directory: behind a last slash stands its name. -/
def LiesIn (path directory : String) : Prop :=
  ∃ name : String, '/' ∉ name.toList ∧ path = directory ++ "/" ++ name

theorem bne_slash_of_mem_reverse (flat : '/' ∉ cs) : ∀ c ∈ cs.reverse, (c != '/') = true := by
  intro c mem
  refine bne_iff_ne.mpr ?_
  rintro rfl
  exact flat (List.mem_reverse.mp mem)

theorem directory?_of_not_mem (flat : '/' ∉ path.toList) : directory? path = none := by
  have all : path.toList.reverse.takeWhile (· != '/') = path.toList.reverse :=
    List.takeWhile_eq_self_iff.mpr (bne_slash_of_mem_reverse flat)
  rw [directory?, all, List.length_reverse, String.length_toList, if_neg (Nat.lt_irrefl _)]

theorem directory?_append {name : String} (flat : '/' ∉ name.toList) :
    directory? (directory ++ "/" ++ name) = some directory := by
  have behind : (directory ++ "/" ++ name).toList.reverse.takeWhile (· != '/')
      = name.toList.reverse := by
    rw [String.toList_append, String.toList_append, List.reverse_append, List.reverse_append,
      List.takeWhile_append_of_pos (bne_slash_of_mem_reverse flat)]
    simp
  have width : (directory ++ "/" ++ name).length = directory.length + 1 + name.length := by
    rw [String.length_append, String.length_append]
    rfl
  have front : (directory ++ "/" ++ name).toList.take directory.length = directory.toList := by
    rw [String.append_assoc, String.toList_append, ← String.length_toList, List.take_left' rfl]
  rw [directory?, behind, List.length_reverse, String.length_toList, width, if_pos (by omega),
    Nat.add_sub_cancel, Nat.add_sub_cancel, front, String.ofList_toList]

/-- A path without slashes is in no directory, and every other one is cut at its last slash. -/
theorem liesIn_cases (path : String) : '/' ∉ path.toList ∨ ∃ directory, LiesIn path directory := by
  by_cases flat : '/' ∈ path.toList
  · obtain ⟨name, front, cut, plain⟩ := List.eq_append_cons_of_mem (List.mem_reverse.mpr flat)
    refine .inr ⟨String.ofList front.reverse, String.ofList name.reverse, by simpa using plain, ?_⟩
    rw [← String.toList_inj, ← List.reverse_inj, cut]
    simp
  · exact .inl flat

theorem directory?_eq_some_iff : directory? path = some directory ↔ LiesIn path directory := by
  constructor
  · intro found
    rcases liesIn_cases path with flat | ⟨other, name, flat, rfl⟩
    · rw [directory?_of_not_mem flat] at found
      cases found
    · rw [directory?_append flat] at found
      exact ⟨name, flat, by rw [Option.some.inj found]⟩
  · rintro ⟨name, flat, rfl⟩
    exact directory?_append flat

theorem directory?_eq_none_iff : directory? path = none ↔ ∀ directory, ¬ LiesIn path directory := by
  simp only [← directory?_eq_some_iff, Option.eq_none_iff_forall_ne_some, ne_eq]

/-- The paths that are tried for a module, first to last: what the patterns make of it, and if the
file that requires it lies in a directory, then the same in this directory. -/
def Tries (patterns : List String) (m origin : String) (paths : List String) : Prop :=
  ∃ plain, List.Forall₂ (Fills m) patterns plain
    ∧ ((paths = plain ∧ ∀ directory, ¬ LiesIn origin directory)
      ∨ ∃ directory, LiesIn origin directory
        ∧ paths = plain ++ plain.map fun path => directory ++ "/" ++ path)

theorem forall₂_fills_iff :
    List.Forall₂ (Fills m) patterns paths ↔ patterns.map (fun p => fill p m) = paths := by
  have fills : Fills m = fun p path => fill p m = path := by
    funext p path
    exact propext fills_iff
  rw [fills, ← List.forall₂_map_left_iff (R := Eq), List.forall₂_eq_eq_eq]

theorem tries_iff : Tries patterns m origin paths ↔ candidates patterns m origin = paths := by
  simp only [Tries, forall₂_fills_iff, exists_eq_left']
  rw [← directory?_eq_none_iff, candidates]
  simp only [← directory?_eq_some_iff]
  cases directory? origin <;> simp [eq_comm]

/-! ## Paths as modules -/

/-- What is left of a path without an ending; a path that does not end so is left as it is. -/
def Without (ending cs rest : List Char) : Prop :=
  cs = rest ++ ending ∨ (¬ ending <:+ cs ∧ cs = rest)

theorem without_iff : Without ending cs rest ↔ dropEnding ending cs = rest := by
  rw [dropEnding]
  simp only [List.isSuffixOf_iff_suffix]
  constructor
  · rintro (rfl | ⟨other, rfl⟩)
    · rw [if_pos (List.suffix_append _ _), List.length_append, Nat.add_sub_cancel, List.take_left']
      rfl
    · exact if_neg other
  · rintro rfl
    split
    · next ends => exact .inl (List.suffix_iff_eq_append.mp ends).symm
    · next other => exact .inr ⟨other, rfl⟩

/-- The path as a module: without `.lua`, and then without the `/init` of a directory. -/
def Stem (path : String) (stem : List Char) : Prop :=
  ∃ file, Without ".lua".toList path.toList file ∧ Without "/init".toList file stem

theorem stem_iff {s : List Char} : Stem path s ↔ stem path = s := by
  simp only [Stem, without_iff, exists_eq_left']
  exact Iff.rfl

/-- The path as a module ends with the parts of the module path. -/
def Fits (m path : String) : Prop :=
  ∃ stem, Stem path stem ∧ m.toList.splitOn '/' <:+ stem.splitOn '/'

theorem fits_iff : Fits m path ↔ endsWith path (slashParts m.toList) = true := by
  simp only [Fits, stem_iff, endsWith, slashParts_eq_splitOn, List.isSuffixOf_iff_suffix,
    exists_eq_left']

/-! ## The two searches -/

/-- The number of the first file with a path. -/
def fileAt? (files : List (Nat × String)) (path : String) : Option Nat :=
  (files.find? fun f => f.2 == path).map Prod.fst

theorem fileAt?_eq_none_iff : fileAt? files path = none ↔ ∀ g ∈ files, g.2 ≠ path := by
  rw [fileAt?, Option.map_eq_none_iff, List.find?_eq_none]
  simp only [beq_iff_eq, ne_eq]

theorem exists_of_fileAt? {i : Nat} (found : fileAt? files path = some i) :
    ∃ f ∈ files, f.2 = path ∧ f.1 = i := by
  obtain ⟨f, first, rfl⟩ := Option.map_eq_some_iff.mp found
  have same := List.find?_some first
  exact ⟨f, List.mem_of_find?_eq_some first, beq_iff_eq.mp same, rfl⟩

/-- If no two files have the same path, the order of the files does not matter. -/
theorem fileAt?_of_mem (distinct : (files.map Prod.snd).Nodup) {f : Nat × String}
    (mem : f ∈ files) :
    fileAt? files f.2 = some f.1 := by
  cases found : fileAt? files f.2 with
  | none => exact absurd rfl (fileAt?_eq_none_iff.mp found f mem)
  | some i =>
    obtain ⟨g, mem', same, rfl⟩ := exists_of_fileAt? found
    rw [List.inj_on_of_nodup_map distinct mem' mem same]

/-- By what the files that end like a module are compared: the length of the path, and the number
of the file. -/
def nearness (f : Nat × String) : ℕ ×ₗ ℕ := toLex (f.2.utf8ByteSize, f.1)

theorem closer_iff {f g : Nat × String} : closer f g = true ↔ nearness f < nearness g := by
  rw [nearness, nearness, Prod.Lex.toLex_lt_toLex]
  simp [closer]

theorem closest_eq_argmin (files : List (Nat × String)) :
    closest files = files.argmin nearness := by
  rw [closest, List.argmin]
  congr 1
  funext best f
  cases best with
  | none => rfl
  | some b => exact if_congr closer_iff rfl rfl

/-- The closest of the files that end like a module. -/
def closestFit? (files : List (Nat × String)) (m : String) : Option (Nat × String) :=
  closest (files.filter fun f => endsWith f.2 (slashParts m.toList))

theorem mem_fits_iff {f : Nat × String} :
    f ∈ files.filter (fun f => endsWith f.2 (slashParts m.toList)) ↔ f ∈ files ∧ Fits m f.2 := by
  rw [List.mem_filter, ← fits_iff]

theorem closestFit?_eq_none_iff : closestFit? files m = none ↔ ∀ g ∈ files, ¬ Fits m g.2 := by
  rw [closestFit?, closest_eq_argmin, List.argmin_eq_none, List.eq_nil_iff_forall_not_mem]
  simp only [mem_fits_iff, not_and, Prod.forall]

theorem of_closestFit? {f : Nat × String} (found : closestFit? files m = some f) :
    f ∈ files ∧ Fits m f.2 ∧ ∀ g ∈ files, Fits m g.2 → nearness f ≤ nearness g := by
  rw [closestFit?, closest_eq_argmin] at found
  obtain ⟨mem, fits⟩ := mem_fits_iff.mp (List.argmin_mem found)
  exact ⟨mem, fits, fun g mem' fits' =>
    List.le_of_mem_argmin (mem_fits_iff.mpr ⟨mem', fits'⟩) found⟩

/-- A named module is looked for in the paths that are tried, and then among the files that end
like it. -/
theorem resolve?_of_names (names : Names module m) (tries : Tries patterns m origin paths) :
    resolve? patterns files module origin
      = (paths.findSome? (fileAt? files)).or ((closestFit? files m).map Prod.fst) := by
  rw [resolve?, modulePath?_eq_some_iff.mpr names, ← tries_iff.mp tries]
  rfl

/-! ## What is found -/

/-- The file that a module required from `origin` is: nothing for a blank name; else the file with
the first of the tried paths that is the path of a file; and if none is, then of the files that end
like the module the one with the shortest path and of these the lowest number. -/
inductive Finds (patterns : List String) (files : List (Nat × String)) (module origin : String) :
    Option Nat → Prop
  | blank : allBlank module = true → Finds patterns files module origin none
  | exact {m : String} {before after : List String} {f : Nat × String} :
      Names module m → Tries patterns m origin (before ++ f.2 :: after) →
      f ∈ files → (∀ g ∈ files, g.2 ∉ before) →
      Finds patterns files module origin (some f.1)
  | inexact {m : String} {paths : List String} {f : Nat × String} :
      Names module m → Tries patterns m origin paths → (∀ g ∈ files, g.2 ∉ paths) →
      f ∈ files → Fits m f.2 → (∀ g ∈ files, Fits m g.2 → nearness f ≤ nearness g) →
      Finds patterns files module origin (some f.1)
  | missing {m : String} {paths : List String} :
      Names module m → Tries patterns m origin paths → (∀ g ∈ files, g.2 ∉ paths) →
      (∀ g ∈ files, ¬ Fits m g.2) → Finds patterns files module origin none

/-- What the search answers is the file that the module is. -/
theorem finds_resolve? (patterns : List String) (files : List (Nat × String))
    (module origin : String) :
    Finds patterns files module origin (resolve? patterns files module origin) := by
  cases found : modulePath? module with
  | none =>
    rw [resolve?, found]
    exact .blank (modulePath?_eq_none_iff.mp found)
  | some m =>
    have names := modulePath?_eq_some_iff.mp found
    have tries := tries_iff.mpr (Eq.refl (candidates patterns m origin))
    rw [resolve?_of_names names tries]
    cases first : (candidates patterns m origin).findSome? (fileAt? files) with
    | some i =>
      obtain ⟨before, path, after, cut, known, unknown⟩ := List.findSome?_eq_some_iff.mp first
      obtain ⟨f, mem, rfl, rfl⟩ := exists_of_fileAt? known
      rw [cut] at tries
      exact .exact names tries mem fun g mem' early =>
        fileAt?_eq_none_iff.mp (unknown g.2 early) g mem' rfl
    | none =>
      have unknown : ∀ g ∈ files, g.2 ∉ candidates patterns m origin := fun g mem tried =>
        fileAt?_eq_none_iff.mp (List.findSome?_eq_none_iff.mp first g.2 tried) g mem rfl
      cases best : closestFit? files m with
      | none => exact .missing names tries unknown (closestFit?_eq_none_iff.mp best)
      | some f =>
        obtain ⟨mem, fits, least⟩ := of_closestFit? best
        exact .inexact names tries unknown mem fits least

/-- A module is one of the files. -/
theorem mem_of_resolve? {id : Nat} (found : resolve? patterns files module origin = some id) :
    ∃ f ∈ files, f.1 = id := by
  have finds := finds_resolve? patterns files module origin
  rw [found] at finds
  cases finds with
  | exact _ _ mem => exact ⟨_, mem, rfl⟩
  | inexact _ _ _ mem => exact ⟨_, mem, rfl⟩

namespace Finds

/-- The search answers the file that the module is. -/
theorem resolve?_eq (distinct : (files.map Prod.snd).Nodup)
    (finds : Finds patterns files module origin r) :
    resolve? patterns files module origin = r := by
  have none_of {paths : List String} (unknown : ∀ g ∈ files, g.2 ∉ paths) :
      paths.findSome? (fileAt? files) = none :=
    List.findSome?_eq_none_iff.mpr fun path tried => fileAt?_eq_none_iff.mpr fun g mem same =>
      unknown g mem (same ▸ tried)
  cases finds with
  | blank blank =>
    rw [resolve?, modulePath?_eq_none_iff.mpr blank]
    rfl
  | exact names tries mem unknown =>
    rw [resolve?_of_names names tries, List.findSome?_append, none_of unknown, List.findSome?_cons,
      fileAt?_of_mem distinct mem]
    rfl
  | inexact names tries unknown mem fits least =>
    rw [resolve?_of_names names tries, none_of unknown, Option.none_or]
    cases best : closestFit? files _ with
    | none => exact absurd fits (closestFit?_eq_none_iff.mp best _ mem)
    | some g =>
      obtain ⟨mem', fits', least'⟩ := of_closestFit? best
      have same := le_antisymm (least' _ mem fits) (least g mem' fits')
      exact congrArg some (congrArg (fun k => (ofLex k).2) same)
  | missing names tries unknown other =>
    rw [resolve?_of_names names tries, none_of unknown, closestFit?_eq_none_iff.mpr other]
    rfl

/-- The order of the files does not matter. -/
theorem perm {files' : List (Nat × String)} (same : files.Perm files')
    (finds : Finds patterns files module origin r) : Finds patterns files' module origin r := by
  have old {g : Nat × String} (mem : g ∈ files') : g ∈ files := same.mem_iff.mpr mem
  cases finds with
  | blank blank => exact .blank blank
  | exact names tries mem unknown =>
    exact .exact names tries (same.mem_iff.mp mem) fun g mem' => unknown g (old mem')
  | inexact names tries unknown mem fits least =>
    exact .inexact names tries (fun g mem' => unknown g (old mem')) (same.mem_iff.mp mem) fits
      fun g mem' => least g (old mem')
  | missing names tries unknown other =>
    exact .missing names tries (fun g mem' => unknown g (old mem')) fun g mem' => other g (old mem')

end Finds

/-- Among files with distinct paths, the search answers just what the module is, and it answers the
same in whatever order the files are. -/
theorem resolve?_eq_iff_finds (patterns : List String) (module origin : String)
    (distinct : (files.map Prod.snd).Nodup) :
    (∀ r, resolve? patterns files module origin = r ↔ Finds patterns files module origin r)
      ∧ ∀ files', files.Perm files' →
        resolve? patterns files' module origin = resolve? patterns files module origin := by
  refine ⟨fun r => ⟨?_, Finds.resolve?_eq distinct⟩, fun files' same => ?_⟩
  · rintro rfl
    exact finds_resolve? patterns files module origin
  · have distinct' : (files'.map Prod.snd).Nodup := (same.map Prod.snd).nodup_iff.mp distinct
    exact ((finds_resolve? patterns files module origin).perm same).resolve?_eq distinct'

/-- Of two files whose paths are of the same length, the one with the lower number is closer. -/
theorem resolve?_eq_iff_finds_closest :
    ([(2, "c/util.lua"), (0, "b/util.lua")].map Prod.snd).Nodup
      ∧ Finds defaultPatterns [(2, "c/util.lua"), (0, "b/util.lua")] "util" "main.lua" (some 0)
      ∧ resolve? defaultPatterns [(0, "b/util.lua"), (2, "c/util.lua")] "util" "main.lua"
        = some 0 := by
  have distinct : ([(2, "c/util.lua"), (0, "b/util.lua")].map Prod.snd).Nodup := by decide
  have found : resolve? defaultPatterns [(2, "c/util.lua"), (0, "b/util.lua")] "util" "main.lua"
      = some 0 := by decide +kernel
  obtain ⟨finds, same⟩ := resolve?_eq_iff_finds defaultPatterns "util" "main.lua" distinct
  exact ⟨distinct, (finds _).mp found, (same _ (.swap _ _ [])).trans found⟩

end Require

end LuaTyping
