import LuaTyping.Proofs.Project.Insert
import LuaTyping.Proofs.Project.Require

/-!
# Files by their dotted names

Where the first of the patterns is `?.lua`, a file is required by its path without the ending and
with points for the slashes.  The path it makes of the name is the first one that is tried, and no
other file has this path, so neither the directory of the file that requires it nor a longer path
with the same end can come before it.

* `Require.Nameable`: a path that such a name stands for.
* `Project.require?_dotted`: a file is found by its dotted name, from everywhere.
-/

namespace LuaTyping

namespace Require

variable {path : String}

/-! ## Names for paths -/

/-- The name of the module with a path. -/
def dotted (path : String) : String :=
  String.ofList (path.toList.map fun c => if c = '/' then '.' else c)

/-- A path that the name of a module stands for: there is something in it, but no point, and no
blank at an end. -/
structure Nameable (path : String) : Prop where
  filled : path ≠ ""
  plain : '.' ∉ path.toList
  first : ∀ c ∈ path.toList.head?, isBlank c = false
  last : ∀ c ∈ path.toList.getLast?, isBlank c = false

theorem Nameable.names (h : Nameable path) : Names (dotted path) path := by
  have solid {c : Char} (other : isBlank c = false) :
      isBlank (if c = '/' then '.' else c) = false := by
    split
    · decide
    · exact other
  refine ⟨(dotted path).toList, ?_, ⟨⟨[], [], by simp, nofun, nofun⟩, ?_, ?_⟩, ?_⟩
  · simpa [dotted] using h.filled
  · intro c mem
    rw [dotted, String.toList_ofList, List.head?_map] at mem
    obtain ⟨d, first, rfl⟩ := Option.map_eq_some_iff.mp mem
    exact solid (h.first d first)
  · intro c mem
    rw [dotted, String.toList_ofList, List.getLast?_map] at mem
    obtain ⟨d, last, rfl⟩ := Option.map_eq_some_iff.mp mem
    exact solid (h.last d last)
  · rw [replaces_iff, dotted, String.toList_ofList, List.flatMap_map]
    have back : ∀ c ∈ path.toList, (if (if c = '/' then '.' else c) = '.' then ['/']
        else [if c = '/' then '.' else c]) = [c] := by
      intro c mem
      by_cases slash : c = '/'
      · rw [if_pos (if_pos slash), slash]
      · have other : c ≠ '.' := fun point => h.plain (point ▸ mem)
        rw [if_neg slash, if_neg other]
    rw [List.flatMap_congr back, List.flatMap_singleton']

/-- The first pattern makes the first path that is tried. -/
theorem exists_tries_cons (pattern : String) (patterns : List String) (m origin : String) :
    ∃ after, Tries (pattern :: patterns) m origin (fill pattern m :: after) := by
  simp only [tries_iff, candidates]
  cases directory? origin <;> exact ⟨_, rfl⟩

theorem fill_file (m : String) : fill "?.lua" m = m ++ ".lua" := by
  rw [fill, ← String.toList_inj, String.toList_ofList, String.toList_append]
  simp

end Require

namespace Project

theorem patterns_insert (p : Project) (path text : String) :
    (p.insert path text).2.patterns = p.patterns := by
  rw [insert]
  split <;> rfl

theorem patterns_ofFiles (patterns : List String) (files : List (String × String)) :
    (ofFiles patterns files).patterns = patterns := by
  suffices keep : ∀ p : Project,
      (files.foldl (fun p f => (p.insert f.1 f.2).2) p).patterns = p.patterns from keep _
  induction files with
  | nil => exact fun p => rfl
  | cons f fs ih => exact fun p => (ih _).trans (patterns_insert p f.1 f.2)

/-- Where `?.lua` is the first pattern, every file of a project of inserted files is the module with
the name of its path, whatever other files there are and whichever of them requires it. -/
theorem require?_dotted {more : List String} {inserts : List (String × String)} {f : SourceFile}
    {stem : String} (mem : f ∈ (ofFiles ("?.lua" :: more) inserts).files.toList)
    (path : f.path = stem ++ ".lua") (nameable : Require.Nameable stem) (origin : Nat) :
    (ofFiles ("?.lua" :: more) inserts).require? (Require.dotted stem) origin = some f.id := by
  have distinct : (((ofFiles ("?.lua" :: more) inserts).files.toList.map
      fun f => (f.id, f.path)).map Prod.snd).Nodup := by
    rw [List.map_map]
    exact (keeps_ofFiles ("?.lua" :: more) inserts).indexed.nodup_paths
  rw [require?, patterns_ofFiles]
  generalize (((ofFiles ("?.lua" :: more) inserts).file? origin).map SourceFile.path).getD ""
    = start
  obtain ⟨after, tries⟩ := Require.exists_tries_cons "?.lua" more stem start
  have first : Require.Tries ("?.lua" :: more) stem start ([] ++ f.path :: after) := by
    rwa [Require.fill_file, ← path] at tries
  have inside := List.mem_map_of_mem (f := fun f : SourceFile => (f.id, f.path)) mem
  exact (Require.Finds.exact nameable.names first inside fun _ _ => List.not_mem_nil).resolve?_eq
    distinct

/-- From a file in a directory of the same name, and beside other files of that name. -/
theorem require?_dotted_nested :
    ∃ f ∈ (ofFiles ["?.lua", "?/init.lua"] [("app/app/lib.lua", ""), ("lib.lua", ""),
        ("app/lib/init.lua", ""), ("./app/lib.lua", "")]).files.toList,
      f.path = "app/lib" ++ ".lua" ∧ Require.Nameable "app/lib"
        ∧ (ofFiles ["?.lua", "?/init.lua"] [("app/app/lib.lua", ""), ("lib.lua", ""),
          ("app/lib/init.lua", ""), ("./app/lib.lua", "")]).require? "app.lib" 0 = some f.id := by
  have known : "app/lib.lua" ∈ (ofFiles ["?.lua", "?/init.lua"] [("app/app/lib.lua", ""),
      ("lib.lua", ""), ("app/lib/init.lua", ""), ("./app/lib.lua", "")]).paths := by
    decide +kernel
  obtain ⟨f, mem, same⟩ := List.mem_map.mp known
  have path : f.path = "app/lib" ++ ".lua" := same.trans (by decide)
  have first : "app/lib".toList.head? = some 'a' := by decide +kernel
  have last : "app/lib".toList.getLast? = some 'b' := by decide +kernel
  have nameable : Require.Nameable "app/lib" := by
    refine ⟨by decide, by decide, ?_, ?_⟩
    · rw [first]
      rintro _ ⟨⟩
      decide
    · rw [last]
      rintro _ ⟨⟩
      decide
  have name : Require.dotted "app/lib" = "app.lib" := by decide +kernel
  exact ⟨f, mem, path, nameable, name ▸ require?_dotted mem path nameable 0⟩

end Project

end LuaTyping
