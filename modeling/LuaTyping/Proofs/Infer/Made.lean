import LuaTyping.Proofs.Infer.Near
import LuaTyping.Proofs.Project.Require

/-!
# Projects that are made of texts

A project is made by a scan and by insertions.  Every file of it is the parse of a text under its
own number, so that what is looked up in all files can be looked up number by number.

* `Project.Made`: how projects are made.
* `Project.Made.stocked`: every file is the parse of a text.
* `Project.Numbered.globalMember?_eq`, `Project.Numbered.globalElsewhere?_eq`: what is looked up in
  all files.
* `Project.Numbered.require?_lt`: a required file is one of the project.
-/

namespace LuaTyping

namespace Project

/-- The projects that a scan and insertions make. -/
inductive Made : Project → Prop
  | scan (patterns : List String) (files : List (String × String)) : Made (ofScan patterns files)
  | insert {p : Project} (path text : String) : Made p → Made (p.insert path text).2

/-- Every file is the parse of a text under its number. -/
def Stocked (p : Project) : Prop :=
  ∀ i f, p.file? i = some f → ∃ path text, f = SourceFile.parse i path text

variable {p : Project}

/-- Inserting files one after the other makes a project. -/
theorem made_ofFiles (patterns : List String) (files : List (String × String)) :
    (ofFiles patterns files).Made := by
  unfold ofFiles
  suffices keep : ∀ p : Project, p.Made →
      (files.foldl (fun p f => (p.insert f.1 f.2).2) p).Made from
    keep _ (.scan patterns [])
  induction files with
  | nil => exact fun p h => h
  | cons f fs ih => exact fun p h => ih _ (.insert f.1 f.2 h)

/-- Files behind the others that are parsed under the numbers of their places. -/
theorem Stocked.pushMany (h : p.Stocked) (files : List (String × String)) :
    (((files.zipIdx p.size).map fun f =>
      SourceFile.parse f.2 f.1.1 f.1.2).foldl push p).Stocked := by
  induction files generalizing p with
  | nil => exact h
  | cons file files ih =>
    have pushed : (p.push (.parse p.size file.1 file.2)).Stocked := by
      intro i f hf
      simp only [push, file?, Array.getElem?_push] at hf
      split at hf
      · rename_i last
        cases hf
        exact ⟨_, _, by rw [last]; rfl⟩
      · exact h i f hf
    have count : (p.push (.parse p.size file.1 file.2)).size = p.size + 1 := Array.size_push _
    have rest := ih pushed
    rwa [count] at rest

theorem Stocked.insert (h : p.Stocked) (path text : String) : (p.insert path text).2.Stocked := by
  intro i f hf
  unfold Project.insert at hf
  dsimp only at hf
  split at hf
  · rename_i id _
    simp only [file?, Array.getElem?_setIfInBounds] at hf
    split at hf
    · rename_i same
      split at hf
      · cases hf
        exact ⟨_, text, by rw [same]⟩
      · cases hf
    · exact h i f hf
  · simp only [file?, Array.getElem?_push] at hf
    split at hf
    · rename_i last
      cases hf
      exact ⟨_, text, by rw [last]; rfl⟩
    · exact h i f hf

/-- Every file of a project that is made is the parse of a text. -/
theorem Made.stocked (h : p.Made) : p.Stocked := by
  induction h with
  | scan patterns files =>
    have nothing : (empty patterns).Stocked := fun i f found => by simp [empty, file?] at found
    exact nothing.pushMany files
  | insert path text _ ih => exact ih.insert path text

theorem Stocked.numbered (h : p.Stocked) : p.Numbered := by
  intro i f hf
  obtain ⟨path, text, rfl⟩ := h i f hf
  rfl

/-- A file has the scopes of its tree, and no file has none. -/
theorem Stocked.scopes_eq (h : p.Stocked) (i : Nat) : p.scopes i = Scopes.ofTree (p.tree i) := by
  rw [scopes, tree]
  cases found : p.file? i with
  | none => rfl
  | some f =>
    obtain ⟨path, text, rfl⟩ := h i f found
    rfl

theorem Stocked.bindings_scopes (h : p.Stocked) (i : Nat) :
    (p.scopes i).bindings = (p.tree i).allBindings := by
  rw [h.scopes_eq]
  rfl

theorem Stocked.tree_eq (h : p.Stocked) {i : Nat} {f : SourceFile} (found : p.file? i = some f) :
    p.tree i = (Parsed.ofText f.text).tree := by
  obtain ⟨path, text, rfl⟩ := h i f found
  rw [tree, found]
  rfl

/-! ## All files -/

namespace Numbered

theorem map_id_files (h : p.Numbered) :
    p.files.toList.map SourceFile.id = List.range p.size := by
  refine List.ext_getElem (by simp [size]) fun i inside _ => ?_
  rw [List.getElem_map, List.getElem_range]
  exact h i _ (by simp [file?] at inside ⊢)

/-- A file is found under its number. -/
theorem file?_id (h : p.Numbered) {f : SourceFile} (mem : f ∈ p.files.toList) :
    p.file? f.id = some f := by
  obtain ⟨i, inside, rfl⟩ := List.getElem_of_mem mem
  have found : p.file? i = some p.files.toList[i] := by
    simp only [Array.length_toList] at inside
    simp [file?, inside]
  rwa [h i _ found]

theorem id_lt_size (h : p.Numbered) {f : SourceFile} (mem : f ∈ p.files.toList) :
    f.id < p.size := by
  have inside := List.mem_map_of_mem (f := SourceFile.id) mem
  rw [h.map_id_files] at inside
  exact List.mem_range.mp inside

/-- The members of a global variable, number by number. -/
theorem globalMember?_eq (h : p.Numbered) (global name : String) :
    p.globalMember? global name
      = ((List.range p.size).flatMap fun i =>
          (p.memberDefs i (.global global) name).filterMap (p.memberSource? i)).getLast? := by
  rw [globalMember?, ← h.map_id_files, List.flatMap_map]

/-- The definitions of a global variable in other files, number by number. -/
theorem globalElsewhere?_eq (h : p.Numbered) (file : Nat) (name : String) :
    p.globalElsewhere? file name
      = (List.range p.size).findSome? fun i =>
          if i = file then none else ((p.scopes i).globalsOf name).head?.map fun d => (i, d) := by
  rw [globalElsewhere?, ← h.map_id_files, List.findSome?_map]
  refine findSome?_congr fun f mem => ?_
  rw [Function.comp_apply, scopes, h.file?_id mem, Option.map_some, Option.getD_some]

end Numbered

/-! ## Required files -/

/-- A required file is a file of the project. -/
theorem Numbered.require?_lt (h : p.Numbered) {module : String} {origin id : Nat}
    (found : p.require? module origin = some id) : id < p.size := by
  obtain ⟨f, mem, rfl⟩ := Require.mem_of_resolve? found
  obtain ⟨file, inside, rfl⟩ := List.mem_map.mp mem
  exact h.id_lt_size inside

end Project

end LuaTyping
