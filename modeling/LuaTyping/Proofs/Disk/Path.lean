import LuaTyping.Disk
import LuaTyping.Proofs.Text.Pieces

/-!
# Places that paths lead to

The parts of a path are found by cutting its text at the slashes, and a text made of parts with
slashes between them is cut into these parts again.  Taken as they are written, with each `..` going
back by one name, the parts lead to a place, which is what a path means on a disk without links.

* `slashParts_eq_splitOn`, `slashParts_intercalate`: texts are cut at slashes, and put together.
* `Path.parts_join`: the parts of a path as seen from a directory.
* `Path.walk`, `Path.place`: the place that parts lead to, as they are written.
* `Path.parts_of_up_not_mem`: without `..`, the place has the names of the parts.
* `Path.parts_isPrefix_iff`: without `..`, a path starts with the parts of another one just if
  its place is below that of the other one.
-/

namespace LuaTyping

/-! ## Texts and slashes -/

theorem slashParts_ne_nil (cs : List Char) : slashParts cs ≠ [] := by
  cases cs with
  | nil => exact List.cons_ne_nil _ _
  | cons c cs =>
    rw [slashParts, List.foldr_cons]
    split
    · exact List.cons_ne_nil _ _
    · split <;> exact List.cons_ne_nil _ _

theorem slashParts_cons (c : Char) (cs : List Char) :
    slashParts (c :: cs)
      = if c = '/' then [] :: slashParts cs else (slashParts cs).modifyHead (c :: ·) := by
  obtain ⟨p, ps, pieces⟩ := List.exists_cons_of_ne_nil (slashParts_ne_nil cs)
  rw [slashParts, List.foldr_cons, ← slashParts, pieces, List.modifyHead_cons]

theorem slashParts_eq_splitOn (cs : List Char) : slashParts cs = cs.splitOn '/' := by
  induction cs with
  | nil => rfl
  | cons c cs ih =>
    rw [slashParts_cons, ih, List.splitOn_cons_eq_if_modifyHead]
    simp only [beq_iff_eq]

theorem slashParts_append (as bs : List Char) :
    slashParts (as ++ '/' :: bs) = slashParts as ++ slashParts bs := by
  simp only [slashParts_eq_splitOn, List.splitOn_append_cons_self]

/-- What stands between two slashes has no slash. -/
theorem slash_not_mem_of_mem_slashParts {cs piece : List Char} (mem : piece ∈ slashParts cs) :
    '/' ∉ piece := by
  rw [slashParts_eq_splitOn] at mem
  exact not_mem_of_mem_splitOn mem

/-- Pieces with slashes between them are cut into these pieces. -/
theorem slashParts_intercalate {names : Names} (nonempty : names ≠ [])
    (plain : ∀ name ∈ names, '/' ∉ name.toList) :
    slashParts ("/".intercalate names).toList = names.map String.toList := by
  rw [slashParts_eq_splitOn, String.toList_intercalate]
  refine List.splitOn_intercalate '/' (List.forall_mem_map.mpr plain) ?_
  exact fun empty => nonempty (List.map_eq_nil_iff.mp empty)

namespace Path

/-! ## Parts -/

/-- The parts of a text inside a path, where nothing in front of them counts. -/
def inner (cs : List Char) : List PathPart := (slashParts cs).filterMap innerPart?

@[simp] theorem inner_nil : inner [] = [] := rfl

theorem inner_append (as bs : List Char) : inner (as ++ '/' :: bs) = inner as ++ inner bs := by
  rw [inner, slashParts_append, List.filterMap_append, inner, inner]

@[simp] theorem inner_cons_slash (cs : List Char) : inner ('/' :: cs) = inner cs :=
  inner_append [] cs

/-- Behind its first slash an absolute path has only names and `..`. -/
theorem parts_of_isAbsolute {path : String} (absolute : isAbsolute path) :
    parts path = .root :: inner path.toList := by
  obtain ⟨cs, slash⟩ : ∃ cs, path.toList = '/' :: cs := by
    simpa [isAbsolute, List.head?_eq_some_iff] using absolute
  have cut : slashParts ('/' :: cs) = [] :: slashParts cs := slashParts_append [] cs
  obtain ⟨p, ps, pieces⟩ := List.exists_cons_of_ne_nil (slashParts_ne_nil cs)
  rw [parts, slash, inner_cons_slash, cut, inner, pieces]

/-- The parts `..` of a path do not depend on what stands in front. -/
theorem up_mem_parts_iff (path : String) : .up ∈ parts path ↔ .up ∈ inner path.toList := by
  rw [parts, inner]
  split <;> simp_all [innerPart?]

theorem isAbsolute_append {directory : String} (absolute : isAbsolute directory) (more : String) :
    isAbsolute (directory ++ more) := by
  simp_all [isAbsolute, List.head?_append]

theorem isAbsolute_join {directory : String} (absolute : isAbsolute directory) (path : String) :
    isAbsolute (join directory path) := by
  rw [join]
  split
  · assumption
  · split
    · exact isAbsolute_append absolute path
    · exact isAbsolute_append (isAbsolute_append absolute "/") path

/-- A path that starts at a directory has the parts of the directory and then its own. -/
theorem parts_join {directory path : String} (absolute : isAbsolute directory)
    (relative : isAbsolute path = false) :
    parts (join directory path) = parts directory ++ inner path.toList := by
  have nonempty : directory ≠ "" := by
    rintro rfl
    exact absurd absolute (by decide)
  rw [join, if_neg (by simp [relative]), parts_of_isAbsolute absolute, List.cons_append]
  split
  case isTrue ends =>
    obtain ⟨cs, last⟩ := List.getLast?_eq_some_iff.mp (ends.resolve_left nonempty)
    rw [parts_of_isAbsolute (isAbsolute_append absolute path), String.toList_append, last,
      List.append_assoc, List.singleton_append, inner_append, inner_append, inner_nil,
      List.append_nil]
  case isFalse =>
    rw [String.append_assoc, parts_of_isAbsolute (isAbsolute_append absolute _),
      String.toList_append, String.toList_append, show "/".toList = ['/'] from rfl,
      List.singleton_append, inner_append]

/-- A part that can stand behind the first one: a name that is cut out of a path, or `..`. -/
def IsInner (p : PathPart) : Prop := ∃ piece, '/' ∉ piece ∧ innerPart? piece = some p

theorem isInner_of_mem_inner {cs : List Char} {p : PathPart} (mem : p ∈ inner cs) : IsInner p := by
  obtain ⟨piece, mem, part⟩ := List.mem_filterMap.mp mem
  exact ⟨piece, slash_not_mem_of_mem_slashParts mem, part⟩

/-- A part inside a path is written without slashes, and as `..` only if it is this part. -/
theorem IsInner.text {p : PathPart} (h : IsInner p) :
    '/' ∉ p.text.toList ∧ (p.text = ".." ↔ p = .up) ∧ (p ≠ .up → p = .name p.text) := by
  obtain ⟨piece, noSlash, part⟩ := h
  unfold innerPart? at part
  split at part <;> cases part
  case h_3 => decide
  case h_4 notUp =>
    refine ⟨by simpa [PathPart.text] using noSlash, ⟨fun same => ?_, nofun⟩, fun _ => rfl⟩
    exact absurd (by simpa [PathPart.text] using congrArg String.toList same) notUp

/-! ## Places -/

/-- The place that parts lead to from a place, as they are written. -/
def walk : List PathPart → Names → Names
  | [], place => place
  | .root :: parts, _ => walk parts []
  | .here :: parts, place => walk parts place
  | .up :: parts, place => walk parts place.dropLast
  | .name name :: parts, place => walk parts (place ++ [name])

/-- The place that an absolute path leads to, as it is written. -/
def place (path : String) : Names := walk (parts path) []

theorem walk_append (as bs : List PathPart) (place : Names) :
    walk (as ++ bs) place = walk bs (walk as place) := by
  fun_induction walk as place <;> simp_all [walk]

/-- Without `..` the parts lead to their own names. -/
theorem walk_of_up_not_mem {ps : List PathPart} (below : ∀ p ∈ ps, IsInner p) (noUp : .up ∉ ps)
    (place : Names) : walk ps place = place ++ ps.map PathPart.text := by
  induction ps generalizing place with
  | nil => simp [walk]
  | cons p ps ih =>
    obtain ⟨notUp, noUp⟩ := not_or.mp (mt List.mem_cons.mpr noUp)
    rw [(below p List.mem_cons_self).text.2.2 (Ne.symm notUp), walk,
      ih (fun q mem => below q (List.mem_cons_of_mem p mem)) noUp, List.map_cons,
      List.append_assoc, List.singleton_append, PathPart.text]

/-- A name that can be read off a path. -/
def IsEntryName (name : String) : Prop := '/' ∉ name.toList ∧ name ≠ ".."

theorem isEntryName_of_mem_walk {ps : List PathPart} (below : ∀ p ∈ ps, IsInner p) {place : Names}
    (start : ∀ name ∈ place, IsEntryName name) : ∀ name ∈ walk ps place, IsEntryName name := by
  fun_induction walk ps place with
  | case1 place => exact start
  | case2 ps place ih =>
    exact ih (fun p mem => below p (List.mem_cons_of_mem _ mem)) (fun _ mem => nomatch mem)
  | case3 ps place ih => exact ih (fun p mem => below p (List.mem_cons_of_mem _ mem)) start
  | case4 ps place ih =>
    refine ih (fun p mem => below p (List.mem_cons_of_mem _ mem)) fun name mem => ?_
    exact start name (List.dropLast_subset place mem)
  | case5 ps place name ih =>
    have text := (below _ List.mem_cons_self).text
    refine ih (fun p mem => below p (List.mem_cons_of_mem _ mem)) fun other mem => ?_
    rcases List.mem_append.mp mem with mem | mem
    · exact start other mem
    · obtain rfl := List.mem_singleton.mp mem
      exact ⟨text.1, fun same => nomatch text.2.1.mp same⟩

theorem place_of_isAbsolute {path : String} (absolute : isAbsolute path) :
    place path = walk (inner path.toList) [] := by
  rw [place, parts_of_isAbsolute absolute, walk]

/-- The names on the way to a place of a path have no slashes and are no `..`. -/
theorem isEntryName_of_mem_place {path : String} (absolute : isAbsolute path) :
    ∀ name ∈ place path, IsEntryName name := by
  rw [place_of_isAbsolute absolute]
  exact isEntryName_of_mem_walk (fun _ => isInner_of_mem_inner) fun _ mem => nomatch mem

/-- Without `..` an absolute path has the names on the way to its place. -/
theorem parts_of_up_not_mem {path : String} (absolute : isAbsolute path)
    (noUp : .up ∉ parts path) : parts path = .root :: (place path).map .name := by
  have noUp' : .up ∉ inner path.toList := mt (up_mem_parts_iff path).mpr noUp
  have same (p) (mem : p ∈ inner path.toList) : p = .name p.text :=
    (isInner_of_mem_inner mem).text.2.2 fun up => noUp' (up ▸ mem)
  rw [place_of_isAbsolute absolute, walk_of_up_not_mem (fun _ => isInner_of_mem_inner) noUp',
    parts_of_isAbsolute absolute, List.nil_append, List.map_map]
  exact congrArg _ ((List.map_id _).symm.trans (List.map_congr_left same))

theorem parts_isPrefix_iff {directory path : String} (absolute : isAbsolute directory)
    (plain : .up ∉ parts directory) (absolute' : isAbsolute path) (noUp : .up ∉ parts path) :
    parts directory <+: parts path ↔ place directory <+: place path := by
  rw [parts_of_up_not_mem absolute plain, parts_of_up_not_mem absolute' noUp,
    List.cons_prefix_cons, and_iff_right rfl]
  exact List.prefix_map_iff_of_injective fun _ _ => PathPart.name.inj

/-! ## Paths below a directory -/

theorem below?_eq_some_iff {directory path : String} {rest : List PathPart} :
    below? directory path = some rest ↔ parts path = parts directory ++ rest := by
  simp only [below?, Option.ite_none_right_eq_some, List.isPrefixOf_iff_prefix, Option.some.injEq]
  constructor
  · rintro ⟨starts, rfl⟩
    exact (List.prefix_iff_eq_append.mp starts).symm
  · intro whole
    exact ⟨⟨rest, whole.symm⟩, by rw [whole, List.drop_left]⟩

theorem below?_eq_none_iff {directory path : String} :
    below? directory path = none ↔ ¬ parts directory <+: parts path := by
  simp [below?, List.isPrefixOf_iff_prefix]

/-- Parts with a `..` are not written as the names on the way to a place. -/
theorem ofParts_ne_of_up_mem {ps : List PathPart} (below : ∀ p ∈ ps, IsInner p) (up : .up ∈ ps)
    {names : Names} (entries : ∀ name ∈ names, IsEntryName name) :
    ofParts ps ≠ "/".intercalate names := by
  intro same
  have cut : ['.', '.'] ∈ slashParts (ofParts ps).toList := by
    rw [ofParts, slashParts_intercalate (by simpa using List.ne_nil_of_mem up)]
    · exact List.mem_map_of_mem (List.mem_map_of_mem up)
    · exact List.forall_mem_map.mpr fun p mem => (below p mem).text.1
  rw [same] at cut
  by_cases empty : names = []
  · rw [empty] at cut
    exact absurd cut (by decide)
  · rw [slashParts_intercalate empty fun name mem => (entries name mem).1] at cut
    obtain ⟨name, mem, dots⟩ := List.mem_map.mp cut
    exact (entries name mem).2 (String.toList_injective dots)

end Path

end LuaTyping
