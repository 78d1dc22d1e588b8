import Mathlib.Data.List.Basic
import Mathlib.Data.List.TakeWhile
import LuaTyping.Text.Blank

/-!
# Texts in pieces

A text that is cut at every occurrence of a character consists of the pieces between them, and with
something else between the same pieces it is the text in which the character was replaced.  Blanks
at the two ends of a text are cut off.

* `Replaces`: a text with something else for a character, by its pieces.
* `Trims`: a text without the blanks around it.
-/

namespace LuaTyping

/-! ## Between two occurrences of a character -/

/-- What stands between two occurrences of a character does not have it. -/
theorem not_mem_of_mem_splitOn {α : Type} [BEq α] [LawfulBEq α] {c : α} {cs piece : List α}
    (mem : piece ∈ cs.splitOn c) : c ∉ piece := by
  induction cs generalizing piece with
  | nil =>
    rw [List.splitOn_nil] at mem
    rw [List.mem_singleton.mp mem]
    exact List.not_mem_nil
  | cons d cs ih =>
    obtain ⟨p, ps, pieces⟩ := List.exists_cons_of_ne_nil (List.splitOn_ne_nil c cs)
    rw [List.splitOn_cons_eq_if_modifyHead, pieces] at mem
    rw [pieces] at ih
    split at mem
    case isTrue =>
      rcases List.mem_cons.mp mem with rfl | mem
      · exact List.not_mem_nil
      · exact ih mem
    case isFalse other =>
      rcases List.mem_cons.mp mem with rfl | mem
      · intro inside
        rcases List.mem_cons.mp inside with same | inside
        · exact other (beq_iff_eq.mpr same.symm)
        · exact ih List.mem_cons_self inside
      · exact ih (List.mem_cons_of_mem p mem)

/-- A text consists of pieces with `c` between them, and `out` of the same pieces with `m` between
them. -/
def Replaces (c : Char) (m cs out : List Char) : Prop :=
  ∃ pieces, (∀ piece ∈ pieces, c ∉ piece) ∧ [c].intercalate pieces = cs
    ∧ m.intercalate pieces = out

section Replacing

variable {c : Char} {m cs out : List Char}

theorem flatMap_of_not_mem (absent : c ∉ cs) :
    (cs.flatMap fun d => if d = c then m else [d]) = cs := by
  induction cs with
  | nil => rfl
  | cons d cs ih =>
    obtain ⟨other, absent⟩ := not_or.mp (mt List.mem_cons.mpr absent)
    rw [List.flatMap_cons, if_neg (Ne.symm other), ih absent, List.singleton_append]

theorem flatMap_intercalate {pieces : List (List Char)} (plain : ∀ piece ∈ pieces, c ∉ piece) :
    (([c].intercalate pieces).flatMap fun d => if d = c then m else [d])
      = m.intercalate pieces := by
  induction pieces with
  | nil => rfl
  | cons piece pieces ih =>
    have first := flatMap_of_not_mem (m := m) (plain piece List.mem_cons_self)
    cases pieces with
    | nil => rw [List.intercalate_singleton, List.intercalate_singleton, first]
    | cons next pieces =>
      have rest := ih fun piece mem => plain piece (List.mem_cons_of_mem _ mem)
      rw [List.intercalate_cons_cons, List.intercalate_cons_cons, List.flatMap_append,
        List.flatMap_append, first, rest, List.flatMap_singleton, if_pos rfl]

/-- Replacing a character one by one is putting something else between the pieces. -/
theorem replaces_iff :
    Replaces c m cs out ↔ (cs.flatMap fun d => if d = c then m else [d]) = out := by
  constructor
  · rintro ⟨pieces, plain, rfl, rfl⟩
    exact flatMap_intercalate plain
  · rintro rfl
    have plain : ∀ piece ∈ cs.splitOn c, c ∉ piece := fun _ => not_mem_of_mem_splitOn
    refine ⟨cs.splitOn c, plain, List.intercalate_splitOn c, ?_⟩
    rw [← flatMap_intercalate plain, List.intercalate_splitOn]

end Replacing

/-! ## Blanks around a text -/

section Blanks

variable {cs left name : List Char}

/-- What is left of a text without its first characters of a class starts with no such character. -/
theorem not_of_head?_dropWhile {p : Char → Bool} {c : Char} (first : c ∈ (cs.dropWhile p).head?) :
    p c = false := by
  have stop := List.head?_dropWhile_not p cs
  rw [Option.mem_def.mp first] at stop
  simpa using stop

theorem dropBlanks_eq_self (first : ∀ c ∈ cs.head?, isBlank c = false) : dropBlanks cs = cs := by
  cases cs with
  | nil => rfl
  | cons c cs => exact List.dropWhile_cons_of_neg (by simp [first c rfl])

/-- Blanks in front of something else are dropped. -/
theorem dropBlanks_append (blank : ∀ c ∈ left, isBlank c = true)
    (first : ∀ c ∈ cs.head?, isBlank c = false) : dropBlanks (left ++ cs) = cs := by
  rw [dropBlanks, List.dropWhile_append_of_pos blank]
  exact dropBlanks_eq_self first

theorem exists_dropBlanks (cs : List Char) : ∃ left, cs = left ++ dropBlanks cs
    ∧ (∀ c ∈ left, isBlank c = true) ∧ ∀ c ∈ (dropBlanks cs).head?, isBlank c = false :=
  ⟨cs.takeWhile isBlank, List.takeWhile_append_dropWhile.symm,
    fun _ mem => List.mem_takeWhile_imp mem, fun _ => not_of_head?_dropWhile⟩

theorem dropBlanks_eq_nil_iff : dropBlanks cs = [] ↔ ∀ c ∈ cs, isBlank c = true :=
  List.dropWhile_eq_nil_iff

theorem dropBlanksRight_eq (cs : List Char) :
    dropBlanksRight cs = (dropBlanks cs.reverse).reverse := rfl

/-- A text consists of `name` with blanks around it, and no blank stands at an end of `name`. -/
structure Trims (cs name : List Char) : Prop where
  whole : ∃ left right, cs = left ++ name ++ right ∧ (∀ c ∈ left, isBlank c = true)
    ∧ ∀ c ∈ right, isBlank c = true
  first : ∀ c ∈ name.head?, isBlank c = false
  last : ∀ c ∈ name.getLast?, isBlank c = false

theorem trims_trimBlanks (cs : List Char) : Trims cs (trimBlanks cs) := by
  obtain ⟨left, whole, blank, first⟩ := exists_dropBlanks cs
  obtain ⟨right, behind, blank', last⟩ := exists_dropBlanks (dropBlanks cs).reverse
  have cut : dropBlanks cs = trimBlanks cs ++ right.reverse := by
    rw [trimBlanks, dropBlanksRight_eq, ← List.reverse_append, ← behind, List.reverse_reverse]
  refine ⟨⟨left, right.reverse, ?_, blank, by simpa using blank'⟩, fun c mem => ?_, ?_⟩
  · rw [List.append_assoc, ← cut, ← whole]
  · refine first c ?_
    rw [cut, List.head?_append, Option.mem_def.mp mem, Option.some_or]
    rfl
  · rwa [trimBlanks, dropBlanksRight_eq, List.getLast?_reverse]

theorem trims_iff : Trims cs name ↔ trimBlanks cs = name := by
  refine ⟨?_, fun same => same ▸ trims_trimBlanks cs⟩
  rintro ⟨⟨left, right, rfl, blank, blank'⟩, first, last⟩
  have behind : dropBlanksRight (name ++ right) = name := by
    rw [dropBlanksRight_eq, List.reverse_append, dropBlanks_append, List.reverse_reverse]
    · simpa using blank'
    · rwa [List.head?_reverse]
  by_cases empty : name = []
  · subst empty
    have all : dropBlanks (left ++ [] ++ right) = [] := by
      rw [dropBlanks_eq_nil_iff, List.append_nil]
      exact fun c mem => (List.mem_append.mp mem).elim (blank c) (blank' c)
    rw [trimBlanks, all]
    rfl
  · have front : dropBlanks (left ++ name ++ right) = name ++ right := by
      rw [List.append_assoc]
      refine dropBlanks_append blank ?_
      rwa [List.head?_append_of_ne_nil _ empty]
    rw [trimBlanks, front, behind]

/-- Nothing is left just of a text of blanks. -/
theorem trims_nil_iff : Trims cs [] ↔ ∀ c ∈ cs, isBlank c = true := by
  constructor
  · rintro ⟨⟨left, right, rfl, blank, blank'⟩, -, -⟩
    rw [List.append_nil]
    exact fun c mem => (List.mem_append.mp mem).elim (blank c) (blank' c)
  · exact fun blank => ⟨⟨cs, [], by simp, blank, nofun⟩, nofun, nofun⟩

end Blanks

end LuaTyping
