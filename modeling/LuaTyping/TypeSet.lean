import LuaTyping.LuaType

/-!
# Sets of types

The types that an expression may have, each once, in the order in which they were found.  The
order is what listings show; as sets two enumerations of the same types are equal, which is
`TypeSet.sameTypes`.

* `TypeSet.insert`: adds a type at the end, unless it is there.
* `TypeSet.union`: the first set, and behind it what only the second has.
* `TypeSet.text`: the types in words.

What no expression was found for is not the empty set: an unknown set is `none` in an option.
-/

namespace LuaTyping

/-- Types without repetition, in order. -/
structure TypeSet where
  toList : List LuaType
  nodup : toList.Nodup
  deriving DecidableEq

namespace TypeSet

/-- No types. -/
def empty : TypeSet := ⟨[], .nil⟩

instance : Inhabited TypeSet := ⟨empty⟩

/-- One type. -/
def single (t : LuaType) : TypeSet := ⟨[t], by simp⟩

/-- The type is one of the set. -/
def contains (s : TypeSet) (t : LuaType) : Bool := decide (t ∈ s.toList)

/-- Adds a type behind the others; one that is there stays where it is. -/
def insert (s : TypeSet) (t : LuaType) : TypeSet :=
  if h : t ∈ s.toList then s
  else ⟨s.toList ++ [t], List.nodup_append.2 ⟨s.nodup, by simp, by
    intro a ha b hb
    rw [List.mem_singleton] at hb
    rintro rfl
    exact h (hb ▸ ha)⟩⟩

/-- Adds types one after the other. -/
def insertMany (s : TypeSet) (ts : List LuaType) : TypeSet := ts.foldl insert s

/-- The set of the types of a list. -/
def ofList (ts : List LuaType) : TypeSet := empty.insertMany ts

/-- The first set, and behind it the types of the second that it lacks. -/
def union (a b : TypeSet) : TypeSet := a.insertMany b.toList

/-- The number of types. -/
def size (s : TypeSet) : Nat := s.toList.length

/-- There is no type. -/
def isEmpty (s : TypeSet) : Bool := s.toList.isEmpty

/-- The same types, in whatever order. -/
def sameTypes (a b : TypeSet) : Bool :=
  a.size == b.size && a.toList.all b.contains

/-- The types in words, with bars between them. -/
def text (s : TypeSet) : String := " | ".intercalate (s.toList.map LuaType.text)

@[simp] theorem toList_empty : empty.toList = [] := rfl

@[simp] theorem toList_single (t : LuaType) : (single t).toList = [t] := rfl

theorem toList_insert (s : TypeSet) (t : LuaType) :
    (s.insert t).toList = if t ∈ s.toList then s.toList else s.toList ++ [t] := by
  unfold insert
  split <;> rfl

@[simp] theorem contains_iff {s : TypeSet} {t : LuaType} :
    s.contains t = true ↔ t ∈ s.toList := by
  simp [contains]

@[simp] theorem mem_insert {s : TypeSet} {t u : LuaType} :
    u ∈ (s.insert t).toList ↔ u ∈ s.toList ∨ u = t := by
  rw [toList_insert]
  split
  · constructor
    · exact Or.inl
    · rintro (h | rfl) <;> assumption
  · simp

end TypeSet

/-- Two answers joined: what is known on either side, and unknown only if both are. -/
def joinKnown : Option TypeSet → Option TypeSet → Option TypeSet
  | none, b => b
  | some a, none => some a
  | some a, some b => some (a.union b)

end LuaTyping
