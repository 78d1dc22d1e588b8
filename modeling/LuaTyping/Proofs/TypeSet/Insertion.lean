import Mathlib.Data.Finset.Card
import Mathlib.Data.List.Induction
import Mathlib.Data.List.Nodup
import Mathlib.Data.List.Perm.Subperm
import LuaTyping.TypeSet

/-!
# Sets of types are what was inserted

A set of types is put together from single types, by adding types one at a time and by joining sets,
and the same set may go into several joins.  Whatever is done, the set is determined by the sequence
of the types that went into it: it lists each of them once, in the order in which they came for the
first time (`TypeSet.Lists`).

Everything is read off one map, from sequences of types to sets.  It is `TypeSet.ofList`, every set
is in its image (`TypeSet.ofList_toList`), and it takes one sequence behind another to the union
(`TypeSet.ofList_union`).  So unions are associative because sequences are, and this holds for the
order too.  They are commutative only as sets.

* `TypeSet.toList_union`: the first set, and behind it what the second has more.
* `TypeSet.sameTypes_iff`: sets are equal if they have the same types.
* `TypeSet.lists_ofList`, `TypeSet.Lists.unique`: the set of a sequence, and that there is no other.
* `TypeSet.Operation.sets_eq`: sets after operations are the sets of what was inserted.
* `TypeSet.insertion_order_and_union_laws`: what sets list after any operations, and the laws of
  unions.
-/

namespace LuaTyping

namespace TypeSet

variable {a b s : TypeSet} {t : LuaType} {ts : List LuaType}

theorem eq_of_toList (same : a.toList = b.toList) : a = b := by
  cases a
  cases b
  congr

/-! ## Insertions -/

theorem insert_of_mem (known : t ∈ s.toList) : s.insert t = s :=
  eq_of_toList (by rw [toList_insert, if_pos known])

theorem toList_insert_of_not_mem (new : t ∉ s.toList) : (s.insert t).toList = s.toList ++ [t] := by
  rw [toList_insert, if_neg new]

theorem insertMany_append (s : TypeSet) (ts us : List LuaType) :
    s.insertMany (ts ++ us) = (s.insertMany ts).insertMany us :=
  List.foldl_append

theorem insertMany_concat (s : TypeSet) (ts : List LuaType) (t : LuaType) :
    s.insertMany (ts ++ [t]) = (s.insertMany ts).insert t :=
  insertMany_append s ts [t]

theorem mem_insertMany : t ∈ (s.insertMany ts).toList ↔ t ∈ s.toList ∨ t ∈ ts := by
  unfold insertMany
  induction ts generalizing s with
  | nil => simp
  | cons u us ih =>
    rw [List.foldl_cons, ih, mem_insert, List.mem_cons]
    tauto

/-- Of types without repetition those are added that are new. -/
theorem toList_insertMany (nodup : ts.Nodup) :
    (s.insertMany ts).toList = s.toList ++ ts.filter fun t => !s.contains t := by
  induction ts using List.reverseRecOn with
  | nil => exact (List.append_nil _).symm
  | append_singleton ts t ih =>
    obtain ⟨before, -, apart⟩ := List.nodup_append.mp nodup
    have later : t ∉ ts := fun mem => apart t mem t List.mem_cons_self rfl
    rw [insertMany_concat, List.filter_append, ← List.append_assoc, ← ih before]
    by_cases known : t ∈ s.toList
    · rw [insert_of_mem (mem_insertMany.mpr (.inl known))]
      simp [contains, known]
    · rw [toList_insert_of_not_mem (by rw [mem_insertMany, not_or]; exact ⟨known, later⟩)]
      simp [contains, known]

/-! ## Sets of sequences -/

theorem mem_ofList : t ∈ (ofList ts).toList ↔ t ∈ ts := by
  rw [ofList, mem_insertMany, toList_empty]
  simp

/-- A set is what its own types come to. -/
theorem ofList_toList (s : TypeSet) : ofList s.toList = s :=
  eq_of_toList (by rw [ofList, toList_insertMany s.nodup]; simp [contains])

/-- It does not matter whether a sequence is inserted, or its types each once. -/
theorem insertMany_ofList (s : TypeSet) (ts : List LuaType) :
    s.insertMany (ofList ts).toList = s.insertMany ts := by
  induction ts using List.reverseRecOn with
  | nil => rfl
  | append_singleton ts t ih =>
    rw [ofList, insertMany_concat, ← ofList, insertMany_concat, ← ih]
    by_cases known : t ∈ (ofList ts).toList
    · rw [insert_of_mem known, insert_of_mem (mem_insertMany.mpr (.inr known))]
    · rw [toList_insert_of_not_mem known, insertMany_concat]

/-- One sequence behind another is the union of their sets. -/
theorem ofList_union (ts us : List LuaType) :
    (ofList ts).union (ofList us) = ofList (ts ++ us) := by
  rw [union, insertMany_ofList, ofList, ofList, insertMany_append]

/-- The set lists what a sequence inserts: each type once, in the order of first insertion. -/
structure Lists (s : TypeSet) (inserted : List LuaType) : Prop where
  count_eq : ∀ t, s.toList.count t = if t ∈ inserted then 1 else 0
  ordered : s.toList.Pairwise fun t u => inserted.idxOf t < inserted.idxOf u
  size_eq : s.size = inserted.toFinset.card
  contains_iff : ∀ t, s.contains t = true ↔ t ∈ inserted

/-- First places stay as they are when one more type is inserted, and a new type has the last. -/
theorem ordered_insert (same : ∀ u, u ∈ s.toList ↔ u ∈ ts)
    (ordered : s.toList.Pairwise fun t u => ts.idxOf t < ts.idxOf u) (t : LuaType) :
    (s.insert t).toList.Pairwise fun u v => (ts ++ [t]).idxOf u < (ts ++ [t]).idxOf v := by
  have kept : s.toList.Pairwise fun u v => (ts ++ [t]).idxOf u < (ts ++ [t]).idxOf v := by
    refine ordered.imp_of_mem fun {u v} memU memV before => ?_
    rwa [List.idxOf_append_of_mem ((same u).mp memU), List.idxOf_append_of_mem ((same v).mp memV)]
  by_cases known : t ∈ s.toList
  · rwa [insert_of_mem known]
  · rw [toList_insert_of_not_mem known]
    refine List.pairwise_append.mpr ⟨kept, List.pairwise_singleton _ _, fun u mem v last => ?_⟩
    rw [List.mem_singleton.mp last, List.idxOf_append_of_mem ((same u).mp mem),
      List.idxOf_append_of_notMem fun mem => known ((same t).mpr mem)]
    exact Nat.lt_add_right _ (List.idxOf_lt_length_of_mem ((same u).mp mem))

/-- The set of a sequence lists the types of the sequence. -/
theorem lists_ofList (ts : List LuaType) : (ofList ts).Lists ts where
  count_eq t := by simp only [(ofList ts).nodup.count, mem_ofList]
  ordered := by
    induction ts using List.reverseRecOn with
    | nil => exact List.Pairwise.nil
    | append_singleton ts t ih =>
      rw [ofList, insertMany_concat]
      exact ordered_insert (fun u => mem_ofList) ih t
  size_eq := by
    rw [size, ← List.toFinset_card_of_nodup (ofList ts).nodup]
    congr 1
    ext t
    rw [List.mem_toFinset, List.mem_toFinset, mem_ofList]
  contains_iff t := by rw [TypeSet.contains_iff, mem_ofList]

/-- No other set lists the types of a sequence. -/
theorem Lists.unique (listsA : a.Lists ts) (listsB : b.Lists ts) : a = b := by
  have same : ∀ t, t ∈ a.toList ↔ t ∈ b.toList := fun t => by
    rw [← TypeSet.contains_iff, ← TypeSet.contains_iff, listsA.contains_iff, listsB.contains_iff]
  refine eq_of_toList (List.Perm.eq_of_pairwise (fun t u _ _ before after => ?_)
    listsA.ordered listsB.ordered ((List.perm_ext_iff_of_nodup a.nodup b.nodup).mpr same))
  exact absurd before (Nat.lt_asymm after)

theorem lists_iff : s.Lists ts ↔ s = ofList ts :=
  ⟨fun lists => lists.unique (lists_ofList ts), fun same => same ▸ lists_ofList ts⟩

/-! ## Equal sets -/

/-- Sets are equal if they have the same types. -/
theorem sameTypes_iff : a.sameTypes b = true ↔ ∀ t, t ∈ a.toList ↔ t ∈ b.toList := by
  rw [sameTypes, Bool.and_eq_true, beq_iff_eq, List.all_eq_true]
  constructor
  · rintro ⟨size, sub⟩
    have within : a.toList.Subperm b.toList :=
      List.subperm_of_subset a.nodup fun t mem => TypeSet.contains_iff.mp (sub t mem)
    have perm := within.perm_of_length_le (Nat.le_of_eq size.symm)
    exact fun t => perm.mem_iff
  · intro same
    have perm : a.toList.Perm b.toList := (List.perm_ext_iff_of_nodup a.nodup b.nodup).mpr same
    exact ⟨perm.length_eq, fun t mem => TypeSet.contains_iff.mpr ((same t).mp mem)⟩

theorem sameTypes_self (s : TypeSet) : s.sameTypes s = true := sameTypes_iff.mpr fun _ => Iff.rfl

/-! ## Unions -/

@[simp] theorem mem_union : t ∈ (a.union b).toList ↔ t ∈ a.toList ∨ t ∈ b.toList := by
  rw [union, mem_insertMany]

/-- The types of the first set, and behind them those that only the second has. -/
theorem toList_union (a b : TypeSet) :
    (a.union b).toList = a.toList ++ b.toList.filter fun t => !a.contains t :=
  toList_insertMany b.nodup

/-- Unions have the same types in either order, but need not list them in the same order. -/
theorem sameTypes_union_comm (a b : TypeSet) : (a.union b).sameTypes (b.union a) = true :=
  sameTypes_iff.mpr fun t => by rw [mem_union, mem_union, or_comm]

example : ((single .string).union (single .nil)).toList
    ≠ ((single .nil).union (single .string)).toList := by
  decide

/-- Both sides are the set of one sequence. -/
theorem union_assoc (a b c : TypeSet) : (a.union b).union c = a.union (b.union c) := by
  rw [← ofList_toList a, ← ofList_toList b, ← ofList_toList c]
  simp only [ofList_union, List.append_assoc]

theorem union_self (a : TypeSet) : a.union a = a :=
  eq_of_toList (by rw [toList_union]; simp [contains])

theorem union_empty (a : TypeSet) : a.union empty = a := rfl

theorem empty_union (a : TypeSet) : empty.union a = a := ofList_toList a

/-! ## Operations -/

/-- An operation on sets that are kept under numbers.  It reads some of them and replaces one. -/
inductive Operation
  /-- A set of one type. -/
  | single (target : Nat) (type : LuaType)
  /-- One more type in a set. -/
  | add (target : Nat) (type : LuaType)
  /-- The union of two sets. -/
  | union (target left right : Nat)
  /-- All types of a set added to another. -/
  | extend (target source : Nat)

namespace Operation

/-- The sets after an operation. -/
def apply (sets : Nat → TypeSet) : Operation → Nat → TypeSet
  | single i t => Function.update sets i (.single t)
  | add i t => Function.update sets i ((sets i).insert t)
  | union i a b => Function.update sets i ((sets a).union (sets b))
  | extend i b => Function.update sets i ((sets i).insertMany (sets b).toList)

/-- The types that went into each set, in order and with repetitions. -/
def record (inserted : Nat → List LuaType) : Operation → Nat → List LuaType
  | single i t => Function.update inserted i [t]
  | add i t => Function.update inserted i (inserted i ++ [t])
  | union i a b => Function.update inserted i (inserted a ++ inserted b)
  | extend i b => Function.update inserted i (inserted i ++ inserted b)

/-- The sets after some operations, all empty at first. -/
def sets (ops : List Operation) : Nat → TypeSet := ops.foldl apply fun _ => .empty

/-- The types that went into each set by some operations. -/
def inserted (ops : List Operation) : Nat → List LuaType := ops.foldl record fun _ => []

/-- Sets of sequences become sets of the longer sequences. -/
theorem apply_ofList (op : Operation) (lists : Nat → List LuaType) :
    op.apply (ofList ∘ lists) = ofList ∘ op.record lists := by
  cases op with
  | single i t => exact (Function.comp_update ofList lists i [t]).symm
  | add i t =>
    rw [apply, record, Function.comp_update, ofList, insertMany_concat]
    rfl
  | union i a b =>
    rw [apply, record, Function.comp_update, ← ofList_union]
    rfl
  | extend i b =>
    rw [apply, record, Function.comp_update, ← ofList_union]
    rfl

theorem sets_concat (ops : List Operation) (op : Operation) :
    sets (ops ++ [op]) = op.apply (sets ops) :=
  List.foldl_concat _ _ _ _

theorem inserted_concat (ops : List Operation) (op : Operation) :
    inserted (ops ++ [op]) = op.record (inserted ops) :=
  List.foldl_concat _ _ _ _

/-- After all operations, the sets are those of what went into them. -/
theorem sets_eq (ops : List Operation) : sets ops = ofList ∘ inserted ops := by
  induction ops using List.reverseRecOn with
  | nil => rfl
  | append_singleton ops op ih => rw [sets_concat, ih, apply_ofList, inserted_concat]

end Operation

/-- Whatever operations are applied, a set lists each type that went into it once, in the order of
first insertion; its size is the number of these types, and it contains just them.  The union of two
sets lists the first one, and behind it the members of the second that are not in the first.  As
sets, which is to say by their types alone, unions are commutative, associative and idempotent, and
the empty set is their unit; associativity and idempotence hold for the order of the types too. -/
theorem insertion_order_and_union_laws :
    (∀ ops i, (Operation.sets ops i).Lists (Operation.inserted ops i))
    ∧ (∀ a b : TypeSet, (a.union b).toList = a.toList ++ b.toList.filter fun t => !a.contains t)
    ∧ (∀ a b : TypeSet, a.sameTypes b = true ↔ ∀ t, a.contains t = b.contains t)
    ∧ (∀ a b : TypeSet, (a.union b).sameTypes (b.union a) = true)
    ∧ (∀ a b c : TypeSet, ((a.union b).union c).sameTypes (a.union (b.union c)) = true
        ∧ ((a.union b).union c).toList = (a.union (b.union c)).toList)
    ∧ (∀ a : TypeSet, (a.union a).sameTypes a = true ∧ (a.union a).toList = a.toList)
    ∧ (∀ a : TypeSet, (a.union empty).sameTypes a = true
        ∧ (empty.union a).sameTypes a = true) := by
  refine ⟨fun ops i => ?_, toList_union, fun a b => ?_, sameTypes_union_comm, fun a b c => ?_,
    fun a => ?_, fun a => ?_⟩
  · rw [Operation.sets_eq]
    exact lists_ofList _
  · rw [sameTypes_iff]
    exact forall_congr' fun t => by rw [Bool.eq_iff_iff, contains_iff, contains_iff]
  · rw [union_assoc]
    exact ⟨sameTypes_self _, rfl⟩
  · rw [union_self]
    exact ⟨sameTypes_self a, rfl⟩
  · rw [union_empty, empty_union]
    exact ⟨sameTypes_self a, sameTypes_self a⟩

end TypeSet

end LuaTyping
