import LuaTyping.Proofs.Infer.Call
import LuaTyping.Proofs.Infer.Valid

/-!
# Members of unions

A member is looked up in every type of its owner, and what is found is joined.  Each type asks for
expressions of its own, and the guard is the same for all of them, because each hands it back
(`Plan.run_joinAll`).  So an owner is as much as its types, one by one: a member of a union is the
union of the members of both parts, of which one may lack it or have no type there.

The order in which the types of the owner are listed shows in the order of the answer only, and a
type that both parts have is looked up once and adds nothing twice.

* `mem_joinedAnswer`: what a row of answers comes to, type by type.
* `inferMember_eq_join`: a member of an owner is the join of the members of its types.
* `member_of_union`: members of unions, and of owners with the same types.
-/

namespace LuaTyping

/-! ## Joined answers -/

/-- What is known of several answers. -/
def joinedAnswer (answers : List (Option TypeSet)) : Option TypeSet := answers.foldr joinKnown none

section Joined

variable {answers others : List (Option TypeSet)} {a b : Option TypeSet} {t : LuaType}

theorem joinKnown_eq_none_iff : joinKnown a b = none ↔ a = none ∧ b = none := by
  cases a <;> cases b <;> simp [joinKnown]

/-- A type of a joined answer is a type of one of the two. -/
theorem mem_joinKnown :
    (∃ s, joinKnown a b = some s ∧ t ∈ s.toList) ↔
      (∃ s, a = some s ∧ t ∈ s.toList) ∨ ∃ s, b = some s ∧ t ∈ s.toList := by
  cases a <;> cases b <;> simp [joinKnown]

/-- Nothing is known of several answers if nothing is known of any. -/
theorem joinedAnswer_eq_none_iff : joinedAnswer answers = none ↔ ∀ a ∈ answers, a = none := by
  induction answers with
  | nil => simp [joinedAnswer]
  | cons a answers ih =>
    rw [joinedAnswer, List.foldr_cons, joinKnown_eq_none_iff, ← joinedAnswer, ih,
      List.forall_mem_cons]

/-- The types that are known of several answers are those of each. -/
theorem mem_joinedAnswer :
    (∃ s, joinedAnswer answers = some s ∧ t ∈ s.toList) ↔ ∃ s, some s ∈ answers ∧ t ∈ s.toList := by
  induction answers with
  | nil => simp [joinedAnswer]
  | cons a answers ih =>
    rw [joinedAnswer, List.foldr_cons, mem_joinKnown, ← joinedAnswer, ih]
    constructor
    · rintro (⟨s, rfl, mem⟩ | ⟨s, known, mem⟩)
      · exact ⟨s, List.mem_cons_self, mem⟩
      · exact ⟨s, List.mem_cons_of_mem _ known, mem⟩
    · rintro ⟨s, known, mem⟩
      rcases List.mem_cons.mp known with rfl | known
      · exact .inl ⟨s, rfl, mem⟩
      · exact .inr ⟨s, known, mem⟩

/-- Answers are the same if neither is known or both are and have the same types. -/
theorem sameAnswer_iff :
    SameAnswer a b = true ↔
      (a = none ↔ b = none) ∧
        ∀ t, (∃ s, a = some s ∧ t ∈ s.toList) ↔ ∃ s, b = some s ∧ t ∈ s.toList := by
  cases a <;> cases b <;> simp [SameAnswer, TypeSet.sameTypes_iff]

/-- Neither the order of the answers nor how often each is given matters. -/
theorem sameAnswer_joinedAnswer (same : ∀ a, a ∈ answers ↔ a ∈ others) :
    SameAnswer (joinedAnswer answers) (joinedAnswer others) = true := by
  refine sameAnswer_iff.mpr ⟨?_, fun t => ?_⟩
  · rw [joinedAnswer_eq_none_iff, joinedAnswer_eq_none_iff]
    exact forall_congr' fun a => by rw [same a]
  · rw [mem_joinedAnswer, mem_joinedAnswer]
    exact exists_congr fun s => by rw [same (some s)]

end Joined

/-! ## Members -/

/-- Plans in a row are all followed under the guard that the first one is given. -/
theorem Plan.run_joinAll {α : Type} {maxDepth : Nat} {infer : Inference}
    (frame : ∀ e g, (infer e g).2 = g) (f : α → Plan TypeSet) (as : List α) (g : Guard) :
    (joinAll f as).run maxDepth infer g =
      (some (joinedAnswer (as.map fun a => ((f a).run maxDepth infer g).1)), g) := by
  induction as with
  | nil => rfl
  | cons a as ih =>
    unfold joinAll
    rw [run_bind frame, run_attempt, Infer.attempt, Option.bind_some, run_bind frame, ih]
    rfl

/-- The types of a member of one type, under a guard. -/
def memberAnswer (c : Context) (name : String) (g : Guard) (type : LuaType) : Option TypeSet :=
  ((Plan.memberOf c.project name type).run c.maxDepth (inferExpression c) g).1

/-- A member of an owner is the join of the members of its types. -/
theorem inferMember_eq_join (c : Context) (owner : TypeSet) (name : String) (g : Guard) :
    inferMember c (inferExpression c) owner name g =
      (joinedAnswer (owner.toList.map (memberAnswer c name g)), g) := by
  unfold inferMember Context.follow Plan.member
  rw [Plan.run_bind (inferExpression_snd c), Plan.run_joinAll (inferExpression_snd c)]
  rfl

section Owner

variable {c : Context} {name : String} {g : Guard} {owner : TypeSet} {t : LuaType}

/-- A member is unknown if it is unknown in every type of its owner. -/
theorem inferMember_eq_none_iff :
    (inferMember c (inferExpression c) owner name g).1 = none ↔
      ∀ type ∈ owner.toList, memberAnswer c name g type = none := by
  rw [inferMember_eq_join, joinedAnswer_eq_none_iff, List.forall_mem_map]

/-- The types of a member are those that it has in one of the types of its owner. -/
theorem mem_inferMember :
    (∃ s, (inferMember c (inferExpression c) owner name g).1 = some s ∧ t ∈ s.toList) ↔
      ∃ type ∈ owner.toList, ∃ s, memberAnswer c name g type = some s ∧ t ∈ s.toList := by
  rw [inferMember_eq_join, mem_joinedAnswer]
  simp only [List.mem_map]
  constructor
  · rintro ⟨s, ⟨type, inside, known⟩, mem⟩
    exact ⟨type, inside, s, known, mem⟩
  · rintro ⟨type, inside, s, known, mem⟩
    exact ⟨s, ⟨type, inside, known⟩, mem⟩

end Owner

/-- Under every guard, a member of the union of two owners is unknown just if it is unknown in both,
and otherwise it has the types that it has in one of them.  Owners with the same types, listed in
whatever order, have the same member.  The guard is handed back as it was. -/
theorem member_of_union (c : Context) (name : String) (g : Guard) :
    let member := fun owner => (inferMember c (inferExpression c) owner name g).1
    (∀ a b : TypeSet,
      (member (a.union b) = none ↔ member a = none ∧ member b = none) ∧
        ∀ types, member (a.union b) = some types → ∀ t, t ∈ types.toList ↔
          (∃ s, member a = some s ∧ t ∈ s.toList) ∨ ∃ s, member b = some s ∧ t ∈ s.toList) ∧
    (∀ a b : TypeSet, a.sameTypes b = true → SameAnswer (member a) (member b) = true) ∧
    ∀ owner, (inferMember c (inferExpression c) owner name g).2 = g := by
  intro member
  refine ⟨fun a b => ⟨?_, fun types known t => ?_⟩, fun a b same => ?_, fun owner => ?_⟩
  · simp only [member, inferMember_eq_none_iff, TypeSet.mem_union, or_imp, forall_and]
  · have union : t ∈ types.toList ↔ ∃ s, member (a.union b) = some s ∧ t ∈ s.toList := by
      simp [known]
    rw [union]
    simp only [member, mem_inferMember, TypeSet.mem_union, or_and_right, exists_or]
  · simp only [member, inferMember_eq_join]
    refine sameAnswer_joinedAnswer fun answer => ?_
    simp only [List.mem_map, TypeSet.sameTypes_iff.mp same]
  · rw [inferMember_eq_join]

/-- Two tables with a member and one without it.  In the owners the tables are listed in different
orders, and the one without the member hides nothing. -/
theorem member_of_union_tables :
    let c : Context := ⟨.ofFiles [] [("a.lua", "return {n=1},{n=true},{}")], 8⟩
    let number := LuaType.table ⟨0, 4⟩
    let flag := LuaType.table ⟨0, 10⟩
    let bare := LuaType.table ⟨0, 12⟩
    let member := fun owner => (inferMember c (inferExpression c) (.ofList owner) "n" {}).1
    member [number, bare] = some (.single .number) ∧ member [bare] = none ∧
      (TypeSet.ofList [number, bare, flag]).sameTypes (.ofList [flag, number, bare]) = true ∧
      SameAnswer (member [number, bare, flag]) (member [flag, number, bare]) = true := by
  intro c number flag bare member
  have one : member [number, bare] = some (.single .number) := by decide +kernel
  have missing : member [bare] = none := by decide +kernel
  have same : (TypeSet.ofList [number, bare, flag]).sameTypes (.ofList [flag, number, bare])
      = true := by
    decide
  exact ⟨one, missing, same, (member_of_union c "n" {}).2.1 _ _ same⟩

end LuaTyping
