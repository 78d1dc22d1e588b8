import LuaTyping.Proofs.Infer.Run
import LuaTyping.Proofs.TypeSet.Insertion

/-!
# Calls and the types of what they call

A call asks for the types of its callee and takes a function from them; what this function returns
is the type of the call.  The callee contributes nothing else (`inferExpression_call`).

Sets of types are equal whatever the order in which their types were found.  So one would expect
that calls of equal sets have equal types.  There are two reasons why they need not.

* Several functions may be in the set.  The call takes the one that was found first, which equal
  sets need not agree on.
* The callee is an expression inside the call, and one level deeper than by itself.  If its
  inference takes all the levels there are, then inside a call it takes one too many, and less is
  known of it there.

Both are shown by examples (`not_callsBySet`).  Sets are therefore compared as the calls come to
know them, and of the order in which the types were found only one thing is asked: the functions
that come first return the same types.  So they do where they are one function
(`Context.returnsAlike_of_first_eq`), in particular in sets that were found in the same order.

* `call_type_of_sameTypes`: calls of equal sets whose first functions return the same types have the
  same types.
-/

namespace LuaTyping

/-! ## Equal sets -/

/-- Two answers are both unknown, or sets of the same types. -/
def SameAnswer : Option TypeSet → Option TypeSet → Bool
  | none, none => true
  | some a, some b => a.sameTypes b
  | _, _ => false

theorem SameAnswer.refl (a : Option TypeSet) : SameAnswer a a = true := by
  cases a with
  | none => rfl
  | some a => exact TypeSet.sameTypes_iff.mpr fun _ => Iff.rfl

namespace Project

/-- The function that a call of one of the types enters: the first one with a body. -/
def firstFunction? (p : Project) (types : TypeSet) : Option Site :=
  types.toList.findSome? p.functionBody?

/-- Equal sets both have a function with a body or both have none. -/
theorem firstFunction?_eq_none_iff (p : Project) {a b : TypeSet} (same : a.sameTypes b = true) :
    p.firstFunction? a = none ↔ p.firstFunction? b = none := by
  simp only [firstFunction?, List.findSome?_eq_none_iff, TypeSet.sameTypes_iff.mp same]

/-- The call is no call of `require` with a string, and this is the expression that it calls. -/
structure Calls (p : Project) (call callee : Site) : Prop where
  isCall : p.kindAt call = .callExpr
  notRequire : (p.tree call.file).requireTarget? call.node = none
  callee : ((p.tree call.file).callee? call.node).map call.sibling = some callee

instance (p : Project) (call callee : Site) : Decidable (p.Calls call callee) :=
  decidable_of_iff
    (p.kindAt call = .callExpr ∧ (p.tree call.file).requireTarget? call.node = none ∧
      ((p.tree call.file).callee? call.node).map call.sibling = some callee)
    ⟨fun h => ⟨h.1, h.2.1, h.2.2⟩, fun h => ⟨h.1, h.2, h.3⟩⟩

end Project

/-! ## Calls -/

/-- The plan of a call that loads no file. -/
theorem Plan.ofCall_eq {p : Project} {call callee : Site} (h : p.Calls call callee) :
    ofCall p call =
      infer callee >>= fun types =>
        ofOption (p.firstFunction? types) >>= fun body => ofReturn p body := by
  obtain ⟨node, found, rfl⟩ := Option.map_eq_some_iff.mp h.callee
  unfold ofCall Project.requiredFile? callTarget
  rw [h.notRequire, found]
  show Plan.ask _ _ = Plan.ask _ _
  refine congrArg (Plan.ask _) (funext fun answered => ?_)
  cases answered <;> rfl

/-- A call is what the first function among the types of its callee returns, both taken one level
deeper. -/
theorem inferExpression_call {c : Context} {call callee : Site} (h : c.project.Calls call callee)
    {g : Guard} (below : g.nesting < maxExpressionNesting) :
    let deeper : Guard := { g with nesting := g.nesting + 1 }
    (inferExpression c call g).1 =
      ((inferExpression c callee deeper).1.bind c.project.firstFunction?).bind fun body =>
        (guessReturn c (inferExpression c) body deeper).1 := by
  intro deeper
  have plan : Plan.ofExpression c.project call = Plan.ofCall c.project call := by
    unfold Plan.ofExpression
    rw [h.isCall]
  rw [inferExpression_of_lt c call below, plan, Plan.ofCall_eq h,
    Plan.run_bind (inferExpression_snd c)]
  show (inferExpression c callee deeper).1.bind _ = _
  cases (inferExpression c callee deeper).1 with
  | none => rfl
  | some types =>
    rw [Option.bind_some, Option.bind_some, Plan.run_bind (inferExpression_snd c)]
    rfl

/-- Under this guard the first functions of the two sets return the same types. -/
def Context.ReturnsAlike (c : Context) (types₁ types₂ : TypeSet) (g : Guard) : Prop :=
  ∀ f₁ f₂, c.project.firstFunction? types₁ = some f₁ →
    c.project.firstFunction? types₂ = some f₂ →
      SameAnswer (guessReturn c (inferExpression c) f₁ g).1
        (guessReturn c (inferExpression c) f₂ g).1 = true

/-- One function returns what it returns, whatever comes behind it in the two sets. -/
theorem Context.returnsAlike_of_first_eq {c : Context} {types₁ types₂ : TypeSet} (g : Guard)
    (first_eq : c.project.firstFunction? types₁ = c.project.firstFunction? types₂) :
    c.ReturnsAlike types₁ types₂ g := by
  intro f₁ f₂ first second
  rw [first, second] at first_eq
  rw [Option.some.inj first_eq]
  exact SameAnswer.refl _

/-- Calls of equal sets whose first functions return the same types have the same types, under every
guard.  The sets are what the calls know of their callees: the types under the guard of the calls,
one level deeper. -/
theorem call_type_of_sameTypes {c : Context} {call₁ call₂ callee₁ callee₂ : Site}
    (h₁ : c.project.Calls call₁ callee₁) (h₂ : c.project.Calls call₂ callee₂) {g : Guard}
    {types₁ types₂ : TypeSet}
    (known₁ : (inferExpression c callee₁ { g with nesting := g.nesting + 1 }).1 = some types₁)
    (known₂ : (inferExpression c callee₂ { g with nesting := g.nesting + 1 }).1 = some types₂)
    (same : types₁.sameTypes types₂ = true)
    (alike : c.ReturnsAlike types₁ types₂ { g with nesting := g.nesting + 1 }) :
    SameAnswer (inferExpression c call₁ g).1 (inferExpression c call₂ g).1 = true := by
  by_cases below : g.nesting < maxExpressionNesting
  · rw [inferExpression_call h₁ below, inferExpression_call h₂ below, known₁, known₂,
      Option.bind_some, Option.bind_some]
    have both := c.project.firstFunction?_eq_none_iff same
    cases first : c.project.firstFunction? types₁ with
    | none =>
      rw [both.mp first]
      rfl
    | some f₁ =>
      cases second : c.project.firstFunction? types₂ with
      | none =>
        rw [both.mpr second] at first
        cases first
      | some f₂ => exact alike f₁ f₂ first second
  · have full := Nat.le_of_not_lt below
    rw [inferExpression_of_le c call₁ full, inferExpression_of_le c call₂ full]
    rfl

/-- Two functions, the second of which returns the value, chosen for a call in one order and for
another call in the other order. -/
def choosingCalls (value : String) : Project :=
  .ofFiles ["?"] [("a", "return function()return 1 end"),
    ("b", "return function()return " ++ value ++ " end"),
    ("c", "return(require[[a]]or require[[b]])(),(require[[b]]or require[[a]])()")]

/-- Where both functions return a number, it does not matter which of them comes first. -/
theorem call_type_of_sameTypes_choice :
    let c : Context := ⟨choosingCalls "2", 8⟩
    (inferExpression c ⟨2, 14⟩ { nesting := 1 }).1
        = some (.ofList [.function ⟨0, 6⟩, .function ⟨1, 6⟩]) ∧
      (inferExpression c ⟨2, 32⟩ { nesting := 1 }).1
        = some (.ofList [.function ⟨1, 6⟩, .function ⟨0, 6⟩]) ∧
      SameAnswer (inferExpression c ⟨2, 16⟩ {}).1 (inferExpression c ⟨2, 34⟩ {}).1 = true := by
  intro c
  have facts : c.project.Calls ⟨2, 16⟩ ⟨2, 14⟩ ∧ c.project.Calls ⟨2, 34⟩ ⟨2, 32⟩ ∧
      (inferExpression c ⟨2, 14⟩ { nesting := 1 }).1
        = some (.ofList [.function ⟨0, 6⟩, .function ⟨1, 6⟩]) ∧
      (inferExpression c ⟨2, 32⟩ { nesting := 1 }).1
        = some (.ofList [.function ⟨1, 6⟩, .function ⟨0, 6⟩]) ∧
      c.project.firstFunction? (.ofList [.function ⟨0, 6⟩, .function ⟨1, 6⟩]) = some ⟨0, 6⟩ ∧
      c.project.firstFunction? (.ofList [.function ⟨1, 6⟩, .function ⟨0, 6⟩]) = some ⟨1, 6⟩ ∧
      (guessReturn c (inferExpression c) ⟨0, 6⟩ { nesting := 1 }).1 = some (.single .number) ∧
      (guessReturn c (inferExpression c) ⟨1, 6⟩ { nesting := 1 }).1 = some (.single .number) := by
    decide +kernel
  obtain ⟨calls₁, calls₂, known₁, known₂, first₁, first₂, number₁, number₂⟩ := facts
  have alike : c.ReturnsAlike (.ofList [.function ⟨0, 6⟩, .function ⟨1, 6⟩])
      (.ofList [.function ⟨1, 6⟩, .function ⟨0, 6⟩]) { nesting := 1 } := by
    intro f₁ f₂ isFirst₁ isFirst₂
    obtain rfl := Option.some.inj (isFirst₁.symm.trans first₁)
    obtain rfl := Option.some.inj (isFirst₂.symm.trans first₂)
    rw [number₁, number₂]
    exact SameAnswer.refl _
  exact ⟨known₁, known₂,
    call_type_of_sameTypes (g := {}) calls₁ calls₂ known₁ known₂ (by decide) alike⟩

/-! ## Equal sets by themselves -/

/-- Calls whose callees have equal sets of types, each by itself, have equal types. -/
def Project.CallsBySet (p : Project) (maxDepth : Nat) : Prop :=
  ∀ call₁ call₂ callee₁ callee₂ : Site, p.Calls call₁ callee₁ → p.Calls call₂ callee₂ →
    ∀ types₁ types₂, Context.infer ⟨p, maxDepth⟩ callee₁ = some types₁ →
      Context.infer ⟨p, maxDepth⟩ callee₂ = some types₂ → types₁.sameTypes types₂ = true →
        SameAnswer (Context.infer ⟨p, maxDepth⟩ call₁) (Context.infer ⟨p, maxDepth⟩ call₂) = true

/-- A text that returns what another file returns, in some pairs of parentheses. -/
def forwarding (module : String) : String := "return((((((require[[" ++ module ++ "]]))))))"

/-- A function that is handed on from file to file, and two calls of it in the last one.  One of
them has its callee in a pair of parentheses.  By itself this callee takes all levels there are. -/
def handedOn : Project :=
  .ofFiles ["?"] <| [("a", "return function()return 1 end")] ++
    ([("b", "a"), ("c", "b"), ("d", "c"), ("e", "d"), ("f", "e"), ("g", "f"), ("h", "g"),
      ("i", "h"), ("j", "i"), ("k", "j"), ("l", "k"), ("m", "l"), ("n", "m"), ("o", "n")].map
        fun f => (f.1, forwarding f.2)) ++
    [("p", "return require[[o]](),(require[[o]])()")]

/-- Calls of equal sets need not have equal types, for either of two reasons: of two functions the
calls take different ones, or the function is too far away for one of the calls. -/
theorem not_callsBySet :
    ¬ (choosingCalls "true").CallsBySet defaultMaxDepth ∧
      ¬ handedOn.CallsBySet defaultMaxDepth := by
  constructor
  · intro bySet
    have facts :
        (choosingCalls "true").Calls ⟨2, 16⟩ ⟨2, 14⟩ ∧
        (choosingCalls "true").Calls ⟨2, 34⟩ ⟨2, 32⟩ ∧
        Context.infer ⟨choosingCalls "true", defaultMaxDepth⟩ ⟨2, 14⟩ =
          some (.ofList [.function ⟨0, 6⟩, .function ⟨1, 6⟩]) ∧
        Context.infer ⟨choosingCalls "true", defaultMaxDepth⟩ ⟨2, 32⟩ =
          some (.ofList [.function ⟨1, 6⟩, .function ⟨0, 6⟩]) ∧
        Context.infer ⟨choosingCalls "true", defaultMaxDepth⟩ ⟨2, 16⟩ =
          some (.single .number) ∧
        Context.infer ⟨choosingCalls "true", defaultMaxDepth⟩ ⟨2, 34⟩ =
          some (.single .boolean) := by
      decide +kernel
    obtain ⟨calls₁, calls₂, known₁, known₂, number, boolean⟩ := facts
    have equal := bySet _ _ _ _ calls₁ calls₂ _ _ known₁ known₂ (by decide)
    rw [number, boolean] at equal
    exact absurd equal (by decide)
  · intro bySet
    have facts :
        handedOn.Calls ⟨15, 6⟩ ⟨15, 4⟩ ∧ handedOn.Calls ⟨15, 16⟩ ⟨15, 14⟩ ∧
        Context.infer ⟨handedOn, defaultMaxDepth⟩ ⟨15, 4⟩ =
          some (.single (.function ⟨0, 6⟩)) ∧
        Context.infer ⟨handedOn, defaultMaxDepth⟩ ⟨15, 14⟩ =
          some (.single (.function ⟨0, 6⟩)) ∧
        Context.infer ⟨handedOn, defaultMaxDepth⟩ ⟨15, 6⟩ = some (.single .number) ∧
        Context.infer ⟨handedOn, defaultMaxDepth⟩ ⟨15, 16⟩ = none := by
      decide +kernel
    obtain ⟨calls₁, calls₂, known₁, known₂, number, unknown⟩ := facts
    have equal := bySet _ _ _ _ calls₁ calls₂ _ _ known₁ known₂ (by decide)
    rw [number, unknown] at equal
    exact absurd equal (by decide)

end LuaTyping
