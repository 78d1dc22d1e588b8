import Mathlib.Tactic.Common
import LuaTyping.Infer.Expression

/-!
# Following plans

Two facts about every plan, whatever it asks for.  It hands back the guard it was given, if the
expressions it asks for do so (`Plan.run_snd`); and it asks for them only under guards with the
nesting it was started with, so that two inferences that agree on those give the same answer
(`Plan.run_congr`).  Of two plans one after the other the second is therefore followed under the
guard of the first (`Plan.run_bind`).

From these follows that the levels counted by `inferWithin` are no part of the answer:

* `inferExpression_snd`: inference hands back the guard it was given.
* `inferExpression_eq_nested`: inference follows the plan of the expression, and answers what the
  plan asks for in the same way.  There is no counter in this equation.
* `inferExpression_of_lt`, `inferExpression_of_le`: the same equation below the limit and at it.
-/

namespace LuaTyping

/-! ## The guard between two questions -/

namespace Guard

variable {g g' : Guard} {key : GuardKey} {max limit : Nat} {b : Blocked}

/-- What is in a set is not put into it a second time. -/
theorem insertActive_of_mem (mem : key ∈ g.active) : g.insertActive key = (false, g) := by
  simp [insertActive, mem]

theorem insertActive_of_not_mem (new : key ∉ g.active) :
    g.insertActive key = (true, { g with active := key :: g.active }) := by
  simp [insertActive, new]

theorem enter_of_le (deep : max ≤ g.depth) : g.enter key max = .error .tooDeep g :=
  if_pos deep

theorem enter_of_mem (below : g.depth < max) (mem : key ∈ g.active) :
    g.enter key max = .error .cycle g := by
  rw [enter, if_neg (Nat.not_le_of_lt below), insertActive_of_mem mem]

theorem enter_of_not_mem (below : g.depth < max) (new : key ∉ g.active) :
    g.enter key max = .ok () { g with active := key :: g.active, depth := g.depth + 1 } := by
  rw [enter, if_neg (Nat.not_le_of_lt below), insertActive_of_not_mem new]

theorem descend_of_le (deep : limit ≤ g.nesting) : g.descend limit = .error .tooDeep g :=
  if_pos deep

theorem descend_of_lt (below : g.nesting < limit) :
    g.descend limit = .ok () { g with nesting := g.nesting + 1 } :=
  if_neg (Nat.not_le_of_lt below)

theorem enter_eq_ok_iff :
    g.enter key max = .ok () g' ↔
      g.depth < max ∧ key ∉ g.active ∧
        g' = { g with active := key :: g.active, depth := g.depth + 1 } := by
  constructor
  · intro entered
    by_cases deep : max ≤ g.depth
    · rw [enter_of_le deep] at entered
      cases entered
    have below := Nat.lt_of_not_le deep
    by_cases mem : key ∈ g.active
    · rw [enter_of_mem below mem] at entered
      cases entered
    · rw [enter_of_not_mem below mem] at entered
      cases entered
      exact ⟨below, mem, rfl⟩
  · rintro ⟨below, new, rfl⟩
    exact enter_of_not_mem below new

/-- The depth is looked at before the computation. -/
theorem enter_eq_error_iff :
    g.enter key max = .error b g' ↔
      ((b = .tooDeep ∧ max ≤ g.depth) ∨ (b = .cycle ∧ g.depth < max ∧ key ∈ g.active)) ∧
        g' = g := by
  constructor
  · intro refused
    by_cases deep : max ≤ g.depth
    · rw [enter_of_le deep] at refused
      cases refused
      exact ⟨.inl ⟨rfl, deep⟩, rfl⟩
    have below := Nat.lt_of_not_le deep
    by_cases mem : key ∈ g.active
    · rw [enter_of_mem below mem] at refused
      cases refused
      exact ⟨.inr ⟨rfl, below, mem⟩, rfl⟩
    · rw [enter_of_not_mem below mem] at refused
      cases refused
  · rintro ⟨⟨rfl, deep⟩ | ⟨rfl, below, mem⟩, rfl⟩
    · exact enter_of_le deep
    · exact enter_of_mem below mem

theorem descend_eq_ok_iff :
    g.descend limit = .ok () g' ↔
      g.nesting < limit ∧ g' = { g with nesting := g.nesting + 1 } := by
  constructor
  · intro descended
    by_cases deep : limit ≤ g.nesting
    · rw [descend_of_le deep] at descended
      cases descended
    · rw [descend_of_lt (Nat.lt_of_not_le deep)] at descended
      cases descended
      exact ⟨Nat.lt_of_not_le deep, rfl⟩
  · rintro ⟨below, rfl⟩
    exact descend_of_lt below

theorem descend_eq_error_iff :
    g.descend limit = .error b g' ↔ (b = .tooDeep ∧ limit ≤ g.nesting) ∧ g' = g := by
  constructor
  · intro refused
    by_cases deep : limit ≤ g.nesting
    · rw [descend_of_le deep] at refused
      cases refused
      exact ⟨⟨rfl, deep⟩, rfl⟩
    · rw [descend_of_lt (Nat.lt_of_not_le deep)] at refused
      cases refused
  · rintro ⟨⟨rfl, deep⟩, rfl⟩
    exact descend_of_le deep

/-- A refused computation leaves no trace. -/
theorem eq_of_enter_eq_error (refused : g.enter key max = .error b g') : g' = g :=
  (enter_eq_error_iff.mp refused).2

/-- A refused expression leaves no trace. -/
theorem eq_of_descend_eq_error (refused : g.descend limit = .error b g') : g' = g :=
  (descend_eq_error_iff.mp refused).2

/-- A computation that begins and ends leaves no trace. -/
theorem release_of_enter (entered : g.enter key max = .ok () g') : g'.release key = g := by
  obtain ⟨-, -, rfl⟩ := enter_eq_ok_iff.mp entered
  simp [release]

/-- An expression that begins and ends leaves no trace. -/
theorem ascend_of_descend (descended : g.descend limit = .ok () g') : g'.ascend = g := by
  obtain ⟨-, rfl⟩ := descend_eq_ok_iff.mp descended
  simp [ascend]

end Guard

/-! ## What every plan does -/

namespace Plan

variable {α : Type} {maxDepth : Nat}

/-- A plan hands back the guard it was given, if every expression it asks for does. -/
theorem run_snd {infer : Inference} (frame : ∀ e g, (infer e g).2 = g) (p : Plan α) (g : Guard) :
    (p.run maxDepth infer g).2 = g := by
  induction p generalizing g with
  | answer a => rfl
  | ask e next ih =>
    simp only [run]
    rw [ih, frame]
  | register key body next ihBody ihNext =>
    simp only [run]
    cases entered : g.enter key maxDepth with
    | ok _ g' =>
      simp only
      rw [ihNext, ihBody, Guard.release_of_enter entered]
    | error b g' =>
      simp only
      rw [ihNext, Guard.eq_of_enter_eq_error entered]

/-- A plan asks for expressions only under guards with the nesting it was started with. -/
theorem run_congr {infer infer' : Inference} {n : Nat} (frame : ∀ e g, (infer e g).2 = g)
    (agree : ∀ e g, g.nesting = n → infer e g = infer' e g) (p : Plan α) {g : Guard}
    (nesting : g.nesting = n) : p.run maxDepth infer g = p.run maxDepth infer' g := by
  induction p generalizing g with
  | answer a => rfl
  | ask e next ih =>
    simp only [run]
    rw [← agree e g nesting]
    exact ih _ (by rw [frame, nesting])
  | register key body next ihBody ihNext =>
    simp only [run]
    cases entered : g.enter key maxDepth with
    | ok _ g' =>
      have nesting' : g'.nesting = n := by
        obtain ⟨-, -, rfl⟩ := Guard.enter_eq_ok_iff.mp entered
        exact nesting
      simp only
      rw [← ihBody nesting', run_snd frame]
      exact ihNext _ (by rw [Guard.release_of_enter entered, nesting])
    | error b g' =>
      obtain rfl := Guard.eq_of_enter_eq_error entered
      exact ihNext _ nesting

/-- The second of two plans is followed under the guard that the first was given. -/
theorem run_bind {β : Type} {infer : Inference} (frame : ∀ e g, (infer e g).2 = g) (p : Plan α)
    (f : α → Plan β) (g : Guard) :
    (p >>= f).run maxDepth infer g =
      ((p.run maxDepth infer g).1.bind fun a => ((f a).run maxDepth infer g).1, g) := by
  refine Prod.ext ?_ (run_snd frame _ g)
  change ((p.bind f).run maxDepth infer g).1 = _
  induction p generalizing g with
  | answer a => cases a <;> rfl
  | ask e next ih =>
    simp only [Plan.bind, run]
    rw [ih, frame]
  | register key body next _ ihNext =>
    simp only [Plan.bind, run]
    cases entered : g.enter key maxDepth with
    | ok _ g' =>
      simp only
      rw [ihNext, run_snd frame, Guard.release_of_enter entered]
    | error b g' =>
      obtain rfl := Guard.eq_of_enter_eq_error entered
      exact ihNext _ _ _

/-- To attempt a plan is to follow it, and to have an answer either way. -/
theorem run_attempt (infer : Inference) (p : Plan α) :
    p.attempt.run maxDepth infer = Infer.attempt (p.run maxDepth infer) := by
  funext g
  induction p generalizing g with
  | answer a => rfl
  | ask e next ih => exact ih _ _
  | register key body next _ ihNext =>
    simp only [attempt, run, Infer.attempt]
    cases g.enter key maxDepth with
    | ok _ g' => exact ihNext _ _
    | error b g' => exact ihNext _ _

end Plan

/-! ## Inference without a counter -/

namespace Infer

theorem nested_snd {α : Type} {p : Infer α} (frame : ∀ g, (p g).2 = g) (g : Guard) :
    (nested p g).2 = g := by
  unfold nested
  cases descended : g.descend maxExpressionNesting with
  | ok _ g' =>
    simp only
    rw [frame, Guard.ascend_of_descend descended]
  | error b g' => exact Guard.eq_of_descend_eq_error descended

end Infer

theorem inferWithin_snd (c : Context) (fuel : Nat) (e : Site) (g : Guard) :
    (inferWithin c fuel e g).2 = g := by
  induction fuel generalizing e g with
  | zero => rfl
  | succ fuel ih => exact Infer.nested_snd (fun g => Plan.run_snd ih _ g) g

/-- Inference hands back the guard it was given. -/
theorem inferExpression_snd (c : Context) (e : Site) (g : Guard) :
    (inferExpression c e g).2 = g :=
  inferWithin_snd c _ e g

/-- Inference follows the plan of an expression one level deeper, and answers what the plan asks
for in the same way. -/
theorem inferExpression_eq_nested (c : Context) (e : Site) :
    inferExpression c e =
      Infer.nested ((Plan.ofExpression c.project e).run c.maxDepth (inferExpression c)) := by
  funext g
  by_cases full : maxExpressionNesting ≤ g.nesting
  · have none_left : maxExpressionNesting - g.nesting = 0 := by omega
    simp only [inferExpression, none_left, inferWithin, Infer.nested, Guard.descend_of_le full]
  · have left : maxExpressionNesting - g.nesting =
        (maxExpressionNesting - (g.nesting + 1)) + 1 := by omega
    rw [inferExpression, left]
    simp only [inferWithin, Infer.nested, Guard.descend_of_lt (Nat.lt_of_not_le full)]
    rw [Plan.run_congr (n := g.nesting + 1) (inferWithin_snd c _) _ _ rfl]
    intro e' g' nesting'
    rw [inferExpression, nesting']

/-- Below the limit, the type of an expression is what its plan answers one level deeper. -/
theorem inferExpression_of_lt (c : Context) (e : Site) {g : Guard}
    (below : g.nesting < maxExpressionNesting) :
    (inferExpression c e g).1 =
      ((Plan.ofExpression c.project e).run c.maxDepth (inferExpression c)
        { g with nesting := g.nesting + 1 }).1 := by
  rw [inferExpression_eq_nested]
  simp only [Infer.nested, Guard.descend_of_lt below]

/-- At the limit no expression has a type. -/
theorem inferExpression_of_le (c : Context) (e : Site) {g : Guard}
    (full : maxExpressionNesting ≤ g.nesting) : (inferExpression c e g).1 = none := by
  rw [inferExpression_eq_nested]
  simp only [Infer.nested, Guard.descend_of_le full]

end LuaTyping
