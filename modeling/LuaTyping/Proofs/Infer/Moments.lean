import LuaTyping.Proofs.Infer.Run

/-!
# Every moment of inference

`Plan.Follows` says how a plan is followed, one rule for each thing a plan can do: an expression
that is asked for is a call, which follows the plan of that expression in its turn, and a part that
is registered is followed under the guard with its registration.  No number of levels occurs in
the rules, and nothing but the guard ever refuses to go on.  A derivation is a finished run, and it
lists the moments of the run: after each change, the calls that are in progress and the guard.

* `Plan.Follows.run_eq`: what a run answers is the answer of `Plan.run`.
* `Plan.exists_follows`: every plan has a run.
* `inference_ends_within_limits`: asking for an expression ends, with the answer of
  `Context.infer`, and at every moment the calls and the registrations are within their limits.
-/

namespace LuaTyping

/-- A moment of a run. -/
structure Moment where
  /-- The expressions whose inference is in progress, innermost first. -/
  calls : List Site
  guard : Guard

/-- The guard counts what is in progress, and no count is past its limit. -/
structure Moment.WithinLimits (c : Context) (m : Moment) : Prop where
  nesting_eq : m.guard.nesting = m.calls.length
  depth_eq : m.guard.depth = m.guard.active.length
  calls_le : m.calls.length ≤ maxExpressionNesting
  active_le : m.guard.active.length ≤ c.maxDepth

namespace Moment.WithinLimits

variable {c : Context} {calls : List Site} {g g' : Guard}

theorem start (c : Context) : WithinLimits c ⟨[], {}⟩ :=
  ⟨rfl, rfl, Nat.zero_le _, Nat.zero_le _⟩

theorem descend (h : WithinLimits c ⟨calls, g⟩) (e : Site)
    (descended : g.descend maxExpressionNesting = .ok () g') :
    WithinLimits c ⟨e :: calls, g'⟩ := by
  obtain ⟨below, rfl⟩ := Guard.descend_eq_ok_iff.mp descended
  have nesting := h.nesting_eq
  dsimp only at nesting
  refine ⟨?_, h.depth_eq, ?_, h.active_le⟩
  · rw [List.length_cons, ← nesting]
  · rw [List.length_cons, ← nesting]
    exact below

theorem enter (h : WithinLimits c ⟨calls, g⟩) {key : GuardKey}
    (entered : g.enter key c.maxDepth = .ok () g') : WithinLimits c ⟨calls, g'⟩ := by
  obtain ⟨below, -, rfl⟩ := Guard.enter_eq_ok_iff.mp entered
  have depth := h.depth_eq
  dsimp only at depth
  refine ⟨h.nesting_eq, ?_, h.calls_le, ?_⟩
  · rw [List.length_cons, ← depth]
  · rw [List.length_cons, ← depth]
    exact below

end Moment.WithinLimits

namespace Plan

/-- `Follows c calls p g a g' moments`: while `calls` are in progress, the plan `p` is followed
under the guard `g`; it answers `a`, hands back `g'` and goes through `moments`. -/
inductive Follows (c : Context) : {α : Type} →
    List Site → Plan α → Guard → Option α → Guard → List Moment → Prop
  | answer {α calls g} {a : Option α} : Follows c calls (.answer a) g a g []
  /-- A call follows the plan of the expression, one level deeper. -/
  | ask {α calls e g g₁ g₂ g₃ r ms ns} {a : Option α} {next : Option TypeSet → Plan α}
      (descended : g.descend maxExpressionNesting = .ok () g₁)
      (inner : Follows c (e :: calls) (ofExpression c.project e) g₁ r g₂ ms)
      (rest : Follows c calls (next r) g₂.ascend a g₃ ns) :
      Follows c calls (.ask e next) g a g₃ (⟨e :: calls, g₁⟩ :: ms ++ ⟨calls, g₂.ascend⟩ :: ns)
  | askRefused {α calls e g g₁ g₂ b ms} {a : Option α} {next : Option TypeSet → Plan α}
      (refused : g.descend maxExpressionNesting = .error b g₁)
      (rest : Follows c calls (next none) g₁ a g₂ ms) :
      Follows c calls (.ask e next) g a g₂ ms
  | register {α calls key body g g₁ g₂ g₃ r ms ns} {a : Option α}
      {next : Option TypeSet → Plan α}
      (entered : g.enter key c.maxDepth = .ok () g₁)
      (inner : Follows c calls body g₁ r g₂ ms)
      (rest : Follows c calls (next r) (g₂.release key) a g₃ ns) :
      Follows c calls (.register key body next) g a g₃
        (⟨calls, g₁⟩ :: ms ++ ⟨calls, g₂.release key⟩ :: ns)
  | registerRefused {α calls key body g g₁ g₂ b ms} {a : Option α}
      {next : Option TypeSet → Plan α}
      (refused : g.enter key c.maxDepth = .error b g₁)
      (rest : Follows c calls (next none) g₁ a g₂ ms) :
      Follows c calls (.register key body next) g a g₂ ms

namespace Follows

variable {α : Type} {c : Context} {calls : List Site} {p : Plan α} {g g' : Guard}
  {a : Option α} {moments : List Moment}

/-- A run hands back the guard it was given. -/
theorem guard_eq (h : Follows c calls p g a g' moments) : g' = g := by
  induction h with
  | answer => rfl
  | ask descended _ _ inner rest => rw [rest, inner, Guard.ascend_of_descend descended]
  | askRefused refused _ rest => rw [rest, Guard.eq_of_descend_eq_error refused]
  | register entered _ _ inner rest => rw [rest, inner, Guard.release_of_enter entered]
  | registerRefused refused _ rest => rw [rest, Guard.eq_of_enter_eq_error refused]

/-- What a run answers is what `Plan.run` answers. -/
theorem run_eq (h : Follows c calls p g a g' moments) :
    p.run c.maxDepth (inferExpression c) g = (a, g') := by
  induction h with
  | answer => rfl
  | ask descended _ _ inner rest =>
    simp only [run, inferExpression_eq_nested, Infer.nested, descended]
    rw [inner]
    exact rest
  | askRefused refused _ rest =>
    simp only [run, inferExpression_eq_nested, Infer.nested, refused]
    exact rest
  | register entered _ _ inner rest =>
    simp only [run, entered]
    rw [inner]
    exact rest
  | registerRefused refused _ rest =>
    simp only [run, refused]
    exact rest

/-- A run that starts within the limits stays within them. -/
theorem withinLimits (h : Follows c calls p g a g' moments)
    (start : Moment.WithinLimits c ⟨calls, g⟩) : ∀ m ∈ moments, Moment.WithinLimits c m := by
  induction h with
  | answer => simp
  | @ask _ _ e _ _ _ _ _ _ _ _ _ descended inner _ ihInner ihRest =>
    -- both the state before the call and the state after it are `⟨calls, g⟩`
    have back := Guard.ascend_of_descend descended
    rw [← inner.guard_eq] at back
    have deeper := start.descend e descended
    rw [back] at ihRest ⊢
    exact List.forall_mem_append.mpr ⟨List.forall_mem_cons.mpr ⟨deeper, ihInner deeper⟩,
      List.forall_mem_cons.mpr ⟨start, ihRest start⟩⟩
  | askRefused refused _ rest =>
    obtain rfl := Guard.eq_of_descend_eq_error refused
    exact rest start
  | register entered inner _ ihInner ihRest =>
    have back := Guard.release_of_enter entered
    rw [← inner.guard_eq] at back
    have deeper := start.enter entered
    rw [back] at ihRest ⊢
    exact List.forall_mem_append.mpr ⟨List.forall_mem_cons.mpr ⟨deeper, ihInner deeper⟩,
      List.forall_mem_cons.mpr ⟨start, ihRest start⟩⟩
  | registerRefused refused _ rest =>
    obtain rfl := Guard.eq_of_enter_eq_error refused
    exact rest start

end Follows

/-- Every plan has a run.  The outer induction is on the levels that the guard has left, which
every call lowers; the inner one is on the plan. -/
theorem exists_follows (c : Context) {α : Type} (calls : List Site) (p : Plan α) (g : Guard) :
    ∃ a g' moments, Follows c calls p g a g' moments := by
  induction left : maxExpressionNesting - g.nesting using Nat.strongRecOn
    generalizing α calls p g with
  | _ n deeper =>
    induction p generalizing g with
    | answer a => exact ⟨a, g, [], .answer⟩
    | ask e next ih =>
      cases descended : g.descend maxExpressionNesting with
      | ok _ g₁ =>
        have less : maxExpressionNesting - g₁.nesting < n := by
          obtain ⟨below, rfl⟩ := Guard.descend_eq_ok_iff.mp descended
          dsimp only
          omega
        obtain ⟨r, g₂, ms, inner⟩ :=
          deeper _ less (e :: calls) (ofExpression c.project e) g₁ rfl
        have back : g₂.ascend = g := by
          rw [inner.guard_eq, Guard.ascend_of_descend descended]
        obtain ⟨a, g₃, ns, rest⟩ := ih r g₂.ascend (by rw [back, left])
        exact ⟨a, g₃, _, .ask descended inner rest⟩
      | error b g₁ =>
        obtain rfl := Guard.eq_of_descend_eq_error descended
        obtain ⟨a, g₂, ms, rest⟩ := ih none g₁ left
        exact ⟨a, g₂, ms, .askRefused descended rest⟩
    | register key body next ihBody ihNext =>
      cases entered : g.enter key c.maxDepth with
      | ok _ g₁ =>
        have same : g₁.nesting = g.nesting := by
          obtain ⟨-, -, rfl⟩ := Guard.enter_eq_ok_iff.mp entered
          rfl
        obtain ⟨r, g₂, ms, inner⟩ := ihBody g₁ (by rw [same, left])
        have back : g₂.release key = g := by
          rw [inner.guard_eq, Guard.release_of_enter entered]
        obtain ⟨a, g₃, ns, rest⟩ := ihNext r (g₂.release key) (by rw [back, left])
        exact ⟨a, g₃, _, .register entered inner rest⟩
      | error b g₁ =>
        obtain rfl := Guard.eq_of_enter_eq_error entered
        obtain ⟨a, g₂, ms, rest⟩ := ihNext none g₁ left
        exact ⟨a, g₂, ms, .registerRefused entered rest⟩

theorem run_infer (c : Context) (e : Site) (g : Guard) :
    (infer e).run c.maxDepth (inferExpression c) g = inferExpression c e g :=
  rfl

end Plan

/-- Asking for the type of an expression ends, whatever the project and the limit on registrations
are, with the answer of `Context.infer`.  Every chain of computations goes from one expression to
another by a call, and at every moment no more than `maxExpressionNesting` calls are in progress and
no more than `maxDepth` computations are registered. -/
theorem inference_ends_within_limits (c : Context) (e : Site) :
    (∃ moments, Plan.Follows c [] (.infer e) {} (c.infer e) {} moments) ∧
      ∀ a g moments, Plan.Follows c [] (.infer e) {} a g moments →
        a = c.infer e ∧ g = {} ∧
          ∀ m ∈ moments,
            m.calls.length ≤ maxExpressionNesting ∧ m.guard.nesting = m.calls.length ∧
              m.guard.active.length ≤ c.maxDepth ∧ m.guard.depth = m.guard.active.length := by
  have answer : ∀ a g moments, Plan.Follows c [] (.infer e) {} a g moments →
      a = c.infer e ∧ g = {} := by
    intro a g moments follows
    have run := follows.run_eq
    rw [Plan.run_infer] at run
    refine ⟨?_, follows.guard_eq⟩
    rw [Context.infer, Context.ask, run]
  refine ⟨?_, ?_⟩
  · obtain ⟨a, g, moments, follows⟩ := Plan.exists_follows c [] (.infer e) {}
    obtain ⟨rfl, rfl⟩ := answer a g moments follows
    exact ⟨moments, follows⟩
  · intro a g moments follows
    obtain ⟨rfl, rfl⟩ := answer a g moments follows
    refine ⟨rfl, rfl, fun m hm => ?_⟩
    have limits := follows.withinLimits (Moment.WithinLimits.start c) m hm
    exact ⟨limits.calls_le, limits.nesting_eq, limits.active_le, limits.depth_eq⟩

end LuaTyping
