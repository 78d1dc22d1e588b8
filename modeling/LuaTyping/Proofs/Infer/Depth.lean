import LuaTyping.Proofs.Infer.Moments

/-!
# Large limits on registrations

Inference is limited twice: at most `maxExpressionNesting` expressions may be nested, and at most
`maxDepth` computations may be registered.  The second limit means something only where it is
smaller than the first one.

The reason is a bound on single plans.  The plan of an expression may register several computations
one after the other, and what is registered may ask for other expressions, which are a level deeper;
but it never registers one inside another (`Plan.ofExpression_holds`).  So each nested expression
holds at most one registration, and where a computation is to be registered there is still one
level more than there are registrations.

* `Plan.HoldsAtMost`: how many of its own registrations a plan has at once.
* `Plan.Follows.relimit`: with limits this large every run is a run under every other such limit,
  moment by moment.
* `depth_limit_is_no_limit`: such limits make no difference to any answer.
-/

namespace LuaTyping

/-- Below two limits, what one of them lets in the other lets in. -/
theorem Guard.enter_eq_of_lt {g : Guard} (key : GuardKey) {m n : Nat} (hm : g.depth < m)
    (hn : g.depth < n) : g.enter key m = g.enter key n := by
  rw [enter, enter, if_neg (Nat.not_le_of_lt hm), if_neg (Nat.not_le_of_lt hn)]

namespace Plan

/-- A plan never has more than `n` of its own registrations at once.  What is registered by the
plans of expressions that it asks for does not count. -/
inductive HoldsAtMost : Nat → {α : Type} → Plan α → Prop
  | answer {n : Nat} {α : Type} {a : Option α} : HoldsAtMost n (.answer a)
  | ask {n : Nat} {α : Type} {e : Site} {next : Option TypeSet → Plan α} :
    (∀ r, HoldsAtMost n (next r)) → HoldsAtMost n (.ask e next)
  | register {n : Nat} {α : Type} {key : GuardKey} {body : Plan TypeSet}
    {next : Option TypeSet → Plan α} :
    HoldsAtMost n body → (∀ r, HoldsAtMost (n + 1) (next r)) →
    HoldsAtMost (n + 1) (.register key body next)

namespace HoldsAtMost

variable {n : Nat} {α β : Type}

theorem infer (e : Site) : HoldsAtMost n (infer e) := ask fun _ => answer

theorem guarded {kind : GuardKind} {site : Site} {p : Plan TypeSet} (h : HoldsAtMost n p) :
    HoldsAtMost (n + 1) (guarded kind site p) :=
  register h fun _ => answer

theorem bind {p : Plan α} {f : α → Plan β} (hp : HoldsAtMost n p)
    (hf : ∀ a, HoldsAtMost n (f a)) : HoldsAtMost n (p >>= f) := by
  show HoldsAtMost n (p.bind f)
  induction hp with
  | @answer _ _ a =>
    cases a with
    | none => exact answer
    | some a => exact hf a
  | ask _ ih => exact ask fun r => ih r hf
  | register body _ _ ih => exact register body fun r => ih r hf

/-- A plan that goes on with what is in an option. -/
theorem ofOption_bind {a : Option α} {f : α → Plan β} (hf : ∀ x, HoldsAtMost n (f x)) :
    HoldsAtMost n (Plan.ofOption a >>= f) :=
  bind answer hf

theorem attempt {p : Plan α} (hp : HoldsAtMost n p) : HoldsAtMost n p.attempt := by
  induction hp with
  | answer => exact answer
  | ask _ ih => exact ask ih
  | register body _ _ ih => exact register body ih

theorem joinAll {f : α → Plan TypeSet} (hf : ∀ a, HoldsAtMost n (f a)) (as : List α) :
    HoldsAtMost n (joinAll f as) := by
  induction as with
  | nil => exact answer
  | cons a as ih => exact bind (attempt (hf a)) fun _ => bind ih fun _ => answer

end HoldsAtMost

/-! ## The plans of expressions -/

section Expressions

variable (p : Project) (n : Nat)

theorem member_holds (owner : TypeSet) (name : String) : HoldsAtMost n (member p owner name) := by
  refine .bind (.joinAll (fun type => ?_) _) fun _ => .answer
  unfold memberOf
  split
  · exact .infer _
  · exact .answer
  · exact .answer

theorem ofFields_holds (types : TypeSet) (names : List String) :
    HoldsAtMost n (ofFields p types names) := by
  induction names generalizing types with
  | nil => exact .answer
  | cons name names ih => exact .bind (member_holds p n types name) ih

theorem ofMember_holds (e : Site) : HoldsAtMost n (ofMember p e) :=
  .ofOption_bind fun _ => .ofOption_bind fun _ => .bind (.infer _) fun _ => member_holds p n _ _

theorem ofMethod_holds (e : Site) : HoldsAtMost n (ofMethod p e) :=
  .ofOption_bind fun _ => .bind (.infer _) fun _ => .ofOption_bind fun _ => member_holds p n _ _

theorem operand_holds (e : Site) (id : Option NodeId) : HoldsAtMost n (operand e id) :=
  .ofOption_bind fun _ => .infer _

theorem ofBinary_holds (e : Site) : HoldsAtMost n (ofBinary p e) := by
  unfold ofBinary
  dsimp only
  split
  · exact .bind (.attempt (operand_holds n _ _)) fun _ =>
      .bind (.attempt (operand_holds n _ _)) fun _ => .answer
  · exact .ofOption_bind fun _ => .answer

theorem assigned_holds (target : Site) : HoldsAtMost n (assigned p target) := by
  refine .ofOption_bind fun stat => ?_
  split
  · exact .answer
  · exact .ofOption_bind fun _ => .infer _

theorem ofTarget_holds (target : Site) : HoldsAtMost n (ofTarget p target) := by
  refine .bind (.attempt (assigned_holds p n target)) fun types => ?_
  split
  · exact .answer
  · exact .answer

theorem ofVariable_holds (name : Site) : HoldsAtMost (n + 1) (ofVariable p name) := by
  refine .guarded (.ofOption_bind fun stat => ?_)
  split
  · split
    · exact .answer
    · exact .ofOption_bind fun _ => .infer _
  · exact .answer
  · exact .answer

theorem ofSelf_holds (method : Site) : HoldsAtMost (n + 1) (ofSelf p method) :=
  .guarded <| .ofOption_bind fun _ => .ofOption_bind fun _ =>
    .bind (.infer _) fun _ => ofFields_holds p n _ _

theorem ofReturn_holds (body : Site) : HoldsAtMost (n + 1) (ofReturn p body) := by
  refine .guarded ?_
  dsimp only
  split
  · exact .answer
  · exact .bind (.joinAll (fun _ => .infer _) _) fun _ => .answer

theorem ofFile_holds (file : Nat) : HoldsAtMost (n + 1) (ofFile p file) :=
  .guarded (.ofOption_bind fun _ => .infer _)

theorem ofDeclaration_holds (d : Declaration) : HoldsAtMost (n + 1) (ofDeclaration p d) := by
  unfold ofDeclaration
  split
  · exact ofVariable_holds p n _
  · exact .answer
  · exact .ofOption_bind fun _ => .answer
  · exact .ofOption_bind fun _ => .answer
  · exact ofSelf_holds p n _
  · exact .answer
  · exact .answer

theorem ofName_holds (name : Site) : HoldsAtMost (n + 1) (ofName p name) := by
  unfold ofName
  split
  · exact .answer
  · split
    · exact ofTarget_holds p _ _
    · exact ofDeclaration_holds p n _

/-- The callee is asked for before the function is registered, and not while it is. -/
theorem ofCall_holds (call : Site) : HoldsAtMost (n + 1) (ofCall p call) := by
  unfold ofCall
  split
  · exact ofFile_holds p n _
  · have target : HoldsAtMost (n + 1) (callTarget p call) :=
      .ofOption_bind fun _ => .bind (.infer _) fun _ => .answer
    exact .bind target fun _ => ofReturn_holds p n _

/-- A value is registered while a member in it is looked up, which registers nothing. -/
theorem ofValue_holds (value : Site) : HoldsAtMost (n + 1) (ofValue p value) := by
  refine .guarded (.ofOption_bind fun form => ?_)
  cases form with
  | expr id => exact .infer _
  | member id => exact ofMember_holds p n _
  | table id => exact .answer
  | literal id => exact .ofOption_bind fun _ => .answer
  | closure id => exact .ofOption_bind fun _ => .answer

/-- The plan of an expression never registers one computation inside another. -/
theorem ofExpression_holds (e : Site) : HoldsAtMost 1 (ofExpression p e) := by
  unfold ofExpression
  split
  · exact ofValue_holds p 0 e
  · exact ofCall_holds p 0 e
  · exact ofName_holds p 0 e
  · exact .ofOption_bind fun _ => .infer _
  · exact ofMember_holds p 1 e
  · exact ofMember_holds p 1 e
  · exact ofMethod_holds p 1 e
  · exact ofBinary_holds p 1 e
  · exact .ofOption_bind fun _ => .answer
  · exact .answer

end Expressions

/-! ## Runs under large limits -/

/-- Where a plan starts with as many levels more than registrations as it will have registrations
at once, its run is a run under every limit that is as large as the one on levels, and at no
moment there are more registrations than levels.

The surplus of levels is the invariant: a call adds a level, and with it the one registration that
the plan of the called expression may have at once; a registration takes one of both sides. -/
theorem Follows.relimit {α : Type} {c : Context} {calls : List Site} {plan : Plan α}
    {g g' : Guard} {a : Option α} {moments : List Moment} {d n : Nat}
    (hc : maxExpressionNesting ≤ c.maxDepth) (hd : maxExpressionNesting ≤ d)
    (h : Follows c calls plan g a g' moments) (few : HoldsAtMost n plan)
    (surplus : g.depth + n ≤ g.nesting) (nesting : g.nesting ≤ maxExpressionNesting) :
    Follows ⟨c.project, d⟩ calls plan g a g' moments ∧
      ∀ m ∈ moments, m.guard.depth ≤ m.guard.nesting := by
  induction h generalizing n with
  | answer => exact ⟨.answer, by simp⟩
  | ask descended inner _ ihInner ihRest =>
    have back := Guard.ascend_of_descend descended
    rw [← inner.guard_eq] at back
    rw [back] at ihRest ⊢
    obtain ⟨below, rfl⟩ := Guard.descend_eq_ok_iff.mp descended
    cases few with
    | ask few =>
      obtain ⟨innerRun, innerMoments⟩ :=
        ihInner (ofExpression_holds _ _) (by dsimp only; omega) below
      obtain ⟨restRun, restMoments⟩ := ihRest (few _) surplus nesting
      refine ⟨?_, ?_⟩
      · have run := Follows.ask (c := ⟨c.project, d⟩) descended innerRun (by rwa [back])
        rwa [back] at run
      · rw [List.forall_mem_append, List.forall_mem_cons, List.forall_mem_cons]
        exact ⟨⟨by dsimp only; omega, innerMoments⟩, by dsimp only; omega, restMoments⟩
  | askRefused refused _ ihRest =>
    obtain rfl := Guard.eq_of_descend_eq_error refused
    cases few with
    | ask few =>
      obtain ⟨restRun, restMoments⟩ := ihRest (few none) surplus nesting
      exact ⟨.askRefused refused restRun, restMoments⟩
  | @register _ _ key _ _ _ _ _ _ _ _ _ _ entered inner _ ihInner ihRest =>
    have back := Guard.release_of_enter entered
    rw [← inner.guard_eq] at back
    rw [back] at ihRest ⊢
    cases few with
    | @register m _ _ _ _ few fewRest =>
      have reentered := entered
      rw [Guard.enter_eq_of_lt key (n := d) (by omega) (by omega)] at reentered
      obtain ⟨-, -, rfl⟩ := Guard.enter_eq_ok_iff.mp entered
      obtain ⟨innerRun, innerMoments⟩ := ihInner few (by dsimp only; omega) nesting
      obtain ⟨restRun, restMoments⟩ := ihRest (fewRest _) surplus nesting
      refine ⟨?_, ?_⟩
      · have run := Follows.register (c := ⟨c.project, d⟩) reentered innerRun (by rwa [back])
        rwa [back] at run
      · rw [List.forall_mem_append, List.forall_mem_cons, List.forall_mem_cons]
        exact ⟨⟨by dsimp only; omega, innerMoments⟩, by dsimp only; omega, restMoments⟩
  | @registerRefused _ _ key _ _ _ _ _ _ _ _ refused _ ihRest =>
    obtain rfl := Guard.eq_of_enter_eq_error refused
    cases few with
    | register _ fewRest =>
      rw [Guard.enter_eq_of_lt key (n := d) (by omega) (by omega)] at refused
      obtain ⟨restRun, restMoments⟩ := ihRest (fewRest none) surplus nesting
      exact ⟨.registerRefused refused restRun, restMoments⟩

end Plan

/-- Two limits on registrations that are at least as large as the limit on nested expressions give
the same type of every expression, by the same runs.  At every moment of these no more computations
are registered than expressions are nested, so that the limit on registrations refuses none. -/
theorem depth_limit_is_no_limit (p : Project) (e : Site) {d₁ d₂ : Nat}
    (h₁ : maxExpressionNesting ≤ d₁) (h₂ : maxExpressionNesting ≤ d₂) :
    Context.infer ⟨p, d₁⟩ e = Context.infer ⟨p, d₂⟩ e ∧
      ∀ a g moments, Plan.Follows ⟨p, d₁⟩ [] (.infer e) {} a g moments →
        Plan.Follows ⟨p, d₂⟩ [] (.infer e) {} a g moments ∧
          ∀ m ∈ moments, m.guard.active.length ≤ m.calls.length := by
  have relimit {a g moments} (follows : Plan.Follows ⟨p, d₁⟩ [] (.infer e) {} a g moments) :=
    follows.relimit (n := 0) h₁ h₂ (.infer e) (Nat.le_refl _) (Nat.zero_le _)
  refine ⟨?_, fun a g moments follows => ⟨(relimit follows).1, fun m hm => ?_⟩⟩
  · obtain ⟨a, g, moments, follows⟩ := Plan.exists_follows ⟨p, d₁⟩ [] (.infer e) {}
    have run₁ := follows.run_eq
    have run₂ := (relimit follows).1.run_eq
    rw [Plan.run_infer] at run₁ run₂
    rw [Context.infer, Context.infer, Context.ask, Context.ask, run₁, run₂]
  · have limits := follows.withinLimits (Moment.WithinLimits.start _) m hm
    rw [← limits.depth_eq, ← limits.nesting_eq]
    exact (relimit follows).2 m hm

/-- A chain of three variables: a limit of two stops it, and the limits of 200 and 1000 do not. -/
theorem depth_limit_is_no_limit_chain :
    let p := Project.ofFiles [] [("a.lua", "local a=1 local b=a local c=b return c")]
    Context.infer ⟨p, 2⟩ ⟨0, 15⟩ = none ∧
      Context.infer ⟨p, 200⟩ ⟨0, 15⟩ = some (.single .number) ∧
      maxExpressionNesting ≤ 200 ∧ maxExpressionNesting ≤ 1000 ∧
      Context.infer ⟨p, 1000⟩ ⟨0, 15⟩ = some (.single .number) := by
  have small : maxExpressionNesting ≤ 200 := by decide
  have large : maxExpressionNesting ≤ 1000 := by decide
  have stopped : Context.infer ⟨.ofFiles []
      [("a.lua", "local a=1 local b=a local c=b return c")], 2⟩ ⟨0, 15⟩ = none := by
    decide +kernel
  have known : Context.infer ⟨.ofFiles []
      [("a.lua", "local a=1 local b=a local c=b return c")], 200⟩ ⟨0, 15⟩
        = some (.single .number) := by
    decide +kernel
  exact ⟨stopped, known, small, large, (depth_limit_is_no_limit _ _ small large).1 ▸ known⟩

end LuaTyping
