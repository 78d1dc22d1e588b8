import LuaTyping.Proofs.Infer.Gives

/-!
# Plans that agree

Two plans agree as long as they are told alike: they ask for the same expressions, register the
same computations and come to the same answers.  What is asked for stays *near*, and what is told
has a property `Q`; about expressions that are not near, and about answers without `Q`, nothing is
demanded.  If the plans of all near expressions of two projects agree, then the projects have the
same types for them, however far the projects differ otherwise.

* `Plan.Agree`: two plans agree, and their answer has a property.
* `Plan.Agree.bind`, `Plan.Agree.joinAll`, …: one lemma for each way of putting plans together.
* `Plan.Agree.run`: plans that agree answer alike.
* `Context.infer_eq`: from plans to inference.
-/

namespace LuaTyping

namespace Plan

/-- Two plans do the same as long as they are told type sets with the property `Q`: they ask for
near expressions only, and their answer has the property `post`. -/
inductive Agree (near : Site → Prop) (Q : TypeSet → Prop) :
    {α : Type} → (α → Prop) → Plan α → Plan α → Prop
  | answer {α : Type} {post : α → Prop} {a : Option α} :
    (∀ x, a = some x → post x) → Agree near Q post (.answer a) (.answer a)
  | ask {α : Type} {post : α → Prop} {e : Site} {next next' : Option TypeSet → Plan α} :
    near e → (∀ r, (∀ s, r = some s → Q s) → Agree near Q post (next r) (next' r)) →
    Agree near Q post (.ask e next) (.ask e next')
  | register {α : Type} {post : α → Prop} {key : GuardKey} {body body' : Plan TypeSet}
    {next next' : Option TypeSet → Plan α} :
    Agree near Q Q body body' →
    (∀ r, (∀ s, r = some s → Q s) → Agree near Q post (next r) (next' r)) →
    Agree near Q post (.register key body next) (.register key body' next')

namespace Agree

variable {near : Site → Prop} {Q : TypeSet → Prop} {α β : Type} {post : α → Prop}
  {post' : β → Prop}

theorem pure {a : α} (h : post a) : Agree near Q post (Pure.pure a) (Pure.pure a) := by
  refine answer ?_
  rintro x ⟨⟩
  exact h

theorem unknown : Agree near Q post (Plan.unknown : Plan α) Plan.unknown := by
  refine answer ?_
  rintro x ⟨⟩

theorem ofOption {a : Option α} (h : ∀ x, a = some x → post x) :
    Agree near Q post (ofOption a) (Plan.ofOption a) := answer h

theorem infer {e : Site} (h : near e) : Agree near Q Q (infer e) (Plan.infer e) :=
  ask h fun _ told => answer told

theorem guarded {kind : GuardKind} {site : Site} {p p' : Plan TypeSet} (h : Agree near Q Q p p') :
    Agree near Q Q (guarded kind site p) (Plan.guarded kind site p') :=
  register h fun _ told => answer told

theorem bind {p p' : Plan α} {f f' : α → Plan β} (hp : Agree near Q post p p')
    (hf : ∀ a, post a → Agree near Q post' (f a) (f' a)) :
    Agree near Q post' (p >>= f) (p' >>= f') := by
  change Agree near Q post' (p.bind f) (p'.bind f')
  induction hp with
  | @answer _ _ a h =>
    cases a with
    | none => exact unknown
    | some a => exact hf a (h a rfl)
  | ask near_e _ ih => exact ask near_e fun r told => ih r told hf
  | register body _ _ ih => exact register body fun r told => ih r told hf

/-- Plans that go on with what is in an option. -/
theorem ofOption_bind {a : Option α} {f f' : α → Plan β}
    (hf : ∀ x, a = some x → Agree near Q post' (f x) (f' x)) :
    Agree near Q post' (Plan.ofOption a >>= f) (Plan.ofOption a >>= f') := by
  cases a with
  | none => exact unknown
  | some a => exact hf a rfl

theorem attempt {p p' : Plan α} (hp : Agree near Q post p p') :
    Agree near Q (fun r => ∀ x, r = some x → post x) p.attempt p'.attempt := by
  induction hp with
  | answer h =>
    refine answer ?_
    rintro x ⟨⟩
    exact h
  | ask near_e _ ih => exact ask near_e ih
  | register body _ _ ih => exact register body ih

/-- Plans that join the answers for the members of a list. -/
theorem joinAll {f f' : α → Plan TypeSet} (union : ∀ a b, Q a → Q b → Q (a.union b))
    {as : List α} (hf : ∀ a ∈ as, Agree near Q Q (f a) (f' a)) :
    Agree near Q (fun r => ∀ s, r = some s → Q s) (joinAll f as) (Plan.joinAll f' as) := by
  induction as with
  | nil => exact pure (by simp)
  | cons a as ih =>
    refine bind (attempt (hf a List.mem_cons_self)) fun first hFirst =>
      bind (ih fun b mem => hf b (List.mem_cons_of_mem _ mem)) fun rest hRest => pure ?_
    intro s hs
    cases first with
    | none => exact hRest s hs
    | some x =>
      cases rest with
      | none => exact hFirst s hs
      | some y =>
        cases hs
        exact union x y (hFirst x rfl) (hRest y rfl)

/-- Plans that agree answer alike, if what they ask for is answered alike. -/
theorem run {inference inference' : Inference} {p p' : Plan α} (hp : Agree near Q post p p')
    (maxDepth : Nat)
    (alike : ∀ e, near e → inference e = inference' e)
    (told : ∀ e, near e → ∀ g s, (inference e g).1 = some s → Q s) (g : Guard) :
    p.run maxDepth inference g = p'.run maxDepth inference' g ∧
      ∀ x, (p.run maxDepth inference g).1 = some x → post x := by
  induction hp generalizing g with
  | answer h => exact ⟨rfl, h⟩
  | @ask _ _ e _ _ near_e _ ih =>
    simp only [Plan.run]
    rw [← alike e near_e]
    exact ih _ (told e near_e g) _
  | @register _ _ key body body' _ _ _ _ ihBody ihNext =>
    simp only [Plan.run]
    cases g.enter key maxDepth with
    | ok _ g' =>
      simp only
      rw [← (ihBody g').1]
      exact ihNext _ (ihBody g').2 _
    | error b g' => exact ihNext none (by simp) _

end Agree

end Plan

/-! ## Inference -/

/-- If the plans of near expressions agree, the types of near expressions are the same, and they
have the property that near expressions may be told. -/
theorem inferWithin_agree {near : Site → Prop} {Q : TypeSet → Prop} {p p' : Project}
    (agree : ∀ e, near e → Plan.Agree near Q Q (.ofExpression p e) (.ofExpression p' e))
    (maxDepth fuel : Nat) (e : Site) (near_e : near e) :
    inferWithin ⟨p, maxDepth⟩ fuel e = inferWithin ⟨p', maxDepth⟩ fuel e ∧
      ∀ g s, (inferWithin ⟨p, maxDepth⟩ fuel e g).1 = some s → Q s := by
  induction fuel generalizing e with
  | zero => exact ⟨rfl, by simp [inferWithin]⟩
  | succ fuel ih =>
    have level (g : Guard) := (agree e near_e).run maxDepth
      (fun e near_e => (ih e near_e).1) (fun e near_e => (ih e near_e).2) g
    constructor
    · rw [inferWithin, inferWithin, funext fun g => (level g).1]
    · intro g s
      simp only [inferWithin, Infer.nested]
      cases g.descend maxExpressionNesting with
      | ok _ g' => exact (level g').2 s
      | error b g' => simp

/-- If the plans of near expressions agree, near expressions have the same types. -/
theorem Context.infer_eq (near : Site → Prop) {Q : TypeSet → Prop} {p p' : Project}
    (agree : ∀ e, near e → Plan.Agree near Q Q (.ofExpression p e) (.ofExpression p' e))
    (maxDepth : Nat) {e : Site} (near_e : near e) :
    Context.infer ⟨p, maxDepth⟩ e = Context.infer ⟨p', maxDepth⟩ e := by
  rw [infer, infer, ask, ask, inferExpression, inferExpression,
    (inferWithin_agree agree maxDepth _ e near_e).1]

end LuaTyping
