import LuaTyping.Proofs.Infer.Run

/-!
# What plans give

A property of answers that every plan keeps is a property of inference.  `Plan.Gives Q post p` says
it of one plan: if every type set that `p` is told, or that a registered part of it answers, has
the property `Q`, then the answer of `p`, if there is one, has the property `post`.

There is one lemma for each way of putting plans together, and two to come back to inference:

* `Plan.Gives.run`: what a plan gives holds of what running it answers.
* `inferExpression_gives`: what the plans of all expressions give holds of inference.
-/

namespace LuaTyping

namespace Plan

/-- Told only type sets with the property `Q`, the plan answers with the property `post`, and so do
its registered parts with `Q`. -/
def Gives (Q : TypeSet → Prop) {α : Type} (post : α → Prop) : Plan α → Prop
  | answer a => ∀ x, a = some x → post x
  | ask _ next => ∀ r, (∀ s, r = some s → Q s) → (next r).Gives Q post
  | register _ body next =>
    body.Gives Q Q ∧ ∀ r, (∀ s, r = some s → Q s) → (next r).Gives Q post

namespace Gives

variable {Q : TypeSet → Prop} {α β : Type} {post : α → Prop} {post' : β → Prop}

theorem pure {a : α} (h : post a) : Gives Q post (Pure.pure a : Plan α) := by
  rintro x ⟨⟩
  exact h

theorem unknown : Gives Q post (Plan.unknown : Plan α) := by
  rintro x ⟨⟩

theorem ofOption {a : Option α} (h : ∀ x, a = some x → post x) : Gives Q post (ofOption a) := h

theorem infer (e : Site) : Gives Q Q (infer e) := fun _ h => h

theorem guarded {kind : GuardKind} {site : Site} {p : Plan TypeSet} (h : Gives Q Q p) :
    Gives Q Q (guarded kind site p) :=
  ⟨h, fun _ hr => hr⟩

theorem bind {p : Plan α} {f : α → Plan β} (hp : Gives Q post p)
    (hf : ∀ a, post a → Gives Q post' (f a)) : Gives Q post' (p >>= f) := by
  change Gives Q post' (p.bind f)
  induction p with
  | answer a =>
    cases a with
    | none => exact unknown
    | some a => exact hf a (hp a rfl)
  | ask e next ih => exact fun r hr => ih r (hp r hr) hf
  | register key body next _ ih => exact ⟨hp.1, fun r hr => ih r (hp.2 r hr) hf⟩

/-- A plan that goes on with what is in an option. -/
theorem ofOption_bind {a : Option α} {f : α → Plan β}
    (hf : ∀ x, a = some x → Gives Q post' (f x)) : Gives Q post' (Plan.ofOption a >>= f) := by
  cases a with
  | none => exact unknown
  | some a => exact hf a rfl

theorem attempt {p : Plan α} (hp : Gives Q post p) :
    Gives Q (fun r => ∀ x, r = some x → post x) p.attempt := by
  induction p with
  | answer a =>
    rintro x ⟨⟩
    exact hp
  | ask e next ih => exact fun r hr => ih r (hp r hr)
  | register key body next _ ih => exact ⟨hp.1, fun r hr => ih r (hp.2 r hr)⟩

/-- What is known of several answers has a property that joining keeps. -/
theorem joinAll {f : α → Plan TypeSet} (union : ∀ a b, Q a → Q b → Q (a.union b))
    (hf : ∀ a, Gives Q Q (f a)) (as : List α) :
    Gives Q (fun r => ∀ s, r = some s → Q s) (joinAll f as) := by
  induction as with
  | nil => exact pure (by simp)
  | cons a as ih =>
    refine bind (attempt (hf a)) fun first hFirst => bind ih fun rest hRest => pure ?_
    intro s hs
    cases first with
    | none => exact hRest s hs
    | some x =>
      cases rest with
      | none => exact hFirst s hs
      | some y =>
        cases hs
        exact union x y (hFirst x rfl) (hRest y rfl)

/-- What a plan gives holds of what running it answers. -/
theorem run {maxDepth : Nat} {inference : Inference} {p : Plan α} (hp : Gives Q post p)
    (told : ∀ e g s, (inference e g).1 = some s → Q s) (g : Guard) :
    ∀ x, (p.run maxDepth inference g).1 = some x → post x := by
  induction p generalizing g with
  | answer a => exact hp
  | ask e next ih => exact ih _ (hp _ (told e g)) _
  | register key body next ihBody ihNext =>
    simp only [Plan.run]
    cases g.enter key maxDepth with
    | ok _ g' => exact ihNext _ (hp.2 _ (ihBody hp.1 g')) _
    | error b g' => exact ihNext _ (hp.2 none (by simp)) _

end Gives

end Plan

/-- What the plans of all expressions give holds of inference, under every guard. -/
theorem inferExpression_gives {Q : TypeSet → Prop} {c : Context}
    (h : ∀ e, Plan.Gives Q Q (Plan.ofExpression c.project e)) (e : Site) (g : Guard) :
    ∀ s, (inferExpression c e g).1 = some s → Q s := by
  suffices within : ∀ fuel e g s, (inferWithin c fuel e g).1 = some s → Q s from within _ e g
  intro fuel
  induction fuel with
  | zero => simp [inferWithin]
  | succ fuel ih =>
    intro e g s
    simp only [inferWithin, Infer.nested]
    cases g.descend maxExpressionNesting with
    | ok _ g' => exact (h e).run ih g' s
    | error b g' => simp

end LuaTyping
