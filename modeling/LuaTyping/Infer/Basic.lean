import LuaTyping.Infer.Guard
import LuaTyping.Project.Basic
import LuaTyping.TypeSet

/-!
# Computations of inference

What inference does with one expression is a `Plan`.  A plan is an answer, or it asks for the type
of another expression and goes on with what it is told, or it runs a part of itself that is
registered meanwhile.  Asking is the only way from one expression to another.

An `Infer` is a plan under a guard: whether it has an answer or not, it hands on the guard to what
comes after it.  `Plan.run` follows a plan with a given inference of the expressions it asks for.

* `Plan.attempt`: the answer as an option, so that a plan can go on without it.
* `Plan.guarded`: a plan that is registered while it runs.
* `Infer.nested`: a computation that counts as a nested expression while it runs.
-/

namespace LuaTyping

/-- The deepest nesting of expressions that inference follows, whatever else it may do. -/
def maxExpressionNesting : Nat := 200

/-- How many computations may be registered at once, where nothing else is said. -/
def defaultMaxDepth : Nat := 128

/-- What inference looks things up in, and how many computations may be registered at once. -/
structure Context where
  project : Project
  maxDepth : Nat := defaultMaxDepth

/-! ## Plans -/

/-- A computation that may have no answer and may ask for types of expressions. -/
inductive Plan : Type → Type 1
  /-- The answer, if there is one. -/
  | answer {α : Type} (a : Option α) : Plan α
  /-- Asks for the type of the expression at a site. -/
  | ask {α : Type} (e : Site) (next : Option TypeSet → Plan α) : Plan α
  /-- Runs `body` while it is registered; a refused one has no answer. -/
  | register {α : Type} (key : GuardKey) (body : Plan TypeSet)
      (next : Option TypeSet → Plan α) : Plan α

namespace Plan

/-- One plan after the other; without the first answer there is no second. -/
protected def bind {α β : Type} (p : Plan α) (f : α → Plan β) : Plan β :=
  match p with
  | answer (some a) => f a
  | answer none => answer none
  | ask e next => ask e fun r => (next r).bind f
  | register key body next => register key body fun r => (next r).bind f

instance : Monad Plan where
  pure a := answer (some a)
  bind := Plan.bind

/-- No answer. -/
def unknown {α : Type} : Plan α := answer none

/-- The answer in an option, if there is one. -/
def ofOption {α : Type} (a : Option α) : Plan α := answer a

/-- The type of the expression at a site. -/
def infer (e : Site) : Plan TypeSet := ask e answer

/-- The answer of a plan, or that it has none. -/
def attempt {α : Type} : Plan α → Plan (Option α)
  | answer a => answer (some a)
  | ask e next => ask e fun r => (next r).attempt
  | register key body next => register key body fun r => (next r).attempt

/-- A plan that is registered while it runs. -/
def guarded (kind : GuardKind) (site : Site) (p : Plan TypeSet) : Plan TypeSet :=
  register (kind, site) p answer

/-- What is known of the answers of plans, one after the other. -/
def joinAll {α : Type} (f : α → Plan TypeSet) : List α → Plan (Option TypeSet)
  | [] => pure none
  | a :: as => do
    let first ← attempt (f a)
    let rest ← joinAll f as
    return joinKnown first rest

end Plan

/-! ## Plans under a guard -/

/-- A computation that may have no answer, under a guard. -/
def Infer (α : Type) : Type := Guard → Option α × Guard

/-- How the type of the expression at a site is inferred. -/
abbrev Inference := Site → Infer TypeSet

/-- Follows a plan: `maxDepth` computations may be registered at once, and `infer` gives the types
that are asked for. -/
def Plan.run {α : Type} (maxDepth : Nat) (infer : Inference) : Plan α → Infer α
  | .answer a, g => (a, g)
  | .ask e next, g =>
    let r := infer e g
    (next r.1).run maxDepth infer r.2
  | .register key body next, g =>
    match g.enter key maxDepth with
    | .ok () g =>
      let r := body.run maxDepth infer g
      (next r.1).run maxDepth infer (r.2.release key)
    | .error _ g => (next none).run maxDepth infer g

namespace Infer

/-- The answer of a computation, or that it has none. -/
def attempt {α : Type} (p : Infer α) : Infer (Option α) := fun g =>
  let r := p g
  (some r.1, r.2)

/-- Runs a computation as one more nested expression; past the limit it has no answer. -/
def nested {α : Type} (p : Infer α) : Infer α := fun g =>
  match g.descend maxExpressionNesting with
  | .ok () g =>
    let r := p g
    (r.1, r.2.ascend)
  | .error _ g => (none, g)

end Infer

/-- A node of the same file. -/
def Site.sibling (s : Site) (node : NodeId) : Site := ⟨s.file, node⟩

end LuaTyping
