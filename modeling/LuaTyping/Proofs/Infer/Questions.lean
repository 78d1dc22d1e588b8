import LuaTyping.Proofs.Infer.Run

/-!
# Questions under one guard

One guard can serve many questions, each asked under the guard that the one before it left behind.
What a question leaves registered, or what levels it leaves counted, would show only in a later
question, which would then be refused as a cycle or as too deep.

Nothing is left behind, so that no question has to know what was asked before it.

## Where it could go wrong

A registration begins in five places, and in four of them the computation can stop early: the value
has no form, the name has no statement, the file has no return.  Each such stop ends one part of a
plan, and the plan around it goes on.  That a plan hands back its guard is therefore shown for all
plans at once (`Plan.run_snd`), over the answers that its parts have or have not, and a question
is one plan of them (`Question.answer_eq_run`).

* `Question`: what can be asked.
* `Context.answers`: the answers to questions that are asked one after the other.
* `questions_leave_guard`: each question leaves the guard as it was, and has the answer that it has
  when it is asked alone.
-/

namespace LuaTyping

/-- What can be asked under a guard. -/
inductive Question
  /-- The type of an expression. -/
  | expression (e : Site)
  /-- The type of a declaration by itself. -/
  | declaration (d : Declaration)
  /-- The type of what a function returns, by its body. -/
  | callable (body : Site)
  /-- The type of what a file returns. -/
  | file (file : Nat)
  deriving DecidableEq, Repr

namespace Question

variable (c : Context) (q : Question) (g : Guard)

/-- The answer to a question. -/
def answer (c : Context) : Question → Infer TypeSet
  | expression e => inferExpression c e
  | declaration d => guessType c (inferExpression c) d
  | callable body => guessReturn c (inferExpression c) body
  | file n => returnedType c (inferExpression c) n

/-- The plan of a question. -/
def plan (p : Project) : Question → Plan TypeSet
  | expression e => .infer e
  | declaration d => .ofDeclaration p d
  | callable body => .ofReturn p body
  | file n => .ofFile p n

theorem answer_eq_run :
    q.answer c = (q.plan c.project).run c.maxDepth (inferExpression c) := by
  cases q <;> rfl

/-- A question leaves the guard as it was. -/
theorem answer_snd : (q.answer c g).2 = g := by
  rw [answer_eq_run]
  exact Plan.run_snd (inferExpression_snd c) _ g

end Question

/-- The answers to questions, each asked under the guard that is left by the one before it, and
the guard that the last one leaves. -/
def Context.answers (c : Context) : List Question → Guard → List (Option TypeSet) × Guard
  | [], g => ([], g)
  | q :: qs, g =>
    let first := q.answer c g
    let rest := c.answers qs first.2
    (first.1 :: rest.1, rest.2)

/-- Each question is answered as if it were asked first, and after the last one the guard is what
it was. -/
theorem Context.answers_eq (c : Context) (qs : List Question) (g : Guard) :
    c.answers qs g = (qs.map fun q => (q.answer c g).1, g) := by
  induction qs with
  | nil => rfl
  | cons q qs ih =>
    simp only [answers, List.map_cons]
    rw [Question.answer_snd, ih]

/-- A question about an expression, a declaration, a function or a file leaves the registrations,
their number and the number of levels as they were, whatever these are and whether there is an
answer or not.  So of any questions that are asked one after the other under one guard, each has
the answer that it has under the guard at the start. -/
theorem questions_leave_guard (c : Context) :
    (∀ (q : Question) (g : Guard),
      (q.answer c g).2.active = g.active ∧ (q.answer c g).2.depth = g.depth ∧
        (q.answer c g).2.nesting = g.nesting) ∧
      ∀ (before : List Question) (q : Question) (after : List Question) (g : Guard),
        (c.answers (before ++ q :: after) g).1[before.length]? = some (q.answer c g).1 ∧
          (c.answers (before ++ q :: after) g).2 = g := by
  refine ⟨fun q g => ?_, fun before q after g => ?_⟩
  · rw [Question.answer_snd]
    exact ⟨rfl, rfl, rfl⟩
  · rw [Context.answers_eq]
    refine ⟨?_, rfl⟩
    rw [List.map_append, List.map_cons, List.getElem?_append_right (by simp)]
    simp

end LuaTyping
