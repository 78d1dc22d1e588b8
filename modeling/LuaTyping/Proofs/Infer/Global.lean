import LuaTyping.Proofs.Infer.Run
import LuaTyping.Proofs.Project.Resolve

/-!
# Global names are never unknown

Whatever is assigned to a global variable may have no type: the value may be missing, it may lead
back to the variable itself, or there may be no room left for another registration.  The variable
still has a type, since its name is one.  The plan of a target does not ask for the value but
attempts it, and goes on with whatever comes of that.

One thing has to come from elsewhere.  The global type is only added where the target has no local
binding, which is looked up once more at the target, in the file of the target.  A definition of a
global variable was recorded because no binding was visible there, so the second look finds none
(`Project.Stocked.target_of_resolve?`).

* `global_names_are_known`: below the limit on nested expressions, a name that nothing declares and
  a name that is assigned globally have a global type under every guard.
-/

namespace LuaTyping

/-- However little is known of the other types, the global type is there. -/
theorem mem_withGlobal (types : Option TypeSet) (global : LuaType) :
    global ∈ (withGlobal types global).toList := by
  unfold withGlobal
  split
  · split
    · exact List.mem_singleton_self _
    · exact TypeSet.mem_insert.mpr (.inr rfl)
  · exact List.mem_singleton_self _

/-- A name that is resolved to an assignment is resolved to a target with this name, and no local
binding is visible at the target. -/
theorem Project.Stocked.target_of_resolve? {p : Project} (h : p.Stocked) {s target : Site}
    (found : p.resolve? s = some ⟨.assignment, target⟩) :
    (p.tree target.file).textOf target.node = (p.tree s.file).textOf s.node ∧
      p.resolveLocal? target = none := by
  rcases Option.or_eq_some_iff.mp found with found | ⟨-, found⟩
  · have isLocal := (h.declares_of_resolveLocal? found).1
    exact absurd isLocal Bool.false_ne_true
  · obtain ⟨-, ⟨-, named, unbound⟩, -⟩ := h.declares_of_resolveGlobal? found
    dsimp only at named unbound
    refine ⟨named, ?_⟩
    rw [← Option.not_isSome_iff_eq_none, h.resolveLocal?_isSome_iff, named]
    exact unbound

namespace Plan

variable {c : Context} {g : Guard}

/-- A target without a local binding has its global type, whatever the attempt at what is assigned
to it comes to. -/
theorem run_ofTarget {target : Site} (free : c.project.resolveLocal? target = none) :
    ((ofTarget c.project target).run c.maxDepth (inferExpression c) g).1 =
      some (withGlobal ((assigned c.project target).run c.maxDepth (inferExpression c) g).1
        (.global ((c.project.tree target.file).textOf target.node) target)) := by
  unfold ofTarget
  rw [run_bind (inferExpression_snd c), run_attempt, free]
  rfl

theorem run_ofName_of_none {name : Site} (undeclared : c.project.resolve? name = none) :
    ((ofName c.project name).run c.maxDepth (inferExpression c) g).1 =
      some (.single (.global ((c.project.tree name.file).textOf name.node) name)) := by
  unfold ofName
  rw [undeclared]
  rfl

theorem ofName_of_assignment {p : Project} {name target : Site}
    (declared : p.resolve? name = some ⟨.assignment, target⟩) :
    ofName p name = ofTarget p target := by
  unfold ofName
  rw [declared]
  rfl

end Plan

/-- Under a guard with room for one more nested expression, whatever it has registered and however
much that is, a name that nothing declares has some types and among them the global type of its own
site, and a name that an assignment to a global variable declares has some types and among them
the global type of the site that is assigned to. -/
theorem global_names_are_known {c : Context} (made : c.project.Made) {name : Site}
    (isName : c.project.kindAt name = .nameExpr) {g : Guard}
    (below : g.nesting < maxExpressionNesting) :
    let text := (c.project.tree name.file).textOf name.node
    (c.project.resolve? name = none →
      ∃ types, (inferExpression c name g).1 = some types ∧ types.toList ≠ [] ∧
        .global text name ∈ types.toList) ∧
    ∀ target, c.project.resolve? name = some ⟨.assignment, target⟩ →
      ∃ types, (inferExpression c name g).1 = some types ∧ types.toList ≠ [] ∧
        .global text target ∈ types.toList := by
  intro text
  have plan : Plan.ofExpression c.project name = Plan.ofName c.project name := by
    unfold Plan.ofExpression
    rw [isName]
  rw [inferExpression_of_lt c name below, plan]
  refine ⟨fun undeclared => ?_, fun target declared => ?_⟩
  · rw [Plan.run_ofName_of_none undeclared]
    have mem := List.mem_singleton_self (LuaType.global text name)
    exact ⟨_, rfl, List.ne_nil_of_mem mem, mem⟩
  · obtain ⟨named, free⟩ := made.stocked.target_of_resolve? declared
    rw [Plan.ofName_of_assignment declared, Plan.run_ofTarget free, named]
    have mem := mem_withGlobal ((Plan.assigned c.project target).run c.maxDepth
      (inferExpression c) { g with nesting := g.nesting + 1 }).1 (.global text target)
    exact ⟨_, rfl, List.ne_nil_of_mem mem, mem⟩

/-- Two variables that are assigned to each other, under a guard that lets nothing more be
registered and has one level left. -/
theorem global_names_are_known_cycle :
    let c : Context := ⟨.ofFiles [] [("a.lua", "a = b b = a return a")], 1⟩
    let g : Guard := { active := [(.valueExpr, ⟨0, 3⟩)], depth := 1, nesting := 199 }
    c.project.kindAt ⟨0, 12⟩ = .nameExpr ∧ g.nesting < maxExpressionNesting ∧
      c.project.resolve? ⟨0, 12⟩ = some ⟨.assignment, ⟨0, 0⟩⟩ ∧
      ∃ types, (inferExpression c ⟨0, 12⟩ g).1 = some types ∧
        .global "a" ⟨0, 0⟩ ∈ types.toList := by
  intro c g
  have isName : c.project.kindAt ⟨0, 12⟩ = .nameExpr := by decide +kernel
  have below : g.nesting < maxExpressionNesting := by decide
  have declared : c.project.resolve? ⟨0, 12⟩ = some ⟨.assignment, ⟨0, 0⟩⟩ := by decide +kernel
  have text : (c.project.tree 0).textOf 12 = "a" := by decide +kernel
  obtain ⟨types, known, -, mem⟩ :=
    (global_names_are_known (c := c) (Project.made_ofFiles _ _) isName below).2 _ declared
  rw [text] at mem
  exact ⟨isName, below, declared, types, known, mem⟩

end LuaTyping
