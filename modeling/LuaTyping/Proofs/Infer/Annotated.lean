import LuaTyping.Proofs.Infer.Global

/-!
# Doc comments are believed

Where a doc comment says what a name holds or what a function returns, nothing else is looked at:
the plan has its answer in hand and asks for no expression.  So it does not matter what the values,
the other targets and the return statements come to, and a cycle through them is never entered.

This is an equation between plans for each of the three places where a comment is read
(`Plan.ofVariable_of_annotates`, `Plan.assigned_of_annotates`, `Plan.ofReturn_of_annotates`).  What
is left to the guard is whether the one registration around the answer is let through.  It is,
unless the limit is reached or the same computation is in progress.

A call has to find its function before the comment of the function can count, and it looks for it
one level deeper than it stands itself.  A function that takes all levels there are is found by
itself, but not by a call of it (`Context.not_returnsAnnotated`).

* `Tree.WellFormed.introducedBy?_of_mem`, `Tree.WellFormed.assignmentOf?_of_mem`: a listed name and
  a target lead back to their statement.
* `Context.infer_of_annotated`: what comments say of local names, global names and calls.
-/

namespace LuaTyping

/-! ## From names to their statements -/

namespace Tree.WellFormed

variable {t : Tree} {p c stat name target : NodeId}

theorem parent_of_mem_children (h : t.WellFormed) (mem : c ∈ t.children p) :
    t.parent c = some p := by
  by_contra other
  have none := h.count_children p c
  rw [if_neg other] at none
  exact List.count_eq_zero.mp none mem

/-- A name in the list of a statement is introduced by the statement. -/
theorem introducedBy?_of_mem (h : t.WellFormed) (listed : name ∈ t.listedNames stat) :
    t.introducedBy? name = some stat := by
  unfold listedNames at listed
  cases child : t.child? stat .nameList with
  | none => simp [child] at listed
  | some list =>
    rw [child] at listed
    have inList := h.parent_of_mem_children (List.mem_filter.mp listed).1
    have inStat := h.parent_of_mem_children (List.mem_of_find?_eq_some child)
    rw [introducedBy?, inList, Option.bind_some, if_pos (kind_of_child? child), inStat]

/-- A target is one of the innermost assignment around it. -/
theorem assignmentOf?_of_mem (h : t.WellFormed) (isAssignment : t.kind stat = .assignStat)
    (listed : target ∈ t.targets stat) : t.assignmentOf? target = some stat := by
  unfold targets at listed
  cases child : t.child? stat .varList with
  | none => simp [child] at listed
  | some list =>
    rw [child] at listed
    have inList := (List.mem_filter.mp listed).1
    have inStat := List.mem_of_find?_eq_some child
    have two : 2 ≤ t.size :=
      Nat.lt_of_le_of_lt (Nat.le_trans (Nat.le_add_left 1 list) (h.child_lt _ _ inStat))
        (lt_size_of_kind isAssignment nofun)
    obtain ⟨fuel, size⟩ := Nat.exists_eq_add_of_le' two
    have above : t.ancestors target = list :: stat :: t.ancestorsWithin fuel stat := by
      simp only [ancestors, size, ancestorsWithin, h.parent_of_mem_children inList,
        h.parent_of_mem_children inStat]
    have isList : t.kind list = .varList := kind_of_child? child
    rw [assignmentOf?, above, List.find?_cons_of_neg (by simp [isList]),
      List.find?_cons_of_pos (by simp [isAssignment])]

end Tree.WellFormed

theorem Project.Stocked.wellFormed {p : Project} (h : p.Stocked) {file node : Nat} {kind : NodeKind}
    (is : (p.tree file).kind node = kind) (known : kind ≠ .error) : (p.tree file).WellFormed := by
  cases found : p.file? file with
  | none =>
    rw [Project.tree, found] at is
    exact absurd is.symm known
  | some f =>
    rw [h.tree_eq found]
    exact (Parsed.realizes maxNesting f.text).wellFormed

/-! ## Plans that have their answer in a comment -/

namespace Project

/-- The doc comment of a statement says what the names in it hold. -/
def Annotates (p : Project) (stat : Site) (types : TypeSet) : Prop :=
  let t := p.tree stat.file
  (t.docComment? stat.node).bind t.taggedType? = some types

/-- The doc comment of the statement that declares a function says what the function returns. -/
def AnnotatesReturn (p : Project) (body : Site) (types : TypeSet) : Prop :=
  let t := p.tree body.file
  (t.functionComment? body.node).bind t.taggedReturn? = some types

instance (p : Project) (stat : Site) (types : TypeSet) : Decidable (p.Annotates stat types) :=
  inferInstanceAs (Decidable (_ = _))

instance (p : Project) (body : Site) (types : TypeSet) : Decidable (p.AnnotatesReturn body types) :=
  inferInstanceAs (Decidable (_ = _))

end Project

namespace Plan

theorem ofOption_some_bind {α β : Type} (a : α) (f : α → Plan β) :
    (ofOption (some a) >>= f) = f a := rfl

variable {p : Project} {types : TypeSet}

theorem ofVariable_of_annotates {name : Site} {stat : NodeId}
    (introduced : (p.tree name.file).introducedBy? name.node = some stat)
    (isLocal : (p.tree name.file).kind stat = .localStat)
    (annotated : p.Annotates ⟨name.file, stat⟩ types) :
    ofVariable p name = guarded .localDeclaration name (pure types) := by
  unfold Project.Annotates at annotated
  simp only [ofVariable, introduced, ofOption_some_bind, isLocal, annotated]

theorem assigned_of_annotates {target : Site} {stat : NodeId}
    (assignment : (p.tree target.file).assignmentOf? target.node = some stat)
    (annotated : p.Annotates ⟨target.file, stat⟩ types) : assigned p target = pure types := by
  unfold Project.Annotates at annotated
  simp only [assigned, assignment, ofOption_some_bind, annotated]

theorem ofReturn_of_annotates {body : Site} (annotated : p.AnnotatesReturn body types) :
    ofReturn p body = guarded .returnType body (pure types) := by
  unfold Project.AnnotatesReturn at annotated
  simp only [ofReturn, annotated]

/-- An answer that is in hand is given if the registration around it is let through. -/
theorem run_guarded_pure {maxDepth : Nat} {infer : Inference} {g : Guard} {kind : GuardKind}
    {site : Site} (room : g.depth < maxDepth) (new : (kind, site) ∉ g.active) :
    ((guarded kind site (pure types)).run maxDepth infer g).1 = some types := by
  simp only [guarded, run, Guard.enter_of_not_mem room new]
  rfl

end Plan

/-- Types that are known are kept beside the global type. -/
theorem withGlobal_some (types : TypeSet) (global : LuaType) :
    withGlobal (some types) global = types.insert global := by
  obtain ⟨list, nodup⟩ := types
  cases list <;> rfl

/-! ## Names and calls under a guard -/

section Guarded

variable {c : Context} {types : TypeSet} {g : Guard}

/-- A name that is resolved to an annotated local name, unless this one is being looked at. -/
theorem inferExpression_of_local (made : c.project.Made) {r name : Site} {stat : NodeId}
    (isName : c.project.kindAt r = .nameExpr)
    (declared : c.project.resolve? r = some ⟨.variable, name⟩)
    (isLocal : (c.project.tree name.file).kind stat = .localStat)
    (listed : name.node ∈ (c.project.tree name.file).listedNames stat)
    (annotated : c.project.Annotates ⟨name.file, stat⟩ types)
    (below : g.nesting < maxExpressionNesting) (room : g.depth < c.maxDepth)
    (new : (.localDeclaration, name) ∉ g.active) :
    (inferExpression c r g).1 = some types := by
  have introduced := (made.stocked.wellFormed isLocal nofun).introducedBy?_of_mem listed
  have plan : Plan.ofExpression c.project r = .guarded .localDeclaration name (pure types) := by
    rw [Plan.ofExpression, isName]
    simp only [Plan.ofName, declared]
    exact Plan.ofVariable_of_annotates introduced isLocal annotated
  rw [inferExpression_of_lt c r below, plan]
  exact Plan.run_guarded_pure room new

/-- A name that is resolved to an annotated target.  Nothing is registered for it. -/
theorem inferExpression_of_target (made : c.project.Made) {r target : Site} {stat : NodeId}
    (isName : c.project.kindAt r = .nameExpr)
    (declared : c.project.resolve? r = some ⟨.assignment, target⟩)
    (isAssignment : (c.project.tree target.file).kind stat = .assignStat)
    (listed : target.node ∈ (c.project.tree target.file).targets stat)
    (annotated : c.project.Annotates ⟨target.file, stat⟩ types)
    (below : g.nesting < maxExpressionNesting) :
    (inferExpression c r g).1
      = some (types.insert (.global ((c.project.tree r.file).textOf r.node) target)) := by
  obtain ⟨named, free⟩ := made.stocked.target_of_resolve? declared
  have assignment :=
    (made.stocked.wellFormed isAssignment nofun).assignmentOf?_of_mem isAssignment listed
  have plan : Plan.ofExpression c.project r = .ofTarget c.project target := by
    rw [Plan.ofExpression, isName]
    exact Plan.ofName_of_assignment declared
  rw [inferExpression_of_lt c r below, plan, Plan.run_ofTarget free,
    Plan.assigned_of_annotates assignment annotated, named, ← withGlobal_some]
  rfl

/-- A call whose function is found one level deeper, unless the returns of this function are being
looked at. -/
theorem inferExpression_of_call {call body : Site} (isCall : c.project.kindAt call = .callExpr)
    (notRequired : c.project.requiredFile? call = none)
    (found : (callTarget c (inferExpression c) call { g with nesting := g.nesting + 1 }).1
      = some body)
    (annotated : c.project.AnnotatesReturn body types)
    (below : g.nesting < maxExpressionNesting) (room : g.depth < c.maxDepth)
    (new : (.returnType, body) ∉ g.active) :
    (inferExpression c call g).1 = some types := by
  have plan : Plan.ofExpression c.project call
      = Plan.callTarget c.project call >>= Plan.ofReturn c.project := by
    rw [Plan.ofExpression, isCall]
    simp only [Plan.ofCall, notRequired]
  rw [inferExpression_of_lt c call below, plan, Plan.run_bind (inferExpression_snd c)]
  unfold callTarget Context.follow at found
  rw [found, Option.bind_some, Plan.ofReturn_of_annotates annotated]
  exact Plan.run_guarded_pure room new

end Guarded

/-! ## Names and calls by themselves -/

namespace Context

/-- Asked for by themselves, with room for a registration, a name that is resolved to an annotated
name of a `local` statement has the types of the annotation.  One that is resolved to an annotated
target has these types and its global type.  A call that loads no file and whose function is found
where a call looks for it, one level deeper, has the types that the function is annotated to return.
-/
theorem infer_of_annotated {c : Context} (made : c.project.Made) (room : 1 ≤ c.maxDepth) :
    (∀ (r name : Site) (stat : NodeId) (types : TypeSet), c.project.kindAt r = .nameExpr →
      c.project.resolve? r = some ⟨.variable, name⟩ →
      (c.project.tree name.file).kind stat = .localStat →
      name.node ∈ (c.project.tree name.file).listedNames stat →
      c.project.Annotates ⟨name.file, stat⟩ types →
      c.infer r = some types) ∧
    (∀ (r target : Site) (stat : NodeId) (types : TypeSet), c.project.kindAt r = .nameExpr →
      c.project.resolve? r = some ⟨.assignment, target⟩ →
      (c.project.tree target.file).kind stat = .assignStat →
      target.node ∈ (c.project.tree target.file).targets stat →
      c.project.Annotates ⟨target.file, stat⟩ types →
      c.infer r = some (types.insert (.global ((c.project.tree r.file).textOf r.node) target))) ∧
    ∀ (call body : Site) (types : TypeSet), c.project.kindAt call = .callExpr →
      c.project.requiredFile? call = none →
      (callTarget c (inferExpression c) call { nesting := 1 }).1 = some body →
      c.project.AnnotatesReturn body types →
      c.infer call = some types := by
  refine ⟨?_, ?_, ?_⟩
  · intro r name stat types isName declared isLocal listed annotated
    exact inferExpression_of_local made isName declared isLocal listed annotated (by decide) room
      List.not_mem_nil
  · intro r target stat types isName declared isAssignment listed annotated
    exact inferExpression_of_target made isName declared isAssignment listed annotated (by decide)
  · intro call body types isCall notRequired found annotated
    exact inferExpression_of_call isCall notRequired found annotated (by decide) room
      List.not_mem_nil

/-- Two local names with each other's values, two global names with each other's values, a function
that returns a call of itself, and one that is assigned and returns a call of the name it is
assigned to. -/
def circular : Project :=
  .ofFiles [] [("a", "---@type A | B\nlocal a,b=b,a return b"),
    ("b", "---@type C\nx,y=y,x return y"),
    ("c", "---@return D\nlocal function f()return f()end f()"),
    ("d", "---@return E\ng=function()return g()end g()")]

/-- All of them have the types of their annotations, with room for a single registration. -/
theorem infer_of_annotated_circular :
    Context.infer ⟨circular, 1⟩ ⟨0, 10⟩ = some (.ofList [.named "A", .named "B"]) ∧
      Context.infer ⟨circular, 1⟩ ⟨1, 10⟩ = some (.ofList [.named "C", .global "y" ⟨1, 2⟩]) ∧
      Context.infer ⟨circular, 1⟩ ⟨2, 14⟩ = some (.single (.named "D")) ∧
      Context.infer ⟨circular, 1⟩ ⟨3, 18⟩ = some (.single (.named "E")) := by
  obtain ⟨locals, targets, calls⟩ :=
    infer_of_annotated (c := ⟨circular, 1⟩) (Project.made_ofFiles _ _) (Nat.le_refl 1)
  have localName :
      circular.kindAt ⟨0, 10⟩ = .nameExpr ∧
      circular.resolve? ⟨0, 10⟩ = some ⟨.variable, ⟨0, 2⟩⟩ ∧
      (circular.tree 0).kind 9 = .localStat ∧ 2 ∈ (circular.tree 0).listedNames 9 ∧
      circular.Annotates ⟨0, 9⟩ (.ofList [.named "A", .named "B"]) := by decide +kernel
  have globalName :
      circular.kindAt ⟨1, 10⟩ = .nameExpr ∧
      circular.resolve? ⟨1, 10⟩ = some ⟨.assignment, ⟨1, 2⟩⟩ ∧
      (circular.tree 1).kind 9 = .assignStat ∧ 2 ∈ (circular.tree 1).targets 9 ∧
      circular.Annotates ⟨1, 9⟩ (.single (.named "C")) ∧
      (circular.tree 1).textOf 10 = "y" := by decide +kernel
  have selfCall :
      circular.kindAt ⟨2, 14⟩ = .callExpr ∧ circular.requiredFile? ⟨2, 14⟩ = none ∧
      (callTarget ⟨circular, 1⟩ (inferExpression ⟨circular, 1⟩) ⟨2, 14⟩ { nesting := 1 }).1
        = some ⟨2, 10⟩ ∧
      circular.AnnotatesReturn ⟨2, 10⟩ (.single (.named "D")) := by decide +kernel
  have assignedCall :
      circular.kindAt ⟨3, 18⟩ = .callExpr ∧ circular.requiredFile? ⟨3, 18⟩ = none ∧
      (callTarget ⟨circular, 1⟩ (inferExpression ⟨circular, 1⟩) ⟨3, 18⟩ { nesting := 1 }).1
        = some ⟨3, 11⟩ ∧
      circular.AnnotatesReturn ⟨3, 11⟩ (.single (.named "E")) := by decide +kernel
  refine ⟨?_, ?_, ?_, ?_⟩
  · obtain ⟨isName, declared, isLocal, listed, annotated⟩ := localName
    exact locals _ _ _ _ isName declared isLocal listed annotated
  · obtain ⟨isName, declared, isAssignment, listed, annotated, named⟩ := globalName
    have types := targets _ _ _ _ isName declared isAssignment listed annotated
    rw [named] at types
    exact types.trans (congrArg some (by decide))
  · obtain ⟨isCall, notRequired, found, annotated⟩ := selfCall
    exact calls _ _ _ isCall notRequired found annotated
  · obtain ⟨isCall, notRequired, found, annotated⟩ := assignedCall
    exact calls _ _ _ isCall notRequired found annotated

/-- Every call whose function is found, asked for by itself, returns what its annotation says. -/
def ReturnsAnnotated (c : Context) : Prop :=
  ∀ (call body : Site) (types : TypeSet), c.project.kindAt call = .callExpr →
    c.project.requiredFile? call = none →
    ask (callTarget c (inferExpression c) call) = some body →
    c.project.AnnotatesReturn body types →
    c.infer call = some types

/-- A text in some pairs of parentheses. -/
def inParentheses (text : String) : String := "(((((((((" ++ text ++ ")))))))))"

/-- An annotated function that is handed on from file to file, and a call of it in the last one.  By
itself the callee takes all levels there are. -/
def farCall : Project :=
  .ofFiles ["?"] <|
    [("a", "---@return A\nlocal function f()end return" ++ inParentheses "f or f")] ++
    ([("b", "a"), ("c", "b"), ("d", "c"), ("e", "d"), ("f", "e"), ("g", "f"), ("h", "g"),
      ("i", "h")].map fun f => (f.1, "return" ++ inParentheses ("require[[" ++ f.2 ++ "]]"))) ++
    [("j", inParentheses "require[[i]]" ++ "()")]

/-- Functions that are found by themselves need not be found by their calls. -/
theorem not_returnsAnnotated :
    ¬ ∀ c : Context, c.project.Made → 1 ≤ c.maxDepth → c.ReturnsAnnotated := by
  intro all
  have facts :
      farCall.kindAt ⟨9, 24⟩ = .callExpr ∧ farCall.requiredFile? ⟨9, 24⟩ = none ∧
      ask (callTarget ⟨farCall, defaultMaxDepth⟩ (inferExpression ⟨farCall, defaultMaxDepth⟩)
        ⟨9, 24⟩) = some ⟨0, 4⟩ ∧
      farCall.AnnotatesReturn ⟨0, 4⟩ (.single (.named "A")) ∧
      Context.infer ⟨farCall, defaultMaxDepth⟩ ⟨9, 24⟩ = none := by
    decide +kernel
  obtain ⟨isCall, notRequired, found, annotated, unknown⟩ := facts
  have known := all ⟨farCall, defaultMaxDepth⟩ (Project.made_ofFiles _ _) (by decide) _ _ _ isCall
    notRequired found annotated
  rw [unknown] at known
  exact absurd known (by decide)

end Context

end LuaTyping
