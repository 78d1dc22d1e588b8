import LuaTyping.Scope

/-!
# Environments

The scoping rules of the language, read as they are usually written: a walk of the program takes
along an *environment*, the names in force with what introduces them, the latest first.  What is
added to an environment below a node is forgotten behind the node, so a scope ends by itself.

* `Tree.declares`: the names that a statement adds for the statements behind it.
* `Tree.opens`: the names in force inside a function or a loop from its beginning.
* `Tree.below`: the children of a node with the environment that each is met with.
* `Tree.Meets`: the walk of a program meets a node with an environment.

A block hands its environment from statement to statement.  A local function is in force in its own
body, and the condition of `repeat` is met with what the block leaves behind.
-/

namespace LuaTyping

/-- A name in force: what introduces it, and as what. -/
structure Declared where
  name : String
  node : NodeId
  kind : BindingKind
  deriving DecidableEq, Repr

/-- The names in force, the latest first. -/
abbrev Environment := List Declared

namespace Environment

/-- Adds names, one after the other. -/
def add (env : Environment) (names : List Declared) : Environment :=
  names.foldl (fun env d => d :: env) env

/-- What a name stands for: the latest that is in force under it. -/
def lookup? (env : Environment) (name : String) : Option Declared :=
  env.find? fun d => d.name == name

end Environment

namespace Tree

/-- The name written at a node. -/
def declared (t : Tree) (name node : NodeId) (kind : BindingKind) : Declared :=
  ⟨t.textOf name, node, kind⟩

/-- The names that a statement adds for the statements behind it, in their order. -/
def declares (t : Tree) (stat : NodeId) : List Declared :=
  match t.kind stat with
  | .localStat => (t.listedNames stat).map fun n => t.declared n n .variable
  | .localFuncStat => (t.ownName? stat).toList.map fun n => t.declared n stat .function
  | _ => []

/-- The unwritten first parameter of a colon method, for the body of a function. -/
def implicitSelf (t : Tree) (body : NodeId) : List Declared :=
  match t.parent body with
  | some stat =>
    if t.kind stat = .funcStat ∧ t.isMethod stat = true then [⟨"self", stat, .self⟩] else []
  | none => []

/-- The names in force inside a function or a loop from its beginning, in their order. -/
def opens (t : Tree) (id : NodeId) : List Declared :=
  match t.kind id with
  | .funcBody => t.implicitSelf id ++ (t.params id).map fun p => t.declared p p .param
  | .numericForStat => (t.ownName? id).toList.map fun n => t.declared n n .variable
  | .genericForStat => (t.listedNames id).map fun n => t.declared n n .variable
  | _ => []

/-- Statements in a row, each with the environment that those before it leave. -/
def thread (t : Tree) : Environment → List NodeId → List (NodeId × Environment)
  | _, [] => []
  | env, s :: ss => (s, env) :: t.thread (env.add (t.declares s)) ss

/-- The environment that statements in a row leave. -/
def leave (t : Tree) (env : Environment) (stats : List NodeId) : Environment :=
  stats.foldl (fun env s => env.add (t.declares s)) env

/-- The children of a node that is met with an environment, each with its own. -/
def below (t : Tree) (env : Environment) (id : NodeId) : List (NodeId × Environment) :=
  match t.kind id with
  | .block => t.thread env (t.children id)
  | .localFuncStat => (t.children id).map fun c => (c, env.add (t.declares id))
  | .funcBody => (t.children id).map fun c => (c, env.add (t.opens id))
  | .numericForStat | .genericForStat =>
    (t.children id).map fun c => (c, if t.kind c = .block then env.add (t.opens id) else env)
  | .repeatStat =>
    (t.children id).map fun c =>
      (c, if t.kind c = .block then env
        else t.leave env (((t.block? id).map t.children).getD []))
  | _ => (t.children id).map fun c => (c, env)

/-- The walk of a program meets a node with an environment. -/
inductive Meets (t : Tree) : NodeId → Environment → Prop
  | root : t.Meets t.root []
  | child {p c : NodeId} {env env' : Environment} :
    t.Meets p env → (c, env') ∈ t.below env p → t.Meets c env'

end Tree

end LuaTyping
