import LuaTyping.Syntax.View.Statement

/-!
# Scopes

What the names of a file stand for, read off the tree once.

A binding belongs to the node that owns its scope and is visible from an offset on.  The owners
are the program, the bodies of functions, the loops over values and `repeat`, and the blocks of
`do`, `while` and `if`.  A function, a loop over values and `repeat` own what stands in their
block, so that parameters, loop variables and the condition behind `until` share one scope with
it.

A name stands for the binding visible latest in the innermost scope that has one for it; of two
that become visible at once the later one counts.  A name without any is global.

* `Scopes.ofTree`: the bindings, the definitions of global variables, and the definitions of
  members (`t.name = …`, `function t.name`, `function t:name`).
* `Scopes.lookup`: the binding of a name at a node.
-/

namespace LuaTyping

/-- What introduces a local name. -/
inductive BindingKind
  /-- A name of a `local` statement or a loop. -/
  | variable
  /-- A parameter. -/
  | param
  /-- A `local function` statement. -/
  | function
  /-- A colon method, for its unwritten parameter `self`. -/
  | self
  deriving DecidableEq, Repr, Inhabited

/-- A local name. -/
structure Binding where
  name : String
  /-- The node that introduces the name: the name itself, or the statement of a function. -/
  node : NodeId
  kind : BindingKind
  /-- The offset from which the name is visible. -/
  visibleFrom : Nat
  deriving DecidableEq, Repr, Inhabited

/-- How a global variable is defined. -/
inductive GlobalKind
  /-- By an assignment; the node is the assigned name. -/
  | assignment
  /-- By a `function` statement; the node is the statement. -/
  | function
  deriving DecidableEq, Repr, Inhabited

/-- A definition of a global variable. -/
structure GlobalDef where
  name : String
  node : NodeId
  kind : GlobalKind
  /-- Where the defining statement stops. -/
  stop : Nat
  deriving DecidableEq, Repr, Inhabited

/-- What a member is defined to be. -/
inductive MemberValue
  | expr (id : NodeId)
  /-- A function, by its body. -/
  | function (body : NodeId)
  deriving DecidableEq, Repr, Inhabited

/-- A definition of a member of a variable. -/
structure MemberDef where
  /-- The name of the variable, as a node. -/
  base : NodeId
  name : String
  value : MemberValue
  deriving DecidableEq, Repr, Inhabited

/-- The scopes of a file. -/
structure Scopes where
  /-- The bindings in the scope of each node, in the order of the text. -/
  bindings : Array (Array Binding) := #[]
  /-- The definitions of global variables, in the order of the text. -/
  globals : List GlobalDef := []
  /-- The definitions of members, in the order of the text. -/
  members : List MemberDef := []
  deriving Repr, Inhabited

namespace Tree

/-! ## Owners of scopes -/

/-- The kinds of nodes whose block has a scope of its own. -/
def ownsBlock : NodeKind → Bool
  | .doStat | .whileStat | .ifStat | .elseIfClause | .elseClause => true
  | _ => false

/-- The node owns a scope. -/
def ownsScope (t : Tree) (id : NodeId) : Bool :=
  match t.kind id with
  | .chunk | .funcBody | .numericForStat | .genericForStat | .repeatStat => true
  | .block =>
    match t.parent id with
    | some p => ownsBlock (t.kind p)
    | none => false
  | _ => false

/-- The owner of the scope that a statement stands in. -/
def scopeOwner? (t : Tree) (stat : NodeId) : Option NodeId :=
  (t.ancestors stat).find? t.ownsScope

/-- Where the block of a loop starts, or else where the loop stops. -/
def bodyStart (t : Tree) (loop : NodeId) : Nat :=
  match t.block? loop with
  | some b => t.start b
  | none => t.stop loop

/-! ## Bindings -/

/-- A binding introduced by a node under the text of a name. -/
def bindingOf (t : Tree) (name node : NodeId) (kind : BindingKind) (visibleFrom : Nat) : Binding :=
  ⟨t.textOf name, node, kind, visibleFrom⟩

/-- The bindings that a node introduces, each with the owner of its scope. -/
def bindingsAt (t : Tree) (id : NodeId) : List (NodeId × Binding) :=
  match t.kind id with
  | .localStat =>
    match t.scopeOwner? id with
    | some owner =>
      (t.listedNames id).map fun n => (owner, t.bindingOf n n .variable (t.stop id))
    | none => []
  | .localFuncStat =>
    match t.ownName? id, t.scopeOwner? id with
    | some n, some owner => [(owner, t.bindingOf n id .function (t.start n))]
    | _, _ => []
  | .funcBody =>
    let params := (t.params id).map fun p => (id, t.bindingOf p p .param (t.start id))
    match (t.parent id).bind (t.cast? .funcStat) with
    | some stat =>
      if t.isMethod stat then params ++ [(id, ⟨"self", stat, .self, t.start id⟩)] else params
    | none => params
  | .numericForStat =>
    match t.ownName? id with
    | some n => [(id, t.bindingOf n n .variable (t.bodyStart id))]
    | none => []
  | .genericForStat =>
    (t.listedNames id).map fun n => (id, t.bindingOf n n .variable (t.bodyStart id))
  | _ => []

/-- The bindings of all scopes. -/
def allBindings (t : Tree) : Array (Array Binding) :=
  t.walk.foldl (fun table id =>
    (t.bindingsAt id).foldl (fun table b => table.modify b.1 (·.push b.2)) table)
    (Array.replicate t.size #[])

end Tree

namespace Scopes

/-- The binding of a name that is visible latest before an offset; of two that become visible at
once the later one counts. -/
def latest (bindings : Array Binding) (name : String) (offset : Nat) : Option Binding :=
  bindings.foldl (fun best b =>
    if b.name == name && decide (b.visibleFrom ≤ offset)
        && best.all (fun x => decide (x.visibleFrom ≤ b.visibleFrom)) then some b
    else best) none

/-- The binding of a name at a node. -/
def lookup (s : Scopes) (t : Tree) (node : NodeId) (name : String) : Option Binding :=
  (t.ancestors node).findSome? fun owner =>
    latest (s.bindings.getD owner #[]) name (t.start node)

/-- The definitions of a global variable. -/
def globalsOf (s : Scopes) (name : String) : List GlobalDef :=
  s.globals.filter fun d => d.name == name

end Scopes

namespace Tree

/-! ## Definitions -/

/-- The node is no name with a visible binding. -/
def isUnbound (t : Tree) (s : Scopes) (name : NodeId) : Bool :=
  (s.lookup t name (t.textOf name)).isNone

/-- The definitions of global variables that a node makes. -/
def globalsAt (t : Tree) (s : Scopes) (id : NodeId) : List GlobalDef :=
  match t.kind id with
  | .assignStat =>
    (t.targets id).filterMap fun target =>
      if t.kind target = .nameExpr ∧ t.isUnbound s target = true then
        some ⟨t.textOf target, target, .assignment, t.stop id⟩
      else none
  | .funcStat =>
    match t.funcName? id, t.body? id with
    | some name, some _ =>
      match t.nameBase? name, t.nameFields name, t.nameMethod? name with
      | some base, [], none =>
        if t.isUnbound s base then [⟨t.textOf base, id, .function, t.stop id⟩] else []
      | _, _, _ => []
    | _, _ => []
  | _ => []

/-- The definition of a member by the assignment of a target that has an index. -/
def assignedMember? (t : Tree) (stat : NodeId) (target : NodeId) (index : Nat) :
    Option MemberDef := do
  guard (t.isMember target)
  let base ← (t.owner? target).bind (t.cast? .nameExpr)
  let key ← t.keyName? target
  let value ← t.valueAt? stat index
  return ⟨base, key, .expr value⟩

/-- The definitions of members that a node makes. -/
def membersAt (t : Tree) (id : NodeId) : List MemberDef :=
  match t.kind id with
  | .assignStat => (t.targets id).zipIdx.filterMap fun p => t.assignedMember? id p.1 p.2
  | .funcStat =>
    match t.funcName? id, t.body? id with
    | some name, some body =>
      match t.nameBase? name, t.nameFields name, t.nameMethod? name with
      | some base, [field], none => [⟨base, field, .function body⟩]
      | some base, [], some method => [⟨base, method, .function body⟩]
      | _, _, _ => []
    | _, _ => []
  | _ => []

end Tree

/-- The scopes of a tree. -/
def Scopes.ofTree (t : Tree) : Scopes :=
  let s : Scopes := { bindings := t.allBindings }
  let walk := t.walk
  { s with globals := walk.flatMap (t.globalsAt s), members := walk.flatMap t.membersAt }

end LuaTyping
