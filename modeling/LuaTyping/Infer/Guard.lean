import LuaTyping.LuaType

/-!
# The guard of inference

Inference follows names to their values and calls to their functions, and these may lead back to
where it started.  A `Guard` keeps the computations in progress, each under its kind and its site.
One that is already in progress is refused, and so is one more than a limit of them; whoever is
refused has no answer.  Beside them the guard counts the expressions that are nested.

* `Guard.enter`, `Guard.release`: a computation begins and ends.
* `Guard.descend`, `Guard.ascend`: the same for an expression.

The guard is handed back whether something is begun or refused, so what a refusal does to it is not
settled by the types (see `Guard.eq_of_enter_eq_error`, `Guard.eq_of_descend_eq_error`).
-/

namespace LuaTyping

/-- The kinds of computations that are registered. -/
inductive GuardKind
  | valueExpr | localDeclaration | returnType | moduleReturn | selfParameter
  deriving DecidableEq, Repr, Inhabited

/-- Why a computation is refused. -/
inductive Blocked
  /-- It is in progress. -/
  | cycle
  /-- Too many are nested. -/
  | tooDeep
  deriving DecidableEq, Repr, Inhabited

/-- A refusal in words. -/
def Blocked.text : Blocked → String
  | cycle => "cycle"
  | tooDeep => "depth limit"

/-- A computation by its kind and its site. -/
abbrev GuardKey := GuardKind × Site

/-- The computations in progress. -/
structure Guard where
  /-- The registered computations, latest first. -/
  active : List GuardKey := []
  /-- Their number. -/
  depth : Nat := 0
  /-- The number of nested expressions. -/
  nesting : Nat := 0
  deriving DecidableEq, Repr, Inhabited

namespace Guard

/-- Puts a computation into the set of those in progress, and tells whether it is new there. -/
def insertActive (g : Guard) (key : GuardKey) : Bool × Guard :=
  (decide (key ∉ g.active), { g with active := g.active.insert key })

/-- Registers a computation, unless `max` of them are registered or it is one of them. -/
def enter (g : Guard) (key : GuardKey) (max : Nat) : EStateM.Result Blocked Guard Unit :=
  if max ≤ g.depth then .error .tooDeep g
  else
    match g.insertActive key with
    | (false, g) => .error .cycle g
    | (true, g) => .ok () { g with depth := g.depth + 1 }

/-- Ends a registered computation. -/
def release (g : Guard) (key : GuardKey) : Guard :=
  { g with active := g.active.erase key, depth := g.depth - 1 }

/-- The computation is registered. -/
def isActive (g : Guard) (key : GuardKey) : Bool := decide (key ∈ g.active)

/-- Begins an expression, unless `limit` of them are nested. -/
def descend (g : Guard) (limit : Nat) : EStateM.Result Blocked Guard Unit :=
  if limit ≤ g.nesting then .error .tooDeep g else .ok () { g with nesting := g.nesting + 1 }

/-- Ends an expression. -/
def ascend (g : Guard) : Guard := { g with nesting := g.nesting - 1 }

end Guard

end LuaTyping
