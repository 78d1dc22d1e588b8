import LuaTyping.Infer.Guard

/-!
# Permits

A guard under computations that need not end in the reverse order of their beginnings.  Whoever
enters or descends is handed a permit, a number that counts up from zero for each of the two, and
gives it back when done.  A permit that was given back is not held any more.

* `Permits.enter`, `Permits.descend`: a new permit and what is held with it, or a refusal.
* `Permits.release`, `Permits.ascend`: whether the permit was held, and what is held without it.
-/

namespace LuaTyping

/-- A guard and the permits it handed out. -/
structure Permits where
  guard : Guard := {}
  /-- For each permit to compute its computation, as long as it is held. -/
  computations : List (Option GuardKey) := []
  /-- For each permit to descend whether it is held. -/
  descents : List Bool := []
  deriving DecidableEq, Repr, Inhabited

namespace Permits

/-- Registers a computation. -/
def enter (p : Permits) (key : GuardKey) (max : Nat) : Except Blocked (Nat × Permits) :=
  match p.guard.enter key max with
  | .ok () g =>
    .ok (p.computations.length,
      { p with guard := g, computations := p.computations ++ [some key] })
  | .error b _ => .error b

/-- Gives back a permit to compute. -/
def release (p : Permits) (permit : Nat) : Bool × Permits :=
  match p.computations[permit]? with
  | some (some key) =>
    (true, { p with
      guard := p.guard.release key
      computations := p.computations.set permit none })
  | _ => (false, p)

/-- Begins an expression. -/
def descend (p : Permits) (limit : Nat) : Except Blocked (Nat × Permits) :=
  match p.guard.descend limit with
  | .ok () g => .ok (p.descents.length, { p with guard := g, descents := p.descents ++ [true] })
  | .error b _ => .error b

/-- Gives back a permit to descend. -/
def ascend (p : Permits) (permit : Nat) : Bool × Permits :=
  match p.descents[permit]? with
  | some true =>
    (true, { p with guard := p.guard.ascend, descents := p.descents.set permit false })
  | _ => (false, p)

end Permits

end LuaTyping
