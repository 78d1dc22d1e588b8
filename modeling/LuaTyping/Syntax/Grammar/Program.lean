import LuaTyping.Syntax.Grammar.Statement

/-!
# Programs

The levels of nesting tied together, and whole programs.  `Grammar.chunk limit` reads the main block
of a program in which statements and sub-expressions are nested at most `limit` deep.
-/

namespace LuaTyping

namespace Grammar

variable {σ ν : Type} [Maker σ ν]

/-- The readers with `n` levels of nesting left. -/
def level : Nat → Level σ ν
  | 0 => .floor
  | n + 1 => ⟨expression (level n), statement (level n)⟩

/-- Closing words that close nothing, up to the end. -/
def strays : Step σ Unit :=
  Step.iterate (fun _ => do
    if ← Step.atEnd then return ((), false)
    Step.refuse .statement
    Step.bump
    return ((), true)) ()

/-- `chunk := block`, with everything behind the block refused.  The answer is the block. -/
def chunk (limit : Nat) : Step σ ν := do
  let body ← block (level limit)
  strays
  return body

end Grammar

/-- The deepest nesting of statements and sub-expressions. -/
def maxNesting : Nat := 200

end LuaTyping
