import LuaTyping.Syntax.Cursor

/-!
# Levels of nesting

Statements and sub-expressions may contain each other to a limited depth.  Every production is
written once, over the `Level` below it: the reader of expressions and the reader of statements
that it may use for what it contains.  Tying the levels together is left to `Program`, which puts
`Level.floor` at the bottom.
-/

namespace LuaTyping

/-- What a production may use for the parts it contains. -/
structure Level (σ ν : Type) where
  /-- An expression; only operators binding tighter than the given power are read. -/
  expr : Nat → Step σ ν
  /-- A statement. -/
  stat : Step σ ν

variable {σ ν : Type}

/-- Below the limit everything is cut off. -/
def Level.floor [Maker σ ν] : Level σ ν := ⟨fun _ => Step.cutOff, Step.cutOff⟩

namespace Grammar

/-- `{',' item}`: the items after the first, put in front of `done` in reverse order. -/
def commaItems (item : Step σ ν) (done : List ν) : Step σ (List ν) :=
  Step.iterate (fun done => do
    if ← Step.accept .comma then
      let t ← item
      return (t :: done, true)
    else return (done, false)) done

variable [Maker σ ν]

/-- `explist := exp {',' exp}` -/
def exprList (L : Level σ ν) : Step σ ν := do
  let first ← Step.here
  let e ← L.expr 0
  let es ← commaItems (L.expr 0) [e]
  Step.wrap .exprList es.reverse first

/-- The next statement of a block, put in front of `done`, up to a word that closes a block.  Where
a statement reads nothing, the next token is dropped behind it. -/
def blockItem (L : Level σ ν) (done : List ν) : Step σ (List ν × Bool) := do
  if ← Step.blockEnds then return (done, false)
  let before ← Step.position
  let s ← L.stat
  if (← Step.position) = before then
    Step.refuse .statement
    let dropped ← Step.leaf .error
    return (dropped :: s :: done, true)
  else return (s :: done, true)

/-- `block := {stat}` -/
def block (L : Level σ ν) : Step σ ν := do
  let first ← Step.here
  let stats ← Step.iterate (blockItem L) []
  Step.wrap .block stats.reverse first

/-- The next parameter of a function, put in front of `done`.  `...` is the last one. -/
def parameter (done : List ν) : Step σ (List ν × Bool) := do
  match ← Step.peek with
  | some .name =>
    let p ← Step.leaf .paramDef
    let more ← Step.accept .comma
    return (p :: done, more)
  | some .ellipsis =>
    let p ← Step.leaf .literal
    return (p :: done, false)
  | _ =>
    Step.refuse .parameterName
    return (done, false)

/-- The parameters of a function after its opening parenthesis, in reverse order. -/
def parameters : Step σ (List ν) := Step.iterate parameter []

/-- `funcbody := '(' [parlist] ')' block end` -/
def funcBody (L : Level σ ν) : Step σ ν := do
  let first ← Step.here
  Step.expect .leftParen .parenOpen
  let params ← if ← Step.at? .rightParen then pure [] else parameters
  Step.expect .rightParen .parenClose
  let paramList ← Step.finish .paramList first params.reverse
  let body ← block L
  Step.expect .endKw .endWord
  Step.finish .funcBody first [paramList, body]

end Grammar

end LuaTyping
