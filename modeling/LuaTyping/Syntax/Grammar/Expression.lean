import LuaTyping.Syntax.Grammar.Level

/-!
# Expressions

Operators are grouped by climbing their powers: an expression read with a limit takes only the
binary operators whose left power is above it.  A literal, a table, a function or a suffixed
expression in operand position is wrapped in a value node.
-/

namespace LuaTyping.Grammar

variable {σ ν : Type} [Maker σ ν]

/-- `field := '[' exp ']' '=' exp | Name '=' exp | exp` -/
def tableField (L : Level σ ν) : Step σ ν := do
  let first ← Step.here
  match ← Step.peek, ← Step.peekSecond with
  | some .leftBracket, _ =>
    Step.bump
    let key ← L.expr 0
    Step.expect .rightBracket .bracketClose
    Step.expect .assign .assignMark
    let value ← L.expr 0
    Step.finish .tableField first [key, value]
  | some .name, some .assign =>
    let key ← Step.leaf .name
    Step.bump
    let value ← L.expr 0
    Step.finish .tableField first [key, value]
  | _, _ =>
    let value ← L.expr 0
    Step.finish .tableField first [value]

/-- A separator of table fields. -/
def fieldSeparator : Step σ Bool := do
  if ← Step.accept .comma then return true
  else Step.accept .semicolon

/-- The next field of a table, put in front of `done`, up to the closing brace. -/
def tableItem (L : Level σ ν) (done : List ν) : Step σ (List ν × Bool) := do
  if (← Step.at? .rightBrace) || (← Step.atEnd) then return (done, false)
  let f ← tableField L
  let more ← fieldSeparator
  return (f :: done, more)

/-- `tableconstructor := '{' [field {sep field} [sep]] '}'` -/
def tableConstructor (L : Level σ ν) : Step σ ν := do
  let first ← Step.here
  Step.bump
  let fields ← Step.iterate (tableItem L) []
  Step.expect .rightBrace .braceClose
  Step.finish .tableConstructor first fields.reverse

/-- The value node around an operand. -/
def valueOf (t : ν) : Step σ ν := Step.around .valueExpr t

/-- `funcargs := '(' [explist] ')' | tableconstructor | LiteralString` -/
def callArgs (L : Level σ ν) : Step σ ν := do
  let first ← Step.here
  let args ← match ← Step.peek with
    | some .quoted | some .longString => do
      let s ← Step.leaf .literal
      pure [← valueOf s]
    | some .leftBrace => do
      let t ← tableConstructor L
      pure [← valueOf t]
    | _ => do
      Step.expect .leftParen .parenOpen
      let args ← if ← Step.at? .rightParen then pure [] else do
        let e ← L.expr 0
        commaItems (L.expr 0) [e]
      Step.expect .rightParen .parenClose
      pure args.reverse
  Step.finish .args first args

/-- `primaryexp := Name | '(' exp ')'`.  Where neither starts, nothing is read. -/
def primaryExpr (L : Level σ ν) : Step σ (Option ν) := do
  match ← Step.peek with
  | some .name => return some (← Step.leaf .nameExpr)
  | some .leftParen =>
    let first ← Step.here
    Step.bump
    let inner ← L.expr 0
    Step.expect .rightParen .parenClose
    return some (← Step.finish .parenExpr first [inner])
  | _ => return none

/-- One suffix behind `e`: `'.' Name | '[' exp ']' | ':' Name funcargs | funcargs`. -/
def suffix (L : Level σ ν) (e : ν) : Step σ (ν × Bool) := do
  let first ← Step.startOf e
  match ← Step.peek with
  | some .dot =>
    Step.bump
    let name ← Step.leafOf? .name .name .fieldName
    return (← Step.finish .fieldExpr first (e :: name.toList), true)
  | some .leftBracket =>
    Step.bump
    let key ← L.expr 0
    Step.expect .rightBracket .bracketClose
    return (← Step.finish .indexExpr first [e, key], true)
  | some .colon =>
    Step.bump
    let name ← Step.leafOf? .name .name .methodName
    let method ← Step.finish .methodExpr first (e :: name.toList)
    let args ← callArgs L
    return (← Step.finish .callExpr first [method, args], true)
  | some .leftParen | some .quoted | some .longString | some .leftBrace =>
    let args ← callArgs L
    return (← Step.finish .callExpr first [e, args], true)
  | _ => return (e, false)

/-- `suffixedexp := primaryexp {suffix}`.  Where no primary expression starts, nothing is read. -/
def suffixedExpr (L : Level σ ν) : Step σ (Option ν) := do
  match ← primaryExpr L with
  | none => return none
  | some e => return some (← Step.iterate (suffix L) e)

/-- `simpleexp := nil | false | true | Numeral | LiteralString | '...' | functiondef |
tableconstructor | suffixedexp`, or an empty error node where none of them starts. -/
def simpleExpr (L : Level σ ν) : Step σ ν := do
  let operand ← match ← Step.peek with
    | some .leftBrace => some <$> tableConstructor L
    | some .functionKw => do
      let first ← Step.here
      Step.bump
      let body ← funcBody L
      some <$> Step.finish .closureExpr first [body]
    | some t => if t.isLiteral then some <$> Step.leaf .literal else suffixedExpr L
    | none => pure none
  match operand with
  | some t => valueOf t
  | none =>
    Step.refuse .expression
    Step.empty .error (← Step.here)

/-- An operand with the unary operators in front of it. -/
def operand (L : Level σ ν) : Step σ ν := do
  match ← Step.peek with
  | some t =>
    if t.isUnary then
      let op ← Step.leaf .operator
      let e ← L.expr unaryPower
      Step.join .unaryExpr op e [op, e]
    else simpleExpr L
  | none => simpleExpr L

/-- `binop subexpr` behind `left`, for an operator whose left power is above the limit. -/
def climb (L : Level σ ν) (limit : Nat) (left : ν) : Step σ (ν × Bool) := do
  match (← Step.peek).bind Token.binaryPowers with
  | some (l, r) =>
    if l ≤ limit then return (left, false)
    else
      let op ← Step.leaf .operator
      let right ← L.expr r
      return (← Step.join .binaryExpr left right [left, op, right], true)
  | none => return (left, false)

/-- `subexpr := operand {binop subexpr}`, with the operators whose left power is above the
limit. -/
def expression (L : Level σ ν) (limit : Nat) : Step σ ν := do
  let left ← operand L
  Step.iterate (climb L limit) left

end LuaTyping.Grammar
