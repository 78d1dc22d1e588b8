import LuaTyping.Syntax.Grammar.Expression

/-!
# Statements

`statement` looks at the first token of a statement and leaves the rest to one production for each
form.  Every production answers the kind of the statement and its children behind the comment that
documents it.
-/

namespace LuaTyping.Grammar

variable {σ ν : Type} [Maker σ ν]

/-- The kind of a statement and its children, without the comment that documents it. -/
abbrev Form (ν : Type) := NodeKind × List ν

/-- `attrib := '<' Name '>'` -/
def attrib : Step σ ν := do
  let first ← Step.here
  Step.bump
  Step.expect .name .attributeName
  Step.expect .greater .attributeClose
  Step.finish .attrib first []

/-- The next name of a `local` statement with its attribute, put in front of `done`. -/
def localName (done : List ν) : Step σ (List ν × Bool) := do
  match ← Step.leafOf? .name .nameDef .localName with
  | none => return (done, false)
  | some name =>
    let done ← if ← Step.at? .less then do
        let a ← attrib
        pure (a :: name :: done)
      else pure (name :: done)
    let more ← Step.accept .comma
    return (done, more)

/-- `attnamelist := Name [attrib] {',' Name [attrib]}`, ended early by what is no name. -/
def localNames : Step σ (List ν) := Step.iterate localName []

/-- `local attnamelist ['=' explist]`, behind the word. -/
def localStat (L : Level σ ν) : Step σ (Form ν) := do
  let first ← Step.here
  let names ← localNames
  let list ← Step.wrap .nameList names.reverse first
  if ← Step.accept .assign then
    let values ← exprList L
    return (.localStat, [list, values])
  else return (.localStat, [list])

/-- `local function Name funcbody`, behind the words. -/
def localFuncStat (L : Level σ ν) : Step σ (Form ν) := do
  let name ← Step.leafOf? .name .nameDef .functionName
  let body ← funcBody L
  return (.localFuncStat, name.toList ++ [body])

/-- `'.' Name`, put in front of `done`. -/
def funcField (done : List ν) : Step σ (List ν × Bool) := do
  if ← Step.accept .dot then
    let f ← Step.leafOf? .name .name .fieldName
    return (f.toList ++ done, true)
  else return (done, false)

/-- `funcname := Name {'.' Name} [':' Name]` -/
def funcName : Step σ ν := do
  let first ← Step.here
  let base ← Step.leafOf? .name .nameExpr .functionName
  let fields ← Step.iterate funcField base.toList
  let method ← if ← Step.accept .colon then Step.leafOf? .name .methodName .methodName
    else pure none
  Step.wrap .funcName (fields.reverse ++ method.toList) first

/-- `function funcname funcbody`, behind the word. -/
def funcStat (L : Level σ ν) : Step σ (Form ν) := do
  let name ← funcName
  let body ← funcBody L
  return (.funcStat, [name, body])

/-- `return [explist] [';']`, behind the word. -/
def returnStat (L : Level σ ν) : Step σ (Form ν) := do
  let children ← if (← Step.blockEnds) || (← Step.at? .semicolon) then pure [] else do
    let values ← exprList L
    pure [values]
  let _ ← Step.accept .semicolon
  return (.returnStat, children)

/-- `do block end`, behind the word. -/
def doStat (L : Level σ ν) : Step σ (Form ν) := do
  let body ← block L
  Step.expect .endKw .endWord
  return (.doStat, [body])

/-- `while exp do block end`, behind the word. -/
def whileStat (L : Level σ ν) : Step σ (Form ν) := do
  let condition ← L.expr 0
  Step.expect .doKw .doWord
  let body ← block L
  Step.expect .endKw .endWord
  return (.whileStat, [condition, body])

/-- `repeat block until exp`, behind the word. -/
def repeatStat (L : Level σ ν) : Step σ (Form ν) := do
  let body ← block L
  Step.expect .untilKw .untilWord
  let condition ← L.expr 0
  return (.repeatStat, [body, condition])

/-- `{elseif exp then block} [else block]`, put in front of `done` in reverse order. -/
def ifClauses (L : Level σ ν) (done : List ν) : Step σ (List ν) :=
  Step.iterate (fun done => do
    let first ← Step.here
    if ← Step.accept .elseifKw then
      let condition ← L.expr 0
      Step.expect .thenKw .thenWord
      let body ← block L
      let clause ← Step.finish .elseIfClause first [condition, body]
      return (clause :: done, true)
    else if ← Step.accept .elseKw then
      let body ← block L
      let clause ← Step.finish .elseClause first [body]
      return (clause :: done, false)
    else return (done, false)) done

/-- `if exp then block {elseif exp then block} [else block] end`, behind the word. -/
def ifStat (L : Level σ ν) : Step σ (Form ν) := do
  let condition ← L.expr 0
  Step.expect .thenKw .thenWord
  let body ← block L
  let children ← ifClauses L [body, condition]
  Step.expect .endKw .endWord
  return (.ifStat, children.reverse)

/-- `do block end`, the end of both loops over values. -/
def loopBody (L : Level σ ν) : Step σ ν := do
  Step.expect .doKw .doWord
  let body ← block L
  Step.expect .endKw .endWord
  return body

/-- `'=' exp ',' exp [',' exp] do block end`, behind the equals sign. -/
def numericForStat (L : Level σ ν) (var : Option ν) : Step σ (Form ν) := do
  let start ← L.expr 0
  Step.expect .comma .commaMark
  let stop ← L.expr 0
  let stride ← if ← Step.accept .comma then some <$> L.expr 0 else pure none
  let body ← loopBody L
  return (.numericForStat, var.toList ++ [start, stop] ++ stride.toList ++ [body])

/-- `',' Name`, put in front of `done`. -/
def loopName (done : List ν) : Step σ (List ν × Bool) := do
  if ← Step.accept .comma then
    let n ← Step.leafOf? .name .nameDef .loopVariable
    return (n.toList ++ done, true)
  else return (done, false)

/-- `for` with either form of loop, behind the word. -/
def forStat (L : Level σ ν) : Step σ (Form ν) := do
  let first ← Step.here
  let var ← Step.leafOf? .name .nameDef .loopVariable
  if ← Step.accept .assign then numericForStat L var
  else
    let names ← Step.iterate loopName var.toList
    let list ← Step.wrap .nameList names.reverse first
    Step.expect .inKw .inWord
    let values ← exprList L
    let body ← loopBody L
    return (.genericForStat, [list, values, body])

/-- `goto Name`, behind the word. -/
def gotoStat : Step σ (Form ν) := do
  let name ← Step.leafOf? .name .name .labelName
  return (.gotoStat, name.toList)

/-- `'::' Name '::'`, behind the first mark. -/
def labelStat : Step σ (Form ν) := do
  let name ← Step.leafOf? .name .name .labelName
  Step.expect .doubleColon .labelMark
  return (.labelStat, name.toList)

/-- `',' var`, put in front of `done`.  A comma that no variable follows is let pass. -/
def target (L : Level σ ν) (done : List ν) : Step σ (List ν × Bool) := do
  if ← Step.accept .comma then
    match ← suffixedExpr L with
    | some t => return (t :: done, true)
    | none => return (done, false)
  else return (done, false)

/-- `varlist '=' explist`, behind the first variable, or a call. -/
def assignOrCall (L : Level σ ν) (first : Nat) (target : ν) : Step σ (Form ν) := do
  if (← Step.at? .assign) || (← Step.at? .comma) then
    let targets ← Step.iterate (Grammar.target L) [target]
    let list ← Step.wrap .varList targets.reverse first
    Step.expect .assign .assignMark
    let values ← exprList L
    return (.assignStat, [list, values])
  else
    unless (← Step.kindOf target) = .callExpr do Step.refuse .assignOrCall
    return (.callStat, [target])

/-- A statement that starts with no word of its own. -/
def exprStat (L : Level σ ν) : Step σ (Form ν) := do
  let first ← Step.here
  match ← suffixedExpr L with
  | none => return (.error, [])
  | some target => assignOrCall L first target

/-- The form of the statement that the next token starts. -/
def form (L : Level σ ν) : Step σ (Form ν) := do
  match ← Step.peek with
  | some .semicolon => Step.bump; return (.emptyStat, [])
  | some .localKw =>
    Step.bump
    if ← Step.accept .functionKw then localFuncStat L else localStat L
  | some .functionKw => Step.bump; funcStat L
  | some .returnKw => Step.bump; returnStat L
  | some .doKw => Step.bump; doStat L
  | some .whileKw => Step.bump; whileStat L
  | some .repeatKw => Step.bump; repeatStat L
  | some .ifKw => Step.bump; ifStat L
  | some .forKw => Step.bump; forStat L
  | some .breakKw => Step.bump; return (.breakStat, [])
  | some .gotoKw => Step.bump; gotoStat
  | some .doubleColon => Step.bump; labelStat
  | _ => exprStat L

/-- A statement. -/
def statement (L : Level σ ν) : Step σ ν := do
  let (first, comment) ← Step.doc
  let (kind, children) ← form L
  Step.finish kind first (comment ++ children)

end LuaTyping.Grammar
