import LuaTyping.Infer.Declaration

/-!
# The types of expressions

One plan for each kind of expression, and `inferExpression` to follow them.  An expression inside
an expression counts as one more level, whichever way inference came to it, and at the limit there
is no answer; that is why following the plans always ends.

* `Plan.ofExpression`: what to do with an expression, by its kind.
* `inferExpression`: the type of an expression under a guard.
* `Context.infer`: the type of an expression asked for by itself.
* `guessType`, `guessReturn`, `returnedType`, `callTarget`, `inferMember`: the other questions that
  can be asked under a guard.
-/

namespace LuaTyping

/-! ## Calls -/

/-- The name of the function that loads modules. -/
def requireName : String := "require"

/-- The module name of a call of `require` with a string. -/
def Tree.requireTarget? (t : Tree) (call : NodeId) : Option String := do
  let callee ← (t.callee? call).bind (t.cast? .nameExpr)
  guard (t.textOf callee = requireName)
  (t.args? call).bind t.firstString?

/-- The file that a call loads. -/
def Project.requiredFile? (p : Project) (call : Site) : Option Nat :=
  ((p.tree call.file).requireTarget? call.node).bind fun module => p.require? module call.file

/-- The body of a function type, if there is a function at its site. -/
def Project.functionBody? (p : Project) : LuaType → Option Site
  | .function site => if p.kindAt site = .funcBody then some site else none
  | _ => none

namespace Plan

/-- The body of the function that a call invokes: the first function among the types of what is
called. -/
def callTarget (p : Project) (call : Site) : Plan Site := do
  let callee ← ofOption ((p.tree call.file).callee? call.node)
  let types ← infer (call.sibling callee)
  ofOption (types.toList.findSome? p.functionBody?)

/-- A call: what the required file returns, or else what the invoked function returns. -/
def ofCall (p : Project) (call : Site) : Plan TypeSet :=
  match p.requiredFile? call with
  | some file => ofFile p file
  | none => do
    let body ← callTarget p call
    ofReturn p body

end Plan

/-! ## Names -/

/-- The assignment that a name is a target of. -/
def Tree.assignmentOf? (t : Tree) (target : NodeId) : Option NodeId :=
  (t.ancestors target).find? fun id => t.kind id == .assignStat

/-- The types of a target without the global type, or none that are known. -/
def withGlobal (types : Option TypeSet) (global : LuaType) : TypeSet :=
  match types with
  | some types => if types.isEmpty then .single global else types.insert global
  | none => .single global

namespace Plan

/-- The type of what is assigned to a target: what the doc comment says, or else the type of the
first value. -/
def assigned (p : Project) (target : Site) : Plan TypeSet := do
  let t := p.tree target.file
  let stat ← ofOption (t.assignmentOf? target.node)
  match (t.docComment? stat).bind t.taggedType? with
  | some types => return types
  | none =>
    let value ← ofOption (t.valueAt? stat 0)
    infer (target.sibling value)

/-- The target of an assignment: what is assigned to it, and if it is global, its own type too. -/
def ofTarget (p : Project) (target : Site) : Plan TypeSet := do
  let types ← attempt (assigned p target)
  match p.resolveLocal? target with
  | some _ => ofOption types
  | none =>
    let name := (p.tree target.file).textOf target.node
    return withGlobal types (.global name target)

/-- A name: the type of its declaration.  A name that nothing declares is global. -/
def ofName (p : Project) (name : Site) : Plan TypeSet :=
  match p.resolve? name with
  | none => pure (.single (.global ((p.tree name.file).textOf name.node) name))
  | some d =>
    if d.kind = .assignment then ofTarget p d.site else ofDeclaration p d

/-! ## Members and values -/

/-- A field or an element with a known key. -/
def ofMember (p : Project) (e : Site) : Plan TypeSet := do
  let t := p.tree e.file
  let key ← ofOption (t.keyName? e.node)
  let owner ← ofOption (t.owner? e.node)
  let types ← infer (e.sibling owner)
  member p types key

/-- The method of a call `a:m()`. -/
def ofMethod (p : Project) (e : Site) : Plan TypeSet := do
  let t := p.tree e.file
  let owner ← ofOption (t.owner? e.node)
  let types ← infer (e.sibling owner)
  let name ← ofOption (t.nameText? e.node)
  member p types name

end Plan

/-- The type of a literal. -/
def literalType? : LiteralForm → Option LuaType
  | .nil => some .nil
  | .true | .false => some .boolean
  | .number => some .number
  | .string => some .string
  | .vararg => none

/-- A value: that of the expression it wraps, or the type of a table, a literal or a function. -/
def Plan.ofValue (p : Project) (value : Site) : Plan TypeSet :=
  guarded .valueExpr value do
    let t := p.tree value.file
    match ← ofOption (t.valueForm? value.node) with
    | .expr id => infer (value.sibling id)
    | .member id => ofMember p (value.sibling id)
    | .table id => return .single (.table (value.sibling id))
    | .literal id => return .single (← ofOption (literalType? (t.literalForm id)))
    | .closure id => return .single (.function (value.sibling (← ofOption (t.closureBody? id))))

/-! ## Operations -/

/-- The operators that yield one of their operands. -/
def isChoice (operator : String) : Bool := operator == "and" || operator == "or"

/-- The type of a binary operation that yields neither of its operands. -/
def binaryType? (operator : String) : Option LuaType :=
  if operator = ".." then some .string
  else if operator ∈ ["+", "-", "*", "/", "//", "%", "^", "&", "|", "~", "<<", ">>"] then
    some .number
  else if operator ∈ ["==", "~=", "<", "<=", ">", ">="] then some .boolean
  else none

/-- The type of a unary operation. -/
def unaryType? (operator : String) : Option LuaType :=
  if operator = "not" then some .boolean
  else if operator ∈ ["#", "-", "~"] then some .number
  else none

namespace Plan

/-- An operand of an operation, if it has it. -/
def operand (e : Site) (id : Option NodeId) : Plan TypeSet := do
  infer (e.sibling (← ofOption id))

/-- A binary operation. -/
def ofBinary (p : Project) (e : Site) : Plan TypeSet := do
  let t := p.tree e.file
  let operator := t.operatorText e.node
  if isChoice operator then
    let left ← attempt (operand e (t.leftOperand? e.node))
    let right ← attempt (operand e (t.rightOperand? e.node))
    ofOption (joinKnown left right)
  else return .single (← ofOption (binaryType? operator))

/-- A unary operation. -/
def ofUnary (p : Project) (e : Site) : Plan TypeSet := do
  let t := p.tree e.file
  return .single (← ofOption (unaryType? (t.operatorText e.node)))

/-- An expression in parentheses. -/
def ofParen (p : Project) (e : Site) : Plan TypeSet := do
  let inner ← ofOption ((p.tree e.file).parenInner? e.node)
  infer (e.sibling inner)

/-! ## All expressions -/

/-- What to do with an expression, by its kind. -/
def ofExpression (p : Project) (e : Site) : Plan TypeSet :=
  match p.kindAt e with
  | .valueExpr => ofValue p e
  | .callExpr => ofCall p e
  | .nameExpr => ofName p e
  | .parenExpr => ofParen p e
  | .fieldExpr | .indexExpr => ofMember p e
  | .methodExpr => ofMethod p e
  | .binaryExpr => ofBinary p e
  | .unaryExpr => ofUnary p e
  | _ => unknown

end Plan

/-- The type of an expression, with at most `fuel` levels below it. -/
def inferWithin (c : Context) : (fuel : Nat) → Inference
  | 0, _ => fun g => (none, g)
  | fuel + 1, e =>
    Infer.nested ((Plan.ofExpression c.project e).run c.maxDepth (inferWithin c fuel))

/-- The type of an expression.  There are as many levels below it as the guard has left. -/
def inferExpression (c : Context) : Inference := fun e g =>
  inferWithin c (maxExpressionNesting - g.nesting) e g

/-! ## Questions -/

/-- Follows a plan in a context. -/
def Context.follow {α : Type} (c : Context) (infer : Inference) (p : Plan α) : Infer α :=
  p.run c.maxDepth infer

section

variable (c : Context) (infer : Inference)

/-- The type of a name of a `local` statement or a loop. -/
def guessVariable (name : Site) : Infer TypeSet := c.follow infer (.ofVariable c.project name)

/-- The type of `self` in a method. -/
def guessSelf (method : Site) : Infer TypeSet := c.follow infer (.ofSelf c.project method)

/-- The type of a declaration by itself. -/
def guessType (d : Declaration) : Infer TypeSet := c.follow infer (.ofDeclaration c.project d)

/-- The type of what the function with a body returns. -/
def guessReturn (body : Site) : Infer TypeSet := c.follow infer (.ofReturn c.project body)

/-- The type of what a file returns. -/
def returnedType (file : Nat) : Infer TypeSet := c.follow infer (.ofFile c.project file)

/-- The body of the function that a call invokes. -/
def callTarget (call : Site) : Infer Site := c.follow infer (.callTarget c.project call)

/-- The types of a member over all types of its owner. -/
def inferMember (owner : TypeSet) (name : String) : Infer TypeSet :=
  c.follow infer (.member c.project owner name)

end

/-- The type of a function by the statement that declares it. -/
def guessFunction (c : Context) (stat : Site) : Infer TypeSet :=
  c.follow (inferExpression c) (.ofFunction c.project stat)

/-- The type of a parameter. -/
def guessParam (c : Context) (param : Site) : Infer TypeSet :=
  c.follow (inferExpression c) (.ofParam c.project param)

namespace Context

/-- The answer of a computation by itself. -/
def ask {α : Type} (p : Infer α) : Option α := (p {}).1

/-- The type of an expression. -/
def infer (c : Context) (e : Site) : Option TypeSet := ask (inferExpression c e)

end Context

end LuaTyping
