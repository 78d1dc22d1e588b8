import LuaTyping.Syntax.Tree
import LuaTyping.Syntax.View.Literal

/-!
# Reading expressions off the tree

The parts of the forms of expressions.  Every part is optional, because the tree of a text with
errors may lack it.  An *expression* is a node of an expression kind; what else stands in the place
of one is passed over.
-/

namespace LuaTyping

/-- What a value node wraps. -/
inductive ValueForm
  /-- A name, a call, an expression in parentheses, an operation. -/
  | expr (id : NodeId)
  /-- A field or an element, `a.b` or `a[k]`. -/
  | member (id : NodeId)
  | table (id : NodeId)
  | literal (id : NodeId)
  | closure (id : NodeId)
  deriving DecidableEq, Repr, Inhabited

namespace Tree

/-- The node, if it is of a kind. -/
def cast? (t : Tree) (kind : NodeKind) (id : NodeId) : Option NodeId :=
  if t.kind id = kind then some id else none

/-- The node, if it is an expression. -/
def expr? (t : Tree) (id : NodeId) : Option NodeId :=
  if (t.kind id).isExpression then some id else none

/-- The children that are expressions. -/
def exprs (t : Tree) (id : NodeId) : List NodeId :=
  (t.children id).filter fun c => (t.kind c).isExpression

/-- The child with an index, if it is an expression. -/
def exprAt? (t : Tree) (id : NodeId) (index : Nat) : Option NodeId :=
  ((t.children id)[index]?).bind t.expr?

/-! ## Values -/

/-- What a value node wraps. -/
def valueForm? (t : Tree) (id : NodeId) : Option ValueForm :=
  (t.children id).head?.bind fun c =>
    match t.kind c with
    | .tableConstructor => some (.table c)
    | .literal => some (.literal c)
    | .closureExpr => some (.closure c)
    | .fieldExpr | .indexExpr => some (.member c)
    | _ => (t.expr? c).map .expr

/-- The form of a literal. -/
def literalForm (t : Tree) (id : NodeId) : LiteralForm := LiteralForm.ofText (t.textOf id)

/-- The contents of a string literal. -/
def stringValue? (t : Tree) (id : NodeId) : Option String := stringContents? (t.textOf id)

/-- The contents of an expression that is nothing but a string literal. -/
def exprString? (t : Tree) (id : NodeId) : Option String :=
  (t.cast? .valueExpr id).bind fun v =>
    match t.valueForm? v with
    | some (.literal l) => t.stringValue? l
    | _ => none

/-- The body of a function literal. -/
def closureBody? (t : Tree) (id : NodeId) : Option NodeId := t.child? id .funcBody

/-! ## Calls -/

/-- The called expression; for `obj:m()` the method expression. -/
def callee? (t : Tree) (call : NodeId) : Option NodeId := t.exprAt? call 0

/-- The node of the arguments. -/
def args? (t : Tree) (call : NodeId) : Option NodeId := t.child? call .args

/-- The contents of the first argument, if it is a string literal. -/
def firstString? (t : Tree) (args : NodeId) : Option String :=
  (t.exprs args).head?.bind t.exprString?

/-! ## Members -/

/-- The text of the first plain identifier below a node. -/
def nameText? (t : Tree) (id : NodeId) : Option String := (t.child? id .name).map t.textOf

/-- What a field, a method or an element is taken of. -/
def owner? (t : Tree) (id : NodeId) : Option NodeId := t.exprAt? id 0

/-- The key between the brackets. -/
def indexKey? (t : Tree) (id : NodeId) : Option NodeId := t.exprAt? id 1

/-- The name of a member, as far as the text fixes it: the name of a field, or a string literal
as the key of an element. -/
def keyName? (t : Tree) (id : NodeId) : Option String :=
  match t.kind id with
  | .fieldExpr => t.nameText? id
  | .indexExpr => (t.indexKey? id).bind t.exprString?
  | _ => none

/-- A field or an element. -/
def isMember (t : Tree) (id : NodeId) : Bool :=
  match t.kind id with
  | .fieldExpr | .indexExpr => true
  | _ => false

/-! ## Tables -/

/-- The fields of a table constructor. -/
def tableFields (t : Tree) (id : NodeId) : List NodeId := t.childrenOf id .tableField

/-- The key of a field, as far as the text fixes it: `name = v` or `["name"] = v`. -/
def fieldKey? (t : Tree) (field : NodeId) : Option String :=
  match t.children field with
  | key :: _ :: _ =>
    if t.kind key = .name then some (t.textOf key) else (t.expr? key).bind t.exprString?
  | _ => none

/-- The value of a field. -/
def fieldValue? (t : Tree) (field : NodeId) : Option NodeId :=
  (t.children field).getLast?.bind t.expr?

/-! ## Operations -/

/-- The operator of an operation. -/
def operator? (t : Tree) (id : NodeId) : Option String := (t.child? id .operator).map t.textOf

/-- The operator of an operation, or the empty text. -/
def operatorText (t : Tree) (id : NodeId) : String := (t.operator? id).getD ""

/-- The first operand of a binary operation. -/
def leftOperand? (t : Tree) (id : NodeId) : Option NodeId := t.exprAt? id 0

/-- The second operand of a binary operation. -/
def rightOperand? (t : Tree) (id : NodeId) : Option NodeId := t.exprAt? id 2

/-- The operand of a unary operation. -/
def unaryOperand? (t : Tree) (id : NodeId) : Option NodeId := t.exprAt? id 1

/-- The expression in parentheses. -/
def parenInner? (t : Tree) (id : NodeId) : Option NodeId := (t.exprs id).head?

end Tree

end LuaTyping
