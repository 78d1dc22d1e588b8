/-!
# Kinds of syntax nodes

* `NodeKind.label`: the name of a kind in listings.
* `NodeKind.isExpression`: the kinds that can be asked for a type.
-/

namespace LuaTyping

/-- What a node of the syntax tree is. -/
inductive NodeKind
  | chunk | block | comment
  | localStat | localFuncStat | funcStat | assignStat | callStat | returnStat | doStat | whileStat
  | repeatStat | ifStat | elseIfClause | elseClause | numericForStat | genericForStat | breakStat
  | gotoStat | labelStat | emptyStat
  | nameList | nameDef | attrib | varList | exprList | funcName | methodName | funcBody
  | paramList | paramDef
  | valueExpr | nameExpr | callExpr | args | parenExpr | fieldExpr | methodExpr | indexExpr
  | binaryExpr | unaryExpr | operator | literal | closureExpr | tableConstructor | tableField
  | name | error
  deriving DecidableEq, Repr, Inhabited

namespace NodeKind

/-- The name under which a listing shows the kind. -/
def label : NodeKind → String
  | chunk => "Chunk" | block => "Block" | comment => "Comment" | localStat => "LocalStat"
  | localFuncStat => "LocalFuncStat" | funcStat => "FuncStat" | assignStat => "AssignStat"
  | callStat => "CallStat" | returnStat => "ReturnStat" | doStat => "DoStat"
  | whileStat => "WhileStat" | repeatStat => "RepeatStat" | ifStat => "IfStat"
  | elseIfClause => "ElseIfClause" | elseClause => "ElseClause"
  | numericForStat => "NumericForStat" | genericForStat => "GenericForStat"
  | breakStat => "BreakStat" | gotoStat => "GotoStat" | labelStat => "LabelStat"
  | emptyStat => "EmptyStat" | nameList => "NameList" | nameDef => "NameDef"
  | attrib => "Attrib" | varList => "VarList" | exprList => "ExprList" | funcName => "FuncName"
  | methodName => "MethodName" | funcBody => "FuncBody" | paramList => "ParamList"
  | paramDef => "ParamDef" | valueExpr => "ValueExpr" | nameExpr => "NameExpr"
  | callExpr => "CallExpr" | args => "Args" | parenExpr => "ParenExpr" | fieldExpr => "FieldExpr"
  | methodExpr => "MethodExpr" | indexExpr => "IndexExpr" | binaryExpr => "BinaryExpr"
  | unaryExpr => "UnaryExpr" | operator => "Operator" | literal => "Literal"
  | closureExpr => "ClosureExpr" | tableConstructor => "TableConstructor"
  | tableField => "TableField" | name => "Name" | error => "Error"

/-- The kinds of expressions.  A literal, a closure or a table is an expression only through the
value node around it. -/
def isExpression : NodeKind → Bool
  | valueExpr | nameExpr | callExpr | parenExpr | fieldExpr | methodExpr | indexExpr | binaryExpr
  | unaryExpr => true
  | _ => false

/-- The kinds of statements. -/
def isStatement : NodeKind → Bool
  | localStat | localFuncStat | funcStat | assignStat | callStat | returnStat | doStat | whileStat
  | repeatStat | ifStat | numericForStat | genericForStat | breakStat | gotoStat | labelStat
  | emptyStat => true
  | _ => false

end NodeKind

end LuaTyping
