import LuaTyping.Proofs.Syntax.Phrase

/-!
# Abstract syntax

The expressions and statements of the language as data, form by form as the grammar lists them.
What the grammar leaves to choice is kept: the separators of table fields, and whether a `return`
is closed by a semicolon.  Every form has its phrase, and through it its words and its outline.

The types hold whatever the parser lets pass, which is more than the language allows: the target of
an assignment may be any suffixed expression, the targets may be followed by one more comma, and a
`return` may stand anywhere in its block.  An operand may be any expression; which of them are read
as they stand is another question.
-/

namespace LuaTyping

/-! ## Words of one class -/

/-- A name. -/
structure Name where
  word : Word
  isName : word.token = .name

/-- A word that is an expression by itself, names apart. -/
structure Literal where
  word : Word
  isLiteral : word.token.isLiteral = true

/-- A string in one of its notations. -/
structure StringText where
  word : Word
  isString : word.token.isString = true

/-- A unary operator. -/
structure UnaryOp where
  word : Word
  isUnary : word.token.isUnary = true

/-- A binary operator with its powers. -/
structure BinaryOp where
  word : Word
  left : Nat
  right : Nat
  powers : word.token.binaryPowers = some (left, right)

/-- What stands between two fields of a table. -/
inductive Separator
  | comma
  | semicolon

/-- The token of a separator. -/
def Separator.token : Separator → Token
  | comma => .comma
  | semicolon => .semicolon

/-- The parameters of a function. -/
structure Params where
  names : List Name
  /-- `...` is the last parameter. -/
  variadic : Bool

/-- A name of a `local` statement with its attribute. -/
structure LocalName where
  name : Name
  attrib : Option Name

/-- The name of a `function` statement. -/
structure FuncName where
  base : Name
  fields : List Name
  method : Option Name

/-! ## Forms -/

mutual

/-- An expression. -/
inductive Exp
  | literal (text : Literal)
  | table (fields : Fields)
  | function (params : Params) (body : List Stat)
  | suffixed (e : Suffixed)
  | unary (op : UnaryOp) (e : Exp)
  | binary (left : Exp) (op : BinaryOp) (right : Exp)

/-- A name or an expression in parentheses, with suffixes. -/
inductive Suffixed
  | name (n : Name)
  | paren (e : Exp)
  | field (e : Suffixed) (n : Name)
  | index (e : Suffixed) (key : Exp)
  | call (e : Suffixed) (args : Args)
  | method (e : Suffixed) (n : Name) (args : Args)

/-- The arguments of a call. -/
inductive Args
  | list (es : List Exp)
  | table (fields : Fields)
  | string (text : StringText)

/-- The fields of a table; the separator behind the last one may be left out. -/
inductive Fields
  | none
  | last (f : Field)
  | more (f : Field) (separator : Separator) (rest : Fields)

/-- A field of a table. -/
inductive Field
  | keyed (key value : Exp)
  | named (n : Name) (value : Exp)
  | positional (value : Exp)

/-- A statement.  An empty list of values stands for none. -/
inductive Stat
  | empty
  | locals (n : LocalName) (ns : List LocalName) (values : List Exp)
  | localFunction (n : Name) (params : Params) (body : List Stat)
  | function (name : FuncName) (params : Params) (body : List Stat)
  | returns (values : List Exp) (closed : Bool)
  | block (body : List Stat)
  | while (condition : Exp) (body : List Stat)
  | repeat (body : List Stat) (condition : Exp)
  | if (condition : Exp) (body : List Stat) (clauses : Clauses)
  | numericFor (n : Name) (start stop : Exp) (stride : Option Exp) (body : List Stat)
  | genericFor (n : Name) (ns : List Name) (e : Exp) (es : List Exp) (body : List Stat)
  | break
  | goto (label : Name)
  | label (n : Name)
  | assign (target : Suffixed) (targets : List Suffixed) (trailing : Bool) (e : Exp) (es : List Exp)
  | call (e : Suffixed) (args : Args)
  | methodCall (e : Suffixed) (n : Name) (args : Args)

/-- What follows the first block of an `if`. -/
inductive Clauses
  | none
  | else (body : List Stat)
  | elseif (condition : Exp) (body : List Stat) (rest : Clauses)

end

/-! ## Phrases -/

namespace Phrase

/-- A word in its own node. -/
def leaf (kind : NodeKind) (w : Word) : Phrase := group kind [word w]

/-- `Name` in a node of a kind. -/
def ofName (kind : NodeKind) (n : Name) : Phrase := leaf kind n.word

/-- The word of a token that is written in one way only. -/
def key (t : Token) : Phrase := word t.word

/-- A value node around an operand. -/
def value (p : Phrase) : Phrase := group .valueExpr [p]

def tableOf (fields : List Phrase) : Phrase :=
  group .tableConstructor (key .leftBrace :: (fields ++ [key .rightBrace]))

def call (callee args : Phrase) : Phrase := group .callExpr [callee, args]

def methodCall (e : Phrase) (n : Name) (args : Phrase) : Phrase :=
  call (group .methodExpr [e, key .colon, ofName .name n]) args

/-- The elements of the list of parameters. -/
def paramsOf (ps : Params) : List Phrase :=
  ps.names.map (ofName .paramDef)
    ++ if ps.variadic then [leaf .literal Token.ellipsis.word] else []

def funcBody (ps : Params) (stats : List Phrase) : Phrase :=
  group .funcBody
    [group .paramList (key .leftParen :: (commaList (paramsOf ps) ++ [key .rightParen])),
      group .block stats, key .endKw]

/-- `Name [attrib]` -/
def localName (n : LocalName) : List Phrase :=
  ofName .nameDef n.name :: match n.attrib with
    | none => []
    | some a => [group .attrib [key .less, word a.word, key .greater]]

/-- `{',' Name [attrib]}` -/
def localNamesTail : List LocalName → List Phrase
  | [] => []
  | n :: ns => key .comma :: (localName n ++ localNamesTail ns)

def funcName (n : FuncName) : Phrase :=
  group .funcName (ofName .nameExpr n.base
    :: (n.fields.flatMap (fun f => [key .dot, ofName .name f])
      ++ match n.method with
        | none => []
        | some m => [key .colon, ofName .methodName m]))

def exprList (es : List Phrase) : Phrase := group .exprList (commaList es)

/-- `['=' explist]` -/
def initializer (es : List Phrase) : List Phrase :=
  match es with
  | [] => []
  | _ => [key .assign, exprList es]

/-- `do block end` -/
def loopBody (stats : List Phrase) : List Phrase :=
  [key .doKw, group .block stats, key .endKw]

end Phrase

open Phrase (key value ofName leaf exprList)

mutual

/-- The phrase of an expression. -/
def Exp.phrase : Exp → Phrase
  | .literal text => value (leaf .literal text.word)
  | .table fields => value (.tableOf fields.phrases)
  | .function params body =>
    value (.group .closureExpr [key .functionKw, .funcBody params (Stat.phrases body)])
  | .suffixed e => value e.phrase
  | .unary op e => .group .unaryExpr [leaf .operator op.word, e.phrase]
  | .binary left op right =>
    .group .binaryExpr [left.phrase, leaf .operator op.word, right.phrase]
termination_by structural e => e

def Exp.phrases : List Exp → List Phrase
  | [] => []
  | e :: es => e.phrase :: Exp.phrases es
termination_by structural es => es

/-- The phrase of a name, an expression in parentheses or one with suffixes. -/
def Suffixed.phrase : Suffixed → Phrase
  | .name n => ofName .nameExpr n
  | .paren e => .group .parenExpr [key .leftParen, e.phrase, key .rightParen]
  | .field e n => .group .fieldExpr [e.phrase, key .dot, ofName .name n]
  | .index e k => .group .indexExpr [e.phrase, key .leftBracket, k.phrase, key .rightBracket]
  | .call e args => .call e.phrase args.phrase
  | .method e n args => .methodCall e.phrase n args.phrase
termination_by structural e => e

def Suffixed.phrases : List Suffixed → List Phrase
  | [] => []
  | e :: es => e.phrase :: Suffixed.phrases es
termination_by structural es => es

/-- The phrase of the arguments of a call. -/
def Args.phrase : Args → Phrase
  | .list es =>
    .group .args (key .leftParen :: (Phrase.commaList (Exp.phrases es) ++ [key .rightParen]))
  | .table fields => .group .args [value (.tableOf fields.phrases)]
  | .string text => .group .args [value (leaf .literal text.word)]
termination_by structural args => args

/-- The phrases of the fields of a table. -/
def Fields.phrases : Fields → List Phrase
  | .none => []
  | .last f => [f.phrase]
  | .more f separator rest => f.phrase :: key separator.token :: rest.phrases
termination_by structural fields => fields

/-- The phrase of a field of a table. -/
def Field.phrase : Field → Phrase
  | .keyed k v =>
    .group .tableField [key .leftBracket, k.phrase, key .rightBracket, key .assign, v.phrase]
  | .named n v => .group .tableField [ofName .name n, key .assign, v.phrase]
  | .positional v => .group .tableField [v.phrase]
termination_by structural f => f

/-- The phrase of a statement. -/
def Stat.phrase : Stat → Phrase
  | .empty => .group .emptyStat [key .semicolon]
  | .locals n ns values =>
    .group .localStat (key .localKw
      :: .group .nameList (Phrase.localName n ++ Phrase.localNamesTail ns)
      :: Phrase.initializer (Exp.phrases values))
  | .localFunction n params body =>
    .group .localFuncStat [key .localKw, key .functionKw, ofName .nameDef n,
      .funcBody params (Stat.phrases body)]
  | .function name params body =>
    .group .funcStat [key .functionKw, .funcName name, .funcBody params (Stat.phrases body)]
  | .returns values closed =>
    .group .returnStat (key .returnKw
      :: ((match values with
        | [] => []
        | _ => [exprList (Exp.phrases values)])
        ++ if closed then [key .semicolon] else []))
  | .block body => .group .doStat (Phrase.loopBody (Stat.phrases body))
  | .while condition body =>
    .group .whileStat (key .whileKw :: condition.phrase :: Phrase.loopBody (Stat.phrases body))
  | .repeat body condition =>
    .group .repeatStat [key .repeatKw, .group .block (Stat.phrases body), key .untilKw,
      condition.phrase]
  | .if condition body clauses =>
    .group .ifStat (key .ifKw :: condition.phrase :: key .thenKw
      :: .group .block (Stat.phrases body) :: (clauses.phrases ++ [key .endKw]))
  | .numericFor n start stop stride body =>
    .group .numericForStat ([key .forKw, ofName .nameDef n, key .assign, start.phrase, key .comma,
      stop.phrase] ++ Exp.stridePhrases stride ++ Phrase.loopBody (Stat.phrases body))
  | .genericFor n ns e es body =>
    .group .genericForStat ([key .forKw,
      .group .nameList (Phrase.commaList ((n :: ns).map (ofName .nameDef))), key .inKw,
      exprList (e.phrase :: Exp.phrases es)] ++ Phrase.loopBody (Stat.phrases body))
  | .break => .group .breakStat [key .breakKw]
  | .goto n => .group .gotoStat [key .gotoKw, ofName .name n]
  | .label n => .group .labelStat [key .doubleColon, ofName .name n, key .doubleColon]
  | .assign target targets trailing e es =>
    .group .assignStat
      (.group .varList (Phrase.commaList (target.phrase :: Suffixed.phrases targets))
      :: ((if trailing then [key .comma] else [])
        ++ [key .assign, exprList (e.phrase :: Exp.phrases es)]))
  | .call e args => .group .callStat [.call e.phrase args.phrase]
  | .methodCall e n args => .group .callStat [.methodCall e.phrase n args.phrase]
termination_by structural s => s

def Stat.phrases : List Stat → List Phrase
  | [] => []
  | s :: ss => s.phrase :: Stat.phrases ss
termination_by structural ss => ss

/-- The phrases of the step of a loop over numbers. -/
def Exp.stridePhrases : Option Exp → List Phrase
  | none => []
  | some e => [key .comma, e.phrase]
termination_by structural stride => stride

/-- The phrases of what follows the first block of an `if`. -/
def Clauses.phrases : Clauses → List Phrase
  | .none => []
  | .else body => [.group .elseClause [key .elseKw, .group .block (Stat.phrases body)]]
  | .elseif condition body rest =>
    .group .elseIfClause [key .elseifKw, condition.phrase, key .thenKw,
      .group .block (Stat.phrases body)] :: rest.phrases
termination_by structural clauses => clauses

end

end LuaTyping
