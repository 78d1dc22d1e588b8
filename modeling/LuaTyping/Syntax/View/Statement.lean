import LuaTyping.Text.Blank
import LuaTyping.Syntax.View.Expression

/-!
# Reading statements and functions off the tree

The parts of statements, the names they introduce, and what belongs to the body of a function.

* `Tree.commentLines`: a doc comment line by line, without dashes and blanks around.
* `Tree.declaringStatement?`: the statement whose doc comment describes a function.
* `Tree.returnStats`: the return statements of a function, without those of functions inside it.
-/

namespace LuaTyping

/-- The lines of a text; what follows the last newline is a line if it is not empty. -/
def splitLines (cs : List Char) : List (List Char) :=
  let r := cs.foldr (fun c (line, lines) =>
      if c = '\n' then ([], line :: lines) else (c :: line, lines))
    (([], []) : List Char × List (List Char))
  let all := r.1 :: r.2
  if all.getLast? = some [] then all.dropLast else all

namespace Tree

/-! ## Doc comments -/

/-- A line of a comment without blanks around it and dashes in front. -/
def cleanLine (line : List Char) : List Char :=
  trimBlanks ((trimBlanks line).dropWhile (· == '-'))

/-- The lines of a comment. -/
def commentLines (t : Tree) (comment : NodeId) : List String :=
  (splitLines (t.textOf comment).toList).map fun line => String.ofList (cleanLine line)

/-- The doc comment of a statement, its first child. -/
def docComment? (t : Tree) (stat : NodeId) : Option NodeId :=
  (t.children stat).head?.bind (t.cast? .comment)

/-! ## Parts of statements -/

/-- The block of a statement, a function or a program. -/
def block? (t : Tree) (id : NodeId) : Option NodeId := t.child? id .block

/-- The statements of a block. -/
def statements (t : Tree) (block : NodeId) : List NodeId :=
  (t.children block).filter fun c => (t.kind c).isStatement

/-- The first return statement of a block. -/
def blockReturn? (t : Tree) (block : NodeId) : Option NodeId := t.child? block .returnStat

/-- The list of values of a statement. -/
def values? (t : Tree) (stat : NodeId) : Option NodeId := t.child? stat .exprList

/-- The value with an index in the list of values of a statement. -/
def valueAt? (t : Tree) (stat : NodeId) (index : Nat) : Option NodeId :=
  (t.values? stat).bind fun list => (t.exprs list)[index]?

/-- The names in the list of names of a statement. -/
def listedNames (t : Tree) (stat : NodeId) : List NodeId :=
  match t.child? stat .nameList with
  | some list => t.childrenOf list .nameDef
  | none => []

/-- The single name that a statement introduces. -/
def ownName? (t : Tree) (stat : NodeId) : Option NodeId := t.child? stat .nameDef

/-- The variables that an assignment assigns. -/
def targets (t : Tree) (stat : NodeId) : List NodeId :=
  match t.child? stat .varList with
  | some list => t.exprs list
  | none => []

/-- The body of the function that a statement declares. -/
def body? (t : Tree) (stat : NodeId) : Option NodeId := t.child? stat .funcBody

/-! ## Names -/

/-- The statement that introduces a name. -/
def introducedBy? (t : Tree) (name : NodeId) : Option NodeId :=
  (t.parent name).bind fun p => if t.kind p = .nameList then t.parent p else some p

/-- The position of a name among the names of its declaration. -/
def nameIndex (t : Tree) (name : NodeId) : Nat := t.positionAmongSiblings name

/-- The full name of a `function` statement. -/
def funcName? (t : Tree) (stat : NodeId) : Option NodeId := t.child? stat .funcName

/-- The first part of a full name. -/
def nameBase? (t : Tree) (name : NodeId) : Option NodeId := t.child? name .nameExpr

/-- The parts behind the points of a full name. -/
def nameFields (t : Tree) (name : NodeId) : List String := (t.childrenOf name .name).map t.textOf

/-- The part behind the colon of a full name. -/
def nameMethod? (t : Tree) (name : NodeId) : Option String :=
  (t.child? name .methodName).map t.textOf

/-- The member that a full name defines: its method, or else its last field. -/
def nameMember? (t : Tree) (name : NodeId) : Option String :=
  (t.nameMethod? name).or (t.nameFields name).getLast?

/-- The statement declares a colon method. -/
def isMethod (t : Tree) (stat : NodeId) : Bool :=
  ((t.funcName? stat).bind t.nameMethod?).isSome

/-! ## Functions -/

/-- The parameters of a function, `...` apart. -/
def params (t : Tree) (body : NodeId) : List NodeId :=
  match t.child? body .paramList with
  | some list => t.childrenOf list .paramDef
  | none => []

/-- The function of a parameter. -/
def paramFunction? (t : Tree) (param : NodeId) : Option NodeId :=
  (t.parent param).bind fun list => (t.parent list).bind (t.cast? .funcBody)

/-- The statement of a function literal that is a value of it, as far as it declares or assigns
variables. -/
def initialized? (t : Tree) (closure : NodeId) : Option NodeId := do
  let value ← t.parent closure
  let list ← t.parent value
  let stat ← t.parent list
  if t.kind list = .exprList ∧ (t.kind stat = .localStat ∨ t.kind stat = .assignStat) then
    return stat
  else none

/-- The statement whose doc comment describes a function: the `function` statement itself, or the
declaration or assignment of which it is a value. -/
def declaringStatement? (t : Tree) (body : NodeId) : Option NodeId :=
  (t.parent body).bind fun p =>
    match t.kind p with
    | .funcStat | .localFuncStat => some p
    | .closureExpr => t.initialized? p
    | _ => none

/-- The doc comment that describes a function. -/
def functionComment? (t : Tree) (body : NodeId) : Option NodeId :=
  (t.declaringStatement? body).bind t.docComment?

/-- The return statements of a function, without those of functions inside it. -/
def returnStats (t : Tree) (body : NodeId) : List NodeId :=
  match t.block? body with
  | none => []
  | some block =>
    (t.preorderWithin (fun id => t.kind id != .funcBody) t.size [block] #[]).toList.filter
      fun id => t.kind id == .returnStat

end Tree

end LuaTyping
