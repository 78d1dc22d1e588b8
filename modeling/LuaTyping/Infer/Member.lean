import LuaTyping.Resolve
import LuaTyping.Infer.Basic

/-!
# Members

The members of a table are those its constructor writes, and those that are assigned to the
variable the constructor initializes; of several definitions the last one counts, and assigned
members count after written ones.  The members of a global variable are those assigned to its name
anywhere in the project.  No other type has members.

* `Project.findMember?`: where the value of a member stands.
* `Plan.member`: the types of a member over all types of its owner.
-/

namespace LuaTyping

/-- Where the value of a member stands. -/
inductive MemberSource
  | value (site : Site)
  /-- A function, by the site of its body. -/
  | function (site : Site)
  deriving DecidableEq, Repr, Inhabited

/-- A variable that holds a table. -/
inductive Variable
  /-- A local one, by the site of its declaration. -/
  | declared (site : Site)
  | global (name : String)
  deriving DecidableEq, Repr, Inhabited

namespace Project

/-- The name at a site stands for the variable. -/
def isNamedBy (p : Project) (v : Variable) (base : Site) : Bool :=
  match v, p.resolveLocal? base with
  | .declared site, some d => d.site == site
  | .declared _, none => false
  | .global _, some _ => false
  | .global name, none => (p.tree base.file).textOf base.node == name

/-- The variable that the table constructor at a site initializes. -/
def tableVariable? (p : Project) (table : Site) : Option Variable := do
  let t := p.tree table.file
  let value ← t.parent table.node
  let list ← (t.parent value).bind (t.cast? .exprList)
  let index ← (t.exprs list).findIdx? (· == value)
  let stat ← t.parent list
  match t.kind stat with
  | .localStat => return .declared (table.sibling (← (t.listedNames stat)[index]?))
  | .assignStat =>
    let target ← (t.targets stat)[index]?.bind (t.cast? .nameExpr)
    match p.resolveLocal? (table.sibling target) with
    | some d => return .declared d.site
    | none => return .global (t.textOf target)
  | _ => none

/-- The source of a definition in a file, if the tree has what it names. -/
def memberSource? (p : Project) (file : Nat) (d : MemberDef) : Option MemberSource :=
  let t := p.tree file
  match d.value with
  | .expr id => (t.expr? id).map fun id => .value ⟨file, id⟩
  | .function id => (t.cast? .funcBody id).map fun id => .function ⟨file, id⟩

/-- The definitions of a member of a variable in a file. -/
def memberDefs (p : Project) (file : Nat) (v : Variable) (name : String) : List MemberDef :=
  (p.scopes file).members.filter fun d =>
    d.name == name && (p.tree file).kind d.base == .nameExpr && p.isNamedBy v ⟨file, d.base⟩

/-- The value that a table constructor writes for a member. -/
def writtenMember? (p : Project) (table : Site) (name : String) : Option MemberSource :=
  let t := p.tree table.file
  ((t.tableFields table.node).filter fun f => t.fieldKey? f == some name).getLast?.bind fun f =>
    (t.fieldValue? f).map fun v => .value (table.sibling v)

/-- The last definition of a member of a table. -/
def tableMember? (p : Project) (table : Site) (name : String) : Option MemberSource :=
  let written := p.writtenMember? table name
  match p.tableVariable? table with
  | none => written
  | some v =>
    ((p.memberDefs table.file v name).getLast?.bind (p.memberSource? table.file)).or written

/-- The last definition of a member of a global variable. -/
def globalMember? (p : Project) (global name : String) : Option MemberSource :=
  ((p.files.toList.flatMap fun f =>
    (p.memberDefs f.id (.global global) name).filterMap (p.memberSource? f.id))).getLast?

/-- The last definition of a member of a type. -/
def findMember? (p : Project) (type : LuaType) (name : String) : Option MemberSource :=
  match type with
  | .table site =>
    if p.kindAt site = .tableConstructor then p.tableMember? site name else none
  | .global global _ => p.globalMember? global name
  | .named _ | .function _ => none

end Project

/-- The types of a member of one type. -/
def Plan.memberOf (p : Project) (name : String) (type : LuaType) : Plan TypeSet :=
  match p.findMember? type name with
  | some (.value site) => .infer site
  | some (.function site) => pure (.single (.function site))
  | none => .unknown

/-- The types of a member over all types of its owner. -/
def Plan.member (p : Project) (owner : TypeSet) (name : String) : Plan TypeSet := do
  .ofOption (← Plan.joinAll (Plan.memberOf p name) owner.toList)

end LuaTyping
