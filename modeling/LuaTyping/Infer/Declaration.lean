import LuaTyping.DocTag
import LuaTyping.Infer.Member

/-!
# What declarations say about types

A declared name has the type that the doc comment of its statement gives it, and otherwise the type
of its value.  A function returns what its doc comment says, and otherwise what its return
statements return; a file returns what its first return statement returns.
-/

namespace LuaTyping

namespace Plan

/-- The type of a function by the statement that declares it. -/
def ofFunction (p : Project) (stat : Site) : Plan TypeSet := do
  let body ← ofOption ((p.tree stat.file).body? stat.node)
  return .single (.function (stat.sibling body))

/-- The type of a name of a `local` statement or a loop.  The names of a loop over an iterator
have none. -/
def ofVariable (p : Project) (name : Site) : Plan TypeSet :=
  guarded .localDeclaration name do
    let t := p.tree name.file
    let stat ← ofOption (t.introducedBy? name.node)
    match t.kind stat with
    | .localStat =>
      match (t.docComment? stat).bind t.taggedType? with
      | some types => return types
      | none =>
        let value ← ofOption (t.valueAt? stat (t.nameIndex name.node))
        infer (name.sibling value)
    | .numericForStat => return .single .number
    | _ => unknown

/-- The type of a parameter: what the doc comment of its function says. -/
def ofParam (p : Project) (param : Site) : Plan TypeSet :=
  let t := p.tree param.file
  ofOption <| ((t.paramFunction? param.node).bind t.functionComment?).bind fun comment =>
    t.taggedParam? comment (t.textOf param.node)

/-- The type of a chain of members, from the type of its base. -/
def ofFields (p : Project) : TypeSet → List String → Plan TypeSet
  | types, [] => return types
  | types, name :: names => do
    let types ← member p types name
    ofFields p types names

/-- The type of `self` in `function a.b:m()`: that of `a.b`. -/
def ofSelf (p : Project) (method : Site) : Plan TypeSet :=
  guarded .selfParameter method do
    let t := p.tree method.file
    let name ← ofOption (t.funcName? method.node)
    let base ← ofOption (t.nameBase? name)
    let types ← infer (method.sibling base)
    ofFields p types (t.nameFields name)

/-- The type of a declaration by itself.  The target of an assignment has none of its own. -/
def ofDeclaration (p : Project) (d : Declaration) : Plan TypeSet :=
  match d.kind with
  | .variable => ofVariable p d.site
  | .param => ofParam p d.site
  | .localFunction | .globalFunction => ofFunction p d.site
  | .self => ofSelf p d.site
  | .assignment | .other => unknown

/-- The type of what the function with a body returns. -/
def ofReturn (p : Project) (body : Site) : Plan TypeSet :=
  guarded .returnType body do
    let t := p.tree body.file
    match (t.functionComment? body.node).bind t.taggedReturn? with
    | some types => return types
    | none =>
      let values := (t.returnStats body.node).filterMap fun r => t.valueAt? r 0
      ofOption (← joinAll (fun v => infer (body.sibling v)) values)

/-- The type of what a file returns. -/
def ofFile (p : Project) (file : Nat) : Plan TypeSet :=
  let t := p.tree file
  guarded .moduleReturn ⟨file, t.root⟩ do
    let value ← ofOption <| ((t.block? t.root).bind t.blockReturn?).bind fun r => t.valueAt? r 0
    infer ⟨file, value⟩

end Plan

end LuaTyping
