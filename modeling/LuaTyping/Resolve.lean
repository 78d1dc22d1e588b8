import LuaTyping.Project.Basic

/-!
# What a name refers to

A name with a visible local binding refers to that binding.  Any other name is global.  A global
name refers to a definition in its own file, if there is one: to the last one whose statement
stops before the name, or else to the first.  Otherwise it refers to the first definition in the
first other file of the project that defines it.

* `Project.resolveLocal?`, `Project.resolveGlobal?`, `Project.resolve?`.
-/

namespace LuaTyping

/-- What a declaration is. -/
inductive DeclarationKind
  | variable
  | param
  | localFunction
  | globalFunction
  | self
  /-- The target of an assignment to a global variable. -/
  | assignment
  /-- Anything else. -/
  | other
  deriving DecidableEq, Repr, Inhabited

/-- What a name refers to. -/
structure Declaration where
  kind : DeclarationKind
  site : Site
  deriving DecidableEq, Repr, Inhabited

namespace Project

/-- The declaration of a kind at a node, which is of the kind that such declarations have. -/
def declaration (p : Project) (file node : Nat) (expected : NodeKind) (kind : DeclarationKind) :
    Declaration :=
  ⟨if (p.tree file).kind node = expected then kind else .other, ⟨file, node⟩⟩

/-- The declaration of a binding. -/
def localDeclaration (p : Project) (file : Nat) (b : Binding) : Declaration :=
  match b.kind with
  | .variable => p.declaration file b.node .nameDef .variable
  | .param => p.declaration file b.node .paramDef .param
  | .function => p.declaration file b.node .localFuncStat .localFunction
  | .self => p.declaration file b.node .funcStat .self

/-- The declaration of a definition. -/
def globalDeclaration (p : Project) (file : Nat) (d : GlobalDef) : Declaration :=
  match d.kind with
  | .assignment => p.declaration file d.node .nameExpr .assignment
  | .function => p.declaration file d.node .funcStat .globalFunction

/-- The local declaration of the name at a site. -/
def resolveLocal? (p : Project) (s : Site) : Option Declaration :=
  let t := p.tree s.file
  ((p.scopes s.file).lookup t s.node (t.textOf s.node)).map (p.localDeclaration s.file)

/-- The definition that a global name at an offset takes among those of its file. -/
def nearestGlobal (defs : List GlobalDef) (offset : Nat) : Option GlobalDef :=
  ((defs.filter fun d => decide (d.stop ≤ offset)).getLast?).or defs.head?

/-- The first definition of a global variable in another file. -/
def globalElsewhere? (p : Project) (file : Nat) (name : String) : Option (Nat × GlobalDef) :=
  p.files.toList.findSome? fun f =>
    if f.id = file then none
    else (f.scopes.globalsOf name).head?.map fun d => (f.id, d)

/-- The declaration of the name at a site as a global variable. -/
def resolveGlobal? (p : Project) (s : Site) : Option Declaration :=
  let t := p.tree s.file
  let name := t.textOf s.node
  match nearestGlobal ((p.scopes s.file).globalsOf name) (t.start s.node) with
  | some d => some (p.globalDeclaration s.file d)
  | none => (p.globalElsewhere? s.file name).map fun d => p.globalDeclaration d.1 d.2

/-- The declaration of the name at a site. -/
def resolve? (p : Project) (s : Site) : Option Declaration :=
  (p.resolveLocal? s).or (p.resolveGlobal? s)

end Project

end LuaTyping
