import LuaTyping.Proofs.Syntax.Sketch
import LuaTyping.Proofs.Syntax.Forms

/-!
# Programs as they are printed

Which abstract programs can be printed word by word and read again, and how they are printed.

An operand that is itself an operator needs parentheses unless the powers of the two operators
group it the right way.  On the left of an operator stands bare what holds its own right end at
least as tightly; on the right of an operator stands bare what binds tighter.

Behind every statement a semicolon is printed.  A `return` takes it in, and behind any other
statement it is an empty statement of its own.

* `Stat.GroupedAll`: every operand that needs parentheses has them.
* `Stat.nestingAll`: how deep statements and sub-expressions are nested.
* `Stat.punctuateAll`: the program with the semicolons.
* `Word.spaced`: words with a space between them.
-/

namespace LuaTyping

/-! ## Operands -/

/-- The expression may stand bare to the right of an operator with the given right power. -/
def Exp.BareBehind (power : Nat) : Exp → Prop
  | .binary _ op _ => power < op.left
  | _ => True

/-- The expression may stand bare to the left of an operator with the given left power. -/
def Exp.BareBefore (power : Nat) : Exp → Prop
  | .binary _ op _ => power ≤ op.right
  | .unary _ _ => power ≤ unaryPower
  | _ => True

mutual

/-- Every operand that needs parentheses has them. -/
def Exp.Grouped : Exp → Prop
  | .literal _ => True
  | .table fields => fields.Grouped
  | .function _ body => Stat.GroupedAll body
  | .suffixed e => e.Grouped
  | .unary _ e => e.BareBehind unaryPower ∧ e.Grouped
  | .binary left op right =>
    (left.BareBefore op.left ∧ left.Grouped) ∧ right.BareBehind op.right ∧ right.Grouped
termination_by structural e => e

def Exp.GroupedAll : List Exp → Prop
  | [] => True
  | e :: es => e.Grouped ∧ Exp.GroupedAll es
termination_by structural es => es

def Suffixed.Grouped : Suffixed → Prop
  | .name _ => True
  | .paren e => e.Grouped
  | .field e _ => e.Grouped
  | .index e k => e.Grouped ∧ k.Grouped
  | .call e args => e.Grouped ∧ args.Grouped
  | .method e _ args => e.Grouped ∧ args.Grouped
termination_by structural e => e

def Suffixed.GroupedAll : List Suffixed → Prop
  | [] => True
  | e :: es => e.Grouped ∧ Suffixed.GroupedAll es
termination_by structural es => es

def Args.Grouped : Args → Prop
  | .list es => Exp.GroupedAll es
  | .table fields => fields.Grouped
  | .string _ => True
termination_by structural args => args

def Fields.Grouped : Fields → Prop
  | .none => True
  | .last f => f.Grouped
  | .more f _ rest => f.Grouped ∧ rest.Grouped
termination_by structural fields => fields

def Field.Grouped : Field → Prop
  | .keyed k v => k.Grouped ∧ v.Grouped
  | .named _ v => v.Grouped
  | .positional v => v.Grouped
termination_by structural f => f

def Stat.Grouped : Stat → Prop
  | .empty | .break | .goto _ | .label _ => True
  | .locals _ _ values | .returns values _ => Exp.GroupedAll values
  | .localFunction _ _ body | .function _ _ body | .block body => Stat.GroupedAll body
  | .while condition body => condition.Grouped ∧ Stat.GroupedAll body
  | .repeat body condition => Stat.GroupedAll body ∧ condition.Grouped
  | .if condition body clauses => condition.Grouped ∧ Stat.GroupedAll body ∧ clauses.Grouped
  | .numericFor _ start stop stride body =>
    start.Grouped ∧ stop.Grouped ∧ Exp.GroupedStride stride ∧ Stat.GroupedAll body
  | .genericFor _ _ e es body => e.Grouped ∧ Exp.GroupedAll es ∧ Stat.GroupedAll body
  | .assign target targets _ e es =>
    target.Grouped ∧ Suffixed.GroupedAll targets ∧ e.Grouped ∧ Exp.GroupedAll es
  | .call e args => e.Grouped ∧ args.Grouped
  | .methodCall e _ args => e.Grouped ∧ args.Grouped
termination_by structural s => s

/-- Every operand in a block that needs parentheses has them. -/
def Stat.GroupedAll : List Stat → Prop
  | [] => True
  | s :: ss => s.Grouped ∧ Stat.GroupedAll ss
termination_by structural ss => ss

def Exp.GroupedStride : Option Exp → Prop
  | none => True
  | some e => e.Grouped
termination_by structural stride => stride

def Clauses.Grouped : Clauses → Prop
  | .none => True
  | .else body => Stat.GroupedAll body
  | .elseif condition body rest => condition.Grouped ∧ Stat.GroupedAll body ∧ rest.Grouped
termination_by structural clauses => clauses

end

/-! ## Nesting -/

mutual

/-- The levels of nesting that an expression takes.  The left operand of an operator stands on the
level of the operator itself. -/
def Exp.nesting : Exp → Nat
  | .literal _ => 1
  | .table fields => fields.nesting + 1
  | .function _ body => Stat.nestingAll body + 1
  | .suffixed e => e.nesting + 1
  | .unary _ e => e.nesting + 1
  | .binary left _ right => max left.nesting (right.nesting + 1)
termination_by structural e => e

def Exp.nestingAll : List Exp → Nat
  | [] => 0
  | e :: es => max e.nesting (Exp.nestingAll es)
termination_by structural es => es

/-- The levels of nesting below the level of a suffixed expression. -/
def Suffixed.nesting : Suffixed → Nat
  | .name _ => 0
  | .paren e => e.nesting
  | .field e _ => e.nesting
  | .index e k => max e.nesting k.nesting
  | .call e args => max e.nesting args.nesting
  | .method e _ args => max e.nesting args.nesting
termination_by structural e => e

def Suffixed.nestingAll : List Suffixed → Nat
  | [] => 0
  | e :: es => max e.nesting (Suffixed.nestingAll es)
termination_by structural es => es

def Args.nesting : Args → Nat
  | .list es => Exp.nestingAll es
  | .table fields => fields.nesting
  | .string _ => 0
termination_by structural args => args

def Fields.nesting : Fields → Nat
  | .none => 0
  | .last f => f.nesting
  | .more f _ rest => max f.nesting rest.nesting
termination_by structural fields => fields

def Field.nesting : Field → Nat
  | .keyed k v => max k.nesting v.nesting
  | .named _ v => v.nesting
  | .positional v => v.nesting
termination_by structural f => f

/-- The levels of nesting that a statement takes. -/
def Stat.nesting : Stat → Nat
  | .empty | .break | .goto _ | .label _ => 1
  | .locals _ _ values | .returns values _ => Exp.nestingAll values + 1
  | .localFunction _ _ body | .function _ _ body | .block body => Stat.nestingAll body + 1
  | .while condition body => max condition.nesting (Stat.nestingAll body) + 1
  | .repeat body condition => max (Stat.nestingAll body) condition.nesting + 1
  | .if condition body clauses =>
    max condition.nesting (max (Stat.nestingAll body) clauses.nesting) + 1
  | .numericFor _ start stop stride body =>
    max start.nesting (max stop.nesting (max (Exp.nestingStride stride) (Stat.nestingAll body))) + 1
  | .genericFor _ _ e es body =>
    max e.nesting (max (Exp.nestingAll es) (Stat.nestingAll body)) + 1
  | .assign target targets _ e es =>
    max target.nesting (max (Suffixed.nestingAll targets) (max e.nesting (Exp.nestingAll es))) + 1
  | .call e args => max e.nesting args.nesting + 1
  | .methodCall e _ args => max e.nesting args.nesting + 1
termination_by structural s => s

/-- The levels of nesting that a block takes. -/
def Stat.nestingAll : List Stat → Nat
  | [] => 0
  | s :: ss => max s.nesting (Stat.nestingAll ss)
termination_by structural ss => ss

def Exp.nestingStride : Option Exp → Nat
  | none => 0
  | some e => e.nesting
termination_by structural stride => stride

def Clauses.nesting : Clauses → Nat
  | .none => 0
  | .else body => Stat.nestingAll body
  | .elseif condition body rest =>
    max condition.nesting (max (Stat.nestingAll body) rest.nesting)
termination_by structural clauses => clauses

end

/-! ## Semicolons -/

/-- What the semicolon behind a statement is. -/
def Stat.mark : Stat → List Stat
  | .returns _ _ => []
  | _ => [.empty]

mutual

/-- The expression with a semicolon behind every statement in it. -/
def Exp.punctuate : Exp → Exp
  | .literal text => .literal text
  | .table fields => .table fields.punctuate
  | .function params body => .function params (Stat.punctuateAll body)
  | .suffixed e => .suffixed e.punctuate
  | .unary op e => .unary op e.punctuate
  | .binary left op right => .binary left.punctuate op right.punctuate
termination_by structural e => e

def Exp.punctuateAll : List Exp → List Exp
  | [] => []
  | e :: es => e.punctuate :: Exp.punctuateAll es
termination_by structural es => es

def Suffixed.punctuate : Suffixed → Suffixed
  | .name n => .name n
  | .paren e => .paren e.punctuate
  | .field e n => .field e.punctuate n
  | .index e k => .index e.punctuate k.punctuate
  | .call e args => .call e.punctuate args.punctuate
  | .method e n args => .method e.punctuate n args.punctuate
termination_by structural e => e

def Suffixed.punctuateAll : List Suffixed → List Suffixed
  | [] => []
  | e :: es => e.punctuate :: Suffixed.punctuateAll es
termination_by structural es => es

def Args.punctuate : Args → Args
  | .list es => .list (Exp.punctuateAll es)
  | .table fields => .table fields.punctuate
  | .string text => .string text
termination_by structural args => args

def Fields.punctuate : Fields → Fields
  | .none => .none
  | .last f => .last f.punctuate
  | .more f separator rest => .more f.punctuate separator rest.punctuate
termination_by structural fields => fields

def Field.punctuate : Field → Field
  | .keyed k v => .keyed k.punctuate v.punctuate
  | .named n v => .named n v.punctuate
  | .positional v => .positional v.punctuate
termination_by structural f => f

/-- The statement with a semicolon behind every statement in it; a `return` is closed by its own. -/
def Stat.punctuate : Stat → Stat
  | .empty => .empty
  | .locals n ns values => .locals n ns (Exp.punctuateAll values)
  | .localFunction n params body => .localFunction n params (Stat.punctuateAll body)
  | .function name params body => .function name params (Stat.punctuateAll body)
  | .returns values _ => .returns (Exp.punctuateAll values) true
  | .block body => .block (Stat.punctuateAll body)
  | .while condition body => .while condition.punctuate (Stat.punctuateAll body)
  | .repeat body condition => .repeat (Stat.punctuateAll body) condition.punctuate
  | .if condition body clauses =>
    .if condition.punctuate (Stat.punctuateAll body) clauses.punctuate
  | .numericFor n start stop stride body =>
    .numericFor n start.punctuate stop.punctuate (Exp.punctuateStride stride)
      (Stat.punctuateAll body)
  | .genericFor n ns e es body =>
    .genericFor n ns e.punctuate (Exp.punctuateAll es) (Stat.punctuateAll body)
  | .break => .break
  | .goto label => .goto label
  | .label n => .label n
  | .assign target targets trailing e es =>
    .assign target.punctuate (Suffixed.punctuateAll targets) trailing e.punctuate
      (Exp.punctuateAll es)
  | .call e args => .call e.punctuate args.punctuate
  | .methodCall e n args => .methodCall e.punctuate n args.punctuate
termination_by structural s => s

/-- The statements with a semicolon behind each of them. -/
def Stat.punctuateAll : List Stat → List Stat
  | [] => []
  | s :: ss => s.punctuate :: (s.mark ++ Stat.punctuateAll ss)
termination_by structural ss => ss

def Exp.punctuateStride : Option Exp → Option Exp
  | none => none
  | some e => some e.punctuate
termination_by structural stride => stride

def Clauses.punctuate : Clauses → Clauses
  | .none => .none
  | .else body => .else (Stat.punctuateAll body)
  | .elseif condition body rest =>
    .elseif condition.punctuate (Stat.punctuateAll body) rest.punctuate
termination_by structural clauses => clauses

end

/-! ## Text -/

/-- Words with a space between them. -/
def Word.spaced (ws : List Word) : String := " ".intercalate (ws.map Word.text)

/-- The text of a phrase, its words separated by spaces. -/
def Phrase.text (p : Phrase) : String := Word.spaced p.words

/-- The phrase of a program with a semicolon behind every statement. -/
def Stat.program (ss : List Stat) : Phrase := .group .block (Stat.phrases (Stat.punctuateAll ss))

end LuaTyping
