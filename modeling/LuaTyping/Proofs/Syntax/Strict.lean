import LuaTyping.Syntax.Parse
import LuaTyping.Proofs.Syntax.Arranged

/-!
# What is accepted beyond the grammar

The grammar has `block := {stat} [retstat]`, and it assigns variables only.  The loop over the
statements of a block reads a `return` like any other statement, and the targets of an assignment
are read as suffixed expressions whose form nobody looks at.  So a text without faults may go
against the grammar in these two ways.

It is shown here when it does.  A text without faults is the text of some abstract statements
(`Program.exists_phrases`), and its tree respects the grammar just when the statements are *strict*:
in all blocks, those of functions inside expressions among them, a `return` is last, and all
assigned expressions are variables.

* `Tree.RespectsGrammar`: what the grammar asks of a tree.
* `Stat.Strict`: what it asks of a statement.
* `Stat.strict_phrase`: a statement is strict if its phrase has what is allowed in every group.
* `Parsed.respectsGrammar_iff_strict`: the tree of a text respects the grammar if the statements are
  strict.
* `Parsed.not_respectsGrammar`: a text without faults that does not.
-/

namespace LuaTyping

/-- What the grammar of statements asks of a tree: in a block, only the last statement returns, and
only variables are assigned. -/
structure Tree.RespectsGrammar (t : Tree) : Prop where
  returns : ∀ block, t.kind block = .block → ∀ s ∈ (t.children block).dropLast,
    t.kind s ≠ .returnStat
  targets : ∀ list, t.kind list = .varList → ∀ c ∈ t.children list,
    t.kind c = .nameExpr ∨ t.kind c = .fieldExpr ∨ t.kind c = .indexExpr

/-! ## Strict statements -/

/-- The expression is one that can be assigned. -/
def Suffixed.IsVariable : Suffixed → Prop
  | .name _ | .field _ _ | .index _ _ => True
  | .paren _ | .call _ _ | .method _ _ _ => False

/-- The statement is a `return`. -/
def Stat.IsReturn : Stat → Prop
  | .returns _ _ => True
  | _ => False

/-- Of the statements of a block, only the last one returns. -/
def Stat.ReturnsLast (stats : List Stat) : Prop := ∀ s ∈ stats.dropLast, ¬ s.IsReturn

mutual

/-- In all functions of the expression, a `return` is last and variables are assigned. -/
def Exp.Strict : Exp → Prop
  | .literal _ => True
  | .table fields => fields.Strict
  | .function _ body => Stat.ReturnsLast body ∧ Stat.StrictAll body
  | .suffixed e => e.Strict
  | .unary _ e => e.Strict
  | .binary left _ right => left.Strict ∧ right.Strict
termination_by structural e => e

def Exp.StrictAll : List Exp → Prop
  | [] => True
  | e :: es => e.Strict ∧ Exp.StrictAll es
termination_by structural es => es

def Suffixed.Strict : Suffixed → Prop
  | .name _ => True
  | .paren e => e.Strict
  | .field e _ => e.Strict
  | .index e key => e.Strict ∧ key.Strict
  | .call e args => e.Strict ∧ args.Strict
  | .method e _ args => e.Strict ∧ args.Strict
termination_by structural e => e

def Suffixed.StrictAll : List Suffixed → Prop
  | [] => True
  | e :: es => e.Strict ∧ Suffixed.StrictAll es
termination_by structural es => es

def Args.Strict : Args → Prop
  | .list es => Exp.StrictAll es
  | .table fields => fields.Strict
  | .string _ => True
termination_by structural args => args

def Fields.Strict : Fields → Prop
  | .none => True
  | .last f => f.Strict
  | .more f _ rest => f.Strict ∧ rest.Strict
termination_by structural fields => fields

def Field.Strict : Field → Prop
  | .keyed key value => key.Strict ∧ value.Strict
  | .named _ value => value.Strict
  | .positional value => value.Strict
termination_by structural f => f

/-- In all blocks of the statement, a `return` is last and variables are assigned. -/
def Stat.Strict : Stat → Prop
  | .empty | .break | .goto _ | .label _ => True
  | .locals _ _ values => Exp.StrictAll values
  | .localFunction _ _ body => Stat.ReturnsLast body ∧ Stat.StrictAll body
  | .function _ _ body => Stat.ReturnsLast body ∧ Stat.StrictAll body
  | .returns values _ => Exp.StrictAll values
  | .block body => Stat.ReturnsLast body ∧ Stat.StrictAll body
  | .while condition body => condition.Strict ∧ Stat.ReturnsLast body ∧ Stat.StrictAll body
  | .repeat body condition => (Stat.ReturnsLast body ∧ Stat.StrictAll body) ∧ condition.Strict
  | .if condition body clauses =>
    condition.Strict ∧ (Stat.ReturnsLast body ∧ Stat.StrictAll body) ∧ clauses.Strict
  | .numericFor _ start stop stride body =>
    (start.Strict ∧ stop.Strict ∧ Exp.StrictStride stride)
      ∧ Stat.ReturnsLast body ∧ Stat.StrictAll body
  | .genericFor _ _ e es body =>
    (e.Strict ∧ Exp.StrictAll es) ∧ Stat.ReturnsLast body ∧ Stat.StrictAll body
  | .assign target targets _ e es =>
    ((∀ x ∈ target :: targets, x.IsVariable) ∧ target.Strict ∧ Suffixed.StrictAll targets)
      ∧ e.Strict ∧ Exp.StrictAll es
  | .call e args => e.Strict ∧ args.Strict
  | .methodCall e _ args => e.Strict ∧ args.Strict
termination_by structural s => s

def Stat.StrictAll : List Stat → Prop
  | [] => True
  | s :: ss => s.Strict ∧ Stat.StrictAll ss
termination_by structural ss => ss

def Exp.StrictStride : Option Exp → Prop
  | none => True
  | some e => e.Strict
termination_by structural stride => stride

def Clauses.Strict : Clauses → Prop
  | .none => True
  | .else body => Stat.ReturnsLast body ∧ Stat.StrictAll body
  | .elseif condition body rest =>
    (condition.Strict ∧ Stat.ReturnsLast body ∧ Stat.StrictAll body) ∧ rest.Strict
termination_by structural clauses => clauses

end

/-! ## Strict phrases -/

/-- The grammar of statements allows nodes of some kinds below a node of a kind. -/
def NodeKind.Allows : NodeKind → List NodeKind → Prop
  | .block, kinds => ∀ k ∈ kinds.dropLast, k ≠ .returnStat
  | .varList, kinds => ∀ k ∈ kinds, k = .nameExpr ∨ k = .fieldExpr ∨ k = .indexExpr
  | _, _ => True

/-- Only of blocks and lists of targets anything is asked. -/
theorem NodeKind.allows_of_ne {kind : NodeKind} (notBlock : kind ≠ .block)
    (notTargets : kind ≠ .varList) (kinds : List NodeKind) : kind.Allows kinds := by
  cases kind <;> trivial

theorem NodeKind.allows_nil (kind : NodeKind) : kind.Allows [] := by
  by_cases isBlock : kind = .block
  · rw [isBlock]
    exact fun _ mem => absurd mem List.not_mem_nil
  · by_cases isTargets : kind = .varList
    · rw [isTargets]
      exact fun _ mem => absurd mem List.not_mem_nil
    · exact allows_of_ne isBlock isTargets []

namespace Phrase

mutual

/-- Every group has below it what is allowed there. -/
def Strict : Phrase → Prop
  | word _ => True
  | group kind parts => kind.Allows (kinds parts) ∧ StrictAll parts
termination_by structural p => p

def StrictAll : List Phrase → Prop
  | [] => True
  | p :: ps => p.Strict ∧ StrictAll ps
termination_by structural ps => ps

end

section Groups

variable {kind : NodeKind} {p : Phrase} {ps qs stats : List Phrase}

@[simp] theorem strict_word (w : Word) : (word w).Strict := trivial

@[simp] theorem strict_key (t : Token) : (key t).Strict := trivial

@[simp] theorem strictAll_nil : StrictAll [] := trivial

@[simp] theorem strictAll_cons : StrictAll (p :: ps) ↔ p.Strict ∧ StrictAll ps := Iff.rfl

@[simp] theorem strictAll_append : StrictAll (ps ++ qs) ↔ StrictAll ps ∧ StrictAll qs := by
  induction ps with
  | nil => simp
  | cons p ps ih => rw [List.cons_append, strictAll_cons, strictAll_cons, ih, and_assoc]

theorem strictAll_of_forall (each : ∀ q ∈ ps, q.Strict) : StrictAll ps := by
  induction ps with
  | nil => trivial
  | cons p ps ih =>
    obtain ⟨head, tail⟩ := List.forall_mem_cons.mp each
    exact ⟨head, ih tail⟩

/-- In other groups than blocks and lists of targets, it is the parts that count. -/
theorem strict_group (notBlock : kind ≠ .block) (notTargets : kind ≠ .varList) :
    (group kind ps).Strict ↔ StrictAll ps :=
  and_iff_right (NodeKind.allows_of_ne notBlock notTargets (kinds ps))

@[simp] theorem strict_leaf (w : Word) : (leaf kind w).Strict :=
  ⟨kind.allows_nil, trivial, trivial⟩

@[simp] theorem strict_ofName (n : Name) : (ofName kind n).Strict := strict_leaf n.word

@[simp] theorem strictAll_commaTail : StrictAll (commaTail ps) ↔ StrictAll ps := by
  induction ps with
  | nil => rfl
  | cons p ps ih => simp [commaTail, ih]

@[simp] theorem strictAll_commaList : StrictAll (commaList ps) ↔ StrictAll ps := by
  cases ps with
  | nil => rfl
  | cons p ps => simp [commaList]

@[simp] theorem strict_value : (value p).Strict ↔ p.Strict := by
  simp [value, strict_group]

@[simp] theorem strict_tableOf : (tableOf ps).Strict ↔ StrictAll ps := by
  simp [tableOf, strict_group]

@[simp] theorem strict_call {callee args : Phrase} :
    (call callee args).Strict ↔ callee.Strict ∧ args.Strict := by
  simp [call, strict_group]

@[simp] theorem strict_methodCall {e args : Phrase} (n : Name) :
    (methodCall e n args).Strict ↔ e.Strict ∧ args.Strict := by
  simp [methodCall, strict_group]

@[simp] theorem strict_exprList : (exprList ps).Strict ↔ StrictAll ps := by
  simp [exprList, strict_group]

@[simp] theorem strictAll_initializer : StrictAll (initializer ps) ↔ StrictAll ps := by
  cases ps with
  | nil => rfl
  | cons p ps => simp [initializer]

@[simp] theorem strict_funcBody (params : Params) :
    (funcBody params stats).Strict ↔ (group .block stats).Strict := by
  have elements : StrictAll (paramsOf params) := by
    refine strictAll_append.mpr ⟨strictAll_of_forall fun q mem => ?_, ?_⟩
    · obtain ⟨n, -, rfl⟩ := List.mem_map.mp mem
      exact strict_ofName n
    · split
      · simp
      · trivial
  simp [funcBody, strict_group, elements]

@[simp] theorem strictAll_loopBody : StrictAll (loopBody stats) ↔ (group .block stats).Strict := by
  simp [loopBody]

@[simp] theorem strictAll_localName (n : LocalName) : StrictAll (localName n) := by
  rw [localName, strictAll_cons]
  refine ⟨strict_ofName n.name, ?_⟩
  split
  · trivial
  · simp [strict_group]

@[simp] theorem strictAll_localNamesTail (ns : List LocalName) : StrictAll (localNamesTail ns) := by
  induction ns with
  | nil => trivial
  | cons n ns ih => simp [localNamesTail, ih]

@[simp] theorem strict_funcName (n : FuncName) : (funcName n).Strict := by
  rw [funcName, strict_group (by decide) (by decide), strictAll_cons, strictAll_append]
  refine ⟨strict_ofName n.base, strictAll_of_forall fun q mem => ?_, ?_⟩
  · obtain ⟨f, -, mem⟩ := List.mem_flatMap.mp mem
    rcases List.mem_cons.mp mem with rfl | mem
    · exact strict_key _
    · rw [List.mem_singleton.mp mem]
      exact strict_ofName f
  · split
    · trivial
    · simp

end Groups

end Phrase

/-! ### Blocks and targets -/

open Phrase

/-- The kind of the node of a statement. -/
def Stat.kind : Stat → NodeKind
  | .empty => .emptyStat
  | .locals _ _ _ => .localStat
  | .localFunction _ _ _ => .localFuncStat
  | .function _ _ _ => .funcStat
  | .returns _ _ => .returnStat
  | .block _ => .doStat
  | .while _ _ => .whileStat
  | .repeat _ _ => .repeatStat
  | .if _ _ _ => .ifStat
  | .numericFor _ _ _ _ _ => .numericForStat
  | .genericFor _ _ _ _ _ => .genericForStat
  | .break => .breakStat
  | .goto _ => .gotoStat
  | .label _ => .labelStat
  | .assign _ _ _ _ _ => .assignStat
  | .call _ _ | .methodCall _ _ _ => .callStat

/-- The kind of the node of an expression with suffixes. -/
def Suffixed.kind : Suffixed → NodeKind
  | .name _ => .nameExpr
  | .paren _ => .parenExpr
  | .field _ _ => .fieldExpr
  | .index _ _ => .indexExpr
  | .call _ _ | .method _ _ _ => .callExpr

theorem Stat.kind_eq_returnStat_iff (s : Stat) : s.kind = .returnStat ↔ s.IsReturn := by
  cases s <;> simp [kind, IsReturn]

theorem Suffixed.isVariable_iff (e : Suffixed) :
    e.kind = .nameExpr ∨ e.kind = .fieldExpr ∨ e.kind = .indexExpr ↔ e.IsVariable := by
  cases e <;> simp [kind, IsVariable]

theorem Stat.kinds_phrases (ss : List Stat) : kinds (Stat.phrases ss) = ss.map Stat.kind := by
  induction ss with
  | nil => rfl
  | cons s ss ih => cases s <;> exact congrArg (_ :: ·) ih

theorem Suffixed.kinds_phrases (es : List Suffixed) :
    kinds (Suffixed.phrases es) = es.map Suffixed.kind := by
  induction es with
  | nil => rfl
  | cons e es ih => cases e <;> exact congrArg (_ :: ·) ih

theorem kinds_commaTail (ps : List Phrase) : kinds (commaTail ps) = kinds ps := by
  induction ps with
  | nil => rfl
  | cons p ps ih =>
    have tail := congrArg (kinds [p] ++ ·) ih
    rwa [← kinds_append, ← kinds_append] at tail

theorem kinds_commaList (ps : List Phrase) : kinds (commaList ps) = kinds ps := by
  cases ps with
  | nil => rfl
  | cons p ps =>
    have tail := congrArg (kinds [p] ++ ·) (kinds_commaTail ps)
    rwa [← kinds_append, ← kinds_append] at tail

/-- The statements of a block are allowed if only the last one returns. -/
theorem allows_block (ss : List Stat) :
    NodeKind.block.Allows (kinds (Stat.phrases ss)) ↔ Stat.ReturnsLast ss := by
  rw [Stat.kinds_phrases, NodeKind.Allows, ← List.map_dropLast, List.forall_mem_map]
  exact forall₂_congr fun s _ => not_congr s.kind_eq_returnStat_iff

/-- Targets are allowed if all of them are variables. -/
theorem allows_targets (es : List Suffixed) :
    NodeKind.varList.Allows (kinds (commaList (Suffixed.phrases es))) ↔ ∀ x ∈ es, x.IsVariable := by
  rw [kinds_commaList, Suffixed.kinds_phrases, NodeKind.Allows, List.forall_mem_map]
  exact forall₂_congr fun e _ => e.isVariable_iff

theorem strict_block (ss : List Stat) : (group .block (Stat.phrases ss)).Strict
    ↔ Stat.ReturnsLast ss ∧ Phrase.StrictAll (Stat.phrases ss) :=
  and_congr_left' (allows_block ss)

theorem strict_targets (es : List Suffixed) :
    (group .varList (commaList (Suffixed.phrases es))).Strict
      ↔ (∀ x ∈ es, x.IsVariable) ∧ Phrase.StrictAll (Suffixed.phrases es) :=
  and_congr (allows_targets es) strictAll_commaList

/-! ### Forms -/

mutual

theorem Exp.strict_phrase : (e : Exp) → (e.phrase.Strict ↔ e.Strict)
  | .literal text => by simp [Exp.phrase, Exp.Strict]
  | .table fields => by
    have inner := fields.strict_phrases
    simp [Exp.phrase, Exp.Strict, inner]
  | .function params body => by
    have inner := Stat.strict_phrases body
    simp [Exp.phrase, Exp.Strict, strict_group, strict_block, inner]
  | .suffixed e => by
    have inner := e.strict_phrase
    simp [Exp.phrase, Exp.Strict, inner]
  | .unary op e => by
    have operand := e.strict_phrase
    simp [Exp.phrase, Exp.Strict, strict_group, operand]
  | .binary left op right => by
    have front := left.strict_phrase
    have back := right.strict_phrase
    simp [Exp.phrase, Exp.Strict, strict_group, front, back]

theorem Exp.strict_phrases : (es : List Exp) →
    (Phrase.StrictAll (Exp.phrases es) ↔ Exp.StrictAll es)
  | [] => Iff.rfl
  | e :: es => and_congr e.strict_phrase (Exp.strict_phrases es)

theorem Suffixed.strict_phrase : (e : Suffixed) → (e.phrase.Strict ↔ e.Strict)
  | .name n => by simp [Suffixed.phrase, Suffixed.Strict]
  | .paren e => by
    have inner := e.strict_phrase
    simp [Suffixed.phrase, Suffixed.Strict, strict_group, inner]
  | .field e n => by
    have inner := e.strict_phrase
    simp [Suffixed.phrase, Suffixed.Strict, strict_group, inner]
  | .index e k => by
    have inner := e.strict_phrase
    have key := k.strict_phrase
    simp [Suffixed.phrase, Suffixed.Strict, strict_group, inner, key]
  | .call e args => by
    have inner := e.strict_phrase
    have arguments := args.strict_phrase
    simp [Suffixed.phrase, Suffixed.Strict, inner, arguments]
  | .method e n args => by
    have inner := e.strict_phrase
    have arguments := args.strict_phrase
    simp [Suffixed.phrase, Suffixed.Strict, inner, arguments]

theorem Suffixed.strict_phrases : (es : List Suffixed) →
    (Phrase.StrictAll (Suffixed.phrases es) ↔ Suffixed.StrictAll es)
  | [] => Iff.rfl
  | e :: es => and_congr e.strict_phrase (Suffixed.strict_phrases es)

theorem Args.strict_phrase : (args : Args) → (args.phrase.Strict ↔ args.Strict)
  | .list es => by
    have elements := Exp.strict_phrases es
    simp [Args.phrase, Args.Strict, strict_group, elements]
  | .table fields => by
    have inner := fields.strict_phrases
    simp [Args.phrase, Args.Strict, strict_group, inner]
  | .string text => by simp [Args.phrase, Args.Strict, strict_group]

theorem Fields.strict_phrases : (fields : Fields) →
    (Phrase.StrictAll fields.phrases ↔ fields.Strict)
  | .none => Iff.rfl
  | .last f => by
    have field := f.strict_phrase
    simp [Fields.phrases, Fields.Strict, field]
  | .more f separator rest => by
    have field := f.strict_phrase
    have fields := rest.strict_phrases
    simp [Fields.phrases, Fields.Strict, field, fields]

theorem Field.strict_phrase : (f : Field) → (f.phrase.Strict ↔ f.Strict)
  | .keyed k v => by
    have key := k.strict_phrase
    have value := v.strict_phrase
    simp [Field.phrase, Field.Strict, strict_group, key, value]
  | .named n v => by
    have value := v.strict_phrase
    simp [Field.phrase, Field.Strict, strict_group, value]
  | .positional v => by
    have value := v.strict_phrase
    simp [Field.phrase, Field.Strict, strict_group, value]

theorem Stat.strict_phrase : (s : Stat) → (s.phrase.Strict ↔ s.Strict)
  | .empty => by simp [Stat.phrase, Stat.Strict, strict_group]
  | .locals n ns values => by
    have elements := Exp.strict_phrases values
    simp [Stat.phrase, Stat.Strict, strict_group, elements]
  | .localFunction n params body => by
    have inner := Stat.strict_phrases body
    simp [Stat.phrase, Stat.Strict, strict_group, strict_block, inner]
  | .function name params body => by
    have inner := Stat.strict_phrases body
    simp [Stat.phrase, Stat.Strict, strict_group, strict_block, inner]
  | .returns values closed => by
    have elements := Exp.strict_phrases values
    cases values <;> cases closed <;>
      simpa [Stat.phrase, Stat.Strict, strict_group, Exp.phrases] using elements
  | .block body => by
    have inner := Stat.strict_phrases body
    simp [Stat.phrase, Stat.Strict, strict_group, strict_block, inner]
  | .while condition body => by
    have guard := condition.strict_phrase
    have inner := Stat.strict_phrases body
    simp [Stat.phrase, Stat.Strict, strict_group, strict_block, guard, inner]
  | .repeat body condition => by
    have inner := Stat.strict_phrases body
    have guard := condition.strict_phrase
    simp [Stat.phrase, Stat.Strict, strict_group, strict_block, guard, inner]
  | .if condition body clauses => by
    have guard := condition.strict_phrase
    have inner := Stat.strict_phrases body
    have rest := clauses.strict_phrases
    simp [Stat.phrase, Stat.Strict, strict_group, strict_block, guard, inner, rest]
  | .numericFor n start stop stride body => by
    have first := start.strict_phrase
    have last := stop.strict_phrase
    have step := Exp.strict_stride stride
    have inner := Stat.strict_phrases body
    simp [Stat.phrase, Stat.Strict, strict_group, strict_block, first, last, step, inner, and_assoc]
  | .genericFor n ns e es body => by
    have head := e.strict_phrase
    have values := Exp.strict_phrases es
    have inner := Stat.strict_phrases body
    have names : Phrase.StrictAll (ns.map (ofName .nameDef)) :=
      strictAll_of_forall fun q mem => by
        obtain ⟨m, -, rfl⟩ := List.mem_map.mp mem
        exact strict_ofName m
    simp [Stat.phrase, Stat.Strict, strict_group, strict_block, head, values, inner, names]
  | .break => by simp [Stat.phrase, Stat.Strict, strict_group]
  | .goto n => by simp [Stat.phrase, Stat.Strict, strict_group]
  | .label n => by simp [Stat.phrase, Stat.Strict, strict_group]
  | .assign target targets trailing e es => by
    have list := strict_targets (target :: targets)
    have first := target.strict_phrase
    have others := Suffixed.strict_phrases targets
    have head := e.strict_phrase
    have values := Exp.strict_phrases es
    rw [Suffixed.phrases, strictAll_cons, first, others] at list
    cases trailing <;> simp [Stat.phrase, Stat.Strict, strict_group, list, head, values]
  | .call e args => by
    have callee := e.strict_phrase
    have arguments := args.strict_phrase
    simp [Stat.phrase, Stat.Strict, strict_group, callee, arguments]
  | .methodCall e n args => by
    have callee := e.strict_phrase
    have arguments := args.strict_phrase
    simp [Stat.phrase, Stat.Strict, strict_group, callee, arguments]

theorem Stat.strict_phrases : (ss : List Stat) →
    (Phrase.StrictAll (Stat.phrases ss) ↔ Stat.StrictAll ss)
  | [] => Iff.rfl
  | s :: ss => and_congr s.strict_phrase (Stat.strict_phrases ss)

theorem Exp.strict_stride : (stride : Option Exp) →
    (Phrase.StrictAll (Exp.stridePhrases stride) ↔ Exp.StrictStride stride)
  | none => Iff.rfl
  | some e => by
    have step := e.strict_phrase
    simp [Exp.stridePhrases, Exp.StrictStride, step]

theorem Clauses.strict_phrases : (clauses : Clauses) →
    (Phrase.StrictAll clauses.phrases ↔ clauses.Strict)
  | .none => Iff.rfl
  | .else body => by
    have inner := Stat.strict_phrases body
    simp [Clauses.phrases, Clauses.Strict, strict_group, strict_block, inner]
  | .elseif condition body rest => by
    have guard := condition.strict_phrase
    have inner := Stat.strict_phrases body
    have clauses := rest.strict_phrases
    simp [Clauses.phrases, Clauses.Strict, strict_group, strict_block, guard, inner, clauses]

end

/-! ## Strict trees -/

namespace Branch

/-- The node has below it what is allowed there. -/
def Strict (b : Branch) : Prop := b.kind.Allows (b.children.map Branch.kind)

theorem IsComment.strict {b : Branch} (h : b.IsComment) : b.Strict := by
  rw [Strict, h.2]
  exact b.kind.allows_nil

theorem strict_bare (b : Branch) : b.bare.Strict ↔ b.Strict := by
  have kinds : (b.children.map bare).map Branch.kind = b.children.map Branch.kind := by
    rw [List.map_map]
    exact List.map_congr_left fun c _ => kind_bare c
  rw [Strict, kind_bare, children_bare, kinds, Strict]

/-- Where a branch stands in the text does not matter. -/
theorem forall_strict_of_bare_eq {b c : Branch} (same : b.bare = c.bare) :
    (∀ d ∈ b.all, d.Strict) ↔ ∀ d ∈ c.all, d.Strict := by
  have bare (b : Branch) : (∀ d ∈ b.bare.all, d.Strict) ↔ ∀ d ∈ b.all, d.Strict := by
    rw [all_bare, List.forall_mem_map]
    exact forall₂_congr fun d _ => strict_bare d
  rw [← bare b, same, bare c]

end Branch

namespace Layout

variable {l : Layout}

/-- A comment in front of a group changes nothing. -/
theorem allows_docSlot (next below i : Nat) (kind : NodeKind) (parts : List Phrase) :
    kind.Allows ((l.branchesOf next (docSlot kind i)
        ++ l.branchesOf below (outlinesOf i parts)).map Branch.kind)
      ↔ kind.Allows (kinds parts) := by
  rw [List.map_append, map_kind_branchesOf]
  by_cases isStat : kind.isStatement = true
  · have notBlock : kind ≠ .block := by rintro rfl; exact absurd isStat (by decide)
    have notTargets : kind ≠ .varList := by rintro rfl; exact absurd isStat (by decide)
    exact iff_of_true (NodeKind.allows_of_ne notBlock notTargets _)
      (NodeKind.allows_of_ne notBlock notTargets _)
  · rw [docSlot, if_neg isStat]
    rfl

mutual

/-- The nodes of a phrase are strict if the phrase is. -/
theorem strict_outlines {i : Nat} : (p : Phrase) → (next : Nat) →
    ((∀ b ∈ Branch.allOf (l.branchesOf next (Phrase.outlines i p)), b.Strict) ↔ p.Strict)
  | .word w, _ => iff_of_true (fun _ mem => absurd mem List.not_mem_nil) trivial
  | .group kind parts, next => by
    obtain ⟨id, below, eq⟩ := l.branchesOf_group next i kind parts
    have docs : ∀ b ∈ Branch.allOf (l.branchesOf next (docSlot kind i)), b.Strict := by
      intro b mem
      obtain ⟨c, inside, mem⟩ := Branch.mem_allOf.mp mem
      have comment := isComment_of_mem_docSlot inside
      rw [Branch.all_eq, comment.2] at mem
      rw [List.mem_singleton.mp mem]
      exact comment.strict
    rw [eq, Branch.allOf, Branch.allOf, List.append_nil, Branch.all, Branch.allOf_append,
      List.forall_mem_append, List.forall_mem_append, List.forall_mem_singleton,
      strict_outlinesOf parts below, and_iff_right docs, and_comm, Branch.Strict, Branch.kind,
      Branch.children, allows_docSlot]
    rfl

theorem strict_outlinesOf {i : Nat} : (ps : List Phrase) → (next : Nat) →
    ((∀ b ∈ Branch.allOf (l.branchesOf next (outlinesOf i ps)), b.Strict) ↔ Phrase.StrictAll ps)
  | [], _ => iff_of_true (fun _ mem => absurd mem List.not_mem_nil) trivial
  | p :: ps, next => by
    rw [outlinesOf, branchesOf_append, Branch.allOf_append, List.forall_mem_append,
      strict_outlines p next, strict_outlinesOf ps _]
    rfl

end

/-- The nodes of a program are strict if its statements are. -/
theorem strict_root {body : Outline} {ss : List Stat}
    (outline : [body] = outlinesOf 0 [.group .block (Stat.phrases ss)]) :
    (∀ b ∈ (l.root body).all, b.Strict) ↔ Stat.ReturnsLast ss ∧ Stat.StrictAll ss := by
  have top : (l.root body).Strict := trivial
  have below : (l.root body).children
      = l.branchesOf 0 (outlinesOf 0 [.group .block (Stat.phrases ss)]) := by
    rw [← outline, branchesOf_singleton, root, Branch.children]
  rw [Branch.all_eq, List.forall_mem_append, List.forall_mem_singleton, and_iff_left top, below,
    strict_outlinesOf, strictAll_cons, and_iff_left strictAll_nil, strict_block,
    Stat.strict_phrases]

end Layout

namespace Tree

variable {t : Tree} {r : Branch}

/-- The grammar asks of every node that it allows what is right below. -/
theorem respectsGrammar_iff_allows :
    t.RespectsGrammar ↔ ∀ id, (t.kind id).Allows ((t.children id).map t.kind) := by
  constructor
  · intro h id
    by_cases isBlock : t.kind id = .block
    · rw [isBlock, NodeKind.Allows, ← List.map_dropLast, List.forall_mem_map]
      exact h.returns id isBlock
    · by_cases isTargets : t.kind id = .varList
      · rw [isTargets, NodeKind.Allows, List.forall_mem_map]
        exact h.targets id isTargets
      · exact NodeKind.allows_of_ne isBlock isTargets _
  · intro allows
    refine ⟨fun block isBlock => ?_, fun list isTargets => ?_⟩
    · have here := allows block
      rwa [isBlock, NodeKind.Allows, ← List.map_dropLast, List.forall_mem_map] at here
    · have here := allows list
      rwa [isTargets, NodeKind.Allows, List.forall_mem_map] at here

/-- A tree respects the grammar if the nodes of its branch are strict. -/
theorem Grows.respectsGrammar_iff (h : t.Grows r) :
    t.RespectsGrammar ↔ ∀ b ∈ r.all, b.Strict := by
  have row {b : Branch} (mem : b ∈ r.all) :
      (t.kind b.id).Allows ((t.children b.id).map t.kind) ↔ b.Strict := by
    have kinds : (t.children b.id).map t.kind = b.children.map Branch.kind := by
      rw [h.children mem, List.map_map]
      exact List.map_congr_left fun c child => h.kind (mem_of_child mem child)
    rw [h.kind mem, kinds, Branch.Strict]
  rw [respectsGrammar_iff_allows]
  constructor
  · exact fun allows b mem => (row mem).mp (allows b.id)
  · intro strict id
    by_cases inside : id < t.size
    · obtain ⟨b, mem, rfl⟩ := h.exists_mem inside
      exact (row mem).mpr (strict b mem)
    · rw [children_of_ge (Nat.le_of_not_lt inside)]
      exact NodeKind.allows_nil _

end Tree

/-! ## Texts -/

/-- A text without faults is the text of some statements, and its tree is that of their block.  It
respects the grammar just when the statements are strict. -/
theorem Parsed.respectsGrammar_iff_strict {text : String}
    (clean : (Parsed.ofText text).errors = []) :
    ∃ (ss : List Stat) (body : Outline),
      Phrase.tokens [.group .block (Stat.phrases ss)]
        = ((Lexed.ofText text).lexemes.map Lexeme.token).toList
      ∧ [body] = outlinesOf 0 [.group .block (Stat.phrases ss)]
      ∧ (Parsed.ofText text).tree.Realizes (Layout.ofLexed text (Lexed.ofText text)) body
      ∧ ((Parsed.ofText text).tree.RespectsGrammar
        ↔ Stat.ReturnsLast ss ∧ Stat.StrictAll ss) := by
  rw [Parsed.ofText, errors_ofTextWithin] at clean
  obtain ⟨-, faults⟩ := List.append_eq_nil_iff.mp clean
  obtain ⟨ss, spans⟩ := Program.exists_phrases (List.map_eq_nil_iff.mp faults)
  have realizes := realizes maxNesting text
  refine ⟨ss, _, by simpa using spans.tokens_eq.symm, spans.outlines_eq, realizes, ?_⟩
  obtain ⟨r, grows, bare, -⟩ := realizes
  exact grows.respectsGrammar_iff.trans ((Branch.forall_strict_of_bare_eq bare).trans
    (Layout.strict_root spans.outlines_eq))

/-- A function that goes on behind a `return`: the statements are not strict. -/
theorem Parsed.not_strict_function :
    (Parsed.ofText "f = function() return 1 g() end").errors = []
      ∧ ∃ ss : List Stat, Phrase.tokens [.group .block (Stat.phrases ss)]
          = [.name, .assign, .functionKw, .leftParen, .rightParen, .returnKw, .number,
            .name, .leftParen, .rightParen, .endKw]
        ∧ ¬ (Stat.ReturnsLast ss ∧ Stat.StrictAll ss) := by
  have clean : (Parsed.ofText "f = function() return 1 g() end").errors = [] := by decide +kernel
  obtain ⟨ss, body, tokens, -, -, iff⟩ := respectsGrammar_iff_strict clean
  refine ⟨clean, ss, tokens.trans (by decide +kernel), fun strict => ?_⟩
  exact absurd ((iff.mpr strict).returns 11 (by decide +kernel) 6 (by decide +kernel))
    (by decide +kernel)

/-- Two texts without faults that go against the grammar: a block goes on behind a `return`, and
the value of a call is assigned. -/
theorem Parsed.not_respectsGrammar :
    ((Parsed.ofText "return 1 return 2").errors = []
      ∧ ¬ (Parsed.ofText "return 1 return 2").tree.RespectsGrammar)
    ∧ (Parsed.ofText "f() = 2").errors = [] ∧ ¬ (Parsed.ofText "f() = 2").tree.RespectsGrammar := by
  refine ⟨⟨by decide +kernel, fun h => ?_⟩, by decide +kernel, fun h => ?_⟩
  · exact absurd (h.returns 8 (by decide +kernel) 3 (by decide +kernel)) (by decide +kernel)
  · exact absurd (h.targets 3 (by decide +kernel) 2 (by decide +kernel)) (by decide +kernel)

end LuaTyping
