import Mathlib.Data.List.Basic
import LuaTyping.Proofs.Syntax.Forms

/-!
# The parts of a group

What a group of each kind consists of: a rule of the grammar, read with the groups that stand for
its parts.  Where the number of parts is fixed a rule lists them, words included; where it is not,
it says which kinds of groups may stand there between words.

The phrases of the forms follow the rules in all their groups.

* `Phrase.Rule`: the parts of a group of a kind.
* `Phrase.Rule.isClause`: but for the clauses of an `if`, no group ends with its block.
* `Phrase.Ruled`: the rules are followed in a whole phrase.
* `Exp.ruled`, `Stat.ruled`: the forms follow the rules.
-/

namespace LuaTyping

namespace NodeKind

/-- The kinds of nodes that are a name and nothing else. -/
def isName : NodeKind → Bool
  | .name | .nameDef | .nameExpr | .paramDef | .methodName => true
  | _ => false

/-- What a value node may wrap. -/
def isOperand (kind : NodeKind) : Bool :=
  kind.isExpression || kind == .literal || kind == .tableConstructor || kind == .closureExpr

/-- What follows the first block of an `if`. -/
def isClause : NodeKind → Bool
  | .elseIfClause | .elseClause => true
  | _ => false

end NodeKind

open NodeKind (isExpression isOperand)

namespace Phrase

/-- A group of a kind that has the property. -/
def Is (P : NodeKind → Bool) : Phrase → Prop
  | word _ => False
  | group kind _ => P kind = true

/-- A word, or a group of a kind that has the property. -/
def May (P : NodeKind → Bool) : Phrase → Prop
  | word _ => True
  | group kind _ => P kind = true

/-- A clause of an `if`: it begins with a word that ends the block before it. -/
def IsClause : Phrase → Prop
  | group kind (word w :: _) => kind.isClause = true ∧ w.token.endsBlock = true
  | _ => False

/-- The parts are those of a group of the kind. -/
inductive Rule : NodeKind → List Phrase → Prop
  -- words
  | name {kind : NodeKind} (n : Name) : kind.isName = true → Rule kind [word n.word]
  | literal {w : Word} : w.token.isLiteral = true → Rule .literal [word w]
  | operator (w : Word) : Rule .operator [word w]
  -- expressions
  | value {p : Phrase} : p.Is isOperand → Rule .valueExpr [p]
  | unary {e : Phrase} (op : UnaryOp) : e.Is isExpression →
    Rule .unaryExpr [leaf .operator op.word, e]
  | binary {left right : Phrase} (op : BinaryOp) : left.Is isExpression → right.Is isExpression →
    Rule .binaryExpr [left, leaf .operator op.word, right]
  | paren {e : Phrase} : e.Is isExpression → Rule .parenExpr [key .leftParen, e, key .rightParen]
  | field {e : Phrase} (n : Name) : e.Is isExpression →
    Rule .fieldExpr [e, key .dot, ofName .name n]
  | index {e k : Phrase} : e.Is isExpression → k.Is isExpression →
    Rule .indexExpr [e, key .leftBracket, k, key .rightBracket]
  | method {e : Phrase} (n : Name) : e.Is isExpression →
    Rule .methodExpr [e, key .colon, ofName .name n]
  | call {e args : Phrase} : e.Is isExpression → args.Is (· == .args) → Rule .callExpr [e, args]
  | args {p : Phrase} {ps : List Phrase} : (∀ q ∈ p :: ps, q.May isExpression) →
    Rule .args (p :: ps)
  | closure {body : List Phrase} : Rule .closureExpr [key .functionKw, group .funcBody body]
  | table {fields : List Phrase} : (∀ p ∈ fields, p.May (· == .tableField)) →
    Rule .tableConstructor (key .leftBrace :: (fields ++ [key .rightBrace]))
  | keyed {k v : Phrase} : k.Is isExpression → v.Is isExpression →
    Rule .tableField [key .leftBracket, k, key .rightBracket, key .assign, v]
  | named {v : Phrase} (n : Name) : v.Is isExpression →
    Rule .tableField [ofName .name n, key .assign, v]
  | positional {v : Phrase} : v.Is isExpression → Rule .tableField [v]
  -- lists and names
  | exprList {p : Phrase} {ps : List Phrase} : p.Is isExpression →
    (∀ q ∈ ps, q.May isExpression) → Rule .exprList (p :: ps)
  | varList {p : Phrase} {ps : List Phrase} : p.Is isExpression →
    (∀ q ∈ ps, q.May isExpression) → Rule .varList (p :: ps)
  | nameList {ps : List Phrase} (n : Name) :
    (∀ p ∈ ps, p.May fun k => k == .nameDef || k == .attrib) →
    Rule .nameList (ofName .nameDef n :: ps)
  | attrib {w : Word} : Rule .attrib [key .less, word w, key .greater]
  | funcName {ps : List Phrase} (n : Name) :
    (∀ p ∈ ps, p.May fun k => k == .name || k == .methodName) →
    Rule .funcName (ofName .nameExpr n :: ps)
  -- functions and blocks
  | funcBody {params stats : List Phrase} :
    Rule .funcBody [group .paramList params, group .block stats, key .endKw]
  | paramList {params : List Phrase} :
    (∀ p ∈ params, p.May fun k => k == .paramDef || k == .literal) →
    Rule .paramList (key .leftParen :: (params ++ [key .rightParen]))
  | block {stats : List Phrase} : (∀ p ∈ stats, p.IsStatement) → Rule .block stats
  -- statements
  | empty : Rule .emptyStat [key .semicolon]
  | locals {names values : List Phrase} : (∀ p ∈ values, p.May (· == .exprList)) →
    Rule .localStat (key .localKw :: group .nameList names :: values)
  | localFunction {body : List Phrase} (n : Name) :
    Rule .localFuncStat
      [key .localKw, key .functionKw, ofName .nameDef n, group .funcBody body]
  | function {name body : List Phrase} :
    Rule .funcStat [key .functionKw, group .funcName name, group .funcBody body]
  | returns {values : List Phrase} : (∀ p ∈ values, p.May (· == .exprList)) →
    Rule .returnStat (key .returnKw :: values)
  | doBlock {stats : List Phrase} : Rule .doStat (loopBody stats)
  | while {e : Phrase} {stats : List Phrase} : e.Is isExpression →
    Rule .whileStat (key .whileKw :: e :: loopBody stats)
  | repeat {e : Phrase} {stats : List Phrase} : e.Is isExpression →
    Rule .repeatStat [key .repeatKw, group .block stats, key .untilKw, e]
  | if {e : Phrase} {stats clauses : List Phrase} : e.Is isExpression →
    (∀ p ∈ clauses, p.IsClause) →
    Rule .ifStat (key .ifKw :: e :: key .thenKw :: group .block stats :: (clauses ++ [key .endKw]))
  | elseif {e : Phrase} {stats : List Phrase} : e.Is isExpression →
    Rule .elseIfClause [key .elseifKw, e, key .thenKw, group .block stats]
  | else {stats : List Phrase} : Rule .elseClause [key .elseKw, group .block stats]
  | numericFor {ps stats : List Phrase} (n : Name) : (∀ p ∈ ps, p.May isExpression) →
    Rule .numericForStat (key .forKw :: ofName .nameDef n :: (ps ++ loopBody stats))
  | genericFor {names values stats : List Phrase} :
    Rule .genericForStat (key .forKw :: group .nameList names :: key .inKw :: group .exprList values
      :: loopBody stats)
  | break : Rule .breakStat [key .breakKw]
  | goto (n : Name) : Rule .gotoStat [key .gotoKw, ofName .name n]
  | label (n : Name) : Rule .labelStat [key .doubleColon, ofName .name n, key .doubleColon]
  | assign {targets marks values : List Phrase} : (∀ p ∈ marks, ∃ w, p = word w) →
    Rule .assignStat (group .varList targets :: (marks ++ [group .exprList values]))
  | callStat {call : List Phrase} : Rule .callStat [group .callExpr call]

mutual

/-- Every group follows a rule. -/
def Ruled : Phrase → Prop
  | word _ => True
  | group kind parts => Rule kind parts ∧ RuledAll parts
termination_by structural p => p

def RuledAll : List Phrase → Prop
  | [] => True
  | p :: ps => p.Ruled ∧ RuledAll ps
termination_by structural ps => ps

end

section Groups

variable {P : NodeKind → Bool} {kind : NodeKind} {p : Phrase} {ps qs stats : List Phrase}

theorem Is.may (h : p.Is P) : p.May P := by
  cases p with
  | word => trivial
  | group => exact h

/-- Clauses stand in an `if` only. -/
theorem Rule.eq_ifStat {k : NodeKind} (rule : Rule kind ps) (mem : group k qs ∈ ps)
    (clause : k.isClause = true) : kind = .ifStat := by
  have notExpression : k.isExpression = false := by
    cases k <;> first
      | rfl
      | exact absurd clause (by decide)
  have notOperand : k.isOperand = false := by
    cases k <;> first
      | rfl
      | exact absurd clause (by decide)
  have notStat : k.isStatement = false := by
    cases k <;> first
      | rfl
      | exact absurd clause (by decide)
  cases rule <;> grind [Is, May, key, leaf, ofName, loopBody, IsStatement, NodeKind.isClause]

/-- A block is last in a clause only. -/
theorem Rule.isClause (rule : Rule kind ps) (last : ps.getLast? = some (group .block qs)) :
    kind.isClause = true := by
  have notExpression : NodeKind.block.isExpression = false := rfl
  have notOperand : NodeKind.block.isOperand = false := rfl
  have notStat : NodeKind.block.isStatement = false := rfl
  have mem := List.mem_of_getLast? last
  cases rule <;> grind [Is, May, key, leaf, ofName, loopBody, IsStatement, NodeKind.isClause]

theorem ruledAll_iff : RuledAll ps ↔ ∀ p ∈ ps, p.Ruled := by
  induction ps with
  | nil => simp [RuledAll]
  | cons p ps ih => simp [RuledAll, ih]

theorem ruledAll_append : RuledAll (ps ++ qs) ↔ RuledAll ps ∧ RuledAll qs := by
  simp only [ruledAll_iff, List.forall_mem_append]

theorem ruled_ofName (n : Name) (name : kind.isName = true) : (ofName kind n).Ruled :=
  ⟨.name n name, trivial, trivial⟩

theorem ruled_operator (w : Word) : (leaf .operator w).Ruled := ⟨.operator w, trivial, trivial⟩

theorem ruled_literal {w : Word} (literal : w.token.isLiteral = true) : (leaf .literal w).Ruled :=
  ⟨.literal literal, trivial, trivial⟩

theorem ruled_value (operand : p.Is isOperand) (ruled : p.Ruled) : (value p).Ruled :=
  ⟨.value operand, ruled, trivial⟩

theorem eq_comma_or_mem_of_mem_commaTail (mem : p ∈ commaTail ps) : p = key .comma ∨ p ∈ ps := by
  induction ps with
  | nil => exact absurd mem List.not_mem_nil
  | cons q ps ih =>
    rcases List.mem_cons.mp mem with comma | mem
    · exact .inl comma
    · rcases List.mem_cons.mp mem with here | mem
      · exact .inr (here ▸ List.mem_cons_self)
      · exact (ih mem).imp_right (List.mem_cons_of_mem q)

theorem eq_comma_or_mem_of_mem_commaList (mem : p ∈ commaList ps) : p = key .comma ∨ p ∈ ps := by
  cases ps with
  | nil => exact .inr mem
  | cons q ps =>
    rcases List.mem_cons.mp mem with here | mem
    · exact .inr (here ▸ List.mem_cons_self)
    · exact (eq_comma_or_mem_of_mem_commaTail mem).imp_right (List.mem_cons_of_mem q)

theorem may_commaTail (may : ∀ q ∈ ps, q.May P) : ∀ q ∈ commaTail ps, q.May P := by
  intro q mem
  rcases eq_comma_or_mem_of_mem_commaTail mem with rfl | mem
  · trivial
  · exact may q mem

theorem may_commaList (may : ∀ q ∈ ps, q.May P) : ∀ q ∈ commaList ps, q.May P := by
  intro q mem
  rcases eq_comma_or_mem_of_mem_commaList mem with rfl | mem
  · trivial
  · exact may q mem

theorem ruledAll_commaTail (ruled : RuledAll ps) : RuledAll (commaTail ps) := by
  refine ruledAll_iff.mpr fun q mem => ?_
  rcases eq_comma_or_mem_of_mem_commaTail mem with rfl | mem
  · trivial
  · exact ruledAll_iff.mp ruled q mem

theorem ruledAll_commaList (ruled : RuledAll ps) : RuledAll (commaList ps) := by
  cases ps with
  | nil => exact ruled
  | cons p ps => exact ⟨ruled.1, ruledAll_commaTail ruled.2⟩

theorem ruled_tableOf (fields : ∀ p ∈ ps, p.May (· == .tableField)) (ruled : RuledAll ps) :
    (tableOf ps).Ruled :=
  ⟨.table fields, trivial, ruledAll_append.mpr ⟨ruled, trivial, trivial⟩⟩

theorem ruled_exprList (expression : ∀ q ∈ p :: ps, q.Is isExpression)
    (ruled : RuledAll (p :: ps)) : (exprList (p :: ps)).Ruled :=
  ⟨.exprList (expression p List.mem_cons_self)
    (may_commaTail fun q mem => (expression q (List.mem_cons_of_mem p mem)).may),
    ruledAll_commaList ruled⟩

theorem may_initializer (ps : List Phrase) : ∀ q ∈ initializer ps, q.May (· == .exprList) := by
  cases ps with
  | nil => exact fun _ mem => absurd mem List.not_mem_nil
  | cons p ps => exact List.forall_mem_cons.mpr ⟨trivial, List.forall_mem_singleton.mpr rfl⟩

theorem ruledAll_initializer (expression : ∀ q ∈ ps, q.Is isExpression) (ruled : RuledAll ps) :
    RuledAll (initializer ps) := by
  cases ps with
  | nil => trivial
  | cons p ps => exact ⟨trivial, ruled_exprList expression ruled, trivial⟩

theorem ruledAll_loopBody (block : (group .block stats).Ruled) : RuledAll (loopBody stats) :=
  ⟨trivial, block, trivial, trivial⟩

/-! ### Names and parameters -/

theorem ruled_funcBody (params : Params) (block : (group .block stats).Ruled) :
    (funcBody params stats).Ruled := by
  have each : ∀ p ∈ paramsOf params,
      p.May (fun k => k == .paramDef || k == .literal) ∧ p.Ruled := by
    intro p mem
    rw [paramsOf] at mem
    rcases List.mem_append.mp mem with mem | mem
    · obtain ⟨n, -, rfl⟩ := List.mem_map.mp mem
      exact ⟨rfl, ruled_ofName n rfl⟩
    · split at mem
      · rw [List.mem_singleton.mp mem]
        exact ⟨rfl, ruled_literal rfl⟩
      · exact absurd mem List.not_mem_nil
  have list : (group .paramList (key .leftParen
      :: (commaList (paramsOf params) ++ [key .rightParen]))).Ruled :=
    ⟨.paramList (may_commaList fun p mem => (each p mem).1), trivial,
      ruledAll_append.mpr ⟨ruledAll_commaList (ruledAll_iff.mpr fun p mem => (each p mem).2),
        trivial, trivial⟩⟩
  exact ⟨.funcBody, list, block, trivial, trivial⟩

theorem of_mem_localName {n : LocalName} (mem : p ∈ localName n) :
    p.May (fun k => k == .nameDef || k == .attrib) ∧ p.Ruled := by
  rw [localName] at mem
  rcases List.mem_cons.mp mem with rfl | mem
  · exact ⟨rfl, ruled_ofName n.name rfl⟩
  · split at mem
    · exact absurd mem List.not_mem_nil
    · rw [List.mem_singleton.mp mem]
      exact ⟨rfl, .attrib, trivial, trivial, trivial, trivial⟩

theorem of_mem_localNamesTail {ns : List LocalName} (mem : p ∈ localNamesTail ns) :
    p.May (fun k => k == .nameDef || k == .attrib) ∧ p.Ruled := by
  induction ns with
  | nil => exact absurd mem List.not_mem_nil
  | cons n ns ih =>
    rcases List.mem_cons.mp mem with rfl | mem
    · exact ⟨trivial, trivial⟩
    · rcases List.mem_append.mp mem with mem | mem
      · exact of_mem_localName mem
      · exact ih mem

theorem ruled_localNames (n : LocalName) (ns : List LocalName) :
    (group .nameList (localName n ++ localNamesTail ns)).Ruled := by
  have each : ∀ p ∈ localName n ++ localNamesTail ns,
      p.May (fun k => k == .nameDef || k == .attrib) ∧ p.Ruled := fun p mem =>
    (List.mem_append.mp mem).elim of_mem_localName of_mem_localNamesTail
  refine ⟨?_, ruledAll_iff.mpr fun p mem => (each p mem).2⟩
  rw [localName, List.cons_append] at each ⊢
  exact .nameList n.name fun p mem => (each p (List.mem_cons_of_mem _ mem)).1

theorem ruled_loopNames (n : Name) (ns : List Name) :
    (group .nameList (commaList ((n :: ns).map (ofName .nameDef)))).Ruled := by
  have each : ∀ p ∈ ns.map (ofName .nameDef),
      p.May (fun k => k == .nameDef || k == .attrib) ∧ p.Ruled := by
    intro p mem
    obtain ⟨m, -, rfl⟩ := List.mem_map.mp mem
    exact ⟨rfl, ruled_ofName m rfl⟩
  exact ⟨.nameList n (may_commaTail fun p mem => (each p mem).1), ruled_ofName n rfl,
    ruledAll_commaTail (ruledAll_iff.mpr fun p mem => (each p mem).2)⟩

theorem of_mem_funcNameTail {n : FuncName} {base : Phrase} {parts : List Phrase}
    (name : funcName n = group .funcName (base :: parts)) (mem : p ∈ parts) :
    p.May (fun k => k == .name || k == .methodName) ∧ p.Ruled := by
  obtain ⟨-, rfl⟩ := List.cons.inj (group.inj name).2
  rcases List.mem_append.mp mem with mem | mem
  · obtain ⟨f, -, mem⟩ := List.mem_flatMap.mp mem
    rcases List.mem_cons.mp mem with rfl | mem
    · exact ⟨trivial, trivial⟩
    · rw [List.mem_singleton.mp mem]
      exact ⟨rfl, ruled_ofName f rfl⟩
  · split at mem
    · exact absurd mem List.not_mem_nil
    · rcases List.mem_cons.mp mem with rfl | mem
      · exact ⟨trivial, trivial⟩
      · rw [List.mem_singleton.mp mem]
        exact ⟨rfl, ruled_ofName _ rfl⟩

theorem ruled_funcName (n : FuncName) : (funcName n).Ruled :=
  ⟨.funcName n.base fun _ mem => (of_mem_funcNameTail rfl mem).1, ruled_ofName n.base rfl,
    ruledAll_iff.mpr fun _ mem => (of_mem_funcNameTail rfl mem).2⟩

end Groups

end Phrase

/-! ## Forms -/

open Phrase

theorem Suffixed.isExpression_phrase (e : Suffixed) : e.phrase.Is isExpression := by
  cases e <;> rfl

theorem Exp.isExpression_phrase (e : Exp) : e.phrase.Is isExpression := by
  cases e <;> rfl

/-- An expression with suffixes may be wrapped by a value node. -/
theorem Suffixed.isOperand_phrase (e : Suffixed) : e.phrase.Is isOperand := by
  cases e <;> rfl

theorem Args.isArgs_phrase (args : Args) : args.phrase.Is (· == .args) := by
  cases args <;> rfl

theorem Exp.isExpression_phrases (es : List Exp) : ∀ p ∈ Exp.phrases es, p.Is isExpression := by
  intro p mem
  rw [Exp.phrases_eq_map] at mem
  obtain ⟨e, -, rfl⟩ := List.mem_map.mp mem
  exact e.isExpression_phrase

theorem Suffixed.isExpression_phrases (es : List Suffixed) :
    ∀ p ∈ Suffixed.phrases es, p.Is isExpression := by
  intro p mem
  rw [Suffixed.phrases_eq_map] at mem
  obtain ⟨e, -, rfl⟩ := List.mem_map.mp mem
  exact e.isExpression_phrase

theorem StringText.isLiteral (text : StringText) : text.word.token.isLiteral = true := by
  have string := text.isString
  cases token : text.word.token <;> rw [token] at string <;> first
    | rfl
    | exact absurd string (by decide)

theorem Fields.may_phrases (fields : Fields) : ∀ p ∈ fields.phrases, p.May (· == .tableField) := by
  intro p mem
  cases fields with
  | none => exact absurd mem List.not_mem_nil
  | last f =>
    rw [List.mem_singleton.mp mem]
    cases f <;> rfl
  | more f separator rest =>
    rcases List.mem_cons.mp mem with rfl | mem
    · cases f <;> rfl
    · rcases List.mem_cons.mp mem with rfl | mem
      · trivial
      · exact rest.may_phrases p mem
termination_by structural fields

theorem Clauses.isClause_phrases (clauses : Clauses) : ∀ p ∈ clauses.phrases, p.IsClause := by
  intro p mem
  cases clauses with
  | none => exact absurd mem List.not_mem_nil
  | «else» body => exact List.mem_singleton.mp mem ▸ ⟨rfl, rfl⟩
  | «elseif» condition body rest =>
    rcases List.mem_cons.mp mem with rfl | mem
    · exact ⟨rfl, rfl⟩
    · exact rest.isClause_phrases p mem
termination_by structural clauses

theorem Exp.may_stridePhrases (stride : Option Exp) :
    ∀ p ∈ Exp.stridePhrases stride, p.May isExpression := by
  cases stride with
  | none => exact fun _ mem => absurd mem List.not_mem_nil
  | some e =>
    intro p mem
    rcases List.mem_cons.mp mem with rfl | mem
    · trivial
    · rw [List.mem_singleton.mp mem]
      exact e.isExpression_phrase.may

/-- The block of some statements. -/
theorem Stat.ruled_block {body : List Stat} (ruled : RuledAll (Stat.phrases body)) :
    (Phrase.group .block (Stat.phrases body)).Ruled := by
  refine ⟨.block fun p mem => ?_, ruled⟩
  rw [Stat.phrases_eq_map] at mem
  obtain ⟨s, -, rfl⟩ := List.mem_map.mp mem
  exact s.isStatement

mutual

theorem Exp.ruled : (e : Exp) → e.phrase.Ruled
  | .literal text => ruled_value rfl (ruled_literal text.isLiteral)
  | .table fields => ruled_value rfl (ruled_tableOf fields.may_phrases fields.ruled)
  | .function params body =>
    ruled_value rfl
      ⟨.closure, trivial, ruled_funcBody params (Stat.ruled_block (Stat.ruledAll body)), trivial⟩
  | .suffixed e => ruled_value e.isOperand_phrase e.ruled
  | .unary op e => ⟨.unary op e.isExpression_phrase, ruled_operator _, e.ruled, trivial⟩
  | .binary left op right =>
    ⟨.binary op left.isExpression_phrase right.isExpression_phrase, left.ruled, ruled_operator _,
      right.ruled, trivial⟩

theorem Exp.ruledAll : (es : List Exp) → RuledAll (Exp.phrases es)
  | [] => trivial
  | e :: es => ⟨e.ruled, Exp.ruledAll es⟩

theorem Suffixed.ruled : (e : Suffixed) → e.phrase.Ruled
  | .name n => ruled_ofName n rfl
  | .paren e => ⟨.paren e.isExpression_phrase, trivial, e.ruled, trivial, trivial⟩
  | .field e n => ⟨.field n e.isExpression_phrase, e.ruled, trivial, ruled_ofName n rfl, trivial⟩
  | .index e k =>
    ⟨.index e.isExpression_phrase k.isExpression_phrase, e.ruled, trivial, k.ruled, trivial,
      trivial⟩
  | .call e args => ⟨.call e.isExpression_phrase args.isArgs_phrase, e.ruled, args.ruled, trivial⟩
  | .method e n args =>
    ⟨.call rfl args.isArgs_phrase,
      ⟨.method n e.isExpression_phrase, e.ruled, trivial, ruled_ofName n rfl, trivial⟩, args.ruled,
      trivial⟩

theorem Suffixed.ruledAll : (es : List Suffixed) → RuledAll (Suffixed.phrases es)
  | [] => trivial
  | e :: es => ⟨e.ruled, Suffixed.ruledAll es⟩

theorem Args.ruled : (args : Args) → args.phrase.Ruled
  | .list es => by
    have may := may_commaList fun q mem => (Exp.isExpression_phrases es q mem).may
    refine ⟨.args (List.forall_mem_cons.mpr ⟨trivial, List.forall_mem_append.mpr ⟨may, ?_⟩⟩),
      trivial, ruledAll_append.mpr ⟨ruledAll_commaList (Exp.ruledAll es), trivial, trivial⟩⟩
    exact List.forall_mem_singleton.mpr trivial
  | .table fields =>
    ⟨.args (List.forall_mem_singleton.mpr rfl),
      ruled_value rfl (ruled_tableOf fields.may_phrases fields.ruled), trivial⟩
  | .string text =>
    ⟨.args (List.forall_mem_singleton.mpr rfl),
      ruled_value rfl (ruled_literal text.isLiteral), trivial⟩

theorem Fields.ruled : (fields : Fields) → RuledAll fields.phrases
  | .none => trivial
  | .last f => ⟨f.ruled, trivial⟩
  | .more f _ rest => ⟨f.ruled, trivial, rest.ruled⟩

theorem Field.ruled : (f : Field) → f.phrase.Ruled
  | .keyed k v =>
    ⟨.keyed k.isExpression_phrase v.isExpression_phrase, trivial, k.ruled, trivial, trivial,
      v.ruled, trivial⟩
  | .named n v => ⟨.named n v.isExpression_phrase, ruled_ofName n rfl, trivial, v.ruled, trivial⟩
  | .positional v => ⟨.positional v.isExpression_phrase, v.ruled, trivial⟩

theorem Stat.ruled : (s : Stat) → s.phrase.Ruled
  | .empty => ⟨.empty, trivial, trivial⟩
  | .locals n ns values =>
    ⟨.locals (may_initializer _), trivial, ruled_localNames n ns,
      ruledAll_initializer (Exp.isExpression_phrases values) (Exp.ruledAll values)⟩
  | .localFunction n params body =>
    ⟨.localFunction n, trivial, trivial, ruled_ofName n rfl,
      ruled_funcBody params (Stat.ruled_block (Stat.ruledAll body)), trivial⟩
  | .function name params body =>
    ⟨.function, trivial, ruled_funcName name,
      ruled_funcBody params (Stat.ruled_block (Stat.ruledAll body)), trivial⟩
  | .returns values closed => by
    have list := Exp.isExpression_phrases values
    have ruled := Exp.ruledAll values
    cases values with
    | nil =>
      cases closed with
      | false => exact ⟨.returns fun _ mem => absurd mem List.not_mem_nil, trivial, trivial⟩
      | true => exact ⟨.returns (List.forall_mem_singleton.mpr trivial), trivial, trivial, trivial⟩
    | cons e es =>
      have list := ruled_exprList list ruled
      cases closed with
      | false => exact ⟨.returns (List.forall_mem_singleton.mpr rfl), trivial, list, trivial⟩
      | true =>
        exact ⟨.returns (List.forall_mem_cons.mpr ⟨rfl, List.forall_mem_singleton.mpr trivial⟩),
          trivial, list, trivial, trivial⟩
  | .block body => ⟨.doBlock, ruledAll_loopBody (Stat.ruled_block (Stat.ruledAll body))⟩
  | .while condition body =>
    ⟨.while condition.isExpression_phrase, trivial, condition.ruled,
      ruledAll_loopBody (Stat.ruled_block (Stat.ruledAll body))⟩
  | .repeat body condition =>
    ⟨.repeat condition.isExpression_phrase, trivial, Stat.ruled_block (Stat.ruledAll body), trivial,
      condition.ruled, trivial⟩
  | .if condition body clauses =>
    ⟨.if condition.isExpression_phrase clauses.isClause_phrases, trivial, condition.ruled, trivial,
      Stat.ruled_block (Stat.ruledAll body), ruledAll_append.mpr ⟨clauses.ruled, trivial, trivial⟩⟩
  | .numericFor n start stop stride body => by
    have bounds : ∀ p ∈ key .assign :: start.phrase :: key .comma :: stop.phrase
        :: Exp.stridePhrases stride, p.May isExpression :=
      List.forall_mem_cons.mpr ⟨trivial, List.forall_mem_cons.mpr ⟨start.isExpression_phrase.may,
        List.forall_mem_cons.mpr ⟨trivial, List.forall_mem_cons.mpr
          ⟨stop.isExpression_phrase.may, Exp.may_stridePhrases stride⟩⟩⟩⟩
    refine ⟨.numericFor n bounds, trivial, ruled_ofName n rfl, trivial, start.ruled, trivial,
      stop.ruled, ruledAll_append.mpr ⟨Exp.ruled_stride stride, ?_⟩⟩
    exact ruledAll_loopBody (Stat.ruled_block (Stat.ruledAll body))
  | .genericFor n ns e es body =>
    ⟨.genericFor, trivial, ruled_loopNames n ns, trivial,
      ruled_exprList (Exp.isExpression_phrases (e :: es)) ⟨e.ruled, Exp.ruledAll es⟩,
      ruledAll_loopBody (Stat.ruled_block (Stat.ruledAll body))⟩
  | .break => ⟨.break, trivial, trivial⟩
  | .goto n => ⟨.goto n, trivial, ruled_ofName n rfl, trivial⟩
  | .label n => ⟨.label n, trivial, ruled_ofName n rfl, trivial, trivial⟩
  | .assign target targets trailing e es => by
    have left : (group .varList (commaList (target.phrase :: Suffixed.phrases targets))).Ruled :=
      ⟨.varList target.isExpression_phrase
        (may_commaTail fun q mem => (Suffixed.isExpression_phrases targets q mem).may),
        target.ruled, ruledAll_commaTail (Suffixed.ruledAll targets)⟩
    have right := ruled_exprList (Exp.isExpression_phrases (e :: es)) ⟨e.ruled, Exp.ruledAll es⟩
    cases trailing with
    | false =>
      have marks : ∀ p ∈ [key .assign], ∃ w, p = word w :=
        List.forall_mem_singleton.mpr ⟨_, rfl⟩
      exact ⟨.assign marks, left, trivial, right, trivial⟩
    | true =>
      have marks : ∀ p ∈ [key .comma, key .assign], ∃ w, p = word w :=
        List.forall_mem_cons.mpr ⟨⟨_, rfl⟩, List.forall_mem_singleton.mpr ⟨_, rfl⟩⟩
      exact ⟨.assign marks, left, trivial, trivial, right, trivial⟩
  | .call e args => ⟨.callStat, (Suffixed.call e args).ruled, trivial⟩
  | .methodCall e n args => ⟨.callStat, (Suffixed.method e n args).ruled, trivial⟩

theorem Stat.ruledAll : (ss : List Stat) → RuledAll (Stat.phrases ss)
  | [] => trivial
  | s :: ss => ⟨s.ruled, Stat.ruledAll ss⟩

theorem Exp.ruled_stride : (stride : Option Exp) → RuledAll (Exp.stridePhrases stride)
  | none => trivial
  | some e => ⟨trivial, e.ruled, trivial⟩

theorem Clauses.ruled : (clauses : Clauses) → RuledAll clauses.phrases
  | .none => trivial
  | .else body => ⟨⟨.else, trivial, Stat.ruled_block (Stat.ruledAll body), trivial⟩, trivial⟩
  | .elseif condition body rest =>
    ⟨⟨.elseif condition.isExpression_phrase, trivial, condition.ruled, trivial,
      Stat.ruled_block (Stat.ruledAll body), trivial⟩, rest.ruled⟩

end

end LuaTyping
