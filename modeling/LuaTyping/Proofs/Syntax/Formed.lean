import LuaTyping.Proofs.Syntax.Forms

/-!
# What may stand where

Which groups the forms of the grammar put below which: statements stand in blocks, a block stands
in what opens it, with a word or a group in front, and only behind the block of `repeat` and `if`
stand more groups; `repeat` has none in front of it.  A phrase is *formed* if this holds of all its
groups.

* `Phrase.Fits`: what a group of a kind consists of.
* `Exp.formed`, `Stat.formed`: the phrases of the forms are formed.
-/

namespace LuaTyping

/-- The kinds of nodes with a block in them. -/
def NodeKind.holdsBlock : NodeKind → Bool
  | .chunk | .funcBody | .doStat | .whileStat | .repeatStat | .ifStat | .elseIfClause
  | .elseClause | .numericForStat | .genericForStat => true
  | _ => false

/-- The kinds of nodes in which something follows the block. -/
def NodeKind.goesOn : NodeKind → Bool
  | .repeatStat | .ifStat => true
  | _ => false

/-- The kinds of nodes that are not bound to hold a block or a function. -/
def NodeKind.isFlat (kind : NodeKind) : Bool :=
  !kind.holdsBlock && kind != .block && kind != .localFuncStat && kind != .comment

namespace Phrase

/-- Words and groups that are neither statement nor block. -/
def Inner : Phrase → Prop
  | word _ => True
  | p => p.Plain

@[simp] theorem inner_word (w : Word) : (word w).Inner := trivial

theorem Plain.inner {p : Phrase} (h : p.Plain) : p.Inner := by
  cases p with
  | word => trivial
  | group => exact h

theorem Inner.words_pos {p : Phrase} (h : p.Inner) : 0 < p.words.length := by
  cases p with
  | word => exact Nat.one_pos
  | group => exact Plain.words_pos h

/-- The parts are those of a group of the kind. -/
inductive Fits : NodeKind → List Phrase → Prop
  | block {ps : List Phrase} : (∀ p ∈ ps, p.IsStatement) → Fits .block ps
  | flat {kind : NodeKind} {p : Phrase} {ps : List Phrase} :
    kind.isFlat = true → (∀ q ∈ p :: ps, q.Inner) → Fits kind (p :: ps)
  | body {kind : NodeKind} {p : Phrase} {ps stats qs : List Phrase} :
    kind.holdsBlock = true → (∀ q ∈ p :: ps ++ qs, q.Inner) →
    (kind = .repeatStat → ∀ q ∈ p :: ps, ∃ w, q = word w) →
    (kind.goesOn = false → ∀ q ∈ qs, ∃ w, q = word w) →
    Fits kind (p :: ps ++ group .block stats :: qs)
  | localFunction {w w' : Word} {name body : List Phrase} :
    (group .nameDef name).Plain → (group .funcBody body).Plain →
    Fits .localFuncStat [word w, word w', group .nameDef name, group .funcBody body]

mutual

/-- The parts of every group are those of its kind. -/
def Formed : Phrase → Prop
  | word _ => True
  | group kind parts => Fits kind parts ∧ FormedAll parts
termination_by structural p => p

def FormedAll : List Phrase → Prop
  | [] => True
  | p :: ps => p.Formed ∧ FormedAll ps
termination_by structural ps => ps

end

theorem formedAll_iff {ps : List Phrase} : FormedAll ps ↔ ∀ p ∈ ps, p.Formed := by
  induction ps with
  | nil => simp [FormedAll]
  | cons p ps ih => simp [FormedAll, ih]

@[simp] theorem formed_word (w : Word) : (word w).Formed := trivial

/-- A part that is neither statement nor block and is formed. -/
def Sound (p : Phrase) : Prop := p.Inner ∧ p.Formed

@[simp] theorem sound_key (t : Token) : (key t).Sound := ⟨trivial, trivial⟩

@[simp] theorem sound_word (w : Word) : (word w).Sound := ⟨trivial, trivial⟩

section Groups

variable {kind : NodeKind} {p : Phrase} {ps stats : List Phrase}

theorem formed_flat (flat : kind.isFlat = true) (parts : ∀ q ∈ p :: ps, q.Sound) :
    (group kind (p :: ps)).Formed :=
  ⟨.flat flat fun q mem => (parts q mem).1, formedAll_iff.mpr fun q mem => (parts q mem).2⟩

/-- A group without statements in it. -/
theorem sound_flat (flat : kind.isFlat = true) (notStat : kind.isStatement = false)
    (parts : ∀ q ∈ p :: ps, q.Sound) : (group kind (p :: ps)).Sound := by
  have notBlock : kind ≠ .block := by
    rintro rfl
    exact absurd flat (by decide)
  have head := (parts p List.mem_cons_self).1.words_pos
  exact ⟨(plain_group notStat notBlock head).inner, formed_flat flat parts⟩

theorem formed_block (parts : ∀ q ∈ ps, q.IsStatement ∧ q.Formed) : (group .block ps).Formed :=
  ⟨.block fun q mem => (parts q mem).1, formedAll_iff.mpr fun q mem => (parts q mem).2⟩

theorem formed_body (ps qs : List Phrase) (holds : kind.holdsBlock = true)
    (parts : ∀ q ∈ p :: ps ++ qs, q.Sound)
    (front : kind = .repeatStat → ∀ q ∈ p :: ps, ∃ w, q = word w)
    (behind : kind.goesOn = false → ∀ q ∈ qs, ∃ w, q = word w)
    (statements : ∀ q ∈ stats, q.IsStatement ∧ q.Formed) :
    (group kind (p :: ps ++ group .block stats :: qs)).Formed := by
  refine ⟨.body holds (fun q mem => (parts q mem).1) front behind,
    formedAll_iff.mpr fun q mem => ?_⟩
  rcases List.mem_append.mp mem with mem | mem
  · exact (parts q (List.mem_append_left _ mem)).2
  · rcases List.mem_cons.mp mem with rfl | mem
    · exact formed_block statements
    · exact (parts q (List.mem_append_right _ mem)).2

/-- A statement whose block is closed by `end`. -/
theorem formed_ended (ps : List Phrase) (holds : kind.holdsBlock = true)
    (other : kind ≠ .repeatStat) (parts : ∀ q ∈ p :: ps, q.Sound)
    (statements : ∀ q ∈ stats, q.IsStatement ∧ q.Formed) :
    (group kind (p :: ps ++ [group .block stats, key .endKw])).Formed := by
  have all : ∀ q ∈ p :: ps ++ [key .endKw], q.Sound := by
    simpa [or_imp, forall_and] using parts
  exact formed_body ps [key .endKw] holds all (fun same => absurd same other)
    (fun _ _ mem => ⟨_, List.mem_singleton.mp mem⟩) statements

/-- A group with a block in it that is no statement. -/
theorem sound_body (ps qs : List Phrase) (holds : kind.holdsBlock = true)
    (notStat : kind.isStatement = false) (parts : ∀ q ∈ p :: ps ++ qs, q.Sound)
    (behind : kind.goesOn = false → ∀ q ∈ qs, ∃ w, q = word w)
    (statements : ∀ q ∈ stats, q.IsStatement ∧ q.Formed) :
    (group kind (p :: ps ++ group .block stats :: qs)).Sound := by
  have notBlock : kind ≠ .block := by
    rintro rfl
    exact absurd holds (by decide)
  have front : kind = .repeatStat → ∀ q ∈ p :: ps, ∃ w, q = word w := by
    rintro rfl
    exact absurd notStat (by decide)
  have head := (parts p List.mem_cons_self).1.words_pos
  exact ⟨(plain_group notStat notBlock head).inner,
    formed_body ps qs holds parts front behind statements⟩

theorem sound_leaf (w : Word) (flat : kind.isFlat = true) (notStat : kind.isStatement = false) :
    (leaf kind w).Sound :=
  sound_flat flat notStat (by simp)

theorem sound_ofName (n : Name) (flat : kind.isFlat = true) (notStat : kind.isStatement = false) :
    (ofName kind n).Sound :=
  sound_leaf n.word flat notStat

theorem sound_call {e args : Phrase} (callee : e.Sound) (arguments : args.Sound) :
    (call e args).Sound :=
  sound_flat rfl rfl (by simp [callee, arguments])

theorem sound_methodCall {e args : Phrase} (n : Name) (receiver : e.Sound)
    (arguments : args.Sound) : (methodCall e n args).Sound := by
  have name : (ofName .name n).Sound := sound_ofName n rfl rfl
  have callee : (group .methodExpr [e, key .colon, ofName .name n]).Sound :=
    sound_flat rfl rfl (by simp [receiver, name])
  exact sound_flat rfl rfl (by simp [callee, arguments])

theorem sound_commaTail (parts : ∀ q ∈ ps, q.Sound) : ∀ q ∈ commaTail ps, q.Sound := by
  induction ps with
  | nil => exact parts
  | cons p ps ih =>
    intro q mem
    rw [commaTail] at mem
    rcases List.mem_cons.mp mem with rfl | mem
    · exact sound_word _
    · rcases List.mem_cons.mp mem with rfl | mem
      · exact parts q List.mem_cons_self
      · exact ih (fun r inside => parts r (List.mem_cons_of_mem _ inside)) q mem

theorem sound_commaList (parts : ∀ q ∈ ps, q.Sound) : ∀ q ∈ commaList ps, q.Sound := by
  cases ps with
  | nil => exact parts
  | cons p ps =>
    intro q mem
    rcases List.mem_cons.mp mem with rfl | mem
    · exact parts q List.mem_cons_self
    · exact sound_commaTail (fun r inside => parts r (List.mem_cons_of_mem _ inside)) q mem

theorem sound_commaGroup (flat : kind.isFlat = true) (notStat : kind.isStatement = false)
    (parts : ∀ q ∈ p :: ps, q.Sound) : (group kind (commaList (p :: ps))).Sound :=
  sound_flat flat notStat (sound_commaList parts)

theorem sound_value (h : p.Sound) : (value p).Sound :=
  sound_flat rfl rfl (by simpa using h)

theorem sound_tableOf (parts : ∀ q ∈ ps, q.Sound) : (tableOf ps).Sound := by
  refine sound_flat rfl rfl fun q mem => ?_
  rcases List.mem_cons.mp mem with rfl | mem
  · exact sound_key _
  · rcases List.mem_append.mp mem with mem | mem
    · exact parts q mem
    · rw [List.mem_singleton.mp mem]
      exact sound_key _

end Groups

/-! ## Names and parameters -/

theorem sound_paramList (ps : Params) :
    (group .paramList
      (key .leftParen :: (commaList (paramsOf ps) ++ [key .rightParen]))).Sound := by
  have element : ∀ q ∈ paramsOf ps, q.Sound := by
    intro q mem
    rw [paramsOf] at mem
    rcases List.mem_append.mp mem with mem | mem
    · obtain ⟨n, -, rfl⟩ := List.mem_map.mp mem
      exact sound_ofName n rfl rfl
    · split at mem
      · rw [List.mem_singleton.mp mem]
        exact sound_leaf _ rfl rfl
      · exact absurd mem List.not_mem_nil
  refine sound_flat rfl rfl fun q mem => ?_
  rcases List.mem_cons.mp mem with rfl | mem
  · exact sound_key _
  · rcases List.mem_append.mp mem with mem | mem
    · exact sound_commaList element q mem
    · rw [List.mem_singleton.mp mem]
      exact sound_key _

theorem sound_funcBody {stats : List Phrase} (ps : Params)
    (statements : ∀ q ∈ stats, q.IsStatement ∧ q.Formed) : (funcBody ps stats).Sound := by
  have parts : ∀ q ∈ [group .paramList (key .leftParen :: (commaList (paramsOf ps)
      ++ [key .rightParen]))] ++ [key .endKw], q.Sound := by
    simp [sound_paramList]
  exact sound_body [] [key .endKw] rfl rfl parts
    (fun _ _ mem => ⟨_, List.mem_singleton.mp mem⟩) statements

theorem sound_localName (n : LocalName) : ∀ q ∈ localName n, q.Sound := by
  intro q mem
  rw [localName] at mem
  rcases List.mem_cons.mp mem with rfl | mem
  · exact sound_ofName _ rfl rfl
  · split at mem
    · exact absurd mem List.not_mem_nil
    · rw [List.mem_singleton.mp mem]
      exact sound_flat rfl rfl (by simp)

theorem sound_localNamesTail (ns : List LocalName) : ∀ q ∈ localNamesTail ns, q.Sound := by
  induction ns with
  | nil => exact fun _ mem => absurd mem List.not_mem_nil
  | cons n ns ih =>
    intro q mem
    rw [localNamesTail] at mem
    rcases List.mem_cons.mp mem with rfl | mem
    · exact sound_key _
    · rcases List.mem_append.mp mem with mem | mem
      · exact sound_localName n q mem
      · exact ih q mem

theorem sound_localNames (n : LocalName) (ns : List LocalName) :
    (group .nameList (localName n ++ localNamesTail ns)).Sound := by
  refine sound_flat rfl rfl fun q mem => ?_
  rcases List.mem_append.mp (List.cons_append ▸ mem : q ∈ localName n ++ localNamesTail ns)
    with mem | mem
  · exact sound_localName n q mem
  · exact sound_localNamesTail ns q mem

theorem sound_funcName (n : FuncName) : (funcName n).Sound := by
  refine sound_flat rfl rfl fun q mem => ?_
  rcases List.mem_cons.mp mem with rfl | mem
  · exact sound_ofName _ rfl rfl
  · rcases List.mem_append.mp mem with mem | mem
    · obtain ⟨f, -, mem⟩ := List.mem_flatMap.mp mem
      rcases List.mem_cons.mp mem with rfl | mem
      · exact sound_key _
      · rw [List.mem_singleton.mp mem]
        exact sound_ofName _ rfl rfl
    · split at mem
      · exact absurd mem List.not_mem_nil
      · rcases List.mem_cons.mp mem with rfl | mem
        · exact sound_key _
        · rw [List.mem_singleton.mp mem]
          exact sound_ofName _ rfl rfl

end Phrase

/-! ## Forms -/

open Phrase

mutual

theorem Exp.sound : (e : Exp) → e.phrase.Sound
  | .literal text => sound_value (sound_leaf text.word rfl rfl)
  | .table fields => sound_value (sound_tableOf fields.sound)
  | .function params body => by
    have function := sound_funcBody params (Stat.formedAll body)
    exact sound_value (sound_flat rfl rfl (by simp [function]))
  | .suffixed e => sound_value e.sound
  | .unary op e => by
    have operand := e.sound
    have operator : (leaf .operator op.word).Sound := sound_leaf op.word rfl rfl
    exact sound_flat rfl rfl (by simp [operand, operator])
  | .binary left op right => by
    have operands := And.intro left.sound right.sound
    have operator : (leaf .operator op.word).Sound := sound_leaf op.word rfl rfl
    exact sound_flat rfl rfl (by simp [operands, operator])

theorem Exp.soundAll : (es : List Exp) → ∀ q ∈ Exp.phrases es, q.Sound
  | [] => fun _ mem => absurd mem List.not_mem_nil
  | e :: es => List.forall_mem_cons.mpr ⟨e.sound, Exp.soundAll es⟩

theorem Suffixed.sound : (e : Suffixed) → e.phrase.Sound
  | .name n => sound_ofName n rfl rfl
  | .paren e => by
    have inner := e.sound
    exact sound_flat rfl rfl (by simp [inner])
  | .field e n => by
    have inner := e.sound
    have name : (ofName .name n).Sound := sound_ofName n rfl rfl
    exact sound_flat rfl rfl (by simp [inner, name])
  | .index e k => by
    have inner := And.intro e.sound k.sound
    exact sound_flat rfl rfl (by simp [inner])
  | .call e args => sound_call e.sound args.sound
  | .method e n args => sound_methodCall n e.sound args.sound

theorem Suffixed.soundAll : (es : List Suffixed) → ∀ q ∈ Suffixed.phrases es, q.Sound
  | [] => fun _ mem => absurd mem List.not_mem_nil
  | e :: es => List.forall_mem_cons.mpr ⟨e.sound, Suffixed.soundAll es⟩

theorem Args.sound : (args : Args) → args.phrase.Sound
  | .list es => by
    have elements := sound_commaList (Exp.soundAll es)
    exact sound_flat rfl rfl (by simpa [or_imp, forall_and] using elements)
  | .table fields => by
    have table := sound_value (sound_tableOf fields.sound)
    exact sound_flat rfl rfl (by simp [table])
  | .string text => by
    have string : (value (leaf .literal text.word)).Sound :=
      sound_value (sound_leaf text.word rfl rfl)
    exact sound_flat rfl rfl (by simp [string])

theorem Fields.sound : (fields : Fields) → ∀ q ∈ fields.phrases, q.Sound
  | .none => fun _ mem => absurd mem List.not_mem_nil
  | .last f => fun _ mem => List.mem_singleton.mp mem ▸ f.sound
  | .more f separator rest => by
    have field := f.sound
    have fields := rest.sound
    intro q mem
    rcases List.mem_cons.mp mem with rfl | mem
    · exact field
    · rcases List.mem_cons.mp mem with rfl | mem
      · exact sound_key _
      · exact fields q mem

theorem Field.sound : (f : Field) → f.phrase.Sound
  | .keyed k v => by
    have inner := And.intro k.sound v.sound
    exact sound_flat rfl rfl (by simp [inner])
  | .named n v => by
    have inner := v.sound
    have name : (ofName .name n).Sound := sound_ofName n rfl rfl
    exact sound_flat rfl rfl (by simp [inner, name])
  | .positional v => by
    have inner := v.sound
    exact sound_flat rfl rfl (by simp [inner])

theorem Stat.formed : (s : Stat) → s.phrase.Formed
  | .empty => formed_flat rfl (by simp)
  | .locals n ns values => by
    have names := sound_localNames n ns
    have elements := Exp.soundAll values
    cases values with
    | nil => exact formed_flat rfl (by simp [names, initializer, Exp.phrases])
    | cons e es =>
      have list : (exprList (Exp.phrases (e :: es))).Sound := sound_commaGroup rfl rfl elements
      exact formed_flat rfl (by simpa [names, initializer, Exp.phrases] using list)
  | .localFunction n params body => by
    have function := sound_funcBody params (Stat.formedAll body)
    have name : (ofName .nameDef n).Sound := sound_ofName n rfl rfl
    refine ⟨.localFunction name.1 function.1, ?_⟩
    simp [FormedAll, function.2, name.2, key]
  | .function name params body => by
    have function := sound_funcBody params (Stat.formedAll body)
    exact formed_flat rfl (by simp [function, sound_funcName])
  | .returns values closed => by
    have elements := Exp.soundAll values
    cases values with
    | nil => exact formed_flat rfl (by simp)
    | cons e es =>
      have list : (exprList (Exp.phrases (e :: es))).Sound := sound_commaGroup rfl rfl elements
      exact formed_flat rfl (by simp [list])
  | .block body =>
    formed_ended [] rfl (by decide) (by simp) (Stat.formedAll body)
  | .while condition body => by
    have inner := condition.sound
    exact formed_ended [condition.phrase, key .doKw] rfl (by decide) (by simp [inner])
      (Stat.formedAll body)
  | .repeat body condition => by
    have inner := condition.sound
    exact formed_body [] [key .untilKw, condition.phrase] rfl (by simp [inner])
      (fun _ _ mem => ⟨_, List.mem_singleton.mp mem⟩) (fun last => absurd last (by decide))
      (Stat.formedAll body)
  | .if condition body clauses => by
    have inner := condition.sound
    have rest := clauses.sound
    exact formed_body [condition.phrase, key .thenKw] (clauses.phrases ++ [key .endKw]) rfl
      (by simpa [inner, or_imp, forall_and] using rest) (fun other => nomatch other)
      (fun last => absurd last (by decide)) (Stat.formedAll body)
  | .numericFor n start stop stride body => by
    have bounds := And.intro start.sound stop.sound
    have step := Exp.strideSound stride
    have name : (ofName .nameDef n).Sound := sound_ofName n rfl rfl
    have holds : NodeKind.numericForStat.holdsBlock = true := rfl
    have parts := formed_ended (p := key .forKw)
      ([ofName .nameDef n, key .assign, start.phrase, key .comma, stop.phrase]
        ++ Exp.stridePhrases stride ++ [key .doKw]) holds (by decide)
      (by simpa [bounds, name, or_imp, forall_and] using step) (Stat.formedAll body)
    simpa [Stat.phrase, loopBody] using parts
  | .genericFor n ns e es body => by
    have names : (group .nameList (commaList ((n :: ns).map (ofName .nameDef)))).Sound := by
      rw [List.map_cons]
      refine sound_commaGroup rfl rfl fun q mem => ?_
      rw [← List.map_cons] at mem
      obtain ⟨m, -, rfl⟩ := List.mem_map.mp mem
      exact sound_ofName m rfl rfl
    rw [List.map_cons] at names
    have values : (exprList (e.phrase :: Exp.phrases es)).Sound :=
      sound_commaGroup rfl rfl (List.forall_mem_cons.mpr ⟨e.sound, Exp.soundAll es⟩)
    exact formed_ended [_, key .inKw, _, key .doKw] rfl (by decide) (by simp [names, values])
      (Stat.formedAll body)
  | .break => formed_flat rfl (by simp)
  | .goto n => by
    have name : (ofName .name n).Sound := sound_ofName n rfl rfl
    exact formed_flat rfl (by simp [name])
  | .label n => by
    have name : (ofName .name n).Sound := sound_ofName n rfl rfl
    exact formed_flat rfl (by simp [name])
  | .assign target targets trailing e es => by
    have targetList : (group .varList
        (commaList (target.phrase :: Suffixed.phrases targets))).Sound :=
      sound_commaGroup rfl rfl
        (List.forall_mem_cons.mpr ⟨target.sound, Suffixed.soundAll targets⟩)
    have values : (exprList (e.phrase :: Exp.phrases es)).Sound :=
      sound_commaGroup rfl rfl (List.forall_mem_cons.mpr ⟨e.sound, Exp.soundAll es⟩)
    cases trailing <;> exact formed_flat rfl (by simp [targetList, values])
  | .call e args => by
    have called := sound_call e.sound args.sound
    exact formed_flat rfl (by simp [called])
  | .methodCall e n args => by
    have called := sound_methodCall n e.sound args.sound
    exact formed_flat rfl (by simp [called])

theorem Stat.formedAll : (ss : List Stat) → ∀ q ∈ Stat.phrases ss, q.IsStatement ∧ q.Formed
  | [] => fun _ mem => absurd mem List.not_mem_nil
  | s :: ss => List.forall_mem_cons.mpr ⟨⟨s.isStatement, s.formed⟩, Stat.formedAll ss⟩

theorem Exp.strideSound : (stride : Option Exp) → ∀ q ∈ Exp.stridePhrases stride, q.Sound
  | none => fun _ mem => absurd mem List.not_mem_nil
  | some e => by
    have step := e.sound
    simp [Exp.stridePhrases, step]

theorem Clauses.sound : (clauses : Clauses) → ∀ q ∈ clauses.phrases, q.Sound
  | .none => fun _ mem => absurd mem List.not_mem_nil
  | .else body => by
    intro q mem
    rw [List.mem_singleton.mp mem]
    exact sound_body [] [] rfl rfl (by simp)
      (fun _ _ mem => absurd mem List.not_mem_nil) (Stat.formedAll body)
  | .elseif condition body rest => by
    have inner := condition.sound
    have clauses := rest.sound
    intro q mem
    rcases List.mem_cons.mp mem with rfl | mem
    · exact sound_body [condition.phrase, key .thenKw] [] rfl rfl
        (by simp [inner]) (fun _ _ mem => absurd mem List.not_mem_nil) (Stat.formedAll body)
    · exact clauses q mem

end

end LuaTyping
