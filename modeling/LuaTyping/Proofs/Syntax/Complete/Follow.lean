import LuaTyping.Proofs.Syntax.Steps
import LuaTyping.Proofs.Syntax.Printed

/-!
# What may follow

Where the parser stops depends on the next token.  An expression stops before a token that starts
no suffix and is no operator that the expression would take; what a phrase begins with tells the
parser which form it is.

* `Exp.StopsBefore`: an expression read with a limit ends in front of these tokens.
* `Exp.starts`, `Stat.starts`: what expressions and statements begin with.
* `Solid.spans_cons`, `spans_group_cons`: a group among tokens, and what is behind it.
-/

namespace LuaTyping

open Phrase (key value ofName leaf exprList Spans commaTail commaList)

/-! ## Classes of tokens -/

namespace Token

/-- The token continues a suffixed expression. -/
def startsSuffix : Token → Bool
  | dot | leftBracket | colon | leftParen | quoted | longString | leftBrace => true
  | _ => false

/-- The token may start an expression. -/
def startsExpr (t : Token) : Bool :=
  t.isLiteral || t.isUnary || t == name || t == leftParen || t == leftBrace || t == functionKw

/-- No expression goes on with the token. -/
def endsExpr (t : Token) : Bool := !t.startsSuffix && t.binaryPowers.isNone

variable {t : Token} {l r : Nat}

theorem startsSuffix_of_binaryPowers (h : t.binaryPowers = some (l, r)) :
    t.startsSuffix = false := by
  cases t <;> first | rfl | simp [binaryPowers] at h

theorem ne_assign_of_binaryPowers (h : t.binaryPowers = some (l, r)) : t ≠ .assign := by
  rintro rfl
  simp [binaryPowers] at h

/-- The powers of an operator differ by one at most, and the left one is not zero. -/
theorem powers_bounds (h : t.binaryPowers = some (l, r)) : 0 < l ∧ r ≤ l ∧ l ≤ r + 1 := by
  cases t <;> simp [binaryPowers] at h <;> omega

/-- What binds looser than the right side of some operator binds looser than a unary operator. -/
theorem le_unaryPower {t' : Token} {l' r' : Nat} (h : t.binaryPowers = some (l, r))
    (h' : t'.binaryPowers = some (l', r')) (le : l ≤ r') : l ≤ unaryPower := by
  have upper : r' ≤ 13 := by
    cases t' <;> simp [binaryPowers] at h' <;> omega
  have gap : l ≤ 12 ∨ l = 14 := by
    cases t <;> simp [binaryPowers] at h <;> omega
  rw [unaryPower]
  omega

end Token

/-! ## Groups among tokens -/

namespace Phrase

variable {p : Phrase} {ps parts : List Phrase} {kind : NodeKind} {i j k : Nat}
  {ts us vs : List Token} {os : List Outline} {o : Outline}

theorem tokens_cons : tokens (p :: ps) = tokens [p] ++ tokens ps := by
  rw [← List.singleton_append, tokens_append]

theorem tokens_group : tokens [group kind parts] = tokens parts := by
  simp only [tokens, wordsOf, words, List.append_nil]

/-- A group in front of phrases has one outline. -/
theorem spans_group_cons :
    Spans (group kind parts :: ps) i ts os k vs ↔
      ∃ o j us os', Spans [group kind parts] i ts [o] j us ∧ Spans ps j us os' k vs
        ∧ os = o :: os' := by
  rw [spans_cons]
  constructor
  · rintro ⟨os₁, j, us, os₂, first, rest, rfl⟩
    obtain ⟨os', -, rfl⟩ := spans_group.mp first
    exact ⟨_, j, us, os₂, first, rest, rfl⟩
  · rintro ⟨o, j, us, os', first, rest, rfl⟩
    exact ⟨[o], j, us, os', first, rest, rfl⟩

theorem Solid.spans_cons (solid : p.Solid) :
    Spans (p :: ps) i ts os k vs ↔
      ∃ o j us os', Spans [p] i ts [o] j us ∧ Spans ps j us os' k vs ∧ os = o :: os' := by
  cases p with
  | word => exact absurd solid id
  | group => exact spans_group_cons

theorem Solid.words_pos (solid : p.Solid) : 0 < p.words.length := by
  cases p with
  | word => exact absurd solid id
  | group => exact solid

/-- A group alone has one outline. -/
theorem Solid.spans (solid : p.Solid) (h : Spans [p] i ts os k vs) : ∃ o, os = [o] := by
  obtain ⟨o, j, us, os', -, rest, rfl⟩ := solid.spans_cons.mp h
  obtain ⟨-, rfl, -⟩ := spans_nil.mp rest
  exact ⟨o, rfl⟩

/-- A node of one word in front of phrases. -/
theorem spans_leaf_cons {w : Word} (notStat : kind.isStatement = false) (notBlock : kind ≠ .block) :
    Spans (leaf kind w :: ps) i ts os k vs ↔
      ∃ ts' os', ts = w.token :: ts' ∧ Spans ps (i + 1) ts' os' k vs
        ∧ os = .leaf kind i :: os' := by
  rw [spans_cons]
  constructor
  · rintro ⟨os₁, j, us, os₂, first, rest, rfl⟩
    obtain ⟨rfl, rfl, rfl⟩ := (spans_leaf notStat notBlock).mp first
    exact ⟨us, os₂, rfl, rest, rfl⟩
  · rintro ⟨ts', os', rfl, rest, rfl⟩
    exact ⟨[.leaf kind i], i + 1, ts', os', (spans_leaf notStat notBlock).mpr ⟨rfl, rfl, rfl⟩, rest,
      rfl⟩

theorem spans_name_cons {n : Name} (notStat : kind.isStatement = false) (notBlock : kind ≠ .block) :
    Spans (ofName kind n :: ps) i ts os k vs ↔
      ∃ ts' os', ts = .name :: ts' ∧ Spans ps (i + 1) ts' os' k vs
        ∧ os = .leaf kind i :: os' := by
  rw [ofName, spans_leaf_cons notStat notBlock, n.isName]

/-- The outline of a group that is neither statement nor block. -/
theorem spans_node (notStat : kind.isStatement = false) (notBlock : kind ≠ .block) :
    Spans [group kind parts] i ts [o] j us ↔
      ∃ os, Spans parts i ts os j us
        ∧ o = .node kind (Mark.start i) (max (Mark.stopBefore j) (Mark.start i)) os := by
  rw [spans_plain notStat notBlock]
  simp only [List.cons.injEq, and_true]

theorem Plain.value (h : p.Plain) : (Phrase.value p).Plain :=
  plain_group rfl (by decide) h.words_pos

/-- The outline of a value node is made from that of what it wraps. -/
theorem Plain.spans_value (h : p.Plain) :
    Spans [Phrase.value p] i ts [o] j us ↔
      ∃ o', Spans [p] i ts [o'] j us ∧ o = o'.value := by
  constructor
  · intro spans
    obtain ⟨os, inner, -⟩ := (spans_node rfl (by decide)).mp spans
    obtain ⟨o', rfl⟩ := h.solid.spans inner
    have same := spans.outlines_eq.trans (inner.valueOf h).outlines_eq.symm
    exact ⟨o', inner, List.singleton_inj.mp same⟩
  · rintro ⟨o', inner, rfl⟩
    exact inner.valueOf h

/-- A word behind phrases. -/
theorem spans_concat_key {t : Token} :
    Spans (ps ++ [key t]) i ts os k us ↔ ∃ j, Spans ps i ts os j (t :: us) ∧ k = j + 1 := by
  rw [spans_append]
  constructor
  · rintro ⟨os₁, j, us', os₂, first, last, rfl⟩
    obtain ⟨rfl, rfl, rfl⟩ := spans_word.mp last
    rw [List.append_nil]
    exact ⟨j, first, rfl⟩
  · rintro ⟨j, first, rfl⟩
    exact ⟨os, j, t :: us, [], first, Spans.word t.word, (List.append_nil os).symm⟩

theorem spans_key_cons {t : Token} :
    Spans (key t :: ps) i ts os k vs ↔ ∃ ts', ts = t :: ts' ∧ Spans ps (i + 1) ts' os k vs :=
  spans_word_cons

end Phrase

/-! ## What forms begin with -/

/-- The first word of the phrase is the token. -/
def Phrase.Begins (p : Phrase) (t : Token) : Prop := ∃ ws, Phrase.tokens [p] = t :: ws

namespace Phrase.Begins

variable {p : Phrase} {ps : List Phrase} {t : Token} {i j : Nat} {ts us : List Token}
  {os : List Outline}

theorem word (w : Word) : (Phrase.word w).Begins w.token := ⟨[], rfl⟩

/-- A group begins with its first part. -/
theorem group (h : p.Begins t) (kind : NodeKind) (ps : List Phrase) :
    (Phrase.group kind (p :: ps)).Begins t := by
  obtain ⟨ws, eq⟩ := h
  refine ⟨ws ++ tokens ps, ?_⟩
  rw [tokens_group, tokens_cons, eq, List.cons_append]

theorem head (h : p.Begins t) (spans : Spans (p :: ps) i ts os j us) : ∃ ts', ts = t :: ts' := by
  obtain ⟨ws, eq⟩ := h
  refine ⟨ws ++ tokens ps ++ us, ?_⟩
  rw [spans.tokens_eq, tokens_cons, eq, List.cons_append, List.cons_append]

end Phrase.Begins

theorem Suffixed.starts (e : Suffixed) : ∃ t, e.phrase.Begins t ∧ (t = .name ∨ t = .leftParen) := by
  cases e with
  | name n => exact ⟨n.word.token, (Phrase.Begins.word n.word).group _ _, .inl n.isName⟩
  | paren _ => exact ⟨.leftParen, (Phrase.Begins.word _).group _ _, .inr rfl⟩
  | field e _ =>
    obtain ⟨t, begins, first⟩ := e.starts
    exact ⟨t, begins.group _ _, first⟩
  | index e _ =>
    obtain ⟨t, begins, first⟩ := e.starts
    exact ⟨t, begins.group _ _, first⟩
  | call e _ =>
    obtain ⟨t, begins, first⟩ := e.starts
    exact ⟨t, begins.group _ _, first⟩
  | method e _ _ =>
    obtain ⟨t, begins, first⟩ := e.starts
    exact ⟨t, (begins.group _ _).group _ _, first⟩

theorem Exp.starts (e : Exp) : ∃ t, e.phrase.Begins t ∧ t.startsExpr = true := by
  cases e with
  | literal text =>
    exact ⟨text.word.token, ((Phrase.Begins.word text.word).group _ _).group _ _,
      by simp [Token.startsExpr, text.isLiteral]⟩
  | table _ => exact ⟨.leftBrace, ((Phrase.Begins.word _).group _ _).group _ _, rfl⟩
  | function _ _ => exact ⟨.functionKw, ((Phrase.Begins.word _).group _ _).group _ _, rfl⟩
  | suffixed e =>
    obtain ⟨t, begins, first⟩ := e.starts
    refine ⟨t, begins.group _ _, ?_⟩
    rcases first with rfl | rfl <;> rfl
  | unary op _ =>
    exact ⟨op.word.token, ((Phrase.Begins.word op.word).group _ _).group _ _,
      by simp [Token.startsExpr, op.isUnary]⟩
  | binary left _ _ =>
    obtain ⟨t, begins, first⟩ := left.starts
    exact ⟨t, begins.group _ _, first⟩

theorem Args.starts (args : Args) : ∃ t, args.phrase.Begins t
    ∧ (t = .leftParen ∨ t = .quoted ∨ t = .longString ∨ t = .leftBrace) := by
  cases args with
  | list es => exact ⟨.leftParen, (Phrase.Begins.word _).group _ _, .inl rfl⟩
  | table fields =>
    exact ⟨.leftBrace, (((Phrase.Begins.word _).group _ _).group _ _).group _ _,
      .inr (.inr (.inr rfl))⟩
  | string text =>
    refine ⟨text.word.token, (((Phrase.Begins.word text.word).group _ _).group _ _).group _ _, ?_⟩
    have isString := text.isString
    generalize text.word.token = t at isString
    cases t with
    | quoted => exact .inr (.inl rfl)
    | longString => exact .inr (.inr (.inl rfl))
    | _ => exact absurd isString (by decide)

/-- No field begins with the brace that closes the table. -/
theorem Field.starts (f : Field) : ∃ t, f.phrase.Begins t ∧ t ≠ .rightBrace := by
  cases f with
  | keyed k v => exact ⟨.leftBracket, (Phrase.Begins.word _).group _ _, by decide⟩
  | named n v =>
    refine ⟨n.word.token, ((Phrase.Begins.word n.word).group _ _).group _ _, ?_⟩
    rw [n.isName]
    decide
  | positional v =>
    obtain ⟨t, begins, first⟩ := v.starts
    refine ⟨t, begins.group _ _, ?_⟩
    rintro rfl
    exact absurd first (by decide)

/-- No statement begins with a word that closes a block. -/
theorem Stat.starts (s : Stat) : ∃ t, s.phrase.Begins t ∧ t.endsBlock = false := by
  have suffixed (e : Suffixed) : ∃ t, e.phrase.Begins t ∧ t.endsBlock = false := by
    obtain ⟨t, begins, first⟩ := e.starts
    refine ⟨t, begins, ?_⟩
    rcases first with rfl | rfl <;> rfl
  cases s with
  | assign target targets trailing e es =>
    obtain ⟨t, begins, first⟩ := suffixed target
    exact ⟨t, (begins.group _ _).group _ _, first⟩
  | call e args =>
    obtain ⟨t, begins, first⟩ := suffixed e
    exact ⟨t, (begins.group _ _).group _ _, first⟩
  | methodCall e n args =>
    obtain ⟨t, begins, first⟩ := suffixed e
    exact ⟨t, ((begins.group _ _).group _ _).group _ _, first⟩
  | _ => exact ⟨_, (Phrase.Begins.word _).group _ _, rfl⟩

/-! ## The second token of an expression

A name in front of an equals sign is the key of a field, so no expression may begin like this.
-/

section Second

variable {i : Nat} {ts : List Token}

theorem Suffixed.second_ne_assign : (e : Suffixed) → {j : Nat} → {us : List Token} →
    {os : List Outline} → us.head? ≠ some .assign → Spans [e.phrase] i (.name :: ts) os j us →
      ts.head? ≠ some .assign
  | .name n, _, _, _, after, h => by
    obtain ⟨eq, -, -⟩ := (Phrase.spans_leaf rfl (by decide)).mp h
    rw [(List.cons.inj eq).2]
    exact after
  | .paren e, _, _, _, _, h => by
    obtain ⟨os, parts, -⟩ := (Phrase.spans_plain rfl (by decide)).mp h
    obtain ⟨ts, eq, -⟩ := Phrase.spans_key_cons.mp parts
    exact absurd (List.cons.inj eq).1 (by decide)
  | .field e n, _, _, _, _, h => by
    obtain ⟨os, parts, -⟩ := (Phrase.spans_plain rfl (by decide)).mp h
    obtain ⟨os₁, j, us, os₂, first, rest, -⟩ := Phrase.spans_cons.mp parts
    obtain ⟨us, rfl, -⟩ := Phrase.spans_key_cons.mp rest
    exact e.second_ne_assign (by simp) first
  | .index e k, _, _, _, _, h => by
    obtain ⟨os, parts, -⟩ := (Phrase.spans_plain rfl (by decide)).mp h
    obtain ⟨os₁, j, us, os₂, first, rest, -⟩ := Phrase.spans_cons.mp parts
    obtain ⟨us, rfl, -⟩ := Phrase.spans_key_cons.mp rest
    exact e.second_ne_assign (by simp) first
  | .call e args, _, _, _, _, h => by
    obtain ⟨os, parts, -⟩ := (Phrase.spans_plain rfl (by decide)).mp h
    obtain ⟨os₁, j, us, os₂, first, rest, -⟩ := Phrase.spans_cons.mp parts
    obtain ⟨t, begins, starts⟩ := args.starts
    obtain ⟨us, rfl⟩ := begins.head rest
    refine e.second_ne_assign ?_ first
    rcases starts with rfl | rfl | rfl | rfl <;> simp
  | .method e n args, _, _, _, _, h => by
    obtain ⟨os, parts, -⟩ := (Phrase.spans_plain rfl (by decide)).mp h
    obtain ⟨os₁, j, us, os₂, first, -, -⟩ := Phrase.spans_cons.mp parts
    obtain ⟨os, parts, -⟩ := (Phrase.spans_plain rfl (by decide)).mp first
    obtain ⟨os₁, j, us, os₂, first, rest, -⟩ := Phrase.spans_cons.mp parts
    obtain ⟨us, rfl, -⟩ := Phrase.spans_key_cons.mp rest
    exact e.second_ne_assign (by simp) first

theorem Exp.second_ne_assign : (e : Exp) → {j : Nat} → {us : List Token} →
    {os : List Outline} → us.head? ≠ some .assign → Spans [e.phrase] i (.name :: ts) os j us →
      ts.head? ≠ some .assign
  | .suffixed e, _, _, _, after, h => by
    obtain ⟨os, parts, -⟩ := (Phrase.spans_plain rfl (by decide)).mp h
    exact e.second_ne_assign after parts
  | .binary left op right, _, _, _, _, h => by
    obtain ⟨os, parts, -⟩ := (Phrase.spans_plain rfl (by decide)).mp h
    obtain ⟨os₁, j, us, os₂, first, rest, -⟩ := Phrase.spans_cons.mp parts
    obtain ⟨us, os, rfl, -, -⟩ := (Phrase.spans_leaf_cons rfl (by decide)).mp rest
    refine left.second_ne_assign ?_ first
    intro eq
    exact Token.ne_assign_of_binaryPowers op.powers (Option.some.inj eq)
  | .literal text, _, _, _, _, h => by
    obtain ⟨us, eq⟩ := (((Phrase.Begins.word text.word).group _ _).group _ _).head h
    have isLiteral := text.isLiteral
    rw [← (List.cons.inj eq).1] at isLiteral
    exact absurd isLiteral (by decide)
  | .table fields, _, _, _, _, h => by
    obtain ⟨us, eq⟩ := (((Phrase.Begins.word _).group _ _).group _ _).head h
    exact absurd (List.cons.inj eq).1 (by decide)
  | .function params body, _, _, _, _, h => by
    obtain ⟨us, eq⟩ := (((Phrase.Begins.word _).group _ _).group _ _).head h
    exact absurd (List.cons.inj eq).1 (by decide)
  | .unary op e, _, _, _, _, h => by
    obtain ⟨us, eq⟩ := (((Phrase.Begins.word op.word).group _ _).group _ _).head h
    have isUnary := op.isUnary
    rw [← (List.cons.inj eq).1] at isUnary
    exact absurd isUnary (by decide)

end Second

/-! ## What expressions end before -/

/-- No expression goes on with the next token. -/
def EndsExpr (us : List Token) : Prop := ∀ t ∈ us.head?, t.endsExpr = true

/-- The next token starts no suffix. -/
def EndsSuffix (us : List Token) : Prop := ∀ t ∈ us.head?, t.startsSuffix = false

theorem endsExpr_cons {t : Token} (us : List Token) (h : t.endsExpr = true) :
    EndsExpr (t :: us) := by
  intro t' mem
  obtain rfl := Option.some.inj mem
  exact h

theorem EndsExpr.suffix {us : List Token} (h : EndsExpr us) : EndsSuffix us := by
  intro t mem
  have ends := h t mem
  rw [Token.endsExpr, Bool.and_eq_true, Bool.not_eq_true'] at ends
  exact ends.1

/-- The next token is no operator that takes the end of the expression. -/
def Exp.EndsBefore (e : Exp) (us : List Token) : Prop :=
  ∀ t ∈ us.head?, ∀ l r, t.binaryPowers = some (l, r) → e.BareBefore l

/-- The expression, read with a limit, ends before the next token. -/
structure Exp.StopsBefore (e : Exp) (limit : Nat) (us : List Token) : Prop where
  suffix : EndsSuffix us
  bare : e.EndsBefore us
  limit : ∀ t ∈ us.head?, ∀ l r, t.binaryPowers = some (l, r) → l ≤ limit

theorem EndsExpr.stopsBefore {us : List Token} (h : EndsExpr us) (e : Exp) (limit : Nat) :
    e.StopsBefore limit us := by
  have none (t : Token) (mem : t ∈ us.head?) (l r : Nat) : t.binaryPowers ≠ some (l, r) := by
    intro powers
    have ends := h t mem
    rw [Token.endsExpr, powers] at ends
    simp at ends
  exact ⟨h.suffix, fun t mem l r powers => absurd powers (none t mem l r),
    fun t mem l r powers => absurd powers (none t mem l r)⟩

/-- What may stand behind an operator leaves to it what it leaves to others. -/
theorem Exp.BareBehind.bareBefore {e : Exp} {power l : Nat} (h : e.BareBehind power)
    (le : l ≤ power) (le' : l ≤ unaryPower) : e.BareBefore l := by
  cases e with
  | binary left op right =>
    have inner : power < op.left := h
    have bounds := Token.powers_bounds op.powers
    have : l ≤ op.right := by omega
    exact this
  | unary op e => exact le'
  | _ => trivial

/-- The left operand of an operator may stand wherever the operator may. -/
theorem Exp.BareBefore.bareBehind {e : Exp} {power l : Nat} (h : e.BareBefore l)
    (lt : power < l) : e.BareBehind power := by
  cases e with
  | binary left op right =>
    have inner : l ≤ op.right := h
    have bounds := Token.powers_bounds op.powers
    have : power < op.left := by omega
    exact this
  | _ => trivial

/-- Every expression may be read without a limit. -/
theorem Exp.bareBehind_zero (e : Exp) : e.BareBehind 0 := by
  cases e with
  | binary left op right => exact (Token.powers_bounds op.powers).1
  | _ => trivial

end LuaTyping
