import LuaTyping.Proofs.Syntax.Grouping
import LuaTyping.Proofs.Syntax.Makes
import LuaTyping.Proofs.Syntax.Total.Program

/-!
# Climbing the powers

Whatever the tokens are, an expression that is read with a limit is grouped as its operators
prescribe.  Two things are known where the reading ends.  The next token is no binary operator with
a left power above the limit; and if it is a binary operator at all, the expression is not torn open
by it.  The second says why the reading inside the expression ended, and it is what the operation
around needs that takes the expression as its left operand: to know that an inner reading would have
gone on, one looks at the token at which it has stopped.

Where tokens are dropped because of the nesting, none are left, so nothing is torn open there.

* `Outline.Groups`, `Outline.Settled`: the grouping of an outline, and that all operations in it are
  grouped as prescribed.
* `Outline.Climbed`, `EndsAt`: what is known at the end of an expression.
* `Grammar.yields_climbed`: it is known of every expression over a level for which it is.
* `Program.settled`: all operations of a program are grouped as prescribed.
-/

namespace LuaTyping

/-! ## The grouping of an outline -/

namespace Outline

/-- The grouping of an outline over tokens. -/
inductive Groups (tokens : List Token) : Outline → Grouping → Prop
  | operand {kind : NodeKind} {first last : Nat} {cs : List Outline} :
    kind.isOperation = false → Groups tokens (.node kind first last cs) .operand
  | unary {first last i : Nat} {e : Outline} {g : Grouping} : Groups tokens e g →
    Groups tokens (.node .unaryExpr first last [.leaf .operator i, e]) (.unary g)
  | binary {first last i l r : Nat} {left right : Outline} {g h : Grouping} :
    tokens[i]?.bind Token.binaryPowers = some (l, r) → Groups tokens left g →
    Groups tokens right h →
    Groups tokens (.node .binaryExpr first last [left, .leaf .operator i, right]) (.binary l r g h)

/-- All operations in the outline are grouped as prescribed. -/
inductive Settled (tokens : List Token) : Outline → Prop
  | doc (i : Nat) : Settled tokens (.doc i)
  | node {kind : NodeKind} {first last : Nat} {cs : List Outline} :
    (kind.isOperation = true →
      ∃ g, Groups tokens (.node kind first last cs) g ∧ g.Prescribed) →
    (∀ c ∈ cs, Settled tokens c) → Settled tokens (.node kind first last cs)

/-- An operation in a settled outline has a prescribed grouping. -/
theorem Settled.exists_groups {tokens : List Token} {o : Outline} (h : o.Settled tokens)
    (operation : o.kind.isOperation = true) : ∃ g, o.Groups tokens g ∧ g.Prescribed := by
  cases h with
  | doc => cases operation
  | node grouped => exact grouped operation

/-- What is no operation is settled if its children are. -/
theorem Settled.of_children {tokens : List Token} {kind : NodeKind} {first last : Nat}
    {cs : List Outline} (plain : kind.isOperation = false) (all : ∀ c ∈ cs, Settled tokens c) :
    Settled tokens (.node kind first last cs) :=
  .node (fun operation => absurd (plain.symm.trans operation) Bool.false_ne_true) all

theorem plain_settled (tokens : List Token) : Plain (Settled tokens) where
  node plain all := .of_children (NodeKind.isOperation_of_isPlain plain) all

end Outline

/-! ## The end of an expression -/

/-- The powers of the next token, if it is a binary operator. -/
def nextPowers? (rest : List Token) : Option (Nat × Nat) := rest.head?.bind Token.binaryPowers

/-- The next token is no binary operator above the limit. -/
def EndsAt (limit : Nat) (rest : List Token) : Prop :=
  ∀ l r, nextPowers? rest = some (l, r) → l ≤ limit

/-- The outline is grouped as prescribed, with the operators at its left end above the limit, and is
not torn open by the next token. -/
def Outline.Climbed (tokens : List Token) (limit : Nat) (rest : List Token) (e : Outline) : Prop :=
  e.Settled tokens ∧ ∃ g, e.Groups tokens g ∧ g.Prescribed ∧ g.LeftFrom (limit + 1) ∧
    ∀ l r, nextPowers? rest = some (l, r) → g.RightFrom l

/-- The readers of the level do not go astray, and the operations in what they make are grouped as
prescribed. -/
structure Level.Climbs (tokens : List Token) (L : Level Sketch Outline) : Prop where
  total : L.Total
  expr : ∀ limit c, (Cursor.start tokens ⟨⟩).Leads c →
    (L.expr limit).Yields c fun e d => e.Climbed tokens limit d.rest ∧ EndsAt limit d.rest
  stat : ∀ known, L.stat.Makes tokens known (Outline.Settled tokens)

/-- A block is settled if its statements are. -/
theorem Grammar.makes_block_settled {tokens : List Token} {known : List Fault}
    {L : Level Sketch Outline}
    (stat : L.stat.Makes tokens known (Outline.Settled tokens)) :
    (block L).Makes tokens known (Outline.Settled tokens) := by
  have plain := Outline.plain_settled tokens
  have wrapped (os : List Outline) (first : Nat) (all : ∀ o ∈ os, o.Settled tokens) :
      (Outline.wrap .block os.reverse first).Settled tokens := by
    rw [Outline.wrap_eq]
    exact .of_children rfl (forall_mem_reverse all)
  refine .skip fun first => .bind (R := fun os => ∀ o ∈ os, o.Settled tokens) ?_ fun os all =>
    Step.wrap_eq .block os.reverse first ▸ .pure (wrapped os first all)
  refine .iterate (fun done all => .skip fun ends => ?_) (List.forall_mem_nil _)
  split
  · exact .pure all
  · refine .skip fun before => stat.bind fun o made => .skip fun behind => ?_
    have all := List.forall_mem_cons.mpr ⟨made, all⟩
    split
    · refine .skip fun _ => (Step.makes_leaf plain rfl).bind fun dropped made => .pure ?_
      exact List.forall_mem_cons.mpr ⟨made, all⟩
    · exact .pure all

theorem Level.Climbs.makes {tokens : List Token} {known : List Fault} {L : Level Sketch Outline}
    (h : L.Climbs tokens) : L.Makes tokens known (Outline.Settled tokens) where
  expr limit c leads _ := (h.expr limit c leads).2.1.1
  block := Grammar.makes_block_settled (h.stat known)

namespace Outline.Climbed

variable {tokens rest rest' : List Token} {limit l r i : Nat} {e left right : Outline}

/-- What is no operation is not torn open. -/
theorem operand {kind : NodeKind} {first last : Nat} {cs : List Outline}
    (settled : (node kind first last cs).Settled tokens) (plain : kind.isOperation = false) :
    Climbed tokens limit rest (node kind first last cs) :=
  ⟨settled, .operand, .operand plain, trivial, trivial, fun _ _ _ => trivial⟩

/-- The operand of a unary operator is read with its power as the limit, so what ends the operand
has no larger power. -/
theorem unary (h : e.Climbed tokens unaryPower rest) (ends : EndsAt unaryPower rest) :
    Climbed tokens limit rest (.join .unaryExpr (.leaf .operator i) e [.leaf .operator i, e]) := by
  obtain ⟨settled, g, groups, prescribed, front, behind⟩ := h
  have operator : (leaf .operator i).Settled tokens := (plain_settled tokens).leaf rfl i
  refine ⟨.node (fun _ => ⟨_, .unary groups, front, prescribed⟩) ?_, _, .unary groups,
    ⟨front, prescribed⟩, trivial, fun l r next => ⟨ends l r next, behind l r next⟩⟩
  simp [settled, operator]

/-- A binary operator leaves its left operand whole, and its right operand is read with its right
power as the limit. -/
theorem binary (h : left.Climbed tokens limit rest) (powers : nextPowers? rest = some (l, r))
    (here : tokens[i]?.bind Token.binaryPowers = some (l, r)) (above : limit < l)
    (h' : right.Climbed tokens r rest') (ends : EndsAt r rest') :
    Climbed tokens limit rest'
      (.join .binaryExpr left right [left, .leaf .operator i, right]) := by
  obtain ⟨settled, g, groups, prescribed, front, behind⟩ := h
  obtain ⟨settled', g', groups', prescribed', front', behind'⟩ := h'
  have grouped : (Grouping.binary l r g g').Prescribed :=
    ⟨⟨behind l r powers, prescribed⟩, front', prescribed'⟩
  have operator : (leaf .operator i).Settled tokens := (plain_settled tokens).leaf rfl i
  refine ⟨.node (fun _ => ⟨_, .binary here groups groups', grouped⟩) ?_, _,
    .binary here groups groups', grouped, ⟨above, front⟩,
    fun l' r' next => ⟨ends l' r' next, behind' l' r' next⟩⟩
  simp [settled, settled', operator]

end Outline.Climbed

/-! ## Expressions -/

namespace Step

variable {α : Type} {p : Step Sketch α} {c : Cursor Sketch} {Q : α → Cursor Sketch → Prop}

/-- What is made whatever is wrong. -/
theorem Yields.of_makes {tokens : List Token} {S : α → Prop} (h : p.Yields c Q)
    (makes : ∀ known, p.Makes tokens known S) (leads : (Cursor.start tokens ⟨⟩).Leads c) :
    p.Yields c fun a _ => S a := ⟨h.1, makes _ c leads (List.suffix_refl _)⟩

theorem rest_cutOff (c : Cursor Sketch) : (cutOff c).val.2.rest = [] := by
  rw [cutOff_val, drop]
  split <;> rfl

end Step

namespace Grammar

open Outline (Climbed Inner plain_settled)
open Step (yields_leaf rest_ne_nil)

variable {tokens : List Token} {L : Level Sketch Outline} {limit : Nat} {c : Cursor Sketch}
    {left : Outline}

theorem yields_simpleExpr_climbed (hL : L.Climbs tokens)
    (leads : (Cursor.start tokens ⟨⟩).Leads c) :
    (simpleExpr L).Yields c fun e d => e.Climbed tokens limit d.rest := by
  have makes (known : List Fault) : (simpleExpr L).Makes tokens known _ :=
    makes_simpleExpr (plain_settled tokens) hL.makes
  refine ((yields_simpleExpr hL.total c).of_makes makes leads).mono fun e d _ made => ?_
  obtain ⟨settled, kind, first, last, cs, rfl, plain⟩ := made
  exact .operand settled (NodeKind.isOperation_of_isPlain plain)

theorem yields_operand_climbed (hL : L.Climbs tokens) (limit : Nat)
    (leads : (Cursor.start tokens ⟨⟩).Leads c) :
    (operand L).Yields c fun e d => e.Climbed tokens limit d.rest := by
  refine .peek_bind ?_
  split
  · next next =>
    split
    · refine (yields_leaf .operator (rest_ne_nil next)).bind fun op d leads' read => ?_
      obtain ⟨rfl, -, -⟩ := read
      exact (hL.expr unaryPower d (leads.trans leads')).bind fun e k _ h => .join (h.1.unary h.2)
    · exact yields_simpleExpr_climbed hL leads
  · exact yields_simpleExpr_climbed hL leads

theorem yields_climb_climbed (hL : L.Climbs tokens) (leads : (Cursor.start tokens ⟨⟩).Leads c)
    (h : left.Climbed tokens limit c.rest) :
    (climb L limit left).Yields c fun x d =>
      x.1.Climbed tokens limit d.rest ∧ (x.2 = false → EndsAt limit d.rest) := by
  refine .peek_bind ?_
  split
  · next l r powers =>
    obtain ⟨t, next, own⟩ := Option.bind_eq_some_iff.mp powers
    split
    · next le =>
      refine .pure ⟨h, fun _ l' r' powers' => ?_⟩
      obtain ⟨rfl, rfl⟩ : l = l' ∧ r = r' := by simpa using powers.symm.trans powers'
      exact le
    · next above =>
      have here : tokens[c.pos]?.bind Token.binaryPowers = some (l, r) := by
        rw [leads.of_start.1, List.head?_drop] at next
        rw [next]
        exact own
      refine (yields_leaf .operator (rest_ne_nil next)).bind fun op d leads' read => ?_
      obtain ⟨rfl, -, -⟩ := read
      refine (hL.expr r d (leads.trans leads')).bind fun right k _ h' =>
        .join_bind (.pure ⟨?_, nofun⟩)
      exact h.binary powers here (Nat.lt_of_not_le above) h'.1 h'.2
  · next none =>
    refine .pure ⟨h, fun _ l r powers => ?_⟩
    rw [nextPowers?, none] at powers
    cases powers

/-- An expression that is read with a limit is grouped as its operators prescribe, is not torn open
by the next token, and ends at what is not above the limit. -/
theorem yields_climbed (hL : L.Climbs tokens) (limit : Nat)
    (leads : (Cursor.start tokens ⟨⟩).Leads c) :
    (expression L limit).Yields c fun e d =>
      e.Climbed tokens limit d.rest ∧ EndsAt limit d.rest := by
  refine .bind ((yields_operand hL.total c).and (yields_operand_climbed hL limit leads))
    fun left d leads' start => ?_
  refine .iterate (I := fun e k => Inner c.pos k.pos e ∧ e.Climbed tokens limit k.rest)
    (fun e k leads'' held => ?_) start
  have from_start := leads.trans (leads'.trans leads'')
  refine ((yields_climb hL.total held.1).and (yields_climb_climbed hL from_start held.2)).mono
    fun x m _ h => ?_
  split
  · next again => exact ⟨h.1.1 again, h.1.2, h.2.1⟩
  · next last => exact ⟨h.2.1, h.2.2 (Bool.eq_false_iff.mpr last)⟩

/-- A statement is settled if the operations in its parts are grouped as prescribed. -/
theorem makes_statement_settled {known : List Fault} (hL : L.Climbs tokens) :
    (statement L).Makes tokens known (Outline.Settled tokens) := by
  refine Step.makes_doc fun i =>
    (makes_form (plain_settled tokens) hL.makes).bind fun f made _ _ _ => ?_
  refine .of_children ?_ (List.forall_mem_cons.mpr ⟨.doc i, made.2⟩)
  have form := made.1
  generalize f.1 = kind at form
  cases kind <;> first
    | rfl
    | exact absurd form Bool.false_ne_true

theorem level_climbs (tokens : List Token) (n : Nat) : (level n).Climbs tokens := by
  induction n with
  | zero =>
    refine ⟨level_total 0, fun limit c _ => ⟨(Step.yields_cutOff (c := c)).1, ?_⟩,
      fun _ => Step.makes_cutOff (plain_settled tokens)⟩
    have none : nextPowers? (Step.cutOff c).val.2.rest = Option.none := by
      rw [Step.rest_cutOff]
      rfl
    have dropped := (Step.yields_cutOff (c := c)).2
    refine ⟨?_, fun l r powers => ?_⟩
    · show Climbed tokens limit _ (Step.cutOff c).val.1
      rw [dropped]
      exact .operand ((plain_settled tokens).empty rfl _) rfl
    · exact absurd (none.symm.trans powers) nofun
  | succ n ih =>
    exact ⟨level_total (n + 1), fun limit c leads => yields_climbed ih limit leads,
      fun _ => makes_statement_settled ih⟩

end Grammar

/-- All operations of a program are grouped as prescribed, whatever its tokens are and however deep
it is nested. -/
theorem Program.settled (limit : Nat) (tokens : List Token) :
    (Program.ofTokens limit tokens).body.Settled tokens := by
  have climbs := Grammar.level_climbs tokens limit
  have chunk (known : List Fault) :
      (Grammar.chunk limit).Makes tokens known (Outline.Settled tokens) :=
    climbs.makes.block.bind fun _ made => .skip fun _ => .pure made
  exact chunk _ _ (.refl _) (List.suffix_refl _)

end LuaTyping
