import LuaTyping.Proofs.Syntax.Sketch
import LuaTyping.Proofs.Syntax.Spread
import LuaTyping.Proofs.Syntax.Yields

/-!
# The number of nodes, and the parts of functions

Most nodes stand for tokens, but not all: lists and blocks may be empty, what is missing leaves an
error node, a statement has a doc slot, and operands are wrapped in nodes of their own.  Still no
production makes more than a few nodes that are not paid for by the tokens it reads, if every token
pays for eight.  What is left over is a constant for each production, its *debt*, which is negative
where tokens pay for more than is made.

The same pass over the productions says what a function is made of: a list of parameters, each of
which is a single token, and a block.

None of this is true of a step that goes astray, and none of the steps of a program does.  So the
steps here are only looked at as far as they do not.

* `Step.Ends`: what is true where a step ends, unless it goes astray.
* `Outline.Bodied`: functions have their parts.
* `Outline.Charged`: outlines are charged to tokens, up to a debt.
* `Level.Frugal`: the debts of the readers of a level.
* `Grammar.charged_block`, `Grammar.charged_funcBody`: the debts of blocks and functions.
-/

namespace LuaTyping

namespace Step

variable {α β σ : Type} {p : Step Sketch α} {f : α → Step Sketch β}
    {body : σ → Step Sketch (σ × Bool)} {c : Cursor Sketch}
  {t : Token} {e : Expectation} {kind : NodeKind}

/-- Unless the step goes astray from `c`, `Q` holds of its answer and its end. -/
def Ends (p : Step Sketch α) (c : Cursor Sketch) (Q : α → Cursor Sketch → Prop) : Prop :=
  (p c).val.2.astray = false → Q (p c).val.1 (p c).val.2

theorem Yields.ends {Q : α → Cursor Sketch → Prop} (h : p.Yields c Q) : p.Ends c Q := fun _ => h.2

namespace Ends

variable {Q R : α → Cursor Sketch → Prop} {Q' : β → Cursor Sketch → Prop}

theorem pure {a : α} (h : Q a c) : (Pure.pure a : Step Sketch α).Ends c Q := fun _ => h

theorem mono (h : p.Ends c R) (weaker : ∀ a d, c.Leads d → R a d → Q a d) : p.Ends c Q :=
  fun straight => weaker _ _ (p c).property (h straight)

/-- What is not astray in the end is not astray on the way. -/
theorem bind (first : p.Ends c R) (next : ∀ a d, c.Leads d → R a d → (f a).Ends d Q') :
    (p >>= f).Ends c Q' := by
  intro straight
  have between : (p c).val.2.astray = false := Bool.eq_false_iff.mpr fun astray =>
    absurd ((f (p c).val.1 (p c).val.2).property.stays astray) (Bool.eq_false_iff.mp straight)
  exact next _ _ (p c).property (first between) straight

/-- A step of which nothing need be known. -/
theorem skip (next : ∀ a d, c.Leads d → (f a).Ends d Q') : (p >>= f).Ends c Q' :=
  bind (R := fun _ _ => True) (fun _ => trivial) fun a d leads _ => next a d leads

theorem map_bind {γ : Type} {g : α → γ} {f : γ → Step Sketch β} (first : p.Ends c R)
    (next : ∀ a d, c.Leads d → R a d → (f (g a)).Ends d Q') : (g <$> p >>= f).Ends c Q' := by
  have mapped : (g <$> p).Ends c fun x d => ∃ a, x = g a ∧ R a d :=
    bind first fun a _ _ h => pure ⟨a, rfl, h⟩
  refine mapped.bind fun x d leads h => ?_
  obtain ⟨a, rfl, h⟩ := h
  exact next a d leads h

/-- What every round keeps that asks for another one, and what the last round comes to.  A round
that asks for another one has read something, or it goes astray. -/
theorem iterate {I Q : σ → Cursor Sketch → Prop} {s : σ}
    (round : ∀ s d, c.Leads d → I s d →
      (body s).Ends d fun r e => if r.2 = true then d.pos < e.pos → I r.1 e else Q r.1 e)
    (init : I s c) : (Step.iterate body s).Ends c Q := by
  suffices from_here : ∀ n s d, d.rest.length = n → c.Leads d → I s d →
      (Step.iterate body s).Ends d Q from from_here _ s c rfl (.refl c) init
  intro n
  induction n using Nat.strongRecOn with
  | ind n ih =>
    intro s d size leads inv
    have holds := round s d leads inv
    have step := (body s d).property
    rw [Ends] at holds ⊢
    rw [iterate_val]
    by_cases again : (body s d).val.1.2 = true
    · rw [if_pos again] at holds
      by_cases moved : d.pos < (body s d).val.2.pos
      · rw [if_pos ⟨again, moved⟩]
        intro straight
        have shorter : (body s d).val.2.rest.length < n := by
          have := step.length_rest
          omega
        have between : (body s d).val.2.astray = false := Bool.eq_false_iff.mpr fun astray =>
          absurd ((Step.iterate body _ _).property.stays astray) (Bool.eq_false_iff.mp straight)
        exact ih _ shorter _ _ rfl (leads.trans step) (holds between moved) straight
      · rw [if_neg fun h => moved h.2, if_pos again]
        exact fun straight => absurd straight.symm Bool.false_ne_true
    · rw [if_neg again] at holds
      rw [if_neg fun h => again h.1, if_neg again]
      exact holds

/-- What every round keeps holds at the end. -/
theorem iterate_inv {I : σ → Cursor Sketch → Prop} {s : σ}
    (round : ∀ s d, c.Leads d → I s d → (body s).Ends d fun r e => I r.1 e)
    (init : I s c) : (Step.iterate body s).Ends c I := by
  refine iterate (fun s d leads inv => (round s d leads inv).mono fun r e _ h => ?_) init
  split
  · exact fun _ => h
  · exact h

/-- What follows a step that only looks. -/
theorem here_bind {f : Nat → Step Sketch β} (h : (f (Mark.start c.pos)).Ends c Q') :
    (here >>= f).Ends c Q' := h

theorem position_bind {f : Nat → Step Sketch β} (h : (f c.pos).Ends c Q') :
    (position >>= f).Ends c Q' := h

theorem peek_bind {f : Option Token → Step Sketch β} (h : (f c.rest.head?).Ends c Q') :
    (peek >>= f).Ends c Q' := h

theorem finish {first : Nat} {children : List Outline} {Q : Outline → Cursor Sketch → Prop}
    (h : Q (.node kind first (max (Mark.stopBefore c.pos) first) children) c) :
    (Step.finish kind first children).Ends c Q := fun _ => h

theorem finish_bind {first : Nat} {children : List Outline} {f : Outline → Step Sketch β}
    (h : (f (.node kind first (max (Mark.stopBefore c.pos) first) children)).Ends c Q') :
    (Step.finish kind first children >>= f).Ends c Q' := h

theorem startOf_bind {o : Outline} {f : Nat → Step Sketch β} (h : (f o.first).Ends c Q') :
    (startOf o >>= f).Ends c Q' := h

theorem kindOf_bind {o : Outline} {f : NodeKind → Step Sketch β} (h : (f o.kind).Ends c Q') :
    (kindOf o >>= f).Ends c Q' := h

theorem doc_bind {f : Nat × List Outline → Step Sketch β}
    (h : (f (Mark.doc c.pos, [.doc c.pos])).Ends c Q') : (doc >>= f).Ends c Q' := h

theorem wrap {mark : Nat} {children : List Outline} {Q : Outline → Cursor Sketch → Prop}
    (h : Q (.wrap kind children mark) c) : (Step.wrap kind children mark).Ends c Q := by
  rw [wrap_eq]
  exact .pure h

theorem wrap_bind {mark : Nat} {children : List Outline} {f : Outline → Step Sketch β}
    (h : (f (.wrap kind children mark)).Ends c Q') :
    (Step.wrap kind children mark >>= f).Ends c Q' := by
  rw [wrap_eq]
  exact h

theorem valueOf {o : Outline} {Q : Outline → Cursor Sketch → Prop} (h : Q o.value c) :
    (Grammar.valueOf o).Ends c Q := fun _ => h

theorem valueOf_bind {o : Outline} {f : Outline → Step Sketch β} (h : (f o.value).Ends c Q') :
    (Grammar.valueOf o >>= f).Ends c Q' := h

theorem join {x y : Outline} {children : List Outline} {Q : Outline → Cursor Sketch → Prop}
    (h : Q (.join kind x y children) c) : (Step.join kind x y children).Ends c Q := fun _ => h

theorem join_bind {x y : Outline} {children : List Outline} {f : Outline → Step Sketch β}
    (h : (f (.join kind x y children)).Ends c Q') :
    (Step.join kind x y children >>= f).Ends c Q' := h

theorem empty {mark : Nat} {Q : Outline → Cursor Sketch → Prop} (h : Q (.empty kind mark) c) :
    (Step.empty kind mark).Ends c Q := fun _ => h

end Ends

/-- A token is read, or the step goes astray. -/
theorem ends_bump : bump.Ends c fun _ d => d.pos = c.pos + 1 := by
  obtain ⟨pos, ts, faults, cut, reported, ended, astray, made⟩ := c
  cases ts with
  | nil => exact fun straight => absurd straight.symm Bool.false_ne_true
  | cons t ts => exact fun _ => rfl

theorem ends_leaf (kind : NodeKind) :
    (leaf kind).Ends c fun o d => o = .leaf kind c.pos ∧ d.pos = c.pos + 1 := by
  rw [leaf_eq]
  exact .position_bind (ends_bump.bind fun _ _ _ moved => .pure ⟨rfl, moved⟩)

end Step

/-! ## The parts of functions -/

namespace Outline

/-- A list of parameters, which are single tokens, and a block. -/
def IsFunction (parts : List Outline) : Prop :=
  ∃ first last params body, parts = [.node .paramList first last params, body]
    ∧ body.kind = .block
    ∧ ∀ p ∈ params, ∃ kind i, p = .leaf kind i ∧ (kind = .paramDef ∨ kind = .literal)

mutual

/-- All functions in the outline have their parts. -/
def Bodied : Outline → Prop
  | doc _ => True
  | node kind _ _ children => (kind = .funcBody → IsFunction children) ∧ BodiedAll children
termination_by structural o => o

/-- All functions in the outlines have their parts. -/
def BodiedAll : List Outline → Prop
  | [] => True
  | o :: os => o.Bodied ∧ BodiedAll os
termination_by structural os => os

end

theorem bodiedAll_iff {os : List Outline} : BodiedAll os ↔ ∀ o ∈ os, o.Bodied := by
  induction os with
  | nil => exact iff_of_true trivial (List.forall_mem_nil _)
  | cons o os ih => rw [BodiedAll, ih, List.forall_mem_cons]

/-- What is no function has the parts of functions in its children only. -/
theorem Bodied.node {kind : NodeKind} {first last : Nat} {children : List Outline}
    (other : kind ≠ .funcBody) (h : ∀ o ∈ children, o.Bodied) :
    (Outline.node kind first last children).Bodied :=
  ⟨fun function => absurd function other, bodiedAll_iff.mpr h⟩

/-! ## The number of nodes -/

@[simp] theorem sizeList_append (os ps : List Outline) :
    sizeList (os ++ ps) = sizeList os + sizeList ps := by
  induction os with
  | nil => rw [List.nil_append, sizeList, Nat.zero_add]
  | cons o os ih => rw [List.cons_append, sizeList, sizeList, ih, Nat.add_assoc]

@[simp] theorem sizeList_reverse (os : List Outline) : sizeList os.reverse = sizeList os := by
  induction os with
  | nil => rfl
  | cons o os ih =>
    rw [List.reverse_cons, sizeList_append, ih, sizeList, sizeList, sizeList, Nat.add_zero,
      Nat.add_comm]

/-- Functions have their parts, and the nodes are charged to the tokens from `i` up to `j`, eight to
a token, but for those that are owed. -/
structure Charged (debt : Int) (i j : Nat) (os : List Outline) : Prop where
  bodied : ∀ o ∈ os, o.Bodied
  cost : (sizeList os : Int) + 8 * i ≤ 8 * j + debt

namespace Charged

variable {a b : Int} {i j k m : Nat} {kind : NodeKind} {os done ps : List Outline}

/-- Other tokens may pay if they pay no less. -/
theorem mono (h : Charged a i j os) (pay : 8 * (j : Int) + a + 8 * k ≤ 8 * m + b + 8 * i) :
    Charged b k m os := by
  have cost := h.cost
  exact ⟨h.bodied, by omega⟩

theorem nil (i : Nat) : Charged 0 i i [] := ⟨List.forall_mem_nil _, by rw [sizeList]; omega⟩

/-- The tokens between two rows pay too. -/
theorem append (h : Charged a i j os) (h' : Charged b k m ps) :
    Charged (a + b + 8 * j - 8 * k) i m (os ++ ps) := by
  have cost := h.cost
  have cost' := h'.cost
  refine ⟨List.forall_mem_append.mpr ⟨h.bodied, h'.bodied⟩, ?_⟩
  rw [sizeList_append]
  omega

/-- Rows are kept in reverse order while they grow. -/
theorem push (h : Charged a i j done) (h' : Charged b k m ps) :
    Charged (a + b + 8 * j - 8 * k) i m (ps ++ done) := by
  have cost := h.cost
  have cost' := h'.cost
  refine ⟨List.forall_mem_append.mpr ⟨h'.bodied, h.bodied⟩, ?_⟩
  rw [sizeList_append]
  omega

theorem reverse (h : Charged a i j os) : Charged a i j os.reverse :=
  ⟨fun o mem => h.bodied o (List.mem_reverse.mp mem), by rw [sizeList_reverse]; exact h.cost⟩

/-- A node over what is charged already. -/
theorem node {first last : Nat} (other : kind ≠ .funcBody) (h : Charged a i j os) :
    Charged (a + 1) i j [.node kind first last os] := by
  have cost := h.cost
  refine ⟨List.forall_mem_singleton.mpr (.node other h.bodied), ?_⟩
  rw [sizeList, sizeList, size]
  omega

theorem doc (i : Nat) : Charged 1 i i [.doc i] :=
  ⟨List.forall_mem_singleton.mpr trivial, by rw [sizeList, sizeList, size]; omega⟩

theorem leaf (other : kind ≠ .funcBody) (i : Nat) : Charged (-7) i (i + 1) [.leaf kind i] :=
  ((nil i).node other).mono (by omega)

theorem wrap (other : kind ≠ .funcBody) (h : Charged a i j os) (fallback : Nat) :
    Charged (a + 1) i j [.wrap kind os fallback] := by
  rw [wrap_eq]
  exact h.node other

/-- A name that may be missing owes nothing. -/
theorem name {c d : Cursor Sketch} {x : Option Outline} (other : kind ≠ .funcBody)
    (read : (x = none ∧ d.pos = c.pos) ∨ (x = some (.leaf kind c.pos) ∧ d.pos = c.pos + 1)) :
    Charged 0 c.pos d.pos x.toList := by
  obtain ⟨rfl, pos⟩ | ⟨rfl, pos⟩ := read
  · exact (nil c.pos).mono (by omega)
  · exact (leaf other _).mono (by omega)

end Charged

end Outline

/-! ## Levels -/

open Outline (Charged)

/-- What the readers of the level owe: an expression owes one node, and a statement two, or none if
it has read anything. -/
structure Level.Frugal (L : Level Sketch Outline) : Prop where
  expr : ∀ limit c, (L.expr limit).Ends c fun o d => Charged 1 c.pos d.pos [o]
  stat : ∀ c, L.stat.Ends c fun o d =>
    Charged 2 c.pos d.pos [o] ∧ (c.pos < d.pos → Charged 0 c.pos d.pos [o])

namespace Grammar

open Step (yields_accept yields_expect yields_leafOf? ends_bump ends_leaf)

variable {L : Level Sketch Outline} {debt : Int} {i : Nat} {c : Cursor Sketch} {done : List Outline}

theorem charged_commaItems {item : Step Sketch Outline}
    (items : ∀ c, item.Ends c fun o d => Charged 1 c.pos d.pos [o])
    (row : Charged debt i c.pos done) :
    (commaItems item done).Ends c fun out d => Charged debt i d.pos out := by
  refine .iterate_inv (I := fun done d => Charged debt i d.pos done) (fun done d _ row => ?_) row
  refine (yields_accept .comma).ends.bind fun comma e _ read => ?_
  cases comma with
  | true =>
    have pos : e.pos = d.pos + 1 := read.1
    -- the comma pays for the node that the item owes
    exact (items e).bind fun o g _ item => .pure ((row.push item).mono (by omega))
  | false =>
    have pos : e.pos = d.pos := read.1
    exact .pure (row.mono (by omega))

theorem charged_exprList (hL : L.Frugal) (c : Cursor Sketch) :
    (exprList L).Ends c fun o d => Charged 2 c.pos d.pos [o] := by
  refine .here_bind ((hL.expr 0 c).bind fun o d _ first => ?_)
  refine (charged_commaItems (hL.expr 0) first).bind fun es e _ row => .wrap ?_
  exact row.reverse.wrap (by decide) _

/-- Where a statement has read nothing, the token that is dropped pays for it. -/
theorem charged_blockItem (hL : L.Frugal) (row : Charged 0 i c.pos done) :
    (blockItem L done).Ends c fun r d => Charged 0 i d.pos r.1 := by
  refine .skip fun ends d leads => ?_
  have le := leads.pos_le
  have row : Charged 0 i d.pos done := row.mono (by omega)
  split
  · exact .pure row
  · refine .position_bind ((hL.stat d).bind fun s e leads' stat => .position_bind ?_)
    have le := leads'.pos_le
    split
    · next same =>
      refine .skip fun _ g leads'' => (ends_leaf .error).bind fun o k _ read => .pure ?_
      obtain ⟨rfl, pos⟩ := read
      have le := leads''.pos_le
      exact ((row.push stat.1).push (.leaf (by decide) g.pos)).mono (by omega)
    · next still => exact .pure ((row.push (stat.2 (by omega))).mono (by omega))

theorem charged_block (hL : L.Frugal) (c : Cursor Sketch) :
    (block L).Ends c fun o d => Charged 1 c.pos d.pos [o] ∧ o.kind = .block := by
  refine .here_bind (.bind (.iterate_inv (I := fun done d => Charged 0 c.pos d.pos done)
    (fun done d _ row => charged_blockItem hL row) (.nil _)) fun stats d _ row => .wrap ?_)
  refine ⟨row.reverse.wrap (by decide) _, ?_⟩
  rw [Outline.wrap_eq]
  rfl

/-- The parameters of a function, which are single tokens. -/
def Parameters (i j : Nat) (ps : List Outline) : Prop :=
  Charged 0 i j ps ∧ ∀ p ∈ ps, ∃ kind i, p = .leaf kind i ∧ (kind = .paramDef ∨ kind = .literal)

theorem Parameters.push {j : Nat} {kind : NodeKind} (h : Parameters i j done) (le : j ≤ c.pos)
    (token : kind = .paramDef ∨ kind = .literal) {d : Cursor Sketch} (behind : c.pos + 1 ≤ d.pos) :
    Parameters i d.pos (.leaf kind c.pos :: done) := by
  have other : kind ≠ .funcBody := by
    rcases token with rfl | rfl <;> decide
  exact ⟨(h.1.push (.leaf other c.pos)).mono (by omega),
    List.forall_mem_cons.mpr ⟨⟨kind, c.pos, rfl, token⟩, h.2⟩⟩

theorem charged_parameter (h : Parameters i c.pos done) :
    (parameter done).Ends c fun r d => Parameters i d.pos r.1 := by
  refine .peek_bind ?_
  split
  · refine (ends_leaf .paramDef).bind fun p d _ read => .skip fun more e leads => .pure ?_
    obtain ⟨rfl, pos⟩ := read
    exact h.push (Nat.le_refl _) (.inl rfl) (pos ▸ leads.pos_le)
  · refine (ends_leaf .literal).bind fun p d _ read => .pure ?_
    obtain ⟨rfl, pos⟩ := read
    exact h.push (Nat.le_refl _) (.inr rfl) (Nat.le_of_eq pos.symm)
  · refine .skip fun _ d leads => .pure ⟨h.1.mono ?_, h.2⟩
    have := leads.pos_le
    omega

theorem charged_funcBody (hL : L.Frugal) (c : Cursor Sketch) :
    (funcBody L).Ends c fun o d => Charged 3 c.pos d.pos [o] := by
  refine .here_bind (.skip fun _ d opened => .skip fun none e same => ?_)
  extract_lets rest
  have before := (opened.trans same).pos_le
  have behind (ps : List Outline) (g : Cursor Sketch) (h : Parameters e.pos g.pos ps) :
      (rest ps).Ends g fun o d => Charged 3 c.pos d.pos [o] := by
    refine .skip fun _ k closed => .finish_bind ?_
    refine (charged_block hL k).bind fun body m _ stats => .skip fun _ n ended => .finish ?_
    have list : Charged 1 e.pos g.pos [.node .paramList (Mark.start c.pos)
        (max (Mark.stopBefore k.pos) (Mark.start c.pos)) ps.reverse] :=
      h.1.reverse.node (by decide)
    have parts := list.append stats.1
    have cost := parts.cost
    have le := closed.pos_le
    have le' := ended.pos_le
    refine ⟨List.forall_mem_singleton.mpr ⟨fun _ => ?_, Outline.bodiedAll_iff.mpr parts.bodied⟩, ?_⟩
    · exact ⟨_, _, _, body, rfl, stats.2, fun p mem => h.2 p (List.mem_reverse.mp mem)⟩
    · rw [List.singleton_append] at cost
      rw [Outline.sizeList, Outline.sizeList, Outline.size]
      omega
  split
  · exact .bind (R := fun ps d => Parameters e.pos d.pos ps)
      (.pure ⟨.nil _, List.forall_mem_nil _⟩) fun ps g _ h => behind ps g h
  · exact .bind (.iterate_inv (I := fun ps d => Parameters e.pos d.pos ps)
      (fun _ _ _ h => charged_parameter h) ⟨.nil _, List.forall_mem_nil _⟩)
      fun ps g _ h => behind ps g h

end Grammar

end LuaTyping
