import LuaTyping.Proofs.Syntax.Steps

/-!
# What a step yields, whatever is ahead

`p.Yields c Q` says of the step `p` begun at the cursor `c`, with any tokens ahead and any faults so
far, that it does not go astray and that `Q` holds of what it answers and of where it ends.

Steps one after the other yield what the last one yields from where the one before ended
(`Step.Yields.bind`).  A repetition yields what its rounds preserve, if every round that asks for
another one has read something (`Step.Yields.iterate`); this is the only place where the progress of
a loop is argued for.
-/

namespace LuaTyping

namespace Cursor.Leads

variable {c d : Cursor Sketch}

/-- Reading moves forward. -/
theorem pos_le (h : c.Leads d) : c.pos ≤ d.pos := by
  obtain ⟨used, -, pos⟩ := h.reads
  omega

/-- What has not moved has the same tokens ahead. -/
theorem rest_eq (h : c.Leads d) (same : d.pos = c.pos) : d.rest = c.rest := by
  obtain ⟨used, ahead, pos⟩ := h.reads
  have none : used = [] := List.eq_nil_of_length_eq_zero (by omega)
  rw [ahead, none, List.nil_append]

end Cursor.Leads

namespace Step

variable {α β σ : Type} {p : Step Sketch α} {f : α → Step Sketch β}
    {body : σ → Step Sketch (σ × Bool)} {c : Cursor Sketch}
  {t : Token} {e : Expectation} {kind : NodeKind}

/-- From `c` the step does not go astray, and `Q` holds of its answer and its end. -/
def Yields (p : Step Sketch α) (c : Cursor Sketch) (Q : α → Cursor Sketch → Prop) : Prop :=
  ((p c).val.2.astray = true → c.astray = true) ∧ Q (p c).val.1 (p c).val.2

namespace Yields

variable {Q R : α → Cursor Sketch → Prop} {Q' : β → Cursor Sketch → Prop}

/-! ## Composition -/

theorem pure {a : α} (h : Q a c) : (Pure.pure a : Step Sketch α).Yields c Q := ⟨id, h⟩

theorem mono (h : p.Yields c R) (weaker : ∀ a d, c.Leads d → R a d → Q a d) : p.Yields c Q :=
  ⟨h.1, weaker _ _ (p c).property h.2⟩

theorem and (h : p.Yields c Q) (h' : p.Yields c R) :
    p.Yields c fun a d => Q a d ∧ R a d := ⟨h.1, h.2, h'.2⟩

theorem bind (first : p.Yields c R) (next : ∀ a d, c.Leads d → R a d → (f a).Yields d Q') :
    (p >>= f).Yields c Q' := by
  have second := next _ _ (p c).property first.2
  exact ⟨first.1 ∘ second.1, second.2⟩

theorem map_bind {γ : Type} {g : α → γ} {f : γ → Step Sketch β} (first : p.Yields c R)
    (next : ∀ a d, c.Leads d → R a d → (f (g a)).Yields d Q') : (g <$> p >>= f).Yields c Q' := by
  have mapped : (g <$> p).Yields c fun x d => ∃ a, x = g a ∧ R a d :=
    bind first fun a _ _ h => pure ⟨a, rfl, h⟩
  refine mapped.bind fun x d leads h => ?_
  obtain ⟨a, rfl, h⟩ := h
  exact next a d leads h

/-- What every round preserves, if those that ask for another one read something, and what the last
round comes to. -/
theorem iterate {I Q : σ → Cursor Sketch → Prop} {s : σ}
    (round : ∀ s d, c.Leads d → I s d →
      (body s).Yields d fun r e => if r.2 = true then d.pos < e.pos ∧ I r.1 e else Q r.1 e)
    (init : I s c) : (iterate body s).Yields c Q := by
  suffices from_here : ∀ n s d, d.rest.length = n → c.Leads d → I s d →
      (Step.iterate body s).Yields d Q from from_here _ s c rfl (.refl c) init
  intro n
  induction n using Nat.strongRecOn with
  | ind n ih =>
    intro s d size leads inv
    obtain ⟨stays, holds⟩ := round s d leads inv
    have step := (body s d).property
    rw [Yields, iterate_val]
    by_cases again : (body s d).val.1.2 = true
    · rw [if_pos again] at holds
      have shorter : (body s d).val.2.rest.length < n := by
        have := step.length_rest
        omega
      have rest := ih _ shorter _ _ rfl (leads.trans step) holds.2
      rw [if_pos ⟨again, holds.1⟩]
      exact ⟨stays ∘ rest.1, rest.2⟩
    · rw [if_neg again] at holds
      rw [if_neg fun h => again h.1, if_neg again]
      exact ⟨stays, holds⟩

/-- What every round preserves holds at the end. -/
theorem iterate_inv {I : σ → Cursor Sketch → Prop} {s : σ}
    (round : ∀ s d, c.Leads d → I s d →
      (body s).Yields d fun r e => (r.2 = true → d.pos < e.pos) ∧ I r.1 e)
    (init : I s c) : (Step.iterate body s).Yields c I := by
  refine iterate (fun s d leads inv => (round s d leads inv).mono fun r e _ h => ?_) init
  split
  · next again => exact ⟨h.1 again, h.2⟩
  · exact h.2

/-! ## Looking ahead

A step that only looks is known at once, and so is the making of a node.
-/

theorem position_bind {f : Nat → Step Sketch β} (h : (f c.pos).Yields c Q') :
    (position >>= f).Yields c Q' := h

theorem here_bind {f : Nat → Step Sketch β} (h : (f (Mark.start c.pos)).Yields c Q') :
    (here >>= f).Yields c Q' := h

theorem peek_bind {f : Option Token → Step Sketch β} (h : (f c.rest.head?).Yields c Q') :
    (peek >>= f).Yields c Q' := h

theorem peekSecond_bind {f : Option Token → Step Sketch β} (h : (f c.rest.tail.head?).Yields c Q') :
    (peekSecond >>= f).Yields c Q' := h

theorem at?_bind {f : Bool → Step Sketch β} (h : (f (c.rest.head? == some t)).Yields c Q') :
    (at? t >>= f).Yields c Q' := h

theorem atEnd_bind {f : Bool → Step Sketch β} (h : (f c.rest.isEmpty).Yields c Q') :
    (atEnd >>= f).Yields c Q' := h

theorem blockEnds_bind {f : Bool → Step Sketch β}
    (h : ∀ b, (b = false → c.rest ≠ []) → (f b).Yields c Q') : (blockEnds >>= f).Yields c Q' := by
  refine h _ fun ends => ?_
  intro none
  rw [none] at ends
  exact Bool.noConfusion ends

theorem startOf_bind {o : Outline} {f : Nat → Step Sketch β} (h : (f o.first).Yields c Q') :
    (startOf o >>= f).Yields c Q' := h

theorem kindOf_bind {o : Outline} {f : NodeKind → Step Sketch β} (h : (f o.kind).Yields c Q') :
    (kindOf o >>= f).Yields c Q' := h

theorem doc_bind {f : Nat × List Outline → Step Sketch β}
    (h : (f (Mark.doc c.pos, [.doc c.pos])).Yields c Q') : (doc >>= f).Yields c Q' := h

theorem finish {first : Nat} {children : List Outline} {Q : Outline → Cursor Sketch → Prop}
    (h : Q (.node kind first (max (Mark.stopBefore c.pos) first) children) c) :
    (Step.finish kind first children).Yields c Q := ⟨id, h⟩

theorem finish_bind {first : Nat} {children : List Outline} {f : Outline → Step Sketch β}
    (h : (f (.node kind first (max (Mark.stopBefore c.pos) first) children)).Yields c Q') :
    (Step.finish kind first children >>= f).Yields c Q' := h

theorem wrap {mark : Nat} {children : List Outline} {Q : Outline → Cursor Sketch → Prop}
    (h : Q (.wrap kind children mark) c) : (Step.wrap kind children mark).Yields c Q := by
  rw [wrap_eq]
  exact .pure h

theorem wrap_bind {mark : Nat} {children : List Outline} {f : Outline → Step Sketch β}
    (h : (f (.wrap kind children mark)).Yields c Q') :
    (Step.wrap kind children mark >>= f).Yields c Q' := by
  rw [wrap_eq]
  exact h

theorem valueOf {o : Outline} {Q : Outline → Cursor Sketch → Prop} (h : Q o.value c) :
    (Grammar.valueOf o).Yields c Q := ⟨id, h⟩

theorem valueOf_bind {o : Outline} {f : Outline → Step Sketch β} (h : (f o.value).Yields c Q') :
    (Grammar.valueOf o >>= f).Yields c Q' := h

theorem join {x y : Outline} {children : List Outline} {Q : Outline → Cursor Sketch → Prop}
    (h : Q (.join kind x y children) c) : (Step.join kind x y children).Yields c Q := ⟨id, h⟩

theorem join_bind {x y : Outline} {children : List Outline} {f : Outline → Step Sketch β}
    (h : (f (.join kind x y children)).Yields c Q') :
    (Step.join kind x y children >>= f).Yields c Q' := h

theorem empty {mark : Nat} {Q : Outline → Cursor Sketch → Prop} (h : Q (.empty kind mark) c) :
    (Step.empty kind mark).Yields c Q := ⟨id, h⟩

end Yields

/-! ## Single steps -/

/-- Something is ahead. -/
theorem rest_ne_nil {ts : List Token} {s : Token} (h : ts.head? = some s) : ts ≠ [] := by
  rintro rfl
  exact absurd h (by simp)

theorem yields_bump (ahead : c.rest ≠ []) :
    bump.Yields c fun _ d => d.pos = c.pos + 1 ∧ d.rest = c.rest.tail := by
  obtain ⟨s, rest, eq⟩ := List.exists_cons_of_ne_nil ahead
  obtain ⟨pos, ts, faults, cut, reported, ended, astray, made⟩ := c
  dsimp only at eq
  subst eq
  exact ⟨id, rfl, rfl⟩

theorem yields_report (f : Fault) :
    (report f).Yields c fun _ d => d.pos = c.pos ∧ d.rest = c.rest := by
  rw [Yields, report]
  split
  · exact ⟨id, rfl, rfl⟩
  · exact ⟨id, rfl, rfl⟩

theorem yields_refuse (e : Expectation) :
    (refuse e).Yields c fun _ d => d.pos = c.pos ∧ d.rest = c.rest := yields_report _

theorem yields_accept (t : Token) :
    (accept t).Yields c fun b d =>
      d.pos = c.pos + b.toNat ∧ (c.rest.head? = some t → b = true) := by
  refine .at?_bind ?_
  split
  · next found =>
    exact (yields_bump (rest_ne_nil (beq_iff_eq.mp found))).bind fun _ d _ h =>
      .pure ⟨h.1, fun _ => rfl⟩
  · next missing => exact .pure ⟨rfl, fun found => absurd (beq_iff_eq.mpr found) missing⟩

theorem yields_expect (t : Token) (e : Expectation) :
    (expect t e).Yields c fun _ d => c.rest.head? = some t → d.pos = c.pos + 1 := by
  refine (yields_accept t).bind fun b d _ read => ?_
  cases b with
  | true => exact .pure fun _ => read.1
  | false =>
    exact (yields_refuse e).mono fun _ _ _ _ found => absurd (read.2 found) Bool.false_ne_true

theorem yields_leaf (kind : NodeKind) (ahead : c.rest ≠ []) :
    (leaf kind).Yields c fun o d =>
      o = .leaf kind c.pos ∧ d.pos = c.pos + 1 ∧ d.rest = c.rest.tail := by
  rw [leaf_eq]
  exact .position_bind ((yields_bump ahead).bind fun _ _ _ h => .pure ⟨rfl, h⟩)

theorem yields_leafOf? (t : Token) (kind : NodeKind) (e : Expectation) :
    (leafOf? t kind e).Yields c fun o d =>
      (o = none ∧ d.pos = c.pos) ∨ (o = some (.leaf kind c.pos) ∧ d.pos = c.pos + 1) := by
  refine .at?_bind ?_
  split
  · next found =>
    refine (yields_leaf kind (rest_ne_nil (beq_iff_eq.mp found))).bind fun o d _ h => .pure ?_
    exact .inr ⟨congrArg some h.1, h.2.1⟩
  · exact (yields_refuse e).bind fun _ d _ h => .pure (.inl ⟨rfl, h.1⟩)

theorem yields_cutOff : cutOff.Yields c fun o _ => o = .empty .error (Mark.start c.pos) := by
  rw [Yields, cutOff_val, drop]
  split
  · exact ⟨id, rfl⟩
  · exact ⟨id, rfl⟩

end Step

end LuaTyping
