import LuaTyping.Proofs.Syntax.Realized
import LuaTyping.Proofs.Syntax.Total.Statement

/-!
# Programs of any tokens

Every level of nesting is total, the lowest one because what it cuts off is dropped at once.  So a
program is read to its last token, whatever the tokens are, and its main block lies at all of them.

* `Grammar.yields_chunk`: a program reads without going astray, and no token is left.
* `Step.Rounds`: a repetition that is left to itself and ends.
* `Program.ascend_docs`: the doc slots of a program are in their order.
* `Parsed.reads_every_token`: every text is read to its end.
-/

namespace LuaTyping

open Outline (Inner Body Ascend)

namespace Grammar

/-- Every level is total. -/
theorem level_total (n : Nat) : (level n).Total := by
  induction n with
  | zero =>
    refine ⟨fun _ c => ?_, fun c => ?_⟩
    · refine Step.yields_cutOff.mono fun o d leads cut => ?_
      rw [cut]
      exact .error leads.pos_le (Nat.le_refl _)
    · refine Step.yields_cutOff.mono fun o d leads cut => ?_
      rw [cut]
      exact ⟨(Inner.error leads.pos_le (Nat.le_refl _)).1.lies, Nat.le_refl _, .nil _ _⟩
  | succ n ih => exact ⟨yields_expression ih, yields_statement ih⟩

/-- What closes nothing is read up to the end. -/
theorem yields_strays (c : Cursor Sketch) : strays.Yields c fun _ d => d.rest = [] := by
  refine .iterate (I := fun _ _ => True) (fun _ d _ _ => .atEnd_bind ?_) trivial
  split
  · next ended => exact .pure (List.isEmpty_iff.mp ended)
  · next ahead =>
    refine (Step.yields_refuse _).bind fun _ e _ at_ => ?_
    have ahead : e.rest ≠ [] := by
      rw [at_.2]
      exact fun none => ahead (List.isEmpty_iff.mpr none)
    refine (Step.yields_bump ahead).bind fun _ g _ moved => .pure ?_
    rw [if_pos rfl]
    exact ⟨by omega, trivial⟩

/-- A program reads without going astray to its last token, and its main block lies at its
tokens. -/
theorem yields_chunk (limit : Nat) (c : Cursor Sketch) :
    (chunk limit).Yields c fun o d =>
      d.rest = [] ∧ (∃ j ≤ d.pos, Body c.pos j o) ∧ o.kind = .block :=
  (yields_block (level_total limit) c).bind fun _ d _ body =>
    (yields_strays d).bind fun _ _ leads ended =>
      .pure ⟨ended, ⟨d.pos, leads.pos_le, body.1⟩, body.2⟩

/-- A program is not astray when it is read. -/
theorem astray_chunk (limit : Nat) (tokens : List Token) :
    (chunk limit (.start tokens (⟨⟩ : Sketch))).val.2.astray = false := by
  cases astray : (chunk limit (.start tokens (⟨⟩ : Sketch))).val.2.astray with
  | false => rfl
  | true => exact absurd ((yields_chunk limit (.start tokens ⟨⟩)).1 astray) Bool.false_ne_true

end Grammar

/-! ## Repetitions that end -/

namespace Step

variable {σ τ : Type} {body : τ → Step σ (τ × Bool)}

/-- Repeated as often as it asks for another round, `body` leads from `s` at `c` to `s'` at `d`. -/
inductive Rounds (body : τ → Step σ (τ × Bool)) : τ → Cursor σ → τ → Cursor σ → Prop
  | last {s s' : τ} {c d : Cursor σ} : (body s c).val = ((s', false), d) → Rounds body s c s' d
  | again {s s' s'' : τ} {c d e : Cursor σ} :
    (body s c).val = ((s', true), d) → Rounds body s' d s'' e → Rounds body s c s'' e

/-- A repetition that does not go astray ends because its last round asks for no other one. -/
theorem rounds_iterate {s : τ} {c : Cursor σ}
    (straight : (iterate body s c).val.2.astray = false) :
    Rounds body s c (iterate body s c).val.1 (iterate body s c).val.2 := by
  induction size : c.rest.length using Nat.strongRecOn generalizing s c with
  | ind n ih =>
    obtain ⟨⟨⟨s', again⟩, d⟩, first⟩ : ∃ r, (body s c).val = r := ⟨_, rfl⟩
    have leads := (body s c).property
    rw [iterate_val, first] at straight ⊢
    rw [first] at leads
    cases again with
    | false => exact .last first
    | true =>
      by_cases moved : c.pos < d.pos
      · have go : true = true ∧ c.pos < d.pos := ⟨rfl, moved⟩
        rw [if_pos go] at straight ⊢
        have shorter : d.rest.length < n := by
          have := leads.length_rest
          dsimp only at this
          omega
        exact .again first (ih _ shorter straight rfl)
      · have stop : ¬(true = true ∧ c.pos < d.pos) := fun h => moved h.2
        rw [if_neg stop, if_pos rfl] at straight
        exact absurd straight.symm Bool.false_ne_true

/-- A token is taken only where one is left. -/
theorem rest_ne_nil_of_bump {c : Cursor σ} (straight : (bump c).val.2.astray = false) :
    c.rest ≠ [] := by
  obtain ⟨pos, ts, faults, cut, reported, ended, astray, made⟩ := c
  rintro ⟨⟩
  exact absurd straight.symm Bool.false_ne_true

end Step

/-! ## Whole programs -/

/-- The places reached from the start of a program are those between its tokens. -/
theorem Cursor.Leads.of_start {σ : Type} {tokens : List Token} {made : σ} {c : Cursor σ}
    (h : (Cursor.start tokens made).Leads c) :
    c.rest = tokens.drop c.pos ∧ c.pos ≤ tokens.length := by
  obtain ⟨used, ahead, pos⟩ := h.reads
  have ahead : tokens = used ++ c.rest := ahead
  have pos : c.pos = used.length := pos.trans (Nat.zero_add _)
  rw [pos, ahead]
  exact ⟨List.drop_left.symm, by simp⟩

/-- The doc slots of a program stand in front of its tokens, in the order of the tokens. -/
theorem Program.ascend_docs (limit : Nat) (tokens : List Token) :
    Ascend 0 tokens.length (Program.ofTokens limit tokens).body.docs := by
  obtain ⟨-, -, ⟨j, le, body⟩, -⟩ := Grammar.yields_chunk limit (.start tokens ⟨⟩)
  have inside := (Grammar.chunk limit (.start tokens (⟨⟩ : Sketch))).property.of_start.2
  exact body.docs.mono (Nat.le_refl _) (Nat.le_trans le inside)

/-- Every text is read to its last token, however deep it is nested and whatever is wrong with it.
On the way there all places are places between its tokens, and nothing goes astray: a step that is
not astray at its end has taken tokens only where some were left, and its repetitions have ended by
themselves. -/
theorem Parsed.reads_every_token (limit : Nat) (text : String) :
    let layout := Layout.ofLexed text (Lexed.ofText text)
    let tokens := (layout.lexemes.map Lexeme.token).toList
    let last := (Parsed.read limit layout).2
    (last.astray = false ∧ last.pos = tokens.length ∧ last.rest = []) ∧
      (∀ c : Cursor Draft, (Cursor.start tokens ⟨layout, #[]⟩).Leads c →
        c.rest = tokens.drop c.pos ∧ c.pos ≤ tokens.length) ∧
      (∀ c d : Cursor Draft, c.Leads d → d.astray = false → c.astray = false) ∧
      (∀ c : Cursor Draft, (Step.bump c).val.2.astray = false → c.rest ≠ []) ∧
      ∀ (τ : Type) (body : τ → Step Draft (τ × Bool)) (s : τ) (c : Cursor Draft),
        (Step.iterate body s c).val.2.astray = false →
          Step.Rounds body s c (Step.iterate body s c).val.1 (Step.iterate body s c).val.2 := by
  intro layout tokens last
  obtain ⟨loose, meets, -⟩ := Parsed.meets_read limit layout
  have ended : last.rest = [] :=
    meets.rest.trans (Grammar.yields_chunk limit (.start tokens ⟨⟩)).2.1
  have straight : last.astray = false := meets.astray.trans (Grammar.astray_chunk limit tokens)
  have inside := (Grammar.chunk limit (.start tokens (⟨layout, #[]⟩ : Draft))).property.of_start
  refine ⟨⟨straight, ?_, ended⟩, fun c h => h.of_start, fun c d h straight => ?_,
    fun c => Step.rest_ne_nil_of_bump, fun τ body s c => Step.rounds_iterate⟩
  · change last.rest = tokens.drop last.pos ∧ last.pos ≤ tokens.length at inside
    rw [ended, eq_comm, List.drop_eq_nil_iff] at inside
    exact Nat.le_antisymm inside.2 inside.1
  · cases astray : c.astray with
    | false => rfl
    | true => rw [h.stays astray] at straight; exact straight

end LuaTyping
