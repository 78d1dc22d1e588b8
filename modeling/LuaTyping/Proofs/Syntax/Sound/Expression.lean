import LuaTyping.Proofs.Syntax.Steps
import LuaTyping.Proofs.Syntax.Forms

/-!
# Expressions read without faults

`Level.Sound`: what a level reads without a fault is the phrase of an expression or a statement,
from its first token to its last.  Every production for expressions keeps this; so do blocks and
functions, which are read on the level below.

* `iterate_sound`: a repetition of which each round reads one element.
* `expression_sound`: an expression on top of a level that is sound.
-/

namespace LuaTyping

open Phrase (key value ofName leaf exprList Spans commaTail commaList)

/-! ## Lists -/

section Lists

open Step

variable {α : Type} {f : α → Phrase} {item : Step Sketch Outline} {i j k : Nat}
    {ts us vs : List Token}
  {o : Outline} {os done : List Outline}

/-- A repetition of which each round reads the phrases of one element, or nothing. -/
theorem iterate_sound {g : α → List Phrase}
    {body : List Outline → Step Sketch (List Outline × Bool)}
    (round : ∀ {done i ts done' again j us}, Reads (body done) i ts (done', again) j us →
      (∃ x os', Spans (g x) i ts os' j us ∧ done' = os'.reverse ++ done)
        ∨ (again = false ∧ done' = done ∧ j = i ∧ us = ts))
    (h : Reads (iterate body done) i ts os k vs) :
    ∃ xs : List α, ∃ os', Spans (xs.flatMap g) i ts os' k vs ∧ os = os'.reverse ++ done := by
  refine h.iterate_induction (P := fun done i ts => ∃ xs : List α, ∃ os',
    Spans (xs.flatMap g) i ts os' k vs ∧ os = os'.reverse ++ done) ?_ ?_
  · intro done i ts again h stop
    obtain ⟨x, os', spans, rfl⟩ | ⟨-, rfl, rfl, rfl⟩ := round h
    · refine ⟨[x], os', ?_, rfl⟩
      rw [List.flatMap_singleton]
      exact spans
    · exact ⟨[], [], Phrase.spans_nil.mpr ⟨rfl, rfl, rfl⟩, rfl⟩
  · intro done i ts done' j us h advanced ih
    obtain ⟨x, os', spans, rfl⟩ | ⟨stops, -⟩ := round h
    · obtain ⟨xs, os'', others, rfl⟩ := ih
      refine ⟨x :: xs, os' ++ os'', ?_, ?_⟩
      · rw [List.flatMap_cons]
        exact spans.append others
      · rw [List.reverse_append, List.append_assoc]
    · exact absurd stops (by decide)

/-- An item behind each comma. -/
theorem commaItems_sound
    (sound : ∀ {i ts o j us}, Reads item i ts o j us → ∃ x, Spans [f x] i ts [o] j us)
    (h : Reads (Grammar.commaItems item done) i ts os k vs) :
    ∃ xs : List α, ∃ os',
      Spans (commaTail (xs.map f)) i ts os' k vs ∧ os = os'.reverse ++ done := by
  simp only [commaTail_map]
  refine iterate_sound ?_ h
  intro done i ts done' again j us h
  rw [reads_accept_bind] at h
  obtain ⟨us, rfl, h⟩ | ⟨-, h⟩ := h
  · rw [if_pos rfl] at h
    obtain ⟨o, j', us', read, h⟩ := reads_bind.mp h
    obtain ⟨eq, rfl, rfl⟩ := reads_pure.mp h
    obtain ⟨rfl, -⟩ := Prod.mk.inj eq
    obtain ⟨x, first⟩ := sound read
    exact .inl ⟨x, [o], first.after .comma, rfl⟩
  · obtain ⟨eq, rfl, rfl⟩ := reads_pure.mp h
    obtain ⟨rfl, rfl⟩ := Prod.mk.inj eq
    exact .inr ⟨rfl, rfl, rfl, rfl⟩

end Lists

/-! ## Expressions -/

/-- What the level reads without a fault is the phrase of an expression or of a statement.  Where
no statement starts, nothing is read. -/
structure Level.Sound (L : Level Sketch Outline) : Prop where
  expr {limit i ts o j us} : Step.Reads (L.expr limit) i ts o j us →
    ∃ e : Exp, Spans [e.phrase] i ts [o] j us
  stat {i ts o j us} : Step.Reads L.stat i ts o j us → j ≠ i →
    ∃ s : Stat, Spans [s.phrase] i ts [o] j us

section Expressions

open Step

variable {L : Level Sketch Outline} {limit i j k : Nat} {ts us vs : List Token} {o : Outline}
  {os done : List Outline}

theorem commaExprs_sound (sound : L.Sound)
    (h : Reads (Grammar.commaItems (L.expr 0) done) i ts os k vs) :
    ∃ es : List Exp, ∃ os', Spans (commaTail (Exp.phrases es)) i ts os' k vs
      ∧ os = os'.reverse ++ done := by
  obtain ⟨es, os', spans, eq⟩ := commaItems_sound (f := Exp.phrase) sound.expr h
  rw [← Exp.phrases_eq_map] at spans
  exact ⟨es, os', spans, eq⟩

theorem exprList_sound (sound : L.Sound) (h : Reads (Grammar.exprList L) i ts o k vs) :
    ∃ e es, Spans [exprList (Exp.phrase e :: Exp.phrases es)] i ts [o] k vs := by
  simp only [Grammar.exprList, reads_here_bind] at h
  obtain ⟨a, j, us, first, h⟩ := reads_bind.mp h
  obtain ⟨os, _, _, others, h⟩ := reads_bind.mp h
  obtain ⟨rfl, rfl, rfl⟩ := reads_wrap.mp h
  obtain ⟨e, spans⟩ := sound.expr first
  obtain ⟨es, os', tail, rfl⟩ := commaExprs_sound sound others
  refine ⟨e, es, ?_⟩
  rw [List.reverse_append, List.reverse_reverse, List.reverse_singleton]
  exact (spans.append tail).wrap .exprList _ (row_commaExprs e es) e.plain rfl (by decide)

end Expressions

/-! ## Blocks and functions -/

section Functions

open Step

variable {L : Level Sketch Outline} {i j k : Nat} {ts us vs : List Token} {o : Outline}
    {os done : List Outline}

theorem block_sound (sound : L.Sound) (h : Reads (Grammar.block L) i ts o k vs) :
    ∃ ss, Spans [.group .block (Stat.phrases ss)] i ts [o] k vs := by
  simp only [Grammar.block, reads_here_bind] at h
  obtain ⟨os, _, _, loop, h⟩ := reads_bind.mp h
  obtain ⟨rfl, rfl, rfl⟩ := reads_wrap.mp h
  obtain ⟨ss, os', spans, eq⟩ : ∃ ss os',
      Spans (List.flatMap (fun s => [Stat.phrase s]) ss) i ts os' k vs
        ∧ os = os'.reverse ++ [] := by
    refine iterate_sound ?_ loop
    intro done i ts done' again j us h
    rw [Grammar.blockItem, reads_blockEnds_bind] at h
    split at h
    · obtain ⟨eq, rfl, rfl⟩ := reads_pure.mp h
      obtain ⟨rfl, rfl⟩ := Prod.mk.inj eq
      exact .inr ⟨rfl, rfl, rfl, rfl⟩
    · rw [reads_position_bind] at h
      obtain ⟨s, j', us', read, h⟩ := reads_bind.mp h
      rw [reads_position_bind] at h
      split at h
      · -- a statement that reads nothing is refused
        exact absurd h not_reads_refuse_bind
      · next moved =>
        obtain ⟨eq, rfl, rfl⟩ := reads_pure.mp h
        obtain ⟨rfl, rfl⟩ := Prod.mk.inj eq
        obtain ⟨stat, first⟩ := sound.stat read moved
        exact .inl ⟨stat, [s], first, rfl⟩
  rw [← List.map_eq_flatMap, ← Stat.phrases_eq_map] at spans
  rw [List.append_nil] at eq
  refine ⟨ss, (Phrase.spans_block ?_).mpr ⟨os', spans, ?_⟩⟩
  · rw [Stat.phrases_eq_map]
    intro p mem
    obtain ⟨s, -, rfl⟩ := List.mem_map.mp mem
    exact s.isStatement
  · rw [eq, List.reverse_reverse]

theorem parameters_sound (h : Reads Grammar.parameters i ts os k vs) :
    ∃ ps os', Spans (commaList (Phrase.paramsOf ps)) i ts os' k vs ∧ os = os'.reverse := by
  obtain ⟨ps, os', -, spans, eq⟩ : ∃ ps os', Phrase.paramsOf ps ≠ [] ∧
      Spans (commaList (Phrase.paramsOf ps)) i ts os' k vs ∧ os = os'.reverse ++ [] := by
    rw [Grammar.parameters] at h
    refine h.iterate_induction (P := fun done i ts => ∃ ps os', Phrase.paramsOf ps ≠ [] ∧
      Spans (commaList (Phrase.paramsOf ps)) i ts os' k vs ∧ os = os'.reverse ++ done) ?_ ?_
    · intro done i ts again h stop
      simp only [Grammar.parameter, reads_peek_bind] at h
      split at h
      · next found =>
        obtain ⟨us, rfl⟩ := List.head?_eq_some_iff.mp found
        simp only [reads_leaf_bind] at h
        rw [reads_accept_bind] at h
        obtain ⟨us, rfl, h⟩ | ⟨-, h⟩ := h
        · simp only [reads_pure, Prod.mk.injEq] at h
          obtain ⟨⟨-, rfl⟩, rfl, rfl⟩ := h
          exact absurd ⟨rfl, by omega⟩ stop
        · simp only [reads_pure, Prod.mk.injEq] at h
          obtain ⟨⟨rfl, -⟩, rfl, rfl⟩ := h
          refine ⟨⟨[⟨Token.name.word, rfl⟩], false⟩, [.leaf .paramDef i], List.cons_ne_nil _ _,
            ?_, by simp⟩
          exact Spans.leaf .paramDef Token.name.word rfl (by decide)
      · next found =>
        obtain ⟨us, rfl⟩ := List.head?_eq_some_iff.mp found
        simp only [reads_leaf_bind, reads_pure, Prod.mk.injEq] at h
        obtain ⟨⟨rfl, -⟩, rfl, rfl⟩ := h
        refine ⟨⟨[], true⟩, [.leaf .literal i], List.cons_ne_nil _ _, ?_, by simp⟩
        exact Spans.leaf .literal Token.ellipsis.word rfl (by decide)
      · exact absurd h not_reads_refuse_bind
    · intro done i ts s' j us h advanced ih
      simp only [Grammar.parameter, reads_peek_bind] at h
      split at h
      · next found =>
        obtain ⟨us, rfl⟩ := List.head?_eq_some_iff.mp found
        simp only [reads_leaf_bind] at h
        rw [reads_accept_bind] at h
        obtain ⟨us, rfl, h⟩ | ⟨-, h⟩ := h
        · simp only [reads_pure, Prod.mk.injEq] at h
          obtain ⟨⟨rfl, -⟩, rfl, rfl⟩ := h
          obtain ⟨ps, os', ne, others, rfl⟩ := ih
          refine ⟨⟨⟨Token.name.word, rfl⟩ :: ps.names, ps.variadic⟩, .leaf .paramDef i :: os',
            List.cons_ne_nil _ _, ?_, by simp⟩
          have rest := others.after .comma
          rw [← commaTail_eq ne] at rest
          exact (Spans.leaf .paramDef Token.name.word rfl (by decide)).append rest
        · simp at h
      · next found =>
        obtain ⟨us, rfl⟩ := List.head?_eq_some_iff.mp found
        simp at h
      · exact absurd h not_reads_refuse_bind
  rw [List.append_nil] at eq
  exact ⟨ps, os', spans, eq⟩

theorem funcBody_sound (sound : L.Sound) (h : Reads (Grammar.funcBody L) i ts o k vs) :
    ∃ ps ss, Spans [.funcBody ps (Stat.phrases ss)] i ts [o] k vs := by
  simp only [Grammar.funcBody, reads_here_bind, reads_expect_bind, reads_at?_bind] at h
  obtain ⟨us, rfl, h⟩ := h
  obtain ⟨ps, os, j, us', params, h⟩ : ∃ ps os j us',
      Spans (commaList (Phrase.paramsOf ps)) (i + 1) us os j us' ∧
      Reads (do
        Step.expect .rightParen .parenClose
        let paramList ← Step.finish .paramList (Mark.start i) os
        let body ← Grammar.block L
        Step.expect .endKw .endWord
        Step.finish .funcBody (Mark.start i) [paramList, body]) j us' o k vs := by
    split at h
    · rw [reads_pure_bind] at h
      exact ⟨⟨[], false⟩, [], i + 1, us, Phrase.spans_nil.mpr ⟨rfl, rfl, rfl⟩, h⟩
    · obtain ⟨os, j, us', read, h⟩ := reads_bind.mp h
      obtain ⟨ps, os', spans, rfl⟩ := parameters_sound read
      rw [List.reverse_reverse] at h
      exact ⟨ps, os', j, us', spans, h⟩
  simp only [reads_expect_bind, reads_finish_bind] at h
  obtain ⟨us, rfl, h⟩ := h
  obtain ⟨body, l, ws, read, h⟩ := reads_bind.mp h
  obtain ⟨ss, block⟩ := block_sound sound read
  simp only [reads_expect_bind, reads_finish] at h
  obtain ⟨us, rfl, rfl, rfl, rfl⟩ := h
  have list := ((params.append (.key .rightParen)).after .leftParen).plain .paramList rfl
    (by decide)
  rw [List.append_nil] at list
  exact ⟨ps, ss, ((list.append block).append (.key .endKw)).plain .funcBody rfl (by decide)⟩

end Functions

/-! ## Operands and suffixes -/

section Operands

open Step

variable {L : Level Sketch Outline} {limit i j k : Nat} {ts us vs : List Token} {o : Outline}
  {os done : List Outline}

theorem tableField_sound (sound : L.Sound) (h : Reads (Grammar.tableField L) i ts o k vs) :
    ∃ f : Field, Spans [f.phrase] i ts [o] k vs := by
  simp only [Grammar.tableField, reads_here_bind, reads_peek_bind, reads_peekSecond_bind] at h
  split at h
  · next found =>
    obtain ⟨us, rfl⟩ := List.head?_eq_some_iff.mp found
    rw [reads_bump_bind] at h
    obtain ⟨a, j, us, read, h⟩ := reads_bind.mp h
    obtain ⟨e, first⟩ := sound.expr read
    simp only [reads_expect_bind] at h
    obtain ⟨us, rfl, us, rfl, h⟩ := h
    obtain ⟨b, j, us, read, h⟩ := reads_bind.mp h
    obtain ⟨e', second⟩ := sound.expr read
    obtain ⟨rfl, rfl, rfl⟩ := reads_finish.mp h
    refine ⟨.keyed e e', ?_⟩
    exact ((first.append ((second.after .assign).after .rightBracket)).after .leftBracket).plain
      .tableField rfl (by decide)
  · next found found' =>
    obtain ⟨us, rfl⟩ := List.head?_eq_some_iff.mp found
    obtain ⟨us, rfl⟩ := List.head?_eq_some_iff.mp found'
    simp only [reads_leaf_bind, reads_bump_bind] at h
    obtain ⟨b, j, us, read, h⟩ := reads_bind.mp h
    obtain ⟨e, second⟩ := sound.expr read
    obtain ⟨rfl, rfl, rfl⟩ := reads_finish.mp h
    refine ⟨.named ⟨Token.name.word, rfl⟩ e, ?_⟩
    exact ((Spans.name .name rfl (by decide)).append (second.after .assign)).plain .tableField rfl
      (by decide)
  · obtain ⟨a, j, us, read, h⟩ := reads_bind.mp h
    obtain ⟨e, first⟩ := sound.expr read
    obtain ⟨rfl, rfl, rfl⟩ := reads_finish.mp h
    exact ⟨.positional e, first.plain .tableField rfl (by decide)⟩

theorem reads_fieldSeparator {b : Bool} (h : Reads Grammar.fieldSeparator i ts b j us) :
    (∃ separator : Separator, b = true ∧ ts = separator.token :: us ∧ j = i + 1)
      ∨ (b = false ∧ j = i ∧ us = ts) := by
  rw [Grammar.fieldSeparator, reads_accept_bind] at h
  obtain ⟨us', rfl, h⟩ | ⟨-, h⟩ := h
  · obtain ⟨rfl, rfl, rfl⟩ := reads_pure.mp h
    exact .inl ⟨.comma, rfl, rfl, rfl⟩
  · obtain ⟨rfl, rfl, rfl⟩ | ⟨rfl, -, rfl, rfl⟩ := reads_accept.mp h
    · exact .inl ⟨.semicolon, rfl, rfl, rfl⟩
    · exact .inr ⟨rfl, rfl, rfl⟩

theorem tableConstructor_sound (sound : L.Sound)
    (h : Reads (Grammar.tableConstructor L) i (.leftBrace :: ts) o k vs) :
    ∃ fs : Fields, Spans [.tableOf fs.phrases] i (.leftBrace :: ts) [o] k vs := by
  simp only [Grammar.tableConstructor, reads_here_bind, reads_bump_bind] at h
  obtain ⟨os, j, us, loop, h⟩ := reads_bind.mp h
  simp only [reads_expect_bind, reads_finish] at h
  obtain ⟨us, rfl, rfl, rfl, rfl⟩ := h
  obtain ⟨fs, os', spans, eq⟩ : ∃ (fs : Fields) (os' : List Outline),
      Spans fs.phrases (i + 1) ts os' j (.rightBrace :: vs) ∧ os = os'.reverse ++ [] := by
    refine loop.iterate_induction (P := fun done i ts => ∃ (fs : Fields) (os' : List Outline),
      Spans fs.phrases i ts os' j (.rightBrace :: vs) ∧ os = os'.reverse ++ done) ?_ ?_
    · intro done i ts again h stop
      simp only [Grammar.tableItem, reads_at?_bind, reads_atEnd_bind] at h
      split at h
      · obtain ⟨eq, rfl, rfl⟩ := reads_pure.mp h
        obtain ⟨rfl, rfl⟩ := Prod.mk.inj eq
        exact ⟨.none, [], Phrase.spans_nil.mpr ⟨rfl, rfl, rfl⟩, rfl⟩
      · obtain ⟨f, l, us', read, h⟩ := reads_bind.mp h
        obtain ⟨more, l', us'', separated, h⟩ := reads_bind.mp h
        obtain ⟨eq, rfl, rfl⟩ := reads_pure.mp h
        obtain ⟨rfl, rfl⟩ := Prod.mk.inj eq
        obtain ⟨field, first⟩ := tableField_sound sound read
        obtain ⟨separator, rfl, rfl, rfl⟩ | ⟨rfl, rfl, rfl⟩ := reads_fieldSeparator separated
        · have := read.le
          exact absurd ⟨rfl, by omega⟩ stop
        · exact ⟨.last field, [f], first, by simp⟩
    · intro done i ts s' l us' h advanced ih
      simp only [Grammar.tableItem, reads_at?_bind, reads_atEnd_bind] at h
      split at h
      · simp at h
      · obtain ⟨f, l', us', read, h⟩ := reads_bind.mp h
        obtain ⟨more, l'', us'', separated, h⟩ := reads_bind.mp h
        obtain ⟨eq, rfl, rfl⟩ := reads_pure.mp h
        obtain ⟨rfl, rfl⟩ := Prod.mk.inj eq
        obtain ⟨field, first⟩ := tableField_sound sound read
        obtain ⟨fs, os', others, rfl⟩ := ih
        obtain ⟨separator, -, rfl, rfl⟩ | ⟨eq, -, -⟩ := reads_fieldSeparator separated
        · exact ⟨.more field separator fs, f :: os', first.append (others.after separator.token),
            by simp⟩
        · exact absurd eq (by decide)
  rw [List.append_nil] at eq
  rw [eq, List.reverse_reverse]
  have all := (spans.append (.key .rightBrace)).after .leftBrace
  rw [List.append_nil] at all
  exact ⟨fs, all.plain .tableConstructor rfl (by decide)⟩

theorem callArgs_sound (sound : L.Sound) (h : Reads (Grammar.callArgs L) i ts o k vs) :
    ∃ args : Args, Spans [args.phrase] i ts [o] k vs := by
  have string {t : Token} (isString : t.isString = true) (us : List Token)
      (h : Reads (Step.finish .args (Mark.start i) [Outline.value (.leaf .literal i)])
        (i + 1) us o k vs) :
      ∃ args : Args, Spans [args.phrase] i (t :: us) [o] k vs := by
    obtain ⟨rfl, rfl, rfl⟩ := reads_finish.mp h
    have text : Spans [leaf .literal t.word] i (t :: vs) _ _ vs :=
      Spans.leaf .literal t.word rfl (by decide)
    refine ⟨.string ⟨t.word, isString⟩, ?_⟩
    exact (text.valueOf (Phrase.leaf_plain _ rfl (by decide))).plain .args rfl (by decide)
  simp only [Grammar.callArgs, reads_here_bind, reads_peek_bind] at h
  split at h
  · next found =>
    obtain ⟨us, rfl⟩ := List.head?_eq_some_iff.mp found
    simp only [reads_leaf_bind, reads_valueOf_bind, reads_pure_bind] at h
    exact string rfl us h
  · next found =>
    obtain ⟨us, rfl⟩ := List.head?_eq_some_iff.mp found
    simp only [reads_leaf_bind, reads_valueOf_bind, reads_pure_bind] at h
    exact string rfl us h
  · next found =>
    obtain ⟨us, rfl⟩ := List.head?_eq_some_iff.mp found
    obtain ⟨t, j, us, read, h⟩ := reads_bind.mp h
    obtain ⟨fs, spans⟩ := tableConstructor_sound sound read
    rw [reads_valueOf_bind, reads_pure_bind] at h
    obtain ⟨rfl, rfl, rfl⟩ := reads_finish.mp h
    exact ⟨.table fs, (spans.valueOf fs.plain).plain .args rfl (by decide)⟩
  · simp only [reads_expect_bind, reads_at?_bind] at h
    obtain ⟨us, rfl, h⟩ := h
    split at h
    · simp only [reads_pure_bind, reads_expect_bind, reads_finish] at h
      obtain ⟨us, rfl, rfl, rfl, rfl⟩ := h
      exact ⟨.list [], ((Spans.key .rightParen).after .leftParen).plain .args rfl (by decide)⟩
    · obtain ⟨a, j, us, read, h⟩ := reads_bind.mp h
      obtain ⟨e, first⟩ := sound.expr read
      obtain ⟨os, j, us, others, h⟩ := reads_bind.mp h
      obtain ⟨es, os', tail, rfl⟩ := commaExprs_sound sound others
      simp only [reads_pure_bind, reads_expect_bind, reads_finish] at h
      obtain ⟨us, rfl, rfl, rfl, rfl⟩ := h
      have all := ((first.append tail).append (.key .rightParen)).after .leftParen
      rw [List.append_nil] at all
      rw [List.reverse_append, List.reverse_reverse, List.reverse_singleton]
      exact ⟨.list (e :: es), all.plain .args rfl (by decide)⟩

theorem primaryExpr_sound (sound : L.Sound)
    (h : Reads (Grammar.primaryExpr L) i ts (some o) k vs) :
    ∃ e : Suffixed, Spans [e.phrase] i ts [o] k vs := by
  simp only [Grammar.primaryExpr, reads_peek_bind] at h
  split at h
  · next found =>
    obtain ⟨us, rfl⟩ := List.head?_eq_some_iff.mp found
    simp only [reads_leaf_bind, reads_pure, Option.some.injEq] at h
    obtain ⟨rfl, rfl, rfl⟩ := h
    exact ⟨.name ⟨Token.name.word, rfl⟩, Spans.leaf .nameExpr Token.name.word rfl (by decide)⟩
  · next found =>
    obtain ⟨us, rfl⟩ := List.head?_eq_some_iff.mp found
    simp only [reads_here_bind, reads_bump_bind] at h
    obtain ⟨a, j, us, read, h⟩ := reads_bind.mp h
    obtain ⟨e, inner⟩ := sound.expr read
    simp only [reads_expect_bind, reads_finish_bind, reads_pure, Option.some.injEq] at h
    obtain ⟨us, rfl, rfl, rfl, rfl⟩ := h
    refine ⟨.paren e, ?_⟩
    exact ((inner.append (.key .rightParen)).after .leftParen).plain .parenExpr rfl (by decide)
  · simp at h

/-- One suffix makes a longer suffixed expression, or there is none. -/
theorem suffix_sound (sound : L.Sound) {e : Suffixed} {o' : Outline} {again : Bool}
    {l : Nat} {ws : List Token} (first : Spans [e.phrase] i ts [o] j us)
    (h : Reads (Grammar.suffix L o) j us (o', again) l ws) :
    (again = true ∧ ∃ e' : Suffixed, Spans [e'.phrase] i ts [o'] l ws)
      ∨ (again = false ∧ o' = o ∧ l = j ∧ ws = us) := by
  obtain ⟨starts, -, -⟩ := first.marks e.plain
  simp only [Grammar.suffix, reads_startOf_bind, reads_peek_bind, starts] at h
  have withArgs {o₁ : Outline} {j : Nat} {us : List Token}
      (h : Reads (do
        let args ← Grammar.callArgs L
        let call ← Step.finish .callExpr (Mark.start i) [o₁, args]
        pure (call, true)) j us (o', again) l ws) :
      ∃ args : Args, ∃ a, again = true ∧ Spans [args.phrase] j us [a] l ws
        ∧ o' = .node .callExpr (Mark.start i) (max (Mark.stopBefore l) (Mark.start i)) [o₁, a] := by
    obtain ⟨a, j', us', read, h⟩ := reads_bind.mp h
    obtain ⟨args, spans⟩ := callArgs_sound sound read
    simp only [reads_finish_bind, reads_pure, Prod.mk.injEq] at h
    obtain ⟨⟨rfl, rfl⟩, rfl, rfl⟩ := h
    exact ⟨args, a, rfl, spans, rfl⟩
  have plainCall (h : Reads (do
        let args ← Grammar.callArgs L
        let call ← Step.finish .callExpr (Mark.start i) [o, args]
        pure (call, true)) j us (o', again) l ws) :
      again = true ∧ ∃ e' : Suffixed, Spans [e'.phrase] i ts [o'] l ws := by
    obtain ⟨args, a, rfl, spans, rfl⟩ := withArgs h
    exact ⟨rfl, .call e args, (first.append spans).plain .callExpr rfl (by decide)⟩
  split at h
  · next found =>
    obtain ⟨us, rfl⟩ := List.head?_eq_some_iff.mp found
    simp only [reads_bump_bind, reads_leafOf?_bind, reads_finish_bind, reads_pure,
      Prod.mk.injEq] at h
    obtain ⟨us, rfl, ⟨rfl, rfl⟩, rfl, rfl⟩ := h
    refine .inl ⟨rfl, .field e ⟨Token.name.word, rfl⟩, ?_⟩
    exact (first.append ((Spans.name .name rfl (by decide)).after .dot)).plain .fieldExpr rfl
      (by decide)
  · next found =>
    obtain ⟨us, rfl⟩ := List.head?_eq_some_iff.mp found
    rw [reads_bump_bind] at h
    obtain ⟨a, j', us, read, h⟩ := reads_bind.mp h
    obtain ⟨k, inner⟩ := sound.expr read
    simp only [reads_expect_bind, reads_finish_bind, reads_pure, Prod.mk.injEq] at h
    obtain ⟨us, rfl, ⟨rfl, rfl⟩, rfl, rfl⟩ := h
    refine .inl ⟨rfl, .index e k, ?_⟩
    exact (first.append ((inner.append (.key .rightBracket)).after .leftBracket)).plain
      .indexExpr rfl (by decide)
  · next found =>
    obtain ⟨us, rfl⟩ := List.head?_eq_some_iff.mp found
    simp only [reads_bump_bind, reads_leafOf?_bind, reads_finish_bind] at h
    obtain ⟨us, rfl, h⟩ := h
    obtain ⟨args, a, rfl, spans, rfl⟩ := withArgs h
    have method := (first.append ((Spans.name .name rfl (by decide)).after .colon)).plain
      .methodExpr rfl (by decide)
    refine .inl ⟨rfl, .method e ⟨Token.name.word, rfl⟩ args, ?_⟩
    exact (method.append spans).plain .callExpr rfl (by decide)
  · exact .inl (plainCall h)
  · exact .inl (plainCall h)
  · exact .inl (plainCall h)
  · exact .inl (plainCall h)
  · simp only [reads_pure, Prod.mk.injEq] at h
    obtain ⟨⟨rfl, rfl⟩, rfl, rfl⟩ := h
    exact .inr ⟨rfl, rfl, rfl, rfl⟩

theorem suffixedExpr_sound (sound : L.Sound)
    (h : Reads (Grammar.suffixedExpr L) i ts (some o) k vs) :
    ∃ e : Suffixed, Spans [e.phrase] i ts [o] k vs := by
  rw [Grammar.suffixedExpr] at h
  obtain ⟨primary, j, us, read, h⟩ := reads_bind.mp h
  cases primary with
  | none => simp at h
  | some o₁ =>
    obtain ⟨e, first⟩ := primaryExpr_sound sound read
    obtain ⟨o₂, j', us', loop, h⟩ := reads_bind.mp h
    simp only [reads_pure, Option.some.injEq] at h
    obtain ⟨rfl, rfl, rfl⟩ := h
    -- what was read so far is a suffixed expression in every round
    refine loop.iterate_induction (P := fun o₁ j us =>
      (∃ e : Suffixed, Spans [e.phrase] i ts [o₁] j us) →
        ∃ e : Suffixed, Spans [e.phrase] i ts [o] k vs) ?_ ?_ ⟨e, first⟩
    · rintro o₁ j us again h stop ⟨e, first⟩
      obtain ⟨-, longer⟩ | ⟨-, rfl, rfl, rfl⟩ := suffix_sound sound first h
      · exact longer
      · exact ⟨e, first⟩
    · rintro o₁ j us o₂ j' us' h advanced ih ⟨e, first⟩
      obtain ⟨-, longer⟩ | ⟨stops, -⟩ := suffix_sound sound first h
      · exact ih longer
      · exact absurd stops (by decide)

/-- Where no primary expression starts, nothing is read. -/
theorem suffixedExpr_none (h : Reads (Grammar.suffixedExpr L) i ts none k vs) :
    k = i ∧ vs = ts := by
  rw [Grammar.suffixedExpr] at h
  obtain ⟨primary, j, us, read, h⟩ := reads_bind.mp h
  cases primary with
  | some e =>
    obtain ⟨o, j', us', loop, h⟩ := reads_bind.mp h
    simp at h
  | none =>
    obtain ⟨-, rfl, rfl⟩ := reads_pure.mp h
    rw [Grammar.primaryExpr, reads_peek_bind] at read
    split at read
    · obtain ⟨o, j', us', first, read⟩ := reads_bind.mp read
      simp at read
    · rw [reads_here_bind] at read
      obtain ⟨_, j', us', first, read⟩ := reads_bind.mp read
      obtain ⟨e, j', us', first, read⟩ := reads_bind.mp read
      simp at read
    · obtain ⟨-, rfl, rfl⟩ := reads_pure.mp read
      exact ⟨rfl, rfl⟩

theorem simpleExpr_sound (sound : L.Sound) (h : Reads (Grammar.simpleExpr L) i ts o k vs) :
    ∃ e : Exp, Spans [e.phrase] i ts [o] k vs := by
  simp only [Grammar.simpleExpr, reads_peek_bind] at h
  split at h
  · next found =>
    obtain ⟨us, rfl⟩ := List.head?_eq_some_iff.mp found
    obtain ⟨t, j, us, read, h⟩ := reads_map_bind.mp h
    obtain ⟨fs, spans⟩ := tableConstructor_sound sound read
    obtain ⟨rfl, rfl, rfl⟩ := reads_valueOf.mp h
    exact ⟨.table fs, spans.valueOf fs.plain⟩
  · next found =>
    obtain ⟨us, rfl⟩ := List.head?_eq_some_iff.mp found
    simp only [reads_here_bind, reads_bump_bind] at h
    obtain ⟨body, j, us, read, h⟩ := reads_bind.mp h
    obtain ⟨ps, ss, spans⟩ := funcBody_sound sound read
    obtain ⟨t, j, us, closed, h⟩ := reads_map_bind.mp h
    obtain ⟨rfl, rfl, rfl⟩ := reads_finish.mp closed
    obtain ⟨rfl, rfl, rfl⟩ := reads_valueOf.mp h
    have closure := (spans.after .functionKw).plain .closureExpr rfl (by decide)
    exact ⟨.function ps ss, closure.valueOf (Phrase.plain_group rfl (by decide) Nat.one_pos)⟩
  · next t _ _ found =>
    obtain ⟨us, rfl⟩ := List.head?_eq_some_iff.mp found
    split at h
    · next isLiteral =>
      obtain ⟨o, j, us, read, h⟩ := reads_map_bind.mp h
      obtain ⟨rfl, rfl, rfl⟩ := reads_leaf_cons.mp read
      obtain ⟨rfl, rfl, rfl⟩ := reads_valueOf.mp h
      have text : Spans [leaf .literal t.word] i (t :: vs) _ _ vs :=
        Spans.leaf .literal t.word rfl (by decide)
      exact ⟨.literal ⟨t.word, isLiteral⟩,
        text.valueOf (Phrase.leaf_plain _ rfl (by decide))⟩
    · obtain ⟨operand, j, us, read, h⟩ := reads_bind.mp h
      cases operand with
      | none => exact absurd h not_reads_refuse_bind
      | some t =>
        obtain ⟨e, spans⟩ := suffixedExpr_sound sound read
        obtain ⟨rfl, rfl, rfl⟩ := reads_valueOf.mp h
        exact ⟨.suffixed e, spans.valueOf e.plain⟩
  · rw [reads_pure_bind] at h
    exact absurd h not_reads_refuse_bind

theorem operand_sound (sound : L.Sound) (h : Reads (Grammar.operand L) i ts o k vs) :
    ∃ e : Exp, Spans [e.phrase] i ts [o] k vs := by
  simp only [Grammar.operand, reads_peek_bind] at h
  split at h
  · next t found =>
    split at h
    · next isUnary =>
      obtain ⟨us, rfl⟩ := List.head?_eq_some_iff.mp found
      rw [reads_leaf_bind] at h
      obtain ⟨a, j, us', read, h⟩ := reads_bind.mp h
      obtain ⟨e, spans⟩ := sound.expr read
      obtain ⟨rfl, rfl, rfl⟩ := reads_join.mp h
      have op : Spans [leaf .operator t.word] i (t :: us) _ _ us :=
        Spans.leaf .operator t.word rfl (by decide)
      rw [op.join_eq (Phrase.leaf_plain _ rfl (by decide)) spans e.plain (Nat.le_succ i) spans.le]
      exact ⟨.unary ⟨t.word, isUnary⟩ e,
        (op.append spans).plain .unaryExpr rfl (by decide)⟩
    · exact simpleExpr_sound sound h
  · exact simpleExpr_sound sound h

theorem expression_sound (sound : L.Sound) (h : Reads (Grammar.expression L limit) i ts o k vs) :
    ∃ e : Exp, Spans [e.phrase] i ts [o] k vs := by
  rw [Grammar.expression] at h
  obtain ⟨left, j, us, read, loop⟩ := reads_bind.mp h
  have first := operand_sound sound read
  -- what was read so far is an expression in every round
  have round {o₁ o₂ : Outline} {j l : Nat} {us ws : List Token} {again : Bool}
      (h : Reads (Grammar.climb L limit o₁) j us (o₂, again) l ws)
      (before : ∃ e : Exp, Spans [e.phrase] i ts [o₁] j us) :
      ∃ e : Exp, Spans [e.phrase] i ts [o₂] l ws := by
    obtain ⟨e, spans⟩ := before
    rw [Grammar.climb, reads_peek_bind] at h
    split at h
    · next l r powers =>
      obtain ⟨t, found, powers⟩ := Option.bind_eq_some_iff.mp powers
      obtain ⟨us, rfl⟩ := List.head?_eq_some_iff.mp found
      split at h
      · simp only [reads_pure, Prod.mk.injEq] at h
        obtain ⟨⟨rfl, -⟩, rfl, rfl⟩ := h
        exact ⟨e, spans⟩
      · rw [reads_leaf_bind] at h
        obtain ⟨b, j', us', read, h⟩ := reads_bind.mp h
        obtain ⟨e', right⟩ := sound.expr read
        simp only [reads_join_bind, reads_pure, Prod.mk.injEq] at h
        obtain ⟨⟨rfl, -⟩, rfl, rfl⟩ := h
        have op : Spans [leaf .operator t.word] j (t :: us) _ _ us :=
          Spans.leaf .operator t.word rfl (by decide)
        have le := spans.le
        have le' := right.le
        rw [spans.join_eq e.plain right e'.plain (by omega) (by omega)]
        exact ⟨.binary e ⟨t.word, l, r, powers⟩ e',
          ((spans.append op).append right).plain .binaryExpr rfl (by decide)⟩
    · simp only [reads_pure, Prod.mk.injEq] at h
      obtain ⟨⟨rfl, -⟩, rfl, rfl⟩ := h
      exact ⟨e, spans⟩
  refine loop.iterate_induction (P := fun left j us =>
    (∃ e : Exp, Spans [e.phrase] i ts [left] j us) →
      ∃ e : Exp, Spans [e.phrase] i ts [o] k vs) ?_ ?_ first
  · intro left j us again h stop before
    exact round h before
  · intro left j us left' j' us' h advanced ih before
    exact ih (round h before)

end Operands

end LuaTyping
