import LuaTyping.Proofs.Syntax.Complete.Follow

/-!
# Printed expressions are read

`Level.Complete`: a level reads every printed expression and every printed statement that is
grouped and nests no deeper than the level allows, up to the place where its phrase ends.  Every
production for expressions passes this on to the next level; so do blocks and functions, which are
read on the level below.

* `commaExprs_complete`, `block_complete`, `parameters_complete`: the lists of the grammar.
* `suffixedExpr_complete`: one round of the parser for each suffix.
* `expression_complete`: one round of the parser for each operator on the left spine.
-/

namespace LuaTyping

open Phrase (key value ofName leaf exprList Spans commaTail commaList)

/-- The semicolon that a statement needs stands behind it. -/
def Stat.ClosedBy (us : List Token) : Stat → Prop
  | .empty | .returns _ _ => True
  | _ => us.head? = some .semicolon

/-- The level reads what is grouped, nests at most `n` levels deep and is closed where its phrase
ends. -/
structure Level.Complete (L : Level Sketch Outline) (n : Nat) : Prop where
  expr {e : Exp} {limit i ts o j us} : e.Grouped → e.nesting ≤ n → e.BareBehind limit →
    e.StopsBefore limit us → Spans [e.punctuate.phrase] i ts [o] j us →
      Step.Reads (L.expr limit) i ts o j us
  stat {s : Stat} {i ts o j us} : s.Grouped → s.nesting ≤ n → s.ClosedBy us →
    Spans [s.punctuate.phrase] i ts [o] j us → Step.Reads L.stat i ts o j us

/-! ## Lists -/

section Lists

open Step

variable {L : Level Sketch Outline} {n i j k : Nat} {ts us vs : List Token} {o : Outline}
  {os done : List Outline}

/-- An expression in front of a token that ends it. -/
theorem Level.Complete.subexpr (complete : L.Complete n) {e : Exp} (grouped : e.Grouped)
    (shallow : e.nesting ≤ n) (ends : EndsExpr us)
    (h : Spans [e.punctuate.phrase] i ts [o] j us) : Reads (L.expr 0) i ts o j us :=
  complete.expr grouped shallow e.bareBehind_zero (ends.stopsBefore e 0) h

theorem endsExpr_commaTail {ps : List Phrase} (h : Spans (commaTail ps) i ts os k us)
    (ends : EndsExpr us) : EndsExpr ts := by
  cases ps with
  | nil =>
    obtain ⟨rfl, -, -⟩ := Phrase.spans_nil.mp h
    exact ends
  | cons p ps =>
    obtain ⟨ts, rfl, -⟩ := Phrase.spans_word_cons.mp h
    exact endsExpr_cons ts rfl

theorem commaExprs_complete (complete : L.Complete n) (es : List Exp) (done : List Outline)
    (grouped : Exp.GroupedAll es) (shallow : Exp.nestingAll es ≤ n) (ends : EndsExpr us)
    (noComma : us.head? ≠ some .comma)
    (h : Spans (commaTail (Exp.phrases (Exp.punctuateAll es))) i ts os k us) :
    Reads (Grammar.commaItems (L.expr 0) done) i ts (os.reverse ++ done) k us := by
  induction es generalizing i ts os done with
  | nil =>
    obtain ⟨rfl, rfl, rfl⟩ := Phrase.spans_nil.mp h
    refine Reads.last ?_
    rw [reads_accept_bind_other noComma]
    simp
  | cons e es ih =>
    rw [Exp.GroupedAll] at grouped
    rw [Exp.nestingAll, Nat.max_le] at shallow
    rw [Exp.punctuateAll, Exp.phrases, commaTail] at h
    obtain ⟨ts, rfl, items⟩ := Phrase.spans_word_cons.mp h
    obtain ⟨o, j, us', os, first, rest, rfl⟩ := e.punctuate.plain.solid.spans_cons.mp items
    have read := complete.subexpr grouped.1 shallow.1 (endsExpr_commaTail rest ends) first
    have le := read.le
    rw [List.reverse_cons, List.append_assoc]
    refine Reads.again ?_ (by omega : i < j) (ih (o :: done) grouped.2 shallow.2 rest)
    rw [Token.token_word, reads_accept_bind_self, if_pos rfl, read.bind]
    simp

theorem exprList_complete (complete : L.Complete n) {e : Exp} {es : List Exp}
    (grouped : Exp.GroupedAll (e :: es)) (shallow : Exp.nestingAll (e :: es) ≤ n)
    (ends : EndsExpr us) (noComma : us.head? ≠ some .comma)
    (h : Spans [exprList (Exp.phrases (Exp.punctuateAll (e :: es)))] i ts [o] k us) :
    Reads (Grammar.exprList L) i ts o k us := by
  rw [Exp.GroupedAll] at grouped
  rw [Exp.nestingAll, Nat.max_le] at shallow
  rw [Exp.punctuateAll, Exp.phrases, exprList, commaList] at h
  obtain ⟨os, items, eq⟩ := (Phrase.spans_wrap (Mark.start i)
    (row_commaExprs e.punctuate (Exp.punctuateAll es)) e.punctuate.plain rfl (by decide)).mp h
  obtain rfl := List.singleton_inj.mp eq
  obtain ⟨o, j, us', os, first, rest, rfl⟩ := e.punctuate.plain.solid.spans_cons.mp items
  have read := complete.subexpr grouped.1 shallow.1 (endsExpr_commaTail rest ends) first
  have others := commaExprs_complete complete es [o] grouped.2 shallow.2 ends noComma rest
  rw [Grammar.exprList, reads_here_bind, read.bind, others.bind]
  simp

end Lists

/-! ## Blocks and functions -/

section Functions

open Step

variable {L : Level Sketch Outline} {n i j k : Nat} {ts us vs : List Token} {o : Outline}
  {os done a : List Outline}

theorem Exp.one_le_nesting : (e : Exp) → 1 ≤ e.nesting
  | .binary left _ _ => Nat.le_trans left.one_le_nesting (Nat.le_max_left _ _)
  | .literal _ | .table _ | .function _ _ | .suffixed _ | .unary _ _ => Nat.le_add_left 1 _

theorem Stat.one_le_nesting (s : Stat) : 1 ≤ s.nesting := by
  cases s <;> simp [Stat.nesting]

/-- A statement of a block, and the block goes on behind it. -/
theorem blockItem_complete (complete : L.Complete n) {s : Stat} (grouped : s.Grouped)
    (shallow : s.nesting ≤ n) (closed : s.ClosedBy us)
    (h : Spans [s.punctuate.phrase] i ts [o] j us)
    (rest : Reads (iterate (Grammar.blockItem L) (o :: done)) j us a k vs) :
    Reads (iterate (Grammar.blockItem L) done) i ts a k vs := by
  obtain ⟨t, begins, begun⟩ := s.punctuate.starts
  obtain ⟨ts, rfl⟩ := begins.head h
  have read := complete.stat grouped shallow closed h
  have moved : i < j := by
    have taken := s.punctuate.isStatement.solid.words_pos
    have stop := h.stop_eq
    rw [Phrase.count_cons] at stop
    omega
  refine Reads.again ?_ moved rest
  rw [Grammar.blockItem, reads_blockEnds_bind, List.head?_cons, Option.all_some, begun,
    if_neg (by decide), reads_position_bind, read.bind, reads_position_bind, if_neg (by omega)]
  simp

theorem blockItems_complete (complete : L.Complete n) (ss : List Stat) (done : List Outline)
    (grouped : Stat.GroupedAll ss) (shallow : Stat.nestingAll ss ≤ n)
    (ends : us.head?.all Token.endsBlock = true)
    (h : Spans (Stat.phrases (Stat.punctuateAll ss)) i ts os k us) :
    Reads (iterate (Grammar.blockItem L) done) i ts (os.reverse ++ done) k us := by
  induction ss generalizing i ts os done with
  | nil =>
    obtain ⟨rfl, rfl, rfl⟩ := Phrase.spans_nil.mp h
    refine Reads.last ?_
    rw [Grammar.blockItem, reads_blockEnds_bind, ends, if_pos rfl]
    simp
  | cons s ss ih =>
    rw [Stat.GroupedAll] at grouped
    rw [Stat.nestingAll, Nat.max_le] at shallow
    rw [Stat.punctuateAll, Stat.phrases] at h
    obtain ⟨o, j, us', os, first, rest, rfl⟩ := s.punctuate.isStatement.solid.spans_cons.mp h
    by_cases isReturn : s.mark = []
    · -- a `return` is closed by its own semicolon
      have closed : s.ClosedBy us' := by
        cases s with
        | returns => trivial
        | _ => exact absurd isReturn (List.cons_ne_nil _ _)
      rw [isReturn, List.nil_append] at rest
      refine blockItem_complete complete grouped.1 shallow.1 closed first ?_
      rw [List.reverse_cons, List.append_assoc]
      exact ih _ grouped.2 shallow.2 rest
    · have mark : s.mark = [.empty] := by
        cases s with
        | returns => exact absurd rfl isReturn
        | _ => rfl
      rw [mark, List.singleton_append, Stat.phrases] at rest
      obtain ⟨o', j', us'', os, second, others, rfl⟩ :=
        Stat.empty.isStatement.solid.spans_cons.mp rest
      have closed : s.ClosedBy us' := by
        obtain ⟨ts', eq⟩ :=
          ((Phrase.Begins.word Token.semicolon.word).group .emptyStat []).head second
        rw [eq]
        cases s with
        | empty | returns => trivial
        | _ => rfl
      have room : Stat.empty.nesting ≤ n := by
        have := s.one_le_nesting
        exact Nat.le_trans this shallow.1
      refine blockItem_complete complete grouped.1 shallow.1 closed first ?_
      refine blockItem_complete (s := .empty) complete trivial room trivial second ?_
      rw [List.reverse_cons, List.reverse_cons, List.append_assoc, List.append_assoc]
      exact ih _ grouped.2 shallow.2 others

theorem block_complete (complete : L.Complete n) {ss : List Stat} (grouped : Stat.GroupedAll ss)
    (shallow : Stat.nestingAll ss ≤ n) (ends : us.head?.all Token.endsBlock = true)
    (h : Spans [.group .block (Stat.phrases (Stat.punctuateAll ss))] i ts [o] k us) :
    Reads (Grammar.block L) i ts o k us := by
  obtain ⟨os, stats, eq⟩ := (Phrase.spans_block (by
    intro p mem
    rw [Stat.phrases_eq_map] at mem
    obtain ⟨s, -, rfl⟩ := List.mem_map.mp mem
    exact s.isStatement)).mp h
  obtain rfl := List.singleton_inj.mp eq
  have read := blockItems_complete complete ss [] grouped shallow ends stats
  rw [Grammar.block, reads_here_bind, read.bind]
  simp

theorem parameters_complete (names : List Name) (variadic : Bool) (done : List Outline)
    (ne : Phrase.paramsOf ⟨names, variadic⟩ ≠ [])
    (h : Spans (commaList (Phrase.paramsOf ⟨names, variadic⟩)) i ts os k (.rightParen :: us)) :
    Reads (iterate Grammar.parameter done) i ts (os.reverse ++ done) k (.rightParen :: us) := by
  induction names generalizing i ts os done with
  | nil =>
    cases variadic with
    | false => exact absurd rfl ne
    | true =>
      obtain ⟨ts, os, rfl, rest, rfl⟩ := (Phrase.spans_leaf_cons rfl (by decide)).mp h
      obtain ⟨rfl, rfl, rfl⟩ := Phrase.spans_nil.mp rest
      refine Reads.last ?_
      simp [Grammar.parameter]
  | cons n ns ih =>
    have split : Phrase.paramsOf ⟨n :: ns, variadic⟩
        = ofName .paramDef n :: Phrase.paramsOf ⟨ns, variadic⟩ := rfl
    rw [split, commaList] at h
    obtain ⟨ts, os, rfl, rest, rfl⟩ := (Phrase.spans_name_cons rfl (by decide)).mp h
    rw [List.reverse_cons, List.append_assoc]
    by_cases last : Phrase.paramsOf ⟨ns, variadic⟩ = []
    · rw [last] at rest
      obtain ⟨rfl, rfl, rfl⟩ := Phrase.spans_nil.mp rest
      refine Reads.last ?_
      rw [Grammar.parameter, reads_peek_bind, List.head?_cons, reads_leaf_bind,
        reads_accept_bind_other (by simp)]
      simp
    · rw [commaTail_eq last] at rest
      obtain ⟨ts, rfl, others⟩ := Phrase.spans_key_cons.mp rest
      refine Reads.again ?_ (by omega : i < i + 1 + 1) (ih (.leaf .paramDef i :: done) last others)
      simp [Grammar.parameter]

/-- The parameters start with no closing parenthesis. -/
theorem head_params {ps : Params} (ne : Phrase.paramsOf ps ≠ [])
    (h : Spans (commaList (Phrase.paramsOf ps)) i ts os k us) : ts.head? ≠ some .rightParen := by
  obtain ⟨names, variadic⟩ := ps
  cases names with
  | nil =>
    cases variadic with
    | false => exact absurd rfl ne
    | true =>
      obtain ⟨ts, os, rfl, -, -⟩ := (Phrase.spans_leaf_cons rfl (by decide)).mp h
      simp
  | cons n ns =>
    obtain ⟨ts, os, rfl, -, -⟩ := (Phrase.spans_name_cons rfl (by decide)).mp h
    simp

theorem funcBody_complete (complete : L.Complete n) {ps : Params} {body : List Stat}
    (grouped : Stat.GroupedAll body) (shallow : Stat.nestingAll body ≤ n)
    (h : Spans [.funcBody ps (Stat.phrases (Stat.punctuateAll body))] i ts [o] k vs) :
    Reads (Grammar.funcBody L) i ts o k vs := by
  obtain ⟨os, parts, rfl⟩ := (Phrase.spans_node rfl (by decide)).mp h
  obtain ⟨list, j, us, os, first, rest, rfl⟩ := Phrase.spans_group_cons.mp parts
  obtain ⟨block, j', us', os', second, close, rfl⟩ := Phrase.spans_group_cons.mp rest
  obtain ⟨rfl, rfl, rfl⟩ := Phrase.spans_word.mp close
  obtain ⟨os, inner, rfl⟩ := (Phrase.spans_node rfl (by decide)).mp first
  obtain ⟨ts, rfl, params⟩ := Phrase.spans_key_cons.mp inner
  obtain ⟨j, names, rfl⟩ := Phrase.spans_concat_key.mp params
  have read := block_complete complete grouped shallow rfl second
  have behind : Reads (do
      Step.expect .rightParen .parenClose
      let paramList ← Step.finish .paramList (Mark.start i) os
      let body ← Grammar.block L
      Step.expect .endKw .endWord
      Step.finish .funcBody (Mark.start i) [paramList, body]) j (.rightParen :: us)
      (.node .funcBody (Mark.start i) (max (Mark.stopBefore (j' + 1)) (Mark.start i))
        [.node .paramList (Mark.start i) (max (Mark.stopBefore (j + 1)) (Mark.start i)) os, block])
      (j' + 1) vs := by
    rw [reads_expect_bind]
    refine ⟨us, rfl, ?_⟩
    rw [reads_finish_bind, read.bind, reads_expect_bind]
    exact ⟨vs, rfl, reads_finish.mpr ⟨rfl, rfl, rfl⟩⟩
  simp only [Grammar.funcBody, reads_here_bind, reads_expect_bind, reads_at?_bind]
  refine ⟨ts, rfl, ?_⟩
  by_cases none : Phrase.paramsOf ps = []
  · rw [none] at names
    obtain ⟨rfl, rfl, rfl⟩ := Phrase.spans_nil.mp names
    exact behind
  · have read := parameters_complete ps.names ps.variadic [] none names
    have start : (ts.head? == some Token.rightParen) = false :=
      beq_eq_false_iff_ne.mpr (head_params none names)
    rw [start, if_neg (by decide), Grammar.parameters, read.bind]
    simpa using behind

end Functions

/-! ## Tables and arguments -/

section Tables

open Step

variable {L : Level Sketch Outline} {n i j k : Nat} {ts us vs : List Token} {o : Outline}
  {os done : List Outline}

theorem tableField_complete (complete : L.Complete n) {f : Field} (grouped : f.Grouped)
    (shallow : f.nesting ≤ n) (ends : EndsExpr us) (noAssign : us.head? ≠ some .assign)
    (h : Spans [f.punctuate.phrase] i ts [o] j us) : Reads (Grammar.tableField L) i ts o j us := by
  cases f with
  | keyed k v =>
    rw [Field.nesting, Nat.max_le] at shallow
    obtain ⟨os, parts, rfl⟩ := (Phrase.spans_node rfl (by decide)).mp h
    obtain ⟨ts, rfl, inner⟩ := Phrase.spans_key_cons.mp parts
    obtain ⟨a, j₁, us₁, os, first, rest, rfl⟩ := k.punctuate.plain.solid.spans_cons.mp inner
    obtain ⟨us₁, rfl, equals⟩ := Phrase.spans_key_cons.mp rest
    obtain ⟨us₂, rfl, last⟩ := Phrase.spans_key_cons.mp equals
    obtain ⟨b, rfl⟩ := v.punctuate.plain.solid.spans last
    have key := complete.subexpr grouped.1 shallow.1 (endsExpr_cons _ rfl) first
    have value := complete.subexpr grouped.2 shallow.2 ends last
    simp only [Grammar.tableField, reads_here_bind, reads_peek_bind, reads_peekSecond_bind,
      List.head?_cons, reads_bump_bind, key.bind, reads_expect_bind]
    refine ⟨_, rfl, _, rfl, ?_⟩
    rw [value.bind]
    exact reads_finish.mpr ⟨rfl, rfl, rfl⟩
  | named m v =>
    obtain ⟨os, parts, rfl⟩ := (Phrase.spans_node rfl (by decide)).mp h
    obtain ⟨ts, os, rfl, rest, rfl⟩ := (Phrase.spans_name_cons rfl (by decide)).mp parts
    obtain ⟨us₁, rfl, last⟩ := Phrase.spans_key_cons.mp rest
    obtain ⟨b, rfl⟩ := v.punctuate.plain.solid.spans last
    have value := complete.subexpr grouped shallow ends last
    simp only [Grammar.tableField, reads_here_bind, reads_peek_bind, reads_peekSecond_bind,
      List.head?_cons, List.tail_cons, reads_leaf_bind, reads_bump_bind, value.bind]
    exact reads_finish.mpr ⟨rfl, rfl, rfl⟩
  | positional v =>
    obtain ⟨os, parts, rfl⟩ := (Phrase.spans_node rfl (by decide)).mp h
    obtain ⟨b, rfl⟩ := v.punctuate.plain.solid.spans parts
    have value := complete.subexpr grouped shallow ends parts
    obtain ⟨t, begins, first⟩ := v.punctuate.starts
    obtain ⟨ts, rfl⟩ := begins.head parts
    simp only [Grammar.tableField, reads_here_bind, reads_peek_bind, reads_peekSecond_bind,
      List.head?_cons, List.tail_cons]
    split
    · next found =>
      obtain rfl := Option.some.inj found
      exact absurd first (by decide)
    · next found second =>
      obtain rfl := Option.some.inj found
      exact absurd second (v.punctuate.second_ne_assign noAssign parts)
    · rw [value.bind]
      exact reads_finish.mpr ⟨rfl, rfl, rfl⟩

theorem fieldSeparator_complete (separator : Separator) :
    Reads Grammar.fieldSeparator i (separator.token :: us) true (i + 1) us := by
  cases separator with
  | comma => simp [Grammar.fieldSeparator, Separator.token]
  | semicolon =>
    rw [Grammar.fieldSeparator, Separator.token, reads_accept_bind_other (by simp)]
    simp

theorem no_fieldSeparator :
    Reads Grammar.fieldSeparator i (.rightBrace :: us) false i (.rightBrace :: us) := by
  rw [Grammar.fieldSeparator, reads_accept_bind_other (by simp)]
  simp

/-- A field of a table in front of what may separate it from the next one. -/
theorem tableItem_complete (complete : L.Complete n) (done : List Outline) {f : Field} {more : Bool}
    (grouped : f.Grouped) (shallow : f.nesting ≤ n) (ends : EndsExpr us)
    (noAssign : us.head? ≠ some .assign) (h : Spans [f.punctuate.phrase] i ts [o] j us)
    (separated : Reads Grammar.fieldSeparator j us more k vs) :
    Reads (Grammar.tableItem L done) i ts (o :: done, more) k vs := by
  have read := tableField_complete complete grouped shallow ends noAssign h
  obtain ⟨t, begins, first⟩ := f.punctuate.starts
  obtain ⟨ts, rfl⟩ := begins.head h
  have goesOn : (((t :: ts).head? == some .rightBrace) || (t :: ts).isEmpty) = false := by
    simp [first]
  simp only [Grammar.tableItem, reads_at?_bind, reads_atEnd_bind]
  rw [goesOn, if_neg (by decide), read.bind, separated.bind]
  exact reads_pure.mpr ⟨rfl, rfl, rfl⟩

theorem fields_complete (complete : L.Complete n) : (fs : Fields) → (done : List Outline) →
    {i : Nat} → {ts : List Token} → {os : List Outline} → fs.Grouped → fs.nesting ≤ n →
      Spans fs.punctuate.phrases i ts os k (.rightBrace :: us) →
        Reads (iterate (Grammar.tableItem L) done) i ts (os.reverse ++ done) k (.rightBrace :: us)
  | .none, done, _, _, _, _, _, h => by
    obtain ⟨rfl, rfl, rfl⟩ := Phrase.spans_nil.mp h
    refine Reads.last ?_
    simp [Grammar.tableItem]
  | .last f, done, _, _, _, grouped, shallow, h => by
    obtain ⟨o, rfl⟩ := f.punctuate.plain.solid.spans h
    exact Reads.last (tableItem_complete complete done grouped shallow (endsExpr_cons _ rfl)
      (by simp) h no_fieldSeparator)
  | .more f separator rest, done, i, ts, _, grouped, shallow, h => by
    rw [Fields.nesting, Nat.max_le] at shallow
    obtain ⟨o, j, us', os, first, others, rfl⟩ := f.punctuate.plain.solid.spans_cons.mp h
    obtain ⟨us', rfl, behind⟩ := Phrase.spans_key_cons.mp others
    have ends : EndsExpr (separator.token :: us') := by
      cases separator <;> exact endsExpr_cons _ rfl
    have noAssign : (separator.token :: us').head? ≠ some .assign := by
      cases separator <;> simp [Separator.token]
    have round := tableItem_complete complete done grouped.1 shallow.1 ends noAssign first
      (fieldSeparator_complete separator)
    have le := first.le
    rw [List.reverse_cons, List.append_assoc]
    exact round.again (by omega)
      (fields_complete complete rest (o :: done) grouped.2 shallow.2 behind)

theorem tableConstructor_complete (complete : L.Complete n) {fs : Fields} (grouped : fs.Grouped)
    (shallow : fs.nesting ≤ n) (h : Spans [.tableOf fs.punctuate.phrases] i ts [o] k vs) :
    Reads (Grammar.tableConstructor L) i ts o k vs := by
  obtain ⟨os, parts, rfl⟩ := (Phrase.spans_node rfl (by decide)).mp h
  obtain ⟨ts, rfl, inner⟩ := Phrase.spans_key_cons.mp parts
  obtain ⟨j, fields, rfl⟩ := Phrase.spans_concat_key.mp inner
  have read := fields_complete complete fs [] grouped shallow fields
  rw [Grammar.tableConstructor, reads_here_bind, reads_bump_bind, read.bind, reads_expect_bind]
  refine ⟨vs, rfl, ?_⟩
  rw [List.append_nil, List.reverse_reverse]
  exact reads_finish.mpr ⟨rfl, rfl, rfl⟩

end Tables

/-! ## Suffixes -/

section Suffixes

open Step

variable {L : Level Sketch Outline} {n i j k : Nat} {ts us vs : List Token} {o a : Outline}

theorem callArgs_complete (complete : L.Complete n) {args : Args} (grouped : args.Grouped)
    (shallow : args.nesting ≤ n) (h : Spans [args.punctuate.phrase] i ts [o] j us) :
    Reads (Grammar.callArgs L) i ts o j us := by
  cases args with
  | list es =>
    obtain ⟨os, parts, rfl⟩ := (Phrase.spans_node rfl (by decide)).mp h
    obtain ⟨ts, rfl, inner⟩ := Phrase.spans_key_cons.mp parts
    obtain ⟨j, items, rfl⟩ := Phrase.spans_concat_key.mp inner
    simp only [Grammar.callArgs, reads_here_bind, reads_peek_bind, List.head?_cons,
      reads_expect_bind, reads_at?_bind]
    refine ⟨ts, rfl, ?_⟩
    cases es with
    | nil =>
      obtain ⟨rfl, rfl, rfl⟩ := Phrase.spans_nil.mp items
      simp
    | cons e es =>
      obtain ⟨groupedHead, groupedTail⟩ : e.Grouped ∧ Exp.GroupedAll es := grouped
      obtain ⟨shallowHead, shallowTail⟩ : e.nesting ≤ n ∧ Exp.nestingAll es ≤ n :=
        Nat.max_le.mp shallow
      obtain ⟨o, j', us', os, first, rest, rfl⟩ := e.punctuate.plain.solid.spans_cons.mp items
      have ends : EndsExpr (.rightParen :: us) := endsExpr_cons us rfl
      have read := complete.subexpr groupedHead shallowHead (endsExpr_commaTail rest ends) first
      have others := commaExprs_complete complete es [o] groupedTail shallowTail ends (by simp) rest
      obtain ⟨t, begins, starts⟩ := e.punctuate.starts
      obtain ⟨ts, rfl⟩ := begins.head first
      have goesOn : ((t :: ts).head? == some Token.rightParen) = false := by
        refine beq_eq_false_iff_ne.mpr fun eq => ?_
        obtain rfl := Option.some.inj eq
        exact absurd starts (by decide)
      rw [goesOn, if_neg (by decide), read.bind, others.bind, reads_expect_bind]
      refine ⟨us, rfl, ?_⟩
      rw [reads_pure_bind, List.reverse_append, List.reverse_reverse, List.reverse_singleton]
      exact reads_finish.mpr ⟨rfl, rfl, rfl⟩
  | table fields =>
    obtain ⟨os, parts, rfl⟩ := (Phrase.spans_node rfl (by decide)).mp h
    obtain ⟨b, rfl⟩ := fields.punctuate.plain.value.solid.spans parts
    obtain ⟨c, inner, rfl⟩ := fields.punctuate.plain.spans_value.mp parts
    have read := tableConstructor_complete complete grouped shallow inner
    obtain ⟨ts, rfl⟩ := ((Phrase.Begins.word Token.leftBrace.word).group _ _).head inner
    rw [Token.token_word] at read ⊢
    simp only [Grammar.callArgs, reads_here_bind, reads_peek_bind, List.head?_cons, read.bind]
    exact reads_finish.mpr ⟨rfl, rfl, rfl⟩
  | string text =>
    obtain ⟨os, parts, rfl⟩ := (Phrase.spans_node rfl (by decide)).mp h
    have plain : (leaf .literal text.word).Plain := Phrase.leaf_plain _ rfl (by decide)
    obtain ⟨b, rfl⟩ := plain.value.solid.spans parts
    obtain ⟨c, inner, rfl⟩ := plain.spans_value.mp parts
    obtain ⟨rfl, eq, rfl⟩ := (Phrase.spans_leaf rfl (by decide)).mp inner
    obtain rfl := List.singleton_inj.mp eq
    have isString := text.isString
    generalize text.word.token = t at isString ⊢
    cases t with
    | quoted => simp [Grammar.callArgs]
    | longString => simp [Grammar.callArgs]
    | _ => exact absurd isString (by decide)

theorem suffix_stops (ends : EndsSuffix us) : Reads (Grammar.suffix L o) j us (o, false) j us := by
  rw [Grammar.suffix, reads_startOf_bind, reads_peek_bind]
  have none (t : Token) (mem : us.head? = some t) : t.startsSuffix = false := ends t mem
  split <;> first
    | exact reads_pure.mpr ⟨rfl, rfl, rfl⟩
    | next found => exact absurd (none _ found) (by decide)

/-- A call of what was read so far. -/
theorem suffix_call (complete : L.Complete n) {args : Args} {b : Outline} (grouped : args.Grouped)
    (shallow : args.nesting ≤ n) (h : Spans [args.punctuate.phrase] j us [b] k vs)
    (first : o.first = Mark.start i) :
    Reads (Grammar.suffix L o) j us
      (.node .callExpr (Mark.start i) (max (Mark.stopBefore k) (Mark.start i)) [o, b], true)
      k vs := by
  have read := callArgs_complete complete grouped shallow h
  obtain ⟨t, begins, starts⟩ := args.punctuate.starts
  obtain ⟨us, rfl⟩ := begins.head h
  rcases starts with rfl | rfl | rfl | rfl <;>
    simp only [Grammar.suffix, reads_startOf_bind, reads_peek_bind, List.head?_cons,
      read.bind, first,
      reads_finish_bind] <;>
    exact reads_pure.mpr ⟨rfl, rfl, rfl⟩

/-- An element of what was read so far. -/
theorem suffix_index (complete : L.Complete n) {e : Exp} {b : Outline} (grouped : e.Grouped)
    (shallow : e.nesting ≤ n)
    (h : Spans [e.punctuate.phrase] (j + 1) us [b] k (.rightBracket :: vs))
    (first : o.first = Mark.start i) :
    Reads (Grammar.suffix L o) j (.leftBracket :: us)
      (.node .indexExpr (Mark.start i) (max (Mark.stopBefore (k + 1)) (Mark.start i)) [o, b], true)
      (k + 1) vs := by
  have read := complete.subexpr grouped shallow (endsExpr_cons _ rfl) h
  simp only [Grammar.suffix, reads_startOf_bind, reads_peek_bind, List.head?_cons,
    reads_bump_bind, read.bind,
    reads_expect_bind, first]
  refine ⟨_, rfl, ?_⟩
  rw [reads_finish_bind]
  exact reads_pure.mpr ⟨rfl, rfl, rfl⟩

/-- A call of a method of what was read so far. -/
theorem suffix_method (complete : L.Complete n) {args : Args} {b : Outline}
    (grouped : args.Grouped) (shallow : args.nesting ≤ n)
    (h : Spans [args.punctuate.phrase] (j + 1 + 1) us [b] k vs) (first : o.first = Mark.start i) :
    Reads (Grammar.suffix L o) j (.colon :: .name :: us)
      (.node .callExpr (Mark.start i) (max (Mark.stopBefore k) (Mark.start i))
        [.node .methodExpr (Mark.start i) (max (Mark.stopBefore (j + 1 + 1)) (Mark.start i))
          [o, .leaf .name (j + 1)], b], true) k vs := by
  have read := callArgs_complete complete grouped shallow h
  simp only [Grammar.suffix, reads_startOf_bind, reads_peek_bind, List.head?_cons, reads_bump_bind,
    reads_leafOf?_bind, reads_finish_bind, first]
  refine ⟨_, rfl, ?_⟩
  rw [read.bind, reads_finish_bind]
  exact reads_pure.mpr ⟨rfl, rfl, rfl⟩

theorem suffixedExpr_primary (primary : Reads (Grammar.primaryExpr L) i ts (some o) j us)
    (rest : Reads (iterate (Grammar.suffix L) o) j us a k vs) :
    Reads (Grammar.suffixedExpr L) i ts (some a) k vs := by
  rw [Grammar.suffixedExpr, primary.bind, rest.bind]
  exact reads_pure.mpr ⟨rfl, rfl, rfl⟩

/-- What reads the suffixes behind a suffixed expression reads them behind its primary
expression. -/
theorem suffixedExpr_climbs (complete : L.Complete n) : (e : Suffixed) → {j : Nat} →
    {us : List Token} → {o : Outline} → e.Grouped → e.nesting ≤ n →
      Spans [e.punctuate.phrase] i ts [o] j us → Reads (iterate (Grammar.suffix L) o) j us a k vs →
        Reads (Grammar.suffixedExpr L) i ts (some a) k vs
  | .name m, _, _, _, _, _, h, rest => by
    obtain ⟨rfl, eq, rfl⟩ := (Phrase.spans_leaf rfl (by decide)).mp h
    obtain rfl := List.singleton_inj.mp eq
    refine suffixedExpr_primary ?_ rest
    simp [Grammar.primaryExpr, m.isName]
  | .paren e, _, _, _, grouped, shallow, h, rest => by
    obtain ⟨os, parts, rfl⟩ := (Phrase.spans_node rfl (by decide)).mp h
    obtain ⟨ts, rfl, inner⟩ := Phrase.spans_key_cons.mp parts
    obtain ⟨b, j, us, os, first, close, rfl⟩ := e.punctuate.plain.solid.spans_cons.mp inner
    obtain ⟨rfl, rfl, rfl⟩ := Phrase.spans_word.mp close
    have read := complete.subexpr grouped shallow (endsExpr_cons _ rfl) first
    refine suffixedExpr_primary ?_ rest
    simp only [Grammar.primaryExpr, reads_peek_bind, List.head?_cons, reads_here_bind,
      reads_bump_bind, read.bind, reads_expect_bind]
    refine ⟨_, rfl, ?_⟩
    rw [reads_finish_bind]
    exact reads_pure.mpr ⟨rfl, rfl, rfl⟩
  | .field e m, _, _, _, grouped, shallow, h, rest => by
    obtain ⟨os, parts, rfl⟩ := (Phrase.spans_node rfl (by decide)).mp h
    obtain ⟨b, j, us, os, first, behind, rfl⟩ := e.punctuate.plain.solid.spans_cons.mp parts
    obtain ⟨us, rfl, name⟩ := Phrase.spans_key_cons.mp behind
    obtain ⟨us, os, rfl, none, rfl⟩ := (Phrase.spans_name_cons rfl (by decide)).mp name
    obtain ⟨rfl, rfl, rfl⟩ := Phrase.spans_nil.mp none
    have starts := (first.marks e.punctuate.plain).1
    refine suffixedExpr_climbs complete e grouped shallow first (Reads.again ?_ (by omega) rest)
    simp [Grammar.suffix, starts]
  | .index e m, _, _, _, grouped, shallow, h, rest => by
    obtain ⟨shallowHead, shallowKey⟩ : e.nesting ≤ n ∧ m.nesting ≤ n := Nat.max_le.mp shallow
    obtain ⟨os, parts, rfl⟩ := (Phrase.spans_node rfl (by decide)).mp h
    obtain ⟨b, j, us, os, first, behind, rfl⟩ := e.punctuate.plain.solid.spans_cons.mp parts
    obtain ⟨us, rfl, inner⟩ := Phrase.spans_key_cons.mp behind
    obtain ⟨c, j', us, os, second, close, rfl⟩ := m.punctuate.plain.solid.spans_cons.mp inner
    obtain ⟨rfl, rfl, rfl⟩ := Phrase.spans_word.mp close
    have le := second.le
    have starts := (first.marks e.punctuate.plain).1
    exact suffixedExpr_climbs complete e grouped.1 shallowHead first
      (Reads.again (suffix_index complete grouped.2 shallowKey second starts) (by omega) rest)
  | .call e args, _, _, _, grouped, shallow, h, rest => by
    obtain ⟨shallowHead, shallowArgs⟩ : e.nesting ≤ n ∧ args.nesting ≤ n := Nat.max_le.mp shallow
    obtain ⟨os, parts, rfl⟩ := (Phrase.spans_node rfl (by decide)).mp h
    obtain ⟨b, j, us, os, first, behind, rfl⟩ := e.punctuate.plain.solid.spans_cons.mp parts
    obtain ⟨c, rfl⟩ := args.punctuate.plain.solid.spans behind
    have starts := (first.marks e.punctuate.plain).1
    have moved := (behind.marks args.punctuate.plain).2.2
    exact suffixedExpr_climbs complete e grouped.1 shallowHead first
      (Reads.again (suffix_call complete grouped.2 shallowArgs behind starts) moved rest)
  | .method e m args, _, _, _, grouped, shallow, h, rest => by
    obtain ⟨shallowHead, shallowArgs⟩ : e.nesting ≤ n ∧ args.nesting ≤ n := Nat.max_le.mp shallow
    obtain ⟨os, parts, rfl⟩ := (Phrase.spans_node rfl (by decide)).mp h
    obtain ⟨b, j, us, os, callee, behind, rfl⟩ := Phrase.spans_group_cons.mp parts
    obtain ⟨c, rfl⟩ := args.punctuate.plain.solid.spans behind
    obtain ⟨os, inner, rfl⟩ := (Phrase.spans_node rfl (by decide)).mp callee
    obtain ⟨b, j, us, os, first, method, rfl⟩ := e.punctuate.plain.solid.spans_cons.mp inner
    obtain ⟨us, rfl, name⟩ := Phrase.spans_key_cons.mp method
    obtain ⟨us, os, rfl, none, rfl⟩ := (Phrase.spans_name_cons rfl (by decide)).mp name
    obtain ⟨rfl, rfl, rfl⟩ := Phrase.spans_nil.mp none
    have le := behind.le
    have starts := (first.marks e.punctuate.plain).1
    exact suffixedExpr_climbs complete e grouped.1 shallowHead first
      (Reads.again (suffix_method complete grouped.2 shallowArgs behind starts) (by omega) rest)

theorem suffixedExpr_complete (complete : L.Complete n) {e : Suffixed} (grouped : e.Grouped)
    (shallow : e.nesting ≤ n) (ends : EndsSuffix us)
    (h : Spans [e.punctuate.phrase] i ts [o] j us) :
    Reads (Grammar.suffixedExpr L) i ts (some o) j us :=
  suffixedExpr_climbs complete e grouped shallow h (Reads.last (suffix_stops ends))

end Suffixes

/-! ## Operators -/

section Operators

open Step

variable {L : Level Sketch Outline} {n limit i j k : Nat} {ts us vs : List Token} {o a : Outline}

theorem reads_literal {t : Token} (isLiteral : t.isLiteral = true) :
    Reads (Grammar.operand L) i (t :: us) (Outline.value (.leaf .literal i)) (i + 1) us := by
  have notUnary : t.isUnary = false := by
    cases t <;> first | rfl | exact absurd isLiteral (by decide)
  simp only [Grammar.operand, Grammar.simpleExpr, reads_peek_bind, List.head?_cons, notUnary,
    Bool.false_eq_true, if_false]
  split
  · next found =>
    obtain rfl := Option.some.inj found
    exact absurd isLiteral (by decide)
  · next found =>
    obtain rfl := Option.some.inj found
    exact absurd isLiteral (by decide)
  · next found =>
    obtain rfl := Option.some.inj found
    rw [if_pos isLiteral]
    refine reads_map_bind.mpr ⟨_, _, _, reads_leaf_cons.mpr ⟨rfl, rfl, rfl⟩, ?_⟩
    exact reads_pure.mpr ⟨rfl, rfl, rfl⟩
  · next found => exact absurd found (by simp)

/-- An operand without operators of its own. -/
theorem simpleExpr_complete (complete : L.Complete n) {e : Exp} (grouped : e.Grouped)
    (shallow : e.nesting ≤ n + 1) (ends : EndsSuffix us)
    (notUnary : ∀ op e', e ≠ .unary op e') (notBinary : ∀ left op right, e ≠ .binary left op right)
    (h : Spans [e.punctuate.phrase] i ts [o] j us) :
    Reads (Grammar.operand L) i ts o j us := by
  cases e with
  | literal text =>
    have plain : (leaf .literal text.word).Plain := Phrase.leaf_plain _ rfl (by decide)
    obtain ⟨c, inner, rfl⟩ := plain.spans_value.mp h
    obtain ⟨rfl, eq, rfl⟩ := (Phrase.spans_leaf rfl (by decide)).mp inner
    obtain rfl := List.singleton_inj.mp eq
    exact reads_literal text.isLiteral
  | table fields =>
    obtain ⟨c, inner, rfl⟩ := fields.punctuate.plain.spans_value.mp h
    have read := tableConstructor_complete complete grouped (Nat.le_of_succ_le_succ shallow) inner
    obtain ⟨ts, rfl⟩ := ((Phrase.Begins.word Token.leftBrace.word).group _ _).head inner
    rw [Token.token_word] at read ⊢
    simp only [Grammar.operand, Grammar.simpleExpr, reads_peek_bind, List.head?_cons, Token.isUnary,
      Bool.false_eq_true, if_false]
    exact reads_map_bind.mpr ⟨_, _, _, read, reads_pure.mpr ⟨rfl, rfl, rfl⟩⟩
  | function params body =>
    have plain : (Phrase.group .closureExpr [key .functionKw,
        .funcBody params (Stat.phrases (Stat.punctuateAll body))]).Plain :=
      Phrase.plain_group rfl (by decide) Nat.one_pos
    obtain ⟨c, inner, rfl⟩ := plain.spans_value.mp h
    obtain ⟨os, parts, rfl⟩ := (Phrase.spans_node rfl (by decide)).mp inner
    obtain ⟨ts, rfl, last⟩ := Phrase.spans_key_cons.mp parts
    obtain ⟨b, j', us', os, rest, none, rfl⟩ := Phrase.spans_group_cons.mp last
    obtain ⟨rfl, rfl, rfl⟩ := Phrase.spans_nil.mp none
    have read := funcBody_complete complete grouped (Nat.le_of_succ_le_succ shallow) rest
    simp only [Grammar.operand, Grammar.simpleExpr, reads_peek_bind, List.head?_cons, Token.isUnary,
      Bool.false_eq_true, if_false, reads_here_bind, reads_bump_bind, read.bind]
    refine reads_map_bind.mpr ⟨_, _, _, reads_finish.mpr ⟨rfl, rfl, rfl⟩, ?_⟩
    exact reads_pure.mpr ⟨rfl, rfl, rfl⟩
  | suffixed e =>
    obtain ⟨c, inner, rfl⟩ := e.punctuate.plain.spans_value.mp h
    have read := suffixedExpr_complete complete grouped (Nat.le_of_succ_le_succ shallow) ends inner
    obtain ⟨t, begins, starts⟩ := e.punctuate.starts
    obtain ⟨ts, rfl⟩ := begins.head inner
    rcases starts with rfl | rfl <;>
      simp only [Grammar.operand, Grammar.simpleExpr, reads_peek_bind, List.head?_cons,
        Token.isUnary, Token.isLiteral, Bool.false_eq_true, if_false, read.bind] <;>
      exact reads_pure.mpr ⟨rfl, rfl, rfl⟩
  | unary op e => exact absurd rfl (notUnary op e)
  | binary left op right => exact absurd rfl (notBinary left op right)

/-- A unary operator in front of its operand. -/
theorem unary_complete (complete : L.Complete n) {op : UnaryOp} {e : Exp}
    (grouped : (Exp.unary op e).Grouped) (shallow : e.nesting ≤ n) (ends : EndsSuffix us)
    (bare : (Exp.unary op e).EndsBefore us)
    (h : Spans [(Exp.unary op e).punctuate.phrase] i ts [o] j us) :
    Reads (Grammar.operand L) i ts o j us := by
  obtain ⟨behind, inner⟩ : e.BareBehind unaryPower ∧ e.Grouped := grouped
  obtain ⟨os, parts, rfl⟩ := (Phrase.spans_node rfl (by decide)).mp h
  obtain ⟨ts, os, rfl, rest, rfl⟩ := (Phrase.spans_leaf_cons rfl (by decide)).mp parts
  obtain ⟨b, rfl⟩ := e.punctuate.plain.solid.spans rest
  have stops : e.StopsBefore unaryPower us :=
    ⟨ends, fun t mem l r powers =>
      behind.bareBefore (bare t mem l r powers) (bare t mem l r powers),
      bare⟩
  have read := complete.expr inner shallow behind stops rest
  have operator : Spans [leaf .operator op.word] i (op.word.token :: ts) [.leaf .operator i]
      (i + 1) ts := Spans.leaf .operator op.word rfl (by decide)
  have join : Outline.join .unaryExpr (.leaf .operator i) b [.leaf .operator i, b]
      = .node .unaryExpr (Mark.start i) (max (Mark.stopBefore j) (Mark.start i))
          [.leaf .operator i, b] :=
    operator.join_eq (Phrase.leaf_plain _ rfl (by decide)) rest e.punctuate.plain (Nat.le_succ i)
      rest.le
  rw [Grammar.operand, reads_peek_bind, List.head?_cons]
  simp only [op.isUnary, if_true, reads_leaf_bind, read.bind]
  exact reads_join.mpr ⟨join.symm, rfl, rfl⟩

theorem climb_stops
    (stops : ∀ t ∈ us.head?, ∀ l r, t.binaryPowers = some (l, r) → l ≤ limit) :
    Reads (Grammar.climb L limit o) j us (o, false) j us := by
  rw [Grammar.climb, reads_peek_bind]
  split
  · next l r found =>
    obtain ⟨t, mem, powers⟩ := Option.bind_eq_some_iff.mp found
    rw [if_pos (stops t mem l r powers)]
    exact reads_pure.mpr ⟨rfl, rfl, rfl⟩
  · exact reads_pure.mpr ⟨rfl, rfl, rfl⟩

/-- What reads the operators behind an expression reads them behind its first operand. -/
theorem expression_climbs (complete : L.Complete n) : (e : Exp) → {j : Nat} → {us : List Token} →
    {o : Outline} → e.Grouped → e.nesting ≤ n + 1 → e.BareBehind limit → EndsSuffix us →
      e.EndsBefore us → Spans [e.punctuate.phrase] i ts [o] j us →
        Reads (iterate (Grammar.climb L limit) o) j us a k vs →
          Reads (Grammar.expression L limit) i ts a k vs
  | .binary left op right, _, _, _, grouped, shallow, behind, ends, bare, h, rest => by
    obtain ⟨⟨leftBare, leftGrouped⟩, rightBare, rightGrouped⟩ := grouped
    obtain ⟨shallowLeft, shallowRight⟩ := Nat.max_le.mp shallow
    have above : limit < op.left := behind
    have bounds := Token.powers_bounds op.powers
    obtain ⟨os, parts, rfl⟩ := (Phrase.spans_node rfl (by decide)).mp h
    obtain ⟨b, j, us, os, first, others, rfl⟩ := left.punctuate.plain.solid.spans_cons.mp parts
    obtain ⟨us, os, rfl, last, rfl⟩ := (Phrase.spans_leaf_cons rfl (by decide)).mp others
    obtain ⟨c, rfl⟩ := right.punctuate.plain.solid.spans last
    have leftEnds : EndsSuffix (op.word.token :: us) := by
      intro t mem
      obtain rfl := Option.some.inj mem
      exact Token.startsSuffix_of_binaryPowers op.powers
    have leftStops : left.EndsBefore (op.word.token :: us) := by
      intro t mem l r powers
      obtain rfl := Option.some.inj mem
      rw [op.powers] at powers
      obtain ⟨rfl, -⟩ := Prod.mk.inj (Option.some.inj powers)
      exact leftBare
    refine expression_climbs complete left leftGrouped shallowLeft (leftBare.bareBehind above)
      leftEnds leftStops first ?_
    -- the operator is above the limit, and its right operand is read on the next level
    have stops : right.StopsBefore op.right _ :=
      ⟨ends, fun t mem l r powers => rightBare.bareBefore (bare t mem l r powers)
        (Token.le_unaryPower powers op.powers (bare t mem l r powers)), bare⟩
    have read :=
      complete.expr rightGrouped (Nat.le_of_succ_le_succ shallowRight) rightBare stops last
    have le := first.le
    have le' := read.le
    have join : Outline.join .binaryExpr b c [b, .leaf .operator j, c]
        = .node .binaryExpr (Mark.start i) (max (Mark.stopBefore _) (Mark.start i))
            [b, .leaf .operator j, c] :=
      first.join_eq left.punctuate.plain last right.punctuate.plain (by omega) (by omega)
    refine Reads.again ?_ (by omega) rest
    rw [Grammar.climb, reads_peek_bind, List.head?_cons]
    simp only [Option.bind_some, op.powers]
    rw [if_neg (by omega), reads_leaf_bind, read.bind, reads_join_bind, join]
    exact reads_pure.mpr ⟨rfl, rfl, rfl⟩
  | .unary op e, _, _, _, grouped, shallow, _, ends, bare, h, rest => by
    have read := unary_complete complete grouped (Nat.le_of_succ_le_succ shallow) ends bare h
    rw [Grammar.expression, read.bind]
    exact rest
  | .literal _, _, _, _, grouped, shallow, _, ends, _, h, rest
  | .table _, _, _, _, grouped, shallow, _, ends, _, h, rest
  | .function _ _, _, _, _, grouped, shallow, _, ends, _, h, rest
  | .suffixed _, _, _, _, grouped, shallow, _, ends, _, h, rest => by
    have read := simpleExpr_complete complete grouped shallow ends (by simp) (by simp) h
    rw [Grammar.expression, read.bind]
    exact rest

theorem expression_complete (complete : L.Complete n) {e : Exp} (grouped : e.Grouped)
    (shallow : e.nesting ≤ n + 1) (bare : e.BareBehind limit) (stops : e.StopsBefore limit us)
    (h : Spans [e.punctuate.phrase] i ts [o] j us) :
    Reads (Grammar.expression L limit) i ts o j us :=
  expression_climbs complete e grouped shallow bare stops.suffix stops.bare h
    (Reads.last (climb_stops stops.limit))

end Operators

end LuaTyping
