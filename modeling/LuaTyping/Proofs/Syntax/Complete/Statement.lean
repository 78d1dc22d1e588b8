import LuaTyping.Proofs.Syntax.Complete.Expression
import LuaTyping.Proofs.Syntax.Sound.Statement

/-!
# Printed statements are read

Every form of statement is read back as the parts of its phrase, so a statement on top of a level
that reads what is printed is read too, and with it every level (`level_complete`).

* `statement_complete`: the first token of a statement tells the parser which form it is.
* `Program.ofTokens_eq`: the words of a printed program have its outline and no faults.
-/

namespace LuaTyping

open Phrase (key value ofName leaf exprList Spans commaTail commaList)

section Statements

open Step

variable {L : Level Sketch Outline} {n i j k : Nat} {ts us vs : List Token} {o : Outline}
  {os done : List Outline} {kind : NodeKind}

/-! ## Declarations -/

theorem attrib_complete {a : Name}
    (h : Spans [.group .attrib [key .less, .word a.word, key .greater]] i ts [o] j us) :
    Reads Grammar.attrib i ts o j us := by
  obtain ⟨os, parts, rfl⟩ := (Phrase.spans_node rfl (by decide)).mp h
  obtain ⟨ts, rfl, name⟩ := Phrase.spans_key_cons.mp parts
  obtain ⟨ts, rfl, close⟩ := Phrase.spans_word_cons.mp name
  obtain ⟨rfl, rfl, rfl⟩ := Phrase.spans_word.mp close
  simp only [Grammar.attrib, reads_here_bind, reads_bump_bind, reads_expect_bind]
  exact ⟨_, by rw [a.isName, Token.token_word], us, rfl, reads_finish.mpr ⟨rfl, rfl, rfl⟩⟩

/-- A name of a `local` statement in front of what may separate it from the next one. -/
theorem localName_complete (n : LocalName) (done : List Outline) {more : Bool}
    (noAttrib : us.head? ≠ some .less) (h : Spans (Phrase.localName n) i ts os j us)
    (separated : Reads (accept .comma) j us more k vs) :
    Reads (Grammar.localName done) i ts (os.reverse ++ done, more) k vs := by
  obtain ⟨n, attrib⟩ := n
  obtain ⟨ts, os, rfl, rest, rfl⟩ := (Phrase.spans_name_cons rfl (by decide)).mp h
  rw [Grammar.localName, reads_leafOf?_bind]
  refine ⟨ts, rfl, ?_⟩
  rw [reads_at?_bind]
  cases attrib with
  | none =>
    obtain ⟨rfl, rfl, rfl⟩ := Phrase.spans_nil.mp rest
    rw [if_neg (by simpa using noAttrib), reads_pure_bind, separated.bind]
    exact reads_pure.mpr ⟨rfl, rfl, rfl⟩
  | some a =>
    obtain ⟨o, j, us', os, first, none, rfl⟩ := Phrase.spans_group_cons.mp rest
    obtain ⟨rfl, rfl, rfl⟩ := Phrase.spans_nil.mp none
    obtain ⟨ts', rfl⟩ := ((Phrase.Begins.word Token.less.word).group .attrib _).head first
    rw [if_pos (by simp), (attrib_complete first).bind, reads_pure_bind, separated.bind]
    exact reads_pure.mpr ⟨rfl, rfl, rfl⟩

theorem localNames_complete (n : LocalName) (ns : List LocalName) (done : List Outline)
    (noAttrib : us.head? ≠ some .less) (noComma : us.head? ≠ some .comma)
    (h : Spans (Phrase.localName n ++ Phrase.localNamesTail ns) i ts os k us) :
    Reads (iterate Grammar.localName done) i ts (os.reverse ++ done) k us := by
  induction ns generalizing n i ts os done with
  | nil =>
    rw [Phrase.localNamesTail, List.append_nil] at h
    exact Reads.last (localName_complete n done noAttrib h
      (reads_accept.mpr (.inr ⟨rfl, noComma, rfl, rfl⟩)))
  | cons m ms ih =>
    obtain ⟨os₁, j, us', os₂, first, rest, rfl⟩ := Phrase.spans_append.mp h
    obtain ⟨us', rfl, others⟩ := Phrase.spans_key_cons.mp rest
    have le := first.le
    rw [List.reverse_append, List.append_assoc]
    exact Reads.again (localName_complete n done (by simp) first
      (reads_accept.mpr (.inl ⟨rfl, rfl, rfl⟩))) (by omega) (ih m _ others)

theorem localStat_complete (complete : L.Complete n) {m : LocalName} {ms : List LocalName}
    {values : List Exp} (grouped : Exp.GroupedAll values) (shallow : Exp.nestingAll values ≤ n)
    (closed : us.head? = some .semicolon)
    (h : Spans (.group .nameList (Phrase.localName m ++ Phrase.localNamesTail ms)
      :: Phrase.initializer (Exp.phrases (Exp.punctuateAll values))) i ts os k us) :
    Reads (Grammar.localStat L) i ts (.localStat, os) k us := by
  obtain ⟨us, rfl⟩ := List.head?_eq_some_iff.mp closed
  obtain ⟨list, j, us', os, first, rest, rfl⟩ := Phrase.spans_group_cons.mp h
  have row := row_localNames m ms
  obtain ⟨os', names, eq⟩ := (Phrase.spans_wrap (Mark.start i) row
    (Phrase.leaf_plain m.name.word rfl (by decide)) rfl (by decide)).mp first
  obtain rfl := List.singleton_inj.mp eq
  cases values with
  | nil =>
    obtain ⟨rfl, rfl, rfl⟩ := Phrase.spans_nil.mp rest
    have read := localNames_complete m ms [] (by simp) (by simp) names
    rw [Grammar.localStat, reads_here_bind, Grammar.localNames, read.bind, reads_wrap_bind,
      reads_accept_bind_other (by simp)]
    simp
  | cons e es =>
    obtain ⟨us', rfl, values⟩ := Phrase.spans_key_cons.mp rest
    obtain ⟨v, j', us'', os, values, none, rfl⟩ := Phrase.spans_group_cons.mp values
    obtain ⟨rfl, rfl, rfl⟩ := Phrase.spans_nil.mp none
    have read := localNames_complete m ms [] (by simp) (by simp) names
    have values := exprList_complete complete grouped shallow (endsExpr_cons _ rfl) (by simp) values
    rw [Grammar.localStat, reads_here_bind, Grammar.localNames, read.bind, reads_wrap_bind,
      reads_accept_bind_self, if_pos rfl, values.bind]
    simp

theorem localFuncStat_complete (complete : L.Complete n) {m : Name} {ps : Params}
    {body : List Stat} (grouped : Stat.GroupedAll body) (shallow : Stat.nestingAll body ≤ n)
    (h : Spans [ofName .nameDef m, .funcBody ps (Stat.phrases (Stat.punctuateAll body))] i ts os
      k us) :
    Reads (Grammar.localFuncStat L) i ts (.localFuncStat, os) k us := by
  obtain ⟨ts, os, rfl, rest, rfl⟩ := (Phrase.spans_name_cons rfl (by decide)).mp h
  obtain ⟨b, j, us', os, body, none, rfl⟩ := Phrase.spans_group_cons.mp rest
  obtain ⟨rfl, rfl, rfl⟩ := Phrase.spans_nil.mp none
  have read := funcBody_complete complete grouped shallow body
  rw [Grammar.localFuncStat, reads_leafOf?_bind]
  refine ⟨ts, rfl, ?_⟩
  rw [read.bind]
  exact reads_pure.mpr ⟨rfl, rfl, rfl⟩

theorem funcFields_complete (fs : List Name) (done : List Outline) (noDot : us.head? ≠ some .dot)
    (h : Spans (fs.flatMap fun f => [key .dot, ofName .name f]) i ts os k us) :
    Reads (iterate Grammar.funcField done) i ts (os.reverse ++ done) k us := by
  induction fs generalizing i ts os done with
  | nil =>
    obtain ⟨rfl, rfl, rfl⟩ := Phrase.spans_nil.mp h
    refine Reads.last ?_
    rw [Grammar.funcField, reads_accept_bind_other noDot]
    simp
  | cons f fs ih =>
    rw [List.flatMap_cons, List.cons_append, List.singleton_append] at h
    obtain ⟨ts, rfl, name⟩ := Phrase.spans_key_cons.mp h
    obtain ⟨ts, os, rfl, rest, rfl⟩ := (Phrase.spans_name_cons rfl (by decide)).mp name
    rw [List.reverse_cons, List.append_assoc]
    refine Reads.again ?_ (by omega : i < i + 1 + 1) (ih (.leaf .name (i + 1) :: done) rest)
    simp [Grammar.funcField]

theorem funcName_complete (m : FuncName)
    (h : Spans [.funcName m] i ts [o] k (.leftParen :: us)) :
    Reads Grammar.funcName i ts o k (.leftParen :: us) := by
  obtain ⟨os, parts, eq⟩ := (Phrase.spans_wrap (Mark.start i) (row_funcName m)
    (Phrase.leaf_plain m.base.word rfl (by decide)) rfl (by decide)).mp h
  obtain rfl := List.singleton_inj.mp eq
  obtain ⟨ts, os, rfl, rest, rfl⟩ := (Phrase.spans_name_cons rfl (by decide)).mp parts
  obtain ⟨os₁, j, us', os₂, fields, method, rfl⟩ := Phrase.spans_append.mp rest
  simp only [Grammar.funcName, reads_here_bind, reads_leafOf?_bind]
  refine ⟨ts, rfl, ?_⟩
  obtain ⟨base, fs, method'⟩ := m
  cases method' with
  | none =>
    obtain ⟨rfl, rfl, rfl⟩ := Phrase.spans_nil.mp method
    have read := funcFields_complete fs [.leaf .nameExpr i] (by simp) fields
    rw [Option.toList_some, read.bind, reads_accept_bind_other (by simp)]
    simp
  | some m =>
    obtain ⟨us', rfl, name⟩ := Phrase.spans_key_cons.mp method
    obtain ⟨us', os, rfl, none, rfl⟩ := (Phrase.spans_name_cons rfl (by decide)).mp name
    obtain ⟨rfl, rfl, rfl⟩ := Phrase.spans_nil.mp none
    have read := funcFields_complete fs [.leaf .nameExpr i] (by simp) fields
    rw [Option.toList_some, read.bind, reads_accept_bind_self, if_pos rfl, reads_leafOf?_bind]
    exact ⟨_, rfl, by simp⟩

theorem funcStat_complete (complete : L.Complete n) {m : FuncName} {ps : Params}
    {body : List Stat} (grouped : Stat.GroupedAll body) (shallow : Stat.nestingAll body ≤ n)
    (h : Spans [.funcName m, .funcBody ps (Stat.phrases (Stat.punctuateAll body))] i ts os k us) :
    Reads (Grammar.funcStat L) i ts (.funcStat, os) k us := by
  obtain ⟨name, j, us', os, first, rest, rfl⟩ := Phrase.spans_group_cons.mp h
  obtain ⟨b, j', us'', os, body, none, rfl⟩ := Phrase.spans_group_cons.mp rest
  obtain ⟨rfl, rfl, rfl⟩ := Phrase.spans_nil.mp none
  obtain ⟨us', rfl⟩ :=
    (((Phrase.Begins.word Token.leftParen.word).group .paramList _).group .funcBody _).head body
  have read := funcBody_complete complete grouped shallow body
  rw [Grammar.funcStat, (funcName_complete m first).bind]
  rw [Token.token_word] at read
  rw [read.bind]
  exact reads_pure.mpr ⟨rfl, rfl, rfl⟩

theorem returnStat_complete (complete : L.Complete n) {values : List Exp}
    (grouped : Exp.GroupedAll values) (shallow : Exp.nestingAll values ≤ n)
    (h : Spans ((match Exp.punctuateAll values with
      | [] => []
      | _ => [exprList (Exp.phrases (Exp.punctuateAll values))]) ++ [key .semicolon])
      i ts os k us) :
    Reads (Grammar.returnStat L) i ts (.returnStat, os) k us := by
  obtain ⟨j, list, rfl⟩ := Phrase.spans_concat_key.mp h
  simp only [Grammar.returnStat, reads_blockEnds_bind, reads_at?_bind]
  cases values with
  | nil =>
    obtain ⟨rfl, rfl, rfl⟩ := Phrase.spans_nil.mp list
    rw [if_pos (by simp), reads_pure_bind, reads_accept_bind_self]
    exact reads_pure.mpr ⟨rfl, rfl, rfl⟩
  | cons e es =>
    obtain ⟨v, j', us', os, first, none, rfl⟩ := Phrase.spans_group_cons.mp list
    obtain ⟨rfl, rfl, rfl⟩ := Phrase.spans_nil.mp none
    have read := exprList_complete complete grouped shallow (endsExpr_cons _ rfl) (by simp) first
    obtain ⟨t, begins, starts⟩ := e.punctuate.starts
    obtain ⟨ts, rfl⟩ := begins.group .exprList _ |>.head first
    have goesOn : ((t :: ts).head?.all Token.endsBlock || ((t :: ts).head? == some .semicolon))
        = false := by
      simp only [List.head?_cons, Option.all_some]
      cases t <;> first | rfl | exact absurd starts (by decide)
    rw [goesOn, if_neg (by decide), read.bind, reads_pure_bind, reads_accept_bind_self]
    exact reads_pure.mpr ⟨rfl, rfl, rfl⟩

/-! ## Blocks of statements -/

/-- A block behind phrases and in front of its closing word. -/
theorem spans_block_key {ss : List Stat} {t : Token}
    (h : Spans [.group .block (Stat.phrases ss), key t] i ts os k us) :
    ∃ o j, Spans [.group .block (Stat.phrases ss)] i ts [o] j (t :: us) ∧ k = j + 1 ∧ os = [o] := by
  obtain ⟨o, j, us', os, first, close, rfl⟩ := Phrase.spans_group_cons.mp h
  obtain ⟨rfl, rfl, rfl⟩ := Phrase.spans_word.mp close
  exact ⟨o, j, first, rfl, rfl⟩

theorem loopBody_complete (complete : L.Complete n) {body : List Stat}
    (grouped : Stat.GroupedAll body) (shallow : Stat.nestingAll body ≤ n)
    (h : Spans (Phrase.loopBody (Stat.phrases (Stat.punctuateAll body))) i ts os k us) :
    ∃ o, Reads (Grammar.loopBody L) i ts o k us ∧ os = [o] := by
  obtain ⟨ts, rfl, rest⟩ := Phrase.spans_key_cons.mp h
  obtain ⟨o, j, first, rfl, rfl⟩ := spans_block_key rest
  have read := block_complete complete grouped shallow rfl first
  refine ⟨o, ?_, rfl⟩
  rw [Grammar.loopBody, reads_expect_bind]
  refine ⟨ts, rfl, ?_⟩
  rw [read.bind, reads_expect_bind]
  exact ⟨us, rfl, reads_pure.mpr ⟨rfl, rfl, rfl⟩⟩

theorem doStat_complete (complete : L.Complete n) {body : List Stat}
    (grouped : Stat.GroupedAll body) (shallow : Stat.nestingAll body ≤ n)
    (h : Spans [.group .block (Stat.phrases (Stat.punctuateAll body)), key .endKw] i ts os k us) :
    Reads (Grammar.doStat L) i ts (.doStat, os) k us := by
  obtain ⟨o, j, first, rfl, rfl⟩ := spans_block_key h
  have read := block_complete complete grouped shallow rfl first
  rw [Grammar.doStat, read.bind, reads_expect_bind]
  exact ⟨us, rfl, reads_pure.mpr ⟨rfl, rfl, rfl⟩⟩

theorem whileStat_complete (complete : L.Complete n) {e : Exp} {body : List Stat}
    (condition : e.Grouped ∧ e.nesting ≤ n) (grouped : Stat.GroupedAll body)
    (shallow : Stat.nestingAll body ≤ n)
    (h : Spans (e.punctuate.phrase :: Phrase.loopBody (Stat.phrases (Stat.punctuateAll body)))
      i ts os
      k us) :
    Reads (Grammar.whileStat L) i ts (.whileStat, os) k us := by
  obtain ⟨c, j, us', os, first, rest, rfl⟩ := e.punctuate.plain.solid.spans_cons.mp h
  obtain ⟨us', rfl, block⟩ := Phrase.spans_key_cons.mp rest
  obtain ⟨b, j', second, rfl, rfl⟩ := spans_block_key block
  have test := complete.subexpr condition.1 condition.2 (endsExpr_cons _ rfl) first
  have read := block_complete complete grouped shallow rfl second
  rw [Grammar.whileStat, test.bind, reads_expect_bind]
  refine ⟨us', rfl, ?_⟩
  rw [read.bind, reads_expect_bind]
  exact ⟨us, rfl, reads_pure.mpr ⟨rfl, rfl, rfl⟩⟩

theorem repeatStat_complete (complete : L.Complete n) {e : Exp} {body : List Stat}
    (condition : e.Grouped ∧ e.nesting ≤ n) (grouped : Stat.GroupedAll body)
    (shallow : Stat.nestingAll body ≤ n) (ends : EndsExpr us)
    (h : Spans [.group .block (Stat.phrases (Stat.punctuateAll body)), key .untilKw,
      e.punctuate.phrase] i ts os k us) :
    Reads (Grammar.repeatStat L) i ts (.repeatStat, os) k us := by
  obtain ⟨b, j, us', os, first, rest, rfl⟩ := Phrase.spans_group_cons.mp h
  obtain ⟨us', rfl, last⟩ := Phrase.spans_key_cons.mp rest
  obtain ⟨c, rfl⟩ := e.punctuate.plain.solid.spans last
  have read := block_complete complete grouped shallow rfl first
  have test := complete.subexpr condition.1 condition.2 ends last
  rw [Grammar.repeatStat, read.bind, reads_expect_bind]
  refine ⟨us', rfl, ?_⟩
  rw [test.bind]
  exact reads_pure.mpr ⟨rfl, rfl, rfl⟩

/-- Another clause or the closing word ends a block of an `if`. -/
theorem endsBlock_clauses (cs : Clauses) (h : Spans cs.phrases i ts os k (.endKw :: us)) :
    ts.head?.all Token.endsBlock = true := by
  cases cs with
  | none =>
    obtain ⟨rfl, -, -⟩ := Phrase.spans_nil.mp h
    rfl
  | «else» body =>
    obtain ⟨ts, rfl⟩ := ((Phrase.Begins.word Token.elseKw.word).group _ _).head h
    rfl
  | «elseif» e body rest =>
    obtain ⟨ts, rfl⟩ := ((Phrase.Begins.word Token.elseifKw.word).group _ _).head h
    rfl

/-- What follows the first block of an `if`, in front of the closing word. -/
theorem ifClauses_complete (complete : L.Complete n) : (cs : Clauses) → (done : List Outline) →
    {i : Nat} → {ts : List Token} → {os : List Outline} → cs.Grouped → cs.nesting ≤ n →
      Spans cs.punctuate.phrases i ts os k (.endKw :: us) →
        Reads (Grammar.ifClauses L done) i ts (os.reverse ++ done) k (.endKw :: us)
  | .none, done, _, _, _, _, _, h => by
    obtain ⟨rfl, rfl, rfl⟩ := Phrase.spans_nil.mp h
    refine Reads.last ?_
    rw [reads_here_bind, reads_accept_bind_other (by simp), if_neg (by decide),
      reads_accept_bind_other (by simp)]
    exact reads_pure.mpr ⟨rfl, rfl, rfl⟩
  | .else body, done, _, _, _, grouped, shallow, h => by
    obtain ⟨o, j, us', os, first, none, rfl⟩ := Phrase.spans_group_cons.mp h
    obtain ⟨rfl, rfl, rfl⟩ := Phrase.spans_nil.mp none
    obtain ⟨os, parts, rfl⟩ := (Phrase.spans_node rfl (by decide)).mp first
    obtain ⟨ts, rfl, block⟩ := Phrase.spans_key_cons.mp parts
    obtain ⟨b, j, us', os, block, none, rfl⟩ := Phrase.spans_group_cons.mp block
    obtain ⟨rfl, rfl, rfl⟩ := Phrase.spans_nil.mp none
    have read := block_complete complete grouped shallow rfl block
    refine Reads.last ?_
    rw [reads_here_bind, reads_accept_bind_other (by simp), if_neg (by decide),
      reads_accept_bind_self, if_pos rfl, read.bind, reads_finish_bind]
    exact reads_pure.mpr ⟨rfl, rfl, rfl⟩
  | .elseif e body rest, done, i, ts, _, grouped, shallow, h => by
    obtain ⟨groupedTest, groupedBody, groupedRest⟩ := grouped
    rw [Clauses.nesting, Nat.max_le, Nat.max_le] at shallow
    obtain ⟨shallowTest, shallowBody, shallowRest⟩ := shallow
    obtain ⟨o, l, vs, os, first, others, rfl⟩ := Phrase.spans_group_cons.mp h
    obtain ⟨os', parts, rfl⟩ := (Phrase.spans_node rfl (by decide)).mp first
    obtain ⟨ts, rfl, inner⟩ := Phrase.spans_key_cons.mp parts
    obtain ⟨c, j, us', os', test, behind, rfl⟩ := e.punctuate.plain.solid.spans_cons.mp inner
    obtain ⟨us', rfl, block⟩ := Phrase.spans_key_cons.mp behind
    obtain ⟨b, j', us'', os', block, none, rfl⟩ := Phrase.spans_group_cons.mp block
    obtain ⟨rfl, rfl, rfl⟩ := Phrase.spans_nil.mp none
    have test := complete.subexpr groupedTest shallowTest (endsExpr_cons _ rfl) test
    have read := block_complete complete groupedBody shallowBody
      (endsBlock_clauses rest.punctuate others) block
    have le := test.le
    have le' := read.le
    rw [List.reverse_cons, List.append_assoc]
    refine Reads.again ?_ (by omega)
      (ifClauses_complete complete rest (_ :: done) groupedRest shallowRest others)
    rw [reads_here_bind, reads_accept_bind_self, if_pos rfl, test.bind, reads_expect_bind]
    refine ⟨us', rfl, ?_⟩
    rw [read.bind, reads_finish_bind]
    exact reads_pure.mpr ⟨rfl, rfl, rfl⟩

theorem ifStat_complete (complete : L.Complete n) {e : Exp} {body : List Stat} {cs : Clauses}
    (condition : e.Grouped ∧ e.nesting ≤ n) (grouped : Stat.GroupedAll body)
    (shallow : Stat.nestingAll body ≤ n) (clauses : cs.Grouped ∧ cs.nesting ≤ n)
    (h : Spans (e.punctuate.phrase :: key .thenKw
      :: .group .block (Stat.phrases (Stat.punctuateAll body))
      :: (cs.punctuate.phrases ++ [key .endKw])) i ts os k us) :
    Reads (Grammar.ifStat L) i ts (.ifStat, os) k us := by
  obtain ⟨c, j, us', os, first, rest, rfl⟩ := e.punctuate.plain.solid.spans_cons.mp h
  obtain ⟨us', rfl, inner⟩ := Phrase.spans_key_cons.mp rest
  obtain ⟨b, j', us'', os, block, behind, rfl⟩ := Phrase.spans_group_cons.mp inner
  obtain ⟨l, others, rfl⟩ := Phrase.spans_concat_key.mp behind
  have test := complete.subexpr condition.1 condition.2 (endsExpr_cons _ rfl) first
  have read := block_complete complete grouped shallow (endsBlock_clauses cs.punctuate others) block
  have clauses := ifClauses_complete complete cs [b, c] clauses.1 clauses.2 others
  rw [Grammar.ifStat, test.bind, reads_expect_bind]
  refine ⟨us', rfl, ?_⟩
  rw [read.bind, clauses.bind, reads_expect_bind]
  refine ⟨us, rfl, ?_⟩
  simp

theorem numericForStat_complete (complete : L.Complete n) {start stop : Exp} {stride : Option Exp}
    {body : List Stat} (var : Option Outline) (first : start.Grouped ∧ start.nesting ≤ n)
    (last : stop.Grouped ∧ stop.nesting ≤ n)
    (step : Exp.GroupedStride stride ∧ Exp.nestingStride stride ≤ n)
    (grouped : Stat.GroupedAll body) (shallow : Stat.nestingAll body ≤ n)
    (h : Spans (start.punctuate.phrase :: key .comma :: stop.punctuate.phrase
      :: (Exp.stridePhrases (Exp.punctuateStride stride)
        ++ Phrase.loopBody (Stat.phrases (Stat.punctuateAll body)))) i ts os k us) :
    Reads (Grammar.numericForStat L var) i ts (.numericForStat, var.toList ++ os) k us := by
  obtain ⟨a, j, us₁, os, startSpans, behind, rfl⟩ := start.punctuate.plain.solid.spans_cons.mp h
  obtain ⟨us₁, rfl, bound⟩ := Phrase.spans_key_cons.mp behind
  obtain ⟨b, j', us₂, os, stopSpans, rest, rfl⟩ := stop.punctuate.plain.solid.spans_cons.mp bound
  have start := complete.subexpr first.1 first.2 (endsExpr_cons _ rfl) startSpans
  rw [Grammar.numericForStat, start.bind, reads_expect_bind]
  refine ⟨us₁, rfl, ?_⟩
  cases stride with
  | none =>
    obtain ⟨o, read, rfl⟩ := loopBody_complete complete grouped shallow rest
    obtain ⟨us₂, rfl, -⟩ := Phrase.spans_key_cons.mp rest
    have stop := complete.subexpr last.1 last.2 (endsExpr_cons _ rfl) stopSpans
    rw [stop.bind, reads_accept_bind_other (by simp), if_neg (by decide), reads_pure_bind,
      read.bind]
    simp
  | some e =>
    obtain ⟨us₂, rfl, strideRest⟩ := Phrase.spans_key_cons.mp rest
    obtain ⟨c, j'', us₃, os, strideSpans, body, rfl⟩ :=
      e.punctuate.plain.solid.spans_cons.mp strideRest
    obtain ⟨o, read, rfl⟩ := loopBody_complete complete grouped shallow body
    obtain ⟨us₃, rfl, -⟩ := Phrase.spans_key_cons.mp body
    have stop := complete.subexpr last.1 last.2 (endsExpr_cons _ rfl) stopSpans
    have stride := complete.subexpr step.1 step.2 (endsExpr_cons _ rfl) strideSpans
    rw [stop.bind, reads_accept_bind_self, if_pos rfl, reads_map_bind]
    refine ⟨c, j'', _, stride, ?_⟩
    rw [read.bind]
    simp

theorem loopNames_complete (ns : List Name) (done : List Outline)
    (noComma : us.head? ≠ some .comma)
    (h : Spans (commaTail (ns.map (ofName .nameDef))) i ts os k us) :
    Reads (iterate Grammar.loopName done) i ts (os.reverse ++ done) k us := by
  induction ns generalizing i ts os done with
  | nil =>
    obtain ⟨rfl, rfl, rfl⟩ := Phrase.spans_nil.mp h
    refine Reads.last ?_
    rw [Grammar.loopName, reads_accept_bind_other noComma]
    simp
  | cons m ms ih =>
    obtain ⟨ts, rfl, name⟩ := Phrase.spans_key_cons.mp h
    obtain ⟨ts, os, rfl, rest, rfl⟩ := (Phrase.spans_name_cons rfl (by decide)).mp name
    rw [List.reverse_cons, List.append_assoc]
    refine Reads.again ?_ (by omega : i < i + 1 + 1) (ih (.leaf .nameDef (i + 1) :: done) rest)
    simp [Grammar.loopName]

/-- A loop over numbers, behind its word. -/
theorem numericFor_complete (complete : L.Complete n) {m : Name} {start stop : Exp}
    {stride : Option Exp} {body : List Stat} (first : start.Grouped ∧ start.nesting ≤ n)
    (last : stop.Grouped ∧ stop.nesting ≤ n)
    (step : Exp.GroupedStride stride ∧ Exp.nestingStride stride ≤ n)
    (grouped : Stat.GroupedAll body) (shallow : Stat.nestingAll body ≤ n)
    (h : Spans ([ofName .nameDef m, key .assign, start.punctuate.phrase, key .comma,
      stop.punctuate.phrase] ++ Exp.stridePhrases (Exp.punctuateStride stride)
        ++ Phrase.loopBody (Stat.phrases (Stat.punctuateAll body))) i ts os k us) :
    Reads (Grammar.forStat L) i ts (.numericForStat, os) k us := by
  rw [List.append_assoc] at h
  obtain ⟨ts, os, rfl, rest, rfl⟩ := (Phrase.spans_name_cons rfl (by decide)).mp h
  obtain ⟨ts, rfl, bounds⟩ := Phrase.spans_key_cons.mp rest
  have read := numericForStat_complete complete (some (.leaf .nameDef i)) first last step grouped
    shallow bounds
  rw [Grammar.forStat, reads_here_bind, reads_leafOf?_bind]
  refine ⟨_, rfl, ?_⟩
  rw [reads_accept_bind_self, if_pos rfl]
  exact read

/-- A loop over values, behind its word. -/
theorem genericFor_complete (complete : L.Complete n) {m : Name} {ms : List Name} {e : Exp}
    {es : List Exp} {body : List Stat} (values : Exp.GroupedAll (e :: es))
    (bounded : Exp.nestingAll (e :: es) ≤ n) (grouped : Stat.GroupedAll body)
    (shallow : Stat.nestingAll body ≤ n)
    (h : Spans ([.group .nameList (commaList ((m :: ms).map (ofName .nameDef))), key .inKw,
      exprList (Exp.phrases (Exp.punctuateAll (e :: es)))]
        ++ Phrase.loopBody (Stat.phrases (Stat.punctuateAll body))) i ts os k us) :
    Reads (Grammar.forStat L) i ts (.genericForStat, os) k us := by
  rw [List.cons_append, List.cons_append, List.singleton_append] at h
  obtain ⟨list, j, us₁, os, first, behind, rfl⟩ := Phrase.spans_group_cons.mp h
  obtain ⟨us₁, rfl, inner⟩ := Phrase.spans_key_cons.mp behind
  obtain ⟨v, j', us₂, os, second, rest, rfl⟩ := Phrase.spans_group_cons.mp inner
  obtain ⟨o, read, rfl⟩ := loopBody_complete complete grouped shallow rest
  obtain ⟨us₂, rfl, -⟩ := Phrase.spans_key_cons.mp rest
  have iterated := exprList_complete complete values bounded (endsExpr_cons _ rfl) (by simp) second
  obtain ⟨os, names, eq⟩ := (Phrase.spans_wrap (Mark.start i) (row_names m ms)
    (Phrase.leaf_plain m.word rfl (by decide)) rfl (by decide)).mp first
  obtain rfl := List.singleton_inj.mp eq
  obtain ⟨ts, os, rfl, others, rfl⟩ := (Phrase.spans_name_cons rfl (by decide)).mp names
  have noAssign : ts.head? ≠ some .assign := by
    cases ms with
    | nil =>
      obtain ⟨rfl, -, -⟩ := Phrase.spans_nil.mp others
      simp
    | cons m' ms =>
      obtain ⟨ts, rfl, -⟩ := Phrase.spans_key_cons.mp others
      simp
  have loop := loopNames_complete ms [.leaf .nameDef i] (by simp) others
  rw [Grammar.forStat, reads_here_bind, reads_leafOf?_bind]
  refine ⟨ts, rfl, ?_⟩
  rw [reads_accept_bind_other noAssign, if_neg (by decide), Option.toList_some, loop.bind]
  simp only [reads_wrap_bind, reads_expect_bind]
  refine ⟨us₁, rfl, ?_⟩
  rw [iterated.bind, read.bind]
  simp

/-! ## Assignments and calls -/

/-- Where no primary expression starts, nothing is read. -/
theorem suffixedExpr_assign :
    Reads (Grammar.suffixedExpr L) i (.assign :: us) none i (.assign :: us) := by
  have primary : Reads (Grammar.primaryExpr L) i (.assign :: us) none i (.assign :: us) := by
    rw [Grammar.primaryExpr, reads_peek_bind]
    exact reads_pure.mpr ⟨rfl, rfl, rfl⟩
  rw [Grammar.suffixedExpr, primary.bind]
  exact reads_pure.mpr ⟨rfl, rfl, rfl⟩

/-- Behind a target stands another one, a comma or the equals sign. -/
theorem head_targets {ps : List Phrase} {trailing : Bool}
    (h : Spans (commaTail ps) i ts os j us)
    (mark : Spans ((if trailing then [key .comma] else []) ++ [key .assign]) j us [] k vs) :
    ts.head? = some .comma ∨ ts.head? = some .assign := by
  cases ps with
  | nil =>
    obtain ⟨rfl, -, -⟩ := Phrase.spans_nil.mp h
    cases trailing with
    | false =>
      obtain ⟨rfl, -, -⟩ := Phrase.spans_word.mp mark
      exact .inr rfl
    | true =>
      obtain ⟨us, rfl, -⟩ := Phrase.spans_key_cons.mp mark
      exact .inl rfl
  | cons p ps =>
    obtain ⟨ts, rfl, -⟩ := Phrase.spans_key_cons.mp h
    exact .inl rfl

theorem endsSuffix_targets (h : ts.head? = some .comma ∨ ts.head? = some .assign) :
    EndsSuffix ts := by
  intro t mem
  rcases h with h | h <;> rw [h] at mem <;> obtain rfl := Option.some.inj mem <;> rfl

theorem targets_complete (complete : L.Complete n) (es : List Suffixed) (trailing : Bool)
    (done : List Outline) (grouped : Suffixed.GroupedAll es) (shallow : Suffixed.nestingAll es ≤ n)
    (h : Spans (commaTail (Suffixed.phrases (Suffixed.punctuateAll es))) i ts os j us)
    (mark : Spans ((if trailing then [key .comma] else []) ++ [key .assign]) j us [] k vs) :
    ∃ l, Reads (iterate (Grammar.target L) done) i ts (os.reverse ++ done) l (.assign :: vs)
      ∧ k = l + 1 := by
  induction es generalizing i ts os done with
  | nil =>
    obtain ⟨rfl, rfl, rfl⟩ := Phrase.spans_nil.mp h
    cases trailing with
    | false =>
      obtain ⟨rfl, -, rfl⟩ := Phrase.spans_word.mp mark
      refine ⟨j, Reads.last ?_, rfl⟩
      rw [Grammar.target, Token.token_word, reads_accept_bind_other (by simp)]
      simp
    | true =>
      obtain ⟨us, rfl, rest⟩ := Phrase.spans_key_cons.mp mark
      obtain ⟨rfl, -, rfl⟩ := Phrase.spans_word.mp rest
      refine ⟨j + 1, Reads.last ?_, rfl⟩
      rw [Grammar.target, Token.token_word, reads_accept_bind_self, if_pos rfl,
        suffixedExpr_assign.bind]
      exact reads_pure.mpr ⟨rfl, rfl, rfl⟩
  | cons e es ih =>
    rw [Suffixed.GroupedAll] at grouped
    rw [Suffixed.nestingAll, Nat.max_le] at shallow
    rw [Suffixed.punctuateAll, Suffixed.phrases, commaTail] at h
    obtain ⟨ts, rfl, items⟩ := Phrase.spans_word_cons.mp h
    obtain ⟨o, j', us', os, first, rest, rfl⟩ := e.punctuate.plain.solid.spans_cons.mp items
    have read := suffixedExpr_complete complete grouped.1 shallow.1
      (endsSuffix_targets (head_targets rest mark)) first
    have le := read.le
    obtain ⟨l, loop, rfl⟩ := ih (o :: done) grouped.2 shallow.2 rest
    refine ⟨l, ?_, rfl⟩
    rw [List.reverse_cons, List.append_assoc]
    refine Reads.again ?_ (by omega) loop
    rw [Grammar.target, Token.token_word, reads_accept_bind_self, if_pos rfl, read.bind]
    exact reads_pure.mpr ⟨rfl, rfl, rfl⟩

theorem assign_complete (complete : L.Complete n) {e : Suffixed} {es : List Suffixed}
    {trailing : Bool} {x : Exp} {xs : List Exp} (target : e.Grouped ∧ e.nesting ≤ n)
    (targets : Suffixed.GroupedAll es ∧ Suffixed.nestingAll es ≤ n)
    (values : Exp.GroupedAll (x :: xs)) (bounded : Exp.nestingAll (x :: xs) ≤ n)
    (closed : us.head? = some .semicolon)
    (h : Spans (.group .varList
        (commaList (e.punctuate.phrase :: Suffixed.phrases (Suffixed.punctuateAll es)))
      :: ((if trailing then [key .comma] else [])
        ++ [key .assign, exprList (Exp.phrases (Exp.punctuateAll (x :: xs)))])) i ts os k us) :
    Reads (Grammar.exprStat L) i ts (.assignStat, os) k us := by
  obtain ⟨us, rfl⟩ := List.head?_eq_some_iff.mp closed
  obtain ⟨list, j, us', os, first, rest, rfl⟩ := Phrase.spans_group_cons.mp h
  rw [commaList, Suffixed.phrases_eq_map] at first
  obtain ⟨os', items, eq⟩ := (Phrase.spans_wrap (Mark.start i)
    (row_commaSuffixed e.punctuate (Suffixed.punctuateAll es)) e.punctuate.plain rfl
    (by decide : NodeKind.varList ≠ .block)).mp first
  obtain rfl := List.singleton_inj.mp eq
  obtain ⟨o, j', us'', os', head, others, rfl⟩ := e.punctuate.plain.solid.spans_cons.mp items
  rw [← Suffixed.phrases_eq_map] at others
  -- the equals sign belongs to the mark behind the targets
  rw [List.append_cons, Phrase.spans_append] at rest
  obtain ⟨os₁, l, ws, os₂, mark, last, rfl⟩ := rest
  obtain rfl : os₁ = [] := by
    rw [Phrase.spans_concat_key] at mark
    obtain ⟨_, mark, -⟩ := mark
    cases trailing with
    | false => exact (Phrase.spans_nil.mp mark).2.1
    | true => exact (Phrase.spans_word.mp mark).2.1
  obtain ⟨v, j'', us₁, os, second, none, rfl⟩ := Phrase.spans_group_cons.mp last
  obtain ⟨rfl, rfl, rfl⟩ := Phrase.spans_nil.mp none
  have next := head_targets others mark
  have read := suffixedExpr_complete complete target.1 target.2 (endsSuffix_targets next) head
  obtain ⟨m, loop, rfl⟩ :=
    targets_complete complete es trailing [o] targets.1 targets.2 others mark
  have list := exprList_complete complete values bounded (endsExpr_cons _ rfl) (by simp) second
  have goesOn : ((us''.head? == some .assign) || (us''.head? == some .comma)) = true := by
    rcases next with next | next <;> rw [next] <;> rfl
  rw [Grammar.exprStat, reads_here_bind, read.bind]
  simp only [Grammar.assignOrCall, reads_at?_bind]
  rw [goesOn, if_pos rfl, loop.bind, reads_wrap_bind, reads_expect_bind]
  refine ⟨ws, rfl, ?_⟩
  rw [list.bind]
  simp

/-- A call of any kind, with a semicolon behind it. -/
theorem callStat_complete (complete : L.Complete n) {e : Suffixed} (grouped : e.Grouped)
    (shallow : e.nesting ≤ n) (isCall : o.kind = .callExpr) (closed : us.head? = some .semicolon)
    (h : Spans [e.punctuate.phrase] i ts [o] k us) :
    Reads (Grammar.exprStat L) i ts (.callStat, [o]) k us := by
  obtain ⟨us, rfl⟩ := List.head?_eq_some_iff.mp closed
  have read := suffixedExpr_complete complete grouped shallow (endsExpr_cons us rfl).suffix h
  rw [Grammar.exprStat, reads_here_bind, read.bind]
  simp only [Grammar.assignOrCall, reads_at?_bind]
  rw [if_neg (by simp), reads_kindOf_bind, isCall, if_pos rfl]
  exact reads_pure.mpr ⟨rfl, rfl, rfl⟩

/-! ## Statements -/

/-- A statement is read if the form behind its doc slot is. -/
theorem statement_of_form {parts : List Phrase} (stat : kind.isStatement = true)
    (h : Spans [.group kind parts] i ts [o] k us)
    (form : ∀ os, Spans parts i ts os k us → Reads (Grammar.form L) i ts (kind, os) k us) :
    Reads (Grammar.statement L) i ts o k us := by
  obtain ⟨os, spans, eq⟩ := (Phrase.spans_statement stat).mp h
  obtain rfl := List.singleton_inj.mp eq
  rw [Grammar.statement, reads_doc_bind, (form os spans).bind]
  exact reads_finish.mpr ⟨rfl, rfl, rfl⟩

/-- A statement with a word of its own is read if the rest of its form is read behind the word. -/
theorem statement_of_key {t : Token} {parts : List Phrase}
    {behind : Step Sketch (Grammar.Form Outline)}
    (stat : kind.isStatement = true) (h : Spans [.group kind (key t :: parts)] i ts [o] k us)
    (branch : ∀ {ts form}, Reads behind (i + 1) ts form k us →
      Reads (Grammar.form L) i (t :: ts) form k us)
    (read : ∀ ts os, Spans parts (i + 1) ts os k us → Reads behind (i + 1) ts (kind, os) k us) :
    Reads (Grammar.statement L) i ts o k us := by
  refine statement_of_form stat h fun os spans => ?_
  obtain ⟨ts, rfl, rest⟩ := Phrase.spans_key_cons.mp spans
  exact branch (read ts os rest)

/-- Where a suffixed expression begins, no form with a word of its own does. -/
theorem form_of_exprStat {t : Token} {form : Grammar.Form Outline} (h : t = .name ∨ t = .leftParen)
    (read : Reads (Grammar.exprStat L) i (t :: ts) form k us) :
    Reads (Grammar.form L) i (t :: ts) form k us := by
  rw [Grammar.form, reads_peek_bind, List.head?_cons]
  rcases h with rfl | rfl <;> exact read

theorem statement_complete (complete : L.Complete n) {s : Stat} (grouped : s.Grouped)
    (shallow : s.nesting ≤ n + 1) (closed : s.ClosedBy us)
    (h : Spans [s.punctuate.phrase] i ts [o] k us) :
    Reads (Grammar.statement L) i ts o k us := by
  cases s with
  | empty =>
    refine statement_of_key rfl h (reads_peek_bind.trans reads_bump_bind).mpr fun ts os none => ?_
    obtain ⟨rfl, rfl, rfl⟩ := Phrase.spans_nil.mp none
    exact reads_pure.mpr ⟨rfl, rfl, rfl⟩
  | locals m ms values =>
    refine statement_of_key rfl h (reads_peek_bind.trans reads_bump_bind).mpr fun ts os rest => ?_
    obtain ⟨ts', rfl⟩ := ((Phrase.Begins.word m.name.word).group .nameDef []
      |>.group .nameList _).head rest
    have other : (m.name.word.token :: ts').head? ≠ some .functionKw := by
      rw [m.name.isName]
      simp
    rw [reads_accept_bind_other other, if_neg (by decide)]
    exact localStat_complete complete grouped (Nat.le_of_succ_le_succ shallow) closed rest
  | localFunction m ps body =>
    refine statement_of_key rfl h (reads_peek_bind.trans reads_bump_bind).mpr fun ts os word => ?_
    obtain ⟨ts, rfl, rest⟩ := Phrase.spans_key_cons.mp word
    rw [reads_accept_bind_self, if_pos rfl]
    exact localFuncStat_complete complete grouped (Nat.le_of_succ_le_succ shallow) rest
  | function name ps body =>
    refine statement_of_key rfl h (reads_peek_bind.trans reads_bump_bind).mpr fun ts os rest => ?_
    exact funcStat_complete complete grouped (Nat.le_of_succ_le_succ shallow) rest
  | returns values _ =>
    refine statement_of_key rfl h (reads_peek_bind.trans reads_bump_bind).mpr fun ts os rest => ?_
    exact returnStat_complete complete grouped (Nat.le_of_succ_le_succ shallow) rest
  | block body =>
    refine statement_of_key rfl h (reads_peek_bind.trans reads_bump_bind).mpr fun ts os rest => ?_
    exact doStat_complete complete grouped (Nat.le_of_succ_le_succ shallow) rest
  | «while» e body =>
    rw [Stat.nesting, Nat.succ_le_succ_iff, Nat.max_le] at shallow
    refine statement_of_key rfl h (reads_peek_bind.trans reads_bump_bind).mpr fun ts os rest => ?_
    exact whileStat_complete complete ⟨grouped.1, shallow.1⟩ grouped.2 shallow.2 rest
  | «repeat» body e =>
    rw [Stat.nesting, Nat.succ_le_succ_iff, Nat.max_le] at shallow
    obtain ⟨us, rfl⟩ := List.head?_eq_some_iff.mp closed
    refine statement_of_key rfl h (reads_peek_bind.trans reads_bump_bind).mpr fun ts os rest => ?_
    exact repeatStat_complete complete ⟨grouped.2, shallow.2⟩ grouped.1 shallow.1
      (endsExpr_cons _ rfl) rest
  | «if» e body cs =>
    rw [Stat.nesting, Nat.succ_le_succ_iff, Nat.max_le, Nat.max_le] at shallow
    refine statement_of_key rfl h (reads_peek_bind.trans reads_bump_bind).mpr fun ts os rest => ?_
    exact ifStat_complete complete ⟨grouped.1, shallow.1⟩ grouped.2.1 shallow.2.1
      ⟨grouped.2.2, shallow.2.2⟩ rest
  | numericFor m start stop stride body =>
    rw [Stat.nesting, Nat.succ_le_succ_iff, Nat.max_le, Nat.max_le, Nat.max_le] at shallow
    obtain ⟨groupedStart, groupedStop, groupedStride, groupedBody⟩ := grouped
    refine statement_of_key rfl h (reads_peek_bind.trans reads_bump_bind).mpr fun ts os rest => ?_
    exact numericFor_complete complete ⟨groupedStart, shallow.1⟩ ⟨groupedStop, shallow.2.1⟩
      ⟨groupedStride, shallow.2.2.1⟩ groupedBody shallow.2.2.2 rest
  | genericFor m ms e es body =>
    rw [Stat.nesting, Nat.succ_le_succ_iff, Nat.max_le, Nat.max_le] at shallow
    obtain ⟨groupedFirst, groupedRest, groupedBody⟩ := grouped
    refine statement_of_key rfl h (reads_peek_bind.trans reads_bump_bind).mpr fun ts os rest => ?_
    exact genericFor_complete complete ⟨groupedFirst, groupedRest⟩
      (Nat.max_le.mpr ⟨shallow.1, shallow.2.1⟩) groupedBody shallow.2.2 rest
  | «break» =>
    refine statement_of_key rfl h (reads_peek_bind.trans reads_bump_bind).mpr fun ts os none => ?_
    obtain ⟨rfl, rfl, rfl⟩ := Phrase.spans_nil.mp none
    exact reads_pure.mpr ⟨rfl, rfl, rfl⟩
  | goto m =>
    refine statement_of_key rfl h (reads_peek_bind.trans reads_bump_bind).mpr fun ts os rest => ?_
    obtain ⟨ts, os, rfl, none, rfl⟩ := (Phrase.spans_name_cons rfl (by decide)).mp rest
    obtain ⟨rfl, rfl, rfl⟩ := Phrase.spans_nil.mp none
    rw [Grammar.gotoStat, reads_leafOf?_bind]
    exact ⟨_, rfl, reads_pure.mpr ⟨rfl, rfl, rfl⟩⟩
  | label m =>
    refine statement_of_key rfl h (reads_peek_bind.trans reads_bump_bind).mpr fun ts os rest => ?_
    obtain ⟨ts, os, rfl, close, rfl⟩ := (Phrase.spans_name_cons rfl (by decide)).mp rest
    obtain ⟨rfl, rfl, rfl⟩ := Phrase.spans_word.mp close
    rw [Grammar.labelStat, reads_leafOf?_bind]
    refine ⟨_, rfl, ?_⟩
    rw [reads_expect_bind]
    exact ⟨_, rfl, reads_pure.mpr ⟨rfl, rfl, rfl⟩⟩
  | assign e es trailing x xs =>
    rw [Stat.nesting, Nat.succ_le_succ_iff, Nat.max_le, Nat.max_le, Nat.max_le] at shallow
    obtain ⟨groupedTarget, groupedTargets, groupedFirst, groupedRest⟩ := grouped
    obtain ⟨t, begins, starts⟩ := e.punctuate.starts
    obtain ⟨ts, rfl⟩ := ((begins.group .varList _).group .assignStat _).head h
    refine statement_of_form rfl h fun os parts => form_of_exprStat starts ?_
    exact assign_complete complete ⟨groupedTarget, shallow.1⟩ ⟨groupedTargets, shallow.2.1⟩
      ⟨groupedFirst, groupedRest⟩ (Nat.max_le.mpr shallow.2.2) closed parts
  | call e args =>
    obtain ⟨t, begins, starts⟩ := (Suffixed.call e args).punctuate.starts
    obtain ⟨ts, rfl⟩ := (begins.group .callStat _).head h
    refine statement_of_form rfl h fun os parts => form_of_exprStat starts ?_
    have parts : Spans [(Suffixed.call e args).punctuate.phrase] i (t :: ts) os k us := parts
    obtain ⟨os', -, rfl⟩ := Phrase.spans_group.mp parts
    exact callStat_complete complete (e := .call e args) grouped
      (Nat.le_of_succ_le_succ shallow) rfl
      closed parts
  | methodCall e m args =>
    obtain ⟨t, begins, starts⟩ := (Suffixed.method e m args).punctuate.starts
    obtain ⟨ts, rfl⟩ := (begins.group .callStat _).head h
    refine statement_of_form rfl h fun os parts => form_of_exprStat starts ?_
    have parts : Spans [(Suffixed.method e m args).punctuate.phrase] i (t :: ts) os k us := parts
    obtain ⟨os', -, rfl⟩ := Phrase.spans_group.mp parts
    exact callStat_complete complete (e := .method e m args) grouped
      (Nat.le_of_succ_le_succ shallow) rfl closed parts

end Statements

/-! ## Programs -/

/-- Every level reads the printed forms that nest no deeper than it allows. -/
theorem level_complete (n : Nat) : (Grammar.level n).Complete n := by
  induction n with
  | zero =>
    -- every form takes a level
    constructor
    · intro e limit i ts o j us _ shallow
      exact absurd e.one_le_nesting (by omega)
    · intro s i ts o j us _ shallow
      exact absurd s.one_le_nesting (by omega)
  | succ n ih =>
    constructor
    · intro e limit i ts o j us grouped shallow bare stops h
      exact expression_complete ih grouped shallow bare stops h
    · intro s i ts o j us grouped shallow closed h
      exact statement_complete ih grouped shallow closed h

/-- The words of a printed program have its outline and no faults. -/
theorem Program.ofTokens_eq {limit : Nat} {ss : List Stat} (grouped : Stat.GroupedAll ss)
    (shallow : Stat.nestingAll ss ≤ limit) {o : Outline} {tokens : List Token} {k : Nat}
    (h : Spans [Stat.program ss] 0 tokens [o] k []) :
    Program.ofTokens limit tokens = ⟨o, []⟩ := by
  have block := block_complete (level_complete limit) grouped shallow rfl h
  have read : Step.Reads (Grammar.chunk limit) 0 tokens o k [] := by
    rw [Grammar.chunk, block.bind]
    exact Step.reads_bind.mpr ⟨(), k, [], reads_strays.mpr ⟨rfl, rfl, rfl⟩,
      Step.reads_pure.mpr ⟨rfl, rfl, rfl⟩⟩
  have value : (Grammar.chunk limit (.start tokens ⟨⟩)).val = (o, .clean k []) := read
  rw [Program.ofTokens, value]
  rfl

end LuaTyping
