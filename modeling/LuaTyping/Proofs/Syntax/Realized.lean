import LuaTyping.Proofs.Syntax.Attached
import LuaTyping.Syntax.Parse

/-!
# What the productions attach

Every production that answers a node leaves this node loose and nothing else: all nodes that it has
made meanwhile are below it, each given to its parent once.  Productions that answer several nodes
leave just these, in their order.

* `Step.Single`: a step that leaves the one node it answers.
* `Grammar.single_block`, `Grammar.single_expression`, `Grammar.single_statement`: one lemma for
  each production, over the readers of a level.
* `Parsed.realizes`: the table of a text is the tree of the outline of its tokens.
-/

namespace LuaTyping

open Layout (Fits Drawn)
open Step (Attaches Same Place)

/-- The step answers one node, and leaves it and nothing else. -/
def Step.Single (l : Layout) (p : Step Draft NodeId) (q : Step Sketch Outline) : Prop :=
  ∀ front, Attaches l front [] p q fun x o own => Drawn l front own [x] [o]

/-- The readers of two levels leave the nodes that they answer. -/
structure Level.Single (l : Layout) (L : Level Draft NodeId)
    (L' : Level Sketch Outline) : Prop where
  expr : ∀ limit, Step.Single l (L.expr limit) (L'.expr limit)
  stat : Step.Single l L.stat L'.stat

namespace Grammar

variable {l : Layout} {front : List Branch} {L : Level Draft NodeId} {L' : Level Sketch Outline}

/-- The nodes that are read so far, latest first. -/
def Rows (l : Layout) (front : List Branch) (done : List NodeId) (done' : List Outline)
    (own : List Branch) : Prop :=
  Drawn l front own done.reverse done'.reverse

theorem Rows.cons {done : List NodeId} {done' : List Outline} {own new : List Branch} {x : NodeId}
    {o : Outline} (rows : Rows l front done done' own)
    (drawn : Drawn l (front ++ own) new [x] [o]) :
    Rows l front (x :: done) (o :: done') (own ++ new) := by
  rw [Rows, List.reverse_cons, List.reverse_cons]
  exact rows.append drawn

theorem Rows.append {done xs : List NodeId} {done' os : List Outline} {own new : List Branch}
    (rows : Rows l front done done' own)
    (drawn : Drawn l (front ++ own) new xs.reverse os.reverse) :
    Rows l front (xs ++ done) (os ++ done') (own ++ new) := by
  rw [Rows, List.reverse_append, List.reverse_append]
  exact Layout.Drawn.append rows drawn

/-- A node that is there or not. -/
def Maybe (l : Layout) (front : List Branch) (x : Option NodeId) (o : Option Outline)
    (own : List Branch) : Prop :=
  Drawn l front own x.toList o.toList

theorem Maybe.cases {x : Option NodeId} {o : Option Outline} {own : List Branch}
    (h : Maybe l front x o own) : (x = none ∧ o = none ∧ own = [])
      ∨ ∃ y p, x = some y ∧ o = some p ∧ Drawn l front own [y] [p] := by
  have length := h.length_eq
  cases x <;> cases o
  · exact .inl ⟨rfl, rfl, List.map_eq_nil_iff.mp h.ids.symm⟩
  · exact absurd length (Nat.zero_ne_one)
  · exact absurd length (Nat.one_ne_zero)
  · exact .inr ⟨_, _, rfl, rfl, h⟩

/-- One node or none, in any order. -/
theorem Maybe.rows {x : Option NodeId} {o : Option Outline} {own : List Branch}
    (h : Drawn l front own x.toList o.toList) :
    Drawn l front own x.toList.reverse o.toList.reverse := by
  obtain ⟨rfl, rfl, rfl⟩ | ⟨y, p, rfl, rfl, drawn⟩ := Maybe.cases h <;> exact h

/-! ## Lists, blocks and functions -/

theorem attaches_commaItems {item : Step Draft NodeId} {item' : Step Sketch Outline}
    (part : Step.Single l item item') {done : List NodeId} {done' : List Outline}
    {own : List Branch} (rows : Rows l front done done' own) :
    Attaches l front own (commaItems item done) (commaItems item' done') (Rows l front) := by
  refine .iterate (fun rows => (Same.accept .comma).then_ fun comma => ?_) rows
  split
  · exact .sub_bind (part _) fun drawn => .pure ⟨rfl, rows.cons drawn⟩
  · exact .pure ⟨rfl, rows⟩

theorem attaches_parameters :
    Attaches l front [] (parameters : Step Draft _) (parameters : Step Sketch _)
      (Rows l front) := by
  refine .iterate (fun rows => Same.peek.then_ fun next => ?_) Layout.Drawn.nil
  split
  · exact .sub_bind (.leaf _) fun drawn => (Same.accept .comma).then_ fun more =>
      .pure ⟨rfl, rows.cons drawn⟩
  · exact .sub_bind (.leaf _) fun drawn => .pure ⟨rfl, rows.cons drawn⟩
  · exact (Same.refuse _).then_ fun _ => .pure ⟨rfl, rows⟩

variable (hL : L.Single l L')

include hL

theorem single_exprList : Step.Single l (exprList L) (exprList L') := fun _ =>
  .here_bind fun first => .bind (hL.expr 0 _) fun drawn =>
    .bind (attaches_commaItems (hL.expr 0) drawn) fun rows => .wrap rows first

theorem attaches_blockItem {done : List NodeId} {done' : List Outline} {own : List Branch}
    (rows : Rows l front done done' own) :
    Attaches l front own (blockItem L done) (blockItem L' done')
      fun r r' own' => r.2 = r'.2 ∧ Rows l front r.1 r'.1 own' := by
  refine Same.blockEnds.then_ fun ends => ?_
  split
  · exact .pure ⟨rfl, rows⟩
  · refine Same.position.then_ fun before => .sub_bind (hL.stat _) fun drawn =>
      Same.position.then_ fun behind => ?_
    split
    · exact (Same.refuse _).then_ fun _ => .sub_bind (.leaf _) fun drawn' =>
        .pure ⟨rfl, (rows.cons drawn).cons drawn'⟩
    · exact .pure ⟨rfl, rows.cons drawn⟩

theorem single_block : Step.Single l (block L) (block L') := fun _ =>
  .here_bind fun first =>
    .bind (.iterate (attaches_blockItem hL) Layout.Drawn.nil)
      fun rows => .wrap rows first

theorem single_funcBody : Step.Single l (funcBody L) (funcBody L') := by
  intro front
  refine .here_bind fun first => (Same.expect _ _).then_ fun _ => (Same.at? _).then_ fun none => ?_
  extract_lets rest rest'
  have behind {own : List Branch} {params : List NodeId} {params' : List Outline}
      (rows : Rows l front params params' own) :
      Attaches l front own (rest params) (rest' params') fun x o own => Drawn l front own [x] [o] :=
    (Same.expect _ _).then_ fun _ => .bind (.finish rows.toFits first) fun list =>
      .sub_bind (single_block hL _) fun body => (Same.expect _ _).then_ fun _ =>
        .finish (list.append body).toFits first
  split
  · exact .pure_bind (behind Layout.Drawn.nil)
  · exact .bind attaches_parameters behind

/-! ## Expressions -/

theorem single_tableField : Step.Single l (tableField L) (tableField L') := by
  refine fun _ => .here_bind fun first => Same.peek.then_ fun next =>
    Same.peekSecond.then_ fun second => ?_
  split
  · exact Same.bump.then_ fun _ => .bind (hL.expr 0 _) fun key =>
      (Same.expect _ _).then_ fun _ => (Same.expect _ _).then_ fun _ =>
        .sub_bind (hL.expr 0 _) fun value => .finish (key.append value).toFits first
  · exact .bind (.leaf _) fun key => Same.bump.then_ fun _ =>
      .sub_bind (hL.expr 0 _) fun value => .finish (key.append value).toFits first
  · exact .bind (hL.expr 0 _) fun value => .finish value.toFits first

omit hL in
theorem same_fieldSeparator : Same fieldSeparator fieldSeparator := by
  refine (Same.accept _).bind fun comma => ?_
  split
  · exact Same.pure true
  · exact Same.accept _

theorem attaches_tableItem {done : List NodeId} {done' : List Outline} {own : List Branch}
    (rows : Rows l front done done' own) :
    Attaches l front own (tableItem L done) (tableItem L' done')
      fun r r' own' => r.2 = r'.2 ∧ Rows l front r.1 r'.1 own' := by
  refine (Same.at? _).then_ fun closed => Same.atEnd.then_ fun ended => ?_
  split
  · exact .pure ⟨rfl, rows⟩
  · exact .sub_bind (single_tableField hL _) fun drawn => same_fieldSeparator.then_ fun more =>
      .pure ⟨rfl, rows.cons drawn⟩

theorem single_tableConstructor : Step.Single l (tableConstructor L) (tableConstructor L') :=
  fun _ => .here_bind fun first => Same.bump.then_ fun _ =>
    .bind (.iterate (attaches_tableItem hL) Layout.Drawn.nil)
      fun rows => (Same.expect _ _).then_ fun _ => .finish rows.toFits first

theorem single_callArgs : Step.Single l (callArgs L) (callArgs L') := by
  intro front
  refine .here_bind fun first => ?_
  extract_lets rest closing rest' closing'
  have behind {own : List Branch} {args : List NodeId} {args' : List Outline}
      (rows : Rows l front args args' own) :
      Attaches l front own (closing args) (closing' args')
        fun x o own => Drawn l front own [x] [o] :=
    (Same.expect _ _).then_ fun _ => .pure_bind (.finish rows.toFits first)
  refine Same.peek.then_ fun next => ?_
  split
  · exact .bind (.leaf _) fun s => .bind (.around s) fun v => .finish v.toFits first
  · exact .bind (.leaf _) fun s => .bind (.around s) fun v => .finish v.toFits first
  · exact .bind (single_tableConstructor hL _) fun t => .bind (.around t) fun v =>
      .finish v.toFits first
  · refine (Same.expect _ _).then_ fun _ => (Same.at? _).then_ fun none => ?_
    split
    · exact .pure_bind (behind Layout.Drawn.nil)
    · exact .bind (hL.expr 0 _) fun e =>
        .bind (attaches_commaItems (hL.expr 0) e) behind

theorem attaches_primaryExpr :
    Attaches l front [] (primaryExpr L) (primaryExpr L') (Maybe l front) := by
  refine Same.peek.then_ fun next => ?_
  split
  · exact .bind (.leaf _) fun drawn => .pure drawn
  · exact .here_bind fun first => Same.bump.then_ fun _ => .bind (hL.expr 0 _) fun inner =>
      (Same.expect _ _).then_ fun _ => .bind (.finish inner.toFits first) fun drawn => .pure drawn
  · exact .pure Layout.Drawn.nil

theorem attaches_suffix {e : NodeId} {e' : Outline} {own : List Branch}
    (drawn : Drawn l front own [e] [e']) :
    Attaches l front own (suffix L e) (suffix L' e')
      fun r r' own' => r.2 = r'.2 ∧ Drawn l front own' [r.1] [r'.1] := by
  refine .startOf_bind drawn (List.mem_singleton_self _) fun first => Same.peek.then_ fun next => ?_
  have call {callee : NodeId} {callee' : Outline} {own : List Branch}
      (drawn : Drawn l front own [callee] [callee']) :
      Attaches l front own
        (do
          let args ← callArgs L
          return (← Step.finish .callExpr _ [callee, args], true))
        (do
          let args ← callArgs L'
          return (← Step.finish .callExpr _ [callee', args], true))
        fun r r' own' => r.2 = r'.2 ∧ Drawn l front own' [r.1] [r'.1] :=
    .sub_bind (single_callArgs hL _) fun args => .bind (.finish (drawn.append args).toFits first)
      fun drawn => .pure ⟨rfl, drawn⟩
  split
  · exact Same.bump.then_ fun _ => .sub_bind (.leafOf? _ _ _) fun name =>
      .bind (.finish (drawn.append name).toFits first) fun drawn => .pure ⟨rfl, drawn⟩
  · exact Same.bump.then_ fun _ => .sub_bind (hL.expr 0 _) fun key =>
      (Same.expect _ _).then_ fun _ =>
      .bind (.finish (drawn.append key).toFits first) fun drawn => .pure ⟨rfl, drawn⟩
  · exact Same.bump.then_ fun _ => .sub_bind (.leafOf? _ _ _) fun name =>
      .bind (.finish (drawn.append name).toFits first) call
  · exact call drawn
  · exact call drawn
  · exact call drawn
  · exact call drawn
  · exact .pure ⟨rfl, drawn⟩

theorem attaches_suffixedExpr :
    Attaches l front [] (suffixedExpr L) (suffixedExpr L') (Maybe l front) := by
  refine .bind (attaches_primaryExpr hL) fun found => ?_
  obtain ⟨rfl, rfl, rfl⟩ | ⟨e, e', rfl, rfl, drawn⟩ := found.cases
  · exact .pure found
  · exact .bind (.iterate (attaches_suffix hL) drawn) fun drawn => .pure drawn

theorem single_simpleExpr : Step.Single l (simpleExpr L) (simpleExpr L') := by
  intro front
  rw [simpleExpr, simpleExpr]
  extract_lets rest rest'
  have behind {x : Option NodeId} {o : Option Outline} {own : List Branch}
      (found : Maybe l front x o own) :
      Attaches l front own (rest x) (rest' o) fun x o own => Drawn l front own [x] [o] := by
    obtain ⟨rfl, rfl, rfl⟩ | ⟨e, e', rfl, rfl, drawn⟩ := found.cases
    · exact (Same.refuse _).then_ fun _ => .here_bind fun first => .empty first
    · exact .around drawn
  refine Same.peek.then_ fun next => ?_
  split
  · exact .bind (.map (single_tableConstructor hL _)) behind
  · exact .here_bind fun first => Same.bump.then_ fun _ => .bind (single_funcBody hL _) fun body =>
      .bind (.map (.finish body.toFits first)) behind
  · split
    · exact .bind (.map (.leaf _)) behind
    · exact .bind (attaches_suffixedExpr hL) behind
  · exact .pure_bind (behind (x := none) (o := none) Layout.Drawn.nil)

theorem single_operand : Step.Single l (operand L) (operand L') := by
  refine fun _ => Same.peek.then_ fun next => ?_
  split
  · split
    · exact .bind (.leaf _) fun op => .sub_bind (hL.expr _ _) fun e =>
        .join (op.append e) (by simp) (by simp)
    · exact single_simpleExpr hL _
  · exact single_simpleExpr hL _

theorem attaches_climb (limit : Nat) {left : NodeId} {left' : Outline} {own : List Branch}
    (drawn : Drawn l front own [left] [left']) :
    Attaches l front own (climb L limit left) (climb L' limit left')
      fun r r' own' => r.2 = r'.2 ∧ Drawn l front own' [r.1] [r'.1] := by
  refine Same.peek.then_ fun next => ?_
  split
  · split
    · exact .pure ⟨rfl, drawn⟩
    · exact .sub_bind (.leaf _) fun op => .sub_bind (hL.expr _ _) fun right =>
        .bind (.join ((drawn.append op).append right) (by simp) (by simp)) fun drawn =>
          .pure ⟨rfl, drawn⟩
  · exact .pure ⟨rfl, drawn⟩

theorem single_expression (limit : Nat) :
    Step.Single l (expression L limit) (expression L' limit) :=
  fun _ => .bind (single_operand hL _) fun drawn => .iterate (attaches_climb hL limit) drawn

/-! ## Statements -/

omit hL

/-- A form that is read: its kind, and its children in their order. -/
def Shaped (l : Layout) (front : List Branch) (r : Form NodeId) (r' : Form Outline)
    (own : List Branch) : Prop :=
  r.1 = r'.1 ∧ Drawn l front own r.2 r'.2

theorem single_attrib : Step.Single l attrib attrib := fun _ =>
  .here_bind fun first => Same.bump.then_ fun _ => (Same.expect _ _).then_ fun _ =>
    (Same.expect _ _).then_ fun _ => .finish .nil first

theorem attaches_localNames :
    Attaches l front [] (localNames : Step Draft _) (localNames : Step Sketch _)
      (Rows l front) := by
  refine .iterate (fun rows => .sub_bind (.leafOf? _ _ _) fun found => ?_) Layout.Drawn.nil
  obtain ⟨rfl, rfl, rfl⟩ | ⟨name, name', rfl, rfl, drawn⟩ := Maybe.cases found
  · rw [List.append_nil]
    exact .pure ⟨rfl, rows⟩
  · refine (Same.at? _).then_ fun less => ?_
    extract_lets rest rest'
    have behind {done : List NodeId} {done' : List Outline} {own : List Branch}
        (rows : Rows l front done done' own) :
        Attaches l front own (rest done) (rest' done')
          fun r r' own' => r.2 = r'.2 ∧ Rows l front r.1 r'.1 own' :=
      (Same.accept _).then_ fun more => .pure ⟨rfl, rows⟩
    split
    · exact .sub_bind (single_attrib _) fun attrib =>
        .pure_bind (behind ((rows.cons drawn).cons attrib))
    · exact .pure_bind (behind (rows.cons drawn))

/-- A mark and a name, as often as there is one more mark. -/
theorem attaches_furtherName {mark t : Token} {kind : NodeKind} {e : Expectation}
    {done : List NodeId} {done' : List Outline} {own : List Branch}
    (rows : Rows l front done done' own) :
    Attaches l front own
      (Step.iterate (fun done => do
        if ← Step.accept mark then
          let name ← Step.leafOf? t kind e
          return (name.toList ++ done, true)
        else return (done, false)) done)
      (Step.iterate (fun done => do
        if ← Step.accept mark then
          let name ← Step.leafOf? t kind e
          return (name.toList ++ done, true)
        else return (done, false)) done') (Rows l front) := by
  refine .iterate (fun rows => (Same.accept _).then_ fun marked => ?_) rows
  split
  · exact .sub_bind (.leafOf? _ _ _) fun found => .pure ⟨rfl, rows.append (Maybe.rows found)⟩
  · exact .pure ⟨rfl, rows⟩

theorem single_funcName : Step.Single l funcName funcName := by
  refine fun front => .here_bind fun first => .bind (.leafOf? _ _ _) fun base =>
    .bind (attaches_furtherName (Maybe.rows base)) fun fields =>
      (Same.accept _).then_ fun colon => ?_
  split
  · exact .sub_bind (.leafOf? _ _ _) fun method => .wrap (Layout.Drawn.append fields method) first
  · have rows := Layout.Drawn.append fields .nil
    rw [List.append_nil] at rows
    exact .pure_bind (.wrap rows first)

include hL

theorem attaches_localStat :
    Attaches l front [] (localStat L) (localStat L') (Shaped l front) := by
  refine .here_bind fun first => .bind attaches_localNames fun names =>
    .bind (.wrap names first) fun list => (Same.accept _).then_ fun assigned => ?_
  split
  · exact .sub_bind (single_exprList hL _) fun values => .pure ⟨rfl, list.append values⟩
  · exact .pure ⟨rfl, list⟩

theorem attaches_localFuncStat :
    Attaches l front [] (localFuncStat L) (localFuncStat L') (Shaped l front) :=
  .bind (.leafOf? _ _ _) fun name => .sub_bind (single_funcBody hL _) fun body =>
    .pure ⟨rfl, name.append body⟩

theorem attaches_funcStat : Attaches l front [] (funcStat L) (funcStat L') (Shaped l front) :=
  .bind (single_funcName _) fun name => .sub_bind (single_funcBody hL _) fun body =>
    .pure ⟨rfl, name.append body⟩

theorem attaches_returnStat :
    Attaches l front [] (returnStat L) (returnStat L') (Shaped l front) := by
  refine Same.blockEnds.then_ fun ends => (Same.at? _).then_ fun closed => ?_
  extract_lets rest rest'
  have behind {own : List Branch} {children : List NodeId} {children' : List Outline}
      (drawn : Drawn l front own children children') :
      Attaches l front own (rest children) (rest' children') (Shaped l front) :=
    (Same.accept _).then_ fun _ => .pure ⟨rfl, drawn⟩
  split
  · exact .pure_bind (behind .nil)
  · exact .bind (single_exprList hL _) fun values => .pure_bind (behind values)

theorem attaches_doStat : Attaches l front [] (doStat L) (doStat L') (Shaped l front) :=
  .bind (single_block hL _) fun body => (Same.expect _ _).then_ fun _ => .pure ⟨rfl, body⟩

theorem attaches_whileStat : Attaches l front [] (whileStat L) (whileStat L') (Shaped l front) :=
  .bind (hL.expr 0 _) fun condition => (Same.expect _ _).then_ fun _ =>
    .sub_bind (single_block hL _) fun body => (Same.expect _ _).then_ fun _ =>
      .pure ⟨rfl, condition.append body⟩

theorem attaches_repeatStat :
    Attaches l front [] (repeatStat L) (repeatStat L') (Shaped l front) :=
  .bind (single_block hL _) fun body => (Same.expect _ _).then_ fun _ =>
    .sub_bind (hL.expr 0 _) fun condition => .pure ⟨rfl, body.append condition⟩

theorem attaches_ifStat : Attaches l front [] (ifStat L) (ifStat L') (Shaped l front) := by
  refine .bind (hL.expr 0 _) fun condition => (Same.expect _ _).then_ fun _ =>
    .sub_bind (single_block hL _) fun body => .bind (.iterate (I := Rows l front) (fun rows =>
      .here_bind fun first => (Same.accept _).then_ fun more => ?_) (condition.append body))
      fun children => (Same.expect _ _).then_ fun _ => .pure ⟨rfl, children⟩
  split
  · exact .beside (.bind (hL.expr 0 _) fun condition => (Same.expect _ _).then_ fun _ =>
      .sub_bind (single_block hL _) fun body =>
        .bind (.finish (condition.append body).toFits first) fun clause =>
          .pure ⟨rfl, rows.cons clause⟩)
  · refine (Same.accept _).then_ fun otherwise => ?_
    split
    · exact .beside (.bind (single_block hL _) fun body => .bind (.finish body.toFits first)
        fun clause => .pure ⟨rfl, rows.cons clause⟩)
    · exact .pure ⟨rfl, rows⟩

theorem single_loopBody : Step.Single l (loopBody L) (loopBody L') := fun _ =>
  (Same.expect _ _).then_ fun _ => .bind (single_block hL _) fun body =>
    (Same.expect _ _).then_ fun _ => .pure body

theorem attaches_numericForStat {var : Option NodeId} {var' : Option Outline} {own : List Branch}
    (found : Maybe l front var var' own) :
    Attaches l front own (numericForStat L var) (numericForStat L' var') (Shaped l front) := by
  have stride (front : List Branch) : Attaches l front [] (some <$> L.expr 0) (some <$> L'.expr 0)
      (Maybe l front) := .map (hL.expr 0 front)
  refine .sub_bind (hL.expr 0 _) fun start => (Same.expect _ _).then_ fun _ =>
    .sub_bind (hL.expr 0 _) fun stop => (Same.accept _).then_ fun more => ?_
  split
  · exact .sub_bind (stride _) fun stride => .sub_bind (single_loopBody hL _) fun body => .pure
      ⟨rfl, by
        simpa using (((Layout.Drawn.append found start).append stop).append stride).append body⟩
  · exact .pure_bind (.sub_bind (single_loopBody hL _) fun body => .pure
      ⟨rfl, by simpa using ((Layout.Drawn.append found start).append stop).append body⟩)

theorem attaches_forStat : Attaches l front [] (forStat L) (forStat L') (Shaped l front) := by
  refine .here_bind fun first => .bind (.leafOf? _ _ _) fun var =>
    (Same.accept _).then_ fun assigned => ?_
  split
  · exact attaches_numericForStat hL var
  · refine .bind (attaches_furtherName (Maybe.rows var)) fun names =>
      .bind (.wrap names first) fun list => (Same.expect _ _).then_ fun _ =>
        .sub_bind (single_exprList hL _) fun values => .sub_bind (single_loopBody hL _) fun body =>
          .pure ⟨rfl, (list.append values).append body⟩

omit hL in
theorem attaches_gotoStat : Attaches l front [] gotoStat gotoStat (Shaped l front) :=
  .bind (.leafOf? _ _ _) fun name => .pure ⟨rfl, name⟩

omit hL in
theorem attaches_labelStat : Attaches l front [] labelStat labelStat (Shaped l front) :=
  .bind (.leafOf? _ _ _) fun name => (Same.expect _ _).then_ fun _ => .pure ⟨rfl, name⟩

theorem attaches_target {done : List NodeId} {done' : List Outline} {own : List Branch}
    (rows : Rows l front done done' own) :
    Attaches l front own (target L done) (target L' done')
      fun r r' own' => r.2 = r'.2 ∧ Rows l front r.1 r'.1 own' := by
  refine (Same.accept _).then_ fun comma => ?_
  split
  · refine .sub_bind (attaches_suffixedExpr hL) fun found => ?_
    obtain ⟨rfl, rfl, rfl⟩ | ⟨t, t', rfl, rfl, drawn⟩ := found.cases
    · rw [List.append_nil]
      exact .pure ⟨rfl, rows⟩
    · exact .pure ⟨rfl, rows.cons drawn⟩
  · exact .pure ⟨rfl, rows⟩

theorem attaches_assignOrCall {place mark : Nat} {x : NodeId} {o : Outline} {own : List Branch}
    (first : Place l place mark) (drawn : Drawn l front own [x] [o]) :
    Attaches l front own (assignOrCall L place x) (assignOrCall L' mark o) (Shaped l front) := by
  refine (Same.at? _).then_ fun assigned => (Same.at? _).then_ fun comma => ?_
  split
  · exact .bind (.iterate (attaches_target hL) drawn) fun targets =>
      .bind (.wrap targets first) fun list => (Same.expect _ _).then_ fun _ =>
        .sub_bind (single_exprList hL _) fun values => .pure ⟨rfl, list.append values⟩
  · refine .kindOf_bind drawn (List.mem_singleton_self _) fun kind => ?_
    split
    · exact .pure ⟨rfl, drawn⟩
    · exact (Same.refuse _).then_ fun _ => .pure ⟨rfl, drawn⟩

theorem attaches_exprStat : Attaches l front [] (exprStat L) (exprStat L') (Shaped l front) := by
  refine .here_bind fun first => .bind (attaches_suffixedExpr hL) fun found => ?_
  obtain ⟨rfl, rfl, rfl⟩ | ⟨t, t', rfl, rfl, drawn⟩ := found.cases
  · exact .pure ⟨rfl, .nil⟩
  · exact attaches_assignOrCall hL first drawn

theorem attaches_form : Attaches l front [] (form L) (form L') (Shaped l front) := by
  refine Same.peek.then_ fun next => ?_
  split
  · exact Same.bump.then_ fun _ => .pure ⟨rfl, .nil⟩
  · refine Same.bump.then_ fun _ => (Same.accept _).then_ fun function => ?_
    split
    · exact attaches_localFuncStat hL
    · exact attaches_localStat hL
  · exact Same.bump.then_ fun _ => attaches_funcStat hL
  · exact Same.bump.then_ fun _ => attaches_returnStat hL
  · exact Same.bump.then_ fun _ => attaches_doStat hL
  · exact Same.bump.then_ fun _ => attaches_whileStat hL
  · exact Same.bump.then_ fun _ => attaches_repeatStat hL
  · exact Same.bump.then_ fun _ => attaches_ifStat hL
  · exact Same.bump.then_ fun _ => attaches_forStat hL
  · exact Same.bump.then_ fun _ => .pure ⟨rfl, .nil⟩
  · exact Same.bump.then_ fun _ => attaches_gotoStat
  · exact Same.bump.then_ fun _ => attaches_labelStat
  · exact attaches_exprStat hL

theorem single_statement : Step.Single l (statement L) (statement L') := by
  refine fun _ => .bind .doc fun comment => .sub_bind (attaches_form hL) fun {r r' own} form => ?_
  obtain ⟨kind, children⟩ := r
  obtain ⟨kind', children'⟩ := r'
  obtain ⟨rfl, drawn⟩ := form
  exact .finish (comment.2.append drawn.toFits) comment.1

/-! ## Programs -/

omit hL

/-- The readers of every level leave the nodes that they answer. -/
theorem single_level (n : Nat) :
    (level n : Level Draft NodeId).Single l (level n : Level Sketch Outline) := by
  induction n with
  | zero => exact ⟨fun _ _ => .cutOff, fun _ => .cutOff⟩
  | succ n ih => exact ⟨single_expression ih, single_statement ih⟩

theorem same_strays : Same strays strays := by
  refine Same.iterate (fun _ => Same.atEnd.bind fun ended => ?_) ()
  split
  · exact Same.pure _
  · exact (Same.refuse _).bind fun _ => Same.bump.bind fun _ => Same.pure _

theorem single_chunk (limit : Nat) : Step.Single l (chunk limit) (chunk limit) := fun _ =>
  .bind (single_block (single_level limit) _) fun body => same_strays.then_ fun _ => .pure body

end Grammar

/-! ## Texts -/

/-- The passing of the limit is reported up to the end of the text. -/
theorem Layout.Faithful.syntaxError_tooDeep {l : Layout} (h : l.Faithful) (limit token : Nat) :
    l.syntaxError limit (.tooDeep token)
      = .tooDeep limit ⟨l.tokenStart token, l.text.utf8ByteSize⟩ := by
  rw [syntaxError, Span.ofNumbers_of_lt (Nat.lt_of_le_of_lt (tokenStart_le_size h token) h.small)
    h.small]

namespace Parsed

/-- The parser ends where the sketch of the same tokens ends, and has a single loose branch. -/
theorem meets_read (limit : Nat) (l : Layout) :
    ∃ loose, Cursor.Meets l loose (read limit l).2
        (Grammar.chunk limit (.start (l.lexemes.map Lexeme.token).toList (⟨⟩ : Sketch))).val.2
      ∧ Drawn l [] loose [(read limit l).1]
        [(Program.ofTokens limit (l.lexemes.map Lexeme.token).toList).body] := by
  refine Grammar.single_chunk limit [] _ _
    ⟨rfl, rfl, rfl, rfl, rfl, rfl, ?_, Draft.Holds.empty l⟩
  change 0 + (l.lexemes.map Lexeme.token).toList.length = l.lexemes.size
  rw [Array.length_toList, Array.size_map, Nat.zero_add]

variable (limit : Nat) (text : String)

/-- What is wrong with a text is what is wrong with its tokens. -/
theorem errors_ofTextWithin : (ofTextWithin limit text).errors
    = (Lexed.ofText text).invalid.toList.map .invalid
      ++ (Program.ofTokens limit ((Lexed.ofText text).lexemes.map Lexeme.token).toList).faults.map
        ((Layout.ofLexed text (Lexed.ofText text)).syntaxError limit) := by
  obtain ⟨loose, meets, -⟩ := meets_read limit (Layout.ofLexed text (Lexed.ofText text))
  change _ ++ (read limit _).2.faults.reverse.map _ = _
  rw [meets.faults]
  rfl

/-- The tree of a text has the nodes of the outline of its tokens. -/
theorem realizes : (ofTextWithin limit text).tree.Realizes
    (Layout.ofLexed text (Lexed.ofText text))
    (Program.ofTokens limit ((Lexed.ofText text).lexemes.map Lexeme.token).toList).body := by
  obtain ⟨loose, meets, drawn⟩ := meets_read limit (Layout.ofLexed text (Lexed.ofText text))
  have size := meets.holds.size_eq
  rw [← List.nil_append loose] at meets
  obtain ⟨-, -, holds⟩ := meets.holds.node .chunk (.ofNumbers 0 text.utf8ByteSize)
  rw [← drawn.ids, size] at holds
  obtain ⟨bare, same⟩ := drawn.root (.ofNumbers 0 text.utf8ByteSize)
  refine ⟨_, holds.grows text, bare, fun small => same (Layout.faithful_ofLexed small) ?_⟩
  exact Span.ofNumbers_of_lt (Nat.lt_of_le_of_lt (Nat.zero_le _) small) small

/-- Where every place of the text has an offset of its own, its tree is that of the outline of its
tokens. -/
theorem grows_root {text : String} (small : text.utf8ByteSize < offsetCount) :
    (ofTextWithin limit text).tree.Grows ((Layout.ofLexed text (Lexed.ofText text)).root
      (Program.ofTokens limit ((Lexed.ofText text).lexemes.map Lexeme.token).toList).body) := by
  obtain ⟨r, grows, -, same⟩ := realizes limit text
  exact same small ▸ grows

end Parsed

end LuaTyping
