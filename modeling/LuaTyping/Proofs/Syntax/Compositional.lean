import LuaTyping.Proofs.Syntax.Sketch

/-!
# The grammar over two levels

A production is put together from a few single steps by sequence and repetition, and it is the same
production whatever stands below it.  So a relation between steps that sequence and repetition keep,
and in which every single step stands to itself, holds between each production over one level and
the same production over another, as soon as it holds between the readers of the two levels.  What a
production makes of its parts plays no role here.

A property of single runs is such a relation, one that does not look at its second step; a
comparison of two parsers is one that does.

* `Step.Compositional`: the relations that sequence and repetition keep.
* `Level.Related`: the readers of two levels stand in a relation.
* `Grammar.levelOver`, `Grammar.chunkOver`: levels of nesting above any level, and programs read
  with them.
* `Grammar.related_levelOver`, `Grammar.related_chunkOver`: the relation is passed upwards.
-/

namespace LuaTyping

namespace Step

/-- A step that only looks. -/
def look {α : Type} (f : Cursor Sketch → α) : Step Sketch α := fun c => ⟨(f c, c), .refl c⟩

/-- A relation that holds of every single step, cuts apart, and is kept by sequence and
repetition. -/
structure Compositional (R : (α : Type) → Step Sketch α → Step Sketch α → Prop) : Prop where
  look : ∀ {α : Type} (f : Cursor Sketch → α), R α (look f) (look f)
  bump : R Unit bump bump
  refuse : ∀ e, R Unit (refuse e) (refuse e)
  bind : ∀ {α β : Type} {p p' : Step Sketch α} {f f' : α → Step Sketch β},
    R α p p' → (∀ a, R β (f a) (f' a)) → R β (p >>= f) (p' >>= f')
  iterate : ∀ {σ : Type} {body body' : σ → Step Sketch (σ × Bool)},
    (∀ s, R (σ × Bool) (body s) (body' s)) → ∀ s, R σ (iterate body s) (iterate body' s)

namespace Compositional

variable {R : (α : Type) → Step Sketch α → Step Sketch α → Prop} (h : Compositional R) {α β : Type}
  {p p' : Step Sketch α} {f f' : α → Step Sketch β} {t : Token} {kind : NodeKind} {e : Expectation}

include h

theorem pure (a : α) : R α (Pure.pure a) (Pure.pure a) := h.look fun _ => a

theorem map {g : α → β} (related : R α p p') : R β (g <$> p) (g <$> p') :=
  h.bind related fun a => h.pure (g a)

/-- What follows a step that only looks. -/
theorem looking {g : Cursor Sketch → α} (next : ∀ a, R β (f a) (f' a)) :
    R β (Step.look g >>= f) (Step.look g >>= f') := h.bind (h.look g) next

theorem accept : R Bool (Step.accept t) (Step.accept t) := by
  refine h.looking fun found => ?_
  split
  · exact h.bind h.bump fun _ => h.pure true
  · exact h.pure false

theorem expect : R Unit (Step.expect t e) (Step.expect t e) := by
  refine h.bind h.accept fun accepted => ?_
  split
  · exact h.pure ()
  · exact h.refuse e

theorem leaf : R Outline (Step.leaf kind) (Step.leaf kind) :=
  h.looking fun _ => h.bind h.bump fun _ => h.pure _

theorem leafOf? : R (Option Outline) (Step.leafOf? t kind e) (Step.leafOf? t kind e) := by
  refine h.looking fun found => ?_
  split
  · exact h.bind h.leaf fun o => h.pure (some o)
  · exact h.bind (h.refuse e) fun _ => h.pure none

theorem finish {first : Nat} {cs : List Outline} :
    R Outline (Step.finish kind first cs) (Step.finish kind first cs) := h.look _

theorem wrap {mark : Nat} {cs : List Outline} :
    R Outline (Step.wrap kind cs mark) (Step.wrap kind cs mark) := by
  rw [wrap_eq]
  exact h.pure _

theorem valueOf {o : Outline} : R Outline (Grammar.valueOf o) (Grammar.valueOf o) := h.look _

end Compositional

end Step

/-- The readers of two levels stand in the relation. -/
structure Level.Related (R : (α : Type) → Step Sketch α → Step Sketch α → Prop)
    (L L' : Level Sketch Outline) : Prop where
  expr : ∀ limit, R Outline (L.expr limit) (L'.expr limit)
  stat : R Outline L.stat L'.stat

namespace Grammar

open Step (Compositional)

variable {R : (α : Type) → Step Sketch α → Step Sketch α → Prop} {L L' : Level Sketch Outline}

section

variable (h : Compositional R)

include h

/-! ## Lists, blocks and functions -/

theorem related_commaItems {item item' : Step Sketch Outline} (related : R Outline item item')
    (done : List Outline) :
    R (List Outline) (commaItems item done) (commaItems item' done) := by
  refine h.iterate (fun done => h.bind h.accept fun comma => ?_) done
  split
  · exact h.bind related fun o => h.pure _
  · exact h.pure _

theorem related_parameters : R (List Outline) parameters parameters := by
  refine h.iterate (fun done => h.looking fun next => ?_) []
  split
  · exact h.bind h.leaf fun o => h.bind h.accept fun more => h.pure _
  · exact h.bind h.leaf fun o => h.pure _
  · exact h.bind (h.refuse _) fun _ => h.pure _

variable (hL : L.Related R L')

include hL

theorem related_exprList : R Outline (exprList L) (exprList L') :=
  h.looking fun _ => h.bind (hL.expr 0) fun e =>
    h.bind (related_commaItems h (hL.expr 0) [e]) fun _ => h.wrap

theorem related_block : R Outline (block L) (block L') := by
  refine h.looking fun first => h.bind (h.iterate (fun done => h.looking fun ends => ?_) [])
    fun stats => h.wrap
  split
  · exact h.pure _
  · refine h.looking fun before => h.bind hL.stat fun s => h.looking fun behind => ?_
    split
    · exact h.bind (h.refuse _) fun _ => h.bind h.leaf fun dropped => h.pure _
    · exact h.pure _

theorem related_funcBody : R Outline (funcBody L) (funcBody L') := by
  refine h.looking fun first => h.bind h.expect fun _ => h.looking fun none => ?_
  extract_lets rest rest'
  have behind (ps : List Outline) : R Outline (rest ps) (rest' ps) :=
    h.bind h.expect fun _ => h.bind h.finish fun list => h.bind (related_block h hL) fun body =>
      h.bind h.expect fun _ => h.finish
  split
  · exact h.bind (h.pure []) behind
  · exact h.bind (related_parameters h) behind

/-! ## Expressions -/

theorem related_tableField : R Outline (tableField L) (tableField L') := by
  refine h.looking fun first => h.looking fun next => h.looking fun second => ?_
  split
  · exact h.bind h.bump fun _ => h.bind (hL.expr 0) fun key => h.bind h.expect fun _ =>
      h.bind h.expect fun _ => h.bind (hL.expr 0) fun value => h.finish
  · exact h.bind h.leaf fun key => h.bind h.bump fun _ => h.bind (hL.expr 0) fun value => h.finish
  · exact h.bind (hL.expr 0) fun value => h.finish

theorem related_tableConstructor : R Outline (tableConstructor L) (tableConstructor L') := by
  refine h.looking fun first => h.bind h.bump fun _ =>
    h.bind (h.iterate (fun done => h.looking fun closed => h.looking fun ended => ?_) [])
      fun fields => h.bind h.expect fun _ => h.finish
  split
  · exact h.pure _
  · refine h.bind (related_tableField h hL) fun field =>
      h.bind (h.bind h.accept fun comma => ?_) fun more => h.pure _
    split
    · exact h.pure true
    · exact h.accept

theorem related_callArgs : R Outline (callArgs L) (callArgs L') := by
  refine h.looking fun first => ?_
  extract_lets rest closing
  have close (args : List Outline) : R Outline (closing args) (closing args) :=
    h.bind h.expect fun _ => h.bind (h.pure _) fun _ => h.finish
  refine h.looking fun next => ?_
  split
  · exact h.bind h.leaf fun s => h.bind h.valueOf fun v => h.bind (h.pure _) fun _ => h.finish
  · exact h.bind h.leaf fun s => h.bind h.valueOf fun v => h.bind (h.pure _) fun _ => h.finish
  · exact h.bind (related_tableConstructor h hL) fun t => h.bind h.valueOf fun v =>
      h.bind (h.pure _) fun _ => h.finish
  · refine h.bind h.expect fun _ => h.looking fun none => ?_
    split
    · exact h.bind (h.pure []) close
    · exact h.bind (hL.expr 0) fun e => h.bind (related_commaItems h (hL.expr 0) [e]) close

theorem related_primaryExpr : R (Option Outline) (primaryExpr L) (primaryExpr L') := by
  refine h.looking fun next => ?_
  split
  · exact h.bind h.leaf fun o => h.pure (some o)
  · exact h.looking fun first => h.bind h.bump fun _ => h.bind (hL.expr 0) fun inner =>
      h.bind h.expect fun _ => h.bind h.finish fun o => h.pure (some o)
  · exact h.pure none

theorem related_suffix (e : Outline) : R (Outline × Bool) (suffix L e) (suffix L' e) := by
  have call (first : Nat) (callee : Outline) : R (Outline × Bool)
      (do
        let args ← callArgs L
        let call ← Step.finish .callExpr first [callee, args]
        return (call, true))
      (do
        let args ← callArgs L'
        let call ← Step.finish .callExpr first [callee, args]
        return (call, true)) :=
    h.bind (related_callArgs h hL) fun args => h.bind h.finish fun o => h.pure (o, true)
  refine h.looking fun first => h.looking fun next => ?_
  split
  · exact h.bind h.bump fun _ => h.bind h.leafOf? fun name => h.bind h.finish fun o =>
      h.pure (o, true)
  · exact h.bind h.bump fun _ => h.bind (hL.expr 0) fun key => h.bind h.expect fun _ =>
      h.bind h.finish fun o => h.pure (o, true)
  · exact h.bind h.bump fun _ => h.bind h.leafOf? fun name => h.bind h.finish fun method =>
      call first method
  · exact call first e
  · exact call first e
  · exact call first e
  · exact call first e
  · exact h.pure (e, false)

theorem related_suffixedExpr : R (Option Outline) (suffixedExpr L) (suffixedExpr L') := by
  refine h.bind (related_primaryExpr h hL) fun x => ?_
  cases x with
  | none => exact h.pure none
  | some e => exact h.bind (h.iterate (related_suffix h hL) e) fun o => h.pure (some o)

theorem related_simpleExpr : R Outline (simpleExpr L) (simpleExpr L') := by
  rw [simpleExpr, simpleExpr]
  extract_lets rest
  have behind (x : Option Outline) : R Outline (rest x) (rest x) := by
    cases x with
    | some o => exact h.valueOf
    | none => exact h.bind (h.refuse _) fun _ => h.looking fun m => h.look _
  refine h.looking fun next => ?_
  split
  · exact h.bind (h.map (related_tableConstructor h hL)) behind
  · exact h.looking fun first => h.bind h.bump fun _ => h.bind (related_funcBody h hL) fun body =>
      h.bind (h.map h.finish) behind
  · split
    · exact h.bind (h.map h.leaf) behind
    · exact h.bind (related_suffixedExpr h hL) behind
  · exact h.bind (h.pure none) behind

theorem related_expression (limit : Nat) :
    R Outline (expression L limit) (expression L' limit) := by
  refine h.bind (h.looking fun next => ?_) fun left =>
    h.iterate (fun left => h.looking fun next => ?_) left
  · split
    · split
      · exact h.bind h.leaf fun op => h.bind (hL.expr unaryPower) fun e => h.look _
      · exact related_simpleExpr h hL
    · exact related_simpleExpr h hL
  · split
    · split
      · exact h.pure _
      · exact h.bind h.leaf fun op => h.bind (hL.expr _) fun right => h.looking fun o => h.pure _
    · exact h.pure _

/-! ## Statements -/

omit hL

theorem related_localNames : R (List Outline) localNames localNames := by
  have attrib : R Outline attrib attrib :=
    h.looking fun first => h.bind h.bump fun _ => h.bind h.expect fun _ => h.bind h.expect fun _ =>
      h.finish
  refine h.iterate (fun done => h.bind h.leafOf? fun name => ?_) []
  cases name with
  | none => exact h.pure _
  | some name =>
    refine h.looking fun less => ?_
    extract_lets rest
    have behind (done : List Outline) : R (List Outline × Bool) (rest done) (rest done) :=
      h.bind h.accept fun more => h.pure _
    split
    · exact h.bind attrib fun a => h.bind (h.pure _) behind
    · exact h.bind (h.pure _) behind

/-- A mark and a name, as often as there is one more mark. -/
theorem related_furtherName {mark t : Token} {kind : NodeKind} {e : Expectation}
    (done : List Outline) :
    R (List Outline)
      (Step.iterate (fun done => do
        if ← Step.accept mark then
          let name ← Step.leafOf? t kind e
          return (name.toList ++ done, true)
        else return (done, false)) done)
      (Step.iterate (fun done => do
        if ← Step.accept mark then
          let name ← Step.leafOf? t kind e
          return (name.toList ++ done, true)
        else return (done, false)) done) := by
  refine h.iterate (fun done => h.bind h.accept fun marked => ?_) done
  split
  · exact h.bind h.leafOf? fun name => h.pure _
  · exact h.pure _

theorem related_funcName : R Outline funcName funcName := by
  refine h.looking fun first => h.bind h.leafOf? fun base =>
    h.bind (related_furtherName h base.toList) fun fields => h.bind h.accept fun colon => ?_
  split
  · exact h.bind h.leafOf? fun method => h.wrap
  · exact h.bind (h.pure none) fun method => h.wrap

include hL

theorem related_localStat : R (Form Outline) (localStat L) (localStat L') := by
  refine h.looking fun first => h.bind (related_localNames h) fun names =>
    h.bind h.wrap fun list => h.bind h.accept fun assigned => ?_
  split
  · exact h.bind (related_exprList h hL) fun values => h.pure _
  · exact h.pure _

theorem related_localFuncStat : R (Form Outline) (localFuncStat L) (localFuncStat L') :=
  h.bind h.leafOf? fun _ => h.bind (related_funcBody h hL) fun _ => h.pure _

theorem related_returnStat : R (Form Outline) (returnStat L) (returnStat L') := by
  refine h.looking fun ends => h.looking fun closed => ?_
  extract_lets rest
  have behind (children : List Outline) : R (Form Outline) (rest children) (rest children) :=
    h.bind h.accept fun _ => h.pure _
  split
  · exact h.bind (h.pure []) behind
  · exact h.bind (related_exprList h hL) fun values => h.bind (h.pure _) behind

theorem related_ifStat : R (Form Outline) (ifStat L) (ifStat L') := by
  refine h.bind (hL.expr 0) fun condition => h.bind h.expect fun _ =>
    h.bind (related_block h hL) fun body =>
      h.bind (h.iterate (fun done => h.looking fun first => h.bind h.accept fun more => ?_) _)
        fun children => h.bind h.expect fun _ => h.pure _
  split
  · exact h.bind (hL.expr 0) fun condition => h.bind h.expect fun _ =>
      h.bind (related_block h hL) fun body => h.bind h.finish fun clause => h.pure _
  · refine h.bind h.accept fun otherwise => ?_
    split
    · exact h.bind (related_block h hL) fun body => h.bind h.finish fun clause => h.pure _
    · exact h.pure _

theorem related_loopBody : R Outline (loopBody L) (loopBody L') :=
  h.bind h.expect fun _ => h.bind (related_block h hL) fun body => h.bind h.expect fun _ =>
    h.pure body

theorem related_numericForStat (var : Option Outline) :
    R (Form Outline) (numericForStat L var) (numericForStat L' var) := by
  refine h.bind (hL.expr 0) fun start => h.bind h.expect fun _ => h.bind (hL.expr 0) fun stop =>
    h.bind h.accept fun more => ?_
  split
  · exact h.bind (h.map (hL.expr 0)) fun stride => h.bind (related_loopBody h hL) fun body =>
      h.pure _
  · exact h.bind (h.pure none) fun stride => h.bind (related_loopBody h hL) fun body => h.pure _

theorem related_forStat : R (Form Outline) (forStat L) (forStat L') := by
  refine h.looking fun first => h.bind h.leafOf? fun var => h.bind h.accept fun assigned => ?_
  split
  · exact related_numericForStat h hL var
  · exact h.bind (related_furtherName h var.toList) fun names => h.bind h.wrap fun list =>
      h.bind h.expect fun _ => h.bind (related_exprList h hL) fun values =>
        h.bind (related_loopBody h hL) fun body => h.pure _

theorem related_exprStat : R (Form Outline) (exprStat L) (exprStat L') := by
  refine h.looking fun first => h.bind (related_suffixedExpr h hL) fun x => ?_
  cases x with
  | none => exact h.pure _
  | some target =>
    refine h.looking fun assigned => h.looking fun comma => ?_
    split
    · refine h.bind (h.iterate (fun done => h.bind h.accept fun comma => ?_) [target])
        fun targets => h.bind h.wrap fun list => h.bind h.expect fun _ =>
          h.bind (related_exprList h hL) fun values => h.pure _
      split
      · refine h.bind (related_suffixedExpr h hL) fun x => ?_
        cases x with
        | none => exact h.pure _
        | some t => exact h.pure _
      · exact h.pure _
    · refine h.looking fun kind => ?_
      split
      · exact h.pure _
      · exact h.bind (h.refuse _) fun _ => h.pure _

theorem related_form : R (Form Outline) (form L) (form L') := by
  refine h.looking fun next => ?_
  split
  · exact h.bind h.bump fun _ => h.pure _
  · refine h.bind h.bump fun _ => h.bind h.accept fun function => ?_
    split
    · exact related_localFuncStat h hL
    · exact related_localStat h hL
  · exact h.bind h.bump fun _ => h.bind (related_funcName h) fun name =>
      h.bind (related_funcBody h hL) fun body => h.pure _
  · exact h.bind h.bump fun _ => related_returnStat h hL
  · exact h.bind h.bump fun _ => h.bind (related_block h hL) fun body => h.bind h.expect fun _ =>
      h.pure _
  · exact h.bind h.bump fun _ => h.bind (hL.expr 0) fun condition => h.bind h.expect fun _ =>
      h.bind (related_block h hL) fun body => h.bind h.expect fun _ => h.pure _
  · exact h.bind h.bump fun _ => h.bind (related_block h hL) fun body => h.bind h.expect fun _ =>
      h.bind (hL.expr 0) fun condition => h.pure _
  · exact h.bind h.bump fun _ => related_ifStat h hL
  · exact h.bind h.bump fun _ => related_forStat h hL
  · exact h.bind h.bump fun _ => h.pure _
  · exact h.bind h.bump fun _ => h.bind h.leafOf? fun name => h.pure _
  · exact h.bind h.bump fun _ => h.bind h.leafOf? fun name => h.bind h.expect fun _ => h.pure _
  · exact related_exprStat h hL

theorem related_statement : R Outline (statement L) (statement L') :=
  h.looking fun _ => h.bind (related_form h hL) fun _ => h.finish

/-! ## Programs -/

/-- The relation is passed from one level to the next. -/
theorem related_next :
    Level.Related R ⟨expression L, statement L⟩ ⟨expression L', statement L'⟩ :=
  ⟨related_expression h hL, related_statement h hL⟩

end

/-- The readers with `n` levels of nesting above the level `K`. -/
def levelOver (K : Level Sketch Outline) : Nat → Level Sketch Outline
  | 0 => K
  | n + 1 => ⟨expression (levelOver K n), statement (levelOver K n)⟩

/-- A program that is read with `n` levels of nesting above the level `K`. -/
def chunkOver (K : Level Sketch Outline) (n : Nat) : Step Sketch Outline := do
  let body ← block (levelOver K n)
  strays
  return body

theorem level_add (m n : Nat) : level (m + n) = levelOver (level m) n := by
  induction n with
  | zero => rfl
  | succ n ih => rw [← Nat.add_assoc, level, levelOver, ih]

/-- Levels of nesting stand on the floor. -/
theorem level_eq_levelOver (n : Nat) : level n = levelOver .floor n := by
  have sum := level_add 0 n
  rwa [Nat.zero_add] at sum

/-- A higher limit of nesting is the lower one above some more levels. -/
theorem chunk_add (m n : Nat) : chunk (m + n) = chunkOver (level m) n := by
  rw [chunk, chunkOver, level_add]

theorem chunk_eq_chunkOver (n : Nat) : chunk n = chunkOver .floor n := by
  rw [chunk, chunkOver, level_eq_levelOver]

variable {K K' : Level Sketch Outline}

theorem related_levelOver (h : Compositional R) (hK : K.Related R K') (n : Nat) :
    (levelOver K n).Related R (levelOver K' n) := by
  induction n with
  | zero => exact hK
  | succ n ih => exact related_next h ih

/-- What holds between the readers of two levels holds between the programs read above them. -/
theorem related_chunkOver (h : Compositional R) (hK : K.Related R K') (n : Nat) :
    R Outline (chunkOver K n) (chunkOver K' n) := by
  have strays : R Unit strays strays := by
    refine h.iterate (fun _ => h.looking fun ended => ?_) ()
    split
    · exact h.pure _
    · exact h.bind (h.refuse _) fun _ => h.bind h.bump fun _ => h.pure _
  exact h.bind (related_block h (related_levelOver h hK n)) fun body =>
    h.bind strays fun _ => h.pure body

end Grammar

end LuaTyping
