import LuaTyping.Proofs.Syntax.Yields
import LuaTyping.Proofs.Syntax.Sketch

/-!
# What the productions make

A property of outlines that passes from the children of a node to the node, unless the node is an
operation, a block or a statement, is *plain*: it is there in whatever the productions make, if it
is there in the expressions and the blocks of the level below.  Operations are made in one place
only, by the climbing of powers, and blocks and statements in one place each; there the property has
to be looked after.  Nowhere else does it matter what the tokens are, what is wrong with them, or
where a production begins and ends.

`p.Makes tokens known Q` says that `Q` holds of whatever the step `p` answers, begun at any place
among the tokens, if what is wrong up to its end is among the faults `known`.

* `Outline.Plain`: the properties that the productions keep.
* `Level.Makes`: what the expressions and blocks of a level are.
* `Grammar.makes_simpleExpr`, `Grammar.makes_expression`, `Grammar.makes_form`: what is made of
  them.
-/

namespace LuaTyping

/-- Unary and binary operations. -/
def NodeKind.isOperation : NodeKind → Bool
  | .unaryExpr | .binaryExpr => true
  | _ => false

/-- The kinds of the parts of statements and expressions. -/
def NodeKind.isPart : NodeKind → Bool
  | .chunk | .comment | .block => false
  | kind => !kind.isStatement

/-- The kinds of parts that are made alike wherever they stand: all but operations. -/
def NodeKind.isPlain (kind : NodeKind) : Bool := kind.isPart && !kind.isOperation

/-- The kinds of what a block holds: statements, and errors in their places. -/
def NodeKind.isForm : NodeKind → Bool
  | .error => true
  | kind => kind.isStatement

theorem NodeKind.isOperation_of_isPlain {kind : NodeKind} (plain : kind.isPlain = true) :
    kind.isOperation = false := by
  rw [isPlain, Bool.and_eq_true, Bool.not_eq_true'] at plain
  exact plain.2

/-- The property passes from the children of a node to the node, if its kind is plain. -/
structure Outline.Plain (P : Outline → Prop) : Prop where
  node : ∀ {kind first last cs}, kind.isPlain = true → (∀ c ∈ cs, P c) →
    P (.node kind first last cs)

namespace Outline.Plain

variable {P : Outline → Prop} {kind : NodeKind}

theorem leaf (h : Plain P) (plain : kind.isPlain = true) (i : Nat) : P (.leaf kind i) :=
  h.node plain (List.forall_mem_nil P)

theorem empty (h : Plain P) (plain : kind.isPlain = true) (m : Nat) : P (.empty kind m) :=
  h.node plain (List.forall_mem_nil P)

theorem wrap (h : Plain P) {cs : List Outline} (plain : kind.isPlain = true)
    (all : ∀ c ∈ cs, P c) (m : Nat) : P (.wrap kind cs m) := by
  cases cs with
  | nil => exact h.empty plain m
  | cons c cs => exact h.node plain all

end Outline.Plain

namespace Step

variable {α β σ : Type} {tokens : List Token} {known : List Fault} {p : Step Sketch α}
    {f : α → Step Sketch β}
  {body : σ → Step Sketch (σ × Bool)} {Q R : α → Prop} {Q' : β → Prop}

/-- Whatever the step answers at a place among the tokens has the property, if what is wrong up to
its end is among the known faults. -/
def Makes (tokens : List Token) (known : List Fault) (p : Step Sketch α) (Q : α → Prop) : Prop :=
  ∀ c, (Cursor.start tokens ⟨⟩).Leads c → (p c).val.2.faults <:+ known → Q (p c).val.1

namespace Makes

/-- What a step yields from any place among the tokens, if the faults are known. -/
theorem of_yields
    (h : ∀ c, (Cursor.start tokens ⟨⟩).Leads c → p.Yields c fun a d => d.faults <:+ known → Q a) :
    p.Makes tokens known Q :=
  fun c leads among => (h c leads).2 among

theorem pure {a : α} (h : Q a) : (Pure.pure a : Step Sketch α).Makes tokens known Q :=
  fun _ _ _ => h

theorem mono (h : p.Makes tokens known R) (weaker : ∀ a, R a → Q a) : p.Makes tokens known Q :=
  fun c leads among => weaker _ (h c leads among)

/-- What is wrong after the first step is still wrong after the second one. -/
theorem bind (first : p.Makes tokens known R) (next : ∀ a, R a → (f a).Makes tokens known Q') :
    (p >>= f).Makes tokens known Q' := by
  intro c leads among
  have kept := (f (p c).val.1 (p c).val.2).property.keeps
  exact next _ (first c leads (kept.trans among)) _ (leads.trans (p c).property) among

/-- A step whose answer does not matter. -/
theorem skip (next : ∀ a, (f a).Makes tokens known Q') : (p >>= f).Makes tokens known Q' :=
  fun c leads among => next _ _ (leads.trans (p c).property) among

theorem map {g : α → β} (h : p.Makes tokens known fun a => Q' (g a)) :
    (g <$> p).Makes tokens known Q' :=
  fun c leads among => h c leads among

/-- What every round keeps is there at the end. -/
theorem iterate {I : σ → Prop} {s : σ}
    (round : ∀ s, I s → (body s).Makes tokens known fun r => I r.1) (init : I s) :
    (Step.iterate body s).Makes tokens known I := by
  intro c leads among
  induction size : c.rest.length using Nat.strongRecOn generalizing s c with
  | ind n ih =>
    have step := (body s c).property
    rw [iterate_val] at among ⊢
    split at among
    · next go =>
      rw [if_pos go]
      have kept := (Step.iterate body (body s c).val.1.1 (body s c).val.2).property.keeps
      have made := round s init c leads (kept.trans among)
      have shorter : (body s c).val.2.rest.length < n := by
        have := step.length_rest
        omega
      exact ih _ shorter made _ (leads.trans step) among rfl
    · next stop =>
      rw [if_neg stop]
      split at among
      · next again =>
        rw [if_pos again]
        exact round s init c leads among
      · next last =>
        rw [if_neg last]
        exact round s init c leads among

end Makes

variable {P : Outline → Prop} {kind : NodeKind}

theorem makes_leaf (h : Outline.Plain P) (plain : kind.isPlain = true) :
    (leaf kind).Makes tokens known P := by
  rw [leaf_eq]
  exact .skip fun i => .skip fun _ => .pure (h.leaf plain i)

theorem makes_leafOf? (h : Outline.Plain P) (plain : kind.isPlain = true) {t : Token}
    {e : Expectation} : (leafOf? t kind e).Makes tokens known fun x => ∀ o ∈ x, P o := by
  refine .skip fun b => ?_
  split
  · exact (makes_leaf h plain).bind fun o made => .pure fun o' same => Option.some.inj same ▸ made
  · exact .skip fun _ => .pure fun o none => nomatch none

theorem makes_finish (h : Outline.Plain P) (plain : kind.isPlain = true) {first : Nat}
    {cs : List Outline} (all : ∀ c ∈ cs, P c) : (finish kind first cs).Makes tokens known P :=
  fun _ _ _ => h.node plain all

theorem makes_wrap (h : Outline.Plain P) (plain : kind.isPlain = true) {mark : Nat}
    {cs : List Outline} (all : ∀ c ∈ cs, P c) : (wrap kind cs mark).Makes tokens known P := by
  rw [wrap_eq]
  exact .pure (h.wrap plain all mark)

theorem makes_doc {f : Nat × List Outline → Step Sketch β}
    (next : ∀ i, (f (Mark.doc i, [.doc i])).Makes tokens known Q') :
    (doc >>= f).Makes tokens known Q' :=
  fun c => next c.pos c

theorem makes_valueOf (h : Outline.Plain P) {o : Outline} (made : P o) :
    (Grammar.valueOf o).Makes tokens known P :=
  fun _ _ _ => h.node rfl (List.forall_mem_singleton.mpr made)

theorem makes_cutOff (h : Outline.Plain P) : cutOff.Makes tokens known P := by
  intro c _ _
  rw [cutOff_val]
  exact h.empty rfl _

end Step

/-- The expressions and the blocks of a level have the property. -/
structure Level.Makes (tokens : List Token) (known : List Fault) (L : Level Sketch Outline)
    (P : Outline → Prop) : Prop where
  expr : ∀ limit, (L.expr limit).Makes tokens known P
  block : (Grammar.block L).Makes tokens known P

namespace Grammar

open Step (makes_leaf makes_leafOf? makes_finish makes_wrap makes_valueOf)

variable {tokens : List Token} {known : List Fault} {L : Level Sketch Outline} {P : Outline → Prop}
  {done : List Outline} {e : Outline}

theorem forall_mem_reverse (all : ∀ o ∈ done, P o) : ∀ o ∈ done.reverse, P o :=
  fun o mem => all o (List.mem_reverse.mp mem)

/-! ## Lists and functions -/

section

theorem makes_commaItems {item : Step Sketch Outline} (made : item.Makes tokens known P)
    (all : ∀ o ∈ done, P o) :
    (commaItems item done).Makes tokens known fun os => ∀ o ∈ os, P o := by
  refine .iterate (fun done all => .skip fun b => ?_) all
  split
  · exact made.bind fun o first => .pure (List.forall_mem_cons.mpr ⟨first, all⟩)
  · exact .pure all

variable (h : Outline.Plain P)

include h

theorem makes_parameters : parameters.Makes tokens known fun os => ∀ o ∈ os, P o := by
  refine .iterate (fun done all => .skip fun next => ?_) (List.forall_mem_nil P)
  split
  · refine (makes_leaf h rfl).bind fun o first => .skip fun more => .pure ?_
    exact List.forall_mem_cons.mpr ⟨first, all⟩
  · exact (makes_leaf h rfl).bind fun o first => .pure (List.forall_mem_cons.mpr ⟨first, all⟩)
  · exact .skip fun _ => .pure all

variable (hL : L.Makes tokens known P)

include hL

theorem makes_exprList : (exprList L).Makes tokens known P := by
  refine .skip fun first => (hL.expr 0).bind fun o made => ?_
  refine (makes_commaItems (hL.expr 0) (List.forall_mem_singleton.mpr made)).bind fun os all => ?_
  exact makes_wrap h rfl (forall_mem_reverse all)

theorem makes_funcBody : (funcBody L).Makes tokens known P := by
  refine .skip fun first => .skip fun _ => .skip fun none => ?_
  extract_lets rest
  have behind (ps : List Outline) (all : ∀ o ∈ ps, P o) : (rest ps).Makes tokens known P := by
    refine .skip fun _ => (makes_finish h rfl (forall_mem_reverse all)).bind fun ps list =>
      (hL.block).bind fun body made => .skip fun _ => makes_finish h rfl ?_
    simp [list, made]
  split
  · exact .bind (.pure (List.forall_mem_nil P)) behind
  · exact (makes_parameters h).bind behind

/-! ## Tables and suffixed expressions -/

theorem makes_tableField : (tableField L).Makes tokens known P := by
  refine .skip fun first => .skip fun next => .skip fun second => ?_
  split
  · refine .skip fun _ => (hL.expr 0).bind fun key made => .skip fun _ => .skip fun _ =>
      (hL.expr 0).bind fun value made' => makes_finish h rfl ?_
    simp [made, made']
  · refine (makes_leaf h rfl).bind fun key made => .skip fun _ =>
      (hL.expr 0).bind fun value made' => makes_finish h rfl ?_
    simp [made, made']
  · exact (hL.expr 0).bind fun value made =>
      makes_finish h rfl (List.forall_mem_singleton.mpr made)

theorem makes_tableConstructor : (tableConstructor L).Makes tokens known P := by
  refine .skip fun first => .skip fun _ => .bind (R := fun os => ∀ o ∈ os, P o) ?_ fun os all =>
    .skip fun _ => makes_finish h rfl (forall_mem_reverse all)
  refine .iterate (fun done all => .skip fun closed => .skip fun ended => ?_)
    (List.forall_mem_nil P)
  split
  · exact .pure all
  · exact (makes_tableField h hL).bind fun o made => .skip fun more =>
      .pure (List.forall_mem_cons.mpr ⟨made, all⟩)

theorem makes_callArgs : (callArgs L).Makes tokens known P := by
  refine .skip fun first => ?_
  extract_lets rest closing
  have behind (args : List Outline) (all : ∀ o ∈ args, P o) : (rest args).Makes tokens known P :=
    makes_finish h rfl all
  have value (o : Outline) (made : P o) :
      (valueOf o >>= fun v => pure [v] >>= rest).Makes tokens known P :=
    (makes_valueOf h made).bind fun v made =>
      .bind (.pure (List.forall_mem_singleton.mpr made)) behind
  refine .skip fun next => ?_
  split
  · exact (makes_leaf h rfl).bind value
  · exact (makes_leaf h rfl).bind value
  · exact (makes_tableConstructor h hL).bind value
  · refine .skip fun _ => .skip fun none => ?_
    have close (args : List Outline) (all : ∀ o ∈ args, P o) :
        (closing args).Makes tokens known P :=
      .skip fun _ => behind _ (forall_mem_reverse all)
    split
    · exact .bind (.pure (List.forall_mem_nil P)) close
    · exact (hL.expr 0).bind fun o made =>
        (makes_commaItems (hL.expr 0) (List.forall_mem_singleton.mpr made)).bind close

theorem makes_primaryExpr : (primaryExpr L).Makes tokens known fun x => ∀ o ∈ x, P o := by
  have some {o : Outline} (made : P o) : ∀ o' ∈ Option.some o, P o' :=
    fun o' same => Option.some.inj same ▸ made
  refine .skip fun next => ?_
  split
  · exact (makes_leaf h rfl).bind fun o made => .pure (some made)
  · exact .skip fun first => .skip fun _ => (hL.expr 0).bind fun inner made => .skip fun _ =>
      (makes_finish h rfl (List.forall_mem_singleton.mpr made)).bind fun o made => .pure (some made)
  · exact .pure fun o none => nomatch none

theorem makes_suffix (made : P e) : (suffix L e).Makes tokens known fun r => P r.1 := by
  have node {kind : NodeKind} {first : Nat} {name : Option Outline} (plain : kind.isPlain = true)
      (named : ∀ o ∈ name, P o) :
      (Step.finish kind first (e :: name.toList)).Makes tokens known P :=
    makes_finish h plain (by simpa [made] using named)
  have call {first : Nat} {callee : Outline} (made : P callee) :
      (do
        let args ← callArgs L
        let call ← Step.finish .callExpr first [callee, args]
        return (call, true)).Makes tokens known fun r => P r.1 :=
    (makes_callArgs h hL).bind fun args made' =>
      (makes_finish h rfl (by simp [made, made'])).bind fun o made => .pure made
  refine .skip fun first => .skip fun next => ?_
  split
  · exact .skip fun _ => (makes_leafOf? h rfl).bind fun name named =>
      (node rfl named).bind fun o made => .pure made
  · refine .skip fun _ => (hL.expr 0).bind fun key made' => .skip fun _ => ?_
    exact (makes_finish h rfl (by simp [made, made'])).bind fun o made => .pure made
  · exact .skip fun _ => (makes_leafOf? h rfl).bind fun name named =>
      (node rfl named).bind fun o made => call made
  · exact call made
  · exact call made
  · exact call made
  · exact call made
  · exact .pure made

theorem makes_suffixedExpr : (suffixedExpr L).Makes tokens known fun x => ∀ o ∈ x, P o := by
  refine (makes_primaryExpr h hL).bind fun x made => ?_
  cases x with
  | none => exact .pure fun o none => nomatch none
  | some e =>
    refine .bind (.iterate (fun e made => makes_suffix h hL made) (made e rfl)) fun o made => ?_
    exact .pure fun o' same => Option.some.inj same ▸ made

theorem makes_simpleExpr : (simpleExpr L).Makes tokens known fun o =>
    P o ∧ ∃ kind first last cs, o = .node kind first last cs ∧ kind.isPlain = true := by
  rw [simpleExpr]
  extract_lets rest
  have behind (x : Option Outline) (made : ∀ o ∈ x, P o) : (rest x).Makes tokens known fun o =>
      P o ∧ ∃ kind first last cs, o = .node kind first last cs ∧ kind.isPlain = true := by
    cases x with
    | some o =>
      exact fun _ _ _ =>
        ⟨h.node rfl (List.forall_mem_singleton.mpr (made o rfl)), _, _, _, _, rfl, rfl⟩
    | none =>
      exact .skip fun _ => .skip fun m => fun _ _ _ => ⟨h.empty rfl m, _, _, _, _, rfl, rfl⟩
  have some {o : Outline} (made : P o) : ∀ o' ∈ Option.some o, P o' :=
    fun o' same => Option.some.inj same ▸ made
  refine .skip fun next => ?_
  split
  · exact .bind (.map ((makes_tableConstructor h hL).mono fun o made => some made)) behind
  · refine .skip fun first => .skip fun _ => (makes_funcBody h hL).bind fun body made => ?_
    refine .bind (.map ((makes_finish h rfl ?_).mono fun o made => some made)) behind
    exact List.forall_mem_singleton.mpr made
  · split
    · exact .bind (.map ((makes_leaf h rfl).mono fun o made => some made)) behind
    · exact (makes_suffixedExpr h hL).bind behind
  · exact behind none fun o none => nomatch none

/-! ## Operations -/

/-- A property that passes to operations too is there in every expression. -/
theorem makes_expression
    (operation : ∀ {kind first last cs}, kind.isOperation = true → (∀ c ∈ cs, P c) →
      P (.node kind first last cs)) (limit : Nat) : (expression L limit).Makes tokens known P := by
  refine .bind (R := P) (.skip fun next => ?_) fun left made =>
    .iterate (fun left made => .skip fun next => ?_) made
  · have simple : (simpleExpr L).Makes tokens known P :=
      (makes_simpleExpr h hL).mono fun _ made => made.1
    split
    · split
      · refine (makes_leaf h rfl).bind fun op made => (hL.expr unaryPower).bind fun e made' => ?_
        rw [Step.join_eq]
        exact .pure (operation rfl (by simp [made, made']))
      · exact simple
    · exact simple
  · split
    · split
      · exact .pure made
      · refine (makes_leaf h rfl).bind fun op made' => (hL.expr _).bind fun right made'' => ?_
        rw [Step.join_eq]
        exact .pure (operation rfl (by simp [made, made', made'']))
    · exact .pure made

/-! ## Statements -/

/-- The form is that of a statement, or of an error in its place, and its parts have the
property. -/
def FormOf (P : Outline → Prop) (f : Form Outline) : Prop := f.1.isForm = true ∧ ∀ o ∈ f.2, P o

omit hL

theorem makes_attrib : attrib.Makes tokens known P :=
  .skip fun _ => .skip fun _ => .skip fun _ => .skip fun _ =>
    makes_finish h rfl (List.forall_mem_nil P)

theorem makes_localNames : localNames.Makes tokens known fun os => ∀ o ∈ os, P o := by
  refine .iterate (fun done all => (makes_leafOf? h rfl).bind fun name made => ?_)
    (List.forall_mem_nil P)
  cases name with
  | none => exact .pure all
  | some name =>
    have all := List.forall_mem_cons.mpr ⟨made name rfl, all⟩
    refine .skip fun less => ?_
    extract_lets rest
    have behind (os : List Outline) (all : ∀ o ∈ os, P o) :
        (rest os).Makes tokens known fun r => ∀ o ∈ r.1, P o := .skip fun more => .pure all
    split
    · exact (makes_attrib h).bind fun a made =>
        .bind (.pure (List.forall_mem_cons.mpr ⟨made, all⟩)) behind
    · exact .bind (.pure all) behind

theorem makes_funcName : funcName.Makes tokens known P := by
  refine .skip fun first => (makes_leafOf? h rfl).bind fun base made => ?_
  refine .bind (R := fun os => ∀ o ∈ os, P o) (.iterate (fun done all => .skip fun dot => ?_) ?_)
    fun fields all => .skip fun colon => ?_
  · split
    · refine (makes_leafOf? h rfl).bind fun field made => .pure fun o mem => ?_
      rcases List.mem_append.mp mem with mem | mem
      · exact made o (Option.mem_toList.mp mem)
      · exact all o mem
    · exact .pure all
  · exact fun o mem => made o (Option.mem_toList.mp mem)
  · extract_lets rest
    have behind (method : Option Outline) (made : ∀ o ∈ method, P o) :
        (rest method).Makes tokens known P := by
      refine makes_wrap h rfl fun o mem => ?_
      rcases List.mem_append.mp mem with mem | mem
      · exact all o (List.mem_reverse.mp mem)
      · exact made o (Option.mem_toList.mp mem)
    split
    · exact (makes_leafOf? h rfl).bind behind
    · exact .bind (.pure fun o none => nomatch none) behind

include hL

theorem makes_localStat : (localStat L).Makes tokens known (FormOf P) := by
  refine .skip fun first => (makes_localNames h).bind fun names all =>
    (makes_wrap h rfl (forall_mem_reverse all)).bind fun list listed => .skip fun assigned => ?_
  split
  · exact (makes_exprList h hL).bind fun values made => .pure ⟨rfl, by simp [listed, made]⟩
  · exact .pure ⟨rfl, List.forall_mem_singleton.mpr listed⟩

theorem makes_localFuncStat : (localFuncStat L).Makes tokens known (FormOf P) := by
  refine (makes_leafOf? h rfl).bind fun name named => (makes_funcBody h hL).bind fun body made =>
    .pure ⟨rfl, ?_⟩
  simpa [made, or_imp, forall_and] using named

theorem makes_returnStat : (returnStat L).Makes tokens known (FormOf P) := by
  refine .skip fun ends => .skip fun semicolon => ?_
  extract_lets rest
  have behind (children : List Outline) (all : ∀ o ∈ children, P o) :
      (rest children).Makes tokens known (FormOf P) := .skip fun _ => .pure ⟨rfl, all⟩
  split
  · exact .bind (.pure (List.forall_mem_nil P)) behind
  · exact (makes_exprList h hL).bind fun values made =>
      .bind (.pure (List.forall_mem_singleton.mpr made)) behind

theorem makes_ifClauses (all : ∀ o ∈ done, P o) :
    (ifClauses L done).Makes tokens known fun os => ∀ o ∈ os, P o := by
  refine .iterate (fun done all => .skip fun first => .skip fun elseif => ?_) all
  split
  · refine (hL.expr 0).bind fun condition made => .skip fun _ => (hL.block).bind
      fun body made' => (makes_finish h rfl ?_).bind fun clause made => .pure ?_
    · simp [made, made']
    · exact List.forall_mem_cons.mpr ⟨made, all⟩
  · refine .skip fun otherwise => ?_
    split
    · refine (hL.block).bind fun body made => (makes_finish h rfl ?_).bind
        fun clause made => .pure (List.forall_mem_cons.mpr ⟨made, all⟩)
      exact List.forall_mem_singleton.mpr made
    · exact .pure all

theorem makes_ifStat : (ifStat L).Makes tokens known (FormOf P) := by
  refine (hL.expr 0).bind fun condition made => .skip fun _ => (hL.block).bind
    fun body made' => (makes_ifClauses h hL ?_).bind fun os all => .skip fun _ => .pure ⟨rfl, ?_⟩
  · simp [made, made']
  · exact forall_mem_reverse all

omit h in
theorem makes_loopBody : (loopBody L).Makes tokens known P :=
  .skip fun _ => (hL.block).bind fun _ made => .skip fun _ => .pure made

omit h in
theorem makes_numericForStat {var : Option Outline} (named : ∀ o ∈ var, P o) :
    (numericForStat L var).Makes tokens known (FormOf P) := by
  refine (hL.expr 0).bind fun start made => .skip fun _ => (hL.expr 0).bind fun stop made' =>
    .skip fun more => ?_
  extract_lets rest
  have behind (stride : Option Outline) (all : ∀ o ∈ stride, P o) :
      (rest stride).Makes tokens known (FormOf P) := by
    refine (makes_loopBody hL).bind fun body made'' => .pure ⟨rfl, fun o mem => ?_⟩
    simp only [List.mem_append, List.mem_cons, Option.mem_toList, List.not_mem_nil, or_false] at mem
    rcases mem with ((mem | rfl | rfl) | mem) | rfl
    · exact named o mem
    · exact made
    · exact made'
    · exact all o mem
    · exact made''
  split
  · exact .bind (.map ((hL.expr 0).mono fun o made o' same => Option.some.inj same ▸ made)) behind
  · exact .bind (.pure fun o none => nomatch none) behind

theorem makes_forStat : (forStat L).Makes tokens known (FormOf P) := by
  refine .skip fun first => (makes_leafOf? h rfl).bind fun var named => .skip fun assigned => ?_
  split
  · exact makes_numericForStat hL named
  · refine .bind (R := fun os => ∀ o ∈ os, P o)
      (.iterate (fun done all => .skip fun comma => ?_) ?_)
      fun names all => (makes_wrap h rfl (forall_mem_reverse all)).bind fun list listed =>
        .skip fun _ => (makes_exprList h hL).bind fun values made =>
          (makes_loopBody hL).bind fun body made' => .pure ⟨rfl, by simp [listed, made, made']⟩
    · split
      · refine (makes_leafOf? h rfl).bind fun name named => .pure fun o mem => ?_
        rcases List.mem_append.mp mem with mem | mem
        · exact named o (Option.mem_toList.mp mem)
        · exact all o mem
      · exact .pure all
    · exact fun o mem => named o (Option.mem_toList.mp mem)

theorem makes_assignOrCall (first : Nat) (made : P e) :
    (assignOrCall L first e).Makes tokens known (FormOf P) := by
  refine .skip fun assigned => .skip fun comma => ?_
  split
  · refine .bind (R := fun os => ∀ o ∈ os, P o) (.iterate (fun done all => .skip fun comma => ?_)
      (List.forall_mem_singleton.mpr made)) fun targets all =>
        (makes_wrap h rfl (forall_mem_reverse all)).bind fun list listed => .skip fun _ =>
          (makes_exprList h hL).bind fun values made' => .pure ⟨rfl, by simp [listed, made']⟩
    split
    · refine (makes_suffixedExpr h hL).bind fun x made => ?_
      cases x with
      | none => exact .pure all
      | some t => exact .pure (List.forall_mem_cons.mpr ⟨made t rfl, all⟩)
    · exact .pure all
  · refine .skip fun kind => ?_
    extract_lets rest
    have behind : (rest ()).Makes tokens known (FormOf P) :=
      .pure ⟨rfl, List.forall_mem_singleton.mpr made⟩
    split
    · exact behind
    · exact .skip fun _ => behind

theorem makes_form : (form L).Makes tokens known (FormOf P) := by
  have toList {name : Option Outline} (named : ∀ o ∈ name, P o) : ∀ o ∈ name.toList, P o :=
    fun o mem => named o (Option.mem_toList.mp mem)
  refine .skip fun next => ?_
  split
  · exact .skip fun _ => .pure ⟨rfl, List.forall_mem_nil P⟩
  · refine .skip fun _ => .skip fun function => ?_
    split
    · exact makes_localFuncStat h hL
    · exact makes_localStat h hL
  · exact .skip fun _ => (makes_funcName h).bind fun name made =>
      (makes_funcBody h hL).bind fun body made' => .pure ⟨rfl, by simp [made, made']⟩
  · exact .skip fun _ => makes_returnStat h hL
  · exact .skip fun _ => (hL.block).bind fun body made => .skip fun _ =>
      .pure ⟨rfl, List.forall_mem_singleton.mpr made⟩
  · exact .skip fun _ => (hL.expr 0).bind fun condition made => .skip fun _ =>
      (hL.block).bind fun body made' => .skip fun _ => .pure ⟨rfl, by simp [made, made']⟩
  · exact .skip fun _ => (hL.block).bind fun body made => .skip fun _ =>
      (hL.expr 0).bind fun condition made' => .pure ⟨rfl, by simp [made, made']⟩
  · exact .skip fun _ => makes_ifStat h hL
  · exact .skip fun _ => makes_forStat h hL
  · exact .skip fun _ => .pure ⟨rfl, List.forall_mem_nil P⟩
  · exact .skip fun _ => (makes_leafOf? h rfl).bind fun name named => .pure ⟨rfl, toList named⟩
  · exact .skip fun _ => (makes_leafOf? h rfl).bind fun name named => .skip fun _ =>
      .pure ⟨rfl, toList named⟩
  · refine .skip fun first => (makes_suffixedExpr h hL).bind fun x made => ?_
    cases x with
    | none => exact .pure ⟨rfl, List.forall_mem_nil P⟩
    | some t => exact makes_assignOrCall h hL first (made t rfl)

end

end Grammar

end LuaTyping
