import LuaTyping.Proofs.Syntax.Charged.Level
import LuaTyping.Proofs.Syntax.Total.Expression

/-!
# The number of nodes of expressions

An expression owes one node, which is the error node where no expression is; any other is paid for
by its own tokens.  What is read for sure is charged in advance: a suffixed expression begins with a
token that pays for eight, so that there is enough for the value node around it and for the list of
targets that it may be the first of.

* `Grammar.charged_tableConstructor`, `Grammar.charged_suffixedExpr`: what is paid in advance.
* `Grammar.charged_expression`: an expression owes one node.
-/

namespace LuaTyping.Grammar

open Outline (Charged)
open Step (yields_accept yields_expect yields_leafOf? ends_bump ends_leaf)

variable {L : Level Sketch Outline} {debt : Int} {i : Nat} {c : Cursor Sketch} {done : List Outline}
    {e : Outline}

/-! ## Tables -/

theorem charged_tableField (hL : L.Frugal) (c : Cursor Sketch) :
    (tableField L).Ends c fun o d => Charged 2 c.pos d.pos [o] := by
  refine .here_bind (.peek_bind (.skip fun _ c' looked => ?_))
  have start := looked.pos_le
  split
  · refine ends_bump.bind fun _ d _ opened => (hL.expr 0 d).bind fun key k _ keyAt => ?_
    refine .skip fun _ l closed => .skip fun _ m equals => ?_
    refine (hL.expr 0 m).bind fun value n _ valueAt => .finish ?_
    have le := (closed.trans equals).pos_le
    exact ((keyAt.append valueAt).node (by decide)).mono (by omega)
  · refine (ends_leaf .name).bind fun key d _ read => ends_bump.bind fun _ m _ equals => ?_
    refine (hL.expr 0 m).bind fun value n _ valueAt => .finish ?_
    obtain ⟨rfl, pos⟩ := read
    have key : Charged (-7) c'.pos (c'.pos + 1) [.leaf .name c'.pos] := .leaf (by decide) _
    exact ((key.append valueAt).node (by decide)).mono (by omega)
  · refine (hL.expr 0 c').bind fun value d _ valueAt => .finish ?_
    exact (valueAt.node (by decide)).mono (by omega)

/-- A separator pays for the field in front of it; the last field may have none. -/
theorem charged_tableItem (hL : L.Frugal) (row : Charged 0 i c.pos done) :
    (tableItem L done).Ends c fun r d =>
      (r.2 = true → Charged 0 i d.pos r.1) ∧ Charged 2 i d.pos r.1 := by
  refine .skip fun closed c' looked => .skip fun ended d looked' => ?_
  have start := (looked.trans looked').pos_le
  split
  · exact .pure ⟨nofun, row.mono (by omega)⟩
  · refine (charged_tableField hL d).bind fun f k _ field => ?_
    refine (yields_fieldSeparator k).ends.bind fun more m leads read => .pure ⟨fun again => ?_, ?_⟩
    · rw [show more = true from again, Bool.toNat_true] at read
      exact (row.push field).mono (by omega)
    · have le := leads.pos_le
      exact (row.push field).mono (by omega)

theorem charged_tableConstructor (hL : L.Frugal) (c : Cursor Sketch) :
    (tableConstructor L).Ends c fun o d => Charged (-5) c.pos d.pos [o] := by
  refine .here_bind (ends_bump.bind fun _ d _ opened => ?_)
  refine .bind (.iterate (I := fun done k => Charged 0 d.pos k.pos done)
    (Q := fun done k => Charged 2 d.pos k.pos done) (fun done k _ row => ?_) (.nil _))
    fun fields k _ row => .skip fun _ l closed => .finish ?_
  · refine (charged_tableItem hL row).mono fun r m _ h => ?_
    split
    · next again => exact fun _ => h.1 again
    · exact h.2
  · have le := closed.pos_le
    exact (row.reverse.node (by decide)).mono (by omega)

/-! ## Operands -/

theorem charged_valueOf {j : Nat} (h : Charged debt i j [e]) :
    Charged (debt + 1) i j [e.value] := h.node (by decide)

/-- Arguments owe two nodes if they are missing, and otherwise nothing. -/
def Argued (c d : Cursor Sketch) (o : Outline) : Prop :=
  Charged 2 c.pos d.pos [o]
    ∧ (c.rest.head?.any startsArgs = true → Charged (-3) c.pos d.pos [o])

theorem Argued.of_charged {d : Cursor Sketch} {o : Outline} (h : Charged (-3) c.pos d.pos [o]) :
    Argued c d o := ⟨h.mono (by omega), fun _ => h⟩

theorem charged_callArgs (hL : L.Frugal) (c : Cursor Sketch) :
    (callArgs L).Ends c fun o d => Argued c d o := by
  refine .here_bind ?_
  extract_lets rest closing
  have behind (arg : Outline) (d : Cursor Sketch) (h : Charged (-5) c.pos d.pos [arg]) :
      (valueOf arg >>= fun v => pure [v] >>= rest).Ends d fun o d => Argued c d o :=
    .valueOf_bind (.finish (.of_charged (((charged_valueOf h).node (by decide)).mono (by omega))))
  have string : (Step.leaf .literal >>= fun s => valueOf s >>= fun v => pure [v] >>= rest).Ends c
      fun o d => Argued c d o := by
    refine (ends_leaf .literal).bind fun s d _ read => behind s d ?_
    obtain ⟨rfl, pos⟩ := read
    exact (Charged.leaf (by decide) c.pos).mono (by omega)
  refine .peek_bind ?_
  split
  · exact string
  · exact string
  · exact (charged_tableConstructor hL c).bind fun t d _ table => behind t d table
  · next noString noLongString noTable =>
    refine (yields_expect _ _).ends.bind fun _ d opened found => .skip fun none d' looked => ?_
    have before := opened.pos_le
    have start := looked.pos_le
    have close (args : List Outline) (k : Cursor Sketch) (row : Charged 1 d'.pos k.pos args) :
        (closing args).Ends k fun o m => Argued c m o := by
      refine .skip fun _ m closed => .finish ?_
      have le := closed.pos_le
      refine ⟨(row.reverse.node (by decide)).mono (by omega), fun any => ?_⟩
      have pos := found (head?_eq_leftParen any noString noLongString noTable)
      exact (row.reverse.node (by decide)).mono (by omega)
    split
    · exact close [] d' ((Charged.nil d'.pos).mono (by omega))
    · exact (hL.expr 0 d').bind fun e k _ first =>
        (charged_commaItems (hL.expr 0) first).bind fun args m _ row => close args m row

theorem charged_primaryExpr (hL : L.Frugal) (c : Cursor Sketch) :
    (primaryExpr L).Ends c fun x d => ∀ o ∈ x, Charged (-6) c.pos d.pos [o] := by
  refine .peek_bind ?_
  split
  · refine (ends_leaf .nameExpr).bind fun o d _ read => .pure ?_
    rintro _ ⟨⟩
    obtain ⟨rfl, pos⟩ := read
    exact (Charged.leaf (by decide) c.pos).mono (by omega)
  · refine .here_bind (ends_bump.bind fun _ d _ opened => ?_)
    refine (hL.expr 0 d).bind fun inside k _ inner => .skip fun _ m closed => .finish_bind ?_
    refine .pure ?_
    rintro _ ⟨⟩
    have le := closed.pos_le
    exact (inner.node (by decide)).mono (by omega)
  · exact .pure fun o mem => absurd mem (by simp)

/-- A call of what was read so far owes what its arguments owe. -/
theorem charged_call (hL : L.Frugal) {callee : Outline} {first : Nat}
    (charged : Charged debt i c.pos [callee]) :
    (do
      let args ← callArgs L
      let call ← Step.finish .callExpr first [callee, args]
      return (call, true)).Ends c fun r d =>
        Charged (debt + 3) i d.pos [r.1]
          ∧ (c.rest.head?.any startsArgs = true → Charged debt i d.pos [r.1]) := by
  refine (charged_callArgs hL c).bind fun args d _ argued =>
    .finish_bind (.pure ⟨?_, fun any => ?_⟩)
  · exact ((charged.append argued.1).node (by decide)).mono (by omega)
  · exact ((charged.append (argued.2 any)).node (by decide)).mono (by omega)

theorem charged_suffix (hL : L.Frugal) (charged : Charged (-6) i c.pos [e]) :
    (suffix L e).Ends c fun r d => Charged (-6) i d.pos [r.1] := by
  -- without a suffix in front of it, a call stands where its arguments start
  have call (t : Token) (next : c.rest.head? = some t) (starts : startsArgs t = true) :
      (do
        let args ← callArgs L
        let call ← Step.finish .callExpr e.first [e, args]
        return (call, true)).Ends c fun r d => Charged (-6) i d.pos [r.1] :=
    (charged_call hL charged).mono fun r d _ h => h.2 (by rw [next]; exact starts)
  refine .startOf_bind (.peek_bind ?_)
  split
  · refine ends_bump.bind fun _ d _ opened => (yields_leafOf? .name .name _).ends.bind
      fun name k _ read => .finish_bind (.pure ?_)
    have name := Charged.name (by decide) read
    exact ((charged.append name).node (by decide)).mono (by omega)
  · refine ends_bump.bind fun _ d _ opened => (hL.expr 0 d).bind fun key k _ keyAt => ?_
    refine .skip fun _ m closed => .finish_bind (.pure ?_)
    have le := closed.pos_le
    exact ((charged.append keyAt).node (by decide)).mono (by omega)
  · refine ends_bump.bind fun _ d _ opened => (yields_leafOf? .name .name _).ends.bind
      fun name k _ read => .finish_bind ?_
    have named := Charged.name (by decide) read
    have method : Charged (-9) i k.pos [.node .methodExpr e.first
        (max (Mark.stopBefore k.pos) e.first) ([e] ++ name.toList)] :=
      ((charged.append named).node (by decide)).mono (by omega)
    exact (charged_call hL method).mono fun r m _ h => h.1.mono (by omega)
  · next next => exact call _ next rfl
  · next next => exact call _ next rfl
  · next next => exact call _ next rfl
  · next next => exact call _ next rfl
  · exact .pure charged

theorem charged_suffixedExpr (hL : L.Frugal) (c : Cursor Sketch) :
    (suffixedExpr L).Ends c fun x d => ∀ o ∈ x, Charged (-6) c.pos d.pos [o] := by
  refine (charged_primaryExpr hL c).bind fun x d _ read => ?_
  cases x with
  | none => exact .pure fun o mem => absurd mem (by simp)
  | some e =>
    refine .bind (.iterate_inv (I := fun e k => Charged (-6) c.pos k.pos [e])
      (fun _ _ _ charged => charged_suffix hL charged) (read e rfl)) fun o k _ charged => .pure ?_
    rintro _ ⟨⟩
    exact charged

theorem charged_simpleExpr (hL : L.Frugal) (c : Cursor Sketch) :
    (simpleExpr L).Ends c fun o d => Charged 1 c.pos d.pos [o] := by
  rw [simpleExpr]
  extract_lets rest
  have behind (x : Option Outline) (d : Cursor Sketch) (le : c.pos ≤ d.pos)
      (charged : ∀ o ∈ x, Charged 0 c.pos d.pos [o]) :
      (rest x).Ends d fun o d => Charged 1 c.pos d.pos [o] := by
    cases x with
    | some o => exact .valueOf (charged_valueOf (charged o rfl))
    | none =>
      refine .skip fun _ k refused => .here_bind (.empty ?_)
      have le := refused.pos_le
      exact ((Charged.nil c.pos).node (by decide)).mono (by omega)
  refine .peek_bind ?_
  split
  · refine .map_bind (charged_tableConstructor hL c) fun t d leads table => ?_
    exact behind (some t) d leads.pos_le fun o mem => Option.some.inj mem ▸ table.mono (by omega)
  · refine .here_bind (ends_bump.bind fun _ d opened moved => ?_)
    refine (charged_funcBody hL d).bind fun body k leads function => ?_
    refine behind (some _) k (opened.trans leads).pos_le fun o mem => Option.some.inj mem ▸ ?_
    exact (function.node (by decide)).mono (by omega)
  · split
    · refine .map_bind (ends_leaf .literal) fun o d leads read => ?_
      obtain ⟨rfl, pos⟩ := read
      refine behind (some _) d leads.pos_le fun o mem => Option.some.inj mem ▸ ?_
      exact (Charged.leaf (by decide) c.pos).mono (by omega)
    · exact (charged_suffixedExpr hL c).bind fun x d leads read =>
        behind x d leads.pos_le fun o mem => (read o mem).mono (by omega)
  · exact behind none c (Nat.le_refl _) fun o mem => absurd mem (by simp)

/-! ## Operations -/

theorem charged_operand (hL : L.Frugal) (c : Cursor Sketch) :
    (operand L).Ends c fun o d => Charged 1 c.pos d.pos [o] := by
  refine .peek_bind ?_
  split
  · split
    · refine (ends_leaf .operator).bind fun op d _ read => ?_
      refine (hL.expr unaryPower d).bind fun e k _ charged => .join ?_
      obtain ⟨rfl, pos⟩ := read
      have op : Charged (-7) c.pos (c.pos + 1) [.leaf .operator c.pos] := .leaf (by decide) _
      exact ((op.append charged).node (by decide)).mono (by omega)
    · exact charged_simpleExpr hL c
  · exact charged_simpleExpr hL c

theorem charged_climb (hL : L.Frugal) {limit : Nat} (charged : Charged 1 i c.pos [e]) :
    (climb L limit e).Ends c fun r d => Charged 1 i d.pos [r.1] := by
  refine .peek_bind ?_
  split
  · split
    · exact .pure charged
    · refine (ends_leaf .operator).bind fun op d _ read => ?_
      refine (hL.expr _ d).bind fun right k _ charged' => .join_bind (.pure ?_)
      obtain ⟨rfl, pos⟩ := read
      have op : Charged (-7) c.pos (c.pos + 1) [.leaf .operator c.pos] := .leaf (by decide) _
      exact ((charged.append (op.append charged')).node (by decide)).mono (by omega)
  · exact .pure charged

/-- An expression owes one node. -/
theorem charged_expression (hL : L.Frugal) (limit : Nat) (c : Cursor Sketch) :
    (expression L limit).Ends c fun o d => Charged 1 c.pos d.pos [o] :=
  (charged_operand hL c).bind fun _ _ _ charged =>
    .iterate_inv (I := fun e k => Charged 1 c.pos k.pos [e])
      (fun _ _ _ charged => charged_climb hL charged) charged

end LuaTyping.Grammar
