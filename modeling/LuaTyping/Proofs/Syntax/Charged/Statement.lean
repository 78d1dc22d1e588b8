import LuaTyping.Proofs.Syntax.Sketch
import LuaTyping.Proofs.Syntax.Charged.Expression

/-!
# The number of nodes of statements

The word that a statement begins with pays for eight nodes.  Two of them are the statement itself
and its doc slot, and the other six are enough for what the parts of the statement owe.  A statement
that begins with an expression has been paid for by the first token of it.  Only a statement that
reads nothing owes its two nodes.

* `Grammar.Affords`: a form has paid for the statement that is made of it.
* `Grammar.charged_statement`: a statement owes two nodes, or none if it has read anything.
-/

namespace LuaTyping.Grammar

open Outline (Charged)
open Step (yields_accept yields_expect yields_leafOf? ends_bump ends_leaf)

variable {L : Level Sketch Outline} {debt : Int} {i : Nat} {c : Cursor Sketch} {done : List Outline}

/-- The parts of a form owe no more than `debt` nodes, and the form is not that of a function. -/
structure Owes (debt : Int) (i j : Nat) (f : Form Outline) : Prop where
  other : f.1 ≠ .funcBody
  parts : Charged debt i j f.2

/-- Other tokens may pay if they pay no less. -/
theorem Owes.mono {a b : Int} {j k m : Nat} {f : Form Outline} (h : Owes a i j f)
    (pay : 8 * (j : Int) + a + 8 * k ≤ 8 * m + b + 8 * i) : Owes b k m f :=
  ⟨h.other, h.parts.mono pay⟩

/-! ## Names -/

theorem charged_attrib (c : Cursor Sketch) :
    attrib.Ends c fun o d => Charged (-7) c.pos d.pos [o] := by
  refine .here_bind (ends_bump.bind fun _ d _ opened => .skip fun _ e named => .skip
    fun _ f closed => .finish ?_)
  have le := (named.trans closed).pos_le
  exact ((Charged.nil c.pos).node (by decide)).mono (by omega)

theorem charged_localName (row : Charged 0 i c.pos done) :
    (localName done).Ends c fun r d => Charged 0 i d.pos r.1 := by
  refine (yields_leafOf? _ _ _).ends.bind fun name d _ read => ?_
  obtain ⟨rfl, pos⟩ | ⟨rfl, pos⟩ := read
  · exact .pure (row.mono (by omega))
  · have named : Charged 0 i d.pos (.leaf .nameDef c.pos :: done) :=
      (row.push (.leaf (by decide) c.pos)).mono (by omega)
    dsimp -zeta only
    extract_lets rest
    have behind (done' : List Outline) (e : Cursor Sketch) (row : Charged 0 i e.pos done') :
        (rest done').Ends e fun r d => Charged 0 i d.pos r.1 := by
      refine .skip fun more f leads => .pure ?_
      have le := leads.pos_le
      exact row.mono (by omega)
    refine .skip fun less e leads => ?_
    have le := leads.pos_le
    split
    · exact (charged_attrib e).bind fun a f _ attrib =>
        behind _ f ((named.push attrib).mono (by omega))
    · exact behind _ e (named.mono (by omega))

/-- A further name behind a separator, which may be missing although the separator is there. -/
theorem charged_furtherName {separator : Token} {kind : NodeKind} {e : Expectation}
    (other : kind ≠ .funcBody) (row : Charged 0 i c.pos done) :
    (do
      if ← Step.accept separator then
        let f ← Step.leafOf? .name kind e
        return (f.toList ++ done, true)
      else return (done, false) : Step Sketch (List Outline × Bool)).Ends c fun r d =>
        Charged 0 i d.pos r.1 := by
  refine .skip fun b d leads => ?_
  have le := leads.pos_le
  split
  · refine (yields_leafOf? _ _ _).ends.bind fun f e _ read => .pure ?_
    exact (row.push (.name other read)).mono (by omega)
  · exact .pure (row.mono (by omega))

theorem charged_funcName (c : Cursor Sketch) :
    funcName.Ends c fun o d => Charged 1 c.pos d.pos [o] := by
  refine .here_bind ((yields_leafOf? _ _ _).ends.bind fun base d _ read => ?_)
  refine .bind (.iterate_inv (I := fun done e => Charged 0 c.pos e.pos done)
    (fun _ _ _ row => charged_furtherName (by decide) row) (.name (by decide) read))
    fun fields e _ row => ?_
  extract_lets rest
  have behind (method : Option Outline) (g : Cursor Sketch)
      (row : Charged 0 c.pos g.pos (fields.reverse ++ method.toList)) :
      (rest method).Ends g fun o d => Charged 1 c.pos d.pos [o] :=
    .wrap (row.wrap (by decide) _)
  refine .skip fun b g leads => ?_
  have le := leads.pos_le
  split
  · refine (yields_leafOf? _ _ _).ends.bind fun method k _ read => behind method k ?_
    exact (row.reverse.append (.name (by decide) read)).mono (by omega)
  · exact behind none g ((row.reverse.append (.nil g.pos)).mono (by omega))

/-! ## Forms behind their words -/

theorem charged_localStat (hL : L.Frugal) (c : Cursor Sketch) :
    (localStat L).Ends c fun f d => Owes 6 c.pos d.pos f := by
  refine .here_bind (.bind (.iterate_inv (I := fun done d => Charged 0 c.pos d.pos done)
    (fun _ _ _ row => charged_localName row) (.nil _)) fun names d _ row => ?_)
  have list : Charged 1 c.pos d.pos [.wrap .nameList names.reverse (Mark.start c.pos)] :=
    row.reverse.wrap (by decide) _
  refine .wrap_bind (.skip fun b e leads => ?_)
  have le := leads.pos_le
  split
  · exact (charged_exprList hL e).bind fun values g _ charged =>
      .pure ⟨nofun, (list.append charged).mono (by omega)⟩
  · exact .pure ⟨nofun, list.mono (by omega)⟩

theorem charged_localFuncStat (hL : L.Frugal) (c : Cursor Sketch) :
    (localFuncStat L).Ends c fun f d => Owes 6 c.pos d.pos f := by
  refine (yields_leafOf? _ _ _).ends.bind fun name d _ read => ?_
  refine (charged_funcBody hL d).bind fun body e _ function => .pure ?_
  have name := Charged.name (by decide) read
  exact ⟨nofun, (name.append function).mono (by omega)⟩

theorem charged_funcStat (hL : L.Frugal) (c : Cursor Sketch) :
    (funcStat L).Ends c fun f d => Owes 6 c.pos d.pos f := by
  refine (charged_funcName c).bind fun name d _ named => ?_
  exact (charged_funcBody hL d).bind fun body e _ function =>
    .pure ⟨nofun, (named.append function).mono (by omega)⟩

theorem charged_returnStat (hL : L.Frugal) (c : Cursor Sketch) :
    (returnStat L).Ends c fun f d => Owes 6 c.pos d.pos f := by
  refine .skip fun ends c' looked => .skip fun closed d looked' => ?_
  have start := (looked.trans looked').pos_le
  extract_lets rest
  have behind (children : List Outline) (e : Cursor Sketch) (row : Charged 2 d.pos e.pos children) :
      (rest children).Ends e fun f d => Owes 6 c.pos d.pos f := by
    refine .skip fun _ g leads => .pure ?_
    have le := leads.pos_le
    exact ⟨nofun, row.mono (by omega)⟩
  split
  · exact behind [] d ((Charged.nil d.pos).mono (by omega))
  · exact (charged_exprList hL d).bind fun values e _ charged => behind [values] e charged

theorem charged_doStat (hL : L.Frugal) (c : Cursor Sketch) :
    (doStat L).Ends c fun f d => Owes 6 c.pos d.pos f := by
  refine (charged_block hL c).bind fun body d _ stats => .skip fun _ e ended => .pure ?_
  have le := ended.pos_le
  exact ⟨nofun, stats.1.mono (by omega)⟩

theorem charged_whileStat (hL : L.Frugal) (c : Cursor Sketch) :
    (whileStat L).Ends c fun f d => Owes 6 c.pos d.pos f := by
  refine (hL.expr 0 c).bind fun condition d _ charged => .skip fun _ e opened => ?_
  refine (charged_block hL e).bind fun body g _ stats => .skip fun _ k ended => .pure ?_
  have le := opened.pos_le
  have le' := ended.pos_le
  exact ⟨nofun, (charged.append stats.1).mono (by omega)⟩

theorem charged_repeatStat (hL : L.Frugal) (c : Cursor Sketch) :
    (repeatStat L).Ends c fun f d => Owes 6 c.pos d.pos f := by
  refine (charged_block hL c).bind fun body d _ stats => .skip fun _ e ended => ?_
  refine (hL.expr 0 e).bind fun condition g _ charged => .pure ?_
  have le := ended.pos_le
  exact ⟨nofun, (stats.1.append charged).mono (by omega)⟩

/-- The word of a clause pays for what the clause owes. -/
theorem charged_ifClauses (hL : L.Frugal) (row : Charged debt i c.pos done) :
    (ifClauses L done).Ends c fun out d => Charged debt i d.pos out := by
  refine .iterate_inv (I := fun done d => Charged debt i d.pos done)
    (fun done d _ row => .here_bind ((yields_accept _).ends.bind fun b e leads read => ?_)) row
  cases b with
  | true =>
    have pos : e.pos = d.pos + 1 := read.1
    refine (hL.expr 0 e).bind fun condition g _ charged => .skip fun _ k opened => ?_
    refine (charged_block hL k).bind fun body m _ stats => .finish_bind (.pure ?_)
    have le := opened.pos_le
    have clause : Charged 3 e.pos m.pos [.node .elseIfClause (Mark.start d.pos)
        (max (Mark.stopBefore m.pos) (Mark.start d.pos)) [condition, body]] :=
      ((charged.append stats.1).node (by decide)).mono (by omega)
    exact (row.push clause).mono (by omega)
  | false =>
    have pos : e.pos = d.pos := read.1
    refine (yields_accept _).ends.bind fun b g leads' read' => ?_
    cases b with
    | true =>
      have pos' : g.pos = e.pos + 1 := read'.1
      refine (charged_block hL g).bind fun body k _ stats => .finish_bind (.pure ?_)
      have clause : Charged 2 g.pos k.pos [.node .elseClause (Mark.start d.pos)
          (max (Mark.stopBefore k.pos) (Mark.start d.pos)) [body]] := stats.1.node (by decide)
      exact (row.push clause).mono (by omega)
    | false =>
      have pos' : g.pos = e.pos := read'.1
      exact .pure (row.mono (by omega))

theorem charged_ifStat (hL : L.Frugal) (c : Cursor Sketch) :
    (ifStat L).Ends c fun f d => Owes 6 c.pos d.pos f := by
  refine (hL.expr 0 c).bind fun condition d _ charged => .skip fun _ e opened => ?_
  refine (charged_block hL e).bind fun body g _ stats => ?_
  have le := opened.pos_le
  have row : Charged 2 c.pos g.pos [body, condition] := (charged.push stats.1).mono (by omega)
  refine (charged_ifClauses hL row).bind fun children k _ row => .skip fun _ m ended => .pure ?_
  have le' := ended.pos_le
  exact ⟨nofun, row.reverse.mono (by omega)⟩

theorem charged_loopBody (hL : L.Frugal) (c : Cursor Sketch) :
    (loopBody L).Ends c fun o d => Charged 1 c.pos d.pos [o] := by
  refine .skip fun _ d opened => (charged_block hL d).bind fun body e _ stats => ?_
  refine .skip fun _ g ended => .pure ?_
  have le := opened.pos_le
  have le' := ended.pos_le
  exact stats.1.mono (by omega)

theorem charged_numericForStat (hL : L.Frugal) {var : Option Outline}
    (row : Charged 0 i c.pos var.toList) :
    (numericForStat L var).Ends c fun f d => Owes 6 i d.pos f := by
  refine (hL.expr 0 c).bind fun start d _ startAt => .skip fun _ e leads => ?_
  refine (hL.expr 0 e).bind fun stop g _ stopAt => ?_
  have bounds := row.append (startAt.append stopAt)
  extract_lets rest
  have le := leads.pos_le
  have behind (stride : Option Outline) (k : Cursor Sketch)
      (row : Charged 3 i k.pos (var.toList ++ [start, stop] ++ stride.toList)) :
      (rest stride).Ends k fun f d => Owes 6 i d.pos f :=
    (charged_loopBody hL k).bind fun body m _ charged =>
      .pure ⟨nofun, (row.append charged).mono (by omega)⟩
  refine .skip fun b k leads' => ?_
  have le' := leads'.pos_le
  split
  · exact .map_bind (hL.expr 0 k) fun stride m _ strideAt =>
      behind (some stride) m ((bounds.append strideAt).mono (by omega))
  · exact behind none k ((bounds.append (.nil k.pos)).mono (by omega))

theorem charged_forStat (hL : L.Frugal) (c : Cursor Sketch) :
    (forStat L).Ends c fun f d => Owes 6 c.pos d.pos f := by
  refine .here_bind ((yields_leafOf? _ _ _).ends.bind fun var d _ read => ?_)
  have row := Charged.name (by decide) read
  refine .skip fun b e leads => ?_
  have le := leads.pos_le
  have row : Charged 0 c.pos e.pos var.toList := row.mono (by omega)
  split
  · exact charged_numericForStat hL row
  · refine .bind (.iterate_inv (I := fun done g => Charged 0 c.pos g.pos done)
      (fun _ _ _ row => charged_furtherName (by decide) row) row) fun names g _ names' => ?_
    have list : Charged 1 c.pos g.pos [.wrap .nameList names.reverse (Mark.start c.pos)] :=
      names'.reverse.wrap (by decide) _
    refine .wrap_bind (.skip fun _ k leads' => (charged_exprList hL k).bind
      fun values m _ charged => ?_)
    refine (charged_loopBody hL m).bind fun body n _ stats => .pure ?_
    have le' := leads'.pos_le
    exact ⟨nofun, (list.append (charged.append stats)).mono (by omega)⟩

theorem charged_gotoStat (c : Cursor Sketch) : gotoStat.Ends c fun f d => Owes 6 c.pos d.pos f :=
  (yields_leafOf? _ _ _).ends.bind fun _ _ _ read =>
    .pure ⟨nofun, (Charged.name (by decide) read).mono (by omega)⟩

theorem charged_labelStat (c : Cursor Sketch) :
    labelStat.Ends c fun f d => Owes 6 c.pos d.pos f := by
  refine (yields_leafOf? _ _ _).ends.bind fun name d _ read => .skip fun _ e leads => .pure ?_
  have le := leads.pos_le
  exact ⟨nofun, (Charged.name (by decide) read).mono (by omega)⟩

/-! ## Statements -/

/-- The parts of a form have been paid for, with two nodes more; or there are none. -/
def Affords (c d : Cursor Sketch) (f : Form Outline) : Prop :=
  Owes (-2) c.pos d.pos f ∨ f.1 ≠ .funcBody ∧ f.2 = []

theorem charged_target (hL : L.Frugal) (row : Charged (-6) i c.pos done) :
    (target L done).Ends c fun r d => Charged (-6) i d.pos r.1 := by
  refine .skip fun b d leads => ?_
  have le := leads.pos_le
  split
  · refine (charged_suffixedExpr hL d).bind fun x e leads' read => ?_
    have le' := leads'.pos_le
    cases x with
    | some t => exact .pure ((row.push (read t rfl)).mono (by omega))
    | none => exact .pure (row.mono (by omega))
  · exact .pure (row.mono (by omega))

theorem charged_assignOrCall (hL : L.Frugal) {first : Nat} {e : Outline}
    (charged : Charged (-6) i c.pos [e]) :
    (assignOrCall L first e).Ends c fun f d => Owes (-2) i d.pos f := by
  refine .skip fun assigned c' looked => .skip fun comma d looked' => ?_
  have start := (looked.trans looked').pos_le
  have charged : Charged (-6) i d.pos [e] := charged.mono (by omega)
  split
  · refine .bind (.iterate_inv (I := fun done d => Charged (-6) i d.pos done)
      (fun _ _ _ row => charged_target hL row) charged) fun targets k _ row => ?_
    have list : Charged (-5) i k.pos [.wrap .varList targets.reverse first] :=
      row.reverse.wrap (by decide) _
    refine .wrap_bind (.skip fun _ m leads => (charged_exprList hL m).bind
      fun values n _ valuesAt => .pure ?_)
    have le := leads.pos_le
    exact ⟨nofun, (list.append valuesAt).mono (by omega)⟩
  · refine .kindOf_bind ?_
    split
    · exact .pure ⟨nofun, charged.mono (by omega)⟩
    · refine .skip fun _ k leads => .pure ?_
      have le := leads.pos_le
      exact ⟨nofun, charged.mono (by omega)⟩

theorem charged_exprStat (hL : L.Frugal) (c : Cursor Sketch) :
    (exprStat L).Ends c fun f d => Affords c d f := by
  refine .here_bind ((charged_suffixedExpr hL c).bind fun x d _ read => ?_)
  cases x with
  | none => exact .pure (.inr ⟨nofun, rfl⟩)
  | some e => exact (charged_assignOrCall hL (read e rfl)).mono fun _ _ _ h => .inl h

/-- Whatever form the next token starts, it has been paid for. -/
theorem charged_form (hL : L.Frugal) (c : Cursor Sketch) :
    (form L).Ends c fun f d => Affords c d f := by
  -- the word that a statement starts with pays for what its parts owe
  have behind {p : Step Sketch (Form Outline)}
    (read : ∀ d, p.Ends d fun f e => Owes 6 d.pos e.pos f) :
      (Step.bump >>= fun _ => p).Ends c fun f d => Affords c d f :=
    ends_bump.bind fun _ d _ moved => (read d).mono fun f e _ charged =>
      .inl (charged.mono (by omega))
  have word {kind : NodeKind} (other : kind ≠ .funcBody) :
      (Step.bump >>= fun _ => pure (kind, []) : Step Sketch (Form Outline)).Ends c fun f d =>
        Affords c d f :=
    .skip fun _ _ _ => .pure (.inr ⟨other, rfl⟩)
  refine .peek_bind ?_
  split
  · exact word (by decide)
  · refine behind fun d => .skip fun b e leads => ?_
    have le := leads.pos_le
    split
    · exact (charged_localFuncStat hL e).mono fun _ _ _ h => h.mono (by omega)
    · exact (charged_localStat hL e).mono fun _ _ _ h => h.mono (by omega)
  · exact behind (charged_funcStat hL)
  · exact behind (charged_returnStat hL)
  · exact behind (charged_doStat hL)
  · exact behind (charged_whileStat hL)
  · exact behind (charged_repeatStat hL)
  · exact behind (charged_ifStat hL)
  · exact behind (charged_forStat hL)
  · exact word (by decide)
  · exact behind charged_gotoStat
  · exact behind charged_labelStat
  · exact charged_exprStat hL c

/-- A statement owes two nodes, or none if it has read anything. -/
theorem charged_statement (hL : L.Frugal) (c : Cursor Sketch) :
    (statement L).Ends c fun o d =>
      Charged 2 c.pos d.pos [o] ∧ (c.pos < d.pos → Charged 0 c.pos d.pos [o]) := by
  refine .doc_bind ((charged_form hL c).bind fun f d leads afford => .finish ?_)
  have le := leads.pos_le
  obtain ⟨kind, parts⟩ := f
  rcases afford with ⟨other, charged⟩ | ⟨other, rfl⟩
  · have paid : Charged 0 c.pos d.pos [.node kind (Mark.doc c.pos)
        (max (Mark.stopBefore d.pos) (Mark.doc c.pos)) (.doc c.pos :: parts)] :=
      (((Charged.doc c.pos).append charged).node other).mono (by omega)
    exact ⟨paid.mono (by omega), fun _ => paid⟩
  · have owed : Charged 2 c.pos c.pos [.node kind (Mark.doc c.pos)
        (max (Mark.stopBefore d.pos) (Mark.doc c.pos)) [.doc c.pos]] :=
      (Charged.doc c.pos).node other
    exact ⟨owed.mono (by omega), fun moved => owed.mono (by omega)⟩

end LuaTyping.Grammar
