import LuaTyping.Proofs.Syntax.Sketch
import LuaTyping.Proofs.Syntax.Total.Expression

/-!
# Statements of any tokens

The productions of statements over a total level.  A statement begins at its first token, whatever
else is missing, and behind the words that make it a statement it has the parts that it always has:
a function has a body, and a loop has a block, if only empty ones.

Its doc slot is its own, and those of the statements inside it stand behind its first token.

* `Grammar.Standing`, `Grammar.Formed`: the marks and parts of a statement fit the tokens it takes.
* `Grammar.yields_statement`: a statement reads without going astray.
-/

namespace LuaTyping.Grammar

open Outline (Inner InnerRow Part PartRow Body Lies Sited)
open Step (yields_accept yields_expect yields_leaf yields_leafOf? yields_refuse yields_bump
  rest_ne_nil)

variable {L : Level Sketch Outline} {i : Nat} {c : Cursor Sketch} {done : List Outline}

/-- A form that takes the tokens from `i` up to `j`. -/
def Standing (i j : Nat) (f : Form Outline) : Prop :=
  PartRow i j f.2 ∧
    Sited i j (Mark.doc i) (max (Mark.stopBefore j) (Mark.doc i)) f.1 (.doc i :: f.2)

namespace Standing

variable {j k m : Nat} {kind : NodeKind} {cs ds : List Outline} {β : Outline}

theorem loose (isLoose : kind.isLoose = true) (h : PartRow i j cs) : Standing i j (kind, cs) := by
  have lies : Lies i j (.node kind (Mark.doc i) (max (Mark.stopBefore j) (Mark.doc i))
      (.doc i :: cs)) :=
    .loose isLoose (Nat.le_refl _) (.cons (Nat.le_refl i) (.doc (Nat.le_refl i)) h.lies)
  obtain _ | ⟨-, sited, -⟩ := lies
  exact ⟨h, sited⟩

/-- A loop over values and its block. -/
theorem loop (isLoop : kind = .numericForStat ∨ kind = .genericForStat) (row : InnerRow i k ds)
    (before : i < k) (body : Body k m β) (block : β.kind = .block) (le : m ≤ j) :
    Standing i j (kind, ds ++ [β]) := by
  refine ⟨(row.1.body body before).mono (Nat.le_refl _) le, ?_⟩
  have parts : ∃ ds' β', Outline.doc i :: (ds ++ [β]) = ds' ++ [β'] ∧ β'.kind = .block
      ∧ ∀ d ∈ ds', d.Sealed :=
    ⟨.doc i :: ds, β, rfl, block, List.forall_mem_cons.mpr ⟨.doc i, row.2⟩⟩
  rcases isLoop with rfl | rfl <;> exact parts

end Standing

/-! ## Local names -/

theorem yields_attrib (ahead : c.rest ≠ []) :
    attrib.Yields c fun o d => Inner c.pos d.pos o := by
  refine .here_bind ((yields_bump ahead).bind fun _ d leads _ => ?_)
  refine (yields_expect _ _).bind fun _ e leads' _ => (yields_expect _ _).bind fun _ f leads'' _ =>
    .finish (.node rfl (Nat.le_succ _) (.nil ((leads.trans leads').trans leads'').pos_le))

theorem yields_localName (row : InnerRow i c.pos done.reverse) :
    (localName done).Yields c fun r d =>
      (r.2 = true → c.pos < d.pos) ∧ InnerRow i d.pos r.1.reverse := by
  refine (yields_leafOf? _ _ _).bind fun name d _ read => ?_
  obtain ⟨rfl, pos⟩ | ⟨rfl, pos⟩ := read
  · exact .pure ⟨nofun, pos ▸ row⟩
  · have named : InnerRow i d.pos (Outline.leaf .nameDef c.pos :: done).reverse :=
      pos ▸ row.push (.leaf (.inl rfl) c.pos)
    dsimp -zeta only
    extract_lets rest
    have behind (done' : List Outline) (e : Cursor Sketch) (leads : d.Leads e)
        (row : InnerRow i e.pos done'.reverse) :
        (rest done').Yields e fun r d =>
          (r.2 = true → c.pos < d.pos) ∧ InnerRow i d.pos r.1.reverse := by
      refine (yields_accept .comma).bind fun more f leads' _ => .pure ⟨fun _ => ?_, ?_⟩
      · have := (leads.trans leads').pos_le
        omega
      · exact row.mono (Nat.le_refl _) leads'.pos_le
    refine .at?_bind ?_
    split
    · next found =>
      exact (yields_attrib (rest_ne_nil (beq_iff_eq.mp found))).bind fun a e leads inner =>
        behind _ e leads (named.push inner)
    · exact behind _ d (.refl d) named

theorem yields_localNames (c : Cursor Sketch) :
    localNames.Yields c fun names d => InnerRow c.pos d.pos names.reverse :=
  .iterate_inv (I := fun done d => InnerRow c.pos d.pos (List.reverse done))
    (fun _ _ _ row => yields_localName row) (.nil (Nat.le_refl _))

theorem yields_localStat (hL : L.Total) (before : i < c.pos) :
    (localStat L).Yields c fun f d => Standing i d.pos f := by
  refine .here_bind ((yields_localNames c).bind fun names d _ row => ?_)
  have list : Inner c.pos d.pos (.wrap .nameList names.reverse (Mark.start c.pos)) :=
    .wrap rfl (Nat.le_succ _) row
  -- the last token is one behind the first
  have standing {j : Nat} {cs : List Outline} (row : InnerRow c.pos j cs) :
      Standing i j (.localStat, cs) := by
    have := row.le
    refine ⟨row.1.mono (Nat.le_of_lt before) (Nat.le_refl _), ?_, ?_, ?_⟩
    · simp only [Mark.stop, Mark.stopBefore]
      omega
    · simp only [Mark.doc, Mark.stopBefore]
      omega
    · exact List.forall_mem_cons.mpr ⟨.doc i, row.2⟩
  refine .wrap_bind ((yields_accept .assign).bind fun b e leads _ => ?_)
  have listRow := (InnerRow.single list).mono (Nat.le_refl _) leads.pos_le
  cases b with
  | true =>
    exact (yields_exprList hL e).bind fun values g _ inner =>
      .pure (standing (listRow.append (.single inner)))
  | false => exact .pure (standing listRow)

/-- A name that may be missing, at the front. -/
theorem innerRow_firstName {d : Cursor Sketch} {name : Option Outline} {kind : NodeKind}
    (word : kind.isWord = true) (before : i ≤ c.pos)
    (read : (name = none ∧ d.pos = c.pos) ∨ (name = some (.leaf kind c.pos) ∧ d.pos = c.pos + 1)) :
    InnerRow i d.pos name.toList :=
  innerRow_name word (.nil before) (.refl c) read

theorem yields_localFuncStat (hL : L.Total) (before : i < c.pos) :
    (localFuncStat L).Yields c fun f d => Standing i d.pos f := by
  refine (yields_leafOf? _ _ _).bind fun name d leads read => ?_
  refine (yields_funcBody hL d).bind fun body e leads' inner => .pure ?_
  have row : InnerRow i e.pos (name.toList ++ [body]) :=
    (innerRow_firstName rfl (Nat.le_of_lt before) read).body inner.1 inner.2.1
      (Nat.lt_of_lt_of_le before leads.pos_le)
  have le := leads'.pos_le
  refine ⟨row.1, List.forall_mem_cons.mpr ⟨.doc i, row.2⟩, fun o mem isName => ?_⟩
  rcases List.mem_cons.mp mem with rfl | mem
  · exact nomatch isName
  · rcases List.mem_append.mp mem with mem | mem
    · obtain ⟨rfl, -⟩ | ⟨rfl, pos⟩ := read
      · exact absurd mem List.not_mem_nil
      · rw [List.mem_singleton.mp mem]
        simp only [Outline.leaf, Outline.first, Mark.stop, Mark.start, Mark.stopBefore]
        omega
    · rw [List.mem_singleton.mp mem, inner.2.2] at isName
      exact absurd isName (by decide)

/-! ## Functions -/

/-- A name that may be missing, in front of a row that is kept in reverse order. -/
theorem innerRow_push_name {d k : Cursor Sketch} {name : Option Outline} {kind : NodeKind}
    (word : kind.isWord = true) (row : InnerRow i c.pos done.reverse) (leads : c.Leads d)
    (read : (name = none ∧ k.pos = d.pos) ∨ (name = some (.leaf kind d.pos) ∧ k.pos = d.pos + 1)) :
    InnerRow i k.pos (name.toList ++ done).reverse := by
  have reversed : (name.toList ++ done).reverse = done.reverse ++ name.toList := by
    cases name <;> simp
  rw [reversed]
  exact innerRow_name word row leads read

/-- A further name behind a separator, which may be missing although the separator is there. -/
theorem yields_furtherName {separator : Token} {kind : NodeKind} {e : Expectation}
    (word : kind.isWord = true) (row : InnerRow i c.pos done.reverse) :
    (do
      if ← Step.accept separator then
        let f ← Step.leafOf? .name kind e
        return (f.toList ++ done, true)
      else return (done, false) : Step Sketch (List Outline × Bool)).Yields c fun r d =>
        (r.2 = true → c.pos < d.pos) ∧ InnerRow i d.pos r.1.reverse := by
  refine (yields_accept separator).bind fun b d leads read => ?_
  cases b with
  | true =>
    refine (yields_leafOf? _ _ _).bind fun f e leads' read' => .pure ⟨fun _ => ?_, ?_⟩
    · have := read.1
      have := leads'.pos_le
      rw [Bool.toNat_true] at *
      omega
    · exact innerRow_push_name word row leads read'
  | false => exact .pure ⟨nofun, row.mono (Nat.le_refl _) leads.pos_le⟩

theorem yields_funcName (c : Cursor Sketch) : funcName.Yields c fun o d => Inner c.pos d.pos o := by
  refine .here_bind ((yields_leafOf? _ _ _).bind fun base d _ read => ?_)
  have first : InnerRow c.pos d.pos base.toList.reverse := by
    have row := innerRow_firstName rfl (Nat.le_refl _) read
    cases base <;> exact row
  refine .bind (.iterate_inv (I := fun done e => InnerRow c.pos e.pos (List.reverse done))
    (fun _ _ _ row => yields_furtherName rfl row) first) fun fields e _ row => ?_
  extract_lets rest
  have behind (method : Option Outline) (g : Cursor Sketch)
      (row : InnerRow c.pos g.pos (fields.reverse ++ method.toList)) :
      (rest method).Yields g fun o d => Inner c.pos d.pos o :=
    .wrap (.wrap rfl (Nat.le_succ _) row)
  refine (yields_accept .colon).bind fun b g leads _ => ?_
  cases b with
  | true =>
    exact (yields_leafOf? _ _ _).bind fun method k _ read =>
      behind method k (innerRow_name rfl row leads read)
  | false =>
    refine behind none g ?_
    rw [Option.toList_none, List.append_nil]
    exact row.mono (Nat.le_refl _) leads.pos_le

theorem yields_funcStat (hL : L.Total) (before : i < c.pos) :
    (funcStat L).Yields c fun f d => Standing i d.pos f := by
  refine (yields_funcName c).bind fun name d leads inner =>
    (yields_funcBody hL d).bind fun body e _ inner' => .pure (.loose rfl ?_)
  have row := inner.1.single.mono (Nat.le_of_lt before) (Nat.le_refl _)
  exact row.body inner'.1 (Nat.lt_of_lt_of_le before leads.pos_le)

/-! ## Blocks in statements -/

theorem yields_returnStat (hL : L.Total) (before : i ≤ c.pos) :
    (returnStat L).Yields c fun f d => Standing i d.pos f := by
  refine .blockEnds_bind fun ends _ => .at?_bind ?_
  extract_lets rest
  have behind (children : List Outline) (d : Cursor Sketch) (row : InnerRow c.pos d.pos children) :
      (rest children).Yields d fun f d => Standing i d.pos f :=
    (yields_accept .semicolon).bind fun _ e leads _ =>
      .pure (.loose rfl (row.1.mono before leads.pos_le))
  split
  · exact behind [] c (.nil (Nat.le_refl _))
  · exact (yields_exprList hL c).bind fun values d _ inner => behind [values] d (.single inner)

theorem yields_doStat (hL : L.Total) (before : i < c.pos) :
    (doStat L).Yields c fun f d => Standing i d.pos f :=
  (yields_block hL c).bind fun _ _ _ stats => (yields_expect _ _).bind fun _ _ ended _ =>
    .pure (.loose rfl ((stats.1.behind before).mono (Nat.le_refl _) ended.pos_le))

theorem yields_whileStat (hL : L.Total) (before : i < c.pos) :
    (whileStat L).Yields c fun f d => Standing i d.pos f := by
  refine (hL.expr 0 c).bind fun condition d leads inner => ?_
  refine (yields_expect _ _).bind fun _ e leads' _ => ?_
  refine (yields_block hL e).bind fun body g _ stats => ?_
  refine (yields_expect _ _).bind fun _ k ended _ => ?_
  have row := (inner.1.single.mono (Nat.le_of_lt before) leads'.pos_le).body stats.1
    (Nat.lt_of_lt_of_le before (leads.trans leads').pos_le)
  exact .pure (.loose rfl (row.mono (Nat.le_refl _) ended.pos_le))

theorem yields_repeatStat (hL : L.Total) (before : i < c.pos) :
    (repeatStat L).Yields c fun f d => Standing i d.pos f := by
  refine (yields_block hL c).bind fun body d _ stats => ?_
  refine (yields_expect _ _).bind fun _ e leads _ => ?_
  refine (hL.expr 0 e).bind fun condition g _ inner => .pure (.loose rfl ?_)
  exact ((stats.1.behind before).mono (Nat.le_refl _) leads.pos_le).append inner.1.single

/-- The clauses of a conditional, in reverse order behind its condition and its first block. -/
theorem yields_ifClauses (hL : L.Total) (row : PartRow i c.pos done.reverse) :
    (ifClauses L done).Yields c fun out d => PartRow i d.pos out.reverse := by
  refine .iterate_inv (I := fun done d => PartRow i d.pos (List.reverse done))
    (fun done d _ row => .here_bind ((yields_accept _).bind fun b e leads read => ?_)) row
  cases b with
  | true =>
    have pos : e.pos = d.pos + 1 := read.1
    refine (hL.expr 0 e).bind fun condition g _ inner => ?_
    refine (yields_expect _ _).bind fun _ k leads' _ => ?_
    refine (yields_block hL k).bind fun body m leads'' stats => ?_
    have le := inner.le
    have le' := leads'.pos_le
    refine .finish_bind (.pure ⟨fun _ => ?_, ?_⟩)
    · have := leads''.pos_le
      omega
    · refine row.push (.loose rfl (Nat.le_succ _) ?_)
      exact (inner.1.single.mono leads.pos_le le').body stats.1 (by omega)
  | false =>
    refine (yields_accept _).bind fun b g leads' read' => ?_
    have le := (leads.trans leads').pos_le
    cases b with
    | true =>
      have pos : g.pos = e.pos + 1 := read'.1
      have moved : d.pos < g.pos := by
        have := leads.pos_le
        omega
      refine (yields_block hL g).bind fun body k _ stats => .finish_bind (.pure ⟨nofun, ?_⟩)
      exact row.push (.loose rfl (Nat.le_succ _) (stats.1.behind moved))
    | false => exact .pure ⟨nofun, row.mono (Nat.le_refl _) le⟩

theorem yields_ifStat (hL : L.Total) (before : i < c.pos) :
    (ifStat L).Yields c fun f d => Standing i d.pos f := by
  refine (hL.expr 0 c).bind fun condition d leads inner => ?_
  refine (yields_expect _ _).bind fun _ e leads' _ => ?_
  refine (yields_block hL e).bind fun body g _ stats => ?_
  have row : PartRow i g.pos [body, condition].reverse :=
    (inner.1.single.mono (Nat.le_of_lt before) leads'.pos_le).body stats.1
      (Nat.lt_of_lt_of_le before (leads.trans leads').pos_le)
  exact (yields_ifClauses hL row).bind fun children k _ row =>
    (yields_expect _ _).bind fun _ _ ended _ =>
      .pure (.loose rfl (row.mono (Nat.le_refl _) ended.pos_le))

/-! ## Loops over values -/

theorem yields_loopBody (hL : L.Total) (c : Cursor Sketch) :
    (loopBody L).Yields c fun o d =>
      ∃ k m, c.pos ≤ k ∧ Body k m o ∧ o.kind = .block ∧ m ≤ d.pos :=
  (yields_expect _ _).bind fun _ d leads _ => (yields_block hL d).bind fun _ e _ stats =>
    (yields_expect _ _).bind fun _ _ ended _ =>
      .pure ⟨d.pos, e.pos, leads.pos_le, stats.1, stats.2, ended.pos_le⟩

theorem yields_numericForStat (hL : L.Total) {var : Option Outline} (before : i < c.pos)
    (row : InnerRow i c.pos var.toList) :
    (numericForStat L var).Yields c fun f d => Standing i d.pos f := by
  refine (hL.expr 0 c).bind fun start d first startAt =>
    (yields_expect _ _).bind fun _ e leads _ => ?_
  refine (hL.expr 0 e).bind fun stop g second stopAt => ?_
  have bounds : InnerRow i g.pos (var.toList ++ [start, stop]) :=
    row.append
      (((InnerRow.single startAt).mono (Nat.le_refl _) leads.pos_le).append (.single stopAt))
  extract_lets rest
  have behind (stride : Option Outline) (k : Cursor Sketch) (after : c.Leads k)
      (row : InnerRow i k.pos (var.toList ++ [start, stop] ++ stride.toList)) :
      (rest stride).Yields k fun f d => Standing i d.pos f := by
    refine (yields_loopBody hL k).bind fun body m _ h => .pure ?_
    obtain ⟨_, _, le, stats, block, le'⟩ := h
    have before' := Nat.lt_of_lt_of_le before (Nat.le_trans after.pos_le le)
    exact .loop (.inl rfl) (row.mono (Nat.le_refl _) le) before' stats block le'
  refine (yields_accept .comma).bind fun b k leads' _ => ?_
  have bounds := bounds.mono (Nat.le_refl _) leads'.pos_le
  have after : c.Leads k := ((first.trans leads).trans second).trans leads'
  cases b with
  | true =>
    exact .map_bind (hL.expr 0 k) fun stride m third strideAt =>
      behind (some stride) m (after.trans third) (bounds.append (.single strideAt))
  | false =>
    refine behind none k after ?_
    rw [Option.toList_none, List.append_nil]
    exact bounds

theorem yields_forStat (hL : L.Total) (before : i < c.pos) :
    (forStat L).Yields c fun f d => Standing i d.pos f := by
  refine .here_bind ((yields_leafOf? _ _ _).bind fun var d opened read => ?_)
  have row : InnerRow c.pos d.pos var.toList :=
    innerRow_firstName rfl (Nat.le_refl _) read
  refine (yields_accept .assign).bind fun b e leads _ => ?_
  have row := row.mono (Nat.le_refl _) leads.pos_le
  have le := Nat.le_of_lt before
  cases b with
  | true =>
    exact yields_numericForStat hL (Nat.lt_of_lt_of_le before (opened.trans leads).pos_le)
      (row.mono le (Nat.le_refl _))
  | false =>
    have first : InnerRow c.pos e.pos var.toList.reverse := by
      cases var <;> exact row
    refine .bind (.iterate_inv (I := fun done g => InnerRow c.pos g.pos (List.reverse done))
      (fun _ _ _ row => yields_furtherName rfl row) first) fun names g more names' => ?_
    have list : Inner c.pos g.pos (.wrap .nameList names.reverse (Mark.start c.pos)) :=
      .wrap rfl (Nat.le_succ _) names'
    refine .wrap_bind ((yields_expect _ _).bind fun _ k leads' _ => (yields_exprList hL k).bind
      fun values m last inner => (yields_loopBody hL m).bind fun body n _ h => .pure ?_)
    obtain ⟨_, _, le', stats, block, le''⟩ := h
    have row := ((InnerRow.single list).mono le leads'.pos_le).append (.single inner)
    have after : c.Leads m := (((opened.trans leads).trans more).trans leads').trans last
    have before' := Nat.lt_of_lt_of_le before (Nat.le_trans after.pos_le le')
    exact .loop (.inr rfl) (row.mono (Nat.le_refl _) le') before' stats block le''

/-! ## The other statements -/

theorem yields_gotoStat (before : i ≤ c.pos) :
    gotoStat.Yields c fun f d => Standing i d.pos f := by
  refine (yields_leafOf? _ _ _).bind fun name d _ read => .pure (.loose rfl ?_)
  exact (innerRow_firstName rfl before read).1

theorem yields_labelStat (before : i ≤ c.pos) :
    labelStat.Yields c fun f d => Standing i d.pos f := by
  refine (yields_leafOf? _ _ _).bind fun name d _ read => (yields_expect _ _).bind
    fun _ e leads _ => .pure (.loose rfl ?_)
  have row := (innerRow_firstName rfl before read).1
  exact row.mono (Nat.le_refl _) leads.pos_le

theorem yields_target (hL : L.Total) (row : InnerRow i c.pos done.reverse) :
    (target L done).Yields c fun r d =>
      (r.2 = true → c.pos < d.pos) ∧ InnerRow i d.pos r.1.reverse := by
  refine (yields_accept .comma).bind fun b d leads _ => ?_
  have row := row.mono (Nat.le_refl _) leads.pos_le
  cases b with
  | true =>
    refine (yields_suffixedExpr hL d).bind fun x e leads' read => ?_
    cases x with
    | some t =>
      obtain ⟨inner, moved⟩ := read t rfl
      have := leads.pos_le
      exact .pure ⟨fun _ => by omega, row.push inner⟩
    | none => exact .pure ⟨nofun, row.mono (Nat.le_refl _) leads'.pos_le⟩
  | false => exact .pure ⟨nofun, row⟩

theorem yields_assignOrCall (hL : L.Total) {first : Nat} {e : Outline} (front : Mark.doc i ≤ first)
    (inner : Inner i c.pos e) :
    (assignOrCall L first e).Yields c fun f d => Standing i d.pos f := by
  refine .at?_bind (.at?_bind ?_)
  split
  · refine .bind (.iterate_inv (I := fun done d => InnerRow i d.pos (List.reverse done))
      (fun _ _ _ row => yields_target hL row) (.single inner)) fun targets d _ row => ?_
    have list : Inner i d.pos (.wrap .varList targets.reverse first) := .wrap rfl front row
    refine .wrap_bind ((yields_expect _ _).bind fun _ e leads _ => (yields_exprList hL e).bind
      fun values k _ valuesAt => .pure (.loose rfl ?_))
    exact (list.1.single.mono (Nat.le_refl _) leads.pos_le).append valuesAt.1.single
  · refine .kindOf_bind ?_
    split
    · exact .pure (.loose rfl inner.1.single)
    · exact (yields_refuse _).bind fun _ d _ at_ => .pure (.loose rfl (at_.1 ▸ inner.1.single))

/-- The form stands where it was read; it is an error without parts if nothing was read. -/
def Formed (c d : Cursor Sketch) (f : Form Outline) : Prop :=
  Standing c.pos d.pos f ∧ (d.pos = c.pos → f = (.error, []))

theorem Formed.of_moved {d : Cursor Sketch} {f : Form Outline} (h : Standing c.pos d.pos f)
    (moved : c.pos < d.pos) : Formed c d f :=
  ⟨h, fun still => absurd still (Nat.ne_of_gt moved)⟩

theorem yields_exprStat (hL : L.Total) (c : Cursor Sketch) :
    (exprStat L).Yields c fun f d => Formed c d f := by
  refine .here_bind ((yields_suffixedExpr hL c).bind fun x d leads read => ?_)
  cases x with
  | none => exact .pure ⟨.loose rfl (.nil leads.pos_le), fun _ => rfl⟩
  | some e =>
    obtain ⟨inner, moved⟩ := read e rfl
    exact (yields_assignOrCall hL (Nat.le_succ _) inner).mono fun f k leads' standing =>
      .of_moved standing (Nat.lt_of_lt_of_le moved leads'.pos_le)

/-- Whatever form the next token starts, it stands where it was read. -/
theorem yields_form (hL : L.Total) (c : Cursor Sketch) :
    (form L).Yields c fun f d => Formed c d f := by
  -- what is read behind the word that a statement starts with
  have behind {p : Step Sketch (Form Outline)} {t : Token} (next : c.rest.head? = some t)
      (read : ∀ d, c.pos < d.pos → p.Yields d fun f e => Standing c.pos e.pos f) :
      (Step.bump >>= fun _ => p).Yields c fun f d => Formed c d f := by
    refine (yields_bump (rest_ne_nil next)).bind fun _ d _ bumped => ?_
    have moved : c.pos < d.pos := by omega
    exact (read d moved).mono fun f k leads standing =>
      .of_moved standing (Nat.lt_of_lt_of_le moved leads.pos_le)
  -- a word that is a whole statement
  have word {kind : NodeKind} (loose : kind.isLoose = true) (d : Cursor Sketch)
    (moved : c.pos < d.pos) :
      (pure (kind, []) : Step Sketch (Form Outline)).Yields d fun f e => Standing c.pos e.pos f :=
    .pure (.loose loose (.nil (Nat.le_of_lt moved)))
  refine .peek_bind ?_
  split
  · next next => exact behind next (word rfl)
  · next next =>
    refine behind next fun d moved => (yields_accept _).bind fun b e leads _ => ?_
    have moved' := Nat.lt_of_lt_of_le moved leads.pos_le
    cases b with
    | true => exact yields_localFuncStat hL moved'
    | false => exact yields_localStat hL moved'
  · next next => exact behind next fun d moved => yields_funcStat hL moved
  · next next => exact behind next fun d moved => yields_returnStat hL (Nat.le_of_lt moved)
  · next next => exact behind next fun d moved => yields_doStat hL moved
  · next next => exact behind next fun d moved => yields_whileStat hL moved
  · next next => exact behind next fun d moved => yields_repeatStat hL moved
  · next next => exact behind next fun d moved => yields_ifStat hL moved
  · next next => exact behind next fun d moved => yields_forStat hL moved
  · next next => exact behind next (word rfl)
  · next next => exact behind next fun d moved => yields_gotoStat (Nat.le_of_lt moved)
  · next next => exact behind next fun d moved => yields_labelStat (Nat.le_of_lt moved)
  · exact yields_exprStat hL c

/-- A statement does not go astray and stands at the tokens it reads. -/
theorem yields_statement (hL : L.Total) (c : Cursor Sketch) :
    (statement L).Yields c fun o d => o.Stands c.pos d.pos := by
  refine .doc_bind ((yields_form hL c).bind fun f d _ formed => .finish ?_)
  obtain ⟨row, sited⟩ := formed.1
  refine ⟨.node (Nat.le_refl _) sited ?_, Nat.le_succ _, ?_⟩
  · exact .cons (Nat.le_refl _) (.doc (Nat.le_refl _)) row.lies
  · have parts := row.docs.mono (Nat.le_refl _) (Nat.le_max_left d.pos (c.pos + 1))
    exact parts.cons (Nat.le_max_right _ _)

end LuaTyping.Grammar
