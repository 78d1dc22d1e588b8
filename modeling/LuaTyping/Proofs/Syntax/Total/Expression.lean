import LuaTyping.Proofs.Syntax.Sketch
import LuaTyping.Proofs.Syntax.Total.Level

/-!
# Expressions of any tokens

The productions of expressions over a total level.  What they make is sealed: an expression has
blocks and local statements in the bodies of its functions only.

* `Grammar.yields_expression`: an expression reads without going astray.
-/

namespace LuaTyping

open Outline (Inner InnerRow)

/-- A node over two inner outlines that follow each other, with what may stand between them. -/
theorem Outline.Inner.join {i j : Nat} {kind : NodeKind} {a b : Outline} {cs : List Outline}
    (loose : kind.isLoose = true) (h : InnerRow i j cs) (left : a ∈ cs) (right : b ∈ cs) :
    Inner i j (.join kind a b cs) :=
  node loose (Nat.le_min.mpr ⟨h.1.doc_le_first left, h.1.doc_le_first right⟩) h

namespace Grammar

open Step (yields_accept yields_expect yields_leaf yields_leafOf? yields_refuse yields_bump
  rest_ne_nil)

variable {L : Level Sketch Outline} {i : Nat} {c : Cursor Sketch} {done : List Outline}
    {e : Outline}

/-! ## Tables -/

theorem yields_tableField (hL : L.Total) (c : Cursor Sketch) :
    (tableField L).Yields c fun o d => Inner c.pos d.pos o := by
  refine .here_bind (.peek_bind (.peekSecond_bind ?_))
  split
  · next next =>
    refine (yields_bump (rest_ne_nil next)).bind fun _ d opened _ => ?_
    refine (hL.expr 0 d).bind fun key k _ keyAt => ?_
    refine (yields_expect _ _).bind fun _ l closed _ => ?_
    refine (yields_expect _ _).bind fun _ m equals _ => ?_
    refine (hL.expr 0 m).bind fun value n _ valueAt => .finish ?_
    have keyRow := (InnerRow.single keyAt).mono opened.pos_le (closed.trans equals).pos_le
    exact .node rfl (Nat.le_succ _) (keyRow.append (.single valueAt))
  · next first second =>
    refine (yields_leaf .name (rest_ne_nil first)).bind fun key d _ read => ?_
    obtain ⟨rfl, pos, rest⟩ := read
    refine (yields_bump (rest ▸ rest_ne_nil second)).bind fun _ m equals _ => ?_
    refine (hL.expr 0 m).bind fun value n _ valueAt => .finish ?_
    have keyAt : Inner c.pos (c.pos + 1) (.leaf .name c.pos) := .leaf (.inl rfl) c.pos
    have keyRow := (InnerRow.single keyAt).mono (Nat.le_refl _) (pos ▸ equals.pos_le)
    exact .node rfl (Nat.le_succ _) (keyRow.append (.single valueAt))
  · refine (hL.expr 0 c).bind fun value d _ valueAt => .finish ?_
    exact .node rfl (Nat.le_succ _) (.single valueAt)

theorem yields_fieldSeparator (c : Cursor Sketch) :
    fieldSeparator.Yields c fun b d => d.pos = c.pos + b.toNat := by
  refine (yields_accept .comma).bind fun b d _ read => ?_
  cases b with
  | true => exact .pure read.1
  | false =>
    refine (yields_accept .semicolon).mono fun b e _ read' => ?_
    rw [read'.1, read.1, Bool.toNat_false, Nat.add_zero]

theorem yields_tableItem (hL : L.Total) (row : InnerRow i c.pos done.reverse) :
    (tableItem L done).Yields c fun r d =>
      (r.2 = true → c.pos < d.pos) ∧ InnerRow i d.pos r.1.reverse := by
  refine .at?_bind (.atEnd_bind ?_)
  split
  · exact .pure ⟨nofun, row⟩
  · refine (yields_tableField hL c).bind fun f d _ inner => ?_
    refine (yields_fieldSeparator d).bind fun more k leads read => .pure ⟨fun again => ?_, ?_⟩
    · have le := inner.le
      rw [show more = true from again, Bool.toNat_true] at read
      omega
    · exact (row.push inner).mono (Nat.le_refl _) leads.pos_le

theorem yields_tableConstructor (hL : L.Total) (ahead : c.rest ≠ []) :
    (tableConstructor L).Yields c fun o d => Inner c.pos d.pos o ∧ c.pos < d.pos := by
  refine .here_bind ((yields_bump ahead).bind fun _ d opened read => ?_)
  refine .bind (.iterate_inv (I := fun done k => InnerRow d.pos k.pos (List.reverse done))
    (fun _ _ _ row => yields_tableItem hL row) (.nil (Nat.le_refl _))) fun fields k leads row => ?_
  refine (yields_expect _ _).bind fun _ l closed _ => .finish ⟨?_, ?_⟩
  · exact .node rfl (Nat.le_succ _) (row.mono opened.pos_le closed.pos_le)
  · have := (leads.trans closed).pos_le
    omega

/-! ## Operands -/

theorem inner_valueOf {j : Nat} (h : Inner i j e) : Inner i j e.value :=
  .node rfl h.1.doc_le_first (.single h)

/-- The tokens that arguments start with. -/
def startsArgs : Token → Bool
  | .leftParen | .quoted | .longString | .leftBrace => true
  | _ => false

/-- Arguments that are neither a string nor a table start with a parenthesis. -/
theorem head?_eq_leftParen {next : Option Token} (any : next.any startsArgs = true)
    (noString : next ≠ some .quoted) (noLongString : next ≠ some .longString)
    (noTable : next ≠ some .leftBrace) : next = some .leftParen := by
  cases next with
  | none => exact absurd any Bool.false_ne_true
  | some t =>
    cases t <;> first
      | rfl
      | exact absurd any Bool.false_ne_true
      | exact absurd rfl noString
      | exact absurd rfl noLongString
      | exact absurd rfl noTable

/-- The arguments begun at `c` lie up to `d`, and there are any if a token for them is there. -/
def Arguments (c d : Cursor Sketch) (o : Outline) : Prop :=
  Inner c.pos d.pos o ∧ (c.rest.head?.any startsArgs = true → c.pos < d.pos)

/-- A string as the only argument. -/
theorem yields_stringArg {rest : List Outline → Step Sketch Outline} (ahead : c.rest ≠ [])
    (behind : ∀ args d, c.Leads d → InnerRow c.pos d.pos args → c.pos < d.pos →
      (rest args).Yields d fun o d => Arguments c d o) :
    (do
      let s ← Step.leaf .literal
      let v ← valueOf s
      let args ← pure [v]
      rest args).Yields c fun o d => Arguments c d o := by
  refine (yields_leaf .literal ahead).bind fun s d leads read => ?_
  obtain ⟨rfl, pos, -⟩ := read
  have row : InnerRow c.pos d.pos [Outline.value (.leaf .literal c.pos)] := by
    rw [pos]
    exact .single (inner_valueOf (.leaf (.inl rfl) c.pos))
  exact .valueOf_bind (behind _ d leads row (by omega))

theorem yields_callArgs (hL : L.Total) (c : Cursor Sketch) :
    (callArgs L).Yields c fun o d => Arguments c d o := by
  refine .here_bind ?_
  extract_lets rest closing
  have behind (args : List Outline) (d : Cursor Sketch) (_ : c.Leads d)
    (row : InnerRow c.pos d.pos args)
      (moved : c.pos < d.pos) : (rest args).Yields d fun o d => Arguments c d o :=
    .finish ⟨.node rfl (Nat.le_succ _) row, fun _ => moved⟩
  refine .peek_bind ?_
  split
  · next next => exact yields_stringArg (rest_ne_nil next) behind
  · next next => exact yields_stringArg (rest_ne_nil next) behind
  · next next =>
    refine (yields_tableConstructor hL (rest_ne_nil next)).bind fun t d leads table => ?_
    exact .valueOf_bind (behind _ d leads (.single (inner_valueOf table.1)) table.2)
  · next noString noLongString noTable =>
    refine (yields_expect _ _).bind fun _ d opened found => .at?_bind ?_
    have close (args : List Outline) (k : Cursor Sketch) (leads : d.Leads k)
        (row : InnerRow c.pos k.pos args.reverse) :
        (closing args).Yields k fun o m => Arguments c m o := by
      refine (yields_expect _ _).bind fun _ m closed _ => .finish ⟨?_, fun any => ?_⟩
      · exact .node rfl (Nat.le_succ _) (row.mono (Nat.le_refl _) closed.pos_le)
      · have := found (head?_eq_leftParen any noString noLongString noTable)
        have := (leads.trans closed).pos_le
        omega
    split
    · exact close [] d (.refl d) (.nil opened.pos_le)
    · refine (hL.expr 0 d).bind fun e k leads inner => ?_
      have first : InnerRow c.pos k.pos [e].reverse :=
        (InnerRow.single inner).mono opened.pos_le (Nat.le_refl _)
      exact (yields_commaItems (hL.expr 0) first).bind fun args m leads' row =>
        close args m (leads.trans leads') row

theorem yields_primaryExpr (hL : L.Total) (c : Cursor Sketch) :
    (primaryExpr L).Yields c fun x d => ∀ o ∈ x, Inner c.pos d.pos o ∧ c.pos < d.pos := by
  refine .peek_bind ?_
  split
  · next next =>
    refine (yields_leaf .nameExpr (rest_ne_nil next)).bind fun o d _ read => .pure ?_
    rintro _ ⟨⟩
    obtain ⟨rfl, pos, -⟩ := read
    rw [pos]
    exact ⟨.leaf (.inl rfl) c.pos, Nat.lt_succ_self _⟩
  · next next =>
    refine .here_bind ((yields_bump (rest_ne_nil next)).bind fun _ d opened moved => ?_)
    refine (hL.expr 0 d).bind fun inside k leads inner => ?_
    refine (yields_expect _ _).bind fun _ m closed _ => .finish_bind (.pure ?_)
    rintro _ ⟨⟩
    have row := (InnerRow.single inner).mono opened.pos_le closed.pos_le
    have := (leads.trans closed).pos_le
    exact ⟨.node rfl (Nat.le_succ _) row, by omega⟩
  · exact .pure fun o mem => absurd mem (by simp)

/-- A call of what was read so far. -/
theorem yields_call (hL : L.Total) {callee : Outline} {first : Nat} (front : Mark.doc i ≤ first)
    (inner : Inner i c.pos callee) :
    (do
      let args ← callArgs L
      let call ← Step.finish .callExpr first [callee, args]
      return (call, true)).Yields c fun r d =>
        (c.rest.head?.any startsArgs = true → c.pos < d.pos) ∧ Inner i d.pos r.1 := by
  refine (yields_callArgs hL c).bind fun args d _ read => .finish_bind (.pure ⟨read.2, ?_⟩)
  exact .node rfl front (.cons inner (.single read.1))

/-- A name that may be missing, behind what was read so far. -/
theorem innerRow_name {d k : Cursor Sketch} {name : Option Outline} {kind : NodeKind}
    (word : kind.isWord = true) (row : InnerRow i c.pos done) (leads : c.Leads d)
    (read : (name = none ∧ k.pos = d.pos) ∨ (name = some (.leaf kind d.pos) ∧ k.pos = d.pos + 1)) :
    InnerRow i k.pos (done ++ name.toList) := by
  have row := row.mono (Nat.le_refl _) leads.pos_le
  obtain ⟨rfl, pos⟩ | ⟨rfl, pos⟩ := read
  · rw [pos, Option.toList_none, List.append_nil]
    exact row
  · rw [pos]
    exact row.append (.single (.leaf (.inl word) d.pos))

theorem yields_suffix (hL : L.Total) (inner : Inner i c.pos e) :
    (suffix L e).Yields c fun r d => (r.2 = true → c.pos < d.pos) ∧ Inner i d.pos r.1 := by
  have front := inner.1.doc_le_first
  -- without a suffix in front of it, a call stands where its arguments start
  have call (t : Token) (next : c.rest.head? = some t) (starts : startsArgs t = true) :
      (do
        let args ← callArgs L
        let call ← Step.finish .callExpr e.first [e, args]
        return (call, true)).Yields c fun r d =>
          (r.2 = true → c.pos < d.pos) ∧ Inner i d.pos r.1 :=
    (yields_call hL front inner).mono fun r d _ h =>
      ⟨fun _ => h.1 (by rw [next]; exact starts), h.2⟩
  refine .startOf_bind (.peek_bind ?_)
  split
  · next next =>
    refine (yields_bump (rest_ne_nil next)).bind fun _ d opened moved => ?_
    refine (yields_leafOf? .name .name _).bind fun name k leads read => .finish_bind (.pure ?_)
    have := leads.pos_le
    exact ⟨fun _ => by omega, .node rfl front (innerRow_name rfl (.single inner) opened read)⟩
  · next next =>
    refine (yields_bump (rest_ne_nil next)).bind fun _ d opened moved => ?_
    refine (hL.expr 0 d).bind fun key k leads keyAt => ?_
    refine (yields_expect _ _).bind fun _ m closed _ => .finish_bind (.pure ⟨fun _ => ?_, ?_⟩)
    · have := (leads.trans closed).pos_le
      omega
    · have row :=
        ((InnerRow.single inner).mono (Nat.le_refl _) opened.pos_le).append (.single keyAt)
      exact .node rfl front (row.mono (Nat.le_refl _) closed.pos_le)
  · next next =>
    refine (yields_bump (rest_ne_nil next)).bind fun _ d opened moved => ?_
    refine (yields_leafOf? .name .name _).bind fun name k leads read => .finish_bind ?_
    have method : Inner i k.pos (.node .methodExpr e.first
        (max (Mark.stopBefore k.pos) e.first) (e :: name.toList)) :=
      .node rfl front (innerRow_name rfl (.single inner) opened read)
    refine (yields_call hL front method).mono fun r m leads' h => ⟨fun _ => ?_, h.2⟩
    have := (leads.trans leads').pos_le
    omega
  · next next => exact call _ next rfl
  · next next => exact call _ next rfl
  · next next => exact call _ next rfl
  · next next => exact call _ next rfl
  · exact .pure ⟨nofun, inner⟩

theorem yields_suffixedExpr (hL : L.Total) (c : Cursor Sketch) :
    (suffixedExpr L).Yields c fun x d => ∀ o ∈ x, Inner c.pos d.pos o ∧ c.pos < d.pos := by
  refine (yields_primaryExpr hL c).bind fun x d _ read => ?_
  cases x with
  | none => exact .pure fun o mem => absurd mem (by simp)
  | some e =>
    obtain ⟨inner, moved⟩ := read e rfl
    refine .bind (.iterate_inv (I := fun e k => Inner c.pos k.pos e)
      (fun _ _ _ inner => yields_suffix hL inner) inner) fun o k leads inner => .pure ?_
    rintro _ ⟨⟩
    have := leads.pos_le
    exact ⟨inner, by omega⟩

theorem yields_simpleExpr (hL : L.Total) (c : Cursor Sketch) :
    (simpleExpr L).Yields c fun o d => Inner c.pos d.pos o := by
  rw [simpleExpr]
  extract_lets rest
  have behind (x : Option Outline) (d : Cursor Sketch) (leads : c.Leads d)
      (inner : ∀ o ∈ x, Inner c.pos d.pos o) :
      (rest x).Yields d fun o d => Inner c.pos d.pos o := by
    cases x with
    | some o => exact .valueOf (inner_valueOf (inner o rfl))
    | none =>
      refine (yields_refuse _).bind fun _ k leads' at_ => .here_bind (.empty ?_)
      rw [at_.1]
      exact .error leads.pos_le leads.pos_le
  refine .peek_bind ?_
  split
  · next next =>
    refine .map_bind (yields_tableConstructor hL (rest_ne_nil next)) fun t d leads read => ?_
    exact behind (some t) d leads fun o mem => Option.some.inj mem ▸ read.1
  · next next =>
    refine .here_bind ((yields_bump (rest_ne_nil next)).bind fun _ d opened moved => ?_)
    refine (yields_funcBody hL d).bind fun body k leads read => ?_
    have row : InnerRow c.pos k.pos [body] := read.1.sealed_behind read.2.1 (by omega)
    exact behind (some _) k (opened.trans leads) fun o mem =>
      Option.some.inj mem ▸ .node rfl (Nat.le_succ _) row
  · next t _ _ next =>
    split
    · next literal =>
      refine .map_bind (yields_leaf .literal (rest_ne_nil next)) fun o d leads read => ?_
      obtain ⟨rfl, pos, -⟩ := read
      refine behind (some _) d leads fun o mem => ?_
      rw [← Option.some.inj mem, pos]
      exact .leaf (.inl rfl) c.pos
    · exact (yields_suffixedExpr hL c).bind fun x d leads read =>
        behind x d leads fun o mem => (read o mem).1
  · exact behind none c (.refl c) fun o mem => absurd mem (by simp)

/-! ## Operations -/

theorem yields_operand (hL : L.Total) (c : Cursor Sketch) :
    (operand L).Yields c fun o d => Inner c.pos d.pos o := by
  refine .peek_bind ?_
  split
  · next t next =>
    split
    · refine (yields_leaf .operator (rest_ne_nil next)).bind fun op d _ read => ?_
      obtain ⟨rfl, pos, -⟩ := read
      refine (hL.expr unaryPower d).bind fun e k _ inner => .join ?_
      rw [pos] at inner
      exact .join rfl (.cons (.leaf (.inl rfl) c.pos) (.single inner)) (by simp) (by simp)
    · exact yields_simpleExpr hL c
  · exact yields_simpleExpr hL c

theorem yields_climb (hL : L.Total) {limit : Nat} (inner : Inner i c.pos e) :
    (climb L limit e).Yields c fun r d => (r.2 = true → c.pos < d.pos) ∧ Inner i d.pos r.1 := by
  refine .peek_bind ?_
  split
  · next powers =>
    obtain ⟨t, next, -⟩ := Option.bind_eq_some_iff.mp powers
    split
    · exact .pure ⟨nofun, inner⟩
    · refine (yields_leaf .operator (rest_ne_nil next)).bind fun op d _ read => ?_
      obtain ⟨rfl, pos, -⟩ := read
      refine (hL.expr _ d).bind fun right k leads rightAt =>
        .join_bind (.pure ⟨fun _ => ?_, ?_⟩)
      · have := leads.pos_le
        omega
      · rw [pos] at rightAt
        exact .join rfl (.cons inner (.cons (.leaf (.inl rfl) c.pos) (.single rightAt)))
          (by simp) (by simp)
  · exact .pure ⟨nofun, inner⟩

/-- An expression does not go astray and lies at the tokens it reads. -/
theorem yields_expression (hL : L.Total) (limit : Nat) (c : Cursor Sketch) :
    (expression L limit).Yields c fun o d => Inner c.pos d.pos o :=
  (yields_operand hL c).bind fun _ _ _ inner =>
    .iterate_inv (I := fun e k => Inner c.pos k.pos e)
      (fun _ _ _ inner => yields_climb hL inner) inner

end Grammar

end LuaTyping
