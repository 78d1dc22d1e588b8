import LuaTyping.Proofs.Syntax.Sketch
import LuaTyping.Proofs.Syntax.Yields
import LuaTyping.Proofs.Syntax.Spread

/-!
# Lists, blocks and functions of any tokens

Whatever the tokens are, a production does not go astray, and what it makes lies at the tokens it
read.  A level is *total* if its readers do so; a production over a total level has no other way to
go wrong than by its own loops and its own reading of tokens, and each of these is looked at here
and in the modules for expressions and statements.

Doc slots are made by statements.  A block or the body of a function may begin with one, at the
token it begins at; an expression reads a token before it comes to a statement.

* `Outline.Stands`: a statement lies at the tokens it read and has its slot in front of the others.
* `Level.Total`: the readers of a level do not go astray.
* `Grammar.yields_block`: nor does a block of statements, in which a statement that reads nothing is
  followed by a token that is dropped.
-/

namespace LuaTyping

open Outline (Inner InnerRow Lies LieIn Ascend Part PartRow Body docsOf)

/-- The statement lies at the tokens from `i` up to `j` and begins at the first of them.  Its doc
slots stand in front of these tokens; it has one although it may have read nothing. -/
structure Outline.Stands (i j : Nat) (o : Outline) : Prop where
  lies : Lies i j o
  first : o.first ≤ Mark.start i
  docs : Ascend i (max j (i + 1)) o.docs

/-- The readers of the level do not go astray, and what they make lies at the tokens they read. -/
structure Level.Total (L : Level Sketch Outline) : Prop where
  expr : ∀ limit c, (L.expr limit).Yields c fun o d => Inner c.pos d.pos o
  stat : ∀ c, L.stat.Yields c fun o d => o.Stands c.pos d.pos

namespace Grammar

open Step (yields_accept yields_expect yields_leaf yields_leafOf? yields_refuse
  yields_bump rest_ne_nil)

variable {L : Level Sketch Outline} {i : Nat} {c : Cursor Sketch} {done : List Outline}

/-! ## Lists -/

theorem yields_commaItems {item : Step Sketch Outline}
    (total : ∀ c, item.Yields c fun o d => Inner c.pos d.pos o)
    (row : InnerRow i c.pos done.reverse) :
    (commaItems item done).Yields c fun out d => InnerRow i d.pos out.reverse := by
  refine .iterate_inv (I := fun done d => InnerRow i d.pos (List.reverse done))
    (fun done d _ row => ?_) row
  refine (yields_accept .comma).bind fun b e _ read => ?_
  cases b with
  | true =>
    have pos : e.pos = d.pos + 1 := read.1
    refine (total e).bind fun o g _ inner => .pure ⟨fun _ => ?_, ?_⟩
    · have := inner.le
      omega
    · exact (row.mono (Nat.le_refl _) (by omega)).push inner
  | false =>
    have pos : e.pos = d.pos := read.1
    exact .pure ⟨nofun, pos ▸ row⟩

theorem yields_exprList (hL : L.Total) (c : Cursor Sketch) :
    (exprList L).Yields c fun o d => Inner c.pos d.pos o := by
  refine .here_bind ((hL.expr 0 c).bind fun o d _ inner => ?_)
  refine (yields_commaItems (hL.expr 0) (.single inner)).bind fun es e _ row => .wrap ?_
  exact .wrap rfl (Nat.le_succ _) row

/-! ## Blocks and functions -/

/-- The first outline of a block that is kept in reverse order begins where the block does; without
one nothing is read. -/
def Begins (i : Nat) (done : List Outline) (j : Nat) : Prop :=
  (∀ o ∈ done.getLast?, o.first ≤ Mark.start i) ∧ (done = [] → j = i)

theorem Begins.push {j k : Nat} {o : Outline} (h : Begins i done j)
    (first : o.first ≤ Mark.start j) : Begins i (o :: done) k := by
  refine ⟨?_, fun none => absurd none (List.cons_ne_nil _ _)⟩
  cases done with
  | nil =>
    intro o' mem
    rw [h.2 rfl] at first
    rw [← Option.some.inj mem]
    exact first
  | cons s done =>
    rw [List.getLast?_cons_cons]
    exact h.1

/-- The statements of a block in reverse order: they lie one behind the other, as their doc slots
do, and the first one begins where the block does. -/
structure Stats (i : Nat) (done : List Outline) (j : Nat) : Prop where
  lies : LieIn i j done.reverse
  docs : Ascend i j (docsOf done.reverse)
  begins : Begins i done j

namespace Stats

variable {j k : Nat} {o : Outline}

theorem nil (i : Nat) : Stats i [] i :=
  ⟨.nil (Nat.le_refl _), .nil _ _, fun o mem => absurd mem (by simp), fun _ => rfl⟩

/-- A statement that has read something. -/
theorem stat (h : Stats i done j) (stands : o.Stands j k) (moved : j < k) :
    Stats i (o :: done) k := by
  refine ⟨h.lies.push stands.lies, ?_, h.begins.push stands.first⟩
  have docs := stands.docs
  rw [Nat.max_eq_left moved] at docs
  rw [List.reverse_cons, Outline.docsOf_append, Outline.docsOf_singleton]
  exact h.docs.append docs h.lies.le (Nat.le_refl j) (Nat.le_of_lt moved)

/-- A statement that has read nothing, and the token that is dropped behind it. -/
theorem dropped (h : Stats i done j) (stands : o.Stands j j) :
    Stats i (.leaf .error j :: o :: done) (j + 1) := by
  have token : Lies j (j + 1) (.leaf .error j) := .leaf (.inr rfl) j
  have begins : Begins i (o :: done) j := h.begins.push stands.first
  refine ⟨(h.lies.push stands.lies).push token, ?_, begins.push (Nat.le_refl _)⟩
  have docs := stands.docs
  rw [Nat.max_eq_right (Nat.le_succ j)] at docs
  rw [List.reverse_cons, List.reverse_cons, Outline.docsOf_append, Outline.docsOf_append,
    Outline.docsOf_singleton, Outline.docsOf_singleton]
  exact (h.docs.append docs h.lies.le (Nat.le_refl j) (Nat.le_succ j)).append (.nil _ _)
    (Nat.le_succ_of_le h.lies.le) (Nat.le_refl _) (Nat.le_refl _)

end Stats

theorem yields_blockItem (hL : L.Total) (stats : Stats i done c.pos) :
    (blockItem L done).Yields c fun r d => (r.2 = true → c.pos < d.pos) ∧ Stats i r.1 d.pos := by
  refine .blockEnds_bind fun ends ahead => ?_
  cases ends with
  | true => exact .pure ⟨nofun, stats⟩
  | false =>
    refine .position_bind ((hL.stat c).bind fun s d leads stands => .position_bind ?_)
    split
    · next same =>
      -- the statement read nothing, so the token behind it is still there to be dropped
      refine (yields_refuse .statement).bind fun _ e _ at_ => ?_
      have there : e.rest ≠ [] := by
        rw [at_.2, leads.rest_eq same]
        exact ahead rfl
      refine (yields_leaf .error there).bind fun o g _ read => .pure ⟨fun _ => ?_, ?_⟩
      · omega
      · obtain ⟨rfl, pos, -⟩ := read
        rw [same] at stands
        rw [pos, at_.1, same]
        exact stats.dropped stands
    · next still =>
      have moved : c.pos < d.pos := Nat.lt_of_le_of_ne leads.pos_le (Ne.symm still)
      exact .pure ⟨fun _ => moved, stats.stat stands moved⟩

theorem yields_block (hL : L.Total) (c : Cursor Sketch) :
    (block L).Yields c fun o d => Body c.pos d.pos o ∧ o.kind = .block := by
  refine .here_bind (.bind (.iterate_inv (I := fun done d => Stats c.pos done d.pos)
    (fun done d _ stats => yields_blockItem hL stats) (.nil c.pos)) fun stats d _ h =>
      .wrap ⟨?_, ?_⟩)
  · rw [Outline.wrap_eq]
    refine ⟨.node (h.lies.doc_le_wrap (Nat.le_succ _)) ?_ h.lies, h.docs⟩
    refine Outline.wrap_first_le (fun o head => h.begins.1 o ?_) (Nat.le_refl _)
    rw [List.head?_reverse] at head
    exact head
  · rw [Outline.wrap_eq]
    rfl

theorem yields_parameter (row : InnerRow i c.pos done.reverse) :
    (parameter done).Yields c fun r d =>
      (r.2 = true → c.pos < d.pos) ∧ InnerRow i d.pos r.1.reverse := by
  refine .peek_bind ?_
  split
  · next next =>
    refine (yields_leaf .paramDef (rest_ne_nil next)).bind fun p d _ read => ?_
    obtain ⟨rfl, pos, -⟩ := read
    refine (yields_accept .comma).bind fun more e leads _ => .pure ⟨fun _ => ?_, ?_⟩
    · have := leads.pos_le
      omega
    · exact (row.push (.leaf (.inl rfl) c.pos)).mono (Nat.le_refl _) (pos ▸ leads.pos_le)
  · next next =>
    refine (yields_leaf .literal (rest_ne_nil next)).bind fun p d _ read => .pure ⟨nofun, ?_⟩
    obtain ⟨rfl, pos, -⟩ := read
    rw [pos]
    exact row.push (.leaf (.inl rfl) c.pos)
  · exact (yields_refuse .parameterName).bind fun _ d _ at_ => .pure ⟨nofun, at_.1 ▸ row⟩

theorem yields_parameters (c : Cursor Sketch) :
    parameters.Yields c fun ps d => InnerRow c.pos d.pos ps.reverse :=
  .iterate_inv (I := fun done d => InnerRow c.pos d.pos (List.reverse done))
    (fun _ _ _ row => yields_parameter row) (.nil (Nat.le_refl _))

theorem yields_funcBody (hL : L.Total) (c : Cursor Sketch) :
    (funcBody L).Yields c fun o d => Body c.pos d.pos o ∧ o.Sealed ∧ o.kind = .funcBody := by
  refine .here_bind ((yields_expect _ _).bind fun _ d opened _ => .at?_bind ?_)
  extract_lets rest
  have behind (ps : List Outline) (e : Cursor Sketch) (_ : d.Leads e)
      (row : InnerRow d.pos e.pos ps.reverse) :
      (rest ps).Yields e fun o d => Body c.pos d.pos o ∧ o.Sealed ∧ o.kind = .funcBody := by
    refine (yields_expect _ _).bind fun _ g closed _ => .finish_bind ?_
    refine (yields_block hL g).bind fun body h _ stats =>
      (yields_expect _ _).bind fun _ k ended _ => .finish ?_
    have list : Part c.pos g.pos (.node .paramList (Mark.start c.pos)
        (max (Mark.stopBefore g.pos) (Mark.start c.pos)) ps.reverse) :=
      .loose rfl (Nat.le_succ _) (row.1.mono opened.pos_le closed.pos_le)
    refine ⟨⟨.node (Nat.le_succ _) (Nat.le_refl _) ?_, ?_⟩, .funcBody, rfl⟩
    · exact .cons (Nat.le_refl _) list.lies
        (stats.1.lies.single.mono (Nat.le_refl _) ended.pos_le)
    · have slots := (list.docs.mono (Nat.le_succ _) (Nat.le_refl _)).append stats.1.docs list.le
        (Nat.le_refl _) stats.1.lies.le
      show Ascend c.pos k.pos (docsOf [_, body])
      rw [docsOf, Outline.docsOf_singleton]
      exact slots.mono (Nat.le_refl _) ended.pos_le
  split
  · exact .bind (.pure (.nil (Nat.le_refl _))) behind
  · exact (yields_parameters d).bind behind

end Grammar

end LuaTyping
