import LuaTyping.Proofs.Syntax.Makes
import LuaTyping.Proofs.Syntax.Total.Program

/-!
# What a block holds

Whatever the tokens are, a block holds the statements that were entered, one behind the other.  A
statement that is entered has a doc slot for the token it begins at, also if it turns out to be
none: then it is an error without parts, and behind it stands the token that was dropped in its
place.  Only where the nesting is too deep is a statement not entered.  It leaves an empty error at
the end of the block, and the fault that says so is among those of the program.

* `Outline.Entries`: what a block holds.
* `Outline.Housed`: statements stand in blocks, and doc slots in statements, only.
* `Program.housed`: so they do in every program.
-/

namespace LuaTyping

theorem NodeKind.isPart_of_isPlain {kind : NodeKind} (plain : kind.isPlain = true) :
    kind.isPart = true := by
  rw [isPlain, Bool.and_eq_true] at plain
  exact plain.1

namespace Outline

mutual

/-- Statements stand in blocks, and doc slots in statements, only. -/
inductive Housed (known : List Fault) : Outline → Prop
  | node {kind : NodeKind} {first last : Nat} {cs : List Outline} :
    kind.isPart = true → (∀ c ∈ cs, Housed known c) → Housed known (.node kind first last cs)
  | block {first last : Nat} {cs : List Outline} :
    Entries known cs → Housed known (.node .block first last cs)

/-- What a block holds: statements that were entered, tokens that were dropped behind a statement
that is none, and at the end an error where the nesting is too deep. -/
inductive Entries (known : List Fault) : List Outline → Prop
  | nil : Entries known []
  | stat {kind : NodeKind} {i last : Nat} {ds cs : List Outline} :
    kind.isForm = true → Mark.stop i ≤ last → (∀ d ∈ ds, Housed known d) → Entries known cs →
    Entries known (.node kind (Mark.doc i) last (.doc i :: ds) :: cs)
  | dropped {i last : Nat} {cs : List Outline} : Entries known cs →
    Entries known (.node .error (Mark.doc i) last [.doc i] :: .leaf .error i :: cs)
  | cut {i : Nat} : .tooDeep i ∈ known → Entries known [.empty .error (Mark.start i)]

end

theorem plain_housed (known : List Fault) : Plain (Housed known) where
  node plain all := .node (NodeKind.isPart_of_isPlain plain) all

/-- What the reader of statements makes from `c` to `d`. -/
inductive Entered (known : List Fault) (c d : Cursor Sketch) : Outline → Prop
  | stat {kind : NodeKind} {last : Nat} {ds : List Outline} :
    kind.isForm = true → (∀ o ∈ ds, Housed known o) →
    (c.pos < d.pos → Mark.stop c.pos ≤ last) → (d.pos = c.pos → kind = .error ∧ ds = []) →
    Entered known c d (.node kind (Mark.doc c.pos) last (.doc c.pos :: ds))
  | cut : d.rest = [] → .tooDeep c.pos ∈ known →
    Entered known c d (.empty .error (Mark.start c.pos))

/-- What a block holds before `rest`, in reverse order: anything may follow, unless the nesting
was too deep. -/
def Open (known : List Fault) (done : List Outline) (rest : List Token) : Prop :=
  (∀ cs, Entries known cs → Entries known (done.reverse ++ cs)) ∨
    (rest = [] ∧ Entries known done.reverse)

namespace Open

variable {known : List Fault} {done : List Outline} {rest : List Token} {o : Outline}
  {c d : Cursor Sketch}

theorem entries (h : Open known done rest) : Entries known done.reverse := by
  rcases h with more | last
  · have whole := more [] .nil
    rwa [List.append_nil] at whole
  · exact last.2

/-- One more entry behind those that anything may follow. -/
theorem push (os : List Outline) (h : Open known done rest) (ahead : rest ≠ [])
    (entry : ∀ cs, Entries known cs → Entries known (os.reverse ++ cs)) {rest' : List Token} :
    Open known (os ++ done) rest' := by
  rcases h with more | last
  · refine .inl fun cs entries => ?_
    rw [List.reverse_append, List.append_assoc]
    exact more _ (entry cs entries)
  · exact absurd last.1 ahead

/-- A statement that has read something. -/
theorem moved (h : Open known done c.rest) (ahead : c.rest ≠ []) (entered : Entered known c d o)
    (read : c.pos < d.pos) : Open known (o :: done) d.rest := by
  cases entered with
  | stat form all reach _ =>
    exact h.push [_] ahead fun cs entries => .stat form (reach read) all entries
  | cut ended deep =>
    rcases h with more | last
    · refine .inr ⟨ended, ?_⟩
      rw [List.reverse_cons]
      exact more _ (.cut deep)
    · exact absurd last.1 ahead

/-- A statement that has read nothing, and the token that is dropped behind it. -/
theorem still (h : Open known done c.rest) (ahead : c.rest ≠ []) (entered : Entered known c d o)
    (same : d.pos = c.pos) (same' : d.rest = c.rest) {rest' : List Token} :
    Open known (.leaf .error c.pos :: o :: done) rest' := by
  cases entered with
  | stat _ _ _ none =>
    obtain ⟨rfl, rfl⟩ := none same
    exact h.push [_, _] ahead fun cs entries => .dropped entries
  | cut ended => exact absurd (same'.symm.trans ended) ahead

end Open

end Outline

/-! ## Blocks -/

namespace Grammar

open Outline (Housed Entries Entered Open plain_housed)
open Step (yields_refuse yields_leaf)

variable {tokens : List Token} {known : List Fault} {L : Level Sketch Outline} {c : Cursor Sketch}
  {done : List Outline}

/-- The reader of statements enters a statement wherever there is one to enter. -/
def Enters (tokens : List Token) (known : List Fault) (L : Level Sketch Outline) : Prop :=
  ∀ c, (Cursor.start tokens ⟨⟩).Leads c → c.rest ≠ [] →
    L.stat.Yields c fun o d => d.faults <:+ known → Entered known c d o

theorem yields_blockItem_open (stat : Enters tokens known L)
    (leads : (Cursor.start tokens ⟨⟩).Leads c) (h : c.faults <:+ known → Open known done c.rest) :
    (blockItem L done).Yields c fun r d => d.faults <:+ known → Open known r.1 d.rest := by
  refine .blockEnds_bind fun ends ahead => ?_
  cases ends with
  | true => exact .pure h
  | false =>
    have ahead := ahead rfl
    refine .position_bind ((stat c leads ahead).bind fun o d leads' entered => .position_bind ?_)
    split
    · next same =>
      have same' := leads'.rest_eq same
      refine (yields_refuse .statement).bind fun _ e leads'' at_ => ?_
      have there : e.rest ≠ [] := by
        rw [at_.2, same']
        exact ahead
      refine (yields_leaf .error there).bind fun dropped g leads''' read => .pure fun among => ?_
      obtain ⟨rfl, -, -⟩ := read
      have kept := (leads''.trans leads''').keeps.trans among
      rw [at_.1, same]
      exact (h (leads'.keeps.trans kept)).still ahead (entered kept) same same'
    · next other =>
      have read := Nat.lt_of_le_of_ne leads'.pos_le (Ne.symm other)
      exact .pure fun among => (h (leads'.keeps.trans among)).moved ahead (entered among) read

/-- A block holds the statements that were entered. -/
theorem makes_block (hL : L.Total) (stat : Enters tokens known L) :
    (block L).Makes tokens known (Housed known) := by
  refine .of_yields fun c leads => .here_bind ?_
  have none : Stats c.pos [] c.pos := .nil c.pos
  refine .bind (.iterate_inv (I := fun done d =>
    Stats c.pos done d.pos ∧ (d.faults <:+ known → Open known done d.rest))
    (fun done d leads' h => ?_) ⟨none, fun _ => .inl fun cs entries => entries⟩)
    fun done d _ h => .wrap fun among => ?_
  · exact ((yields_blockItem hL h.1).and (yields_blockItem_open stat (leads.trans leads') h.2)).mono
      fun r e _ both => ⟨both.1.1, both.1.2, both.2⟩
  · rw [Outline.wrap_eq]
    exact .block (h.2 among).entries

/-- The floor enters nothing, and says so. -/
theorem enters_floor : Enters tokens known .floor := by
  intro c leads ahead
  have whole : ¬ c.cut = true := fun cut => ahead (c.ended cut)
  show Step.cutOff.Yields c _
  rw [Step.Yields, Step.cutOff_val, Step.drop, if_neg whole]
  exact ⟨id, fun among => .cut rfl (among.subset List.mem_cons_self)⟩

/-- A statement over a level is entered. -/
theorem enters_statement (hL : L.Total) (makes : L.Makes tokens known (Housed known)) :
    Enters tokens known ⟨expression L, statement L⟩ := by
  intro c leads _
  have read : (form L).Yields c fun f d => Formed c d f ∧
      (d.faults <:+ known → FormOf (Housed known) f) :=
    (yields_form hL c).and
      ⟨(yields_form hL c).1, makes_form (plain_housed known) makes c leads⟩
  refine .doc_bind (read.bind fun f d _ h => .finish fun among => ?_)
  obtain ⟨kind, ds⟩ := f
  refine .stat (h.2 among).1 (h.2 among).2 (fun read => ?_) fun same => Prod.mk.inj (h.1.2 same)
  refine Nat.le_trans ?_ (Nat.le_max_left _ _)
  simp only [Mark.stop, Mark.stopBefore]
  omega

/-- Whatever is read at a level, statements stand in blocks, and doc slots in statements, only. -/
theorem level_makes_housed (tokens : List Token) (known : List Fault) (n : Nat) :
    (level n).Makes tokens known (Housed known) := by
  induction n with
  | zero =>
    exact ⟨fun _ => Step.makes_cutOff (plain_housed known),
      makes_block (level_total 0) enters_floor⟩
  | succ n ih =>
    refine ⟨makes_expression (plain_housed known) ih fun operation all => .node ?_ all,
      makes_block (level_total (n + 1)) (enters_statement (level_total n) ih)⟩
    rename_i kind first last cs
    cases kind <;> first
      | rfl
      | exact absurd operation Bool.false_ne_true

end Grammar

/-- In every program, whatever its tokens are and however deep it is nested, statements stand in
blocks, and doc slots in statements, only. -/
theorem Program.housed (limit : Nat) (tokens : List Token) :
    (Program.ofTokens limit tokens).body.Housed (Program.ofTokens limit tokens).faults.reverse := by
  have chunk (known : List Fault) :
      (Grammar.chunk limit).Makes tokens known (Outline.Housed known) :=
    (Grammar.level_makes_housed tokens known limit).block.bind fun _ made =>
      .skip fun _ => .pure made
  rw [ofTokens, List.reverse_reverse]
  exact chunk _ _ (.refl _) (List.suffix_refl _)

end LuaTyping
