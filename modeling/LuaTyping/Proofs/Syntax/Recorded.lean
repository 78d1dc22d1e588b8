import LuaTyping.Proofs.Syntax.Compositional
import LuaTyping.Proofs.Syntax.Total.Program

/-!
# What has been recorded so far

A fault is recorded where the parser stands: at the token ahead, or at the end of the text where no
token is left.  The parser only moves forward, so the faults point at later and later tokens, and
none points behind the place that has been reached.  When the limit of nesting is passed, a fault of
its own is recorded, and no other one after it.

All of this is said of a cursor, and no step breaks it.  What a production does between two single
steps does not matter: a property of cursors that the single steps keep is kept by every production.

* `Step.Keeps`, `Step.compositional_keeps`: properties of cursors that every production keeps.
* `Cursor.Recorded`: what is true of the faults at a place among the tokens.
* `Program.recorded`: it is true of the end of every program.
-/

namespace LuaTyping

namespace Step

variable {I : Cursor Sketch → Prop}

/-- The property of a cursor is there after the step if it is there before. -/
def Keeps (I : Cursor Sketch → Prop) {α : Type} (p : Step Sketch α) : Prop :=
  ∀ c, I c → I (p c).val.2

/-- A repetition keeps what its rounds keep, if it may go astray on the way. -/
theorem Keeps.iterate {σ : Type} {body : σ → Step Sketch (σ × Bool)} (stray : ∀ c, I c → I c.stray)
    (round : ∀ s, Keeps I (body s)) (s : σ) : Keeps I (Step.iterate body s) := by
  intro c inv
  induction size : c.rest.length using Nat.strongRecOn generalizing s c with
  | ind n ih =>
    have step := (body s c).property
    have kept := round s c inv
    rw [iterate_val]
    split
    · have shorter : (body s c).val.2.rest.length < n := by
        have := step.length_rest
        omega
      exact ih _ shorter _ _ kept rfl
    · split
      · exact stray _ kept
      · exact kept

/-- What the single steps keep is kept by sequence and repetition. -/
theorem compositional_keeps (stray : ∀ c, I c → I c.stray) (bump : Keeps I bump)
    (refuse : ∀ e, Keeps I (refuse e)) : Compositional fun _ p _ => Keeps I p where
  look _ _ inv := inv
  bump := bump
  refuse := refuse
  bind first next c inv := next _ _ (first c inv)
  iterate round := .iterate stray round

end Step

/-! ## Faults -/

namespace Fault

/-- The number of the token that a fault points at, among `size` tokens; the number behind the last
token stands for the end of the text. -/
def place (size : Nat) : Fault → Nat
  | unexpected token _ => token
  | unexpectedEnd _ => size
  | tooDeep token => token

/-- The token that a fault points at is there. -/
def Fits (size : Nat) : Fault → Prop
  | unexpected token _ => token < size
  | unexpectedEnd _ => True
  | tooDeep token => token ≤ size

/-- The limit of nesting is passed. -/
def isTooDeep : Fault → Bool
  | tooDeep _ => true
  | _ => false

end Fault

namespace Cursor

variable {tokens : List Token} {c : Cursor Sketch} {f : Fault}

/-- What is true of the faults at a place among the tokens: from the latest to the first they point
at earlier and earlier tokens, all of which have been reached, and only the latest one may say that
the limit of nesting is passed, which it does just if the cursor is cut. -/
structure Recorded (tokens : List Token) (c : Cursor Sketch) : Prop where
  leads : (Cursor.start tokens ⟨⟩).Leads c
  order : c.faults.Pairwise fun f g => g.place tokens.length ≤ f.place tokens.length
  reached : ∀ f ∈ c.faults, f.place tokens.length ≤ c.pos
  fits : ∀ f ∈ c.faults, f.Fits tokens.length
  deep : c.cut = true → ∃ i fs, c.faults = .tooDeep i :: fs ∧ ∀ f ∈ fs, f.isTooDeep = false
  shallow : c.cut = false → ∀ f ∈ c.faults, f.isTooDeep = false

namespace Recorded

/-- Nothing is recorded before the first token. -/
theorem start (tokens : List Token) : Recorded tokens (.start tokens ⟨⟩) where
  leads := .refl _
  order := .nil
  reached := List.forall_mem_nil _
  fits := List.forall_mem_nil _
  deep := nofun
  shallow _ := List.forall_mem_nil _

/-- As long as nothing is recorded, nothing changes. -/
theorem silent {d : Cursor Sketch} (h : Recorded tokens c) (leads : c.Leads d)
    (same : d.faults = c.faults)
    (cut : d.cut = c.cut) : Recorded tokens d where
  leads := h.leads.trans leads
  order := same ▸ h.order
  reached := same ▸ fun f mem => Nat.le_trans (h.reached f mem) leads.pos_le
  fits := same ▸ h.fits
  deep := same ▸ cut ▸ h.deep
  shallow := same ▸ cut ▸ h.shallow

/-- Where no token is left all of them are read. -/
theorem pos_eq (h : Recorded tokens c) (ended : c.rest = []) : c.pos = tokens.length := by
  have inside := h.leads.of_start
  rw [ended, eq_comm, List.drop_eq_nil_iff] at inside
  exact Nat.le_antisymm inside.2 inside.1

/-- Where a token is left not all of them are read. -/
theorem pos_lt (h : Recorded tokens c) (ahead : c.rest ≠ []) : c.pos < tokens.length := by
  have inside := h.leads.of_start.1
  refine Nat.lt_of_not_le fun ended => ahead ?_
  rw [inside, List.drop_eq_nil_iff]
  exact ended

/-- The order of the faults with one more fault at the place that is reached. -/
theorem order_cons (h : Recorded tokens c) (here : f.place tokens.length = c.pos) :
    (f :: c.faults).Pairwise fun f g => g.place tokens.length ≤ f.place tokens.length :=
  List.pairwise_cons.mpr ⟨fun g mem => here ▸ h.reached g mem, h.order⟩

theorem stray (h : Recorded tokens c) : Recorded tokens c.stray := h.silent (.stray c) rfl rfl

theorem bump (h : Recorded tokens c) : Recorded tokens (Step.bump c).val.2 := by
  obtain ⟨pos, rest, faults, cut, reported, ended, astray⟩ := c
  cases rest with
  | nil => exact h.stray
  | cons t rest => exact h.silent (Step.bump _).property rfl rfl

/-- A fault at the place that is reached, other than that the limit of nesting is passed. -/
theorem report (h : Recorded tokens c) (here : f.place tokens.length = c.pos)
    (fits : f.Fits tokens.length) (other : f.isTooDeep = false) :
    Recorded tokens (Step.report f c).val.2 := by
  have leads := (Step.report f c).property
  rw [Step.report] at leads ⊢
  split
  · exact h
  · next whole =>
    have whole : c.cut = false := Bool.eq_false_iff.mpr whole
    rw [if_neg (by simp [whole])] at leads
    exact {
      leads := h.leads.trans leads
      order := h.order_cons here
      reached := List.forall_mem_cons.mpr ⟨Nat.le_of_eq here, h.reached⟩
      fits := List.forall_mem_cons.mpr ⟨fits, h.fits⟩
      deep := fun cut => absurd (whole.symm.trans cut) Bool.false_ne_true
      shallow := fun _ => List.forall_mem_cons.mpr ⟨other, h.shallow whole⟩ }

theorem refuse (h : Recorded tokens c) (e : Expectation) :
    Recorded tokens (Step.refuse e c).val.2 := by
  rw [Step.refuse]
  split
  · next ended => exact h.report (h.pos_eq (List.isEmpty_iff.mp ended)).symm trivial rfl
  · next ahead =>
    exact h.report rfl (h.pos_lt fun ended => ahead (List.isEmpty_iff.mpr ended)) rfl

theorem drop (h : Recorded tokens c) : Recorded tokens (Step.drop c).val.2 := by
  have leads := (Step.drop c).property
  rw [Step.drop] at leads ⊢
  split
  · next cut =>
    rw [if_pos cut] at leads
    exact h.silent leads rfl rfl
  · next whole =>
    rw [if_neg whole] at leads
    have inside := h.leads.of_start.2
    exact {
      leads := h.leads.trans leads
      order := h.order_cons rfl
      reached := List.forall_mem_cons.mpr ⟨leads.pos_le,
        fun f mem => Nat.le_trans (h.reached f mem) leads.pos_le⟩
      fits := List.forall_mem_cons.mpr ⟨inside, h.fits⟩
      deep := fun _ => ⟨_, _, rfl, h.shallow (Bool.eq_false_iff.mpr whole)⟩
      shallow := fun still => absurd still.symm Bool.false_ne_true }

theorem cutOff (h : Recorded tokens c) : Recorded tokens (Step.cutOff c).val.2 := by
  rw [Step.cutOff_val]
  exact h.drop

end Recorded

end Cursor

/-! ## Programs -/

/-- Whatever the tokens are and however deep they are nested, the faults of a program are recorded
in order. -/
theorem Program.recorded (limit : Nat) (tokens : List Token) :
    Cursor.Recorded tokens (Grammar.chunk limit (.start tokens ⟨⟩)).val.2 := by
  have steps := Step.compositional_keeps (I := Cursor.Recorded tokens) (fun _ inv => inv.stray)
    (fun _ inv => inv.bump) (fun e _ inv => inv.refuse e)
  have floor : Level.floor.Related (fun _ p _ => Step.Keeps (Cursor.Recorded tokens) p) .floor :=
    ⟨fun _ _ inv => inv.cutOff, fun _ inv => inv.cutOff⟩
  rw [Grammar.chunk_eq_chunkOver]
  exact Grammar.related_chunkOver steps floor limit _ (.start tokens)

end LuaTyping
