import LuaTyping.Syntax.Grammar.Program
import LuaTyping.Proofs.Syntax.Outline

/-!
# Reading without a text

The grammar looks at the kinds of the tokens and nothing else, so what it reads can be drawn before
the tokens are placed in a text.  A `Sketch` keeps nothing: the node in hand is the whole outline
below it, and places are marks.  All that is proved about the grammar is proved of sketches; the
table that the parser makes is compared with the sketch of the same tokens in `Attached`.

The equations say what the steps that make nodes do in a sketch: they only answer.

* `Program.ofTokens`: the outline of the main block of a program, with what is wrong with it.
-/

namespace LuaTyping

/-- What keeps no nodes. -/
structure Sketch where

instance : Maker Sketch Outline where
  tokenStart _ := Mark.start
  stopBefore _ := Mark.stopBefore
  tokenSpan _ token := ⟨Mark.start token, Mark.stop token⟩
  between _ := Span.mk
  kind _ := Outline.kind
  span _ o := ⟨o.first, o.last⟩
  node s kind span children := (.node kind span.start span.stop children, s)
  doc s token := ((Mark.doc token, [.doc token]), s)

namespace Step

variable {α β : Type}

theorem pure_bind {σ : Type} (a : α) (f : α → Step σ β) : (pure a >>= f) = f a := rfl

/-- A repetition is its first round, and the repetition behind it if it goes on. -/
theorem iterate_val {σ τ : Type} {body : τ → Step σ (τ × Bool)} {s : τ} {c : Cursor σ} :
    (iterate body s c).val =
      if (body s c).val.1.2 = true ∧ c.pos < (body s c).val.2.pos then
        (iterate body (body s c).val.1.1 (body s c).val.2).val
      else if (body s c).val.1.2 = true then ((body s c).val.1.1, (body s c).val.2.stray)
      else ((body s c).val.1.1, (body s c).val.2) := by
  rw [iterate]
  dsimp only
  split
  · rfl
  · split <;> rfl

theorem leaf_eq (kind : NodeKind) : (leaf kind : Step Sketch Outline) = (do
    let i ← position
    bump
    return .leaf kind i) := rfl

theorem finish_eq (kind : NodeKind) (first : Nat) (children : List Outline) (c : Cursor Sketch) :
    finish kind first children c =
      ⟨(.node kind first (max (Mark.stopBefore c.pos) first) children, c), .refl c⟩ := rfl

theorem join_eq (kind : NodeKind) (a b : Outline) (children : List Outline) :
    (join kind a b children : Step Sketch Outline) = pure (.join kind a b children) := rfl

theorem valueOf_eq (o : Outline) : (Grammar.valueOf o : Step Sketch Outline) = pure o.value := rfl

/-- The least span over some outlines is between the least and the largest of their marks. -/
theorem foldl_cover (os : List Outline) (s : Span) (made : Sketch) :
    os.foldl (fun s o => s.cover (Maker.span made o)) s =
      ⟨os.foldl (fun m o => min m o.first) s.start, os.foldl (fun m o => max m o.last) s.stop⟩ := by
  induction os generalizing s with
  | nil => rfl
  | cons o os ih => exact ih _

theorem wrap_eq (kind : NodeKind) (children : List Outline) (mark : Nat) :
    (wrap kind children mark : Step Sketch Outline) = pure (.wrap kind children mark) := by
  funext c
  cases children with
  | nil => rfl
  | cons o os =>
    rw [wrap, Maker.cover?, foldl_cover]
    rfl

/-- What is dropped leaves an empty node behind. -/
theorem cutOff_val (c : Cursor Sketch) :
    (cutOff c).val = (.empty .error (Mark.start c.pos), (drop c).val.2) := rfl

end Step

/-- The main block of a program, and the faults in the order of their discovery. -/
structure Program where
  body : Outline
  faults : List Fault
  deriving Repr, Inhabited

/-- Reads a program. -/
def Program.ofTokens (limit : Nat) (tokens : List Token) : Program :=
  let r := (Grammar.chunk limit (.start tokens (⟨⟩ : Sketch))).val
  ⟨r.1, r.2.faults.reverse⟩

end LuaTyping
