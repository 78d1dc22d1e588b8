import LuaTyping.Token
import LuaTyping.Syntax.Fault
import LuaTyping.Syntax.Maker

/-!
# Steps through a list of tokens

A `Cursor` stands between the tokens already read and those still ahead, and has with it what keeps
the nodes made so far.  A `Step` reads on from a cursor, and its type says that it only ever moves
forward: the tokens it leaves are the end of the tokens it found.  Repetition by `Step.iterate`
rests on that.

After the limit of nesting is passed the cursor is *cut*: it stands behind the last token, and no
fault is recorded any more.

Two things must never happen, and neither is ruled out by the type of a step: that a token is taken
where none is left, and that a repetition asks for another round although it has read nothing.  A
cursor that has seen one of them is *astray*, and stays so.

Main definitions: `Cursor.Leads`, `Step`, `Step.iterate`, and the single steps `peek`, `bump`,
`accept`, `expect`; for nodes `leaf`, `finish`, `wrap`, `join`.
-/

namespace LuaTyping

/-- A place between tokens, with the faults found so far, latest first. -/
structure Cursor (σ : Type) where
  /-- The number of tokens already read. -/
  pos : Nat
  rest : List Token
  faults : List Fault
  /-- The limit of nesting was passed, and what followed was dropped. -/
  cut : Bool
  /-- Nothing is dropped without a fault. -/
  reported : cut = true → faults ≠ []
  /-- What is dropped is all that was left. -/
  ended : cut = true → rest = []
  /-- A token was taken where none is left, or a repetition would have gone on forever. -/
  astray : Bool
  /-- What keeps the nodes. -/
  made : σ

/-- What is not cut needs no fault. -/
theorem Cursor.not_cut : false = true → ([] : List Fault) ≠ [] := nofun

/-- What is not cut may go on. -/
theorem Cursor.not_ended (rest : List Token) : false = true → rest = [] := nofun

variable {σ ν : Type}

/-- The place before the first token. -/
def Cursor.start (tokens : List Token) (made : σ) : Cursor σ :=
  ⟨0, tokens, [], false, Cursor.not_cut, Cursor.not_ended tokens, false, made⟩

/-- The same place, and astray. -/
def Cursor.stray (c : Cursor σ) : Cursor σ := { c with astray := true }

/-- The same place with other nodes. -/
def Cursor.remake (c : Cursor σ) (made : σ) : Cursor σ := { c with made := made }

/-- `d` is reached from `c` by reading some of the tokens ahead of `c`; faults are only added, and
what is astray stays so. -/
structure Cursor.Leads (c d : Cursor σ) : Prop where
  reads : ∃ used, c.rest = used ++ d.rest ∧ d.pos = c.pos + used.length
  keeps : c.faults <:+ d.faults
  stays : c.astray = true → d.astray = true

namespace Cursor.Leads

theorem refl (c : Cursor σ) : c.Leads c := ⟨⟨[], by simp⟩, List.suffix_refl _, id⟩

theorem stray (c : Cursor σ) : c.Leads c.stray :=
  ⟨⟨[], by simp [Cursor.stray]⟩, List.suffix_refl _, fun _ => rfl⟩

theorem remake (c : Cursor σ) (made : σ) : c.Leads (c.remake made) :=
  ⟨⟨[], by simp [Cursor.remake]⟩, List.suffix_refl _, id⟩

theorem trans {a b c : Cursor σ} (h : a.Leads b) (h' : b.Leads c) : a.Leads c := by
  obtain ⟨u, hu, pu⟩ := h.reads
  obtain ⟨v, hv, pv⟩ := h'.reads
  exact ⟨⟨u ++ v, by simp [hu, hv], by simp [pu, pv]; omega⟩, h.keeps.trans h'.keeps,
    h'.stays ∘ h.stays⟩

/-- What is ahead shrinks by what is read. -/
theorem length_rest {c d : Cursor σ} (h : c.Leads d) :
    d.rest.length + d.pos = c.rest.length + c.pos := by
  obtain ⟨u, hu, pu⟩ := h.reads
  simp [hu, pu]; omega

end Cursor.Leads

/-- A computation that reads on from a cursor. -/
def Step (σ α : Type) : Type := (c : Cursor σ) → { r : α × Cursor σ // c.Leads r.2 }

namespace Step

/-- Reads nothing. -/
@[inline] protected def pure {α : Type} (a : α) : Step σ α := fun c => ⟨(a, c), .refl c⟩

/-- One step after the other. -/
@[inline] protected def bind {α β : Type} (p : Step σ α) (f : α → Step σ β) : Step σ β := fun c =>
  match p c with
  | ⟨(a, d), h⟩ =>
    match f a d with
    | ⟨r, h'⟩ => ⟨r, h.trans h'⟩

instance : Monad (Step σ) where
  pure := Step.pure
  bind := Step.bind

/-- Repeats `body` as long as it asks for another round.  A round that asks for another one and has
read nothing leads astray. -/
def iterate {τ : Type} (body : τ → Step σ (τ × Bool)) (s : τ) : Step σ τ := fun c =>
  match body s c with
  | ⟨((s', again), d), h⟩ =>
    if _advanced : again = true ∧ c.pos < d.pos then
      match iterate body s' d with
      | ⟨r, h'⟩ => ⟨r, h.trans h'⟩
    else if again then ⟨(s', d.stray), h.trans (.stray d)⟩
    else ⟨(s', d), h⟩
termination_by c => c.rest.length
decreasing_by have := h.length_rest; simp only at this; omega

/-! ## Single steps -/

/-- The number of the next token. -/
def position : Step σ Nat := fun c => ⟨(c.pos, c), .refl c⟩

/-- The next token. -/
def peek : Step σ (Option Token) := fun c => ⟨(c.rest.head?, c), .refl c⟩

/-- The token after the next one. -/
def peekSecond : Step σ (Option Token) := fun c => ⟨(c.rest.tail.head?, c), .refl c⟩

/-- The next token is `t`. -/
def at? (t : Token) : Step σ Bool := fun c => ⟨(c.rest.head? == some t, c), .refl c⟩

/-- No token is left. -/
def atEnd : Step σ Bool := fun c => ⟨(c.rest.isEmpty, c), .refl c⟩

/-- A block ends here: before one of its closing words, or because no token is left. -/
def blockEnds : Step σ Bool := fun c =>
  ⟨(match c.rest with
    | [] => true
    | t :: _ => t.endsBlock, c), .refl c⟩

/-- Reads one token; without one it leads astray. -/
def bump : Step σ Unit := fun c =>
  match h : c.rest with
  | [] => ⟨((), c.stray), .stray c⟩
  | t :: rest =>
    ⟨((), { c with
        pos := c.pos + 1
        rest := rest
        ended := fun cut => absurd (h.symm.trans (c.ended cut)) (List.cons_ne_nil t rest) }),
      ⟨[t], by simp [h]⟩, List.suffix_refl _, id⟩

/-- Records a fault. -/
def report (f : Fault) : Step σ Unit := fun c =>
  if c.cut then ⟨((), c), .refl c⟩
  else
    ⟨((), { c with faults := f :: c.faults, reported := fun _ => List.cons_ne_nil _ _ }),
      ⟨[], by simp⟩, List.suffix_cons _ _, id⟩

/-- Records that the next token, or the end, is not what was expected. -/
def refuse (e : Expectation) : Step σ Unit := fun c =>
  report (if c.rest.isEmpty then .unexpectedEnd e else .unexpected c.pos e) c

/-- Reads the next token if it is `t`, and says whether it was. -/
def accept (t : Token) : Step σ Bool := do
  if ← at? t then
    bump
    return true
  else return false

/-- Reads the next token if it is `t`; anything else is a fault. -/
def expect (t : Token) (e : Expectation) : Step σ Unit := do
  unless ← accept t do refuse e

/-- Drops all tokens that are left.  Only the first time this is a fault. -/
def drop : Step σ Unit := fun c =>
  if c.cut then
    ⟨((), { c with pos := c.pos + c.rest.length, rest := [], ended := fun _ => rfl }),
      ⟨c.rest, by simp⟩, List.suffix_refl _, id⟩
  else
    ⟨((), ⟨c.pos + c.rest.length, [], .tooDeep c.pos :: c.faults, true,
        fun _ => List.cons_ne_nil _ _, fun _ => rfl, c.astray, c.made⟩),
      ⟨c.rest, by simp⟩, List.suffix_cons _ _, id⟩

/-! ## Nodes -/

section Nodes

variable [Maker σ ν]

/-- The place of the next token, or the end of the text. -/
def here : Step σ Nat := fun c => ⟨(Maker.tokenStart c.made c.pos, c), .refl c⟩

/-- The span of the next token. -/
def tokenSpan : Step σ Span := fun c => ⟨(Maker.tokenSpan c.made c.pos, c), .refl c⟩

/-- The place where a node starts. -/
def startOf (x : ν) : Step σ Nat := fun c => ⟨((Maker.span c.made x).start, c), .refl c⟩

/-- The kind of a node. -/
def kindOf (x : ν) : Step σ NodeKind := fun c => ⟨(Maker.kind c.made x, c), .refl c⟩

/-- Makes a node. -/
def node (kind : NodeKind) (span : Span) (children : List ν) : Step σ ν :=
  fun ⟨pos, rest, faults, cut, reported, ended, astray, made⟩ =>
    match Maker.node made kind span children with
    | (x, made') =>
      ⟨(x, ⟨pos, rest, faults, cut, reported, ended, astray, made'⟩),
        .remake ⟨pos, rest, faults, cut, reported, ended, astray, made⟩ made'⟩

/-- Makes a node between two places. -/
def nodeBetween (kind : NodeKind) (first last : Nat) (children : List ν) : Step σ ν := fun c =>
  node kind (Maker.between c.made first last) children c

/-- Makes an empty node without children. -/
def empty (kind : NodeKind) (place : Nat) : Step σ ν := nodeBetween kind place place []

/-- Reads one token into a leaf. -/
def leaf (kind : NodeKind) : Step σ ν := do
  let span ← tokenSpan
  bump
  node kind span []

/-- Reads the next token into a leaf if it is `t`; anything else is a fault. -/
def leafOf? (t : Token) (kind : NodeKind) (e : Expectation) : Step σ (Option ν) := do
  if ← at? t then
    return some (← leaf kind)
  else
    refuse e
    return none

/-- Makes the node from `first` to the last token read. -/
def finish (kind : NodeKind) (first : Nat) (children : List ν) : Step σ ν := fun c =>
  nodeBetween kind first (max (Maker.stopBefore c.made c.pos) first) children c

/-- Makes the least node over its children; without children, an empty node at `fallback`. -/
def wrap (kind : NodeKind) (children : List ν) (fallback : Nat) : Step σ ν := fun c =>
  match Maker.cover? c.made children with
  | some span => node kind span children c
  | none => nodeBetween kind fallback fallback children c

/-- Makes the least node over `a` and `b`, with the given children. -/
def join (kind : NodeKind) (a b : ν) (children : List ν) : Step σ ν := fun c =>
  node kind ((Maker.span c.made a).cover (Maker.span c.made b)) children c

/-- Makes a node around another one. -/
def around (kind : NodeKind) (x : ν) : Step σ ν := fun c =>
  node kind (Maker.span c.made x) [x] c

/-- Makes the comment that documents the statement at the next token.  The answer is where the
statement starts, its comment included, and the comment. -/
def doc : Step σ (Nat × List ν) :=
  fun ⟨pos, rest, faults, cut, reported, ended, astray, made⟩ =>
    match Maker.doc made pos with
    | (r, made') =>
      ⟨(r, ⟨pos, rest, faults, cut, reported, ended, astray, made'⟩),
        .remake ⟨pos, rest, faults, cut, reported, ended, astray, made⟩ made'⟩

/-- Drops all tokens that are left and puts an empty error node in the place of what they would
have been. -/
def cutOff : Step σ ν := do
  let first ← here
  drop
  empty .error first

end Nodes

end Step

end LuaTyping
