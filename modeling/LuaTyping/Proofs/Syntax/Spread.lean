import Mathlib.Tactic.Common
import LuaTyping.Proofs.Syntax.Outline

/-!
# Where the nodes of an outline lie

An outline *lies* at the tokens from `i` up to `j` if the outlines below it lie one behind the other
among these tokens, and if its marks fit them.  How far the marks of a node are bound to its tokens
depends on its kind: those of a name or a literal enclose one token, a function and a block begin at
their first token, a `local` statement ends at its last one.  Comments stand in doc slots only.

An outline is *sealed* if it has local statements and blocks in the bodies of functions only.  What
a sealed outline declares does not reach the scope around it; the operands of expressions are
sealed, and so is everything of a loop but its block.

Nothing here says which kinds stand below which otherwise, so that all of it can hold of what is
made of a faulty text too.

Doc slots stand in the order of their tokens.  A slot stands in front of the first token of a
statement, and a part of a statement, or of an expression, has slots behind its first token only:
what encloses a statement has a word in front of it.

* `Outline.Sealed`, `Outline.Sited`, `Outline.Lies`.
* `Outline.docs`, `Outline.Ascend`: the doc slots of an outline, and their order.
* `Outline.Part`, `Outline.PartRow`: what lies somewhere and has slots behind its first token only.
* `Outline.Inner`, `Outline.InnerRow`: such parts, if they are sealed.
-/

namespace LuaTyping

/-- The kinds of nodes that are a single token. -/
def NodeKind.isWord : NodeKind → Bool
  | .nameDef | .paramDef | .nameExpr | .name | .methodName | .literal | .operator => true
  | _ => false

/-- The kinds of nodes whose marks are not bound to their tokens. -/
def NodeKind.isLoose : NodeKind → Bool
  | .localStat | .localFuncStat | .numericForStat | .genericForStat | .funcBody | .block
  | .comment => false
  | kind => !kind.isWord

theorem Mark.doc_mono {i k : Nat} (le : i ≤ k) : Mark.doc i ≤ Mark.doc k := Nat.mul_le_mul_left 3 le

namespace Outline

/-- Local statements and blocks stand in the bodies of functions only. -/
inductive Sealed : Outline → Prop
  | doc (i : Nat) : Sealed (.doc i)
  | funcBody {first last : Nat} {cs : List Outline} : Sealed (.node .funcBody first last cs)
  | node {kind : NodeKind} {first last : Nat} {cs : List Outline} :
    kind ≠ .localStat → kind ≠ .localFuncStat → kind ≠ .block → (∀ c ∈ cs, Sealed c) →
    Sealed (.node kind first last cs)

/-- How a node of a kind with the marks `first` and `last` sits on the tokens from `i` up to `j`. -/
def Sited (i j first last : Nat) (kind : NodeKind) (cs : List Outline) : Prop :=
  match kind with
  | .localStat => Mark.stop i ≤ last ∧ last ≤ Mark.stopBefore j ∧ ∀ c ∈ cs, c.Sealed
  | .localFuncStat =>
    (∀ c ∈ cs, c.Sealed) ∧
      ∀ c ∈ cs, c.kind = .nameDef → Mark.stop i ≤ c.first ∧ c.first ≤ Mark.stopBefore j
  | .numericForStat | .genericForStat =>
    ∃ ds β, cs = ds ++ [β] ∧ β.kind = .block ∧ ∀ d ∈ ds, d.Sealed
  | .funcBody | .block => first ≤ Mark.start i
  | .comment => False
  | kind => kind.isWord = true → first = Mark.start i ∧ last = Mark.stop i ∧ i < j

mutual

/-- The outline lies at the tokens from `i` up to `j`. -/
inductive Lies : Nat → Nat → Outline → Prop
  | doc {i j : Nat} : i ≤ j → Lies i j (.doc i)
  | node {i j first last : Nat} {kind : NodeKind} {cs : List Outline} :
    Mark.doc i ≤ first → Sited i j first last kind cs → LieIn i j cs →
    Lies i j (.node kind first last cs)

/-- The outlines lie one behind the other among the tokens from `i` up to `j`. -/
inductive LieIn : Nat → Nat → List Outline → Prop
  | nil {i j : Nat} : i ≤ j → LieIn i j []
  | cons {i k m j : Nat} {c : Outline} {cs : List Outline} :
    i ≤ k → Lies k m c → LieIn m j cs → LieIn i j (c :: cs)

end

mutual

/-- The tokens of the doc slots of an outline, in their order. -/
def docs : Outline → List Nat
  | doc token => [token]
  | node _ _ _ cs => docsOf cs

/-- The tokens of the doc slots of outlines in a row. -/
def docsOf : List Outline → List Nat
  | [] => []
  | c :: cs => c.docs ++ docsOf cs

end

/-- The tokens grow from one to the next, from `i` on and below `j`. -/
def Ascend (i j : Nat) (tokens : List Nat) : Prop :=
  tokens.Pairwise (· < ·) ∧ ∀ t ∈ tokens, i ≤ t ∧ t < j

variable {i j k m first last fallback : Nat} {kind : NodeKind} {o o' c : Outline}
  {cs ds : List Outline}

/-! ## Doc slots -/

@[simp] theorem docsOf_append (cs ds : List Outline) :
    docsOf (cs ++ ds) = docsOf cs ++ docsOf ds := by
  induction cs with
  | nil => rfl
  | cons c cs ih => rw [List.cons_append, docsOf, docsOf, ih, List.append_assoc]

@[simp] theorem docsOf_singleton (o : Outline) : docsOf [o] = o.docs := by
  rw [docsOf, docsOf, List.append_nil]

namespace Ascend

variable {ts us : List Nat}

theorem nil (i j : Nat) : Ascend i j [] := ⟨.nil, List.forall_mem_nil _⟩

theorem mono (h : Ascend i j ts) (front : k ≤ i) (back : j ≤ m) : Ascend k m ts :=
  ⟨h.1, fun t mem =>
    ⟨Nat.le_trans front (h.2 t mem).1, Nat.lt_of_lt_of_le (h.2 t mem).2 back⟩⟩

/-- One list behind another that it is separated from. -/
theorem append (h : Ascend i j ts) (h' : Ascend m k us) (front : i ≤ m) (apart : j ≤ m)
    (back : j ≤ k) : Ascend i k (ts ++ us) := by
  refine ⟨List.pairwise_append.mpr ⟨h.1, h'.1, fun t mem u mem' => ?_⟩, fun t mem => ?_⟩
  · exact Nat.lt_of_lt_of_le (h.2 t mem).2 (Nat.le_trans apart (h'.2 u mem').1)
  · rcases List.mem_append.mp mem with mem | mem
    · exact (h.mono (Nat.le_refl i) back).2 t mem
    · exact (h'.mono front (Nat.le_refl k)).2 t mem

/-- The slot of a statement stands in front of those of its parts. -/
theorem cons (h : Ascend (i + 1) j ts) (back : i < j) : Ascend i j (i :: ts) := by
  refine ⟨List.pairwise_cons.mpr ⟨fun t mem => (h.2 t mem).1, h.1⟩, fun t mem => ?_⟩
  rcases List.mem_cons.mp mem with rfl | mem
  · exact ⟨Nat.le_refl _, back⟩
  · exact ⟨Nat.le_of_succ_le (h.2 t mem).1, (h.2 t mem).2⟩

end Ascend

/-! ## Rows of outlines -/

mutual

theorem Lies.le : {i j : Nat} → {o : Outline} → Lies i j o → i ≤ j
  | _, _, _, .doc le => le
  | _, _, _, .node _ _ inner => inner.le

theorem LieIn.le : {i j : Nat} → {cs : List Outline} → LieIn i j cs → i ≤ j
  | _, _, _, .nil le => le
  | _, _, _, .cons le lies rest => Nat.le_trans le (Nat.le_trans lies.le rest.le)

end

theorem LieIn.mono (h : LieIn i j cs) (front : k ≤ i) (back : j ≤ m) : LieIn k m cs := by
  induction cs generalizing i k with
  | nil => exact .nil (Nat.le_trans front (Nat.le_trans h.le back))
  | cons c cs ih =>
    obtain _ | ⟨le, lies, rest⟩ := h
    exact .cons (Nat.le_trans front le) lies (ih rest (Nat.le_refl _))

theorem LieIn.append (h : LieIn i j cs) (h' : LieIn j k ds) : LieIn i k (cs ++ ds) := by
  induction cs generalizing i with
  | nil => exact h'.mono h.le (Nat.le_refl _)
  | cons c cs ih =>
    obtain _ | ⟨le, lies, rest⟩ := h
    exact .cons le lies (ih rest)

theorem Lies.single (h : Lies i j o) : LieIn i j [o] :=
  .cons (Nat.le_refl _) h (.nil (Nat.le_refl _))

/-- One more outline in front of a row that is kept in reverse order. -/
theorem LieIn.push (h : LieIn i j cs.reverse) (h' : Lies j k o) : LieIn i k (o :: cs).reverse := by
  rw [List.reverse_cons]
  exact h.append h'.single

/-- A child lies among the tokens of its row. -/
theorem LieIn.mem (h : LieIn i j cs) (mem : c ∈ cs) :
    ∃ k m, i ≤ k ∧ Lies k m c ∧ m ≤ j := by
  induction cs generalizing i with
  | nil => exact absurd mem List.not_mem_nil
  | cons d cs ih =>
    obtain _ | ⟨le, lies, rest⟩ := h
    rcases List.mem_cons.mp mem with rfl | mem
    · exact ⟨_, _, le, lies, rest.le⟩
    · obtain ⟨k, m, front, inner, back⟩ := ih rest mem
      exact ⟨k, m, Nat.le_trans le (Nat.le_trans lies.le front), inner, back⟩

/-! ## Marks -/

/-- An outline begins no earlier than its first token. -/
theorem Lies.doc_le_first (h : Lies i j o) : Mark.doc i ≤ o.first := by
  obtain _ | ⟨first, -, -⟩ := h
  · exact Nat.le_refl _
  · exact first

theorem LieIn.doc_le_first (h : LieIn i j cs) (mem : c ∈ cs) : Mark.doc i ≤ c.first := by
  obtain ⟨k, m, front, lies, -⟩ := h.mem mem
  exact Nat.le_trans (Mark.doc_mono front) lies.doc_le_first

theorem foldl_min_le (start : Nat) (cs : List Outline) :
    cs.foldl (fun m t => min m t.first) start ≤ start := by
  induction cs generalizing start with
  | nil => exact Nat.le_refl _
  | cons c cs ih => exact Nat.le_trans (ih _) (Nat.min_le_left _ _)

theorem le_foldl_min {start : Nat} (head : k ≤ start) (rest : ∀ c ∈ cs, k ≤ c.first) :
    k ≤ cs.foldl (fun m t => min m t.first) start := by
  induction cs generalizing start with
  | nil => exact head
  | cons c cs ih =>
    exact ih (Nat.le_min.mpr ⟨head, rest c List.mem_cons_self⟩)
      fun d mem => rest d (List.mem_cons_of_mem _ mem)

/-- A node over its children begins no earlier than the tokens of the children. -/
theorem LieIn.doc_le_wrap (h : LieIn i j cs) (empty : Mark.doc i ≤ fallback) :
    Mark.doc i ≤ (wrap kind cs fallback).first := by
  cases cs with
  | nil => exact empty
  | cons c cs =>
    exact le_foldl_min (h.doc_le_first List.mem_cons_self)
      fun d mem => h.doc_le_first (List.mem_cons_of_mem _ mem)

/-- A node over its children begins no later than the first of them. -/
theorem wrap_first_le {bound : Nat} (head : ∀ c ∈ cs.head?, c.first ≤ bound)
    (empty : fallback ≤ bound) : (wrap kind cs fallback).first ≤ bound := by
  cases cs with
  | nil => exact empty
  | cons c cs => exact Nat.le_trans (foldl_min_le c.first cs) (head c rfl)

theorem wrap_eq (kind : NodeKind) (cs : List Outline) (fallback : Nat) :
    wrap kind cs fallback
      = .node kind (wrap kind cs fallback).first (wrap kind cs fallback).last cs := by
  cases cs <;> rfl

/-! ## Nodes -/

/-- What is not bound to its tokens lies wherever its children do. -/
theorem Lies.loose (loose : kind.isLoose = true) (front : Mark.doc i ≤ first)
    (h : LieIn i j cs) : Lies i j (.node kind first last cs) := by
  refine .node front ?_ h
  cases kind <;> first | exact absurd loose Bool.false_ne_true | exact nofun

/-- A single token lies at its place. -/
theorem Lies.leaf (h : kind.isWord = true ∨ kind.isLoose = true) (i : Nat) :
    Lies i (i + 1) (.leaf kind i) := by
  refine .node (Nat.le_succ _) ?_ (.nil (Nat.le_succ i))
  cases kind <;> first
    | exact absurd h (by decide)
    | exact fun _ => ⟨rfl, rfl, Nat.lt_succ_self i⟩

/-! ## Parts -/

/-- The outline lies at the tokens from `i` up to `j` and has doc slots behind its first token
only. -/
structure Part (i j : Nat) (o : Outline) : Prop where
  lies : Lies i j o
  docs : Ascend (i + 1) j o.docs

/-- The outlines lie one behind the other among the tokens from `i` up to `j` and have doc slots
behind the first of these tokens only. -/
structure PartRow (i j : Nat) (cs : List Outline) : Prop where
  lies : LieIn i j cs
  docs : Ascend (i + 1) j (docsOf cs)

/-- The outline lies at the tokens from `i` up to `j` and may begin with a doc slot. -/
structure Body (i j : Nat) (o : Outline) : Prop where
  lies : Lies i j o
  docs : Ascend i j o.docs

namespace PartRow

theorem nil (le : i ≤ j) : PartRow i j [] := ⟨.nil le, .nil _ _⟩

theorem le (h : PartRow i j cs) : i ≤ j := h.lies.le

theorem mono (h : PartRow i j cs) (front : k ≤ i) (back : j ≤ m) : PartRow k m cs :=
  ⟨h.lies.mono front back, h.docs.mono (Nat.succ_le_succ front) back⟩

theorem append (h : PartRow i j cs) (h' : PartRow j k ds) : PartRow i k (cs ++ ds) := by
  refine ⟨h.lies.append h'.lies, ?_⟩
  rw [docsOf_append]
  exact h.docs.append h'.docs (Nat.succ_le_succ h.le) (Nat.le_succ j) h'.le

/-- What may begin with a doc slot stands behind at least one token. -/
theorem body (h : PartRow i j cs) (h' : Body j k o) (before : i < j) :
    PartRow i k (cs ++ [o]) := by
  refine ⟨h.lies.append h'.lies.single, ?_⟩
  rw [docsOf_append, docsOf_singleton]
  exact h.docs.append h'.docs before (Nat.le_refl j) h'.lies.le

theorem doc_le_first (h : PartRow i j cs) (mem : c ∈ cs) : Mark.doc i ≤ c.first :=
  h.lies.doc_le_first mem

end PartRow

/-- What may begin with a doc slot, behind a token. -/
theorem Body.behind (h : Body k j o) (before : i < k) : PartRow i j [o] :=
  (PartRow.nil (Nat.le_of_lt before)).body h before

namespace Part

theorem le (h : Part i j o) : i ≤ j := h.lies.le

theorem doc_le_first (h : Part i j o) : Mark.doc i ≤ o.first := h.lies.doc_le_first

theorem single (h : Part i j o) : PartRow i j [o] := by
  refine ⟨h.lies.single, ?_⟩
  rw [docsOf_singleton]
  exact h.docs

theorem loose (loose : kind.isLoose = true) (front : Mark.doc i ≤ first) (h : PartRow i j cs) :
    Part i j (.node kind first last cs) :=
  ⟨.loose loose front h.lies, h.docs⟩

theorem leaf (h : kind.isWord = true ∨ kind.isLoose = true) (i : Nat) :
    Part i (i + 1) (.leaf kind i) :=
  ⟨.leaf h i, .nil _ _⟩

end Part

/-- One more part in front of a row that is kept in reverse order. -/
theorem PartRow.push (h : PartRow i j cs.reverse) (h' : Part j k o) :
    PartRow i k (o :: cs).reverse := by
  rw [List.reverse_cons]
  exact h.append h'.single

/-! ## Inner outlines -/

/-- The outline is a part at the tokens from `i` up to `j` and is sealed. -/
def Inner (i j : Nat) (o : Outline) : Prop := Part i j o ∧ o.Sealed

/-- The outlines are parts one behind the other among the tokens from `i` up to `j` and are
sealed. -/
def InnerRow (i j : Nat) (cs : List Outline) : Prop := PartRow i j cs ∧ ∀ c ∈ cs, c.Sealed

theorem Sealed.loose (loose : kind.isLoose = true) (h : ∀ c ∈ cs, c.Sealed) :
    Sealed (.node kind first last cs) := by
  refine .node ?_ ?_ ?_ h <;> rintro rfl <;> exact absurd loose Bool.false_ne_true

namespace InnerRow

theorem nil (le : i ≤ j) : InnerRow i j [] :=
  ⟨.nil le, fun _ mem => absurd mem List.not_mem_nil⟩

theorem append (h : InnerRow i j cs) (h' : InnerRow j k ds) : InnerRow i k (cs ++ ds) :=
  ⟨h.1.append h'.1, fun c mem => (List.mem_append.mp mem).elim (h.2 c) (h'.2 c)⟩

theorem mono (h : InnerRow i j cs) (front : k ≤ i) (back : j ≤ m) : InnerRow k m cs :=
  ⟨h.1.mono front back, h.2⟩

theorem le (h : InnerRow i j cs) : i ≤ j := h.1.le

theorem single (h : Inner i j o) : InnerRow i j [o] :=
  ⟨h.1.single, List.forall_mem_singleton.mpr h.2⟩

theorem cons (h : Inner i j o) (h' : InnerRow j k cs) : InnerRow i k (o :: cs) :=
  (single h).append h'

theorem push (h : InnerRow i j cs.reverse) (h' : Inner j k o) : InnerRow i k (o :: cs).reverse := by
  rw [List.reverse_cons]
  exact h.append (single h')

/-- A sealed body behind at least one token. -/
theorem body (h : InnerRow i j cs) (h' : Body j k o) (closed : o.Sealed) (before : i < j) :
    InnerRow i k (cs ++ [o]) :=
  ⟨h.1.body h' before, List.forall_mem_append.mpr ⟨h.2, List.forall_mem_singleton.mpr closed⟩⟩

end InnerRow

/-- A sealed body, behind a token. -/
theorem Body.sealed_behind (h : Body k j o) (closed : o.Sealed) (before : i < k) :
    InnerRow i j [o] :=
  (InnerRow.nil (Nat.le_of_lt before)).body h closed before

namespace Inner

theorem le (h : Inner i j o) : i ≤ j := h.1.le

theorem node (loose : kind.isLoose = true) (front : Mark.doc i ≤ first) (h : InnerRow i j cs) :
    Inner i j (.node kind first last cs) :=
  ⟨.loose loose front h.1, .loose loose h.2⟩

theorem wrap (loose : kind.isLoose = true) (empty : Mark.doc i ≤ fallback)
    (h : InnerRow i j cs) : Inner i j (wrap kind cs fallback) := by
  rw [wrap_eq]
  exact node loose (h.1.lies.doc_le_wrap empty) h

theorem leaf (h : kind.isWord = true ∨ kind = .error) (i : Nat) :
    Inner i (i + 1) (.leaf kind i) := by
  refine ⟨.leaf (h.imp_right fun error => error ▸ rfl) i, .node ?_ ?_ ?_ ?_⟩
  · rintro rfl
    exact absurd h (by decide)
  · rintro rfl
    exact absurd h (by decide)
  · rintro rfl
    exact absurd h (by decide)
  · exact fun _ mem => absurd mem List.not_mem_nil

/-- An empty error node may be put anywhere behind. -/
theorem error (le : i ≤ j) (front : i ≤ m) : Inner i j (.empty .error (Mark.start m)) :=
  node rfl (Nat.le_trans (Mark.doc_mono front) (Nat.le_succ _)) (.nil le)

end Inner

end Outline

end LuaTyping
