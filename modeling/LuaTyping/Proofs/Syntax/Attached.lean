import LuaTyping.Proofs.Syntax.Draft
import LuaTyping.Proofs.Syntax.Sketch

/-!
# The table and the sketch of the same tokens

The grammar is run twice over the same tokens, once with the table of a text and once with a sketch.
Both runs take the same decisions, since these depend on the tokens and the kinds of nodes only.
Meanwhile every step leaves some branches of the table loose, and these are what the step has drawn
in the sketch: in kinds, numbers and children always, and in their places where the layout is
faithful, so that marks have the order of their offsets.

`p.Attaches l front own q post` says this of two steps that are taken while the branches `front` and
`own` are loose: those in `front` stay as they are, and `post` relates the answers and what `own`
has become.

* `Layout.Fits`, `Layout.Drawn`: numbers of loose branches, and the outlines they are drawn as.
* `Cursor.Meets`: the two runs are at one place.
* `Step.Attaches`, with a rule for each step.
-/

namespace LuaTyping

/-- The outline is a node and no doc slot. -/
def Outline.IsNode : Outline → Prop
  | .node _ _ _ _ => True
  | .doc _ => False

/-! ## Offsets of marks -/

namespace Layout

variable {l : Layout}

theorem offset_max (h : l.Faithful) (a b : Nat) :
    l.offset (max a b) = max (l.offset a) (l.offset b) := by
  rcases Nat.le_total a b with le | le
  · rw [Nat.max_eq_right le, Nat.max_eq_right (offset_le h le)]
  · rw [Nat.max_eq_left le, Nat.max_eq_left (offset_le h le)]

theorem offset_min (h : l.Faithful) (a b : Nat) :
    l.offset (min a b) = min (l.offset a) (l.offset b) := by
  rcases Nat.le_total a b with le | le
  · rw [Nat.min_eq_left le, Nat.min_eq_left (offset_le h le)]
  · rw [Nat.min_eq_right le, Nat.min_eq_right (offset_le h le)]

/-- A span between two marks is made of their offsets. -/
theorem ofNumbers_offset (h : l.Faithful) (a b : Nat) :
    Span.ofNumbers (l.offset a) (l.offset b) = ⟨l.offset a, l.offset b⟩ :=
  Span.ofNumbers_of_lt (Nat.lt_of_le_of_lt (offset_le_size h a) h.small)
    (Nat.lt_of_le_of_lt (offset_le_size h b) h.small)

/-! ## What is loose -/

/-- `xs` are the numbers of the branches `own`, which come behind those in `front`, and the outlines
`os` are drawn as `own`. -/
structure Fits (l : Layout) (front own : List Branch) (xs : List NodeId) (os : List Outline) :
    Prop where
  ids : xs = own.map Branch.id
  bare : Branch.bareOf own = Branch.bareOf (l.branchesOf (Branch.allOf front).length os)
  places : l.Faithful → own = l.branchesOf (Branch.allOf front).length os

/-- The same where every outline is a node, so that there is a branch for each. -/
structure Drawn (l : Layout) (front own : List Branch) (xs : List NodeId) (os : List Outline) : Prop
    extends l.Fits front own xs os where
  nodes : ∀ o ∈ os, o.IsNode

variable {front own own' : List Branch} {xs xs' : List NodeId} {os os' : List Outline}

theorem Fits.length_allOf (h : l.Fits front own xs os) :
    (Branch.allOf own).length
      = (Branch.allOf (l.branchesOf (Branch.allOf front).length os)).length :=
  Branch.length_allOf_eq h.bare

theorem Fits.nil : l.Fits front [] [] [] := ⟨rfl, rfl, fun _ => rfl⟩

theorem Fits.append (h : l.Fits front own xs os) (h' : l.Fits (front ++ own) own' xs' os') :
    l.Fits front (own ++ own') (xs ++ xs') (os ++ os') where
  ids := by rw [h.ids, h'.ids, List.map_append]
  bare := by
    have next := h'.bare
    rw [Branch.allOf_append, List.length_append, h.length_allOf] at next
    rw [branchesOf_append, Branch.bareOf_eq_map, Branch.bareOf_eq_map, List.map_append,
      List.map_append, ← Branch.bareOf_eq_map, ← Branch.bareOf_eq_map, ← Branch.bareOf_eq_map,
      ← Branch.bareOf_eq_map, h.bare, next]
  places faithful := by
    have next := h'.places faithful
    rw [Branch.allOf_append, List.length_append, h.length_allOf] at next
    rw [branchesOf_append, ← next, ← h.places faithful]

theorem Drawn.nil : l.Drawn front [] [] [] := ⟨.nil, List.forall_mem_nil _⟩

theorem Drawn.append (h : l.Drawn front own xs os) (h' : l.Drawn (front ++ own) own' xs' os') :
    l.Drawn front (own ++ own') (xs ++ xs') (os ++ os') :=
  ⟨h.toFits.append h'.toFits, fun o mem => (List.mem_append.mp mem).elim (h.nodes o) (h'.nodes o)⟩

/-- A branch that is drawn in front of others. -/
theorem Drawn.of_cons {o : Outline} (h : l.Drawn front own xs (o :: os)) :
    ∃ b own' xs', own = b :: own' ∧ xs = b.id :: xs' ∧ b.kind = o.kind
      ∧ (l.Faithful → b.span = ⟨l.offset o.first, l.offset o.last⟩)
      ∧ l.Drawn (front ++ [b]) own' xs' os := by
  obtain ⟨⟨ids, bare, places⟩, nodes⟩ := h
  cases o with
  | doc token => exact absurd (nodes _ List.mem_cons_self) id
  | node kind first last cs =>
    rw [branchesOf, branches, List.singleton_append] at bare places
    cases own with
    | nil => exact absurd bare.symm (List.cons_ne_nil _ _)
    | cons b own =>
      obtain ⟨head, tail⟩ := List.cons.inj bare
      have size : (Branch.allOf (front ++ [b])).length = (Branch.allOf front).length
          + (Branch.allOf [Branch.node ((Branch.allOf front).length
            + (Branch.allOf (l.branchesOf (Branch.allOf front).length cs)).length) kind
              ⟨l.offset first, l.offset last⟩
              (l.branchesOf (Branch.allOf front).length cs)]).length := by
        have all := congrArg (fun b => b.all.length) head
        simp only [Branch.all_bare, List.length_map] at all
        simp only [Branch.allOf_append, Branch.allOf, List.append_nil, List.length_append, all]
      rw [← size] at tail places
      refine ⟨b, own, _, rfl, ids, ?_, fun faithful => ?_, ⟨rfl, tail, fun faithful => ?_⟩,
        fun o mem => nodes o (List.mem_cons_of_mem _ mem)⟩
      · have kinds := congrArg Branch.kind head
        rwa [Branch.kind_bare] at kinds
      · rw [(List.cons.inj (places faithful)).1]
        rfl
      · exact (List.cons.inj (places faithful)).2

/-- What the table says of the nodes in hand, one by one. -/
def Agrees (l : Layout) (d : Draft) (x : NodeId) (o : Outline) : Prop :=
  (d.row x).kind = o.kind
    ∧ (l.Faithful → (d.row x).span = ⟨l.offset o.first, l.offset o.last⟩)

theorem Drawn.forall₂ {d : Draft} (h : l.Drawn front own xs os) (holds : d.Holds (front ++ own)) :
    List.Forall₂ (l.Agrees d) xs os := by
  induction os generalizing front own xs with
  | nil =>
    obtain ⟨⟨rfl, bare, -⟩, -⟩ := h
    cases own with
    | nil => exact .nil
    | cons b own => exact absurd bare (List.cons_ne_nil _ _)
  | cons o os ih =>
    obtain ⟨b, own, xs, rfl, rfl, kind, span, rest⟩ := h.of_cons
    have row := holds.row_eq (b := b) (by
      rw [Branch.allOf_append]
      exact List.mem_append_right _ (List.mem_append_left _ (Branch.self_mem_all b)))
    refine .cons ⟨row.1.trans kind, fun faithful => row.2.trans (span faithful)⟩ (ih rest ?_)
    rwa [List.append_assoc, List.singleton_append]

theorem Drawn.length_eq (h : l.Drawn front own xs os) : xs.length = os.length := by
  induction os generalizing front own xs with
  | nil =>
    cases own with
    | nil => rw [h.ids]; rfl
    | cons b own => exact absurd h.bare (List.cons_ne_nil _ _)
  | cons o os ih =>
    obtain ⟨b, own, xs, -, rfl, -, -, rest⟩ := h.of_cons
    rw [List.length_cons, List.length_cons, ih rest]

/-- A program over its main block. -/
theorem Drawn.root {x : NodeId} {body : Outline} (h : l.Drawn [] own [x] [body]) (span : Span) :
    (Branch.node (Branch.allOf own).length .chunk span own).bare = (l.root body).bare
      ∧ (l.Faithful → span = ⟨0, l.text.utf8ByteSize⟩ →
        Branch.node (Branch.allOf own).length .chunk span own = l.root body) := by
  have single : l.branchesOf (Branch.allOf []).length [body] = l.branches 0 body := by
    rw [branchesOf, branchesOf, List.append_nil]
    rfl
  rw [h.length_allOf, single, Layout.root, nodeCount]
  refine ⟨?_, fun faithful whole => ?_⟩
  · rw [Branch.bare, Branch.bare, h.bare, single]
  · rw [h.places faithful, single, whole]

end Layout

/-! ## Two runs -/

/-- The run with a table and the run with a sketch are at one place, and `loose` are the loose
branches of the table. -/
structure Cursor.Meets (l : Layout) (loose : List Branch) (c : Cursor Draft) (d : Cursor Sketch) :
    Prop where
  pos : c.pos = d.pos
  rest : c.rest = d.rest
  faults : c.faults = d.faults
  cut : c.cut = d.cut
  astray : c.astray = d.astray
  layout : c.made.layout = l
  inside : c.pos + c.rest.length = l.lexemes.size
  holds : c.made.Holds loose

namespace Step

open Layout (Fits Drawn Agrees)
open Cursor (Meets)

variable {α α' β β' τ τ' : Type} {l : Layout} {front own : List Branch}
  {p : Step Draft α} {q : Step Sketch α'} {f : α → Step Draft β} {g : α' → Step Sketch β'}

/-- Two steps that are taken at one place, with the branches in `front` and `own` loose, end at one
place.  The branches in `front` are still loose then, and behind them there are those that `post`
relates to the two answers. -/
def Attaches (l : Layout) (front own : List Branch) (p : Step Draft α) (q : Step Sketch α')
    (post : α → α' → List Branch → Prop) : Prop :=
  ∀ c d, Meets l (front ++ own) c d →
    ∃ own', Meets l (front ++ own') (p c).val.2 (q d).val.2 ∧ post (p c).val.1 (q d).val.1 own'

namespace Attaches

variable {post : α → α' → List Branch → Prop} {next : β → β' → List Branch → Prop}

theorem pure {a : α} {b : α'} (h : post a b own) :
    Attaches l front own (Pure.pure a) (Pure.pure b) post :=
  fun _ _ meets => ⟨own, meets, h⟩

theorem bind (first : Attaches l front own p q post)
    (rest : ∀ {a b own'}, post a b own' → Attaches l front own' (f a) (g b) next) :
    Attaches l front own (p >>= f) (q >>= g) next := by
  intro c d meets
  obtain ⟨own', meets', holds⟩ := first c d meets
  exact rest holds _ _ meets'

/-- What is loose in front of a part stays as it is. -/
theorem sub_bind (first : Attaches l (front ++ own) [] p q post)
    (rest : ∀ {a b new}, post a b new → Attaches l front (own ++ new) (f a) (g b) next) :
    Attaches l front own (p >>= f) (q >>= g) next := by
  intro c d meets
  obtain ⟨new, meets', holds⟩ := first c d (by rwa [List.append_nil])
  rw [List.append_assoc] at meets'
  exact rest holds _ _ meets'

/-- A step that leaves what is loose so far as it is. -/
theorem beside (h : Attaches l (front ++ own) [] p q fun a b new => post a b (own ++ new)) :
    Attaches l front own p q post := by
  intro c d meets
  obtain ⟨new, meets', holds⟩ := h c d (by rwa [List.append_nil])
  rw [List.append_assoc] at meets'
  exact ⟨_, meets', holds⟩

/-- What follows an answer. -/
theorem pure_bind {a : α} {b : α'} (rest : Attaches l front own (f a) (g b) next) :
    Attaches l front own (Pure.pure a >>= f) (Pure.pure b >>= g) next := rest

theorem map {γ γ' : Type} {h : α → γ} {h' : α' → γ'} {post : γ → γ' → List Branch → Prop}
    (all : Attaches l front own p q fun a b own' => post (h a) (h' b) own') :
    Attaches l front own (h <$> p) (h' <$> q) post := all

/-- What every round keeps is there at the end. -/
theorem iterate {body : τ → Step Draft (τ × Bool)} {body' : τ' → Step Sketch (τ' × Bool)}
    {I : τ → τ' → List Branch → Prop} {s : τ} {s' : τ'}
    (round : ∀ {s s' own}, I s s' own → Attaches l front own (body s) (body' s')
      fun r r' own' => r.2 = r'.2 ∧ I r.1 r'.1 own')
    (init : I s s' own) : Attaches l front own (Step.iterate body s) (Step.iterate body' s') I := by
  intro c d meets
  induction size : c.rest.length using Nat.strongRecOn generalizing s s' own c d with
  | ind n ih =>
    obtain ⟨own', meets', again, kept⟩ := round init c d meets
    have step := (body s c).property
    rw [iterate_val (s := s), iterate_val (s := s'), ← again, ← meets.pos, ← meets'.pos]
    split
    · have shorter : (body s c).val.2.rest.length < n := by
        have := step.length_rest
        omega
      exact ih _ shorter kept _ _ meets' rfl
    · split
      · exact ⟨own', { meets' with astray := rfl }, kept⟩
      · exact ⟨own', meets', kept⟩

end Attaches

/-! ## Steps that make no nodes -/

/-- The steps do the same and leave the table alone. -/
def Same (p : Step Draft α) (q : Step Sketch α) : Prop :=
  ∀ l loose c d, Meets l loose c d →
    Meets l loose (p c).val.2 (q d).val.2 ∧ (p c).val.1 = (q d).val.1

namespace Same

variable {q : Step Sketch α} {g : α → Step Sketch β} {next : β → β' → List Branch → Prop}

theorem pure (a : α) : Same (Pure.pure a) (Pure.pure a) := fun _ _ _ _ meets => ⟨meets, rfl⟩

theorem bind (first : Same p q) (rest : ∀ a, Same (f a) (g a)) : Same (p >>= f) (q >>= g) := by
  intro l loose c d meets
  obtain ⟨meets', same⟩ := first l loose c d meets
  change Meets l loose _ (g (q d).val.1 (q d).val.2).val.2 ∧ _ = (g (q d).val.1 (q d).val.2).val.1
  rw [← same]
  exact rest (p c).val.1 l loose _ _ meets'

/-- What follows such a step. -/
theorem then_ {g : α → Step Sketch β'} (first : Same p q)
    (rest : ∀ a, Attaches l front own (f a) (g a) next) :
    Attaches l front own (p >>= f) (q >>= g) next := by
  intro c d meets
  obtain ⟨meets', same⟩ := first l _ c d meets
  change ∃ own', Meets l _ _ (g (q d).val.1 (q d).val.2).val.2
    ∧ next _ (g (q d).val.1 (q d).val.2).val.1 own'
  rw [← same]
  exact rest (p c).val.1 _ _ meets'

/-- A step that looks at what lies ahead. -/
theorem look (look : List Token → α) :
    Same (fun c => ⟨(look c.rest, c), .refl c⟩) fun c => ⟨(look c.rest, c), .refl c⟩ :=
  fun _ _ _ _ meets => ⟨meets, congrArg look meets.rest⟩

theorem peek : Same Step.peek Step.peek := look List.head?

theorem peekSecond : Same Step.peekSecond Step.peekSecond := look fun ts => ts.tail.head?

theorem at? (t : Token) : Same (Step.at? t) (Step.at? t) := look fun ts => ts.head? == some t

theorem atEnd : Same Step.atEnd Step.atEnd := look List.isEmpty

theorem blockEnds : Same Step.blockEnds Step.blockEnds := by
  intro l loose c d meets
  refine ⟨meets, ?_⟩
  simp only [Step.blockEnds, meets.rest]

theorem position : Same Step.position Step.position :=
  fun _ _ _ _ meets => ⟨meets, meets.pos⟩

theorem bump : Same Step.bump Step.bump := by
  rintro l loose ⟨pos, rest, faults, cut, reported, ended, astray, made⟩
    ⟨pos', rest', faults', cut',
    reported', ended', astray', made'⟩ ⟨rfl, rfl, rfl, rfl, rfl, layout, inside, holds⟩
  cases rest with
  | nil => exact ⟨⟨rfl, rfl, rfl, rfl, rfl, layout, inside, holds⟩, rfl⟩
  | cons t rest =>
    refine ⟨⟨rfl, rfl, rfl, rfl, rfl, layout, ?_, holds⟩, rfl⟩
    rw [← inside, List.length_cons]
    exact Nat.add_right_comm pos 1 rest.length

theorem report (e : Fault) : Same (Step.report e) (Step.report e) := by
  rintro l loose ⟨pos, rest, faults, cut, reported, ended, astray, made⟩
    ⟨pos', rest', faults', cut',
    reported', ended', astray', made'⟩ ⟨rfl, rfl, rfl, rfl, rfl, layout, inside, holds⟩
  cases cut with
  | true => exact ⟨⟨rfl, rfl, rfl, rfl, rfl, layout, inside, holds⟩, rfl⟩
  | false => exact ⟨⟨rfl, rfl, rfl, rfl, rfl, layout, inside, holds⟩, rfl⟩

theorem refuse (e : Expectation) : Same (Step.refuse e) (Step.refuse e) := by
  intro l loose c d meets
  have behind := report (if c.rest.isEmpty then .unexpectedEnd e else .unexpected c.pos e) l loose
    c d meets
  rw [Step.refuse, Step.refuse, ← meets.rest, ← meets.pos]
  exact behind

theorem accept (t : Token) : Same (Step.accept t) (Step.accept t) := by
  refine (at? t).bind fun found => ?_
  split
  · exact bump.bind fun _ => pure true
  · exact pure false

theorem expect (t : Token) (e : Expectation) : Same (Step.expect t e) (Step.expect t e) := by
  refine (accept t).bind fun accepted => ?_
  split
  · exact pure ()
  · exact refuse e

theorem drop : Same Step.drop Step.drop := by
  rintro l loose ⟨pos, rest, faults, cut, reported, ended, astray, made⟩
    ⟨pos', rest', faults', cut',
    reported', ended', astray', made'⟩ ⟨rfl, rfl, rfl, rfl, rfl, layout, inside, holds⟩
  cases cut with
  | true => exact ⟨⟨rfl, rfl, rfl, rfl, rfl, layout, inside, holds⟩, rfl⟩
  | false => exact ⟨⟨rfl, rfl, rfl, rfl, rfl, layout, inside, holds⟩, rfl⟩

/-- Repetitions of steps that do the same do the same. -/
theorem iterate {body : τ → Step Draft (τ × Bool)} {body' : τ → Step Sketch (τ × Bool)}
    (round : ∀ s, Same (body s) (body' s)) (s : τ) :
    Same (Step.iterate body s) (Step.iterate body' s) := by
  intro l loose c d meets
  have rounds : Attaches l loose [] (Step.iterate body s) (Step.iterate body' s)
      fun s s' own => s = s' ∧ own = [] := by
    refine .iterate ?_ ⟨rfl, rfl⟩
    rintro s _ _ ⟨rfl, rfl⟩ c d meets
    obtain ⟨meets', same⟩ := round s l _ c d meets
    exact ⟨[], meets', congrArg Prod.snd same, congrArg Prod.fst same, rfl⟩
  obtain ⟨_, meets', same, rfl⟩ := rounds c d (by rwa [List.append_nil])
  rw [List.append_nil] at meets'
  exact ⟨meets', same⟩

end Same

/-! ## Places -/

/-- The place is the offset of the mark. -/
def Place (l : Layout) (place mark : Nat) : Prop := l.Faithful → place = l.offset mark

namespace Attaches

variable {next : β → β' → List Branch → Prop} {f : Nat → Step Draft β} {g : Nat → Step Sketch β'}
  {xs : List NodeId} {os : List Outline} {x y : NodeId} {o o' : Outline}

/-- What follows the question where the next token starts. -/
theorem here_bind (rest : ∀ {place mark}, Place l place mark →
      Attaches l front own (f place) (g mark) next) :
    Attaches l front own (here >>= f) (here >>= g) next := by
  intro c d meets
  refine rest (fun _ => ?_) c d meets
  change c.made.layout.tokenStart c.pos = l.offset (Mark.start d.pos)
  rw [meets.layout, meets.pos, Layout.offset_start]

theorem agrees (drawn : Drawn l front own xs os) (listed : (x, o) ∈ xs.zip os) {c : Cursor Draft}
    {d : Cursor Sketch} (meets : Meets l (front ++ own) c d) : Agrees l c.made x o :=
  (List.forall₂_iff_zip.mp (drawn.forall₂ meets.holds)).2 listed

/-- What follows the question where a node starts. -/
theorem startOf_bind (drawn : Drawn l front own xs os) (listed : (x, o) ∈ xs.zip os)
    (rest : ∀ {place mark}, Place l place mark → Attaches l front own (f place) (g mark) next) :
    Attaches l front own (startOf x >>= f) (startOf o >>= g) next := by
  intro c d meets
  refine rest (fun faithful => ?_) c d meets
  exact congrArg Span.start ((agrees drawn listed meets).2 faithful)

/-- What follows the question for the kind of a node. -/
theorem kindOf_bind {f : NodeKind → Step Draft β} {g : NodeKind → Step Sketch β'}
    (drawn : Drawn l front own xs os) (listed : (x, o) ∈ xs.zip os)
    (rest : ∀ kind, Attaches l front own (f kind) (g kind) next) :
    Attaches l front own (kindOf x >>= f) (kindOf o >>= g) next := by
  intro c d meets
  have behind := rest (Maker.kind c.made x) c d meets
  have same : Maker.kind c.made x = o.kind := (agrees drawn listed meets).1
  have run : (kindOf o >>= g) d = g o.kind d := rfl
  rw [run, ← same]
  exact behind

/-! ## New nodes -/

/-- A new node takes all branches behind `front` below it. -/
theorem node {kind : NodeKind} {span : Span} {first last : Nat} (fits : Fits l front own xs os)
    (places : l.Faithful → span = ⟨l.offset first, l.offset last⟩) :
    Attaches l front own (Step.node kind span xs) (Step.node kind ⟨first, last⟩ os)
      fun x o new => Drawn l front new [x] [o] := by
  rintro ⟨pos, rest, faults, cut, reported, ended, astray, made⟩ ⟨pos', rest', faults', cut',
    reported', ended', astray', made'⟩ ⟨rfl, rfl, rfl, rfl, rfl, layout, inside, holds⟩
  obtain ⟨number, kept, holds'⟩ := holds.node kind span
  rw [← fits.ids] at number kept holds'
  have size : made.nodes.size = (Branch.allOf front).length
      + (Branch.allOf (l.branchesOf (Branch.allOf front).length os)).length := by
    rw [holds.size_eq, Branch.allOf_append, List.length_append, fits.length_allOf]
  refine ⟨_, ⟨rfl, rfl, rfl, rfl, rfl, kept.trans layout, inside, holds'⟩, ⟨rfl, ?_, ?_⟩, ?_⟩
  · change Branch.bareOf [_] = Branch.bareOf (l.branchesOf _ [.node kind first last os])
    rw [Layout.branchesOf, Layout.branchesOf, List.append_nil, Layout.branches, Branch.bareOf,
      Branch.bareOf, Branch.bareOf, Branch.bare, Branch.bare, fits.bare, size]
    rfl
  · intro faithful
    change _ = l.branchesOf _ [.node kind first last os]
    rw [Layout.branchesOf, Layout.branchesOf, List.append_nil, Layout.branches, size,
      ← places faithful, ← fits.places faithful]
  · intro o mem
    rw [List.mem_singleton.mp mem]
    trivial

theorem nodeBetween {kind : NodeKind} {place place' mark mark' : Nat}
    (fits : Fits l front own xs os) (first : Place l place mark) (last : Place l place' mark') :
    Attaches l front own (Step.nodeBetween kind place place' xs)
      (Step.nodeBetween kind mark mark' os) fun x o new => Drawn l front new [x] [o] := by
  intro c d meets
  refine node fits (fun faithful => ?_) c d meets
  change Span.ofNumbers place place' = _
  rw [first faithful, last faithful, Layout.ofNumbers_offset faithful]

theorem finish {kind : NodeKind} {place mark : Nat} (fits : Fits l front own xs os)
    (first : Place l place mark) :
    Attaches l front own (Step.finish kind place xs) (Step.finish kind mark os)
      fun x o new => Drawn l front new [x] [o] := by
  intro c d meets
  refine nodeBetween fits first (fun faithful => ?_) c d meets
  change max (c.made.layout.stopBefore c.pos) place = l.offset (max (Mark.stopBefore d.pos) mark)
  rw [Layout.offset_max faithful, first faithful, meets.layout, meets.pos]
  rcases Nat.eq_zero_or_pos d.pos with none | some
  · -- no token is read, and the node ends where it starts
    have least : l.offset (Mark.stopBefore 0) ≤ l.offset mark :=
      Layout.offset_le faithful (Nat.zero_le mark)
    have start : l.stopBefore 0 ≤ l.offset mark := Nat.zero_le _
    rw [none, Nat.max_eq_right start, Nat.max_eq_right least]
  · rw [Layout.offset_stopBefore l some]

theorem empty {kind : NodeKind} {place mark : Nat} (first : Place l place mark) :
    Attaches l front [] (Step.empty kind place) (Step.empty kind mark)
      fun x o new => Drawn l front new [x] [o] :=
  nodeBetween .nil first first

theorem cover_eq (faithful : l.Faithful) {a b : Span} {m m' k k' : Nat}
    (first : a = ⟨l.offset m, l.offset m'⟩) (second : b = ⟨l.offset k, l.offset k'⟩) :
    a.cover b = ⟨l.offset (min m k), l.offset (max m' k')⟩ := by
  rw [first, second, Span.cover, Layout.offset_min faithful, Layout.offset_max faithful]

/-- The least span over nodes is between the offsets of the least and the largest mark. -/
theorem foldl_cover_eq (faithful : l.Faithful) {made : Draft}
    (all : List.Forall₂ (Agrees l made) xs os) {a : Span} {m m' : Nat}
    (first : a = ⟨l.offset m, l.offset m'⟩) :
    xs.foldl (fun s y => s.cover (Maker.span made y)) a
      = ⟨l.offset (os.foldl (fun m o => min m o.first) m),
        l.offset (os.foldl (fun m o => max m o.last) m')⟩ := by
  induction all generalizing a m m' with
  | nil => exact first
  | cons agrees _ ih => exact ih (cover_eq faithful first (agrees.2 faithful))

theorem wrap {kind : NodeKind} {place mark : Nat} (drawn : Drawn l front own xs os)
    (first : Place l place mark) :
    Attaches l front own (Step.wrap kind xs place) (Step.wrap kind os mark)
      fun x o new => Drawn l front new [x] [o] := by
  intro c d meets
  have all := drawn.forall₂ meets.holds
  cases all with
  | nil => exact nodeBetween drawn.toFits first first c d meets
  | @cons x o xs os agrees rest =>
    rw [wrap_eq]
    exact node drawn.toFits (fun faithful => foldl_cover_eq faithful rest (agrees.2 faithful))
      c d meets

theorem join {kind : NodeKind} (drawn : Drawn l front own xs os) (left : (x, o) ∈ xs.zip os)
    (right : (y, o') ∈ xs.zip os) :
    Attaches l front own (Step.join kind x y xs) (Step.join kind o o' os)
      fun x o new => Drawn l front new [x] [o] := by
  intro c d meets
  exact node drawn.toFits (fun faithful => cover_eq faithful
    ((agrees drawn left meets).2 faithful) ((agrees drawn right meets).2 faithful)) c d meets

theorem around {kind : NodeKind} (drawn : Drawn l front own [x] [o]) :
    Attaches l front own (Step.around kind x) (Step.around kind o)
      fun x o new => Drawn l front new [x] [o] := by
  intro c d meets
  exact node drawn.toFits (agrees drawn (List.mem_singleton_self _) meets).2 c d meets

theorem leaf (kind : NodeKind) :
    Attaches l front [] (Step.leaf kind) (Step.leaf kind)
      fun x o new => Drawn l front new [x] [o] := by
  intro c d meets
  obtain ⟨meets', -⟩ := Same.bump l _ c d meets
  have places : l.Faithful → c.made.layout.tokenSpan c.pos
      = ⟨l.offset (Mark.start d.pos), l.offset (Mark.stop d.pos)⟩ := by
    intro _
    rw [meets.layout, meets.pos, Layout.tokenSpan, Layout.offset_start, Layout.offset_stop]
  exact node .nil places _ _ meets'

theorem leafOf? (t : Token) (kind : NodeKind) (e : Expectation) :
    Attaches l front [] (Step.leafOf? t kind e) (Step.leafOf? t kind e)
      fun x o new => Drawn l front new x.toList o.toList := by
  refine (Same.at? t).then_ fun found => ?_
  split
  · exact (leaf kind).bind fun drawn => pure drawn
  · exact (Same.refuse e).then_ fun _ => pure .nil

theorem doc_val {σ ν : Type} [Maker σ ν] (c : Cursor σ) :
    (Step.doc c).val = ((Maker.doc c.made c.pos).1, c.remake (Maker.doc c.made c.pos).2) := rfl

/-- The comment in front of a statement, if there is one. -/
theorem doc :
    Attaches l front [] Step.doc Step.doc
      fun r r' new => Place l r.1 r'.1 ∧ Fits l front new r.2 r'.2 := by
  rintro c d ⟨pos, rest, faults, cut, astray, layout, inside, holds⟩
  have bound : d.pos ≤ l.lexemes.size := by
    rw [← pos, ← inside]
    exact Nat.le_add_right _ _
  have slot (next : Nat) : l.branchesOf next [.doc d.pos] = l.branches next (.doc d.pos) := by
    rw [Layout.branchesOf, Layout.branchesOf, List.append_nil]
  rw [doc_val, doc_val]
  cases found : l.docSpan? d.pos with
  | none =>
    have run : Maker.doc c.made c.pos = ((l.tokenStart d.pos, []), c.made) := by
      change c.made.doc c.pos = _
      rw [Draft.doc, layout, pos, found]
    rw [run]
    refine ⟨[], ⟨pos, rest, faults, cut, astray, layout, inside, holds⟩, fun _ => ?_, rfl, ?_, ?_⟩
    · exact (Layout.offset_doc_of_none found).symm
    · change _ = Branch.bareOf (l.branchesOf _ [.doc d.pos])
      rw [slot, Layout.branches, found]
    · intro _
      change _ = l.branchesOf _ [.doc d.pos]
      rw [slot, Layout.branches, found]
  | some s =>
    rw [List.append_nil, ← List.append_nil front] at holds
    obtain ⟨number, kept, holds'⟩ := holds.node .comment s
    have run : Maker.doc c.made c.pos
        = ((s.start, [c.made.nodes.size]), (c.made.node .comment s []).2) := by
      change c.made.doc c.pos = _
      rw [Draft.doc, layout, pos, found]
      rfl
    rw [run]
    refine ⟨_, ⟨pos, rest, faults, cut, astray, kept.trans layout, inside, holds'⟩,
      fun _ => ?_, rfl,
      ?_, ?_⟩
    · change s.start = l.offset (Mark.doc d.pos)
      rw [Layout.offset_doc bound, found]
      rfl
    · change _ = Branch.bareOf (l.branchesOf _ [.doc d.pos])
      rw [slot, Layout.branches, found, holds.size_eq, List.append_nil]
    · intro _
      change _ = l.branchesOf _ [.doc d.pos]
      rw [slot, Layout.branches, found, holds.size_eq, List.append_nil]

/-- What is dropped leaves an empty node behind. -/
theorem cutOff : Attaches l front [] Step.cutOff Step.cutOff
    fun x o new => Drawn l front new [x] [o] :=
  here_bind fun first => Same.drop.then_ fun _ => empty first

end Attaches

end Step

end LuaTyping
