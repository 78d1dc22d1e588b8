import LuaTyping.Proofs.Syntax.Sketch

/-!
# Reading without faults

`Step.Reads p i ts a j us` says that the step `p`, begun at token `i` with the tokens `ts` ahead
and nothing wrong so far, answers `a`, leaves the tokens `us` ahead at token `j`, and still nothing
is wrong.

A fault is never taken back, and what is astray stays so.  So a step made of several reads without
faults exactly if each of them does: this is `Step.reads_bind`.  With one lemma for each single
step, a production of the grammar falls apart into the tokens it reads and the productions it uses,
and in both directions:
what was read is taken apart by these lemmas, and what is to be read is put together by them.
-/

namespace LuaTyping

/-- The place before the tokens `rest`, with nothing wrong so far. -/
def Cursor.clean (pos : Nat) (rest : List Token) : Cursor Sketch :=
  ⟨pos, rest, [], false, Cursor.not_cut, Cursor.not_ended rest, false, ⟨⟩⟩

/-- A place without faults is not cut. -/
theorem Cursor.eq_clean {c : Cursor Sketch} (h : c.faults = []) (h' : c.astray = false) :
    c = .clean c.pos c.rest := by
  obtain ⟨pos, rest, faults, cut, reported, ended, astray, made⟩ := c
  cases cut with
  | true => exact absurd h (reported rfl)
  | false =>
    dsimp only at h h'
    subst h h'
    rfl

/-- What leads to a place without faults is a place without faults. -/
theorem Cursor.Leads.eq_clean {c : Cursor Sketch} {j : Nat} {us : List Token}
    (h : c.Leads (.clean j us)) :
    c = .clean c.pos c.rest :=
  Cursor.eq_clean (List.suffix_nil.mp h.keeps)
    (Bool.eq_false_iff.mpr fun astray => absurd (h.stays astray) (by simp [Cursor.clean]))

namespace Step

variable {α β σ : Type} {p : Step Sketch α} {f : α → Step Sketch β}
    {body : σ → Step Sketch (σ × Bool)}
  {i j k : Nat} {ts us vs : List Token} {t : Token} {e : Expectation}

/-- `p` reads on from token `i` with `ts` ahead to token `j` with `us` ahead, without a fault, and
answers `a`. -/
def Reads (p : Step Sketch α) (i : Nat) (ts : List Token) (a : α) (j : Nat)
    (us : List Token) : Prop :=
  (p (.clean i ts)).val = (a, .clean j us)

/-- What is read lies between the tokens ahead before and after. -/
theorem Reads.add_length {a : α} (h : Reads p i ts a j us) : us.length + j = ts.length + i := by
  have leads := (p (.clean i ts)).property
  rw [h] at leads
  exact leads.length_rest

theorem Reads.le {a : α} (h : Reads p i ts a j us) : i ≤ j := by
  have leads := (p (.clean i ts)).property
  rw [h] at leads
  obtain ⟨used, -, pos⟩ := leads.reads
  have : j = i + used.length := pos
  omega

/-- Where a step ends without faults, it ends at a place without faults. -/
theorem exists_reads {d : Cursor Sketch} {a : α} (h : (p (.clean i ts)).val = (a, d))
    (clean : d = .clean d.pos d.rest) : Reads p i ts a d.pos d.rest := by
  rw [clean] at h
  exact h

/-! ## Composition -/

@[simp] theorem reads_pure {a b : α} :
    Reads (pure a : Step Sketch α) i ts b j us ↔ b = a ∧ j = i ∧ us = ts := by
  constructor
  · intro h
    have h : (a, Cursor.clean i ts) = (b, Cursor.clean j us) := h
    simp only [Cursor.clean, Prod.mk.injEq, Cursor.mk.injEq, and_true] at h
    exact ⟨h.1.symm, h.2.1.symm, h.2.2.symm⟩
  · rintro ⟨rfl, rfl, rfl⟩
    rfl

/-- One step after the other reads without faults exactly if both do. -/
theorem reads_bind {b : β} :
    Reads (p >>= f) i ts b k vs ↔
      ∃ a j us, Reads p i ts a j us ∧ Reads (f a) j us b k vs := by
  constructor
  · intro h
    have value : ((f (p (.clean i ts)).val.1) (p (.clean i ts)).val.2).val
        = (b, Cursor.clean k vs) := h
    have leads := ((f (p (.clean i ts)).val.1) (p (.clean i ts)).val.2).property
    rw [value] at leads
    -- no fault at the end, so none in between
    have between := leads.eq_clean
    have first : Reads p i ts _ _ _ := exists_reads rfl between
    refine ⟨_, _, _, first, ?_⟩
    rw [Reads, ← between]
    exact value
  · rintro ⟨a, j, us, first, second⟩
    change ((f (p (.clean i ts)).val.1) (p (.clean i ts)).val.2).val = _
    rw [first]
    exact second

/-- What follows a step that is known to read. -/
theorem Reads.bind {a : α} {b : β} (h : Reads p i ts a j us) :
    Reads (p >>= f) i ts b k vs ↔ Reads (f a) j us b k vs := by
  rw [reads_bind]
  constructor
  · rintro ⟨a', j', us', first, second⟩
    rw [Reads, h] at first
    simp only [Cursor.clean, Prod.mk.injEq, Cursor.mk.injEq, and_true] at first
    obtain ⟨rfl, rfl, rfl⟩ := first
    exact second
  · intro second
    exact ⟨a, j, us, h, second⟩

@[simp] theorem reads_map {g : α → β} {b : β} :
    Reads (g <$> p) i ts b k vs ↔ ∃ a, Reads p i ts a k vs ∧ b = g a := by
  have unfolded : Reads (g <$> p) i ts b k vs ↔ Reads (p >>= fun a => pure (g a)) i ts b k vs :=
    Iff.rfl
  rw [unfolded, reads_bind]
  constructor
  · rintro ⟨a, j, us, first, second⟩
    obtain ⟨rfl, rfl, rfl⟩ := reads_pure.mp second
    exact ⟨a, first, rfl⟩
  · rintro ⟨a, first, rfl⟩
    exact ⟨a, k, vs, first, reads_pure.mpr ⟨rfl, rfl, rfl⟩⟩

/-- A repetition is its first round, and after it the repetition again if the round asks for one,
which must have read something then. -/
theorem reads_iterate {s a : σ} :
    Reads (iterate body s) i ts a k vs ↔
      ∃ s' again j us, Reads (body s) i ts (s', again) j us ∧
        if again = true then i < j ∧ Reads (iterate body s') j us a k vs
        else a = s' ∧ k = j ∧ vs = us := by
  constructor
  · intro h
    obtain ⟨⟨⟨s', again⟩, d⟩, first⟩ : ∃ r, (body s (.clean i ts)).val = r := ⟨_, rfl⟩
    rw [Reads, iterate_val, first] at h
    cases again with
    | false =>
      obtain ⟨state, place⟩ := Prod.mk.inj h
      dsimp only at place
      rw [place] at first
      exact ⟨s', false, k, vs, first, state.symm, rfl, rfl⟩
    | true =>
      by_cases go : i < d.pos
      · have go' : (true = true) ∧ (Cursor.clean i ts).pos < d.pos := ⟨rfl, go⟩
        rw [if_pos go'] at h
        -- no fault at the end, so none after the first round
        have leads := (iterate body s' d).property
        rw [h] at leads
        have between := leads.eq_clean
        refine ⟨s', true, d.pos, d.rest, exists_reads first between, go, ?_⟩
        rw [Reads, ← between]
        exact h
      · have stop : ¬((true = true) ∧ (Cursor.clean i ts).pos < d.pos) := fun h => go h.2
        rw [if_neg stop, if_pos rfl] at h
        exact absurd (congrArg (fun r => r.2.astray) h) (by simp [Cursor.stray, Cursor.clean])
  · rintro ⟨s', again, j, us, first, rest⟩
    rw [Reads, iterate_val, first]
    cases again with
    | false =>
      obtain ⟨rfl, rfl, rfl⟩ := rest
      rfl
    | true =>
      have go : (true = true) ∧ (Cursor.clean i ts).pos < (Cursor.clean j us).pos := ⟨rfl, rest.1⟩
      rw [if_pos go]
      exact rest.2

/-- A round that asks for another one and has read something is followed by the repetition. -/
theorem Reads.again {s s' a : σ} (round : Reads (body s) i ts (s', true) j us) (moved : i < j)
    (rest : Reads (iterate body s') j us a k vs) : Reads (iterate body s) i ts a k vs := by
  exact reads_iterate.mpr ⟨s', true, j, us, round, moved, rest⟩

/-- A round that asks for no other one is the last. -/
theorem Reads.last {s s' : σ} (round : Reads (body s) i ts (s', false) j us) :
    Reads (iterate body s) i ts s' j us :=
  reads_iterate.mpr ⟨s', false, j, us, round, by simp⟩

/-- What holds of the last round and passes from each round to the one before holds of the whole
repetition. -/
theorem Reads.iterate_induction {a : σ} {P : σ → Nat → List Token → Prop}
    (last : ∀ s i ts again, Reads (body s) i ts (a, again) k vs → ¬(again = true ∧ i < k) →
      P s i ts)
    (next : ∀ s i ts s' j us, Reads (body s) i ts (s', true) j us → i < j → P s' j us → P s i ts)
    {s : σ} (h : Reads (iterate body s) i ts a k vs) : P s i ts := by
  induction size : ts.length using Nat.strongRecOn generalizing s i ts with
  | ind n ih =>
    obtain ⟨s', again, j, us, first, rest⟩ := reads_iterate.mp h
    cases again with
    | true =>
      obtain ⟨advanced, rest⟩ := rest
      have shorter : us.length < n := by
        have := first.add_length
        omega
      exact next s i ts s' j us first advanced (ih us.length shorter rest rfl)
    | false =>
      obtain ⟨rfl, rfl, rfl⟩ := rest
      exact last s i ts false first (by simp)

/-! ## Looking ahead -/

@[simp] theorem reads_position {n : Nat} :
    Reads position i ts n j us ↔ n = i ∧ j = i ∧ us = ts := by
  simp only [Reads, position, Cursor.clean, Prod.mk.injEq, Cursor.mk.injEq, and_true]
  constructor <;> rintro ⟨rfl, rfl, rfl⟩ <;> exact ⟨rfl, rfl, rfl⟩

@[simp] theorem reads_here {m : Nat} :
    Reads here i ts m j us ↔ m = Mark.start i ∧ j = i ∧ us = ts := by
  simp only [Reads, here, Cursor.clean, Prod.mk.injEq, Cursor.mk.injEq, and_true]
  constructor <;> rintro ⟨rfl, rfl, rfl⟩ <;> exact ⟨rfl, rfl, rfl⟩

@[simp] theorem reads_peek {x : Option Token} :
    Reads peek i ts x j us ↔ x = ts.head? ∧ j = i ∧ us = ts := by
  simp only [Reads, peek, Cursor.clean, Prod.mk.injEq, Cursor.mk.injEq, and_true]
  constructor <;> rintro ⟨rfl, rfl, rfl⟩ <;> exact ⟨rfl, rfl, rfl⟩

@[simp] theorem reads_peekSecond {x : Option Token} :
    Reads peekSecond i ts x j us ↔ x = ts.tail.head? ∧ j = i ∧ us = ts := by
  simp only [Reads, peekSecond, Cursor.clean, Prod.mk.injEq, Cursor.mk.injEq, and_true]
  constructor <;> rintro ⟨rfl, rfl, rfl⟩ <;> exact ⟨rfl, rfl, rfl⟩

@[simp] theorem reads_at? {b : Bool} :
    Reads (at? t) i ts b j us ↔ b = (ts.head? == some t) ∧ j = i ∧ us = ts := by
  simp only [Reads, at?, Cursor.clean, Prod.mk.injEq, Cursor.mk.injEq, and_true]
  constructor <;> rintro ⟨rfl, rfl, rfl⟩ <;> exact ⟨rfl, rfl, rfl⟩

@[simp] theorem reads_atEnd {b : Bool} :
    Reads atEnd i ts b j us ↔ b = ts.isEmpty ∧ j = i ∧ us = ts := by
  simp only [Reads, atEnd, Cursor.clean, Prod.mk.injEq, Cursor.mk.injEq, and_true]
  constructor <;> rintro ⟨rfl, rfl, rfl⟩ <;> exact ⟨rfl, rfl, rfl⟩

@[simp] theorem reads_blockEnds {b : Bool} :
    Reads blockEnds i ts b j us ↔ b = (ts.head?.all Token.endsBlock) ∧ j = i ∧ us = ts := by
  cases ts with
  | nil =>
    simp only [Reads, blockEnds, Cursor.clean, Prod.mk.injEq, Cursor.mk.injEq, and_true,
      List.head?_nil, Option.all_none]
    constructor <;> rintro ⟨rfl, rfl, rfl⟩ <;> exact ⟨rfl, rfl, rfl⟩
  | cons t ts =>
    simp only [Reads, blockEnds, Cursor.clean, Prod.mk.injEq, Cursor.mk.injEq, and_true,
      List.head?_cons, Option.all_some]
    constructor <;> rintro ⟨rfl, rfl, rfl⟩ <;> exact ⟨rfl, rfl, rfl⟩

/-! ## Reading tokens -/

@[simp] theorem reads_bump_cons {u : Unit} :
    Reads bump i (t :: ts) u j us ↔ j = i + 1 ∧ us = ts := by
  simp only [Reads, bump, Cursor.clean, Prod.mk.injEq, Cursor.mk.injEq, and_true, true_and]
  constructor <;> rintro ⟨rfl, rfl⟩ <;> exact ⟨rfl, rfl⟩

/-- A fault is a fault. -/
@[simp] theorem not_reads_refuse {u : Unit} : ¬Reads (refuse e) i ts u j us := by
  intro h
  have faults := congrArg (fun r => r.2.faults) h
  simp [refuse, report, Cursor.clean] at faults

@[simp] theorem not_reads_cutOff {o : Outline} : ¬Reads cutOff i ts o j us := by
  intro h
  rw [Reads, cutOff_val] at h
  have faults := congrArg (fun r => r.2.faults) h
  simp [drop, Cursor.clean] at faults

@[simp] theorem reads_accept {b : Bool} :
    Reads (accept t) i ts b j us ↔
      (b = true ∧ ts = t :: us ∧ j = i + 1)
        ∨ (b = false ∧ ts.head? ≠ some t ∧ j = i ∧ us = ts) := by
  simp only [accept, reads_bind, reads_at?]
  constructor
  · rintro ⟨b', j', us', ⟨looked, at_place, ahead⟩, rest⟩
    rw [looked, at_place, ahead] at rest
    cases ts with
    | nil =>
      simp only [List.head?_nil, Option.none_beq_some, Bool.false_eq_true, if_false] at rest
      obtain ⟨rfl, rfl, rfl⟩ := reads_pure.mp rest
      exact .inr ⟨rfl, by simp, rfl, rfl⟩
    | cons s ts =>
      by_cases same : s = t
      · subst same
        simp only [List.head?_cons, beq_self_eq_true, if_true, reads_bind, reads_bump_cons,
          reads_pure] at rest
        obtain ⟨_, _, _, ⟨rfl, rfl⟩, rfl, rfl, rfl⟩ := rest
        exact .inl ⟨rfl, rfl, rfl⟩
      · have differs : (List.head? (s :: ts) == some t) = false := by simp [same]
        rw [differs] at rest
        obtain ⟨rfl, rfl, rfl⟩ := reads_pure.mp rest
        exact .inr ⟨rfl, by simp [same], rfl, rfl⟩
  · rintro (⟨rfl, rfl, rfl⟩ | ⟨rfl, other, rfl, rfl⟩)
    · refine ⟨true, i, t :: us, ⟨by simp, rfl, rfl⟩, ?_⟩
      simp [reads_bind]
    · refine ⟨false, j, us, ⟨by simpa using other, rfl, rfl⟩, ?_⟩
      simp

@[simp] theorem reads_expect {u : Unit} :
    Reads (expect t e) i ts u j us ↔ ts = t :: us ∧ j = i + 1 := by
  simp only [expect, reads_bind, reads_accept]
  constructor
  · rintro ⟨_, _, _, ⟨rfl, rfl, rfl⟩ | ⟨rfl, other, rfl, rfl⟩, rest⟩
    · simp only [if_true, reads_pure] at rest
      obtain ⟨-, rfl, rfl⟩ := rest
      exact ⟨rfl, rfl⟩
    · simp at rest
  · rintro ⟨rfl, rfl⟩
    exact ⟨true, i + 1, us, .inl ⟨rfl, rfl, rfl⟩, by simp⟩

@[simp] theorem reads_leaf_cons {kind : NodeKind} {o : Outline} :
    Reads (leaf kind) i (t :: ts) o j us ↔ o = .leaf kind i ∧ j = i + 1 ∧ us = ts := by
  simp only [leaf_eq, reads_bind, reads_position, reads_pure]
  constructor
  · rintro ⟨_, _, _, ⟨rfl, rfl, rfl⟩, _, _, _, bumped, rfl, rfl, rfl⟩
    obtain ⟨rfl, rfl⟩ := reads_bump_cons.mp bumped
    exact ⟨rfl, rfl, rfl⟩
  · rintro ⟨rfl, rfl, rfl⟩
    exact ⟨i, i, t :: us, ⟨rfl, rfl, rfl⟩, (), i + 1, us, reads_bump_cons.mpr ⟨rfl, rfl⟩,
      rfl, rfl, rfl⟩

@[simp] theorem reads_leafOf? {kind : NodeKind} {o : Option Outline} :
    Reads (leafOf? t kind e) i ts o j us ↔
      ts = t :: us ∧ o = some (.leaf kind i) ∧ j = i + 1 := by
  simp only [leafOf?, reads_bind, reads_at?]
  constructor
  · rintro ⟨b', j', us', ⟨looked, at_place, ahead⟩, rest⟩
    rw [looked, at_place, ahead] at rest
    split at rest
    · next found =>
      obtain ⟨ts, rfl⟩ : ∃ rest, ts = t :: rest := by
        cases ts with
        | nil => simp at found
        | cons s ts =>
          have same : s = t := by simpa using found
          exact ⟨ts, by rw [same]⟩
      simp only [reads_bind, reads_leaf_cons, reads_pure] at rest
      obtain ⟨_, _, _, ⟨rfl, rfl, rfl⟩, rfl, rfl, rfl⟩ := rest
      exact ⟨rfl, rfl, rfl⟩
    · simp [reads_bind] at rest
  · rintro ⟨rfl, rfl, rfl⟩
    refine ⟨true, i, t :: us, ⟨by simp, rfl, rfl⟩, ?_⟩
    simp only [if_true, reads_bind, reads_leaf_cons, reads_pure]
    exact ⟨_, _, _, ⟨rfl, rfl, rfl⟩, rfl, rfl, rfl⟩

@[simp] theorem reads_finish {kind : NodeKind} {first : Nat} {children : List Outline}
    {o : Outline} :
    Reads (finish kind first children) i ts o j us ↔
      o = .node kind first (max (Mark.stopBefore i) first) children ∧ j = i ∧ us = ts := by
  simp only [Reads, finish_eq, Cursor.clean, Prod.mk.injEq, Cursor.mk.injEq, and_true]
  constructor <;> rintro ⟨rfl, rfl, rfl⟩ <;> exact ⟨rfl, rfl, rfl⟩

@[simp] theorem reads_wrap {kind : NodeKind} {children : List Outline} {mark : Nat} {o : Outline} :
    Reads (wrap kind children mark) i ts o j us ↔
      o = .wrap kind children mark ∧ j = i ∧ us = ts := by
  rw [wrap_eq, reads_pure]

@[simp] theorem reads_valueOf {x o : Outline} :
    Reads (Grammar.valueOf x) i ts o j us ↔ o = x.value ∧ j = i ∧ us = ts := by
  rw [valueOf_eq, reads_pure]

@[simp] theorem reads_join {kind : NodeKind} {x y o : Outline} {children : List Outline} :
    Reads (join kind x y children) i ts o j us ↔
      o = .join kind x y children ∧ j = i ∧ us = ts := by
  rw [join_eq, reads_pure]

/-! ## What follows a single step

With these a production is run on the tokens ahead as far as they are known.
-/

variable {b : β}

@[simp] theorem reads_pure_bind {a : α} :
    Reads (pure a >>= f) i ts b k vs ↔ Reads (f a) i ts b k vs :=
  Reads.bind (reads_pure.mpr ⟨rfl, rfl, rfl⟩)

theorem reads_map_bind {γ : Type} {g : γ → α} {q : Step Sketch γ} :
    Reads (g <$> q >>= f) i ts b k vs ↔
      ∃ a j us, Reads q i ts a j us ∧ Reads (f (g a)) j us b k vs := by
  rw [reads_bind]
  constructor
  · rintro ⟨_, j, us, first, rest⟩
    obtain ⟨a, read, rfl⟩ := reads_map.mp first
    exact ⟨a, j, us, read, rest⟩
  · rintro ⟨a, j, us, first, rest⟩
    exact ⟨g a, j, us, reads_map.mpr ⟨a, first, rfl⟩, rest⟩

@[simp] theorem reads_position_bind {f : Nat → Step Sketch β} :
    Reads (position >>= f) i ts b k vs ↔ Reads (f i) i ts b k vs :=
  Reads.bind (reads_position.mpr ⟨rfl, rfl, rfl⟩)

@[simp] theorem reads_here_bind {f : Nat → Step Sketch β} :
    Reads (here >>= f) i ts b k vs ↔ Reads (f (Mark.start i)) i ts b k vs :=
  Reads.bind (reads_here.mpr ⟨rfl, rfl, rfl⟩)

@[simp] theorem reads_peek_bind {f : Option Token → Step Sketch β} :
    Reads (peek >>= f) i ts b k vs ↔ Reads (f ts.head?) i ts b k vs :=
  Reads.bind (reads_peek.mpr ⟨rfl, rfl, rfl⟩)

@[simp] theorem reads_peekSecond_bind {f : Option Token → Step Sketch β} :
    Reads (peekSecond >>= f) i ts b k vs ↔ Reads (f ts.tail.head?) i ts b k vs :=
  Reads.bind (reads_peekSecond.mpr ⟨rfl, rfl, rfl⟩)

@[simp] theorem reads_at?_bind {f : Bool → Step Sketch β} :
    Reads (at? t >>= f) i ts b k vs ↔ Reads (f (ts.head? == some t)) i ts b k vs :=
  Reads.bind (reads_at?.mpr ⟨rfl, rfl, rfl⟩)

@[simp] theorem reads_atEnd_bind {f : Bool → Step Sketch β} :
    Reads (atEnd >>= f) i ts b k vs ↔ Reads (f ts.isEmpty) i ts b k vs :=
  Reads.bind (reads_atEnd.mpr ⟨rfl, rfl, rfl⟩)

@[simp] theorem reads_blockEnds_bind {f : Bool → Step Sketch β} :
    Reads (blockEnds >>= f) i ts b k vs ↔
      Reads (f (ts.head?.all Token.endsBlock)) i ts b k vs :=
  Reads.bind (reads_blockEnds.mpr ⟨rfl, rfl, rfl⟩)

@[simp] theorem reads_bump_bind {f : Unit → Step Sketch β} :
    Reads (bump >>= f) i (t :: ts) b k vs ↔ Reads (f ()) (i + 1) ts b k vs :=
  Reads.bind (a := ()) (reads_bump_cons.mpr ⟨rfl, rfl⟩)

@[simp] theorem reads_leaf_bind {kind : NodeKind} {f : Outline → Step Sketch β} :
    Reads (leaf kind >>= f) i (t :: ts) b k vs ↔ Reads (f (.leaf kind i)) (i + 1) ts b k vs :=
  Reads.bind (reads_leaf_cons.mpr ⟨rfl, rfl, rfl⟩)

@[simp] theorem reads_finish_bind {kind : NodeKind} {first : Nat} {children : List Outline}
    {f : Outline → Step Sketch β} :
    Reads (finish kind first children >>= f) i ts b k vs ↔
      Reads (f (.node kind first (max (Mark.stopBefore i) first) children)) i ts b k vs :=
  Reads.bind (reads_finish.mpr ⟨rfl, rfl, rfl⟩)

@[simp] theorem reads_wrap_bind {kind : NodeKind} {children : List Outline} {mark : Nat}
    {f : Outline → Step Sketch β} :
    Reads (wrap kind children mark >>= f) i ts b k vs ↔
      Reads (f (.wrap kind children mark)) i ts b k vs :=
  Reads.bind (reads_wrap.mpr ⟨rfl, rfl, rfl⟩)

@[simp] theorem reads_valueOf_bind {o : Outline} {f : Outline → Step Sketch β} :
    Reads (Grammar.valueOf o >>= f) i ts b k vs ↔ Reads (f o.value) i ts b k vs :=
  Reads.bind (reads_valueOf.mpr ⟨rfl, rfl, rfl⟩)

@[simp] theorem reads_join_bind {kind : NodeKind} {x y : Outline} {children : List Outline}
    {f : Outline → Step Sketch β} :
    Reads (join kind x y children >>= f) i ts b k vs ↔
      Reads (f (.join kind x y children)) i ts b k vs :=
  Reads.bind (reads_join.mpr ⟨rfl, rfl, rfl⟩)

@[simp] theorem reads_startOf_bind {o : Outline} {f : Nat → Step Sketch β} :
    Reads (startOf o >>= f) i ts b k vs ↔ Reads (f o.first) i ts b k vs := Iff.rfl

@[simp] theorem reads_kindOf_bind {o : Outline} {f : NodeKind → Step Sketch β} :
    Reads (kindOf o >>= f) i ts b k vs ↔ Reads (f o.kind) i ts b k vs := Iff.rfl

@[simp] theorem reads_doc_bind {f : Nat × List Outline → Step Sketch β} :
    Reads (doc >>= f) i ts b k vs ↔ Reads (f (Mark.doc i, [.doc i])) i ts b k vs := Iff.rfl

@[simp] theorem not_reads_refuse_bind {f : Unit → Step Sketch β} :
    ¬Reads (refuse e >>= f) i ts b k vs := by
  intro h
  obtain ⟨_, _, _, first, -⟩ := reads_bind.mp h
  exact not_reads_refuse first

@[simp] theorem reads_expect_bind {f : Unit → Step Sketch β} :
    Reads (expect t e >>= f) i ts b k vs ↔
      ∃ us, ts = t :: us ∧ Reads (f ()) (i + 1) us b k vs := by
  rw [reads_bind]
  constructor
  · rintro ⟨_, _, us, first, rest⟩
    obtain ⟨rfl, rfl⟩ := reads_expect.mp first
    exact ⟨us, rfl, rest⟩
  · rintro ⟨us, rfl, rest⟩
    exact ⟨(), i + 1, us, reads_expect.mpr ⟨rfl, rfl⟩, rest⟩

@[simp] theorem reads_leafOf?_bind {kind : NodeKind} {f : Option Outline → Step Sketch β} :
    Reads (leafOf? t kind e >>= f) i ts b k vs ↔
      ∃ us, ts = t :: us ∧ Reads (f (some (.leaf kind i))) (i + 1) us b k vs := by
  rw [reads_bind]
  constructor
  · rintro ⟨_, _, us, first, rest⟩
    obtain ⟨rfl, rfl, rfl⟩ := reads_leafOf?.mp first
    exact ⟨us, rfl, rest⟩
  · rintro ⟨us, rfl, rest⟩
    exact ⟨_, i + 1, us, reads_leafOf?.mpr ⟨rfl, rfl, rfl⟩, rest⟩

theorem reads_accept_bind {f : Bool → Step Sketch β} :
    Reads (accept t >>= f) i ts b k vs ↔
      (∃ us, ts = t :: us ∧ Reads (f true) (i + 1) us b k vs) ∨
        (ts.head? ≠ some t ∧ Reads (f false) i ts b k vs) := by
  rw [reads_bind]
  constructor
  · rintro ⟨_, _, us, first, rest⟩
    obtain ⟨rfl, rfl, rfl⟩ | ⟨rfl, other, rfl, rfl⟩ := reads_accept.mp first
    · exact .inl ⟨us, rfl, rest⟩
    · exact .inr ⟨other, rest⟩
  · rintro (⟨us, rfl, rest⟩ | ⟨other, rest⟩)
    · exact ⟨true, i + 1, us, reads_accept.mpr (.inl ⟨rfl, rfl, rfl⟩), rest⟩
    · exact ⟨false, i, ts, reads_accept.mpr (.inr ⟨rfl, other, rfl, rfl⟩), rest⟩

/-- The next token is accepted if it is the right one. -/
@[simp] theorem reads_accept_bind_self {f : Bool → Step Sketch β} :
    Reads (accept t >>= f) i (t :: ts) b k vs ↔ Reads (f true) (i + 1) ts b k vs :=
  Reads.bind (reads_accept.mpr (.inl ⟨rfl, rfl, rfl⟩))

/-- Any other token is left. -/
theorem reads_accept_bind_other {f : Bool → Step Sketch β} (other : ts.head? ≠ some t) :
    Reads (accept t >>= f) i ts b k vs ↔ Reads (f false) i ts b k vs :=
  Reads.bind (reads_accept.mpr (.inr ⟨rfl, other, rfl, rfl⟩))

end Step

end LuaTyping
