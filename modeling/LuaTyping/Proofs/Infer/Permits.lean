import LuaTyping.Infer.Permits
import LuaTyping.Proofs.Infer.Run

/-!
# Permits given back in any order

A guard keeps a set and two counters, and it changes them apart from each other: a refusal may come
between two of the changes, and what was begun first may end first.  Still the three always say the
same, namely which permits are held.

A permit given back out of order takes away a registration somewhere in the middle, so the order of
the registrations is lost, and only what does not depend on it can be carried along: the registered
computations are a permutation of those with a permit, none of them occurs twice, and the counters
are the numbers of permits.

* `Permits.Balanced`: what guard and permits say of each other.
* `Permits.Balanced.move`, `Permits.balanced_after`: it stays so, move by move.
* `Permits.guard_counts_permits`: what the guard holds and answers after any moves.
-/

namespace LuaTyping

namespace Permits

/-! ## Moves -/

/-- What may be asked for, and what may be given back. -/
inductive Move
  | enter (key : GuardKey) (max : Nat)
  | descend (limit : Nat)
  | release (permit : Nat)
  | ascend (permit : Nat)

/-- A permit is given back. -/
def Move.GivesBack : Move → Prop
  | .release _ | .ascend _ => True
  | .enter .. | .descend _ => False

/-- What is held after a move.  With a refusal there is no new permit, and the guard is the one that
is handed back with it. -/
def move (p : Permits) : Move → Permits
  | .enter key max =>
    match p.guard.enter key max with
    | .ok () g => { p with guard := g, computations := p.computations ++ [some key] }
    | .error _ g => { p with guard := g }
  | .descend limit =>
    match p.guard.descend limit with
    | .ok () g => { p with guard := g, descents := p.descents ++ [true] }
    | .error _ g => { p with guard := g }
  | .release permit => (p.release permit).2
  | .ascend permit => (p.ascend permit).2

/-- What is held after moves, one after the other, when nothing was held before. -/
def after (moves : List Move) : Permits := moves.foldl move {}

/-- The permit to compute is held, and it is for the computation. -/
def Holds (p : Permits) (permit : Nat) (key : GuardKey) : Prop :=
  p.computations[permit]? = some (some key)

/-- The permit to descend is held. -/
def Descended (p : Permits) (permit : Nat) : Prop := p.descents[permit]? = some true

/-- The computations with a permit. -/
def held (p : Permits) : List GuardKey := p.computations.filterMap id

/-- The number of permits to descend. -/
def descended (p : Permits) : Nat := p.descents.count true

/-- The guard says which permits are held. -/
structure Balanced (p : Permits) : Prop where
  active_perm : p.guard.active.Perm p.held
  held_nodup : p.held.Nodup
  depth_eq : p.guard.depth = p.held.length
  nesting_eq : p.guard.nesting = p.descended

variable {p q : Permits} {key : GuardKey} {permit max limit : Nat}

/-! ## Single moves -/

theorem enter_eq_ok_iff :
    p.enter key max = .ok (permit, q) ↔
      p.guard.depth < max ∧ key ∉ p.guard.active ∧ permit = p.computations.length ∧
        q = { p with
          guard := { p.guard with active := key :: p.guard.active, depth := p.guard.depth + 1 }
          computations := p.computations ++ [some key] } := by
  unfold enter
  cases entered : p.guard.enter key max with
  | error b g =>
    have refused : ¬ (p.guard.depth < max ∧ key ∉ p.guard.active) := by
      rintro ⟨below, new⟩
      rw [Guard.enter_of_not_mem below new] at entered
      cases entered
    simp only [reduceCtorEq, false_iff]
    tauto
  | ok _ g =>
    obtain ⟨below, new, rfl⟩ := Guard.enter_eq_ok_iff.mp entered
    simp only [Except.ok.injEq, Prod.mk.injEq]
    constructor
    · rintro ⟨rfl, rfl⟩
      exact ⟨below, new, rfl, rfl⟩
    · rintro ⟨-, -, rfl, rfl⟩
      exact ⟨rfl, rfl⟩

theorem descend_eq_ok_iff :
    p.descend limit = .ok (permit, q) ↔
      p.guard.nesting < limit ∧ permit = p.descents.length ∧
        q = { p with
          guard := { p.guard with nesting := p.guard.nesting + 1 }
          descents := p.descents ++ [true] } := by
  unfold descend
  cases descended : p.guard.descend limit with
  | error b g =>
    have refused : ¬ p.guard.nesting < limit := by
      intro below
      rw [Guard.descend_of_lt below] at descended
      cases descended
    simp only [reduceCtorEq, false_iff]
    tauto
  | ok _ g =>
    obtain ⟨below, rfl⟩ := Guard.descend_eq_ok_iff.mp descended
    simp only [Except.ok.injEq, Prod.mk.injEq]
    constructor
    · rintro ⟨rfl, rfl⟩
      exact ⟨below, rfl, rfl⟩
    · rintro ⟨-, rfl, rfl⟩
      exact ⟨rfl, rfl⟩

/-- Permits are refused as the guard refuses. -/
theorem enter_eq_error_iff {b : Blocked} :
    p.enter key max = .error b ↔
      (b = .tooDeep ∧ max ≤ p.guard.depth)
        ∨ (b = .cycle ∧ p.guard.depth < max ∧ key ∈ p.guard.active) := by
  have handed : p.enter key max = .error b ↔ p.guard.enter key max = .error b p.guard := by
    unfold enter
    cases entered : p.guard.enter key max with
    | ok _ g => simp
    | error b' g => simp [Guard.eq_of_enter_eq_error entered]
  rw [handed, Guard.enter_eq_error_iff, and_iff_left rfl]

theorem descend_eq_error_iff {b : Blocked} :
    p.descend limit = .error b ↔ b = .tooDeep ∧ limit ≤ p.guard.nesting := by
  have handed : p.descend limit = .error b ↔ p.guard.descend limit = .error b p.guard := by
    unfold descend
    cases descended : p.guard.descend limit with
    | ok _ g => simp
    | error b' g => simp [Guard.eq_of_descend_eq_error descended]
  rw [handed, Guard.descend_eq_error_iff, and_iff_left rfl]

/-- Who is let in holds what was held before, and the new permit. -/
theorem move_enter (entered : p.enter key max = .ok (permit, q)) :
    p.move (.enter key max) = q := by
  obtain ⟨below, new, -, rfl⟩ := enter_eq_ok_iff.mp entered
  rw [move, Guard.enter_of_not_mem below new]

theorem move_descend (descended : p.descend limit = .ok (permit, q)) :
    p.move (.descend limit) = q := by
  obtain ⟨below, -, rfl⟩ := descend_eq_ok_iff.mp descended
  rw [move, Guard.descend_of_lt below]

/-- A refusal changes nothing, since the guard that is handed back with it is the one there was. -/
theorem move_enter_of_error {b : Blocked} (refused : p.enter key max = .error b) :
    p.move (.enter key max) = p := by
  have handed := Guard.enter_eq_error_iff.mpr ⟨enter_eq_error_iff.mp refused, rfl⟩
  rw [move, handed]

theorem move_descend_of_error {b : Blocked} (refused : p.descend limit = .error b) :
    p.move (.descend limit) = p := by
  have handed := Guard.descend_eq_error_iff.mpr ⟨descend_eq_error_iff.mp refused, rfl⟩
  rw [move, handed]

/-- Who holds the permit ends the computation. -/
theorem move_release (h : p.Holds permit key) :
    p.move (.release permit) = { p with
      guard := p.guard.release key
      computations := p.computations.set permit none } := by
  rw [Holds] at h
  simp only [move, release, h]

/-- Who does not hold the permit changes nothing. -/
theorem move_release_of_not (h : ∀ key, ¬ p.Holds permit key) : p.move (.release permit) = p := by
  simp only [move, release]
  split
  · exact absurd ‹_› (h _)
  · rfl

theorem move_ascend (h : p.Descended permit) :
    p.move (.ascend permit) = { p with
      guard := p.guard.ascend
      descents := p.descents.set permit false } := by
  rw [Descended] at h
  simp only [move, ascend, h]

theorem move_ascend_of_not (h : ¬ p.Descended permit) : p.move (.ascend permit) = p := by
  simp only [move, ascend]
  split
  · exact absurd ‹_› h
  · rfl

/-! ## What is held -/

theorem mem_held : key ∈ p.held ↔ ∃ permit, p.Holds permit key := by
  rw [held, List.mem_filterMap]
  constructor
  · rintro ⟨_, mem, rfl⟩
    exact List.mem_iff_getElem?.mp mem
  · rintro ⟨permit, holds⟩
    exact ⟨some key, List.mem_of_getElem? holds, rfl⟩

/-- A permit given back takes its computation away, wherever it stands. -/
theorem perm_filterMap_set_none {α : Type} {l : List (Option α)} {i : Nat} {a : α}
    (h : l[i]? = some (some a)) :
    (l.filterMap id).Perm (a :: (l.set i none).filterMap id) := by
  induction l generalizing i with
  | nil => simp at h
  | cons o l ih =>
    cases i with
    | zero =>
      obtain rfl : o = some a := by simpa using h
      exact List.Perm.refl _
    | succ i =>
      have rest := ih (i := i) (by simpa using h)
      cases o with
      | none => simpa using rest
      | some b => simpa using (rest.cons b).trans (List.Perm.swap a b _)

theorem held_enter (entered : p.enter key max = .ok (permit, q)) : q.held = p.held ++ [key] := by
  obtain ⟨-, -, -, rfl⟩ := enter_eq_ok_iff.mp entered
  simp [held]

theorem held_release (h : p.Holds permit key) :
    p.held.Perm (key :: (p.move (.release permit)).held) := by
  rw [move_release h]
  exact perm_filterMap_set_none h

theorem descended_ascend (h : p.Descended permit) :
    (p.move (.ascend permit)).descended + 1 = p.descended := by
  obtain ⟨inside, found⟩ := List.getElem?_eq_some_iff.mp h
  have some : 0 < p.descents.count true := List.count_pos_iff.mpr (found ▸ List.getElem_mem inside)
  rw [move_ascend h]
  simp only [descended, List.count_set inside, found]
  simp
  omega

/-- A computation has one permit at most. -/
theorem holds_unique {permit' : Nat} (nodup : p.held.Nodup) (h : p.Holds permit key)
    (h' : p.Holds permit' key) : permit = permit' := by
  by_contra ne
  have other : (p.move (.release permit)).Holds permit' key := by
    rw [move_release h, Holds, List.getElem?_set_ne ne]
    exact h'
  have distinct := (held_release h).nodup_iff.mp nodup
  exact (List.nodup_cons.mp distinct).1 (mem_held.mpr ⟨_, other⟩)

/-! ## Balance -/

namespace Balanced

theorem start : Balanced {} :=
  ⟨List.Perm.refl _, List.nodup_nil, rfl, rfl⟩

theorem mem_active (h : p.Balanced) : key ∈ p.guard.active ↔ ∃ permit, p.Holds permit key :=
  h.active_perm.mem_iff.trans mem_held

theorem enter (h : p.Balanced) (entered : p.enter key max = .ok (permit, q)) : q.Balanced := by
  have held := held_enter entered
  obtain ⟨-, new, -, rfl⟩ := enter_eq_ok_iff.mp entered
  refine ⟨?_, ?_, ?_, h.nesting_eq⟩
  · rw [held]
    exact (h.active_perm.cons key).trans (List.perm_append_singleton _ _).symm
  · rw [held, (List.perm_append_singleton _ _).nodup_iff, List.nodup_cons]
    exact ⟨fun mem => new (h.active_perm.mem_iff.mpr mem), h.held_nodup⟩
  · rw [held, List.length_append, List.length_singleton]
    exact congrArg (· + 1) h.depth_eq

theorem descend (h : p.Balanced) (descended : p.descend limit = .ok (permit, q)) :
    q.Balanced := by
  obtain ⟨-, -, rfl⟩ := descend_eq_ok_iff.mp descended
  refine ⟨h.active_perm, h.held_nodup, h.depth_eq, ?_⟩
  have nesting := h.nesting_eq
  simp only [Permits.descended, List.count_append] at nesting ⊢
  rw [nesting]
  rfl

/-- Each release takes one from the depth. -/
theorem depth_release (h : p.Balanced) (holds : p.Holds permit key) :
    (p.move (.release permit)).guard.depth + 1 = p.guard.depth := by
  have less := (held_release holds).length_eq
  have depth := h.depth_eq
  rw [List.length_cons] at less
  rw [move_release holds]
  simp only [Guard.release]
  omega

theorem release (h : p.Balanced) (holds : p.Holds permit key) :
    (p.move (.release permit)).Balanced := by
  have held := held_release holds
  have depth := h.depth_release holds
  refine ⟨?_, ?_, ?_, ?_⟩
  · have active : (p.move (.release permit)).guard.active = p.guard.active.erase key := by
      rw [move_release holds, Guard.release]
    rw [active]
    have erased := (h.active_perm.trans held).erase key
    rwa [List.erase_cons_head] at erased
  · exact (List.nodup_cons.mp (held.nodup_iff.mp h.held_nodup)).2
  · have less := held.length_eq
    have depth_eq := h.depth_eq
    rw [List.length_cons] at less
    omega
  · rw [move_release holds]
    exact h.nesting_eq

/-- Each ascent takes one from the nesting. -/
theorem nesting_ascend (h : p.Balanced) (descended : p.Descended permit) :
    (p.move (.ascend permit)).guard.nesting + 1 = p.guard.nesting := by
  have less := descended_ascend descended
  have nesting := h.nesting_eq
  rw [move_ascend descended]
  simp only [Guard.ascend]
  omega

theorem ascend (h : p.Balanced) (descended : p.Descended permit) :
    (p.move (.ascend permit)).Balanced := by
  have less := descended_ascend descended
  have nesting := h.nesting_ascend descended
  have nesting_eq := h.nesting_eq
  refine ⟨?_, ?_, ?_, by omega⟩
  · rw [move_ascend descended]
    exact h.active_perm
  · rw [move_ascend descended]
    exact h.held_nodup
  · rw [move_ascend descended]
    exact h.depth_eq

/-- One move keeps the balance. -/
theorem move (h : p.Balanced) (m : Move) : (p.move m).Balanced := by
  cases m with
  | enter key max =>
    cases entered : p.enter key max with
    | ok handed =>
      rw [move_enter entered]
      exact h.enter entered
    | error b => rwa [move_enter_of_error entered]
  | descend limit =>
    cases descended : p.descend limit with
    | ok handed =>
      rw [move_descend descended]
      exact h.descend descended
    | error b => rwa [move_descend_of_error descended]
  | release permit =>
    by_cases holds : ∃ key, p.Holds permit key
    · obtain ⟨key, holds⟩ := holds
      exact h.release holds
    · rwa [move_release_of_not fun key held => holds ⟨key, held⟩]
  | ascend permit =>
    by_cases descended : p.Descended permit
    · exact h.ascend descended
    · rwa [move_ascend_of_not descended]

/-- Without permits the guard is a new one. -/
theorem guard_eq (h : p.Balanced) (none : ∀ permit key, ¬ p.Holds permit key)
    (none' : ∀ permit, ¬ p.Descended permit) : p.guard = {} := by
  have held : p.held = [] :=
    List.eq_nil_iff_forall_not_mem.mpr fun key mem =>
      have ⟨permit, holds⟩ := mem_held.mp mem
      none permit key holds
  have active : p.guard.active = [] := List.perm_nil.mp (held ▸ h.active_perm)
  have depth : p.guard.depth = 0 := by rw [h.depth_eq, held, List.length_nil]
  have nesting : p.guard.nesting = 0 := by
    rw [h.nesting_eq, Permits.descended, List.count_eq_zero]
    intro mem
    obtain ⟨permit, found⟩ := List.mem_iff_getElem?.mp mem
    exact none' permit found
  cases guard : p.guard
  rw [guard] at active depth nesting
  dsimp only at active depth nesting
  rw [active, depth, nesting]

end Balanced

/-! ## Many moves -/

/-- Whatever was asked for and given back, guard and permits are in balance. -/
theorem balanced_after (moves : List Move) : (after moves).Balanced := by
  unfold after
  suffices keep : ∀ p : Permits, p.Balanced → (moves.foldl move p).Balanced from keep _ .start
  induction moves with
  | nil => exact fun p h => h
  | cons m ms ih => exact fun p h => ih _ (h.move m)

/-- One move keeps the depth within the limit that it comes with. -/
theorem depth_move_le (within : p.guard.depth ≤ max) (m : Move)
    (limited : ∀ key max', m = .enter key max' → max' = max) : (p.move m).guard.depth ≤ max := by
  cases m with
  | enter key max' =>
    obtain rfl := limited key max' rfl
    cases entered : p.enter key max' with
    | ok handed =>
      obtain ⟨permit, q⟩ := handed
      rw [move_enter entered]
      obtain ⟨below, -, -, rfl⟩ := enter_eq_ok_iff.mp entered
      exact below
    | error b => rwa [move_enter_of_error entered]
  | descend limit =>
    cases descended : p.descend limit with
    | ok handed =>
      obtain ⟨permit, q⟩ := handed
      rw [move_descend descended]
      obtain ⟨-, -, rfl⟩ := descend_eq_ok_iff.mp descended
      exact within
    | error b => rwa [move_descend_of_error descended]
  | release permit =>
    by_cases holds : ∃ key, p.Holds permit key
    · obtain ⟨key, holds⟩ := holds
      rw [move_release holds]
      exact Nat.le_trans (Nat.sub_le _ _) within
    · rwa [move_release_of_not fun key held => holds ⟨key, held⟩]
  | ascend permit =>
    by_cases descended : p.Descended permit
    · rw [move_ascend descended]
      exact within
    · rwa [move_ascend_of_not descended]

/-- Under one limit the depth is never past it. -/
theorem depth_after_le (moves : List Move)
    (limited : ∀ key max', Move.enter key max' ∈ moves → max' = max) :
    (after moves).guard.depth ≤ max := by
  unfold after
  suffices keep : ∀ p : Permits, p.guard.depth ≤ max → (moves.foldl move p).guard.depth ≤ max from
    keep _ (Nat.zero_le _)
  induction moves with
  | nil => exact fun p h => h
  | cons m ms ih =>
    intro p within
    refine ih (fun key max' mem => limited key max' (List.mem_cons_of_mem _ mem)) _ ?_
    refine depth_move_le within m fun key max' eq => limited key max' ?_
    rw [← eq]
    exact List.mem_cons_self

/-- What is held after giving back was held before, and is not what was given back. -/
theorem holds_of_move {m : Move} (back : m.GivesBack) (h : (p.move m).Holds permit key) :
    p.Holds permit key ∧ m ≠ .release permit := by
  cases m with
  | enter | descend => exact absurd back id
  | ascend permit' =>
    refine ⟨?_, nofun⟩
    by_cases descended : p.Descended permit'
    · rwa [move_ascend descended] at h
    · rwa [move_ascend_of_not descended] at h
  | release permit' =>
    by_cases holds : ∃ key, p.Holds permit' key
    · obtain ⟨key', holds⟩ := holds
      rw [move_release holds, Holds, List.getElem?_set] at h
      split at h
      · split at h <;> cases h
      · exact ⟨h, fun same => ‹permit' ≠ permit› (Move.release.inj same)⟩
    · rw [move_release_of_not fun key held => holds ⟨key, held⟩] at h
      refine ⟨h, ?_⟩
      rintro ⟨rfl⟩
      exact holds ⟨key, h⟩

theorem descended_of_move {m : Move} (back : m.GivesBack) (h : (p.move m).Descended permit) :
    p.Descended permit ∧ m ≠ .ascend permit := by
  cases m with
  | enter | descend => exact absurd back id
  | release permit' =>
    refine ⟨?_, nofun⟩
    by_cases holds : ∃ key, p.Holds permit' key
    · obtain ⟨key, holds⟩ := holds
      rwa [move_release holds] at h
    · rwa [move_release_of_not fun key held => holds ⟨key, held⟩] at h
  | ascend permit' =>
    by_cases descended : p.Descended permit'
    · rw [move_ascend descended, Descended, List.getElem?_set] at h
      split at h
      · split at h <;> cases h
      · exact ⟨h, fun same => ‹permit' ≠ permit› (Move.ascend.inj same)⟩
    · rw [move_ascend_of_not descended] at h
      refine ⟨h, ?_⟩
      rintro ⟨rfl⟩
      exact descended h

/-- What is held after giving back many permits was held before and is none of them. -/
theorem holds_of_moves {drops : List Move} (back : ∀ m ∈ drops, m.GivesBack) :
    (∀ {permit key}, (drops.foldl move p).Holds permit key →
        p.Holds permit key ∧ .release permit ∉ drops) ∧
      ∀ {permit}, (drops.foldl move p).Descended permit →
        p.Descended permit ∧ .ascend permit ∉ drops := by
  induction drops generalizing p with
  | nil => exact ⟨fun h => ⟨h, List.not_mem_nil⟩, fun h => ⟨h, List.not_mem_nil⟩⟩
  | cons m ms ih =>
    obtain ⟨first, rest⟩ := List.forall_mem_cons.mp back
    obtain ⟨holds, descended⟩ := ih (p := p.move m) rest
    constructor
    · intro permit key h
      obtain ⟨h, other⟩ := holds h
      obtain ⟨h, ne⟩ := holds_of_move first h
      exact ⟨h, by simp [ne.symm, other]⟩
    · intro permit h
      obtain ⟨h, other⟩ := descended h
      obtain ⟨h, ne⟩ := descended_of_move first h
      exact ⟨h, by simp [ne.symm, other]⟩

/-- After any moves, the guard holds and counts what there are permits for, and answers by it.

* A computation is registered if and only if there is a permit for it, and there is one at most;
  the depth is the number of permits to compute, the nesting that of permits to descend.
* Giving back a permit that is held, in whatever order, takes one from its counter.
* A computation is refused as too deep if and only if the depth has reached the limit, and
  otherwise as a cycle if and only if there is a permit for it; otherwise it gets one.  An
  expression is refused if and only if the nesting has reached the limit.  Nothing is changed by a
  refusal.
* If all computations come with one limit, the depth is never past it.
* When all permits are given back, in whatever order, the guard is a new one. -/
theorem guard_counts_permits (moves : List Move) :
    let p := after moves
    ((∀ key, key ∈ p.guard.active ↔ ∃ permit, p.Holds permit key) ∧ p.guard.active.Nodup ∧
        (∀ permit permit' key, p.Holds permit key → p.Holds permit' key → permit = permit') ∧
        p.guard.depth = p.held.length ∧ p.guard.nesting = p.descended) ∧
      ((∀ permit key, p.Holds permit key →
          (p.move (.release permit)).guard.depth + 1 = p.guard.depth) ∧
        ∀ permit, p.Descended permit →
          (p.move (.ascend permit)).guard.nesting + 1 = p.guard.nesting) ∧
      ((∀ key max, p.enter key max = .error .tooDeep ↔ max ≤ p.guard.depth) ∧
        (∀ key max, p.enter key max = .error .cycle ↔
          p.guard.depth < max ∧ ∃ permit, p.Holds permit key) ∧
        (∀ key max permit q, p.enter key max = .ok (permit, q) → q.Holds permit key) ∧
        (∀ limit b, p.descend limit = .error b ↔ b = .tooDeep ∧ limit ≤ p.guard.nesting) ∧
        (∀ limit permit q, p.descend limit = .ok (permit, q) → q.Descended permit) ∧
        (∀ key max b, p.enter key max = .error b → p.move (.enter key max) = p) ∧
        ∀ limit b, p.descend limit = .error b → p.move (.descend limit) = p) ∧
      (∀ max, (∀ key max', Move.enter key max' ∈ moves → max' = max) → p.guard.depth ≤ max) ∧
      ∀ drops : List Move, (∀ m ∈ drops, m.GivesBack) →
        (∀ permit key, p.Holds permit key → .release permit ∈ drops) →
        (∀ permit, p.Descended permit → .ascend permit ∈ drops) →
        (after (moves ++ drops)).guard = {} := by
  intro p
  have balanced : p.Balanced := balanced_after moves
  refine ⟨⟨fun key => balanced.mem_active, ?_, ?_, balanced.depth_eq, balanced.nesting_eq⟩,
    ⟨fun permit key => balanced.depth_release, fun permit => balanced.nesting_ascend⟩,
    ⟨?_, ?_, ?_, fun limit b => descend_eq_error_iff, ?_, ?_, ?_⟩,
    fun max => depth_after_le moves, ?_⟩
  · exact balanced.active_perm.nodup_iff.mpr balanced.held_nodup
  · exact fun permit permit' key => holds_unique balanced.held_nodup
  · intro key max
    simp [enter_eq_error_iff]
  · intro key max
    simp [enter_eq_error_iff, balanced.mem_active]
  · intro key max permit q entered
    obtain ⟨-, -, rfl, rfl⟩ := enter_eq_ok_iff.mp entered
    simp [Holds]
  · intro limit permit q descended
    obtain ⟨-, rfl, rfl⟩ := descend_eq_ok_iff.mp descended
    simp [Descended]
  · exact fun key max b => move_enter_of_error
  · exact fun limit b => move_descend_of_error
  · intro drops back releases ascends
    have last : after (moves ++ drops) = drops.foldl move p := List.foldl_append
    obtain ⟨holds, descended⟩ := holds_of_moves (p := p) back
    refine (balanced_after (moves ++ drops)).guard_eq ?_ ?_
    · rw [last]
      exact fun permit key h => (holds h).2 (releases permit key (holds h).1)
    · rw [last]
      exact fun permit h => (descended h).2 (ascends permit (descended h).1)

end Permits

end LuaTyping
