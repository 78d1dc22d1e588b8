/-!
# Binary search

* `firstIndex`: the first index with a property, with `firstIndex_le` and `prop_firstIndex`: the
  search stays in its bounds, and where it stops below the upper one the property holds.
* `not_prop_of_lt_firstIndex`: before the place where it stops the property does not hold.
* `firstIndex_le_iff`: so the place tells for each index whether the property holds.
-/

namespace LuaTyping

/-- The first index from `lo` up to `hi` with the property `p`, or `hi`, for a property that
stays true once it is true. -/
def firstIndex (p : Nat → Bool) (lo hi : Nat) : Nat :=
  if h : lo < hi then
    let mid := (lo + hi) / 2
    if p mid then firstIndex p lo mid else firstIndex p (mid + 1) hi
  else lo
termination_by hi - lo

theorem firstIndex_le {p : Nat → Bool} {lo hi : Nat} (h : lo ≤ hi) : firstIndex p lo hi ≤ hi := by
  fun_induction firstIndex p lo hi with
  | case1 lo hi lt mid hp ih => have := ih (by omega); omega
  | case2 lo hi lt mid hp ih => exact ih (by omega)
  | case3 lo hi le => exact h

theorem prop_firstIndex {p : Nat → Bool} {lo hi : Nat} (h : firstIndex p lo hi < hi) :
    p (firstIndex p lo hi) = true := by
  fun_induction firstIndex p lo hi with
  | case1 lo hi lt mid hp ih =>
    rcases Nat.lt_or_eq_of_le (firstIndex_le (p := p) (show lo ≤ mid by omega)) with below | eq
    · exact ih below
    · rw [eq]; exact hp
  | case2 lo hi lt mid hp ih => exact ih h
  | case3 lo hi le => exact absurd h le

/-- Before the index that is found the property does not hold. -/
theorem not_prop_of_lt_firstIndex {p : Nat → Bool} {lo hi : Nat}
    (stays : ∀ i j, i ≤ j → j < hi → p i = true → p j = true) {i : Nat} (ge : lo ≤ i)
    (lt : i < firstIndex p lo hi) : p i = false := by
  fun_induction firstIndex p lo hi with
  | case1 lo hi below mid hp ih =>
    have inside : mid < hi := by omega
    exact ih (fun i j le lt => stays i j le (by omega)) ge lt
  | case2 lo hi below mid hp ih =>
    by_cases right : mid + 1 ≤ i
    · exact ih stays right lt
    · have inside : mid < hi := by omega
      cases found : p i with
      | false => rfl
      | true => exact absurd (stays i mid (by omega) inside found) (by simpa using hp)
  | case3 lo hi le => omega

/-- From the index that is found on the property holds, and nowhere before. -/
theorem firstIndex_le_iff {p : Nat → Bool} {hi : Nat}
    (stays : ∀ i j, i ≤ j → j < hi → p i = true → p j = true) {i : Nat} (lt : i < hi) :
    firstIndex p 0 hi ≤ i ↔ p i = true := by
  constructor
  · intro le
    exact stays _ i le lt (prop_firstIndex (Nat.lt_of_le_of_lt le lt))
  · intro holds
    refine Nat.le_of_not_lt fun before => ?_
    rw [not_prop_of_lt_firstIndex stays (Nat.zero_le i) before] at holds
    exact absurd holds Bool.false_ne_true

end LuaTyping
