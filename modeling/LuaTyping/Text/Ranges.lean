import LuaTyping.Text.Search

/-!
# Classes of characters as ranges

A class of characters is given by the ranges of code points that it consists of, both ends
included.  The ranges are in order and apart from each other.

* `inRanges`: membership, by binary search, with `exists_mem_of_inRanges`: a member lies in one of
  the ranges.
-/

namespace LuaTyping

/-- The code point lies in one of the ranges. -/
def inRanges (ranges : Array (Nat × Nat)) (n : Nat) : Bool :=
  let i := firstIndex (fun i => decide (n ≤ (ranges.getD i (0, 0)).2)) 0 ranges.size
  match ranges[i]? with
  | some r => decide (r.1 ≤ n)
  | none => false

theorem exists_mem_of_inRanges {ranges : Array (Nat × Nat)} {n : Nat}
    (h : inRanges ranges n = true) : ∃ r ∈ ranges, r.1 ≤ n ∧ n ≤ r.2 := by
  unfold inRanges at h
  simp only at h
  split at h
  next r hr =>
    obtain ⟨lt, rfl⟩ := Array.getElem?_eq_some_iff.mp hr
    have below := prop_firstIndex lt
    simp only [decide_eq_true_eq] at h below
    exact ⟨_, Array.getElem_mem lt, h, by rwa [Array.getD, dif_pos lt] at below⟩
  next => exact absurd h (by simp)

end LuaTyping
