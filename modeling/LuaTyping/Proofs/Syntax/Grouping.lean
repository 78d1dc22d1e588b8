import Mathlib.Tactic.Common
import LuaTyping.Token

/-!
# Operations grouped by their powers

A `Grouping` is what an expression is for the table of powers: operands, operators in front of
them and operators between them, the latter with their left and right powers.  A grouping is
prescribed by the table if every operation holds its operands against the operators around it: to
the right of an operator, what it could have taken itself binds tighter, and to the left of it, what
ends there is not torn open by it.

Written from left to right, without parentheses, a prescribed grouping can be read back.  A reader
needs to know only the least left power that it may take, and at every item it has one thing to do
(`Grouping.Reads.unique`).  On the items of a prescribed grouping it does what the grouping says.
The induction is on the grouping, and the statement is about the reader that has already taken the
whole of it and goes on: only then does it pass to the left operand of an operation, behind which
the operation goes on itself (`Grouping.reads_of_prescribed`).  So there is no second prescribed
grouping of the same items.

* `Grouping.Prescribed`: the groupings that the table of powers prescribes.
* `Grouping.eq_of_items_eq`: they are known by their items.
-/

namespace LuaTyping

/-- An expression as far as its operators go. -/
inductive Grouping
  /-- Anything else than an operation. -/
  | operand
  | unary (e : Grouping)
  /-- An operation with the powers of its operator. -/
  | binary (l r : Nat) (left right : Grouping)

/-- An operand or an operator. -/
inductive OperatorItem
  | operand
  | unary
  | binary (l r : Nat)

namespace Grouping

/-- What is written, from left to right. -/
def items : Grouping → List OperatorItem
  | operand => [.operand]
  | unary e => .unary :: e.items
  | binary l r left right => left.items ++ .binary l r :: right.items

/-- The binary operations at the left end have at least this left power. -/
def LeftFrom (low : Nat) : Grouping → Prop
  | binary l _ left _ => low ≤ l ∧ left.LeftFrom low
  | _ => True

/-- The operations at the right end are not torn open by an operator with this left power. -/
def RightFrom (l : Nat) : Grouping → Prop
  | binary _ r _ right => l ≤ r ∧ right.RightFrom l
  | unary e => l ≤ unaryPower ∧ e.RightFrom l
  | operand => True

/-- Every operation is grouped with its operands as the powers prescribe. -/
def Prescribed : Grouping → Prop
  | operand => True
  | unary e => e.LeftFrom (unaryPower + 1) ∧ e.Prescribed
  | binary l r left right =>
    (left.RightFrom l ∧ left.Prescribed) ∧ right.LeftFrom (r + 1) ∧ right.Prescribed

theorem leftFrom_zero (g : Grouping) : g.LeftFrom 0 := by
  induction g with
  | operand | unary => trivial
  | binary l r left right ihLeft ihRight => exact ⟨Nat.zero_le l, ihLeft⟩

/-! ## Reading items -/

variable {low : Nat} {left : Option Grouping} {g g' : Grouping} {is js ks : List OperatorItem}

/-- Reads a grouping from the items `is` up to the items `js`.  Behind `left`, or from the start, it
takes the binary operators with at least the left power `low`. -/
inductive Reads : Nat → Option Grouping → List OperatorItem → Grouping → List OperatorItem → Prop
  | operand {low : Nat} {is js : List OperatorItem} {g : Grouping} :
    Reads low (some .operand) is g js → Reads low none (.operand :: is) g js
  | unary {low : Nat} {is js ks : List OperatorItem} {e g : Grouping} :
    Reads (unaryPower + 1) none is e js → Reads low (some (.unary e)) js g ks →
    Reads low none (.unary :: is) g ks
  | binary {low l r : Nat} {is js ks : List OperatorItem} {left right g : Grouping} :
    low ≤ l → Reads (r + 1) none is right js →
    Reads low (some (.binary l r left right)) js g ks →
    Reads low (some left) (.binary l r :: is) g ks
  | stop {low : Nat} {is : List OperatorItem} {g : Grouping} :
    (∀ l r js, is = .binary l r :: js → l < low) → Reads low (some g) is g is

/-- There is one way to read items. -/
theorem Reads.unique (h : Reads low left is g js) (h' : Reads low left is g' ks) :
    g = g' ∧ js = ks := by
  induction h generalizing g' ks with
  | operand _ ih =>
    obtain ⟨rest⟩ := h'
    exact ih rest
  | unary _ _ ihOperand ihRest =>
    cases h' with
    | unary operand rest =>
      obtain ⟨rfl, rfl⟩ := ihOperand operand
      exact ihRest rest
  | binary le _ _ ihRight ihRest =>
    cases h' with
    | binary _ right rest =>
      obtain ⟨rfl, rfl⟩ := ihRight right
      exact ihRest rest
    | stop ends => exact absurd le (Nat.not_le_of_lt (ends _ _ _ rfl))
  | stop ends =>
    cases h' with
    | binary le => exact absurd le (Nat.not_le_of_lt (ends _ _ _ rfl))
    | stop => exact ⟨rfl, rfl⟩

/-- A prescribed grouping is read from its items by whoever may take the operations at its left end,
if the operator behind it leaves it whole: then it is read on behind the grouping. -/
theorem reads_of_prescribed {g h : Grouping} (prescribed : g.Prescribed) (front : g.LeftFrom low)
    (behind : ∀ l r js, is = .binary l r :: js → g.RightFrom l)
    (rest : Reads low (some g) is h ks) : Reads low none (g.items ++ is) h ks := by
  induction g generalizing low is h ks with
  | operand => exact .operand rest
  | unary e ih =>
    refine .unary (ih prescribed.2 prescribed.1 (fun l r js next => ?_)
      (.stop fun l r js next => ?_)) rest
    · exact (behind l r js next).2
    · exact Nat.lt_succ_of_le (behind l r js next).1
  | binary l r left right ihLeft ihRight =>
    obtain ⟨⟨holds, left⟩, above, right⟩ := prescribed
    rw [items, List.append_assoc, List.cons_append]
    refine ihLeft left front.2 (fun l' r' js next => ?_) (.binary front.1 ?_ rest)
    · obtain ⟨⟨rfl, rfl⟩, -⟩ : (l = l' ∧ r = r') ∧ _ := by simpa using next
      exact holds
    · refine ihRight right above (fun l' r' js next => ?_) (.stop fun l' r' js next => ?_)
      · exact (behind l' r' js next).2
      · exact Nat.lt_succ_of_le (behind l' r' js next).1

/-- There is one prescribed grouping of given items at most. -/
theorem eq_of_items_eq (prescribed : g.Prescribed) (prescribed' : g'.Prescribed)
    (same : g.items = g'.items) : g = g' := by
  have reads {g : Grouping} (prescribed : g.Prescribed) : Reads 0 none g.items g [] := by
    have whole : Reads 0 none (g.items ++ []) g [] :=
      reads_of_prescribed prescribed (leftFrom_zero g) nofun (.stop nofun)
    rwa [List.append_nil] at whole
  exact (reads prescribed).unique (same ▸ reads prescribed') |>.1

end Grouping

end LuaTyping
