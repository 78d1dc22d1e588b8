import LuaTyping.Proofs.Syntax.CommentRun
import LuaTyping.Proofs.Syntax.Outline

/-!
# The offsets of marks

Once the tokens are placed in a text, every mark has an offset.  Where every place of the text has
an offset of its own, the order of marks is the order of their offsets, doc comments included: the
comment in front of a token lies between it and the token before it.

* `Layout.offset`: the offset of a mark.
* `Layout.offset_le`: a mark before another has no larger offset.
* `Layout.Faithful.isBoundary_offset`: the offset of a mark lies between characters.
-/

namespace LuaTyping

open Lines (isBoundary)

namespace Layout

/-- The offset of a mark.  Behind the token at the end of the text there is only the end. -/
def offset (l : Layout) (mark : Nat) : Nat :=
  let token := mark / 3
  match mark % 3 with
  | 0 =>
    if token ≤ l.lexemes.size then ((l.docSpan? token).map Span.start).getD (l.tokenStart token)
    else l.text.utf8ByteSize
  | 1 => l.tokenStart token
  | _ => l.tokenStop token

variable {l : Layout}

theorem offset_doc {i : Nat} (inside : i ≤ l.lexemes.size) :
    l.offset (Mark.doc i) = ((l.docSpan? i).map Span.start).getD (l.tokenStart i) := by
  have rest : 3 * i % 3 = 0 := Nat.mul_mod_right 3 i
  have token : 3 * i / 3 = i := by omega
  simp only [offset, Mark.doc, rest, token, if_pos inside]

theorem offset_doc_of_gt {i : Nat} (outside : l.lexemes.size < i) :
    l.offset (Mark.doc i) = l.text.utf8ByteSize := by
  have rest : 3 * i % 3 = 0 := Nat.mul_mod_right 3 i
  have token : 3 * i / 3 = i := by omega
  simp only [offset, Mark.doc, rest, token, if_neg (Nat.not_le_of_lt outside)]

/-- Where nothing documents a token, its doc mark is where it starts. -/
theorem offset_doc_of_none {i : Nat} (none : l.docSpan? i = none) :
    l.offset (Mark.doc i) = l.tokenStart i := by
  rcases Nat.lt_or_ge l.lexemes.size i with outside | inside
  · rw [offset_doc_of_gt outside, tokenStart_of_ge outside.le]
  · rw [offset_doc inside, none]
    rfl

@[simp] theorem offset_start (l : Layout) (i : Nat) : l.offset (Mark.start i) = l.tokenStart i := by
  have rest : (3 * i + 1) % 3 = 1 := by omega
  have token : (3 * i + 1) / 3 = i := by omega
  simp only [offset, Mark.start, rest, token]

@[simp] theorem offset_stop (l : Layout) (i : Nat) : l.offset (Mark.stop i) = l.tokenStop i := by
  have rest : (3 * i + 2) % 3 = 2 := by omega
  have token : (3 * i + 2) / 3 = i := by omega
  simp only [offset, Mark.stop, rest, token]

/-- The mark where the tokens read so far stop. -/
theorem offset_stopBefore (l : Layout) {count : Nat} (some : 0 < count) :
    l.offset (Mark.stopBefore count) = l.stopBefore count := by
  obtain ⟨i, rfl⟩ := Nat.exists_eq_add_of_lt some
  rw [Nat.zero_add, stopBefore, ← offset_stop]
  congr 1

theorem mark_cases (m : Nat) :
    m = Mark.doc (m / 3) ∨ m = Mark.start (m / 3) ∨ m = Mark.stop (m / 3) := by
  simp only [Mark.doc, Mark.start, Mark.stop]
  omega

/-! ## Order -/

theorem bounds_offset_doc (h : l.Faithful) (i : Nat) :
    l.stopBefore i ≤ l.offset (Mark.doc i) ∧ l.offset (Mark.doc i) ≤ l.tokenStart i := by
  cases found : l.docSpan? i with
  | none =>
    rw [offset_doc_of_none found]
    exact ⟨stopBefore_le_start h.ordered i, Nat.le_refl _⟩
  | some s =>
    rcases Nat.lt_or_ge l.lexemes.size i with outside | inside
    · have order := stopBefore_le_start h.ordered i
      rw [tokenStart_of_ge outside.le] at order ⊢
      rw [offset_doc_of_gt outside]
      exact ⟨order, Nat.le_refl _⟩
    · rw [offset_doc inside, found]
      exact (h.bounds_docSpan inside found).imp_right And.left

theorem offset_le_succ (h : l.Faithful) (m : Nat) : l.offset m ≤ l.offset (m + 1) := by
  have cases := mark_cases m
  generalize m / 3 = i at cases
  rcases cases with rfl | rfl | rfl
  · have next : Mark.doc i + 1 = Mark.start i := rfl
    rw [next, offset_start]
    exact (bounds_offset_doc h i).2
  · have next : Mark.start i + 1 = Mark.stop i := rfl
    rw [next, offset_start, offset_stop]
    exact start_le_stop h.ordered i
  · have next : Mark.stop i + 1 = Mark.doc (i + 1) := by
      simp only [Mark.stop, Mark.doc]
      omega
    rw [next, offset_stop]
    exact (bounds_offset_doc h (i + 1)).1

/-- A mark before another has no larger offset. -/
theorem offset_le (h : l.Faithful) {m m' : Nat} (le : m ≤ m') : l.offset m ≤ l.offset m' := by
  induction le with
  | refl => exact Nat.le_refl _
  | step _ ih => exact Nat.le_trans ih (offset_le_succ h _)

/-- No mark lies behind the end of the text. -/
theorem offset_le_size (h : l.Faithful) (m : Nat) : l.offset m ≤ l.text.utf8ByteSize := by
  have later : m ≤ Mark.start (m + l.lexemes.size) := by
    simp only [Mark.start]
    omega
  have le := offset_le h later
  rwa [offset_start, tokenStart_of_ge (Nat.le_add_left _ _)] at le

/-- Later tokens start later. -/
theorem tokenStart_le (h : l.Faithful) {i j : Nat} (le : i ≤ j) :
    l.tokenStart i ≤ l.tokenStart j := by
  rw [← offset_start, ← offset_start]
  refine offset_le h ?_
  simp only [Mark.start]
  omega

theorem tokenStart_le_size (h : l.Faithful) (i : Nat) : l.tokenStart i ≤ l.text.utf8ByteSize := by
  rw [← offset_start]
  exact offset_le_size h _

theorem tokenStop_le_size (h : l.Faithful) (i : Nat) : l.tokenStop i ≤ l.text.utf8ByteSize := by
  rw [← offset_stop]
  exact offset_le_size h _

/-- From the start of a token to its end there is at least one byte. -/
theorem offset_lt (h : l.Faithful) {m m' i : Nat} (inside : i < l.lexemes.size)
    (before : m ≤ Mark.start i) (behind : Mark.stop i ≤ m') : l.offset m < l.offset m' := by
  have first := offset_le h before
  have last := offset_le h behind
  rw [offset_start] at first
  rw [offset_stop] at last
  exact Nat.lt_of_le_of_lt first (Nat.lt_of_lt_of_le (start_lt_stop h.ordered inside) last)

/-! ## Characters -/

/-- The offset of a mark lies between characters. -/
theorem Faithful.isBoundary_offset (h : l.Faithful) (m : Nat) :
    isBoundary l.text (l.offset m) = true := by
  have cases := mark_cases m
  generalize m / 3 = i at cases
  rcases cases with rfl | rfl | rfl
  · cases found : l.docSpan? i with
    | none =>
      rw [offset_doc_of_none found]
      exact (h.clean.cuts_token i).start
    | some s =>
      rcases Nat.lt_or_ge l.lexemes.size i with outside | inside
      · rw [offset_doc_of_gt outside]
        exact (Span.cuts_whole l.text).stop
      · rw [offset_doc inside, found]
        exact (h.cuts_docSpan found).start
  · rw [offset_start]
    exact (h.clean.cuts_token i).start
  · rw [offset_stop]
    exact (h.clean.cuts_token i).stop

end Layout

end LuaTyping
