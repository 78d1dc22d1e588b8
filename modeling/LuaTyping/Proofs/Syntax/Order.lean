import LuaTyping.Proofs.Text.Lines
import LuaTyping.Proofs.Token.Solid
import LuaTyping.Syntax.Placement

/-!
# The order of tokens and comments

Where every place of a text has an offset of its own, its tokens and its comments stand in their
order.  They are made of whole characters, a token begins with no blank, and no token overlaps a
comment.

* `Span.Cuts`: a span whose ends lie between characters.
* `Layout.Ordered`, `Layout.Clean`, `Layout.Faithful`: what the layout of a text is.
* `Layout.faithful_ofLexed`: the layout of a text is all of this.
* `Layout.start_lt_stop`: a token takes at least one byte.
* `Layout.reverse_commentsBefore`: the comments in front of a token.
-/

namespace LuaTyping

open Lines (isBoundary isBoundary_iff)

/-- Both ends of the span lie between two characters of the text, or at an end of it. -/
structure Span.Cuts (text : String) (s : Span) : Prop where
  start : isBoundary text s.start = true
  stop : isBoundary text s.stop = true

/-- The whole text is cut out between characters. -/
theorem Span.cuts_whole (text : String) : Span.Cuts text ⟨0, text.utf8ByteSize⟩ where
  start := isBoundary_iff.mpr ⟨[], text.toList, rfl, rfl⟩
  stop := isBoundary_iff.mpr ⟨text.toList, [], (List.append_nil _).symm, utf8ByteSize_eq text⟩

/-- Tokens, comments and invalid places are cut out between characters. -/
theorem Lexed.cuts_of_mem_spans {text : String} (small : text.utf8ByteSize < offsetCount) {s : Span}
    (mem : s ∈ (ofText text).spans) : s.Cuts text := by
  obtain ⟨start, stop⟩ := (covers small).boundaries s mem
  exact ⟨String.Pos.Raw.isValid_eq_true_iff.mpr start, String.Pos.Raw.isValid_eq_true_iff.mpr stop⟩

namespace Layout

/-- Tokens and comments stand in their order, and tokens inside the text. -/
structure Ordered (l : Layout) : Prop where
  token_nonempty : ∀ x ∈ l.lexemes.toList, x.span.start < x.span.stop
  token_inside : ∀ x ∈ l.lexemes.toList, x.span.stop ≤ l.text.utf8ByteSize
  tokens : l.lexemes.toList.Pairwise fun x y => x.span.stop ≤ y.span.start
  comment_nonempty : ∀ c ∈ l.comments.toList, c.start < c.stop
  comments : l.comments.toList.Pairwise fun c d => c.stop ≤ d.start

/-- Tokens and comments are cut out between characters. -/
structure Clean (l : Layout) : Prop where
  lexemes : ∀ x ∈ l.lexemes.toList, x.span.Cuts l.text
  comments : ∀ c ∈ l.comments.toList, c.Cuts l.text

/-- Lines, tokens and comments are those of one text, and every place of it has an offset of its
own: no token starts with a blank, and none overlaps a comment. -/
structure Faithful (l : Layout) : Prop where
  small : l.text.utf8ByteSize < offsetCount
  ordered : l.Ordered
  clean : l.Clean
  lines : l.lines = Lines.ofText l.text
  solid : ∀ x ∈ l.lexemes.toList, ∃ before c after, l.text.toList = before ++ c :: after
    ∧ byteLength before = x.span.start ∧ byteLength (before ++ [c]) ≤ x.span.stop
    ∧ isBlank c = false
  apart : ∀ x ∈ l.lexemes.toList, ∀ c ∈ l.comments.toList,
    x.span.stop ≤ c.start ∨ c.stop ≤ x.span.start

section

variable {text : String} (small : text.utf8ByteSize < offsetCount)

include small

/-- The layout of a text is ordered. -/
theorem ordered_ofLexed : (ofLexed text (Lexed.ofText text)).Ordered where
  token_nonempty _ mem := (Lexed.bounds_lexeme small mem).1
  token_inside _ mem := (Lexed.bounds_lexeme small mem).2
  tokens := Lexed.pairwise_lexemes small
  comment_nonempty _ mem := Lexed.start_lt_stop_comment small mem
  comments := Lexed.pairwise_comments small

theorem clean_ofLexed : (ofLexed text (Lexed.ofText text)).Clean where
  lexemes _ mem := Lexed.cuts_of_mem_spans small
    (List.mem_append_left _ (List.mem_append_left _ (List.mem_map_of_mem mem)))
  comments _ mem := Lexed.cuts_of_mem_spans small
    (List.mem_append_left _ (List.mem_append_right _ mem))

/-- The layout of a text is faithful to it. -/
theorem faithful_ofLexed : (ofLexed text (Lexed.ofText text)).Faithful where
  small := small
  ordered := ordered_ofLexed small
  clean := clean_ofLexed small
  lines := rfl
  solid _ mem := Lexed.exists_solid small mem
  apart x mem c mem' := by
    have spans := Lexed.disjoint_spans small
    rw [Lexed.spans, List.pairwise_append, List.pairwise_append] at spans
    exact spans.1.2.2 x.span (List.mem_map_of_mem mem) c mem'

end

variable {l : Layout}

/-! ## Tokens -/

theorem tokenStart_of_lt {i : Nat} (inside : i < l.lexemes.size) :
    l.tokenStart i = l.lexemes[i].span.start := by
  rw [tokenStart, Array.getElem?_eq_getElem inside]

theorem tokenStop_of_lt {i : Nat} (inside : i < l.lexemes.size) :
    l.tokenStop i = l.lexemes[i].span.stop := by
  rw [tokenStop, Array.getElem?_eq_getElem inside]

theorem tokenStart_of_ge {i : Nat} (outside : l.lexemes.size ≤ i) :
    l.tokenStart i = l.text.utf8ByteSize := by
  rw [tokenStart, Array.getElem?_eq_none outside]

theorem tokenStop_of_ge {i : Nat} (outside : l.lexemes.size ≤ i) :
    l.tokenStop i = l.text.utf8ByteSize := by
  rw [tokenStop, Array.getElem?_eq_none outside]

/-- A token takes at least one byte. -/
theorem start_lt_stop (h : l.Ordered) {i : Nat} (inside : i < l.lexemes.size) :
    l.tokenStart i < l.tokenStop i := by
  rw [tokenStart_of_lt inside, tokenStop_of_lt inside]
  exact h.token_nonempty _ (Array.getElem_mem_toList inside)

theorem start_le_stop (h : l.Ordered) (i : Nat) : l.tokenStart i ≤ l.tokenStop i := by
  by_cases inside : i < l.lexemes.size
  · exact Nat.le_of_lt (start_lt_stop h inside)
  · rw [tokenStart_of_ge (Nat.le_of_not_lt inside), tokenStop_of_ge (Nat.le_of_not_lt inside)]

theorem stop_le_start_succ (h : l.Ordered) (i : Nat) : l.tokenStop i ≤ l.tokenStart (i + 1) := by
  by_cases inside : i < l.lexemes.size
  · rw [tokenStop_of_lt inside]
    by_cases next : i + 1 < l.lexemes.size
    · rw [tokenStart_of_lt next]
      exact List.pairwise_iff_getElem.mp h.tokens i (i + 1) inside next (Nat.lt_succ_self i)
    · rw [tokenStart_of_ge (Nat.le_of_not_lt next)]
      exact h.token_inside _ (Array.getElem_mem_toList inside)
  · rw [tokenStop_of_ge (Nat.le_of_not_lt inside), tokenStart_of_ge (by omega)]

theorem stopBefore_le_start (h : l.Ordered) (i : Nat) : l.stopBefore i ≤ l.tokenStart i := by
  cases i with
  | zero => exact Nat.zero_le _
  | succ i => exact stop_le_start_succ h i

/-! ## Comments -/

/-- The comments that stop at or before the start of a token. -/
def commentsUpTo (l : Layout) (token : Nat) : List Span :=
  l.comments.toList.filter fun c => decide (c.stop ≤ l.tokenStart token)

/-- Of two comments the first one stops first. -/
theorem Ordered.comment_stop_le (h : l.Ordered) {j k : Nat} (le : j ≤ k)
    (bound : k < l.comments.size) : l.comments[j].stop ≤ l.comments[k].stop := by
  rcases Nat.eq_or_lt_of_le le with rfl | lt
  · exact Nat.le_refl _
  · have order : l.comments[j].stop ≤ l.comments[k].start :=
      List.pairwise_iff_getElem.mp h.comments j k (Nat.lt_trans lt bound) bound lt
    exact Nat.le_trans order (h.comment_nonempty _ (Array.getElem_mem_toList bound)).le

/-- A list that is cut where a property begins to hold. -/
theorem take_eq_filter {α : Type} {q : α → Bool} {cs : List α} {n : Nat}
    (found : ∀ k (bound : k < cs.length), n ≤ k ↔ q cs[k] = true) :
    cs.take n = cs.filter fun c => !q c := by
  have before : ∀ c ∈ cs.take n, (!q c) = true := by
    intro c mem
    obtain ⟨k, bound, rfl⟩ := List.getElem_of_mem mem
    rw [List.length_take] at bound
    rw [List.getElem_take, Bool.not_eq_true', Bool.eq_false_iff, Ne, ← found k (by omega)]
    omega
  have behind : ∀ c ∈ cs.drop n, ¬ (!q c) = true := by
    intro c mem
    obtain ⟨k, bound, rfl⟩ := List.getElem_of_mem mem
    rw [List.length_drop] at bound
    rw [List.getElem_drop, Bool.not_eq_true', (found (n + k) (by omega)).mp (Nat.le_add_right n k)]
    exact Bool.noConfusion
  conv_rhs => rw [← List.take_append_drop n cs, List.filter_append]
  rw [List.filter_eq_self.mpr before, List.filter_eq_nil_iff.mpr behind, List.append_nil]

/-- The comments in front of a token are all that stop there or earlier. -/
theorem reverse_commentsBefore (h : l.Ordered) (i : Nat) :
    (l.commentsBefore i).reverse = l.commentsUpTo i := by
  rw [commentsBefore, List.reverse_reverse, Array.toList_extract, List.extract_eq_take_drop,
    List.drop_zero, Nat.sub_zero, commentsUpTo]
  have getD {j : Nat} (bound : j < l.comments.size) :
      l.comments.getD j default = l.comments[j] := by
    simp [bound]
  rw [take_eq_filter (q := fun c : Span => decide (l.tokenStart i < c.stop)) fun k bound => ?_]
  · refine List.filter_congr fun c _ => ?_
    rw [← decide_not, decide_eq_decide, Nat.not_lt]
  · rw [Array.length_toList] at bound
    rw [firstIndex_le_iff (fun j k le lt holds => ?_) bound, getD bound, Array.getElem_toList]
    rw [getD (Nat.lt_of_le_of_lt le lt), decide_eq_true_eq] at holds
    rw [getD lt, decide_eq_true_eq]
    exact Nat.lt_of_lt_of_le holds (h.comment_stop_le le lt)

/-- The span between the offsets of a token, or the end of the text behind the last one. -/
theorem Clean.cuts_token (h : l.Clean) (i : Nat) :
    Span.Cuts l.text ⟨l.tokenStart i, l.tokenStop i⟩ := by
  rw [tokenStart, tokenStop]
  cases found : l.lexemes[i]? with
  | none => exact ⟨(Span.cuts_whole l.text).stop, (Span.cuts_whole l.text).stop⟩
  | some x =>
    have cuts := h.lexemes x (Array.mem_def.mp (Array.mem_of_getElem? found))
    exact ⟨cuts.start, cuts.stop⟩

end Layout

end LuaTyping
