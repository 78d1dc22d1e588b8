import Mathlib.Data.List.Chain
import LuaTyping.Proofs.Syntax.Order

/-!
# The comments in front of a token

A statement is documented by the longest run of comments that ends in front of its first token.
The search for it reads the comments in front of this token, backwards and one by one, and tests
slices of the text.  What a run is can be said without the search: a row of comments, the last of
all that end in front of the token, in which each documents the next.  No run reaches over a token,
because a token is no blank.

* `Span.Documents`: a comment in front of something.
* `IsCommentRun`: the longest run of comments in front of an offset; `IsCommentRun.unique`.
* `Layout.docRun_eq`: what is found backwards is the longest run.
* `Layout.Faithful.exists_commentRun`: the doc comment of a token covers its run.
* `Layout.Faithful.bounds_docSpan`: it stands between the token and the token before it.
-/

namespace LuaTyping

open Lines (isBoundary isBoundary_iff)

/-! ## Runs of comments -/

/-- Between two offsets of the text stand only blanks, with at most one newline. -/
def BlankBetween (text : String) (start stop : Nat) : Prop :=
  ∃ front gap back, text.toList = front ++ gap ++ back ∧ byteLength front = start
    ∧ byteLength (front ++ gap) = stop ∧ (∀ c ∈ gap, isBlank c = true) ∧ gap.count '\n' ≤ 1

/-- Before an offset of the text stand only blanks on its line. -/
def BlankBefore (text : String) (offset : Nat) : Prop :=
  ∃ front blanks back, text.toList = front ++ blanks ++ back
    ∧ byteLength (front ++ blanks) = offset ∧ (∀ c ∈ front.getLast?, c = '\n')
    ∧ '\n' ∉ blanks ∧ ∀ c ∈ blanks, isBlank c = true

/-- A comment documents what follows it if only blanks with at most one newline lie between them,
and only blanks before the comment on its own line. -/
structure Span.Documents (text : String) (comment next : Span) : Prop where
  near : BlankBetween text comment.stop next.start
  alone : BlankBefore text comment.start

/-- The longest run of comments in front of an offset: of all that stop at or before the offset the
last ones, as long as each documents the next one, and the last one what stands at the offset. -/
structure IsCommentRun (text : String) (comments : List Span) (offset : Nat)
    (run : List Span) : Prop where
  suffix : run <:+ comments.filter fun c => decide (c.stop ≤ offset)
  chain : (run ++ [Span.mk offset offset]).IsChain (Span.Documents text)
  longest : ∀ other, other <:+ comments.filter (fun c => decide (c.stop ≤ offset)) →
    (other ++ [Span.mk offset offset]).IsChain (Span.Documents text) → other <:+ run

/-- There is only one longest run. -/
theorem IsCommentRun.unique {text : String} {comments run run' : List Span} {offset : Nat}
    (h : IsCommentRun text comments offset run) (h' : IsCommentRun text comments offset run') :
    run = run' :=
  (h'.longest run h.suffix h.chain).eq_of_length_le
    (h.longest run' h'.suffix h'.chain).length_le

/-- A run consists of comments in front of the offset. -/
theorem IsCommentRun.of_mem {text : String} {comments run : List Span} {offset : Nat}
    (h : IsCommentRun text comments offset run) {c : Span} (mem : c ∈ run) :
    c ∈ comments ∧ c.stop ≤ offset :=
  (List.mem_filter.mp (h.suffix.subset mem)).imp_right of_decide_eq_true

/-- From the start of the first comment of a run to the stop of the last one. -/
def coverRun? : List Span → Option Span
  | [] => none
  | c :: cs => some ⟨c.start, ((c :: cs).getLast (List.cons_ne_nil c cs)).stop⟩

/-- The first and the last comment of a run. -/
def runEnds? : List Span → Option (Span × Span)
  | [] => none
  | c :: cs => some (c, (c :: cs).getLast (List.cons_ne_nil c cs))

theorem runEnds?_cons (c : Span) (cs : List Span) :
    runEnds? (c :: cs) = some (c, ((runEnds? cs).map Prod.snd).getD c) := by
  cases cs <;> rfl

/-- The span over the first and the last comment of a run, if they stand in their order. -/
theorem map_cover_runEnds? {run : List Span} (nonempty : ∀ c ∈ run, c.start < c.stop)
    (order : run.Pairwise fun c d => c.stop ≤ d.start) :
    (runEnds? run).map (fun r => r.1.cover r.2) = coverRun? run := by
  cases run with
  | nil => rfl
  | cons c cs =>
    have last := List.getLast_mem (List.cons_ne_nil c cs)
    have ends : c.start ≤ ((c :: cs).getLast (List.cons_ne_nil c cs)).start
        ∧ c.stop ≤ ((c :: cs).getLast (List.cons_ne_nil c cs)).stop := by
      rcases List.mem_cons.mp last with same | mem
      · rw [same]
        exact ⟨Nat.le_refl _, Nat.le_refl _⟩
      · have before := (List.pairwise_cons.mp order).1 _ mem
        have first := nonempty c List.mem_cons_self
        have second := nonempty _ last
        omega
    rw [runEnds?, Option.map_some, Span.cover, Nat.min_eq_left ends.1, Nat.max_eq_right ends.2]
    rfl

/-- A run ends at a comment that does not document what follows it. -/
theorem suffix_of_not_documents {D : Span → Span → Prop} {es run run' ds : List Span}
    {c d e : Span} (suffix : run' <:+ es ++ c :: run) (chain : (run' ++ [e]).IsChain D)
    (follows : run ++ [e] = d :: ds) (not : ¬ D c d) : run' <:+ run := by
  have split : es ++ c :: run = es ++ [c] ++ run := by simp
  rw [split] at suffix
  obtain shorter | ⟨us, rfl⟩ := List.suffix_or_suffix_of_suffix suffix (List.suffix_append _ run)
  · exact shorter
  · rcases List.eq_nil_or_concat us with rfl | ⟨vs, x, rfl⟩
    · exact List.suffix_refl _
    · -- the last comment before `run` is `c`, which would have to document the first one of it
      rw [List.concat_eq_append] at suffix chain
      obtain ⟨ws, eq⟩ := suffix
      rw [← List.append_assoc, ← List.append_assoc] at eq
      have last : c = x := by
        have same := congrArg List.getLast? (List.append_cancel_right eq)
        simpa using same.symm
      rw [List.append_assoc, follows, ← last, List.append_assoc] at chain
      exact absurd (List.isChain_cons_cons.mp (List.isChain_append.mp chain).2.1).1 not

/-! ## Characters and bytes -/

/-- Of two beginnings of a text the one with fewer bytes is a beginning of the other. -/
theorem prefix_of_byteLength_le {xs ys cs : List Char} (h : xs <+: cs) (h' : ys <+: cs)
    (le : byteLength xs ≤ byteLength ys) : xs <+: ys := by
  obtain shorter | ⟨zs, rfl⟩ := List.prefix_or_prefix_of_prefix h h'
  · exact shorter
  · rw [byteLength_append] at le
    have none : zs = [] := by
      by_contra some
      have pos := byteLength_pos some
      omega
    exact ⟨[], by rw [none, List.append_nil, List.append_nil]⟩

/-- A text that is cut at two places. -/
theorem exists_split_of_isBoundary {text : String} {i j : Nat} (start : isBoundary text i = true)
    (stop : isBoundary text j = true) (le : i ≤ j) :
    ∃ front mid back, text.toList = front ++ mid ++ back ∧ byteLength front = i
      ∧ byteLength (front ++ mid) = j := by
  obtain ⟨before, after, split, rfl⟩ := isBoundary_iff.mp start
  obtain ⟨before', after', split', rfl⟩ := isBoundary_iff.mp stop
  obtain ⟨mid, rfl⟩ := prefix_of_byteLength_le ⟨after, split.symm⟩ ⟨after', split'.symm⟩ le
  exact ⟨before, mid, after', split', rfl, rfl⟩

/-- A character between two places of a text. -/
theorem mem_of_byteLength_le {front mid back before after : List Char} {c : Char}
    (same : front ++ mid ++ back = before ++ c :: after)
    (behind : byteLength front ≤ byteLength before)
    (inside : byteLength (before ++ [c]) ≤ byteLength (front ++ mid)) : c ∈ mid := by
  have whole : before ++ [c] <+: front ++ mid ++ back := ⟨after, by rw [same]; simp⟩
  obtain ⟨rest, eq⟩ := prefix_of_byteLength_le whole (List.prefix_append _ back) inside
  obtain ⟨gap, rfl⟩ : front <+: before :=
    prefix_of_byteLength_le (List.prefix_append_of_prefix (List.prefix_append front mid))
      ((List.prefix_append before [c]).trans whole) behind
  rw [List.append_assoc, List.append_assoc] at eq
  rw [← List.append_cancel_left eq]
  simp

/-! ## Tests on slices -/

namespace Layout

variable {text : String} {start stop offset : Nat}

theorem blankBetween_iff (first : isBoundary text start = true) (last : isBoundary text stop = true)
    (le : start ≤ stop) :
    BlankBetween text start stop ↔ allBlank (Span.slice text ⟨start, stop⟩) = true
      ∧ (Span.slice text ⟨start, stop⟩).toList.count '\n' ≤ 1 := by
  have slice {front gap back : List Char} (whole : text.toList = front ++ gap ++ back) :
      (Span.slice text ⟨byteLength front, byteLength (front ++ gap)⟩).toList = gap := by
    rw [byteLength_append, Span.slice_eq whole, String.toList_ofList]
  rw [allBlank, List.all_eq_true]
  constructor
  · rintro ⟨front, gap, back, whole, rfl, rfl, blanks, newlines⟩
    rw [slice whole]
    exact ⟨blanks, newlines⟩
  · rintro ⟨blanks, newlines⟩
    obtain ⟨front, gap, back, whole, rfl, rfl⟩ := exists_split_of_isBoundary first last le
    rw [slice whole] at blanks newlines
    exact ⟨front, gap, back, whole, rfl, rfl, blanks, newlines⟩

/-- The line of an offset starts behind the last newline before it. -/
theorem lineStart_eq {front line back : List Char} (whole : text.toList = front ++ line ++ back)
    (ends : ∀ c ∈ front.getLast?, c = '\n') (plain : '\n' ∉ line) :
    (Lines.ofText text).lineStart (byteLength (front ++ line)) = byteLength front := by
  obtain ⟨more, rest, rfl, plain', start⟩ := exists_firstLine back
  have lineAt : LineAt text.toList (front.count '\n') front (line ++ more) rest :=
    ⟨by rw [whole]; simp, rfl, ends, fun mem => (List.mem_append.mp mem).elim plain plain', start⟩
  have here : (Lines.ofText text).lineOf (byteLength (front ++ line)) = front.count '\n' := by
    refine Lines.lineOf_of_lineAt lineAt ?_ ?_ <;>
      simp only [byteLength_append] <;> omega
  rw [Lines.lineStart, here, Array.getD_eq_getD_getElem?, Lines.starts_of_lineAt lineAt,
    Option.getD_some]

theorem blankBefore_iff (boundary : isBoundary text offset = true) :
    BlankBefore text offset
      ↔ allBlank (Span.slice text ⟨(Lines.ofText text).lineStart offset, offset⟩) = true := by
  have slice {front line back : List Char} (whole : text.toList = front ++ line ++ back)
      (ends : ∀ c ∈ front.getLast?, c = '\n') (plain : '\n' ∉ line) :
      (Span.slice text ⟨(Lines.ofText text).lineStart (byteLength (front ++ line)),
        byteLength (front ++ line)⟩).toList = line := by
    rw [lineStart_eq whole ends plain, byteLength_append, Span.slice_eq whole,
      String.toList_ofList]
  rw [allBlank, List.all_eq_true]
  constructor
  · rintro ⟨front, blanks, back, whole, rfl, ends, plain, all⟩
    rw [slice whole ends plain]
    exact all
  · intro all
    obtain ⟨before, after, split, rfl⟩ := isBoundary_iff.mp boundary
    obtain ⟨front, line, rfl, ends, plain⟩ := exists_lastLine before
    rw [slice split ends plain] at all
    exact ⟨front, line, after, split, rfl, ends, plain, all⟩

variable {l : Layout} {c d : Span}

theorem documents_iff (lines : l.lines = Lines.ofText l.text) (cuts : c.Cuts l.text)
    (next : isBoundary l.text d.start = true) (le : c.stop ≤ d.start) :
    (l.isNextTo c d.start && l.startsLine c) = true ↔ c.Documents l.text d := by
  rw [isNextTo, startsLine, lines, Bool.and_eq_true, Bool.and_eq_true, decide_eq_true_eq,
    ← blankBetween_iff cuts.stop next le, ← blankBefore_iff cuts.start]
  exact ⟨fun h => ⟨h.1, h.2⟩, fun h => ⟨h.near, h.alone⟩⟩

/-! ## The search -/

/-- What is found backwards, with `run` already read, is the longest run. -/
theorem docRun_eq {D : Span → Span → Prop} {e : Span} (cs : List Span) {run ds : List Span}
    (follows : run ++ [e] = d :: ds)
    (tests : (cs.reverse ++ run ++ [e]).IsChain fun c d =>
      (l.isNextTo c d.start && l.startsLine c) = true ↔ D c d)
    (chain : (run ++ [e]).IsChain D) :
    ∃ found, l.docRun cs d.start (runEnds? run) = runEnds? found
      ∧ found <:+ cs.reverse ++ run ∧ (found ++ [e]).IsChain D
      ∧ ∀ other, other <:+ cs.reverse ++ run → (other ++ [e]).IsChain D → other <:+ found := by
  induction cs generalizing run d ds with
  | nil => exact ⟨run, rfl, List.suffix_refl _, chain, fun other suffix _ => suffix⟩
  | cons c cs ih =>
    have row : (c :: cs).reverse ++ run = cs.reverse ++ c :: run := by simp
    rw [row] at tests ⊢
    have test : (l.isNextTo c d.start && l.startsLine c) = true ↔ D c d := by
      rw [List.append_assoc, List.cons_append, follows] at tests
      exact (List.isChain_cons_cons.mp (List.isChain_append.mp tests).2.1).1
    rw [docRun]
    split
    · next documents =>
      have follows' : c :: run ++ [e] = c :: d :: ds := by rw [List.cons_append, follows]
      rw [← runEnds?_cons]
      refine ih follows' tests ?_
      rw [follows', List.isChain_cons_cons]
      exact ⟨test.mp documents, follows ▸ chain⟩
    · next not =>
      refine ⟨run, rfl, ?_, chain, fun other suffix chained => ?_⟩
      · exact (List.suffix_cons c run).trans (List.suffix_append _ _)
      · exact suffix_of_not_documents suffix chained follows (mt test.mpr not)

/-! ## Comments and tokens -/

/-- No comment documents what stands behind the next token. -/
theorem Faithful.not_documents (h : l.Faithful) {x : Lexeme} (mem : x ∈ l.lexemes.toList)
    (before : c.stop ≤ x.span.start) (behind : x.span.stop ≤ d.start) :
    ¬ c.Documents l.text d := by
  rintro ⟨⟨front, gap, back, whole, first, last, blanks, -⟩, -⟩
  obtain ⟨before', s, after, split, start, stop, solid⟩ := h.solid x mem
  have inside : s ∈ gap :=
    mem_of_byteLength_le (whole.symm.trans split) (by omega) (by omega)
  rw [blanks s inside] at solid
  exact absurd solid (by simp)

/-- A comment that starts before the stop of a token documents nothing behind this token. -/
theorem Faithful.not_documents_of_early (h : l.Faithful) (mem : c ∈ l.comments.toList) {i : Nat}
    (inside : i ≤ l.lexemes.size) (early : ¬ l.stopBefore i ≤ c.start)
    (late : l.stopBefore i ≤ d.start) : ¬ c.Documents l.text d := by
  cases i with
  | zero => exact absurd (Nat.zero_le _) early
  | succ i =>
    rw [stopBefore, tokenStop_of_lt inside] at early late
    have token : l.lexemes[i] ∈ l.lexemes.toList := Array.getElem_mem_toList inside
    rcases h.apart _ token c mem with behind | before
    · exact absurd behind early
    · exact h.not_documents token before late

/-- The comments in front of a token, and the place where the token starts. -/
def pieces (l : Layout) (i : Nat) : List Span :=
  l.commentsUpTo i ++ [Span.mk (l.tokenStart i) (l.tokenStart i)]

theorem Faithful.cuts_of_mem_pieces (h : l.Faithful) {i : Nat} (mem : d ∈ l.pieces i) :
    d.Cuts l.text := by
  rcases List.mem_append.mp mem with mem | mem
  · exact h.clean.comments d (List.mem_of_mem_filter mem)
  · rw [List.mem_singleton.mp mem]
    have start := (h.clean.cuts_token i).start
    exact ⟨start, start⟩

/-- Between the pieces the tests on slices are right. -/
theorem Faithful.isChain_pieces (h : l.Faithful) (i : Nat) :
    (l.pieces i).IsChain fun c d =>
      (l.isNextTo c d.start && l.startsLine c) = true ↔ c.Documents l.text d := by
  have order : (l.pieces i).Pairwise fun c d => c.stop ≤ d.start := by
    refine List.pairwise_append.mpr ⟨h.ordered.comments.filter _, List.pairwise_singleton _ _,
      fun c mem d mem' => ?_⟩
    rw [List.mem_singleton.mp mem']
    exact of_decide_eq_true (List.mem_filter.mp mem).2
  refine List.Pairwise.isChain (order.imp_of_mem fun mem mem' le => ?_)
  exact documents_iff h.lines (h.cuts_of_mem_pieces mem) (h.cuts_of_mem_pieces mem').start le

/-- The doc comment of a token covers the longest run of comments in front of it. -/
theorem Faithful.exists_commentRun (h : l.Faithful) (i : Nat) :
    ∃ run, IsCommentRun l.text l.comments.toList (l.tokenStart i) run
      ∧ l.docSpan? i = coverRun? run := by
  have tests := h.isChain_pieces i
  rw [pieces, ← reverse_commentsBefore h.ordered, ← List.append_nil (l.commentsBefore i).reverse]
    at tests
  have follows : [] ++ [(⟨l.tokenStart i, l.tokenStart i⟩ : Span)]
      = [Span.mk (l.tokenStart i) (l.tokenStart i)] :=
    rfl
  obtain ⟨run, eq, suffix, chain, longest⟩ :=
    docRun_eq (l.commentsBefore i) follows tests (List.isChain_singleton _)
  rw [List.append_nil, reverse_commentsBefore h.ordered] at suffix longest
  have comments : run.Sublist l.comments.toList := suffix.sublist.trans List.filter_sublist
  refine ⟨run, ⟨suffix, chain, longest⟩, ?_⟩
  rw [docSpan?,
    ← map_cover_runEnds? (fun c mem => h.ordered.comment_nonempty c (comments.subset mem))
    (h.ordered.comments.sublist comments), ← eq]
  rfl

/-- A run in front of a token stands behind the token before it. -/
theorem Faithful.stopBefore_le (h : l.Faithful) {i : Nat} (inside : i ≤ l.lexemes.size)
    {run : List Span} (comments : ∀ c ∈ run, c ∈ l.comments.toList)
    (chain : (run ++ [Span.mk (l.tokenStart i) (l.tokenStart i)]).IsChain (Span.Documents l.text)) :
    ∀ c ∈ run ++ [Span.mk (l.tokenStart i) (l.tokenStart i)], l.stopBefore i ≤ c.start := by
  induction run with
  | nil =>
    intro c mem
    rw [List.mem_singleton.mp mem]
    exact stopBefore_le_start h.ordered i
  | cons c cs ih =>
    obtain ⟨d, ds, follows⟩ : ∃ d ds, cs ++ [Span.mk (l.tokenStart i) (l.tokenStart i)] = d :: ds :=
      List.exists_cons_of_ne_nil (List.append_ne_nil_of_right_ne_nil _ (List.cons_ne_nil _ _))
    rw [List.cons_append, follows, List.isChain_cons_cons] at chain
    have rest := ih (fun c mem => comments c (List.mem_cons_of_mem _ mem)) (follows ▸ chain.2)
    intro e mem
    rcases List.mem_cons.mp mem with rfl | mem
    · by_contra early
      exact h.not_documents_of_early (comments e List.mem_cons_self) inside early
        (rest d (follows ▸ List.mem_cons_self)) chain.1
    · exact rest e mem

/-- A doc comment reaches from the start of one comment in front of its token to the stop of another
one. -/
theorem Faithful.exists_ends_docSpan (h : l.Faithful) {i : Nat} {s : Span}
    (found : l.docSpan? i = some s) :
    ∃ run, IsCommentRun l.text l.comments.toList (l.tokenStart i) run
      ∧ ∃ c ∈ run, ∃ d ∈ run, s = ⟨c.start, d.stop⟩ := by
  obtain ⟨run, isRun, covers⟩ := h.exists_commentRun i
  rw [found] at covers
  cases run with
  | nil => exact absurd covers (Option.some_ne_none s)
  | cons c cs =>
    exact ⟨_, isRun, c, List.mem_cons_self, _, List.getLast_mem (List.cons_ne_nil c cs),
      Option.some.inj covers⟩

/-- A doc comment stands between the token before its own token and this token. -/
theorem Faithful.bounds_docSpan (h : l.Faithful) {i : Nat} (inside : i ≤ l.lexemes.size) {s : Span}
    (found : l.docSpan? i = some s) :
    l.stopBefore i ≤ s.start ∧ s.start ≤ l.tokenStart i ∧ s.stop ≤ l.tokenStart i := by
  obtain ⟨run, isRun, c, first, d, last, rfl⟩ := h.exists_ends_docSpan found
  have behind := h.stopBefore_le inside (fun c mem => (isRun.of_mem mem).1) isRun.chain c
    (List.mem_append_left _ first)
  obtain ⟨mem, stop⟩ := isRun.of_mem first
  have nonempty := h.ordered.comment_nonempty c mem
  exact ⟨behind, Nat.le_trans nonempty.le stop, (isRun.of_mem last).2⟩

/-- A doc comment is cut out between characters. -/
theorem Faithful.cuts_docSpan (h : l.Faithful) {i : Nat} {s : Span}
    (found : l.docSpan? i = some s) : s.Cuts l.text := by
  obtain ⟨run, isRun, c, first, d, last, rfl⟩ := h.exists_ends_docSpan found
  exact ⟨(h.clean.comments c (isRun.of_mem first).1).start,
    (h.clean.comments d (isRun.of_mem last).1).stop⟩

end Layout

end LuaTyping
