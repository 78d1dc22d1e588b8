import Mathlib.Data.List.Induction
import LuaTyping.Text.Lines
import LuaTyping.Proofs.Token.Covers

/-!
# The order of positions is the order of offsets

A position counts newlines and characters, an offset counts bytes, and `Lines` goes from one to the
other through the offsets at which lines start.  Both name the same cut of a text: what stands
before the line, and the first characters of the line.

* `LineAt`: a text that is cut around one of its lines.
* `Lines.starts_of_lineAt`, `Lines.startsSucc_of_lineAt`: where a line starts, and where the next
  one does.
* `Lines.position_of_lineAt`, `Lines.offset?_of_lineAt`: positions and offsets of a line.
* `Lines.offset?_position`, `Lines.offset?_eq_none_iff`: going there and back.
* `Lines.position_le_iff`, `Lines.contains_range_iff`: order.
-/

namespace LuaTyping

/-- A search finds the place where a property begins to hold. -/
theorem firstIndex_eq {p : Nat → Bool} {hi k : Nat} (bound : k ≤ hi)
    (before : ∀ i < k, p i = false) (behind : ∀ i, k ≤ i → i < hi → p i = true) :
    firstIndex p 0 hi = k := by
  have stays (i j : Nat) (le : i ≤ j) (lt : j < hi) (holds : p i = true) : p j = true := by
    refine behind j (Nat.le_of_not_lt fun early => ?_) lt
    rw [before i (Nat.lt_of_le_of_lt le early)] at holds
    exact absurd holds Bool.false_ne_true
  rcases Nat.lt_trichotomy (firstIndex p 0 hi) k with early | eq | late
  · have found := prop_firstIndex (Nat.lt_of_lt_of_le early bound)
    rw [before _ early] at found
    exact absurd found Bool.false_ne_true
  · exact eq
  · have inside : k < hi := Nat.lt_of_lt_of_le late (firstIndex_le (Nat.zero_le hi))
    have missed := not_prop_of_lt_firstIndex stays (Nat.zero_le k) late
    rw [behind k (Nat.le_refl k) inside] at missed
    exact absurd missed (by simp)

theorem byteLength_take_le (cs : List Char) {m n : Nat} (le : m ≤ n) :
    byteLength (cs.take m) ≤ byteLength (cs.take n) := by
  obtain ⟨rest, eq⟩ := List.take_prefix_take_left (l := cs) le
  rw [← eq, byteLength_append]
  exact Nat.le_add_right _ _

/-! ## Lines of a text -/

/-- A text that is cut in three: a line without its newline, what stands before the line, and what
stands behind it.  The lines are numbered from zero. -/
structure LineAt (cs : List Char) (n : Nat) (front line back : List Char) : Prop where
  whole : cs = front ++ line ++ back
  number : front.count '\n' = n
  front_end : ∀ c ∈ front.getLast?, c = '\n'
  plain : '\n' ∉ line
  back_start : ∀ c ∈ back.head?, c = '\n'

/-- A text up to its first newline. -/
theorem exists_firstLine (cs : List Char) :
    ∃ line back, cs = line ++ back ∧ '\n' ∉ line ∧ ∀ c ∈ back.head?, c = '\n' := by
  induction cs with
  | nil => exact ⟨[], [], rfl, List.not_mem_nil, by simp⟩
  | cons c cs ih =>
    by_cases newline : c = '\n'
    · exact ⟨[], c :: cs, rfl, List.not_mem_nil, by simpa using newline⟩
    · obtain ⟨line, back, rfl, plain, start⟩ := ih
      refine ⟨c :: line, back, rfl, fun mem => ?_, start⟩
      rcases List.mem_cons.mp mem with same | mem
      · exact newline same.symm
      · exact plain mem

/-- A text from its last newline on. -/
theorem exists_lastLine (cs : List Char) :
    ∃ front line, cs = front ++ line ∧ (∀ c ∈ front.getLast?, c = '\n') ∧ '\n' ∉ line := by
  induction cs using List.reverseRecOn with
  | nil => exact ⟨[], [], rfl, by simp, List.not_mem_nil⟩
  | append_singleton cs c ih =>
    by_cases newline : c = '\n'
    · exact ⟨cs ++ [c], [], (List.append_nil _).symm, by simpa using newline,
        List.not_mem_nil⟩
    · obtain ⟨front, line, rfl, ends, plain⟩ := ih
      refine ⟨front, line ++ [c], List.append_assoc .., ends, fun mem => ?_⟩
      rcases List.mem_append.mp mem with mem | same
      · exact plain mem
      · exact newline (List.mem_singleton.mp same).symm

/-- Every place of a text is a place in a line. -/
theorem LineAt.of_append (before after : List Char) :
    ∃ front line back k, LineAt (before ++ after) (before.count '\n') front line back
      ∧ k ≤ line.length ∧ before = front ++ line.take k := by
  obtain ⟨front, first, rfl, ends, plain⟩ := exists_lastLine before
  obtain ⟨last, back, rfl, plain', start⟩ := exists_firstLine after
  refine ⟨front, first ++ last, back, first.length, ⟨by simp, ?_, ends, ?_, start⟩, by simp,
    by rw [List.take_left]⟩
  · rw [List.count_append, List.count_eq_zero.mpr plain, Nat.add_zero]
  · exact fun mem => (List.mem_append.mp mem).elim plain plain'

/-- There is a line for every newline, and one more. -/
theorem LineAt.exists_of_le {cs : List Char} {n : Nat} (le : n ≤ cs.count '\n') :
    ∃ front line back, LineAt cs n front line back := by
  have cut : ∃ before after, cs = before ++ after ∧ before.count '\n' = n := by
    induction cs generalizing n with
    | nil => exact ⟨[], [], rfl, (Nat.le_zero.mp le).symm⟩
    | cons c cs ih =>
      rcases Nat.eq_zero_or_pos n with rfl | pos
      · exact ⟨[], c :: cs, rfl, rfl⟩
      · rw [List.count_cons] at le
        obtain ⟨before, after, rfl, count⟩ := ih (n := n - if c = '\n' then 1 else 0)
          (by split at le <;> simp_all)
        refine ⟨c :: before, after, rfl, ?_⟩
        rw [List.count_cons, count]
        simp only [beq_iff_eq]
        split <;> omega
  obtain ⟨before, after, rfl, rfl⟩ := cut
  obtain ⟨front, line, back, -, lineAt, -, -⟩ := LineAt.of_append before after
  exact ⟨front, line, back, lineAt⟩

namespace LineAt

variable {cs front line back : List Char} {n : Nat}

theorem count_eq (h : LineAt cs n front line back) :
    cs.count '\n' = n + back.count '\n' := by
  rw [h.whole, List.count_append, List.count_append, h.number, List.count_eq_zero.mpr h.plain,
    Nat.add_zero]

/-- A text that is cut inside a line. -/
theorem cut (h : LineAt cs n front line back) (k : Nat) :
    cs = front ++ line.take k ++ (line.drop k ++ back) := by
  rw [h.whole, List.append_assoc front (line.take k), ← List.append_assoc (line.take k),
    List.take_append_drop, List.append_assoc]

/-- Behind the newline of a line is the next line. -/
theorem next (h : LineAt cs n front line ('\n' :: back)) :
    ∃ line' back', LineAt cs (n + 1) (front ++ line ++ ['\n']) line' back' := by
  obtain ⟨line', back', rfl, plain, start⟩ := exists_firstLine back
  refine ⟨line', back', ⟨by rw [h.whole]; simp, ?_, by simp, plain, start⟩⟩
  rw [List.count_append, List.count_append, h.number, List.count_eq_zero.mpr h.plain]
  rfl

end LineAt

/-! ## Where lines start -/

namespace Lines

theorem startsAfter_append (cs ds : List Char) (offset : Nat) (starts : Array Nat) :
    startsAfter (cs ++ ds) offset starts
      = startsAfter ds (offset + byteLength cs) (startsAfter cs offset starts) := by
  induction cs generalizing offset starts with
  | nil => rfl
  | cons c cs ih =>
    have bytes : byteLength (c :: cs) = c.utf8Size + byteLength cs := by
      rw [← List.singleton_append, byteLength_append]
      exact congrArg (· + byteLength cs) (Nat.zero_add c.utf8Size)
    rw [List.cons_append, startsAfter, startsAfter, ih, bytes, Nat.add_assoc]

/-- A newline starts one line. -/
theorem size_startsAfter (cs : List Char) (offset : Nat) (starts : Array Nat) :
    (startsAfter cs offset starts).size = starts.size + cs.count '\n' := by
  induction cs generalizing offset starts with
  | nil => rfl
  | cons c cs ih =>
    rw [startsAfter, ih, List.count_cons]
    by_cases newline : c = '\n'
    · simp only [newline, if_true, Array.size_push, beq_self_eq_true]
      omega
    · simp [newline]

/-- What is already found stays. -/
theorem getElem?_startsAfter (cs : List Char) (offset : Nat) {starts : Array Nat} {i : Nat}
    (inside : i < starts.size) : (startsAfter cs offset starts)[i]? = starts[i]? := by
  induction cs generalizing offset starts with
  | nil => rfl
  | cons c cs ih =>
    rw [startsAfter]
    by_cases newline : c = '\n'
    · rw [if_pos newline, ih _ (by rw [Array.size_push]; omega), Array.getElem?_push_lt inside,
        Array.getElem?_eq_getElem inside]
    · rw [if_neg newline, ih _ inside]

/-- Each line starts behind the one before it. -/
theorem pairwise_startsAfter (cs : List Char) {offset : Nat} {starts : Array Nat}
    (sorted : starts.toList.Pairwise (· < ·)) (bound : ∀ s ∈ starts.toList, s ≤ offset) :
    (startsAfter cs offset starts).toList.Pairwise (· < ·) := by
  induction cs generalizing offset starts with
  | nil => exact sorted
  | cons c cs ih =>
    have later : offset < offset + c.utf8Size := Nat.lt_add_of_pos_right c.utf8Size_pos
    rw [startsAfter]
    by_cases newline : c = '\n'
    · rw [if_pos newline]
      refine ih ?_ fun s mem => ?_
      · rw [Array.toList_push, List.pairwise_append]
        refine ⟨sorted, List.pairwise_singleton _ _, fun s mem s' mem' => ?_⟩
        rw [List.mem_singleton.mp mem']
        exact Nat.lt_of_le_of_lt (bound s mem) later
      · rw [Array.toList_push] at mem
        rcases List.mem_append.mp mem with mem | mem
        · exact Nat.le_of_lt (Nat.lt_of_le_of_lt (bound s mem) later)
        · exact Nat.le_of_eq (List.mem_singleton.mp mem)
    · rw [if_neg newline]
      exact ih sorted fun s mem => Nat.le_of_lt (Nat.lt_of_le_of_lt (bound s mem) later)

variable {text : String} {front line back : List Char} {n : Nat}

/-- The number of lines. -/
theorem count_ofText (text : String) :
    (ofText text).count = text.toList.count '\n' + 1 := by
  rw [count, ofText, size_startsAfter, Nat.add_comm]
  rfl

/-- Where a line starts. -/
theorem starts_of_lineAt (h : LineAt text.toList n front line back) :
    (ofText text).starts[n]? = some (byteLength front) := by
  rw [ofText, h.whole, List.append_assoc, startsAfter_append, ← h.number]
  rcases List.eq_nil_or_concat front with rfl | ⟨f, c, rfl⟩
  · exact getElem?_startsAfter _ _ Nat.zero_lt_one
  · rw [List.concat_eq_append] at h ⊢
    obtain rfl : c = '\n' := h.front_end c (by simp)
    have last : startsAfter (f ++ ['\n']) 0 #[0]
        = (startsAfter f 0 #[0]).push (byteLength (f ++ ['\n'])) := by
      rw [startsAfter_append, Nat.zero_add, byteLength_append]
      rfl
    have number : (f ++ ['\n']).count '\n' = (startsAfter f 0 #[0]).size := by
      rw [size_startsAfter, List.count_append, Nat.add_comm]
      rfl
    rw [Nat.zero_add, last, number, getElem?_startsAfter _ _ (by rw [Array.size_push]; omega),
      Array.getElem?_push_size]

/-- Where the line behind a line starts, if there is one. -/
theorem startsSucc_of_lineAt (h : LineAt text.toList n front line back) :
    (ofText text).starts[n + 1]?
      = if back = [] then none else some (byteLength (front ++ line) + 1) := by
  cases back with
  | nil =>
    have size : (ofText text).starts.size = n + 1 := by
      rw [← count, count_ofText, h.count_eq]
      rfl
    rw [if_pos rfl, Array.getElem?_eq_none size.le]
  | cons c back =>
    obtain rfl : c = '\n' := h.back_start c rfl
    obtain ⟨line', back', next⟩ := h.next
    rw [if_neg (List.cons_ne_nil _ _), starts_of_lineAt next, byteLength_append (front ++ line)]
    rfl

theorem starts_lt_starts {i j s s' : Nat} (lt : i < j)
    (start : (ofText text).starts[i]? = some s) (start' : (ofText text).starts[j]? = some s') :
    s < s' := by
  have sorted : (ofText text).starts.toList.Pairwise (· < ·) :=
    pairwise_startsAfter text.toList (List.pairwise_singleton _ _)
      fun s mem => Nat.le_of_eq (List.mem_singleton.mp mem)
  rw [← Array.getElem?_toList] at start start'
  obtain ⟨inside, rfl⟩ := List.getElem?_eq_some_iff.mp start
  obtain ⟨inside', rfl⟩ := List.getElem?_eq_some_iff.mp start'
  exact List.pairwise_iff_getElem.mp sorted i j inside inside' lt

/-! ## Positions and offsets of a line -/

/-- The line of an offset is the line that the offset stands in. -/
theorem lineOf_of_lineAt (h : LineAt text.toList n front line back) {offset : Nat}
    (behind : byteLength front ≤ offset) (inside : offset ≤ byteLength (front ++ line)) :
    (ofText text).lineOf offset = n := by
  have start := starts_of_lineAt h
  obtain ⟨bound, -⟩ := Array.getElem?_eq_some_iff.mp start
  rw [lineOf, count, firstIndex_eq (Nat.succ_le_of_lt bound)]
  · exact Nat.add_sub_cancel n 1
  · intro i lt
    rw [decide_eq_false_iff_not, Array.getD_eq_getD_getElem?]
    rcases Nat.lt_or_eq_of_le (Nat.le_of_lt_succ lt) with lt | rfl
    · have lt' := starts_lt_starts lt (Array.getElem?_eq_getElem (Nat.lt_trans lt bound)) start
      rw [Array.getElem?_eq_getElem (Nat.lt_trans lt bound), Option.getD_some]
      omega
    · rw [start, Option.getD_some]
      omega
  · intro i ge lt
    have found : (ofText text).starts[i]? = some (ofText text).starts[i] :=
      Array.getElem?_eq_getElem lt
    have next := startsSucc_of_lineAt h
    have more : back ≠ [] := by
      rintro rfl
      rw [if_pos rfl, Array.getElem?_eq_none_iff] at next
      exact absurd (Nat.lt_of_le_of_lt ge lt) (Nat.not_lt.mpr next)
    rw [if_neg more] at next
    rw [decide_eq_true_eq, Array.getD_eq_getD_getElem?, found, Option.getD_some]
    rcases Nat.lt_or_eq_of_le ge with gt | rfl
    · have lt' := starts_lt_starts gt next found
      omega
    · rw [Option.some.inj (found.symm.trans next)]
      omega

/-- Behind `k` characters of a line is column `k`. -/
theorem position_of_lineAt (h : LineAt text.toList n front line back) {k : Nat}
    (inside : k ≤ line.length) :
    (ofText text).position text (byteLength (front ++ line.take k)) = ⟨n, k⟩ := by
  have whole := h.cut k
  have total : text.utf8ByteSize
      = byteLength (front ++ line.take k) + byteLength (line.drop k ++ back) := by
    rw [utf8ByteSize_eq, whole, byteLength_append]
  have bound : byteLength (front ++ line.take k) ≤ byteLength (front ++ line) := by
    have le := byteLength_take_le line inside
    rw [List.take_length] at le
    rw [byteLength_append, byteLength_append]
    omega
  have here : (ofText text).lineOf (byteLength (front ++ line.take k)) = n :=
    lineOf_of_lineAt h (by rw [byteLength_append]; omega) bound
  have boundary : isBoundary text (byteLength (front ++ line.take k)) = true :=
    String.Pos.Raw.isValid_eq_true_iff.mpr (isValid_byteLength whole)
  simp only [position]
  rw [Nat.min_eq_left (by omega), here, if_pos boundary, Array.getD_eq_getD_getElem?,
    starts_of_lineAt h, Option.getD_some, byteLength_append front, Span.slice_eq whole,
    String.length_ofList, List.length_take, Nat.min_eq_left inside]

/-- The offset of a column is behind as many characters of the line, or at its end. -/
theorem offset?_of_lineAt (h : LineAt text.toList n front line back) (column : Nat) :
    (ofText text).offset? text ⟨n, column⟩ = some (byteLength (front ++ line.take column)) := by
  have slice := Span.slice_eq h.whole
  rw [offset?, starts_of_lineAt h, Option.map_some, startsSucc_of_lineAt h]
  by_cases last : back = []
  · have stop : text.utf8ByteSize = byteLength front + byteLength line := by
      rw [utf8ByteSize_eq, h.whole, last, List.append_nil, byteLength_append]
    rw [if_pos last]
    dsimp only
    rw [stop, slice, String.toList_ofList, byteColumn, byteLength_append]
  · have stop : byteLength (front ++ line) + 1 - 1 = byteLength front + byteLength line :=
      byteLength_append front line
    rw [if_neg last]
    dsimp only
    rw [stop, slice, String.toList_ofList, byteColumn, byteLength_append]

/-- There is no offset just for the lines that a text does not have. -/
theorem offset?_eq_none_iff {p : Position} :
    (ofText text).offset? text p = none ↔ (ofText text).count ≤ p.line := by
  rw [offset?, Option.map_eq_none_iff, Array.getElem?_eq_none_iff]
  rfl

/-! ## There and back -/

/-- Offsets between two characters. -/
theorem isBoundary_iff {offset : Nat} :
    isBoundary text offset = true
      ↔ ∃ before after, text.toList = before ++ after ∧ offset = byteLength before := by
  rw [isBoundary, String.Pos.Raw.isValid_eq_true_iff]
  constructor
  · intro valid
    obtain ⟨before, after, rfl, eq⟩ := String.Pos.Raw.isValid_iff_exists_append.mp valid
    refine ⟨before.toList, after.toList, String.toList_append .., ?_⟩
    rw [← utf8ByteSize_eq, ← String.byteIdx_rawEndPos, ← eq]
  · rintro ⟨before, after, split, rfl⟩
    exact isValid_byteLength split

/-- Every offset between two characters is a column of a line. -/
theorem exists_lineAt_of_isBoundary {offset : Nat} (boundary : isBoundary text offset = true) :
    ∃ n front line back k, LineAt text.toList n front line back ∧ k ≤ line.length
      ∧ offset = byteLength (front ++ line.take k) := by
  obtain ⟨before, after, split, rfl⟩ := isBoundary_iff.mp boundary
  obtain ⟨front, line, back, k, lineAt, inside, rfl⟩ := LineAt.of_append before after
  exact ⟨_, front, line, back, k, split ▸ lineAt, inside, rfl⟩

/-- The position of an offset leads back to the offset. -/
theorem offset?_position {offset : Nat} (boundary : isBoundary text offset = true) :
    (ofText text).offset? text ((ofText text).position text offset) = some offset := by
  obtain ⟨n, front, line, back, k, lineAt, inside, rfl⟩ := exists_lineAt_of_isBoundary boundary
  rw [position_of_lineAt lineAt inside, offset?_of_lineAt lineAt]

/-- The offset of a position lies between two characters. -/
theorem isBoundary_of_offset?_eq_some {p : Position} {offset : Nat}
    (found : (ofText text).offset? text p = some offset) : isBoundary text offset = true := by
  have line : p.line ≤ text.toList.count '\n' := by
    refine Nat.le_of_not_lt fun outside => ?_
    rw [offset?_eq_none_iff.mpr (by rw [count_ofText]; exact outside)] at found
    exact absurd found (by simp)
  obtain ⟨front, line, back, lineAt⟩ := LineAt.exists_of_le line
  rw [offset?_of_lineAt lineAt p.column] at found
  rw [isBoundary_iff]
  exact ⟨front ++ line.take p.column, line.drop p.column ++ back, lineAt.cut p.column,
    (Option.some.inj found).symm⟩

/-! ## Order -/

/-- The position of a later offset is later. -/
theorem position_lt {o o' : Nat} (boundary : isBoundary text o = true)
    (boundary' : isBoundary text o' = true) (lt : o < o') :
    let p := (ofText text).position text o
    let p' := (ofText text).position text o'
    p.line < p'.line ∨ (p.line = p'.line ∧ p.column < p'.column) := by
  obtain ⟨n, front, line, back, k, lineAt, inside, rfl⟩ := exists_lineAt_of_isBoundary boundary
  obtain ⟨n', front', line', back', k', lineAt', inside', rfl⟩ :=
    exists_lineAt_of_isBoundary boundary'
  rw [position_of_lineAt lineAt inside, position_of_lineAt lineAt' inside']
  dsimp only
  rcases Nat.lt_trichotomy n n' with early | rfl | late
  · exact .inl early
  · refine .inr ⟨rfl, Nat.lt_of_not_le fun le => ?_⟩
    -- the line with a number need not be cut out twice in the same way, but has one offset
    have same := (offset?_of_lineAt lineAt' k').symm.trans (offset?_of_lineAt lineAt k')
    have shorter := byteLength_take_le line le
    rw [Option.some.inj same, byteLength_append, byteLength_append] at lt
    omega
  · have start := starts_of_lineAt lineAt
    have next := startsSucc_of_lineAt lineAt'
    have more : back' ≠ [] := by
      rintro rfl
      obtain ⟨bound, -⟩ := Array.getElem?_eq_some_iff.mp start
      rw [if_pos rfl, Array.getElem?_eq_none_iff] at next
      omega
    rw [if_neg more] at next
    have behind : byteLength (front' ++ line') < byteLength front := by
      rcases Nat.lt_or_eq_of_le (Nat.succ_le_of_lt late) with later | rfl
      · have := starts_lt_starts later next start
        omega
      · have := Option.some.inj (next.symm.trans start)
        omega
    have shorter := byteLength_take_le line' inside'
    rw [List.take_length] at shorter
    rw [byteLength_append] at lt behind
    rw [byteLength_append] at lt
    omega

/-- The order of positions is the order of offsets. -/
theorem position_le_iff {o o' : Nat} (boundary : isBoundary text o = true)
    (boundary' : isBoundary text o' = true) :
    ((ofText text).position text o).le ((ofText text).position text o') = true ↔ o ≤ o' := by
  simp only [Position.le, Bool.or_eq_true, Bool.and_eq_true, decide_eq_true_eq, beq_iff_eq]
  rcases Nat.lt_trichotomy o o' with lt | rfl | gt
  · have := position_lt boundary boundary' lt
    dsimp only at this
    exact iff_of_true (by omega) lt.le
  · exact iff_of_true (.inr ⟨rfl, Nat.le_refl _⟩) (Nat.le_refl _)
  · have := position_lt boundary' boundary gt
    dsimp only at this
    exact iff_of_false (by omega) (Nat.not_le.mpr gt)

end Lines

/-- A range holds what is neither before its start nor behind its end. -/
theorem PositionRange.contains_iff {r : PositionRange} {p : Position} :
    r.contains p = true ↔ r.start.le p = true ∧ p.le r.stop = true := by
  simp only [contains, Position.le, Bool.and_eq_true, Bool.not_eq_true', Bool.or_eq_false_iff,
    Bool.or_eq_true, Bool.and_eq_false_iff, decide_eq_false_iff_not, decide_eq_true_eq, beq_iff_eq,
    beq_eq_false_iff_ne]
  omega

/-- A range of a text holds the position of an offset just when the offset lies between the ends of
the span. -/
theorem Lines.contains_range_iff {text : String} {s : Span} {o : Nat}
    (start : isBoundary text s.start = true) (stop : isBoundary text s.stop = true)
    (boundary : isBoundary text o = true) :
    ((ofText text).range text s).contains ((ofText text).position text o) = true
      ↔ s.start ≤ o ∧ o ≤ s.stop := by
  rw [PositionRange.contains_iff]
  exact and_congr (position_le_iff start boundary) (position_le_iff boundary stop)

end LuaTyping
