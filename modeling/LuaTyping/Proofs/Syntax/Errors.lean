import LuaTyping.Proofs.Syntax.Offsets
import LuaTyping.Proofs.Syntax.Recorded
import LuaTyping.Proofs.Syntax.Standing
import LuaTyping.Proofs.Token.Covers

/-!
# Where errors lie

The errors of a text come from two sources.  The places that are no token are found first and side
by side.  The faults of the grammar point at tokens, in the order of the tokens, and the tokens
stand in their order in the text; so these errors start further and further back in it.  A fault
that points at a token lies where the token lies, and one that points at the end of the text takes
no byte there.

* `Layout.start_span_syntaxError`: a fault starts where the token does that it points at.
* `Layout.tokenStart_le`: later tokens start later.
* `Parsed.WellPlaced`, `Parsed.wellPlaced`: the errors of a text are well placed.
-/

namespace LuaTyping

/-! ## Faults in a text -/

namespace Layout

variable {l : Layout} {f : Fault} {limit : Nat}

/-- A fault starts where the token does that it points at. -/
theorem start_span_syntaxError (h : l.Faithful) (limit : Nat) (f : Fault) :
    (l.syntaxError limit f).span.start = l.tokenStart (f.place l.lexemes.size) := by
  cases f with
  | unexpected => rfl
  | tooDeep token => rw [h.syntaxError_tooDeep]; rfl
  | unexpectedEnd e =>
    rw [syntaxError, Span.emptyAt_of_lt h.small]
    exact (tokenStart_of_ge (Nat.le_refl _)).symm

/-- A fault lies in the text. -/
theorem bounds_span_syntaxError (h : l.Faithful) (limit : Nat) (f : Fault) :
    (l.syntaxError limit f).span.start ≤ (l.syntaxError limit f).span.stop
      ∧ (l.syntaxError limit f).span.stop ≤ l.text.utf8ByteSize := by
  cases f with
  | unexpected token e => exact ⟨start_le_stop h.ordered token, tokenStop_le_size h token⟩
  | unexpectedEnd e =>
    rw [syntaxError, Span.emptyAt_of_lt h.small]
    exact ⟨Nat.le_refl _, Nat.le_refl _⟩
  | tooDeep token =>
    rw [h.syntaxError_tooDeep]
    exact ⟨tokenStart_le_size h token, Nat.le_refl _⟩

/-- Faults that point at later and later tokens start further and further back. -/
theorem pairwise_map_syntaxError (h : l.Faithful) {fs : List Fault}
    (order : fs.Pairwise fun f g => f.place l.lexemes.size ≤ g.place l.lexemes.size) :
    (fs.map (l.syntaxError limit)).Pairwise fun e e' => e.span.start ≤ e'.span.start := by
  rw [List.pairwise_map]
  refine order.imp fun {f g} le => ?_
  rw [start_span_syntaxError h, start_span_syntaxError h]
  exact tokenStart_le h le

/-- What does not fit is the text of a token. -/
theorem exists_lexeme_of_unexpected {found : String} {e : Expectation} {s : Span}
    (fits : f.Fits l.lexemes.size) (eq : l.syntaxError limit f = .unexpected found e s) :
    (∃ x ∈ l.lexemes.toList, x.span = s) ∧ found = s.slice l.text := by
  cases f with
  | unexpected token e =>
    have inside : token < l.lexemes.size := fits
    obtain ⟨rfl, -, rfl⟩ := SyntaxError.unexpected.inj eq
    refine ⟨⟨l.lexemes[token], Array.getElem_mem_toList inside, ?_⟩, rfl⟩
    rw [tokenSpan, tokenStart_of_lt inside, tokenStop_of_lt inside]
  | unexpectedEnd | tooDeep => exact SyntaxError.noConfusion eq

/-- What ends too early ends at the end of the text. -/
theorem span_of_unexpectedEnd (h : l.Faithful) {e : Expectation} {s : Span}
    (eq : l.syntaxError limit f = .unexpectedEnd e s) :
    s = ⟨l.text.utf8ByteSize, l.text.utf8ByteSize⟩ := by
  cases f with
  | unexpectedEnd e =>
    rw [← Span.emptyAt_of_lt h.small]
    exact (SyntaxError.unexpectedEnd.inj eq).2.symm
  | unexpected | tooDeep => exact SyntaxError.noConfusion eq

end Layout

/-! ## Texts -/

/-- The error is a place that is no token. -/
def SyntaxError.isInvalid : SyntaxError → Bool
  | invalid _ => true
  | _ => false

@[simp] theorem Layout.isInvalid_syntaxError (l : Layout) (limit : Nat) (f : Fault) :
    (l.syntaxError limit f).isInvalid = false := by
  cases f with
  | unexpected | unexpectedEnd | tooDeep => rfl

namespace Parsed

/-- The errors are those of a text and lie where they should: first all places that are no token,
side by side in the order of the text, then the faults of the grammar, each of which starts no
earlier than the one before. -/
structure WellPlaced (text : String) (errors : List SyntaxError) : Prop where
  invalid_first : errors
    = errors.filter SyntaxError.isInvalid ++ errors.filter fun e => !e.isInvalid
  all_invalid : errors.filter SyntaxError.isInvalid
    = (Lexed.ofText text).invalid.toList.map .invalid
  invalid_apart : (errors.filter SyntaxError.isInvalid).Pairwise fun e e' =>
    e.span.stop ≤ e'.span.start
  invalid_nonempty : ∀ e ∈ errors, e.isInvalid = true → e.span.start < e.span.stop
  ordered : (errors.filter fun e => !e.isInvalid).Pairwise fun e e' =>
    e.span.start ≤ e'.span.start
  unexpected : ∀ found e s, .unexpected found e s ∈ errors →
    (∃ x ∈ (Lexed.ofText text).lexemes.toList, x.span = s) ∧ found = s.slice text
  unexpectedEnd : ∀ e s, .unexpectedEnd e s ∈ errors →
    s = ⟨text.utf8ByteSize, text.utf8ByteSize⟩
  inside : ∀ e ∈ errors, e.span.start ≤ e.span.stop ∧ e.span.stop ≤ text.utf8ByteSize

/-- The errors of a text, told apart by their source. -/
theorem filter_errors (limit : Nat) (text : String) :
    let errors := (ofTextWithin limit text).errors
    let faults := (Program.ofTokens limit
      ((Lexed.ofText text).lexemes.map Lexeme.token).toList).faults
    errors.filter SyntaxError.isInvalid = (Lexed.ofText text).invalid.toList.map .invalid
      ∧ (errors.filter fun e => !e.isInvalid)
        = faults.map ((Layout.ofText text).syntaxError limit) := by
  intro errors faults
  have split : errors = (Lexed.ofText text).invalid.toList.map .invalid
      ++ faults.map ((Layout.ofText text).syntaxError limit) := errors_ofTextWithin limit text
  have invalid : ∀ e ∈ (Lexed.ofText text).invalid.toList.map SyntaxError.invalid,
      e.isInvalid = true := by
    intro e mem
    obtain ⟨s, -, rfl⟩ := List.mem_map.mp mem
    rfl
  have other : ∀ e ∈ faults.map ((Layout.ofText text).syntaxError limit),
      e.isInvalid = false := by
    intro e mem
    obtain ⟨f, -, rfl⟩ := List.mem_map.mp mem
    exact Layout.isInvalid_syntaxError _ _ _
  rw [split, List.filter_append, List.filter_append]
  constructor
  · rw [List.filter_eq_self.mpr invalid,
      List.filter_eq_nil_iff.mpr fun e mem => Bool.eq_false_iff.mp (other e mem), List.append_nil]
  · rw [List.filter_eq_nil_iff.mpr fun e mem => by simp [invalid e mem],
      List.filter_eq_self.mpr fun e mem => by simp [other e mem], List.nil_append]

/-- Whatever is wrong with a text, its errors are well placed, where every place of the text has an
offset of its own. -/
theorem wellPlaced (limit : Nat) {text : String} (small : text.utf8ByteSize < offsetCount) :
    WellPlaced text (ofTextWithin limit text).errors := by
  obtain ⟨invalid, others⟩ := filter_errors limit text
  have layout := Layout.ofText_faithful small
  have covers := Lexed.covers small
  have recorded := Program.recorded limit ((Lexed.ofText text).lexemes.map Lexeme.token).toList
  have size : ((Lexed.ofText text).lexemes.map Lexeme.token).toList.length
      = (Layout.ofText text).lexemes.size := by
    rw [Array.length_toList, Array.size_map]
    rfl
  have place {s : Span} (mem : s ∈ (Lexed.ofText text).invalid.toList) :
      s ∈ (Lexed.ofText text).spans := List.mem_append_right _ mem
  have source : ∀ e ∈ (ofTextWithin limit text).errors,
      (∃ s ∈ (Lexed.ofText text).invalid.toList, .invalid s = e)
        ∨ ∃ f : Fault, f.Fits (Layout.ofText text).lexemes.size
          ∧ (Layout.ofText text).syntaxError limit f = e := by
    intro e mem
    rw [errors_ofTextWithin] at mem
    refine (List.mem_append.mp mem).imp List.mem_map.mp fun mem => ?_
    obtain ⟨f, fault, eq⟩ := List.mem_map.mp mem
    exact ⟨f, size ▸ recorded.fits f (List.mem_reverse.mp fault), eq⟩
  refine {
    invalid_first := by
      rw [invalid, others]
      exact errors_ofTextWithin limit text
    all_invalid := invalid
    invalid_apart := invalid ▸ List.pairwise_map.mpr covers.invalid
    invalid_nonempty := fun e mem isInvalid => ?_
    ordered := others ▸ Layout.pairwise_map_syntaxError layout
      (List.pairwise_reverse.mpr (size ▸ recorded.order))
    unexpected := fun found e s mem => ?_
    unexpectedEnd := fun e s mem => ?_
    inside := fun e mem => ?_ }
  · rcases source e mem with ⟨s, here, rfl⟩ | ⟨f, -, rfl⟩
    · exact covers.nonempty s (place here)
    · exact absurd ((Layout.isInvalid_syntaxError _ _ _).symm.trans isInvalid) Bool.false_ne_true
  · rcases source _ mem with ⟨s, -, eq⟩ | ⟨f, fits, eq⟩
    · exact SyntaxError.noConfusion eq
    · exact Layout.exists_lexeme_of_unexpected fits eq
  · rcases source _ mem with ⟨s, -, eq⟩ | ⟨f, -, eq⟩
    · exact SyntaxError.noConfusion eq
    · exact Layout.span_of_unexpectedEnd layout eq
  · rcases source e mem with ⟨s, here, rfl⟩ | ⟨f, -, rfl⟩
    · exact ⟨Nat.le_of_lt (covers.nonempty s (place here)), (covers.inside s (place here)).2⟩
    · exact Layout.bounds_span_syntaxError layout limit f

/-- A place that is no token, and a token that is refused twice. -/
theorem wellPlaced_refused_twice : "x = é end".utf8ByteSize < offsetCount
    ∧ WellPlaced "x = é end" [.invalid ⟨4, 6⟩, .unexpected "end" .expression ⟨7, 10⟩,
      .unexpected "end" .statement ⟨7, 10⟩] := by
  have errors : (ofTextWithin maxNesting "x = é end").errors
      = [.invalid ⟨4, 6⟩, .unexpected "end" .expression ⟨7, 10⟩,
        .unexpected "end" .statement ⟨7, 10⟩] := by
    decide +kernel
  have small : "x = é end".utf8ByteSize < offsetCount := by decide +kernel
  exact ⟨small, errors ▸ wellPlaced maxNesting small⟩

end Parsed

end LuaTyping
