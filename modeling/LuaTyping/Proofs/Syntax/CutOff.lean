import LuaTyping.Proofs.Syntax.Recorded
import LuaTyping.Proofs.Syntax.Standing

/-!
# The limit of nesting

At the limit of nesting stands the floor, which drops all that is left.  To see what the limit
changes, the floor is compared with any other level in its place.  A production over the one and the
same production over the other do the same until the first reader below the limit is asked, if one
is asked at all.  From there on nothing is known of the other side, but nothing need be known: on
the side of the floor the cursor is cut, and no fault is recorded any more.

So a program that is not nested too deeply is read the same with any level in place of the floor,
and a higher limit is one of these.  A program that is nested too deeply has one fault that says so,
its latest, and the place of this fault does not depend on what stands in place of the floor: it is
where the first reader below the limit is asked.

* `Step.Parts`: two steps come apart where a reader of a level is asked.
* `Step.compositional_alike`: productions over the floor and over another level do the same until
  they come apart.
* `Program.Sinks`: the place where a program passes the limit of nesting.
* `Parsed.cutsOffOnce`: what of all this is seen in the errors of a text.
-/

namespace LuaTyping

/-- The step is a reader of the level. -/
inductive Level.Reader (K : Level Sketch Outline) : Step Sketch Outline → Prop
  | expr (limit : Nat) : K.Reader (K.expr limit)
  | stat : K.Reader K.stat

/-! ## Until the floor is reached -/

namespace Step

variable {K : Level Sketch Outline} {α σ : Type} {p p' : Step Sketch α}
    {body body' : σ → Step Sketch (σ × Bool)}
  {b c d e : Cursor Sketch}

/-- On their way from `c` both steps come to the place `e`, from where the first one goes on by
cutting off, and the second one by a reader of the level. -/
structure Parts (K : Level Sketch Outline) (p p' : Step Sketch α) (c e : Cursor Sketch) : Prop where
  leads : c.Leads e
  whole : e.cut = false
  cuts : (cutOff e).val.2.Leads (p c).val.2
  asks : ∃ q, K.Reader q ∧ (q e).val.2.Leads (p' c).val.2

/-- From where nothing is cut, both steps do the same and nothing is cut then, or they come
apart. -/
def Alike (K : Level Sketch Outline) (p p' : Step Sketch α) : Prop :=
  ∀ c : Cursor Sketch, c.cut = false →
    (p c).val.2.cut = false ∧ (p' c).val = (p c).val ∨ ∃ e, Parts K p p' c e

/-- A repetition goes on from where its first round ends. -/
theorem leads_iterate (body : σ → Step Sketch (σ × Bool)) (s : σ) (c : Cursor Sketch) :
    (body s c).val.2.Leads (iterate body s c).val.2 := by
  rw [iterate_val]
  split
  · exact (iterate body _ _).property
  · split
    · exact .stray _
    · exact .refl _

theorem Alike.of_cut_eq (same : ∀ c, (p c).val.2.cut = c.cut) : Alike K p p :=
  fun c whole => .inl ⟨(same c).trans whole, rfl⟩

theorem cut_bump (c : Cursor Sketch) : (bump c).val.2.cut = c.cut := by
  rw [bump]
  split
  · rfl
  · rfl

theorem cut_report (f : Fault) (c : Cursor Sketch) : (report f c).val.2.cut = c.cut := by
  rw [report]
  split
  · rfl
  · rfl

theorem Alike.bind {β : Type} {f f' : α → Step Sketch β} (first : Alike K p p')
    (next : ∀ a, Alike K (f a) (f' a)) : Alike K (p >>= f) (p' >>= f') := by
  intro c whole
  rcases first c whole with ⟨whole, same⟩ | ⟨e, parts⟩
  · have value : ((p' >>= f') c).val = (f' (p c).val.1 (p c).val.2).val := by
      rw [← same]
      rfl
    rcases next (p c).val.1 (p c).val.2 whole with ⟨whole, same⟩ | ⟨e, parts⟩
    · exact .inl ⟨whole, value.trans same⟩
    · obtain ⟨q, reader, asks⟩ := parts.asks
      exact .inr ⟨e, (p c).property.trans parts.leads, parts.whole, parts.cuts, q, reader,
        value ▸ asks⟩
  · obtain ⟨q, reader, asks⟩ := parts.asks
    exact .inr ⟨e, parts.leads, parts.whole, parts.cuts.trans (f _ _).property, q, reader,
      asks.trans (f' _ _).property⟩

theorem Alike.iterate (rounds : ∀ s, Alike K (body s) (body' s)) (s : σ) :
    Alike K (Step.iterate body s) (Step.iterate body' s) := by
  intro c whole
  induction size : c.rest.length using Nat.strongRecOn generalizing s c with
  | ind n ih =>
    rcases rounds s c whole with ⟨between, same⟩ | ⟨e, parts⟩
    · by_cases go : (body s c).val.1.2 = true ∧ c.pos < (body s c).val.2.pos
      · -- both go on from the same place
        have shorter : (body s c).val.2.rest.length < n := by
          have := (body s c).property.length_rest
          omega
        have left : (Step.iterate body s c).val
            = (Step.iterate body (body s c).val.1.1 (body s c).val.2).val := by
          rw [iterate_val, if_pos go]
        have right : (Step.iterate body' s c).val
            = (Step.iterate body' (body s c).val.1.1 (body s c).val.2).val := by
          rw [iterate_val, same, if_pos go]
        rcases ih _ shorter (body s c).val.1.1 _ between rfl with ⟨whole, same⟩ | ⟨e, parts⟩
        · exact .inl ⟨left ▸ whole, right.trans (same.trans left.symm)⟩
        · exact .inr ⟨e, (body s c).property.trans parts.leads, parts.whole, left ▸ parts.cuts,
            right ▸ parts.asks⟩
      · refine .inl ?_
        have agree : (Step.iterate body' s c).val = (Step.iterate body s c).val := by
          rw [iterate_val, same, if_neg go, iterate_val, if_neg go]
        refine ⟨?_, agree⟩
        rw [iterate_val, if_neg go]
        split
        · exact between
        · exact between
    · obtain ⟨q, reader, asks⟩ := parts.asks
      exact .inr ⟨e, parts.leads, parts.whole, parts.cuts.trans (leads_iterate body s c), q, reader,
        asks.trans (leads_iterate body' s c)⟩

/-- Whatever a production does over the floor it does over any other level, until it asks for a
reader of the level. -/
theorem compositional_alike (K : Level Sketch Outline) :
    Compositional fun _ p p' => Alike K p p' where
  look _ := .of_cut_eq fun _ => rfl
  bump := .of_cut_eq cut_bump
  refuse _ := .of_cut_eq fun c => cut_report _ c
  bind first next := first.bind next
  iterate rounds := .iterate rounds

/-- At the floor it is cut off where the reader is asked. -/
theorem alike_floor (K : Level Sketch Outline) :
    Level.floor.Related (fun _ p p' => Alike K p p') K where
  expr limit c whole := .inr ⟨c, .refl c, whole, .refl _, _, .expr limit, .refl _⟩
  stat c whole := .inr ⟨c, .refl c, whole, .refl _, _, .stat, .refl _⟩

end Step

/-! ## Programs -/

namespace Cursor.Recorded

variable {tokens : List Token} {c d e : Cursor Sketch}

/-- Where it is cut off, that is the latest fault for good. -/
theorem faults_of_cut (h : Recorded tokens d) (whole : e.cut = false)
    (cuts : (Step.cutOff e).val.2.Leads d) :
    d.faults = .tooDeep e.pos :: e.faults ∧ ∀ f ∈ e.faults, f.isTooDeep = false := by
  have kept := cuts.keeps
  rw [Step.cutOff_val, Step.drop, if_neg (Bool.eq_false_iff.mp whole)] at kept
  have kept : .tooDeep e.pos :: e.faults <:+ d.faults := kept
  have mem : .tooDeep e.pos ∈ d.faults := kept.subset List.mem_cons_self
  cases cut : d.cut with
  | false => exact absurd (h.shallow cut _ mem) Bool.noConfusion
  | true =>
    obtain ⟨i, fs, faults, others⟩ := h.deep cut
    rw [faults, List.suffix_cons_iff] at kept
    rcases kept with same | behind
    · obtain ⟨-, rfl⟩ := List.cons.inj same
      exact ⟨faults.trans same.symm, others⟩
    · exact absurd (others _ (behind.subset List.mem_cons_self)) Bool.noConfusion

/-- There is but one place where it is cut off. -/
theorem eq_of_cuts (h : Recorded tokens d) (straight : d.astray = false)
    (leads : (Cursor.start tokens ⟨⟩).Leads c) (leads' : (Cursor.start tokens ⟨⟩).Leads e)
    (whole : c.cut = false) (whole' : e.cut = false) (cuts : (Step.cutOff c).val.2.Leads d)
    (cuts' : (Step.cutOff e).val.2.Leads d) : c = e := by
  have faults := (h.faults_of_cut whole cuts).1
  rw [(h.faults_of_cut whole' cuts').1, List.cons.injEq, Fault.tooDeep.injEq] at faults
  obtain ⟨pos, faults⟩ := faults
  have rest : e.rest = c.rest := by rw [leads'.of_start.1, leads.of_start.1, pos]
  have astray {b : Cursor Sketch} (cuts : (Step.cutOff b).val.2.Leads d) : b.astray = false :=
    Bool.eq_false_iff.mpr fun astray =>
      absurd (cuts.stays ((Step.cutOff b).property.stays astray)) (Bool.eq_false_iff.mp straight)
  have astray := (astray cuts).trans (astray cuts').symm
  obtain ⟨_, _, _, _, _, _, _⟩ := c
  obtain ⟨_, _, _, _, _, _, _⟩ := e
  dsimp only at pos rest faults astray whole whole'
  subst pos rest faults astray whole whole'
  rfl

end Cursor.Recorded

namespace Program

variable {limit : Nat} {tokens : List Token}

/-- The tokens are nested more than `limit` deep, and the cursor is the place where the first reader
below the limit is asked: whatever level stands below the limit, the program is read up to this
place, and then one of the readers of the level goes on. -/
structure Sinks (limit : Nat) (tokens : List Token) (c : Cursor Sketch) : Prop where
  leads : (Cursor.start tokens ⟨⟩).Leads c
  whole : c.cut = false
  asks : ∀ K : Level Sketch Outline, ∃ q, K.Reader q
    ∧ (q c).val.2.Leads (Grammar.chunkOver K limit (.start tokens ⟨⟩)).val.2

/-- A program is read the same with any level below the limit, and no fault says that it is nested
too deeply; or the latest fault says so, at the place where the first reader below the limit is
asked, and no other fault does. -/
theorem whole_or_sinks (limit : Nat) (tokens : List Token) :
    let last := (Grammar.chunk limit (.start tokens (⟨⟩ : Sketch))).val.2
    ((∀ f ∈ last.faults, f.isTooDeep = false)
        ∧ ∀ K, (Grammar.chunkOver K limit (.start tokens ⟨⟩)).val
          = (Grammar.chunk limit (.start tokens ⟨⟩)).val)
      ∨ ∃ c, Sinks limit tokens c ∧ last.faults = .tooDeep c.pos :: c.faults
        ∧ ∀ f ∈ c.faults, f.isTooDeep = false := by
  intro last
  have recorded : Cursor.Recorded tokens last := recorded limit tokens
  have straight : last.astray = false := Grammar.astray_chunk limit tokens
  have alike (K : Level Sketch Outline) := Grammar.related_chunkOver (Step.compositional_alike K)
    (Step.alike_floor K) limit (.start tokens ⟨⟩) rfl
  rw [← Grammar.chunk_eq_chunkOver] at alike
  cases cut : last.cut with
  | false =>
    refine .inl ⟨recorded.shallow cut, fun K => ?_⟩
    rcases alike K with ⟨-, same⟩ | ⟨e, parts⟩
    · exact same
    · have mem : .tooDeep e.pos ∈ last.faults := by
        rw [(recorded.faults_of_cut parts.whole parts.cuts).1]
        exact List.mem_cons_self
      exact absurd (recorded.shallow cut _ mem) Bool.noConfusion
  | true =>
    have comesApart (K : Level Sketch Outline) : ∃ e, Step.Parts K (Grammar.chunk limit)
        (Grammar.chunkOver K limit) (.start tokens ⟨⟩) e :=
      (alike K).resolve_left fun h => absurd (h.1.symm.trans cut) Bool.false_ne_true
    obtain ⟨c, parts⟩ := comesApart .floor
    refine .inr ⟨c, ⟨parts.leads, parts.whole, fun K => ?_⟩,
      recorded.faults_of_cut parts.whole parts.cuts⟩
    obtain ⟨e, parts'⟩ := comesApart K
    obtain rfl := recorded.eq_of_cuts straight parts.leads parts'.leads parts.whole parts'.whole
      parts.cuts parts'.cuts
    exact parts'.asks

end Program

/-! ## Texts -/

/-- The limit of nesting is passed. -/
def SyntaxError.isTooDeep : SyntaxError → Bool
  | tooDeep _ _ => true
  | _ => false

@[simp] theorem Layout.isTooDeep_syntaxError (l : Layout) (limit : Nat) (f : Fault) :
    (l.syntaxError limit f).isTooDeep = f.isTooDeep := by
  cases f with
  | unexpected | unexpectedEnd | tooDeep => rfl

/-- Only the passing of the limit is reported with the limit. -/
theorem Layout.syntaxError_eq {l : Layout} {f : Fault} (other : f.isTooDeep = false)
    (limit larger : Nat) : l.syntaxError larger f = l.syntaxError limit f := by
  cases f with
  | unexpected | unexpectedEnd => rfl
  | tooDeep => exact absurd other Bool.noConfusion

namespace Parsed

variable {limit : Nat} {text : String}

/-- What the limit of nesting does to a text: it is reported at most once and last, from the place
where the first reader below the limit is asked to the end of the text; and where it is not
reported, a larger limit changes nothing. -/
structure CutsOffOnce (limit : Nat) (text : String) : Prop where
  once : (ofTextWithin limit text).errors.countP SyntaxError.isTooDeep ≤ 1
  last : ∀ e ∈ (ofTextWithin limit text).errors, e.isTooDeep = true →
    (ofTextWithin limit text).errors.getLast? = some e
      ∧ ∃ c, Program.Sinks limit ((Lexed.ofText text).lexemes.map Lexeme.token).toList c
        ∧ e = .tooDeep limit ⟨(Layout.ofText text).tokenStart c.pos, text.utf8ByteSize⟩
  invisible : (∀ e ∈ (ofTextWithin limit text).errors, e.isTooDeep = false) →
    ∀ larger, limit ≤ larger → ofTextWithin larger text = ofTextWithin limit text

/-- What is no token is not nested. -/
theorem isTooDeep_invalid {e : SyntaxError}
    (mem : e ∈ (Lexed.ofText text).invalid.toList.map SyntaxError.invalid) :
    e.isTooDeep = false := by
  obtain ⟨s, -, rfl⟩ := List.mem_map.mp mem
  rfl

/-- No error says that the limit is passed if no fault does. -/
theorem isTooDeep_of_faults {fs : List Fault} (shallow : ∀ f ∈ fs, f.isTooDeep = false)
    {e : SyntaxError}
    (mem : e ∈ (Lexed.ofText text).invalid.toList.map .invalid
      ++ fs.map ((Layout.ofText text).syntaxError limit)) : e.isTooDeep = false := by
  rcases List.mem_append.mp mem with mem | mem
  · exact isTooDeep_invalid mem
  · obtain ⟨f, fault, rfl⟩ := List.mem_map.mp mem
    rw [Layout.isTooDeep_syntaxError]
    exact shallow f fault

/-- A text whose program is read the same with any level below the limit. -/
theorem CutsOffOnce.of_whole
    (shallow : ∀ e ∈ (ofTextWithin limit text).errors, e.isTooDeep = false)
    (same : ∀ larger, limit ≤ larger → ofTextWithin larger text = ofTextWithin limit text) :
    CutsOffOnce limit text where
  once := by
    rw [List.countP_eq_zero.mpr fun e mem => Bool.eq_false_iff.mp (shallow e mem)]
    exact Nat.zero_le 1
  last e mem deep := absurd ((shallow e mem).symm.trans deep) Bool.false_ne_true
  invisible _ := same

/-- A text whose program passes the limit. -/
theorem CutsOffOnce.of_sinks {others : List SyntaxError} {e : SyntaxError}
    (errors : (ofTextWithin limit text).errors = others ++ [e])
    (shallow : ∀ e ∈ others, e.isTooDeep = false) (deep : e.isTooDeep = true)
    (sinks : ∃ c, Program.Sinks limit ((Lexed.ofText text).lexemes.map Lexeme.token).toList c
      ∧ e = .tooDeep limit ⟨(Layout.ofText text).tokenStart c.pos, text.utf8ByteSize⟩) :
    CutsOffOnce limit text where
  once := by
    rw [errors, List.countP_append,
      List.countP_eq_zero.mpr fun e mem => Bool.eq_false_iff.mp (shallow e mem), Nat.zero_add]
    exact List.countP_le_length
  last e' mem deep := by
    rw [errors, List.mem_append, List.mem_singleton] at mem
    rcases mem with mem | rfl
    · exact absurd ((shallow e' mem).symm.trans deep) Bool.false_ne_true
    · rw [errors, List.getLast?_concat]
      exact ⟨rfl, sinks⟩
  invisible none := by
    have mem : e ∈ (ofTextWithin limit text).errors := errors ▸ List.mem_concat_self
    exact absurd ((none e mem).symm.trans deep) Bool.false_ne_true

/-- Where no fault of its program says that the limit is passed, a text has one program at all
larger limits. -/
theorem ofTextWithin_eq {limit larger : Nat} (small : text.utf8ByteSize < offsetCount)
    {faults : List Fault} (shallow : ∀ f ∈ faults, f.isTooDeep = false) {body : Outline}
    (program : Program.ofTokens limit ((Lexed.ofText text).lexemes.map Lexeme.token).toList
      = ⟨body, faults⟩)
    (program' : Program.ofTokens larger ((Lexed.ofText text).lexemes.map Lexeme.token).toList
      = ⟨body, faults⟩) : ofTextWithin larger text = ofTextWithin limit text := by
  have grows := grows_root limit small
  have grows' := grows_root larger small
  rw [program] at grows
  rw [program'] at grows'
  have errors : (ofTextWithin larger text).errors = (ofTextWithin limit text).errors := by
    rw [errors_ofTextWithin, errors_ofTextWithin, program, program']
    refine congrArg _ (List.map_congr_left fun f mem => ?_)
    exact Layout.syntaxError_eq (shallow f mem) limit larger
  rw [Parsed.mk.injEq]
  exact ⟨grows'.tree_eq grows rfl, errors⟩

/-- However deep a text is nested, the limit is reported once and is otherwise not seen, where every
place of the text has an offset of its own. -/
theorem cutsOffOnce (limit : Nat) {text : String} (small : text.utf8ByteSize < offsetCount) :
    CutsOffOnce limit text := by
  have faithful := Layout.ofText_faithful small
  rcases Program.whole_or_sinks limit ((Lexed.ofText text).lexemes.map Lexeme.token).toList with
    ⟨shallow, same⟩ | ⟨c, sinks, faults, shallow⟩
  · have shallow : ∀ f ∈ (Program.ofTokens limit
        ((Lexed.ofText text).lexemes.map Lexeme.token).toList).faults, f.isTooDeep = false :=
      fun f mem => shallow f (List.mem_reverse.mp mem)
    refine .of_whole (fun e mem => ?_) fun larger le => ofTextWithin_eq small shallow rfl ?_
    · rw [errors_ofTextWithin] at mem
      exact isTooDeep_of_faults shallow mem
    · -- the larger limit is the same number of levels above some more levels
      have higher : Grammar.chunk larger
          = (Grammar.chunkOver (Grammar.level (larger - limit)) limit : Step Sketch Outline) := by
        rw [← Grammar.chunk_add, Nat.sub_add_cancel le]
      rw [Program.ofTokens, Program.ofTokens, higher, same]
  · have errors : (ofTextWithin limit text).errors
        = ((Lexed.ofText text).invalid.toList.map .invalid
          ++ c.faults.reverse.map ((Layout.ofText text).syntaxError limit))
          ++ [.tooDeep limit ⟨(Layout.ofText text).tokenStart c.pos, text.utf8ByteSize⟩] := by
      have last := faithful.syntaxError_tooDeep limit c.pos
      rw [errors_ofTextWithin, Program.ofTokens, faults, List.reverse_cons, List.map_append,
        List.append_assoc]
      exact congrArg (fun e => _ ++ (_ ++ [e])) last
    refine .of_sinks errors (fun e => isTooDeep_of_faults fun f mem => ?_) rfl ⟨c, sinks, rfl⟩
    exact shallow f (List.mem_reverse.mp mem)

/-- Inside the parentheses of a value the third level is asked for. -/
theorem cutsOffOnce_parentheses : "x = (1) return y".utf8ByteSize < offsetCount
    ∧ (ofTextWithin 2 "x = (1) return y").errors = [.tooDeep 2 ⟨5, 16⟩]
      ∧ ∃ c, Program.Sinks 2
          ((Lexed.ofText "x = (1) return y").lexemes.map Lexeme.token).toList c
        ∧ (Layout.ofText "x = (1) return y").tokenStart c.pos = 5 := by
  have small : "x = (1) return y".utf8ByteSize < offsetCount := by decide +kernel
  have errors : (ofTextWithin 2 "x = (1) return y").errors = [.tooDeep 2 ⟨5, 16⟩] := by
    decide +kernel
  have mem : .tooDeep 2 ⟨5, 16⟩ ∈ (ofTextWithin 2 "x = (1) return y").errors :=
    errors ▸ List.mem_cons_self
  obtain ⟨-, c, sinks, eq⟩ := (cutsOffOnce 2 small).last _ mem rfl
  exact ⟨small, errors, c, sinks, (congrArg (fun e : SyntaxError => e.span.start) eq).symm⟩

end Parsed

end LuaTyping
