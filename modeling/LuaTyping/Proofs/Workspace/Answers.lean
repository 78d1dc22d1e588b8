import Mathlib.Data.List.MinMax
import LuaTyping.Proofs.Syntax.Boundaries
import LuaTyping.Proofs.Syntax.WellFormed
import LuaTyping.Proofs.Text.Positions
import LuaTyping.Proofs.Workspace.History

/-!
# Answers are about the place that was asked for

Who asks what stands at a position gives a line and a column.  The workspace makes an offset of
them, looks for the shortest expression that touches the offset, and answers with the positions of
its ends.  All the offsets on the way lie between characters, so nothing is lost when they become
positions, and the range that is answered holds the position that was asked for.

* `SourceFile.expressionAt?_eq_argmin`, `SourceFile.expressionAt?_eq_some`: which expression is
  taken.
* `SourceFile.offset?_cases`: the offset of a position.
* `Workspace.Answer`: what an answer says about a place.
* `Workspace.inferAt_answers_or_refuses`: every question is answered so, or refused for a reason.
-/

namespace LuaTyping

namespace SourceFile

/-! ## The expressions of a file -/

/-- Of the expressions that touch an offset, the first of those with the least length is taken. -/
theorem expressionAt?_eq_argmin (f : SourceFile) (o : Nat) :
    f.expressionAt? o = (f.expressions.filter fun id => (f.tree.span id).touchesOffset o).argmin
      fun id => (f.tree.span id).length := by
  rw [expressionAt?, shortest, List.argmin]
  congr 1
  funext best id
  cases best <;> rfl

/-- The node is an expression of the file that touches the offset. -/
def Touches (f : SourceFile) (offset : Nat) (id : NodeId) : Prop :=
  id < f.tree.size ∧ (f.tree.kind id).isExpression = true
    ∧ (f.tree.span id).touchesOffset offset = true

variable {i : Nat} {path text : String} {o : Nat} {id : NodeId}

/-- The candidates of a search are the expressions that touch the offset. -/
theorem mem_candidates_iff :
    id ∈ (parse i path text).expressions.filter
        (fun id => ((parse i path text).tree.span id).touchesOffset o)
      ↔ (parse i path text).Touches o id := by
  have walk := (Parsed.realizes maxNesting text).wellFormed.walk_perm.mem_iff (a := id)
  rw [List.mem_filter, expressions, List.mem_filter, Touches, ← List.mem_range, and_assoc]
  exact and_congr_left' walk

/-- No expression is found just if none touches the offset. -/
theorem expressionAt?_eq_none_iff :
    (parse i path text).expressionAt? o = none ↔ ∀ id, ¬ (parse i path text).Touches o id := by
  rw [expressionAt?_eq_argmin, List.argmin_eq_none, List.eq_nil_iff_forall_not_mem]
  exact forall_congr' fun id => not_congr mem_candidates_iff

/-- What is found touches the offset, and no other expression that does is shorter. -/
theorem expressionAt?_eq_some (found : (parse i path text).expressionAt? o = some id) :
    (parse i path text).Touches o id
      ∧ ∀ id', (parse i path text).Touches o id' →
          ((parse i path text).tree.span id).length
            ≤ ((parse i path text).tree.span id').length := by
  rw [expressionAt?_eq_argmin] at found
  refine ⟨mem_candidates_iff.mp (List.argmin_mem found), fun id' touches => ?_⟩
  exact List.le_of_mem_argmin (f := fun id => ((parse i path text).tree.span id).length)
    (mem_candidates_iff.mpr touches) found

/-! ## The places of a file -/

/-- The offset of a position is found just in the lines that the file has.  It is behind as many
characters of the line as the column says, or at the end of the line. -/
theorem offset?_cases (f : SourceFile) (parsed : f = parse i path text) (p : Position) :
    (f.lines.count ≤ p.line ∧ f.offset? p = none)
      ∨ ∃ front line back, LineAt f.text.toList p.line front line back
          ∧ f.offset? p = some (byteLength (front ++ line.take p.column)) := by
  subst parsed
  rcases Nat.lt_or_ge p.line (Lines.ofText text).count with inside | outside
  · rw [Lines.count_ofText] at inside
    obtain ⟨front, line, back, lineAt⟩ := LineAt.exists_of_le (Nat.le_of_lt_succ inside)
    exact .inr ⟨front, line, back, lineAt, Lines.offset?_of_lineAt lineAt p.column⟩
  · exact .inl ⟨outside, Lines.offset?_eq_none_iff.mpr outside⟩

end SourceFile

namespace Workspace

/-! ## What an answer says -/

/-- What the answer `a` says about the offset `o` of a file.  It is about the expression `id` of the
file: the text and the range are those of the node, the ends of the range lead back to its ends, and
the types are what inference from the start makes of it.  The node touches the offset, and no other
expression that does is shorter.  The range holds the position of the offset. -/
structure Answer (w : Workspace) (f : SourceFile) (o : Nat) (id : NodeId) (a : ExpressionType) :
    Prop where
  touches : f.Touches o id
  shortest : ∀ id', f.Touches o id' → (f.tree.span id).length ≤ (f.tree.span id').length
  range_eq : a.range = f.range (f.tree.span id)
  start : f.offset? a.range.start = some (f.tree.start id)
  stop : f.offset? a.range.stop = some (f.tree.stop id)
  text_eq : a.text = Span.slice f.text ⟨f.tree.start id, f.tree.stop id⟩
  types_eq : a.types = w.context.infer ⟨f.id, id⟩
  contains : a.range.contains (f.position o) = true

variable {w : Workspace} {disk : Disk} {path rel : String} {position : Position} {f : SourceFile}
  {o : Nat} {id : NodeId}

/-- What is said of the expression that is found at an offset of a file. -/
theorem answer_expressionType {i : Nat} {text : String} (parsed : f = .parse i path text)
    (small : f.text.utf8ByteSize < offsetCount) (boundary : Lines.isBoundary text o = true)
    (found : f.expressionAt? o = some id) : w.Answer f o id (w.expressionType f id) := by
  subst parsed
  obtain ⟨touches, shortest⟩ := SourceFile.expressionAt?_eq_some found
  obtain ⟨start, stop⟩ := Parsed.cuts_span small touches.1
  refine ⟨touches, shortest, rfl, Lines.offset?_position start, Lines.offset?_position stop, rfl,
    rfl, (Lines.contains_range_iff start stop boundary).mpr ?_⟩
  have inside : o < offsetCount := Nat.lt_of_le_of_lt (Lines.le_size_of_isBoundary boundary) small
  exact (Span.touchesOffset_iff_of_lt inside).mp touches.2.2

/-! ## Questions -/

/-- A path leads into the root or is refused. -/
theorem projectPath_cases (w : Workspace) (disk : Disk) (path : String) :
    w.projectPath disk path = .error (.outsideRoot path)
      ∨ ∃ rel, w.projectPath disk path = .ok rel := by
  rw [projectPath]
  split
  · exact .inr ⟨_, rfl⟩
  · exact .inl rfl

theorem inferAt_of_outside (outside : w.projectPath disk path = .error (.outsideRoot path)) :
    w.inferAt disk path position = .error (.invalidArgument path) := by
  rw [inferAt, outside]
  rfl

theorem inferAt_of_unknown (leads : w.projectPath disk path = .ok rel)
    (unknown : w.project.fileId? rel = none) :
    w.inferAt disk path position = .error (.notFound rel) := by
  rw [inferAt, leads]
  dsimp only [Except.mapError, bind, Except.bind]
  rw [unknown]
  rfl

/-- A file is asked for the offset of the position, and for an expression there. -/
theorem inferAt_of_known {i : Nat} (leads : w.projectPath disk path = .ok rel)
    (known : w.project.fileId? rel = some i) (file : w.project.file? i = some f) :
    w.inferAt disk path position
      = match f.offset? position with
        | none => .error (.invalidArgument (positionText position ++ " is outside " ++ rel))
        | some o => .ok ((f.expressionAt? o).map (w.expressionType f)) := by
  rw [inferAt, leads]
  dsimp only [Except.mapError, bind, Except.bind]
  rw [known, Option.bind_some, file]
  rfl

/-- What a file that was made of a text is asked for.  There is an answer just if an expression
touches the offset of the position, and it is about this place if every place of the text has an
offset of its own. -/
theorem inferAt_of_parsed {i : Nat} {text : String} (leads : w.projectPath disk path = .ok rel)
    (known : w.project.fileId? rel = some i) (file : w.project.file? i = some f)
    {path' : String} (parsed : f = .parse i path' text) :
    (f.lines.count ≤ position.line
        ∧ w.inferAt disk path position
          = .error (.invalidArgument (positionText position ++ " is outside " ++ rel)))
      ∨ ∃ o front line back, LineAt f.text.toList position.line front line back
        ∧ o = byteLength (front ++ line.take position.column)
        ∧ f.offset? position = some o
        ∧ ((w.inferAt disk path position = .ok none ∧ ∀ id, ¬ f.Touches o id)
          ∨ ∃ a id, w.inferAt disk path position = .ok (some a)
            ∧ (f.text.utf8ByteSize < offsetCount → w.Answer f o id a)) := by
  have answer : w.inferAt disk path position = _ := inferAt_of_known leads known file
  rcases f.offset?_cases parsed position with ⟨outside, none⟩ | ⟨front, line, back, lineAt, place⟩
  · rw [none] at answer
    exact .inl ⟨outside, answer⟩
  · rw [place] at answer
    refine .inr ⟨_, front, line, back, lineAt, rfl, place, ?_⟩
    generalize byteLength (front ++ line.take position.column) = o at place answer ⊢
    dsimp only at answer
    cases found : f.expressionAt? o with
    | none =>
      rw [found] at answer
      rw [parsed, SourceFile.expressionAt?_eq_none_iff] at found
      exact .inl ⟨answer, parsed ▸ found⟩
    | some id =>
      rw [found] at answer
      rw [parsed] at place
      have boundary := Lines.isBoundary_of_offset?_eq_some place
      exact .inr ⟨_, id, answer, fun small => answer_expressionType parsed small boundary found⟩

/-- At every time, a question to a workspace that was made of texts is answered about the place that
was asked for, or refused for one of three reasons: the path leads out of the root, there is no file
with the path, or the file has no such line.  Otherwise the position has an offset, behind as many
characters of the line as the column says or at the end of the line.  There is no answer just if no
expression touches the offset, and an answer is about the place if every place of the text has an
offset of its own. -/
theorem inferAt_answers_or_refuses (root : String) (config : Config) (patterns : List String)
    (files : List (String × String)) (events : List Event) (disk : Disk) (path : String)
    (position : Position) :
    let w := (History.after ⟨root, config, Project.ofFiles patterns files⟩ events).current
    (w.projectPath disk path = .error (.outsideRoot path)
        ∧ w.inferAt disk path position = .error (.invalidArgument path))
      ∨ ∃ rel, w.projectPath disk path = .ok rel
        ∧ ((normalizePath rel ∉ w.project.paths
            ∧ w.inferAt disk path position = .error (.notFound rel))
          ∨ ∃ f, w.project.file? f.id = some f ∧ f.path = normalizePath rel
            ∧ ((f.lines.count ≤ position.line
                ∧ w.inferAt disk path position
                  = .error (.invalidArgument (positionText position ++ " is outside " ++ rel)))
              ∨ ∃ o front line back, LineAt f.text.toList position.line front line back
                ∧ o = byteLength (front ++ line.take position.column)
                ∧ f.offset? position = some o
                ∧ ((w.inferAt disk path position = .ok none ∧ ∀ id, ¬ f.Touches o id)
                  ∨ ∃ a id, w.inferAt disk path position = .ok (some a)
                    ∧ (f.text.utf8ByteSize < offsetCount → w.Answer f o id a)))) := by
  intro w
  have keeps : w.project.Keeps _ :=
    (History.kept_after (Project.keeps_ofFiles patterns files) events).keeps
  rcases w.projectPath_cases disk path with outside | ⟨rel, leads⟩
  · exact .inl ⟨outside, inferAt_of_outside outside⟩
  refine .inr ⟨rel, leads, ?_⟩
  cases known : w.project.fileId? rel with
  | none => exact .inl ⟨keeps.indexed.fileId?_eq_none_iff.mp known, inferAt_of_unknown leads known⟩
  | some i =>
    obtain ⟨f, file, same⟩ := keeps.fileId?_eq_some_iff.mp known
    obtain ⟨path', text, parsed⟩ := keeps.stocked i f file
    have number := keeps.numbered i f file
    exact .inr ⟨f, number.symm ▸ file, same, inferAt_of_parsed leads known file parsed⟩

/-- A column behind the end of a line is the end of the line, where an expression of four bytes and
three characters ends. -/
theorem inferAt_answers_or_refuses_clamped :
    let w := (History.after ⟨"/p", {}, .ofFiles [] [("a.lua", "x = 'ü'\nreturn x")]⟩ []).current
    ∃ f o id a, w.inferAt {} "a.lua" ⟨0, 99⟩ = .ok (some a) ∧ w.Answer f o id a
      ∧ a.text = "'ü'" ∧ a.range = ⟨⟨0, 4⟩, ⟨0, 7⟩⟩ := by
  intro w
  have answered : ((w.inferAt {} "a.lua" ⟨0, 99⟩).toOption.join.map fun a => (a.text, a.range))
      = some ("'ü'", ⟨⟨0, 4⟩, ⟨0, 7⟩⟩) := by decide +kernel
  have small {f : SourceFile} (found : w.project.file? f.id = some f) :
      f.text.utf8ByteSize < offsetCount := by
    have files : w.project.files = #[.parse 0 (normalizePath "a.lua") "x = 'ü'\nreturn x"] := rfl
    rw [Project.file?, files] at found
    obtain ⟨inside, same⟩ := Array.getElem?_eq_some_iff.mp found
    have only : f.id = 0 := Nat.lt_one_iff.mp inside
    simp only [only] at same
    have text : f.text = "x = 'ü'\nreturn x" := congrArg SourceFile.text same.symm
    rw [text]
    decide
  rcases inferAt_answers_or_refuses "/p" {} [] [("a.lua", "x = 'ü'\nreturn x")] []
    {} "a.lua" ⟨0, 99⟩
    with ⟨-, refused⟩ | ⟨rel, -, ⟨-, refused⟩ | ⟨f, found, -, ⟨-, refused⟩
      | ⟨o, -, -, -, -, -, -, ⟨none, -⟩ | ⟨a, id, answer, about⟩⟩⟩⟩
  · rw [refused] at answered
    exact absurd answered (Option.some_ne_none _).symm
  · rw [refused] at answered
    exact absurd answered (Option.some_ne_none _).symm
  · rw [refused] at answered
    exact absurd answered (Option.some_ne_none _).symm
  · rw [none] at answered
    exact absurd answered (Option.some_ne_none _).symm
  · rw [answer] at answered
    obtain ⟨text, range⟩ := Prod.mk.inj (Option.some.inj answered)
    exact ⟨f, o, id, a, answer, about (small found), text, range⟩

end Workspace

end LuaTyping
