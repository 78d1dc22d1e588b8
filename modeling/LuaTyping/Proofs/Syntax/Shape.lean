import LuaTyping.Proofs.Syntax.Realized

/-!
# What the tokens determine

The parser sees the kinds of the tokens, and a text adds the places.  So two texts with the same
kinds of tokens, whatever is written between them and however the tokens are written, have trees of
one shape, if the doc comments are left out, and the parser finds the same things at the same
tokens.  This includes texts that are full of errors.

* `Tree.shape`: the kinds of the nodes, comments left out.
* `Tree.Grows.shape_eq`, `Layout.shape_root`: the shape is that of the outline.
* `SyntaxError.finding?`: what an error says, and the token it points at.
* `Layout.finding?_syntaxError`: it points at the token of its fault.
* `Parsed.shape_and_findings_of_tokens_eq`: texts with the same kinds of tokens.
-/

namespace LuaTyping

/-! ## Shapes -/

/-- An ordered tree of node kinds. -/
inductive Shape
  | node (kind : NodeKind) (children : List Shape)

namespace Tree

/-- The kinds of the nodes below a node, comments left out, down to a depth. -/
def shapeWithin (t : Tree) : (depth : Nat) → NodeId → Shape
  | 0, id => .node (t.kind id) []
  | depth + 1, id =>
    .node (t.kind id)
      (((t.children id).filter fun c => t.kind c != .comment).map (t.shapeWithin depth))

/-- The kinds of the nodes of a tree, comments left out.  No path is longer than the number of
nodes. -/
def shape (t : Tree) : Shape := t.shapeWithin t.size t.root

end Tree

mutual

/-- The shape of a branch. -/
def Branch.shape : Branch → Shape
  | .node _ kind _ children => .node kind (Branch.shapes children)
termination_by structural b => b

/-- The shapes of branches in a row, comments left out. -/
def Branch.shapes : List Branch → List Shape
  | [] => []
  | b :: bs => if b.kind = .comment then Branch.shapes bs else b.shape :: Branch.shapes bs
termination_by structural bs => bs

end

mutual

/-- The shape of an outline. -/
def Outline.shape : Outline → Shape
  | .doc _ => .node .comment []
  | .node kind _ _ children => .node kind (Outline.shapes children)
termination_by structural o => o

/-- The shapes of outlines in a row, doc slots left out. -/
def Outline.shapes : List Outline → List Shape
  | [] => []
  | o :: os => if o.kind = .comment then Outline.shapes os else o.shape :: Outline.shapes os
termination_by structural os => os

end

namespace Branch

theorem shape_eq (b : Branch) : b.shape = .node b.kind (shapes b.children) := by
  cases b
  rfl

theorem shapes_eq_map (bs : List Branch) :
    shapes bs = (bs.filter fun b => b.kind != .comment).map shape := by
  induction bs with
  | nil => rfl
  | cons b bs ih =>
    rw [shapes, ih, List.filter_cons]
    by_cases comment : b.kind = .comment <;> simp [comment]

theorem shapes_append (bs cs : List Branch) : shapes (bs ++ cs) = shapes bs ++ shapes cs := by
  rw [shapes_eq_map, List.filter_append, List.map_append, ← shapes_eq_map, ← shapes_eq_map]

mutual

/-- The places of the nodes do not matter. -/
theorem shape_bare : (b : Branch) → b.bare.shape = b.shape
  | node _ kind _ children => by
    rw [bare, shape, shape, shapes_bareOf children]

theorem shapes_bareOf : (bs : List Branch) → shapes (bareOf bs) = shapes bs
  | [] => rfl
  | b :: bs => by
    rw [bareOf, shapes, shapes, kind_bare, shape_bare b, shapes_bareOf bs]

end

end Branch

namespace Tree.Grows

variable {t : Tree} {r b : Branch}

/-- A depth larger than the number of a node reaches everything below it. -/
theorem shapeWithin_eq (h : t.Grows r) {depth : Nat} (mem : b ∈ r.all) (deep : b.id < depth) :
    t.shapeWithin depth b.id = b.shape := by
  induction depth generalizing b with
  | zero => exact absurd deep (Nat.not_lt_zero _)
  | succ depth ih =>
    have kept : (t.children b.id).filter (fun c => t.kind c != .comment)
        = (b.children.filter fun c => c.kind != .comment).map Branch.id := by
      rw [h.children mem, List.filter_map]
      refine congrArg _ (List.filter_congr fun c child => ?_)
      rw [Function.comp_apply, h.kind (mem_of_child mem child)]
    rw [shapeWithin, kept, List.map_map, h.kind mem, Branch.shape_eq, Branch.shapes_eq_map]
    refine congrArg _ (List.map_congr_left fun c inside => ?_)
    have child := (List.mem_filter.mp inside).1
    have smaller := h.id_lt_id mem child
    exact ih (mem_of_child mem child) (by omega)

/-- The shape of a tree is that of its root. -/
theorem shape_eq (h : t.Grows r) : t.shape = r.shape := by
  have root := Branch.self_mem_all r
  rw [shape, h.root_eq]
  exact h.shapeWithin_eq root (h.id_lt_size root)

end Tree.Grows

namespace Layout

variable (l : Layout)

mutual

/-- Wherever the nodes of an outline stand, their shape is that of the outline. -/
theorem shapes_branches (next : Nat) : (o : Outline) →
    Branch.shapes (l.branches next o) = Outline.shapes [o]
  | .doc token => by
    rw [branches]
    split <;> rfl
  | .node kind first last children => by
    rw [branches, Branch.shapes, Branch.shape, shapes_branchesOf next children]
    rfl

theorem shapes_branchesOf (next : Nat) : (os : List Outline) →
    Branch.shapes (l.branchesOf next os) = Outline.shapes os
  | [] => rfl
  | o :: os => by
    have tail := shapes_branchesOf (next + (Branch.allOf (l.branches next o)).length) os
    rw [branchesOf, Branch.shapes_append, shapes_branches next o, tail, Outline.shapes,
      Outline.shapes, Outline.shapes]
    split <;> rfl

end

/-- The shape of a program is that of its main block. -/
theorem shape_root (body : Outline) :
    (l.root body).shape = .node .chunk (Outline.shapes [body]) := by
  rw [root, Branch.shape, shapes_branches]

end Layout

/-! ## Errors -/

/-- What an error says and the number of the token it points at; the number behind the last token
stands for the end of the text. -/
inductive Finding
  | unexpected (expected : String) (token : Nat)
  | unexpectedEnd (expected : String) (token : Nat)
  | tooDeep (limit token : Nat)
  deriving DecidableEq

/-- The number of the token that starts at an offset, or the number of all tokens. -/
def tokenAt (lexemes : Array Lexeme) (offset : Nat) : Nat :=
  lexemes.toList.findIdx fun x => x.span.start == offset

/-- What an error of the parser says, and where. -/
def SyntaxError.finding? (lexemes : Array Lexeme) : SyntaxError → Option Finding
  | .invalid _ => none
  | .unexpected _ e s => some (.unexpected e.text (tokenAt lexemes s.start))
  | .unexpectedEnd e s => some (.unexpectedEnd e.text (tokenAt lexemes s.start))
  | .tooDeep limit s => some (.tooDeep limit (tokenAt lexemes s.start))

/-- The same of a fault among `size` tokens. -/
def Fault.finding (limit size : Nat) : Fault → Finding
  | .unexpected token e => .unexpected e.text (min token size)
  | .unexpectedEnd e => .unexpectedEnd e.text size
  | .tooDeep token => .tooDeep limit (min token size)

namespace Layout

variable {l : Layout}

/-- No token starts at the end of the text. -/
theorem tokenAt_size (h : l.Ordered) :
    tokenAt l.lexemes l.text.utf8ByteSize = l.lexemes.size := by
  have length : l.lexemes.toList.length = l.lexemes.size := Array.length_toList
  rw [tokenAt, ← length]
  refine List.findIdx_eq_length.mpr fun x mem => ?_
  have nonempty := h.token_nonempty x mem
  have inside := h.token_inside x mem
  exact beq_eq_false_iff_ne.mpr (by omega)

/-- No two tokens start at the same place. -/
theorem tokenAt_tokenStart (h : l.Ordered) (i : Nat) :
    tokenAt l.lexemes (l.tokenStart i) = min i l.lexemes.size := by
  by_cases inside : i < l.lexemes.size
  · rw [Nat.min_eq_left (Nat.le_of_lt inside), tokenStart_of_lt inside, tokenAt,
      List.findIdx_eq (by simpa using inside)]
    refine ⟨beq_self_eq_true _, fun j before => ?_⟩
    have apart := List.pairwise_iff_getElem.mp h.tokens j i (by simp; omega) (by simpa using inside)
      before
    have nonempty := h.token_nonempty _ (Array.getElem_mem_toList (Nat.lt_trans before inside))
    simp only [Array.getElem_toList] at apart ⊢
    exact beq_eq_false_iff_ne.mpr (by omega)
  · rw [tokenStart_of_ge (Nat.le_of_not_lt inside), tokenAt_size h,
      Nat.min_eq_right (Nat.le_of_not_lt inside)]

/-- An error points at the token of its fault. -/
theorem finding?_syntaxError (h : l.Faithful) (limit : Nat) (f : Fault) :
    (l.syntaxError limit f).finding? l.lexemes = some (f.finding limit l.lexemes.size) := by
  cases f with
  | unexpected token e =>
    rw [syntaxError, SyntaxError.finding?, tokenSpan, tokenAt_tokenStart h.ordered, Fault.finding]
  | unexpectedEnd e =>
    rw [syntaxError, SyntaxError.finding?, Span.emptyAt_of_lt h.small, tokenAt_size h.ordered,
      Fault.finding]
  | tooDeep token =>
    rw [h.syntaxError_tooDeep, SyntaxError.finding?, tokenAt_tokenStart h.ordered, Fault.finding]

end Layout

/-! ## Texts -/

namespace Parsed

/-- What the parser finds in a text; the places that are no token are left out. -/
def findings (text : String) : List Finding :=
  (ofText text).errors.filterMap (SyntaxError.finding? (Lexed.ofText text).lexemes)

variable (text : String)

/-- What the parser makes of the kinds of the tokens of a text. -/
def program : Program :=
  Program.ofTokens maxNesting ((Lexed.ofText text).lexemes.map Lexeme.token).toList

theorem shape_ofText :
    (ofText text).tree.shape = .node .chunk (Outline.shapes [(program text).body]) := by
  obtain ⟨r, grows, bare, -⟩ := realizes maxNesting text
  rw [ofText, grows.shape_eq, ← Branch.shape_bare r, bare, Branch.shape_bare, Layout.shape_root]
  rfl

variable {text}

theorem findings_ofText (small : text.utf8ByteSize < offsetCount) :
    findings text
      = (program text).faults.map (Fault.finding maxNesting (Lexed.ofText text).lexemes.size) := by
  have silent : (Lexed.ofText text).invalid.toList.filterMap
      (SyntaxError.finding? (Lexed.ofText text).lexemes ∘ SyntaxError.invalid) = [] :=
    List.filterMap_eq_nil_iff.mpr fun _ _ => rfl
  rw [findings, ofText, errors_ofTextWithin, List.filterMap_append, List.filterMap_map,
    List.filterMap_map, silent, List.nil_append, ← List.filterMap_eq_map]
  exact List.filterMap_congr fun f _ =>
    Layout.finding?_syntaxError (Layout.faithful_ofLexed small) maxNesting f

end Parsed

/-- Two texts with the same kinds of tokens have trees of one shape, and the parser finds the same
things at the same tokens, where every place of the texts has an offset of its own. -/
theorem Parsed.shape_and_findings_of_tokens_eq {text text' : String}
    (same : (Lexed.ofText text).lexemes.map Lexeme.token
      = (Lexed.ofText text').lexemes.map Lexeme.token) :
    (ofText text).tree.shape = (ofText text').tree.shape
      ∧ (text.utf8ByteSize < offsetCount → text'.utf8ByteSize < offsetCount →
        findings text = findings text') := by
  have size : (Lexed.ofText text).lexemes.size = (Lexed.ofText text').lexemes.size := by
    have sizes := congrArg Array.size same
    rwa [Array.size_map, Array.size_map] at sizes
  have programs : program text = program text' := by rw [program, program, same]
  constructor
  · rw [shape_ofText, shape_ofText, programs]
  · intro small small'
    rw [findings_ofText small, findings_ofText small', programs, size]

/-- A doc comment and a place that is no token change nothing, nor does it matter that the texts
have a fault. -/
theorem Parsed.shape_and_findings_stray_end :
    (Lexed.ofText "--- doc\nlocal x = 1 end").lexemes.map Lexeme.token
        = (Lexed.ofText "local yy=0xF $ end").lexemes.map Lexeme.token
      ∧ (ofText "--- doc\nlocal x = 1 end").tree.shape = (ofText "local yy=0xF $ end").tree.shape
      ∧ findings "--- doc\nlocal x = 1 end" = findings "local yy=0xF $ end" := by
  have same : (Lexed.ofText "--- doc\nlocal x = 1 end").lexemes.map Lexeme.token
      = (Lexed.ofText "local yy=0xF $ end").lexemes.map Lexeme.token :=
    Array.toList_inj.mp (by decide +kernel)
  obtain ⟨shape, findings⟩ := shape_and_findings_of_tokens_eq same
  exact ⟨same, shape, findings (by decide) (by decide)⟩

example : Parsed.findings "--- doc\nlocal x = 1 end" = [.unexpected "statement" 4] := by
  decide +kernel

end LuaTyping
