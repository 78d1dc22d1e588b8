import LuaTyping.Infer.Expression
import LuaTyping.Proofs.Syntax.Realized
import LuaTyping.Proofs.Syntax.Respaced
import LuaTyping.Proofs.Token.Delimited

/-!
# The module that a call requires

`require` is called with a string in one of three notations, with or without parentheses, and
whichever it is, the module is the contents of the string.  So the whole way from the text is to be
gone: the words of the call are its only tokens, the tokens are one call without a fault, and what
the views find in its tree is the name in front and the string behind.

* `Lexed.Consists`: the tokens of a text in which nothing else but blanks stands.
* `Tree.CallsWithString`: a call of a name with one string, as the views find it.
* `CallsRequire`: the texts of such calls.
* `strings_however_delimited`: the notations of a string, and what a call requires through them.
-/

namespace LuaTyping

open Lexer (isGap isNameChar piecesFrom opening closing isQuote Quotable Bracketable Delimits)

/-! ## Tokens with blanks between them -/

namespace Lexed

/-- From an offset on there are these tokens, and blanks apart nothing else. -/
def Consists (offset : Nat) (cs : List Char) (xs : List Lexeme) : Prop :=
  (placed offset (piecesFrom cs #[]).toList).filterMap lexeme? = xs
    ∧ (placed offset (piecesFrom cs #[]).toList).filterMap comment? = []
    ∧ (placed offset (piecesFrom cs #[]).toList).filterMap invalid? = []

variable {offset : Nat} {blanks rest written contents cs : List Char} {xs : List Lexeme} {t : Token}
  {c : Char}

theorem consists_nil (offset : Nat) : Consists offset [] [] := by
  rw [Consists, piecesFrom]
  exact ⟨rfl, rfl, rfl⟩

theorem Consists.gap (blank : ∀ c ∈ blanks, isGap c = true)
    (next : ∀ c ∈ rest.head?, isGap c = false)
    (h : Consists (offset + byteLength blanks) rest xs) : Consists offset (blanks ++ rest) xs := by
  rw [Consists, Lexer.toList_piecesFrom_gaps blank next]
  by_cases none : blanks = []
  · subst none
    exact h
  · rw [if_neg none]
    exact h

theorem Consists.token (found : Lexer.scan c (cs ++ rest) = (.token t, cs.length))
    (h : Consists (offset + byteLength (c :: cs)) rest xs) :
    Consists offset (c :: cs ++ rest)
      (⟨t, .ofNumbers offset (offset + byteLength (c :: cs))⟩ :: xs) := by
  rw [Consists, Lexer.toList_piecesFrom_of_scan found]
  exact ⟨congrArg (List.cons _) h.1, h.2.1, h.2.2⟩

/-- A token of one character. -/
theorem Consists.symbol (found : Lexer.scan c rest = (.token t, 0))
    (h : Consists (offset + byteLength [c]) rest xs) :
    Consists offset (c :: rest) (⟨t, .ofNumbers offset (offset + byteLength [c])⟩ :: xs) := by
  have alone : Lexer.scan c ([] ++ rest) = (.token t, ([] : List Char).length) := found
  exact .token alone h

theorem Consists.string (delimits : Delimits contents t written)
    (h : Consists (offset + byteLength written) rest xs) :
    Consists offset (written ++ rest)
      (⟨t, .ofNumbers offset (offset + byteLength written)⟩ :: xs) := by
  obtain ⟨c, cs, rfl, -, -, found⟩ := delimits.scan_eq
  exact .token (found rest) h

/-- The word `require` in front of what is no part of a word. -/
theorem Consists.require (other : ∀ c ∈ rest.head?, isNameChar c = false)
    (h : Consists (offset + 7) rest xs) :
    Consists offset (requireName.toList ++ rest)
      (⟨.name, .ofNumbers offset (offset + 7)⟩ :: xs) := by
  have word : requireName.toList = 'r' :: ['e', 'q', 'u', 'i', 'r', 'e'] := by decide
  have all : ∀ c ∈ ['e', 'q', 'u', 'i', 'r', 'e'], isNameChar c = true :=
    List.all_eq_true.mp rfl
  rw [word]
  exact .token (Lexer.scan_word rfl rfl all other) h

theorem Consists.ofText_eq {text : String} (plain : ∀ tail, text.toList ≠ '#' :: '!' :: tail)
    (h : Consists 0 text.toList xs) : ofText text = ⟨xs.toArray, #[], #[]⟩ := by
  rw [Consists, ← Lexer.pieces_eq plain, ← lexemes_ofText, ← comments_ofText, ← invalid_ofText] at h
  obtain ⟨tokens, comments, invalid⟩ := h
  have parts : ofText text
      = ⟨(ofText text).lexemes, (ofText text).comments, (ofText text).invalid⟩ := rfl
  rw [parts, ← tokens, Array.toList_eq_nil_iff.mp comments, Array.toList_eq_nil_iff.mp invalid]

end Lexed

/-! ## A call with a string -/

/-- A call of a name with the text `callee`, and the first argument is a string with the text
`literal`. -/
structure Tree.CallsWithString (t : Tree) (call : NodeId) (callee literal : String) : Prop where
  named : ∃ c, t.callee? call = some c ∧ t.kind c = .nameExpr ∧ t.textOf c = callee
  string : ∃ args value l, t.args? call = some args ∧ (t.exprs args).head? = some value ∧
    t.kind value = .valueExpr ∧ t.valueForm? value = some (.literal l) ∧ t.textOf l = literal

/-- What such a call requires. -/
theorem Tree.CallsWithString.requireTarget?_eq {t : Tree} {call : NodeId} {literal : String}
    (h : t.CallsWithString call requireName literal) :
    t.requireTarget? call = stringContents? literal := by
  obtain ⟨c, callee, isName, named⟩ := h.named
  obtain ⟨args, value, l, found, first, isValue, form, text⟩ := h.string
  have name : (t.callee? call).bind (t.cast? .nameExpr) = some c := by
    simp [cast?, callee, isName]
  have contents : t.firstString? args = stringContents? literal := by
    simp [firstString?, exprString?, stringValue?, cast?, first, isValue, form, text]
  have require : (guard (t.textOf c = requireName) : Option Unit) = some () := if_pos named
  rw [requireTarget?, name, found]
  change (guard (t.textOf c = requireName) >>= fun _ => t.firstString? args) = _
  rw [require, ← contents]
  rfl

/-- The whole tree of a call of a name with one string. -/
def callBranch (whole stat callee args literal : Span) : Branch :=
  .node 7 .chunk whole [.node 6 .block stat [.node 5 .callStat stat [.node 4 .callExpr stat
    [.node 0 .nameExpr callee [],
      .node 3 .args args [.node 2 .valueExpr literal [.node 1 .literal literal []]]]]]]

/-- The only call of this tree. -/
theorem Tree.Grows.callsWithString {t : Tree} {whole stat callee args literal : Span}
    (h : t.Grows (callBranch whole stat callee args literal)) :
    (∀ id, t.kind id = .callExpr ↔ id = 4)
      ∧ t.CallsWithString 4 (callee.slice t.text) (literal.slice t.text) := by
  have each {b : Branch} (mem : b ∈ (callBranch whole stat callee args literal).all) :
      t.kind b.id = b.kind ∧ t.span b.id = b.span ∧ t.children b.id = b.children.map Branch.id :=
    ⟨h.kind mem, h.span mem, h.children mem⟩
  simp only [callBranch, Branch.all, Branch.allOf, List.append_nil, List.nil_append,
    List.cons_append, List.mem_cons, List.not_mem_nil, or_false, forall_eq_or_imp, forall_eq,
    Branch.id, Branch.kind, Branch.span, Branch.children, List.map_cons, List.map_nil] at each
  obtain ⟨name, lit, value, arg, call, stat_, block, chunk⟩ := each
  refine ⟨fun id => ⟨fun isCall => ?_, fun same => same ▸ call.1⟩, ⟨0, ?_, name.1, ?_⟩,
    ⟨3, 2, 1, ?_, ?_, value.1, ?_, ?_⟩⟩
  · obtain ⟨b, mem, kind, rfl⟩ := h.exists_mem_of_kind isCall (by decide)
    simp only [callBranch, Branch.all, Branch.allOf, List.append_nil, List.nil_append,
      List.cons_append, List.mem_cons, List.not_mem_nil, or_false] at mem
    rcases mem with rfl | rfl | rfl | rfl | rfl | rfl | rfl | rfl <;>
      first | rfl | cases kind
  · simp [callee?, exprAt?, expr?, call.2.2, name.1, NodeKind.isExpression]
  · rw [textOf, name.2.1]
  · simp [args?, child?, call.2.2, name.1, arg.1]
  · simp [exprs, arg.2.2, value.1, NodeKind.isExpression]
  · simp [valueForm?, value.2.2, lit.1]
  · rw [textOf, lit.2.1]

/-! ## The parser -/

/-- `Name String` -/
def bareCall : Outline :=
  .node .block (Mark.doc 0) (Mark.stop 1) [.node .callStat (Mark.doc 0) (Mark.stop 1) [.doc 0,
    .node .callExpr (Mark.start 0) (Mark.stop 1) [.leaf .nameExpr 0,
      .node .args (Mark.start 1) (Mark.stop 1)
        [.node .valueExpr (Mark.start 1) (Mark.stop 1) [.leaf .literal 1]]]]]

/-- `Name '(' String ')'` -/
def parenCall : Outline :=
  .node .block (Mark.doc 0) (Mark.stop 3) [.node .callStat (Mark.doc 0) (Mark.stop 3) [.doc 0,
    .node .callExpr (Mark.start 0) (Mark.stop 3) [.leaf .nameExpr 0,
      .node .args (Mark.start 1) (Mark.stop 3)
        [.node .valueExpr (Mark.start 2) (Mark.stop 2) [.leaf .literal 2]]]]]

theorem Program.ofTokens_bareCall {t : Token} (string : t = .quoted ∨ t = .longString) :
    Program.ofTokens maxNesting [.name, t] = ⟨bareCall, []⟩ := by
  rcases string with rfl | rfl <;> with_unfolding_all rfl

theorem Program.ofTokens_parenCall {t : Token} (string : t = .quoted ∨ t = .longString) :
    Program.ofTokens maxNesting [.name, .leftParen, t, .rightParen] = ⟨parenCall, []⟩ := by
  rcases string with rfl | rfl <;> with_unfolding_all rfl

namespace Layout

variable {l : Layout}

theorem offset_doc_of_bare (bare : l.comments = #[]) : l.offset (Mark.doc 0) = l.tokenStart 0 :=
  offset_doc_of_none (docSpan?_eq_none bare 0)

theorem root_bareCall (bare : l.comments = #[]) :
    l.root bareCall = callBranch ⟨0, l.text.utf8ByteSize⟩ ⟨l.tokenStart 0, l.tokenStop 1⟩
      ⟨l.tokenStart 0, l.tokenStop 0⟩ ⟨l.tokenStart 1, l.tokenStop 1⟩
      ⟨l.tokenStart 1, l.tokenStop 1⟩ := by
  simp [root, nodeCount, bareCall, callBranch, branches, branchesOf, Branch.all, Branch.allOf,
    Outline.leaf, docSpan?_eq_none bare, offset_doc_of_bare bare, offset_start, offset_stop]

theorem root_parenCall (bare : l.comments = #[]) :
    l.root parenCall = callBranch ⟨0, l.text.utf8ByteSize⟩ ⟨l.tokenStart 0, l.tokenStop 3⟩
      ⟨l.tokenStart 0, l.tokenStop 0⟩ ⟨l.tokenStart 1, l.tokenStop 3⟩
      ⟨l.tokenStart 2, l.tokenStop 2⟩ := by
  simp [root, nodeCount, parenCall, callBranch, branches, branchesOf, Branch.all, Branch.allOf,
    Outline.leaf, docSpan?_eq_none bare, offset_doc_of_bare bare, offset_start, offset_stop]

end Layout

/-- A text with nothing but the tokens of a call is read without faults, and its tree is the
call. -/
theorem Parsed.ofText_call {text : String} (small : text.utf8ByteSize < offsetCount)
    {xs : Array Lexeme} {body : Outline} {whole stat callee args literal : Span}
    (lexed : Lexed.ofText text = ⟨xs, #[], #[]⟩)
    (program : Program.ofTokens maxNesting (xs.toList.map Lexeme.token) = ⟨body, []⟩)
    (root : (Layout.ofLexed text ⟨xs, #[], #[]⟩).root body
      = callBranch whole stat callee args literal) :
    (ofText text).errors = [] ∧ (∀ id, (ofText text).tree.kind id = .callExpr ↔ id = 4)
      ∧ (ofText text).tree.CallsWithString 4 (callee.slice text) (literal.slice text) := by
  have errors := errors_ofTextWithin maxNesting text
  have grows := grows_root maxNesting small
  rw [lexed, Array.toList_map, program] at errors grows
  rw [root] at grows
  exact ⟨errors, grows.callsWithString⟩

/-! ## Calls of `require` -/

/-- The texts of calls of `require` with a string: blanks between the words, and parentheses around
the string or none. -/
inductive CallsRequire (written : List Char) : List Char → Prop
  | bare {blanks : List Char} : (∀ c ∈ blanks, isGap c = true) →
      CallsRequire written (requireName.toList ++ (blanks ++ written))
  | inParens {behind inner last : List Char} : (∀ c ∈ behind ++ inner ++ last, isGap c = true) →
      CallsRequire written
        (requireName.toList ++ (behind ++ ('(' :: (inner ++ (written ++ (last ++ [')']))))))

theorem byteLength_requireName : byteLength requireName.toList = 0 + 7 := by decide

/-- A text that begins with `require` begins with the name. -/
theorem slice_requireName {text : String} {cs : List Char}
    (chars : text.toList = requireName.toList ++ cs) :
    Span.slice text ⟨0, 0 + 7⟩ = requireName := by
  have split : text.toList = [] ++ requireName.toList ++ cs := chars
  have slice := Span.slice_eq split
  rwa [byteLength_requireName, byteLength_nil, Nat.zero_add, String.ofList_toList] at slice

/-- No text that begins with `require` is a script. -/
theorem requireName_not_script {text : String} {cs : List Char}
    (chars : text.toList = requireName.toList ++ cs) :
    ∀ tail, text.toList ≠ '#' :: '!' :: tail := by
  intro tail script
  exact absurd (List.cons.inj (chars.symm.trans script)).1 (by decide)

/-- Behind a word stand blanks, or else what is no part of a word. -/
theorem head_of_blanks {blanks rest : List Char} (blank : ∀ c ∈ blanks, isGap c = true)
    (next : ∀ c ∈ rest.head?, isNameChar c = false) :
    ∀ c ∈ (blanks ++ rest).head?, isNameChar c = false := by
  intro c first
  cases blanks with
  | nil => exact next c first
  | cons s blanks =>
    obtain rfl := Option.some.inj first
    exact Lexer.not_of_isGap _ (blank s List.mem_cons_self) (by decide)

namespace CallsRequire

variable {text : String} {contents written : List Char} {t : Token}

/-- The places of a text that have offsets of their own. -/
theorem ofNumbers_of_le (small : text.utf8ByteSize < offsetCount) {start stop : Nat}
    (order : start ≤ stop) (inside : stop ≤ text.utf8ByteSize) :
    Span.ofNumbers start stop = ⟨start, stop⟩ :=
  Span.ofNumbers_of_lt (by omega) (by omega)

/-- A string begins neither with a blank nor with a part of a word. -/
theorem head_of_delimits (delimits : Delimits contents t written) (rest : List Char) :
    ∀ c ∈ (written ++ rest).head?, isGap c = false ∧ isNameChar c = false := by
  obtain ⟨c, cs, rfl, solid, other, -⟩ := delimits.scan_eq
  intro d first
  obtain rfl := Option.some.inj first
  exact ⟨solid, other⟩

theorem isString_of_delimits (delimits : Delimits contents t written) :
    t = .quoted ∨ t = .longString := by
  cases delimits with
  | quotes => exact .inl rfl
  | brackets => exact .inr rfl

/-- `require` and a string behind it. -/
theorem callsWithString_bare (small : text.utf8ByteSize < offsetCount)
    (delimits : Delimits contents t written) {blanks : List Char}
    (blank : ∀ c ∈ blanks, isGap c = true)
    (chars : text.toList = requireName.toList ++ (blanks ++ written)) :
    (Parsed.ofText text).errors = []
      ∧ (∀ id, (Parsed.ofText text).tree.kind id = .callExpr ↔ id = 4)
      ∧ (Parsed.ofText text).tree.CallsWithString 4 requireName (String.ofList written) := by
  have head := head_of_delimits delimits []
  have size : text.utf8ByteSize = 0 + 7 + byteLength blanks + byteLength written := by
    rw [utf8ByteSize_eq, chars, byteLength_append, byteLength_append, byteLength_requireName,
      ← Nat.add_assoc]
  have consists : Lexed.Consists 0 text.toList [⟨.name, ⟨0, 0 + 7⟩⟩,
      ⟨t, ⟨0 + 7 + byteLength blanks, 0 + 7 + byteLength blanks + byteLength written⟩⟩] := by
    rw [← ofNumbers_of_le small (Nat.zero_le _) (by omega),
      ← ofNumbers_of_le small (Nat.le_add_right _ _) (by omega)]
    have last := Lexed.Consists.string delimits
      (Lexed.consists_nil (0 + 7 + byteLength blanks + byteLength written))
    rw [List.append_nil] at head last
    rw [chars]
    refine .require (head_of_blanks blank fun d first => (head d first).2) ?_
    exact .gap blank (fun d first => (head d first).1) last
  have string : Span.slice text ⟨0 + 7 + byteLength blanks,
      0 + 7 + byteLength blanks + byteLength written⟩ = String.ofList written := by
    have split : text.toList = requireName.toList ++ blanks ++ written ++ [] := by
      rw [chars, List.append_nil, List.append_assoc]
    have slice := Span.slice_eq split
    rwa [byteLength_append, byteLength_requireName] at slice
  have read := Parsed.ofText_call small (consists.ofText_eq (requireName_not_script chars))
    (Program.ofTokens_bareCall (isString_of_delimits delimits)) (Layout.root_bareCall rfl)
  rw [← slice_requireName chars, ← string]
  exact read

/-- `require` and a string in parentheses behind it. -/
theorem callsWithString_inParens (small : text.utf8ByteSize < offsetCount)
    (delimits : Delimits contents t written)
    {behind inner last : List Char} (blank : ∀ c ∈ behind ++ inner ++ last, isGap c = true)
    (chars : text.toList
      = requireName.toList ++ (behind ++ ('(' :: (inner ++ (written ++ (last ++ [')'])))))) :
    (Parsed.ofText text).errors = []
      ∧ (∀ id, (Parsed.ofText text).tree.kind id = .callExpr ↔ id = 4)
      ∧ (Parsed.ofText text).tree.CallsWithString 4 requireName (String.ofList written) := by
  have head := head_of_delimits delimits (last ++ [')'])
  rw [List.append_assoc] at blank
  have blankBehind : ∀ c ∈ behind, isGap c = true := fun c mem =>
    blank c (List.mem_append_left _ mem)
  have blankInner : ∀ c ∈ inner, isGap c = true := fun c mem =>
    blank c (List.mem_append_right _ (List.mem_append_left _ mem))
  have blankLast : ∀ c ∈ last, isGap c = true := fun c mem =>
    blank c (List.mem_append_right _ (List.mem_append_right _ mem))
  have paren {c d : Char} {rest : List Char} (first : d ∈ (c :: rest).head?) : d = c :=
    (Option.some.inj first).symm
  -- where the opening parenthesis, the string and the closing parenthesis start
  let m := 0 + 7 + byteLength behind
  let n := m + byteLength ['('] + byteLength inner
  let k := n + byteLength written + byteLength last
  have split : text.toList
      = requireName.toList ++ behind ++ ['('] ++ inner ++ written ++ (last ++ [')']) := by
    simp [chars]
  have size : text.utf8ByteSize = k + byteLength [')'] := by
    simp only [utf8ByteSize_eq, split, byteLength_append, byteLength_requireName, k, n, m,
      Nat.add_assoc]
  have consists : Lexed.Consists 0 text.toList [⟨.name, ⟨0, 0 + 7⟩⟩,
      ⟨.leftParen, ⟨m, m + byteLength ['(']⟩⟩, ⟨t, ⟨n, n + byteLength written⟩⟩,
      ⟨.rightParen, ⟨k, k + byteLength [')']⟩⟩] := by
    rw [← ofNumbers_of_le small (Nat.zero_le _) (by omega),
      ← ofNumbers_of_le small (Nat.le_add_right m _) (by omega),
      ← ofNumbers_of_le small (Nat.le_add_right n _) (by omega),
      ← ofNumbers_of_le small (Nat.le_add_right k _) (by omega)]
    have closes : Lexed.Consists k [')']
        [⟨.rightParen, .ofNumbers k (k + byteLength [')'])⟩] :=
      .symbol rfl (Lexed.consists_nil _)
    have string := Lexed.Consists.string delimits
      (.gap blankLast (fun d first => paren first ▸ rfl) closes)
    have opens : Lexed.Consists m ('(' :: (inner ++ (written ++ (last ++ [')']))))
        [⟨.leftParen, .ofNumbers m (m + byteLength ['('])⟩,
          ⟨t, .ofNumbers n (n + byteLength written)⟩,
          ⟨.rightParen, .ofNumbers k (k + byteLength [')'])⟩] :=
      .symbol rfl (.gap blankInner (fun d first => (head d first).1) string)
    rw [chars]
    refine .require (head_of_blanks blankBehind fun d first => paren first ▸ rfl) ?_
    exact .gap blankBehind (fun d first => paren first ▸ rfl) opens
  have string : Span.slice text ⟨n, n + byteLength written⟩ = String.ofList written := by
    have slice := Span.slice_eq split
    rwa [byteLength_append, byteLength_append, byteLength_append, byteLength_requireName] at slice
  have read := Parsed.ofText_call small (consists.ofText_eq (requireName_not_script chars))
    (Program.ofTokens_parenCall (isString_of_delimits delimits)) (Layout.root_parenCall rfl)
  rw [← slice_requireName chars, ← string]
  exact read

/-- The text of a call of `require` with a string is read without faults, and its call has the
string. -/
theorem callsWithString (small : text.utf8ByteSize < offsetCount)
    (h : CallsRequire written text.toList)
    (delimits : Delimits contents t written) :
    (Parsed.ofText text).errors = []
      ∧ (∀ id, (Parsed.ofText text).tree.kind id = .callExpr ↔ id = 4)
      ∧ (Parsed.ofText text).tree.CallsWithString 4 requireName (String.ofList written) := by
  generalize chars : text.toList = whole at h
  cases h with
  | bare blank => exact callsWithString_bare small delimits blank chars
  | inParens blank => exact callsWithString_inParens small delimits blank chars

end CallsRequire

/-! ## The notations of a string -/

theorem dropNewline_eq_self {cs : List Char} (line : ¬['\n'] <+: cs)
    (longLine : ¬['\r', '\n'] <+: cs) : dropNewline cs = cs := by
  fun_cases dropNewline cs with
  | case1 cs => exact absurd ⟨cs, rfl⟩ longLine
  | case2 cs => exact absurd ⟨cs, rfl⟩ line
  | case3 => rfl

/-- A string is what stands between its delimiters, and no notation of it makes a difference.
Every place of the texts has an offset of its own.

Between two quotes, and between two long brackets of a level, what may stand there makes one token,
and the contents of a literal with this text are what stands there; between long brackets a line end
at the start is left out.  If there is none, every call of `require` with the string requires the
module of this name, in whichever notation the string is written, with or without parentheses. -/
theorem strings_however_delimited (contents : List Char) :
    (∀ q, isQuote q = true → Quotable q contents → ∀ text : String,
      text.toList = q :: (contents ++ [q]) →
        (text.utf8ByteSize < offsetCount →
          Lexed.ofText text = ⟨#[⟨.quoted, ⟨0, text.utf8ByteSize⟩⟩], #[], #[]⟩)
        ∧ ∀ (t : Tree) (literal : NodeId), t.textOf literal = text →
          t.stringValue? literal = some (String.ofList contents))
    ∧ (∀ level, Bracketable level contents → ∀ text : String,
      text.toList = opening level ++ contents ++ closing level →
        (text.utf8ByteSize < offsetCount →
          Lexed.ofText text = ⟨#[⟨.longString, ⟨0, text.utf8ByteSize⟩⟩], #[], #[]⟩)
        ∧ ∀ (t : Tree) (literal : NodeId), t.textOf literal = text →
          t.stringValue? literal = some (String.ofList (dropNewline contents)))
    ∧ (¬['\n'] <+: contents → ¬['\r', '\n'] <+: contents → ∀ token written,
      Delimits contents token written →
        (∀ (t : Tree) (call : NodeId), t.CallsWithString call requireName (String.ofList written) →
          t.requireTarget? call = some (String.ofList contents))
        ∧ ∀ text : String, text.utf8ByteSize < offsetCount → CallsRequire written text.toList →
          (Parsed.ofText text).errors = [] ∧ ∃ call,
            (∀ id, (Parsed.ofText text).tree.kind id = .callExpr ↔ id = call)
            ∧ (Parsed.ofText text).tree.requireTarget? call = some (String.ofList contents)) := by
  refine ⟨fun q quote quotable text chars => ?_, fun level bracketable text chars => ?_,
    fun line longLine token written delimits => ?_⟩
  · have delimits : Delimits contents .quoted text.toList := by
      rw [chars]
      exact .quotes quote quotable
    refine ⟨fun small => delimits.ofText_eq small, fun t literal same => ?_⟩
    rw [Tree.stringValue?, same, ← text.ofList_toList, chars]
    exact stringContents?_quotes quote contents
  · have delimits : Delimits contents .longString text.toList := by
      rw [chars]
      exact .brackets bracketable
    refine ⟨fun small => delimits.ofText_eq small, fun t literal same => ?_⟩
    rw [Tree.stringValue?, same, ← text.ofList_toList, chars]
    exact stringContents?_brackets level contents
  · have value := delimits.stringContents?_eq (dropNewline_eq_self line longLine)
    refine ⟨fun t call calls => calls.requireTarget?_eq.trans value,
      fun text small calls => ?_⟩
    obtain ⟨clean, only, string⟩ := calls.callsWithString small delimits
    exact ⟨clean, 4, only, string.requireTarget?_eq.trans value⟩

/-- The module `a.]b` between long brackets, in parentheses. -/
theorem strings_however_delimited_brackets :
    (Parsed.ofText "require( [=[a.]b]=] )").errors = [] ∧ ∃ call,
      (∀ id, (Parsed.ofText "require( [=[a.]b]=] )").tree.kind id = .callExpr ↔ id = call)
      ∧ (Parsed.ofText "require( [=[a.]b]=] )").tree.requireTarget? call = some "a.]b" := by
  have bracketable : Bracketable 1 "a.]b".toList := Lexer.bracketable_iff.mpr (by decide)
  have calls : CallsRequire (opening 1 ++ "a.]b".toList ++ closing 1)
      (requireName.toList ++ ([] ++ ('(' :: ([' '] ++ (opening 1 ++ "a.]b".toList ++ closing 1
        ++ ([' '] ++ [')'])))))) :=
    .inParens (List.all_eq_true.mp rfl)
  exact ((strings_however_delimited "a.]b".toList).2.2 (by decide) (by decide) _ _
    (.brackets bracketable)).2 "require( [=[a.]b]=] )" (by decide) calls

end LuaTyping
