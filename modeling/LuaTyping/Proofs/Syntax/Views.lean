import LuaTyping.Infer.Expression
import LuaTyping.Proofs.Syntax.Standing
import LuaTyping.Proofs.Token.Written

/-!
# What the views find

The views read the children of a node by their position or by their kind, and what they do not find
they leave out without a word.  In a text without faults nothing is left out: whatever a view looks
for below a node of its kind is there, operators are among those that have a type, and the form of a
literal is that of its token.

What a view finds depends on the kinds of the children alone, so it is enough to know which kinds
the rules put below a node.

* `NodeKind.Expects`: the kinds below a node that the views look for.
* `Phrase.Rule.expects`, `Parsed.expects`: they are there.
* `Tree.ViewsAgree`: what the views of a tree find.
* `Parsed.viewsAgree`: the views of a text without faults.
-/

namespace LuaTyping

open NodeKind (isExpression isOperand)
open Phrase (count group kinds word firstMark lastMark)

/-! ## Kinds -/

/-- The kinds of the children that the views of a node look for. -/
def NodeKind.Expects : NodeKind → List NodeKind → Prop
  | .valueExpr, ks => ∃ k, ks = [k] ∧ k.isOperand = true
  | .unaryExpr, ks => ∃ k, ks = [.operator, k] ∧ k.isExpression = true
  | .binaryExpr, ks =>
    ∃ k k', ks = [k, .operator, k'] ∧ k.isExpression = true ∧ k'.isExpression = true
  | .parenExpr, ks => ∃ k, ks = [k] ∧ k.isExpression = true
  | .fieldExpr, ks | .methodExpr, ks => ∃ k, ks = [k, .name] ∧ k.isExpression = true
  | .indexExpr, ks => ∃ k k', ks = [k, k'] ∧ k.isExpression = true ∧ k'.isExpression = true
  | .callExpr, ks => ∃ k, ks = [k, .args] ∧ k.isExpression = true
  | .args, ks | .exprList, ks => ∀ k ∈ ks, k.isExpression = true
  | .varList, ks => ks ≠ [] ∧ ∀ k ∈ ks, k.isExpression = true
  | .tableField, ks => ∃ k, ks.getLast? = some k ∧ k.isExpression = true
  | .funcName, ks => .nameExpr ∈ ks
  | .assignStat, ks => .varList ∈ ks ∧ .exprList ∈ ks
  | .funcStat, ks => .funcName ∈ ks ∧ .funcBody ∈ ks
  | .localFuncStat, ks => .nameDef ∈ ks ∧ .funcBody ∈ ks
  | .chunk, ks | .funcBody, ks | .whileStat, ks | .repeatStat, ks | .numericForStat, ks
  | .genericForStat, ks => .block ∈ ks
  | _, _ => True

namespace Phrase

variable {P : NodeKind → Bool} {kind : NodeKind} {p : Phrase} {ps : List Phrase}

theorem Is.exists_group (h : p.Is P) : ∃ k qs, p = group k qs ∧ P k = true := by
  cases p with
  | word => exact h.elim
  | group k qs => exact ⟨k, qs, rfl, h⟩

theorem Is.ne_group {k : NodeKind} (h : p.Is P) (other : P k = false) : p ≠ group k ps := by
  rintro rfl
  exact absurd (h.symm.trans other) (by decide)

theorem forall_mem_kinds (may : ∀ q ∈ ps, q.May P) : ∀ k ∈ kinds ps, P k = true := by
  intro k mem
  obtain ⟨q, inside, found⟩ := List.mem_filterMap.mp mem
  cases q with
  | word => exact absurd found (by simp)
  | group k' qs =>
    obtain rfl := Option.some.inj found
    exact may _ inside

theorem block_mem_kinds_loopBody (stats : List Phrase) : .block ∈ kinds (loopBody stats) :=
  List.mem_singleton.mpr rfl

/-- The rules put below a node what the views look for. -/
theorem Rule.expects (rule : Rule kind ps) : kind.Expects (kinds ps) := by
  cases rule with
  | name _ isName =>
    cases kind <;> first
      | exact absurd isName (by decide)
      | trivial
  | value e =>
    obtain ⟨k, qs, rfl, operand⟩ := e.exists_group
    exact ⟨k, rfl, operand⟩
  | unary _ e =>
    obtain ⟨k, qs, rfl, expression⟩ := e.exists_group
    exact ⟨k, rfl, expression⟩
  | binary _ left right =>
    obtain ⟨k, qs, rfl, expression⟩ := left.exists_group
    obtain ⟨k', qs', rfl, expression'⟩ := right.exists_group
    exact ⟨k, k', rfl, expression, expression'⟩
  | paren e =>
    obtain ⟨k, qs, rfl, expression⟩ := e.exists_group
    exact ⟨k, rfl, expression⟩
  | field _ e | method _ e =>
    obtain ⟨k, qs, rfl, expression⟩ := e.exists_group
    exact ⟨k, rfl, expression⟩
  | index e key =>
    obtain ⟨k, qs, rfl, expression⟩ := e.exists_group
    obtain ⟨k', qs', rfl, expression'⟩ := key.exists_group
    exact ⟨k, k', rfl, expression, expression'⟩
  | call e args =>
    obtain ⟨k, qs, rfl, expression⟩ := e.exists_group
    obtain ⟨k', qs', rfl, isArgs⟩ := args.exists_group
    obtain rfl := eq_of_beq isArgs
    exact ⟨k, rfl, expression⟩
  | args each => exact forall_mem_kinds each
  | keyed key v =>
    obtain ⟨k, qs, rfl, -⟩ := key.exists_group
    obtain ⟨k', qs', rfl, expression⟩ := v.exists_group
    exact ⟨k', rfl, expression⟩
  | named _ v | positional v =>
    obtain ⟨k, qs, rfl, expression⟩ := v.exists_group
    exact ⟨k, rfl, expression⟩
  | exprList head each =>
    exact forall_mem_kinds (List.forall_mem_cons.mpr ⟨head.may, each⟩)
  | varList head each =>
    refine ⟨?_, forall_mem_kinds (List.forall_mem_cons.mpr ⟨head.may, each⟩)⟩
    obtain ⟨k, qs, rfl, -⟩ := head.exists_group
    exact List.cons_ne_nil _ _
  | funcName => exact List.mem_cons_self
  | funcBody => exact List.mem_cons_of_mem _ List.mem_cons_self
  | localFunction => exact ⟨List.mem_cons_self, List.mem_cons_of_mem _ List.mem_cons_self⟩
  | function => exact ⟨List.mem_cons_self, List.mem_cons_of_mem _ List.mem_cons_self⟩
  | «while» e =>
    obtain ⟨k, qs, rfl, -⟩ := e.exists_group
    exact List.mem_cons_of_mem _ (block_mem_kinds_loopBody _)
  | «repeat» => exact List.mem_cons_self
  | @numericFor bounds stats =>
    have last : .block ∈ kinds (bounds ++ loopBody stats) := by
      rw [kinds_append]
      exact List.mem_append_right _ (block_mem_kinds_loopBody stats)
    exact List.mem_cons_of_mem _ last
  | genericFor =>
    exact List.mem_cons_of_mem _ (List.mem_cons_of_mem _ (block_mem_kinds_loopBody _))
  | @assign targets marks values =>
    have last : .exprList ∈ kinds (marks ++ [group .exprList values]) := by
      rw [kinds_append]
      exact List.mem_append_right _ List.mem_cons_self
    exact ⟨List.mem_cons_self, List.mem_cons_of_mem _ last⟩
  | _ => trivial

end Phrase

/-- Comments in front of a statement do not matter. -/
theorem NodeKind.Expects.append_left {kind : NodeKind} {docs ks : List NodeKind}
    (h : kind.Expects ks) (stat : kind.isStatement = true) : kind.Expects (docs ++ ks) := by
  cases kind <;> first
    | trivial
    | exact absurd stat (by decide)
    | exact List.mem_append_right _ h
    | exact h.imp (List.mem_append_right _) (List.mem_append_right _)

/-! ## Views and kinds -/

namespace Tree

variable {t : Tree} {id : NodeId} {k k' : NodeKind} {ks : List NodeKind}

/-- The kinds of the children of a node. -/
def childKinds (t : Tree) (id : NodeId) : List NodeKind := (t.children id).map t.kind

theorem isSome_child? (mem : k ∈ t.childKinds id) : (t.child? id k).isSome = true := by
  obtain ⟨c, child, same⟩ := List.mem_map.mp mem
  exact List.find?_isSome.mpr ⟨c, child, beq_iff_eq.mpr same⟩

theorem of_child?_eq_some {c : NodeId} (found : t.child? id k = some c) :
    c ∈ t.children id ∧ t.kind c = k := by
  have same := List.find?_some found
  exact ⟨List.mem_of_find?_eq_some found, eq_of_beq same⟩

theorem isSome_exprAt? {n : Nat} (found : (t.childKinds id)[n]? = some k)
    (expression : k.isExpression = true) : (t.exprAt? id n).isSome = true := by
  rw [childKinds, List.getElem?_map] at found
  obtain ⟨c, here, rfl⟩ := Option.map_eq_some_iff.mp found
  rw [exprAt?, here, Option.bind_some, expr?, if_pos expression]
  rfl

theorem exprs_ne_nil (mem : k ∈ t.childKinds id) (expression : k.isExpression = true) :
    t.exprs id ≠ [] := by
  obtain ⟨c, child, rfl⟩ := List.mem_map.mp mem
  exact List.ne_nil_of_mem (List.mem_filter.mpr ⟨child, expression⟩)

theorem isSome_valueForm? (kinds : t.childKinds id = [k]) (operand : k.isOperand = true) :
    (t.valueForm? id).isSome = true := by
  obtain ⟨c, only, rfl⟩ := List.map_eq_singleton_iff.mp kinds
  rw [valueForm?, only, List.head?_cons, Option.bind_some, expr?]
  generalize t.kind c = k at operand
  cases k <;> first
    | rfl
    | exact absurd operand (by decide)

theorem isSome_fieldValue? (last : (t.childKinds id).getLast? = some k)
    (expression : k.isExpression = true) : (t.fieldValue? id).isSome = true := by
  rw [childKinds, List.getLast?_map] at last
  obtain ⟨c, here, rfl⟩ := Option.map_eq_some_iff.mp last
  rw [fieldValue?, here, Option.bind_some, expr?, if_pos expression]
  rfl

/-- What the views of a tree find below nodes of their kinds. -/
structure ViewsAgree (t : Tree) : Prop where
  value : ∀ v, t.kind v = .valueExpr → (t.valueForm? v).isSome = true
  binary : ∀ e, t.kind e = .binaryExpr →
    (t.leftOperand? e).isSome = true ∧ (t.rightOperand? e).isSome = true
      ∧ ∃ op, t.operator? e = some op ∧ (isChoice op = true ∨ (binaryType? op).isSome = true)
  unary : ∀ e, t.kind e = .unaryExpr →
    (t.unaryOperand? e).isSome = true
      ∧ ∃ op, t.operator? e = some op ∧ (unaryType? op).isSome = true
  call : ∀ e, t.kind e = .callExpr → (t.callee? e).isSome = true ∧ (t.args? e).isSome = true
  member : ∀ e, t.kind e = .fieldExpr ∨ t.kind e = .methodExpr →
    (t.owner? e).isSome = true ∧ (t.nameText? e).isSome = true
  element : ∀ e, t.kind e = .indexExpr →
    (t.owner? e).isSome = true ∧ (t.indexKey? e).isSome = true
  paren : ∀ e, t.kind e = .parenExpr → (t.parenInner? e).isSome = true
  field : ∀ f, t.kind f = .tableField → (t.fieldValue? f).isSome = true
  assignment : ∀ s, t.kind s = .assignStat → t.targets s ≠ [] ∧ (t.values? s).isSome = true
  function : ∀ s, t.kind s = .funcStat →
    ((t.funcName? s).bind t.nameBase?).isSome = true ∧ (t.body? s).isSome = true
  localFunction : ∀ s, t.kind s = .localFuncStat →
    (t.ownName? s).isSome = true ∧ (t.body? s).isSome = true
  block : ∀ id, t.kind id ∈ [NodeKind.chunk, .funcBody, .whileStat, .repeatStat, .numericForStat,
    .genericForStat] → (t.block? id).isSome = true
  list : ∀ id, t.kind id ∈ [NodeKind.exprList, .varList, .args] → t.exprs id = t.children id
  literal : ∀ id, t.kind id = .literal → ∃ x ∈ (Lexed.ofText t.text).lexemes.toList,
    x.span = t.span id ∧ x.token.literalForm? = some (t.literalForm id)

end Tree

/-! ## Texts -/

/-- The node of a word stands where the word stands. -/
theorem Branch.Stands.exists_lexeme_of_word {l : Layout} {b : Branch} {i : Nat} {kind : NodeKind}
    {w : Word} (stands : b.Stands l i kind [word w]) (notStat : kind.isStatement = false)
    (notBlock : kind ≠ .block) :
    ∃ x ∈ l.lexemes.toList, x.span = b.span ∧ x.token = w.token := by
  obtain ⟨bound, token⟩ := stands.exists_lexeme (p := []) (s := []) (t := w.token) (m := i)
    rfl rfl
  have start : firstMark kind i 1 = Mark.start i := if_neg (by simp [notStat, notBlock])
  have stop : lastMark kind i 1 = Mark.stop i := by
    rw [Phrase.lastMark_of_pos _ _ Nat.one_pos, Phrase.stopBefore_succ]
  refine ⟨l.lexemes[i], Array.getElem_mem_toList bound, ?_, token⟩
  rw [stands.span_eq, Layout.spanOf]
  show _ = Span.mk (l.offset (firstMark kind i 1)) (l.offset (lastMark kind i 1))
  rw [start, stop, Layout.offset_start, Layout.offset_stop, Layout.tokenStart_of_lt bound,
    Layout.tokenStop_of_lt bound]

/-- The operators that stand between two operands have a type. -/
theorem Token.known_of_binaryPowers {t : Token} (binary : t.binaryPowers.isSome = true) :
    t.varies = false
      ∧ (isChoice t.spelling = true ∨ (binaryType? t.spelling).isSome = true) := by
  cases t <;> first
    | exact absurd binary (by decide)
    | decide

/-- The operators that stand in front of an operand have a type. -/
theorem Token.known_of_isUnary {t : Token} (unary : t.isUnary = true) :
    t.varies = false ∧ (unaryType? t.spelling).isSome = true := by
  cases t <;> first
    | exact absurd unary (by decide)
    | decide

namespace Parsed

variable {text : String} (small : text.utf8ByteSize < offsetCount)

include small

/-- Below a node of a text without faults is what its views look for. -/
theorem expects (clean : (ofText text).errors = []) {id : NodeId} {kind : NodeKind}
    (same : (ofText text).tree.kind id = kind) :
    kind.Expects ((ofText text).tree.childKinds id) := by
  subst same
  obtain ⟨r, b, grows, root, -, only, ⟨stats, block⟩, each⟩ := exists_standing small clean
  by_cases inside : id < (ofText text).tree.size
  · obtain ⟨d, mem, rfl⟩ := grows.exists_mem inside
    have kinds : (ofText text).tree.childKinds d.id = d.children.map Branch.kind := by
      rw [Tree.childKinds, grows.children mem, List.map_map]
      exact List.map_congr_left fun c child =>
        grows.kind (Tree.Grows.mem_of_child mem child)
    rw [grows.kind mem, kinds]
    rcases each d mem with rfl | comment | ⟨i, kind, parts, stands⟩
    · rw [root, only, List.map_singleton, block.kind_eq]
      exact List.mem_singleton.mpr rfl
    · rw [comment.1]
      trivial
    · obtain ⟨docs, -, none, below⟩ := stands.map_kind_children
      have expects := stands.rule.expects
      rw [stands.kind_eq, below]
      cases stat : kind.isStatement with
      | true => exact expects.append_left stat
      | false => rwa [none stat]
  · rw [Tree.kind_of_ge (Nat.le_of_not_lt inside)]
    trivial

/-- A node of a kind of its own stands for a group. -/
theorem exists_stands (clean : (ofText text).errors = []) {id : NodeId} {kind : NodeKind}
    (same : (ofText text).tree.kind id = kind) (own : kind ∉ [.error, .chunk, .comment]) :
    ∃ r b i parts, (ofText text).tree.Grows r ∧ b ∈ r.all ∧ b.id = id
      ∧ b.Stands (Layout.ofText text) i kind parts := by
  obtain ⟨r, -, grows, root, -, -, -, each⟩ := exists_standing small clean
  have inside : id < (ofText text).tree.size := by
    refine Nat.lt_of_not_le fun outside => own ?_
    rw [← same, Tree.kind_of_ge outside]
    exact List.mem_cons_self
  obtain ⟨b, mem, rfl⟩ := grows.exists_mem inside
  rw [grows.kind mem] at same
  rcases each b mem with rfl | comment | ⟨i, k, parts, stands⟩
  · exact absurd (by simp [← same, root]) own
  · exact absurd (by simp [← same, comment.1]) own
  · obtain rfl : k = kind := stands.kind_eq.symm.trans same
    exact ⟨r, b, i, parts, grows, mem, rfl, stands⟩

/-- The operator of an operation, if it can be written in one way only. -/
theorem operator?_eq {r b : Branch} {i : Nat} {kind : NodeKind} {parts : List Phrase} {w : Word}
    (grows : (ofText text).tree.Grows r) (mem : b ∈ r.all)
    (stands : b.Stands (Layout.ofText text) i kind parts)
    (has : .operator ∈ (ofText text).tree.childKinds b.id)
    (only : ∀ ps, group .operator ps ∈ parts → ps = [word w]) (fixed : w.token.varies = false) :
    (ofText text).tree.operator? b.id = some w.token.spelling := by
  obtain ⟨c, found⟩ := Option.isSome_iff_exists.mp (Tree.isSome_child? has)
  obtain ⟨child, isOperator⟩ := Tree.of_child?_eq_some found
  rw [grows.children mem] at child
  obtain ⟨d, below, rfl⟩ := List.mem_map.mp child
  have mem' := Tree.Grows.mem_of_child mem below
  rw [grows.kind mem'] at isOperator
  rcases stands.child below with ⟨comment, -⟩ | ⟨qs, k, ps, rs, rfl, part⟩
  · exact absurd (comment.1.symm.trans isOperator) (by decide)
  obtain rfl : k = .operator := part.kind_eq.symm.trans isOperator
  obtain rfl := only ps (by simp)
  obtain ⟨x, listed, place, token⟩ := part.exists_lexeme_of_word rfl (by decide)
  obtain ⟨w', same, written⟩ := Lexed.exists_word small listed
  have token' : w'.token = w.token := same.trans token
  rw [← token'] at fixed
  rw [Tree.operator?, found, Option.map_some, Tree.textOf, grows.span mem', ← place, ← token',
    ← w'.text_eq_spelling fixed]
  exact congrArg some written.symm

/-- The operator of a binary operation has a type. -/
theorem operator?_binary (clean : (ofText text).errors = []) {e : NodeId}
    (binary : (ofText text).tree.kind e = .binaryExpr) :
    ∃ op, (ofText text).tree.operator? e = some op
      ∧ (isChoice op = true ∨ (binaryType? op).isSome = true) := by
  obtain ⟨r, b, i, parts, grows, mem, rfl, stands⟩ := exists_stands small clean binary (by decide)
  obtain ⟨k, k', kinds, -, -⟩ := expects small clean binary
  have has : .operator ∈ (ofText text).tree.childKinds b.id := by simp [kinds]
  cases stands.rule with
  | binary op left right =>
    have powers : op.word.token.binaryPowers.isSome = true := by rw [op.powers]; rfl
    obtain ⟨fixed, known⟩ := Token.known_of_binaryPowers powers
    refine ⟨_, operator?_eq small grows mem stands has (fun ps mem => ?_) fixed, known⟩
    rcases List.mem_cons.mp mem with here | mem
    · exact absurd here.symm (left.ne_group rfl)
    · rcases List.mem_cons.mp mem with here | mem
      · exact (Phrase.group.inj here).2
      · exact absurd (List.mem_singleton.mp mem).symm (right.ne_group rfl)
  | name _ isName => exact absurd isName (by decide)

/-- The operator of a unary operation has a type. -/
theorem operator?_unary (clean : (ofText text).errors = []) {e : NodeId}
    (unary : (ofText text).tree.kind e = .unaryExpr) :
    ∃ op, (ofText text).tree.operator? e = some op ∧ (unaryType? op).isSome = true := by
  obtain ⟨r, b, i, parts, grows, mem, rfl, stands⟩ := exists_stands small clean unary (by decide)
  obtain ⟨k, kinds, -⟩ := expects small clean unary
  have has : .operator ∈ (ofText text).tree.childKinds b.id := by simp [kinds]
  cases stands.rule with
  | unary op operand =>
    obtain ⟨fixed, known⟩ := Token.known_of_isUnary op.isUnary
    refine ⟨_, operator?_eq small grows mem stands has (fun ps mem => ?_) fixed, known⟩
    rcases List.mem_cons.mp mem with here | mem
    · exact (Phrase.group.inj here).2
    · exact absurd (List.mem_singleton.mp mem).symm (operand.ne_group rfl)
  | name _ isName => exact absurd isName (by decide)

/-- The form of a literal is that of its token. -/
theorem literalForm_eq (clean : (ofText text).errors = []) {id : NodeId}
    (literal : (ofText text).tree.kind id = .literal) :
    ∃ x ∈ (Lexed.ofText text).lexemes.toList, x.span = (ofText text).tree.span id
      ∧ x.token.literalForm? = some ((ofText text).tree.literalForm id) := by
  obtain ⟨r, b, i, parts, grows, mem, rfl, stands⟩ := exists_stands small clean literal (by decide)
  cases stands.rule with
  | @literal w isLiteral =>
    obtain ⟨x, listed, place, token⟩ := stands.exists_lexeme_of_word rfl (by decide)
    obtain ⟨w', same, written⟩ := Lexed.exists_word small listed
    rw [← grows.span mem] at place
    refine ⟨x, listed, place, ?_⟩
    rw [← Token.isSome_literalForm?, ← token, ← same] at isLiteral
    obtain ⟨form, found⟩ := Option.isSome_iff_exists.mp isLiteral
    rw [← same, found, Tree.literalForm, Tree.textOf, ← place, ← w'.literalForm_eq found]
    exact congrArg (fun text => some (LiteralForm.ofText text)) written
  | name _ isName => exact absurd isName (by decide)

/-- In a text without faults the views find whatever they look for, where every place of the text
has an offset of its own. -/
theorem viewsAgree (clean : (ofText text).errors = []) : (ofText text).tree.ViewsAgree where
  value v same := by
    obtain ⟨k, kinds, operand⟩ := expects small clean same
    exact Tree.isSome_valueForm? kinds operand
  binary e same := by
    obtain ⟨k, k', kinds, left, right⟩ := expects small clean same
    exact ⟨Tree.isSome_exprAt? (by rw [kinds]; rfl) left,
      Tree.isSome_exprAt? (by rw [kinds]; rfl) right, operator?_binary small clean same⟩
  unary e same := by
    obtain ⟨k, kinds, operand⟩ := expects small clean same
    exact ⟨Tree.isSome_exprAt? (by rw [kinds]; rfl) operand, operator?_unary small clean same⟩
  call e same := by
    obtain ⟨k, kinds, callee⟩ := expects small clean same
    exact ⟨Tree.isSome_exprAt? (by rw [kinds]; rfl) callee, Tree.isSome_child? (by simp [kinds])⟩
  member e same := by
    have expects : ∃ k, (ofText text).tree.childKinds e = [k, .name] ∧ k.isExpression = true := by
      rcases same with same | same <;> exact expects small clean same
    obtain ⟨k, kinds, owner⟩ := expects
    have name : .name ∈ (ofText text).tree.childKinds e := by simp [kinds]
    refine ⟨Tree.isSome_exprAt? (by rw [kinds]; rfl) owner, ?_⟩
    rw [Tree.nameText?, Option.isSome_map]
    exact Tree.isSome_child? name
  element e same := by
    obtain ⟨k, k', kinds, owner, key⟩ := expects small clean same
    exact ⟨Tree.isSome_exprAt? (by rw [kinds]; rfl) owner,
      Tree.isSome_exprAt? (by rw [kinds]; rfl) key⟩
  paren e same := by
    obtain ⟨k, kinds, inner⟩ := expects small clean same
    have mem : k ∈ (ofText text).tree.childKinds e := by simp [kinds]
    rw [Tree.parenInner?, List.isSome_head?]
    exact Tree.exprs_ne_nil mem inner
  field f same := by
    obtain ⟨k, last, value⟩ := expects small clean same
    exact Tree.isSome_fieldValue? last value
  assignment s same := by
    obtain ⟨targets, values⟩ := expects small clean same
    refine ⟨?_, Tree.isSome_child? values⟩
    obtain ⟨list, found⟩ := Option.isSome_iff_exists.mp (Tree.isSome_child? targets)
    obtain ⟨some, each⟩ := expects small clean (Tree.of_child?_eq_some found).2
    obtain ⟨k, mem⟩ := List.exists_mem_of_ne_nil _ some
    rw [Tree.targets, found]
    exact Tree.exprs_ne_nil mem (each k mem)
  function s same := by
    obtain ⟨named, body⟩ := expects small clean same
    refine ⟨?_, Tree.isSome_child? body⟩
    obtain ⟨name, found⟩ := Option.isSome_iff_exists.mp (Tree.isSome_child? named)
    have base := expects small clean (Tree.of_child?_eq_some found).2
    rw [Tree.funcName?, found]
    exact Tree.isSome_child? base
  localFunction s same := by
    obtain ⟨name, body⟩ := expects small clean same
    exact ⟨Tree.isSome_child? name, Tree.isSome_child? body⟩
  block id same := by
    have has : .block ∈ (ofText text).tree.childKinds id := by
      simp only [List.mem_cons, List.not_mem_nil, or_false] at same
      rcases same with same | same | same | same | same | same <;> exact expects small clean same
    exact Tree.isSome_child? has
  list id same := by
    have each : ∀ k ∈ (ofText text).tree.childKinds id, k.isExpression = true := by
      simp only [List.mem_cons, List.not_mem_nil, or_false] at same
      rcases same with same | same | same
      · exact expects small clean same
      · exact (expects small clean same).2
      · exact expects small clean same
    exact List.filter_eq_self.mpr fun c child => each _ (List.mem_map_of_mem child)
  literal id same := literalForm_eq small clean same

omit small in
/-- An assignment with a comment in front, to the views its first child. -/
theorem viewsAgree_assignment :
    "---@type T\nx, y.z = f\x7b1\x7d:m(), -a[1] .. (2)".utf8ByteSize < offsetCount
      ∧ (ofText "---@type T\nx, y.z = f\x7b1\x7d:m(), -a[1] .. (2)").errors = []
      ∧ (ofText "---@type T\nx, y.z = f\x7b1\x7d:m(), -a[1] .. (2)").tree.ViewsAgree := by
  have clean : (ofText "---@type T\nx, y.z = f\x7b1\x7d:m(), -a[1] .. (2)").errors = [] := by
    decide +kernel
  have small : "---@type T\nx, y.z = f\x7b1\x7d:m(), -a[1] .. (2)".utf8ByteSize < offsetCount := by
    decide
  exact ⟨small, clean, viewsAgree small clean⟩

end Parsed

end LuaTyping
