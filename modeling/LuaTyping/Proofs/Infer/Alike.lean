import LuaTyping.Proofs.Infer.Valid
import LuaTyping.Proofs.Syntax.Spread

/-!
# Trees that read alike

What is read off a tree is read off the kinds of its nodes, off their families, and off the texts
of single tokens and comments.  Where the nodes stand in the text is not looked at.  Two trees are
*alike* if they have these things in common, and then everything that inference reads off them is
the same.

* `Tree.Alike`.
* `Tree.Alike.child?_eq`, `Tree.Alike.valueForm?_eq`, …: one equation for each way of reading a
  tree.
-/

namespace LuaTyping

/-- The kinds of nodes whose texts are read: single tokens and comments. -/
def NodeKind.IsRead (kind : NodeKind) : Prop := kind.isWord = true ∨ kind = .comment

namespace Tree

/-- The trees have the same nodes, and the texts of words and comments are the same. -/
structure Alike (t t' : Tree) : Prop where
  size_eq : t.size = t'.size
  kind_eq : t.kind = t'.kind
  parent_eq : t.parent = t'.parent
  children_eq : t.children = t'.children
  textOf_eq : ∀ id, (t.kind id).IsRead → t.textOf id = t'.textOf id

namespace Alike

theorem refl (t : Tree) : t.Alike t := ⟨rfl, rfl, rfl, rfl, fun _ _ => rfl⟩

variable {t t' : Tree}

/-- The text of a word is the same. -/
theorem text_word (h : t.Alike t') {id : NodeId} {kind : NodeKind} (is : t.kind id = kind)
    (word : kind.isWord = true) : t.textOf id = t'.textOf id :=
  h.textOf_eq id (.inl (by rwa [is]))

/-! ## The family of a node -/

theorem root_eq (h : t.Alike t') : t.root = t'.root := by
  rw [root, root, h.size_eq]

theorem ancestors_eq (h : t.Alike t') : t.ancestors = t'.ancestors := by
  have within (fuel : Nat) (id : NodeId) :
      t.ancestorsWithin fuel id = t'.ancestorsWithin fuel id := by
    induction fuel generalizing id with
    | zero => rfl
    | succ fuel ih => simp only [ancestorsWithin, h.parent_eq, ih]
  funext id
  rw [ancestors, ancestors, h.size_eq, within]

theorem preorderWithin_eq (h : t.Alike t') : t.preorderWithin = t'.preorderWithin := by
  funext keep fuel
  induction fuel with
  | zero => rfl
  | succ fuel ih =>
    funext work done
    cases work with
    | nil => rfl
    | cons id work => rw [preorderWithin, preorderWithin, h.children_eq, ih]

theorem walk_eq (h : t.Alike t') : t.walk = t'.walk := by
  rw [walk, walk, preorder, preorder, h.size_eq, h.root_eq, h.preorderWithin_eq]

theorem child?_eq (h : t.Alike t') : t.child? = t'.child? := by
  funext id kind
  rw [child?, child?, h.children_eq, h.kind_eq]

theorem childrenOf_eq (h : t.Alike t') : t.childrenOf = t'.childrenOf := by
  funext id kind
  rw [childrenOf, childrenOf, h.children_eq, h.kind_eq]

theorem cast?_eq (h : t.Alike t') : t.cast? = t'.cast? := by
  funext kind id
  rw [cast?, cast?, h.kind_eq]

theorem expr?_eq (h : t.Alike t') : t.expr? = t'.expr? := by
  funext id
  rw [expr?, expr?, h.kind_eq]

theorem exprs_eq (h : t.Alike t') : t.exprs = t'.exprs := by
  funext id
  rw [exprs, exprs, h.children_eq, h.kind_eq]

theorem exprAt?_eq (h : t.Alike t') : t.exprAt? = t'.exprAt? := by
  funext id index
  rw [exprAt?, exprAt?, h.children_eq, h.expr?_eq]

/-! ## The texts of children -/

theorem text_child?_eq (h : t.Alike t') (id : NodeId) {kind : NodeKind}
    (word : kind.isWord = true) :
    (t.child? id kind).map t.textOf = (t'.child? id kind).map t'.textOf := by
  rw [← h.child?_eq]
  exact Option.map_congr fun c found => h.text_word (kind_of_child? found) word

theorem text_childrenOf_eq (h : t.Alike t') (id : NodeId) {kind : NodeKind}
    (word : kind.isWord = true) :
    (t.childrenOf id kind).map t.textOf = (t'.childrenOf id kind).map t'.textOf := by
  rw [← h.childrenOf_eq]
  exact List.map_congr_left fun c mem => h.text_word (eq_of_beq (List.mem_filter.mp mem).2) word

theorem nameText?_eq (h : t.Alike t') : t.nameText? = t'.nameText? :=
  funext fun id => h.text_child?_eq id rfl

theorem operatorText_eq (h : t.Alike t') : t.operatorText = t'.operatorText := by
  funext id
  rw [operatorText, operatorText, operator?, operator?, h.text_child?_eq id rfl]

theorem nameFields_eq (h : t.Alike t') : t.nameFields = t'.nameFields :=
  funext fun id => h.text_childrenOf_eq id rfl

theorem nameMethod?_eq (h : t.Alike t') : t.nameMethod? = t'.nameMethod? :=
  funext fun id => h.text_child?_eq id rfl

/-! ## Expressions -/

theorem valueForm?_eq (h : t.Alike t') : t.valueForm? = t'.valueForm? := by
  funext id
  rw [valueForm?, valueForm?, h.children_eq, h.kind_eq, h.expr?_eq]

/-- A value of the form of a literal wraps a literal. -/
theorem kind_of_valueForm?_literal {id c : NodeId} (form : t.valueForm? id = some (.literal c)) :
    t.kind c = .literal := by
  obtain ⟨d, -, form⟩ := Option.bind_eq_some_iff.mp form
  split at form
  case h_2 kind =>
    cases form
    exact kind
  all_goals first
    | cases form
    | (obtain ⟨x, -, eq⟩ := Option.map_eq_some_iff.mp form; cases eq)

theorem literalForm_eq (h : t.Alike t') {id c : NodeId}
    (form : t.valueForm? id = some (.literal c)) : t.literalForm c = t'.literalForm c := by
  rw [literalForm, literalForm, h.text_word (kind_of_valueForm?_literal form) rfl]

theorem exprString?_eq (h : t.Alike t') : t.exprString? = t'.exprString? := by
  funext id
  rw [exprString?, exprString?, ← h.cast?_eq, ← h.valueForm?_eq]
  refine Option.bind_congr fun v _ => ?_
  split
  · rename_i c form
    rw [stringValue?, stringValue?, h.text_word (kind_of_valueForm?_literal form) rfl]
  · rfl

theorem firstString?_eq (h : t.Alike t') : t.firstString? = t'.firstString? := by
  funext args
  rw [firstString?, firstString?, h.exprs_eq, h.exprString?_eq]

theorem keyName?_eq (h : t.Alike t') : t.keyName? = t'.keyName? := by
  funext id
  rw [keyName?, keyName?, h.kind_eq, h.nameText?_eq, indexKey?, indexKey?, h.exprAt?_eq,
    h.exprString?_eq]

theorem isMember_eq (h : t.Alike t') : t.isMember = t'.isMember := by
  funext id
  rw [isMember, isMember, h.kind_eq]

theorem fieldKey?_eq (h : t.Alike t') : t.fieldKey? = t'.fieldKey? := by
  funext field
  rw [fieldKey?, fieldKey?, ← h.children_eq, ← h.kind_eq, ← h.expr?_eq, ← h.exprString?_eq]
  split
  · split
    · rename_i name
      rw [h.text_word name rfl]
    · rfl
  · rfl

theorem fieldValue?_eq (h : t.Alike t') : t.fieldValue? = t'.fieldValue? := by
  funext field
  rw [fieldValue?, fieldValue?, h.children_eq, h.expr?_eq]

theorem parenInner?_eq (h : t.Alike t') : t.parenInner? = t'.parenInner? := by
  funext id
  rw [parenInner?, parenInner?, h.exprs_eq]

/-! ## Statements -/

theorem docComment?_eq (h : t.Alike t') : t.docComment? = t'.docComment? := by
  funext stat
  rw [docComment?, docComment?, h.children_eq, h.cast?_eq]

theorem valueAt?_eq (h : t.Alike t') : t.valueAt? = t'.valueAt? := by
  funext stat index
  rw [valueAt?, valueAt?, values?, values?, h.child?_eq, h.exprs_eq]

theorem listedNames_eq (h : t.Alike t') : t.listedNames = t'.listedNames := by
  funext stat
  rw [listedNames, listedNames, h.child?_eq, h.childrenOf_eq]

theorem targets_eq (h : t.Alike t') : t.targets = t'.targets := by
  funext stat
  rw [targets, targets, h.child?_eq, h.exprs_eq]

theorem introducedBy?_eq (h : t.Alike t') : t.introducedBy? = t'.introducedBy? := by
  funext name
  rw [introducedBy?, introducedBy?, h.kind_eq, h.parent_eq]

theorem nameIndex_eq (h : t.Alike t') : t.nameIndex = t'.nameIndex := by
  funext name
  rw [nameIndex, nameIndex, positionAmongSiblings, positionAmongSiblings, h.kind_eq, h.parent_eq,
    h.childrenOf_eq]

theorem isMethod_eq (h : t.Alike t') : t.isMethod = t'.isMethod := by
  funext stat
  rw [isMethod, isMethod, funcName?, funcName?, h.child?_eq, h.nameMethod?_eq]

/-! ## Functions -/

theorem params_eq (h : t.Alike t') : t.params = t'.params := by
  funext body
  rw [params, params, h.child?_eq, h.childrenOf_eq]

theorem paramFunction?_eq (h : t.Alike t') : t.paramFunction? = t'.paramFunction? := by
  funext param
  rw [paramFunction?, paramFunction?, h.parent_eq, h.cast?_eq]

theorem functionComment?_eq (h : t.Alike t') : t.functionComment? = t'.functionComment? := by
  have initialized : t.initialized? = t'.initialized? := by
    funext closure
    rw [initialized?, initialized?, h.parent_eq, h.kind_eq]
  funext body
  rw [functionComment?, functionComment?, declaringStatement?, declaringStatement?, h.parent_eq,
    h.kind_eq, initialized, h.docComment?_eq]

theorem returnStats_eq (h : t.Alike t') : t.returnStats = t'.returnStats := by
  funext body
  rw [returnStats, returnStats, block?, block?, h.child?_eq, h.kind_eq, h.preorderWithin_eq,
    h.size_eq]

/-! ## Doc comments -/

/-- A doc comment is a comment. -/
theorem kind_of_docComment? {stat c : NodeId} (found : t.docComment? stat = some c) :
    t.kind c = .comment := by
  obtain ⟨d, -, cast⟩ := Option.bind_eq_some_iff.mp found
  exact kind_of_cast? cast

theorem kind_of_functionComment? {body c : NodeId} (found : t.functionComment? body = some c) :
    t.kind c = .comment := by
  obtain ⟨stat, -, found⟩ := Option.bind_eq_some_iff.mp found
  exact kind_of_docComment? found

theorem firstTag?_eq (h : t.Alike t') {c : NodeId} (comment : t.kind c = .comment)
    (read : List Char → Option TypeSet) : t.firstTag? c read = t'.firstTag? c read := by
  rw [firstTag?, firstTag?, commentLines, commentLines, h.textOf_eq c (.inr comment)]

/-- What the doc comment of a statement says about a variable. -/
theorem bind_taggedType?_eq (h : t.Alike t') (stat : NodeId) :
    (t.docComment? stat).bind t.taggedType? = (t'.docComment? stat).bind t'.taggedType? := by
  rw [← h.docComment?_eq]
  exact Option.bind_congr fun c found => h.firstTag?_eq (kind_of_docComment? found) _

/-- What the doc comment of a function says about what it returns. -/
theorem bind_taggedReturn?_eq (h : t.Alike t') (body : NodeId) :
    (t.functionComment? body).bind t.taggedReturn?
      = (t'.functionComment? body).bind t'.taggedReturn? := by
  rw [← h.functionComment?_eq]
  exact Option.bind_congr fun c found => h.firstTag?_eq (kind_of_functionComment? found) _

/-! ## Calls and assignments -/

theorem requireTarget?_eq (h : t.Alike t') : t.requireTarget? = t'.requireTarget? := by
  funext call
  rw [requireTarget?, requireTarget?, callee?, callee?, args?, args?, ← h.exprAt?_eq, ← h.cast?_eq,
    ← h.child?_eq, ← h.firstString?_eq]
  refine Option.bind_congr fun callee found => ?_
  obtain ⟨d, -, cast⟩ := Option.bind_eq_some_iff.mp found
  rw [h.text_word (kind_of_cast? cast) rfl]

theorem assignmentOf?_eq (h : t.Alike t') : t.assignmentOf? = t'.assignmentOf? := by
  funext target
  rw [assignmentOf?, assignmentOf?, h.ancestors_eq, h.kind_eq]

end Alike

end Tree

end LuaTyping
