import LuaTyping.Proofs.Syntax.Climbing
import LuaTyping.Proofs.Syntax.Drawn
import LuaTyping.Proofs.Syntax.Shape

/-!
# Operator precedence

What the powers of operators mean for the tree of a text.  The right operand of an operation has
only operators at its left end that bind tighter than the operation, and what ends the left operand
binds at least as tight as the operation.  This is so at every operation of every text: where
operands are missing, where there are errors around, and where the nesting ends.  So the operators
that are written, from left to right, determine the grouping.

The tokens are grouped as prescribed before they are placed in a text (`Program.settled`).  What is
left is to read the grouping off the table of the tree.  An operator has the powers of the token
that starts where its node starts, and no two tokens start at the same place.

* `Tree.Groups`: the grouping of a node.
* `Tree.OnLeftSpine`, `Tree.OnRightSpine`: the operations at the ends of an operand.
* `Parsed.exists_groups`: every node of a text is grouped as prescribed.
* `Parsed.holdsOperands`: every operation of a text holds its operands against its neighbours.
-/

namespace LuaTyping

/-! ## The table of powers -/

/-- An operand on the right may have an operator of the same powers for `..` and `^` only, an
operand on the left for all others; and the unary operators stand between `^` and all others. -/
theorem Token.lt_iff_of_binaryPowers {t : Token} {l r : Nat}
    (powers : t.binaryPowers = some (l, r)) :
    (r < l ↔ t = .concat ∨ t = .caret) ∧ (unaryPower < min l r ↔ t = .caret)
      ∧ (max l r < unaryPower ↔ t ≠ .caret) := by
  cases t <;> cases powers <;> decide

/-! ## Operations in a tree -/

namespace Tree

/-- The powers of the token that starts where a node starts, if it is a binary operator. -/
def powersAt? (t : Tree) (op : NodeId) : Option (Nat × Nat) :=
  let lexemes := (Lexed.ofText t.text).lexemes
  lexemes[tokenAt lexemes (t.start op)]?.bind fun x => x.token.binaryPowers

/-- The powers of the operator of a binary operation. -/
def powers? (t : Tree) (n : NodeId) : Option (Nat × Nat) := (t.children n)[1]?.bind t.powersAt?

theorem powers?_eq {t : Tree} {n left op right : NodeId} {powers : Nat × Nat}
    (children : t.children n = [left, op, right]) (here : t.powersAt? op = some powers) :
    t.powers? n = some powers := by
  rw [powers?, children]
  exact here

/-- The node and, as long as they are binary operations, its first child, the first child of that,
and so on. -/
inductive OnLeftSpine (t : Tree) : NodeId → NodeId → Prop
  | self {n : NodeId} : t.OnLeftSpine n n
  | first {n c b : NodeId} : t.kind n = .binaryExpr → (t.children n).head? = some c →
    t.OnLeftSpine c b → t.OnLeftSpine n b

/-- The node and, as long as they are operations, its last child, the last child of that, and so
on. -/
inductive OnRightSpine (t : Tree) : NodeId → NodeId → Prop
  | self {n : NodeId} : t.OnRightSpine n n
  | last {n c b : NodeId} : (t.kind n).isOperation = true → (t.children n).getLast? = some c →
    t.OnRightSpine c b → t.OnRightSpine n b

/-- The grouping of a node. -/
inductive Groups (t : Tree) : NodeId → Grouping → Prop
  | operand {n : NodeId} : (t.kind n).isOperation = false → t.Groups n .operand
  | unary {n op e : NodeId} {g : Grouping} : t.kind n = .unaryExpr → t.children n = [op, e] →
    t.kind op = .operator → t.Groups e g → t.Groups n (.unary g)
  | binary {n left op right : NodeId} {l r : Nat} {g h : Grouping} : t.kind n = .binaryExpr →
    t.children n = [left, op, right] → t.kind op = .operator → t.powersAt? op = some (l, r) →
    t.Groups left g → t.Groups right h → t.Groups n (.binary l r g h)

namespace Groups

variable {t : Tree} {n b : NodeId} {g : Grouping} {low l : Nat}

theorem exists_unary (h : t.Groups n g) (isUnary : t.kind n = .unaryExpr) :
    ∃ op e g', g = .unary g' ∧ t.children n = [op, e] ∧ t.kind op = .operator ∧ t.Groups e g' := by
  cases h with
  | operand plain => rw [isUnary] at plain; cases plain
  | unary _ children operator inner => exact ⟨_, _, _, rfl, children, operator, inner⟩
  | binary binary => rw [isUnary] at binary; cases binary

theorem exists_binary (h : t.Groups n g) (isBinary : t.kind n = .binaryExpr) :
    ∃ left op right l r g₁ g₂, g = .binary l r g₁ g₂ ∧ t.children n = [left, op, right]
      ∧ t.kind op = .operator ∧ t.powersAt? op = some (l, r) ∧ t.Groups left g₁
      ∧ t.Groups right g₂ := by
  cases h with
  | operand plain => rw [isBinary] at plain; cases plain
  | unary unary => rw [isBinary] at unary; cases unary
  | binary _ children operator powers left right =>
    exact ⟨_, _, _, _, _, _, _, rfl, children, operator, powers, left, right⟩

/-- What is known of the left end of a grouping is true of the left spine of its node. -/
theorem of_onLeftSpine (h : t.Groups n g) (front : g.LeftFrom low) (on : t.OnLeftSpine n b)
    (isBinary : t.kind b = .binaryExpr) : ∃ l r, t.powers? b = some (l, r) ∧ low ≤ l := by
  induction on generalizing g with
  | self =>
    obtain ⟨_, _, _, l, r, _, _, rfl, children, -, powers, -, -⟩ := h.exists_binary isBinary
    exact ⟨l, r, powers?_eq children powers, front.1⟩
  | first above head _ ih =>
    obtain ⟨left, _, _, _, _, _, _, rfl, children, -, -, inner, -⟩ := h.exists_binary above
    obtain rfl : left = _ := by simpa [children] using head
    exact ih inner front.2 isBinary

/-- What is known of the right end of a grouping is true of the right spine of its node. -/
theorem of_onRightSpine (h : t.Groups n g) (behind : g.RightFrom l) (on : t.OnRightSpine n b) :
    (t.kind b = .binaryExpr → ∃ l' r', t.powers? b = some (l', r') ∧ l ≤ r')
      ∧ (t.kind b = .unaryExpr → l ≤ unaryPower) := by
  induction on generalizing g with
  | self =>
    refine ⟨fun isBinary => ?_, fun isUnary => ?_⟩
    · obtain ⟨_, _, _, l', r', _, _, rfl, children, -, powers, -, -⟩ := h.exists_binary isBinary
      exact ⟨l', r', powers?_eq children powers, behind.1⟩
    · obtain ⟨_, _, _, rfl, -, -, -⟩ := h.exists_unary isUnary
      exact behind.1
  | last above last _ ih =>
    cases h with
    | operand plain => rw [above] at plain; cases plain
    | @unary _ _ e _ _ children _ inner =>
      obtain rfl : e = _ := by simpa [children] using last
      exact ih inner behind.2
    | @binary _ _ _ right _ _ _ _ _ children _ _ _ inner =>
      obtain rfl : right = _ := by simpa [children] using last
      exact ih inner behind.2

end Groups

/-- Every operation of the tree holds its operands against the operations next to it. -/
structure HoldsOperands (t : Tree) : Prop where
  binary : ∀ n, t.kind n = .binaryExpr → ∃ left op right l r,
    t.children n = [left, op, right] ∧ t.kind op = .operator ∧ t.powersAt? op = some (l, r)
    ∧ (∀ b, t.OnLeftSpine right b → t.kind b = .binaryExpr →
        ∃ l' r', t.powers? b = some (l', r') ∧ r < l')
    ∧ (∀ b, t.OnRightSpine left b → t.kind b = .binaryExpr →
        ∃ l' r', t.powers? b = some (l', r') ∧ l ≤ r')
    ∧ ∀ b, t.OnRightSpine left b → t.kind b = .unaryExpr → l ≤ unaryPower
  unary : ∀ n, t.kind n = .unaryExpr → ∃ op operand,
    t.children n = [op, operand] ∧ t.kind op = .operator
    ∧ ∀ b, t.OnLeftSpine operand b → t.kind b = .binaryExpr →
        ∃ l r, t.powers? b = some (l, r) ∧ unaryPower < l
  /-- A node has a prescribed grouping, and its operands and operators determine it. -/
  grouping : ∀ n, ∃ g, t.Groups n g ∧ g.Prescribed
    ∧ ∀ g' : Grouping, g'.Prescribed → g'.items = g.items → g' = g

/-- If all nodes are grouped as prescribed, every operation holds its operands. -/
theorem holdsOperands_of_groups {t : Tree} (all : ∀ n, ∃ g, t.Groups n g ∧ g.Prescribed) :
    t.HoldsOperands where
  binary n isBinary := by
    obtain ⟨g, groups, prescribed⟩ := all n
    obtain ⟨left, op, right, l, r, _, _, rfl, children, operator, powers, inner, inner'⟩ :=
      groups.exists_binary isBinary
    obtain ⟨⟨behind, -⟩, front, -⟩ := prescribed
    exact ⟨left, op, right, l, r, children, operator, powers,
      fun b on => inner'.of_onLeftSpine front on,
      fun b on => (inner.of_onRightSpine behind on).1,
      fun b on => (inner.of_onRightSpine behind on).2⟩
  unary n isUnary := by
    obtain ⟨g, groups, prescribed⟩ := all n
    obtain ⟨op, e, _, rfl, children, operator, inner⟩ := groups.exists_unary isUnary
    exact ⟨op, e, children, operator, fun b on => inner.of_onLeftSpine prescribed.1 on⟩
  grouping n := by
    obtain ⟨g, groups, prescribed⟩ := all n
    exact ⟨g, groups, prescribed, fun g' prescribed' =>
      Grouping.eq_of_items_eq prescribed' prescribed⟩

end Tree

/-! ## From outlines to trees -/

/-- The kinds of the tokens of a layout. -/
def Layout.tokenKinds (l : Layout) : List Token := (l.lexemes.map Lexeme.token).toList

section Drawing

variable {l : Layout} {t : Tree} {r b : Branch} {o : Outline} {cs : List Outline} {g : Grouping}
  {next i : Nat}

/-- Where no child is a doc slot, there is one branch for each child. -/
theorem Layout.forall₂_branchesOf (nodes : ∀ o ∈ cs, ∀ i, o ≠ .doc i) (next : Nat) :
    List.Forall₂ (fun o b => ∃ n, b ∈ l.branches n o) cs (l.branchesOf next cs) := by
  induction cs generalizing next with
  | nil => exact .nil
  | cons o cs ih =>
    obtain ⟨notDoc, others⟩ := List.forall_mem_cons.mp nodes
    cases o with
    | doc i => exact absurd rfl (notDoc i)
    | node kind first last below =>
      rw [branchesOf]
      exact .cons ⟨next, List.mem_singleton_self _⟩ (ih others _)

theorem Outline.Groups.ne_doc {tokens : List Token} (h : o.Groups tokens g) (i : Nat) :
    o ≠ .doc i := by
  rintro rfl
  cases h

variable (grows : t.Grows r)
include grows

/-- The children of the node of an outline stand for the children of the outline. -/
theorem Tree.Grows.exists_children {kind : NodeKind} {first last : Nat} (inside : b ∈ r.all)
    (mem : b ∈ l.branches next (.node kind first last cs)) (nodes : ∀ o ∈ cs, ∀ i, o ≠ .doc i) :
    ∃ bs : List Branch, t.children b.id = bs.map Branch.id ∧ (∀ c ∈ bs, c ∈ r.all)
      ∧ List.Forall₂ (fun o c => ∃ n, c ∈ l.branches n o) cs bs := by
  refine ⟨b.children, grows.children inside, fun c => Tree.Grows.mem_of_child inside, ?_⟩
  rw [(Layout.eq_of_mem_branches mem).2.2]
  exact Layout.forall₂_branchesOf nodes next

variable (ordered : l.Ordered) (same : (Lexed.ofText t.text).lexemes = l.lexemes)
include ordered same

/-- The node of a token has the powers of the token. -/
theorem Tree.Grows.powersAt?_leaf {kind : NodeKind} (inside : b ∈ r.all)
    (mem : b ∈ l.branches next (.leaf kind i)) :
    t.powersAt? b.id = l.tokenKinds[i]?.bind Token.binaryPowers := by
  have start : t.start b.id = l.tokenStart i := by
    rw [Tree.start, grows.span inside, (Layout.eq_of_mem_branches mem).2.1]
    exact Layout.offset_start l i
  rw [Tree.powersAt?, same, start, Layout.tokenAt_tokenStart ordered, Layout.tokenKinds,
    Array.getElem?_toList, Array.getElem?_map, Option.bind_map]
  -- behind the last token no token starts, so both sides are without powers
  by_cases bound : i < l.lexemes.size
  · rw [Nat.min_eq_left (Nat.le_of_lt bound)]
    rfl
  · rw [Nat.min_eq_right (Nat.le_of_not_lt bound), Array.getElem?_eq_none (Nat.le_refl _),
      Array.getElem?_eq_none (Nat.le_of_not_lt bound)]
    rfl

/-- The node of an outline is grouped as the outline. -/
theorem Outline.Groups.tree (h : o.Groups l.tokenKinds g) (inside : b ∈ r.all)
    (mem : b ∈ l.branches next o) : t.Groups b.id g := by
  induction h generalizing next b with
  | operand plain =>
    refine .operand ?_
    rw [grows.kind inside, (Layout.eq_of_mem_branches mem).1, plain]
  | unary groups ih =>
    obtain ⟨bs, children, inside', below⟩ := grows.exists_children inside mem
      (by simp [leaf, groups.ne_doc])
    simp only [List.forall₂_cons_left_iff, List.forall₂_nil_left_iff] at below
    obtain ⟨op, _, ⟨_, operator⟩, ⟨e, _, ⟨_, operand⟩, rfl, rfl⟩, rfl⟩ := below
    simp only [List.forall_mem_cons] at inside'
    obtain ⟨inOp, inE, -⟩ := inside'
    exact .unary ((grows.kind inside).trans (Layout.eq_of_mem_branches mem).1) children
      ((grows.kind inOp).trans (Layout.eq_of_mem_branches operator).1) (ih inE operand)
  | binary powers left right ihLeft ihRight =>
    obtain ⟨bs, children, inside', below⟩ := grows.exists_children inside mem
      (by simp [leaf, left.ne_doc, right.ne_doc])
    simp only [List.forall₂_cons_left_iff, List.forall₂_nil_left_iff] at below
    obtain ⟨d, _, ⟨_, first⟩, ⟨op, _, ⟨_, operator⟩, ⟨e, _, ⟨_, second⟩, rfl, rfl⟩, rfl⟩, rfl⟩ :=
      below
    simp only [List.forall_mem_cons] at inside'
    obtain ⟨inD, inOp, inE, -⟩ := inside'
    exact .binary ((grows.kind inside).trans (Layout.eq_of_mem_branches mem).1) children
      ((grows.kind inOp).trans (Layout.eq_of_mem_branches operator).1)
      ((grows.powersAt?_leaf ordered same inOp operator).trans powers) (ihLeft inD first)
      (ihRight inE second)

end Drawing

/-- The nodes below the root are those of settled outlines. -/
theorem Layout.exists_settled {l : Layout} {tokens : List Token} {o : Outline}
    (settled : o.Settled tokens) {next : Nat} : ∀ b ∈ Branch.allOf (l.branches next o),
      ∃ o' n, b ∈ l.branches n o' ∧ o'.Settled tokens := by
  refine Branch.forall_mem_allOf (fun p above c child => ?_) _ fun b mem => ⟨o, next, mem, settled⟩
  obtain ⟨o, n, mem, settled⟩ := above
  cases settled with
  | doc i =>
    rw [(comment_of_mem_branches mem).2] at child
    exact absurd child List.not_mem_nil
  | node _ all =>
    rw [(eq_of_mem_branches mem).2.2] at child
    obtain ⟨o', inside, m, mem', -⟩ := exists_of_mem_branchesOf child
    exact ⟨o', m, mem', all o' inside⟩

namespace Parsed

/-- Every node of a text has a grouping, and it is the one that the table of powers prescribes. -/
theorem exists_groups {text : String} (small : text.utf8ByteSize < offsetCount) (n : NodeId) :
    ∃ g, (ofText text).tree.Groups n g ∧ g.Prescribed := by
  by_cases operation : ((ofText text).tree.kind n).isOperation = true
  · let l := Layout.ofLexed text (Lexed.ofText text)
    let body := (Program.ofTokens maxNesting l.tokenKinds).body
    have grows : (ofText text).tree.Grows (l.root body) := grows_root maxNesting small
    have inside : n < (ofText text).tree.size := by
      refine Nat.lt_of_not_le fun outside => ?_
      rw [Tree.kind_of_ge outside] at operation
      cases operation
    obtain ⟨b, mem, rfl⟩ := grows.exists_mem inside
    rw [grows.kind mem] at operation
    -- the root is no operation, and every other node is drawn from an outline
    have place := mem
    rw [Branch.all_eq, List.mem_append, List.mem_singleton] at place
    rcases place with below | rfl
    · obtain ⟨o, next, drawn, settled⟩ :=
        Layout.exists_settled (Program.settled maxNesting l.tokenKinds) b below
      rw [Layout.kind_of_mem_branches drawn] at operation
      obtain ⟨g, groups, prescribed⟩ := settled.exists_groups operation
      have ordered : l.Ordered := (Layout.faithful_ofLexed small).ordered
      exact ⟨g, groups.tree grows ordered rfl mem drawn, prescribed⟩
    · cases operation
  · exact ⟨.operand, .operand (Bool.eq_false_iff.mpr operation), trivial⟩

/-- Whatever is written in a text, every operation in its tree holds its operands against the
operations next to it, and the operators written from left to right determine the grouping: to the
left, but for `..` and `^` to the right, with the unary operators between `^` and all others.  Every
place of the text has an offset of its own. -/
theorem holdsOperands {text : String} (small : text.utf8ByteSize < offsetCount) :
    (ofText text).tree.HoldsOperands
      ∧ ∀ (t : Token) (l r : Nat), t.binaryPowers = some (l, r) →
          (r < l ↔ t = .concat ∨ t = .caret) ∧ (unaryPower < min l r ↔ t = .caret)
            ∧ (max l r < unaryPower ↔ t ≠ .caret) :=
  ⟨Tree.holdsOperands_of_groups (exists_groups small), fun _ _ _ => Token.lt_iff_of_binaryPowers⟩

/-- The minus sign takes the power in front of it whole, and leaves `..` behind. -/
theorem holdsOperands_unary_between :
    "return -a^b..c".utf8ByteSize < offsetCount
      ∧ (∃ l r, (ofText "return -a^b..c").tree.powers? 11 = some (l, r) ∧ l ≤ unaryPower)
      ∧ ∃ l r, (ofText "return -a^b..c").tree.powers? 6 = some (l, r) ∧ unaryPower < l := by
  have concat : (ofText "return -a^b..c").tree.kind 11 = .binaryExpr
      ∧ (ofText "return -a^b..c").tree.children 11 = [7, 8, 10] := by decide +kernel
  have minus : (ofText "return -a^b..c").tree.kind 7 = .unaryExpr
      ∧ (ofText "return -a^b..c").tree.children 7 = [0, 6] := by decide +kernel
  have caret : (ofText "return -a^b..c").tree.kind 6 = .binaryExpr := by decide +kernel
  have small : "return -a^b..c".utf8ByteSize < offsetCount := by decide
  have holds := (holdsOperands small).1
  refine ⟨small, ?_, ?_⟩
  · obtain ⟨left, op, right, l, r, children, -, powers, -, -, unary⟩ := holds.binary 11 concat.1
    obtain ⟨rfl, -⟩ : 7 = left ∧ _ := List.cons.inj (concat.2.symm.trans children)
    exact ⟨l, r, Tree.powers?_eq children powers, unary 7 .self minus.1⟩
  · obtain ⟨op, operand, children, -, front⟩ := holds.unary 7 minus.1
    obtain ⟨-, rfl, -⟩ : 0 = op ∧ 6 = operand ∧ True := by simpa using minus.2.symm.trans children
    exact front 6 .self caret

end Parsed

end LuaTyping
