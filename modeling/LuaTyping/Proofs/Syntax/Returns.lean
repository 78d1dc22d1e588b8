import LuaTyping.Syntax.View.Statement
import LuaTyping.Proofs.Syntax.Charged.Program
import LuaTyping.Proofs.Syntax.Drawn
import LuaTyping.Proofs.Syntax.Standing

/-!
# The returns of a function

A function has the returns in its block that are not in another function inside it.  A walk finds
them that does not enter functions.  What such a walk meets, starting at the children of a function,
are exactly the nodes whose nearest function this is: on the way up from a node that the walk meets
there is no other function, and on the way down to a node whose nearest function this is there is
none that could keep the walk out.

A function is made of its parameters, which are single tokens, and its block; so it does not matter
that only its block is walked.  This is true of the functions of every text, whatever is wrong with
it.

* `Branch.own`: the nodes of a branch that are not inside a function.
* `Tree.nearestFunction?`: the innermost function around a node.
* `Tree.Grows.mem_ownOf_children_iff`: what a walk meets that does not enter functions.
* `Layout.hasBlock_root`: the functions of a program have their parts.
* `Parsed.returnsToNearest`: every return belongs to its nearest function.
-/

namespace LuaTyping

/-- The innermost function around a node. -/
def Tree.nearestFunction? (t : Tree) (id : NodeId) : Option NodeId :=
  (t.ancestors id).find? fun a => t.kind a == .funcBody

/-! ## Walks that do not enter functions -/

namespace Branch

mutual

/-- The nodes of a branch that are not functions or inside one, in the order of a walk. -/
def own : Branch → List Branch
  | node id kind span children =>
    if kind = .funcBody then [] else node id kind span children :: ownOf children
termination_by structural b => b

def ownOf : List Branch → List Branch
  | [] => []
  | b :: bs => b.own ++ ownOf bs
termination_by structural bs => bs

end

variable {b c : Branch} {bs cs : List Branch}

theorem own_of_funcBody (function : b.kind = .funcBody) : b.own = [] := by
  cases b
  exact if_pos function

theorem own_of_ne (other : b.kind ≠ .funcBody) : b.own = b :: ownOf b.children := by
  cases b
  exact if_neg other

@[simp] theorem ownOf_append (bs cs : List Branch) : ownOf (bs ++ cs) = ownOf bs ++ ownOf cs := by
  induction bs with
  | nil => rfl
  | cons b bs ih => rw [List.cons_append, ownOf, ownOf, ih, List.append_assoc]

/-- Functions among some branches add nothing. -/
theorem ownOf_filter (bs : List Branch) :
    ownOf (bs.filter fun b => b.kind != .funcBody) = ownOf bs := by
  induction bs with
  | nil => rfl
  | cons b bs ih =>
    by_cases function : b.kind = .funcBody
    · rw [List.filter_cons_of_neg (by simp [function]), ih, ownOf, own_of_funcBody function,
        List.nil_append]
    · rw [List.filter_cons_of_pos (by simpa using function), ownOf, ih, ownOf]

mutual

/-- What a walk meets that does not enter functions a full walk meets in the same order. -/
theorem own_sublist_preorder : (b : Branch) → (b.own.map Branch.id).Sublist b.preorder
  | node id kind span children => by
    rw [own, preorder]
    split
    · exact List.nil_sublist _
    · exact (ownOf_sublist_preorderOf children).cons_cons id

theorem ownOf_sublist_preorderOf : (bs : List Branch) →
    ((ownOf bs).map Branch.id).Sublist (preorderOf bs)
  | [] => List.Sublist.refl _
  | b :: bs => by
    rw [ownOf, List.map_append, preorderOf]
    exact (own_sublist_preorder b).append (ownOf_sublist_preorderOf bs)

end

mutual

/-- What passes from nodes that are no functions to their children holds of all that a walk meets
that does not enter functions. -/
theorem forall_mem_own {P : Branch → Prop}
    (step : ∀ p, P p → p.kind ≠ .funcBody → ∀ c ∈ p.children, P c) :
    (b : Branch) → P b → ∀ d ∈ b.own, P d
  | node id kind span children, top => by
    intro d mem
    rw [own] at mem
    split at mem
    · exact absurd mem List.not_mem_nil
    · next other =>
      rcases List.mem_cons.mp mem with rfl | mem
      · exact top
      · exact forall_mem_ownOf step children (step _ top other) d mem

theorem forall_mem_ownOf {P : Branch → Prop}
    (step : ∀ p, P p → p.kind ≠ .funcBody → ∀ c ∈ p.children, P c) :
    (bs : List Branch) → (∀ b ∈ bs, P b) → ∀ d ∈ ownOf bs, P d
  | [], _ => fun _ mem => absurd mem List.not_mem_nil
  | b :: bs, top => by
    intro d mem
    rw [ownOf, List.mem_append] at mem
    rcases mem with mem | mem
    · exact forall_mem_own step b (top b List.mem_cons_self) d mem
    · exact forall_mem_ownOf step bs (fun c mem => top c (List.mem_cons_of_mem _ mem)) d mem

end

/-- A walk meets the branches it starts with. -/
theorem mem_ownOf (mem : b ∈ bs) (other : b.kind ≠ .funcBody) : b ∈ ownOf bs := by
  obtain ⟨front, back, rfl⟩ := List.append_of_mem mem
  rw [ownOf_append, ownOf, own_of_ne other]
  exact List.mem_append_right _ List.mem_cons_self

mutual

/-- Below what a walk meets it goes on. -/
theorem mem_own_of_child (child : c ∈ b.children) (other : c.kind ≠ .funcBody) :
    (a : Branch) → b ∈ a.own → c ∈ a.own
  | node id kind span children, mem => by
    rw [own] at mem ⊢
    split at mem
    · exact absurd mem List.not_mem_nil
    · next here =>
      rw [if_neg here]
      rcases List.mem_cons.mp mem with rfl | mem
      · exact List.mem_cons_of_mem _ (mem_ownOf child other)
      · exact List.mem_cons_of_mem _ (mem_ownOf_of_child child other children mem)

theorem mem_ownOf_of_child (child : c ∈ b.children) (other : c.kind ≠ .funcBody) :
    (as : List Branch) → b ∈ ownOf as → c ∈ ownOf as
  | [], mem => absurd mem List.not_mem_nil
  | a :: as, mem => by
    rw [ownOf, List.mem_append] at mem ⊢
    exact mem.imp (mem_own_of_child child other a) (mem_ownOf_of_child child other as)

end

end Branch

/-! ## The nearest function -/

namespace Tree.Grows

variable {t : Tree} {r b c f : Branch}

/-- The nearest function around a child is its parent, or else that of its parent. -/
theorem nearestFunction?_child (h : t.Grows r) (mem : b ∈ r.all) (child : c ∈ b.children) :
    t.nearestFunction? c.id
      = if b.kind = .funcBody then some b.id else t.nearestFunction? b.id := by
  rw [nearestFunction?, h.ancestors_child mem child, List.find?_cons, h.kind mem]
  by_cases function : b.kind = .funcBody
  · rw [if_pos function, function]
    rfl
  · rw [if_neg function, beq_eq_false_iff_ne.mpr function]
    rfl

/-- The nearest function around what a walk meets that starts below a function and does not enter
others is this function. -/
theorem nearestFunction?_of_mem_ownOf (h : t.Grows r) (mem : f ∈ r.all)
    (function : f.kind = .funcBody) :
    ∀ c ∈ Branch.ownOf f.children, c ∈ r.all ∧ t.nearestFunction? c.id = some f.id := by
  refine Branch.forall_mem_ownOf (fun p above other c child => ?_) _ fun c child => ?_
  · obtain ⟨inside, nearest⟩ := above
    rw [h.nearestFunction?_child inside child, if_neg other]
    exact ⟨mem_of_child inside child, nearest⟩
  · rw [h.nearestFunction?_child mem child, if_pos function]
    exact ⟨mem_of_child mem child, rfl⟩

/-- A walk that starts below a function and does not enter others meets the nodes whose nearest
function this is, functions left out. -/
theorem mem_ownOf_children_iff (h : t.Grows r) (mem : f ∈ r.all) (function : f.kind = .funcBody) :
    ∀ c ∈ r.all, c.kind ≠ .funcBody →
      (c ∈ Branch.ownOf f.children ↔ t.nearestFunction? c.id = some f.id) := by
  suffices met : ∀ c ∈ r.all, c ∈ r.all ∧ (c.kind ≠ .funcBody →
      t.nearestFunction? c.id = some f.id → c ∈ Branch.ownOf f.children) from
    fun c inside other => ⟨fun own => (h.nearestFunction?_of_mem_ownOf mem function c own).2,
      (met c inside).2 other⟩
  refine Branch.forall_mem_all (fun p above c child => ?_) r
    ⟨Branch.self_mem_all r, fun _ none => ?_⟩
  · obtain ⟨inside, met⟩ := above
    refine ⟨mem_of_child inside child, fun other nearest => ?_⟩
    rw [h.nearestFunction?_child inside child] at nearest
    split at nearest
    · -- the parent is the function itself
      rw [← h.eq_of_id_eq inside mem (Option.some.inj nearest)]
      exact Branch.mem_ownOf child other
    · next notFunction =>
      exact Branch.mem_ownOf_of_child child other _ (met notFunction nearest)
  · rw [nearestFunction?, h.ancestors_root] at none
    exact absurd none (by simp)

/-- A walk that does not enter functions. -/
theorem preorderWithin_own (h : t.Grows r) (bs : List Branch) (mem : ∀ b ∈ bs, b ∈ r.all)
    (other : ∀ b ∈ bs, b.kind ≠ .funcBody) {fuel : Nat}
    (enough : (Branch.ownOf bs).length ≤ fuel) (done : Array NodeId) :
    (t.preorderWithin (fun id => t.kind id != .funcBody) fuel (bs.map Branch.id) done).toList
      = done.toList ++ (Branch.ownOf bs).map Branch.id := by
  induction fuel generalizing bs done with
  | zero =>
    rw [List.length_eq_zero_iff.mp (Nat.le_zero.mp enough), List.map_nil, List.append_nil,
      preorderWithin]
  | succ fuel ih =>
    cases bs with
    | nil =>
      rw [List.map_nil, preorderWithin, Branch.ownOf, List.map_nil, List.append_nil]
      exact Nat.succ_ne_zero fuel
    | cons b bs =>
      have inside := mem b List.mem_cons_self
      have here := other b List.mem_cons_self
      have kept : (t.children b.id).filter (fun id => t.kind id != .funcBody)
          = (b.children.filter fun c => c.kind != .funcBody).map Branch.id := by
        rw [h.children inside, List.filter_map]
        refine congrArg _ (List.filter_congr fun c child => ?_)
        rw [Function.comp_apply, h.kind (mem_of_child inside child)]
      rw [Branch.ownOf, Branch.own_of_ne here, List.cons_append, List.length_cons,
        List.length_append] at enough
      rw [List.map_cons, preorderWithin, kept, ← List.map_append, ih, Branch.ownOf_append,
        Branch.ownOf_filter, Branch.ownOf, Branch.own_of_ne here]
      · simp
      · intro c among
        rcases List.mem_append.mp among with child | rest
        · exact mem_of_child inside (List.mem_of_mem_filter child)
        · exact mem c (List.mem_cons_of_mem _ rest)
      · intro c among
        rcases List.mem_append.mp among with child | rest
        · simpa using (List.mem_filter.mp child).2
        · exact other c (List.mem_cons_of_mem _ rest)
      · rw [Branch.ownOf_append, Branch.ownOf_filter, List.length_append]
        omega

end Tree.Grows

/-! ## The parts of functions -/

/-- A list of parameters, which contain nothing, and a block. -/
structure Branch.HasBlock (f params block : Branch) : Prop where
  children_eq : f.children = [params, block]
  params_kind : params.kind = .paramList
  params_children : ∀ p ∈ params.children,
    (p.kind = .paramDef ∨ p.kind = .literal) ∧ p.children = []
  block_kind : block.kind = .block

namespace Branch.HasBlock

variable {f params block : Branch}

theorem params_mem (h : f.HasBlock params block) : params ∈ f.children :=
  h.children_eq ▸ List.mem_cons_self

theorem block_mem (h : f.HasBlock params block) : block ∈ f.children :=
  h.children_eq ▸ List.mem_cons_of_mem _ List.mem_cons_self

theorem ownOf_children (h : f.HasBlock params block) :
    Branch.ownOf f.children = params.own ++ Branch.ownOf [block] := by
  rw [h.children_eq, Branch.ownOf]

/-- The returns of a function are those in its block. -/
theorem mem_own_block_iff (h : f.HasBlock params block) {c : Branch} (ret : c.kind = .returnStat) :
    c ∈ Branch.ownOf [block] ↔ c ∈ Branch.ownOf f.children := by
  have noReturn : ∀ p ∈ params.own, p.kind ≠ .returnStat := by
    suffices all : ∀ p ∈ params.own, p.kind ≠ .returnStat ∧ ∀ q ∈ p.children,
        (q.kind = .paramDef ∨ q.kind = .literal) ∧ q.children = [] from
      fun p mem => (all p mem).1
    refine Branch.forall_mem_own (fun p above _ c child => ?_) params
      ⟨by rw [h.params_kind]; decide, h.params_children⟩
    obtain ⟨kind, none⟩ := above.2 c child
    rw [none]
    exact ⟨by rcases kind with kind | kind <;> rw [kind] <;> decide, List.forall_mem_nil _⟩
  rw [h.ownOf_children, List.mem_append]
  exact ⟨.inr, fun mem => mem.resolve_left fun mem => noReturn c mem ret⟩

theorem bare (h : f.HasBlock params block) : f.bare.HasBlock params.bare block.bare where
  children_eq := by rw [children_bare, h.children_eq, List.map_cons, List.map_singleton]
  params_kind := by rw [kind_bare, h.params_kind]
  params_children := by
    rw [children_bare, List.forall_mem_map]
    intro p child
    obtain ⟨kind, none⟩ := h.params_children p child
    rw [kind_bare, children_bare, none]
    exact ⟨kind, rfl⟩
  block_kind := by rw [kind_bare, h.block_kind]

theorem exists_of_bare (h : f.bare.HasBlock params block) :
    ∃ params' block', f.HasBlock params' block' := by
  have children := h.children_eq
  rw [children_bare, List.map_eq_cons_iff] at children
  obtain ⟨p, ps, parts, rfl, children⟩ := children
  rw [List.map_eq_singleton_iff] at children
  obtain ⟨b, rfl, rfl⟩ := children
  refine ⟨p, b, parts, (kind_bare p).symm.trans h.params_kind, fun q child => ?_,
    (kind_bare b).symm.trans h.block_kind⟩
  have inner := h.params_children q.bare (children_bare p ▸ List.mem_map_of_mem child)
  rwa [kind_bare, children_bare, List.map_eq_nil_iff] at inner

end Branch.HasBlock

namespace Layout

variable (l : Layout)

/-- The branches of the parts of a function. -/
theorem exists_hasBlock {next : Nat} {parts : List Outline} {f : Branch}
    (function : Outline.IsFunction parts) (children : f.children = l.branchesOf next parts) :
    ∃ params block, f.HasBlock params block := by
  obtain ⟨first, last, params, body, rfl, block, tokens⟩ := function
  cases body with
  | doc token => exact nomatch block
  | node kind first' last' stats =>
    obtain rfl : kind = .block := block
    refine ⟨_, _, children, rfl, fun p child => ?_, rfl⟩
    obtain ⟨o, mem, n, among, -⟩ := exists_of_mem_branchesOf child
    obtain ⟨kind, i, rfl, single⟩ := tokens o mem
    obtain ⟨rfl, -, none⟩ := eq_of_mem_branches among
    exact ⟨single, none⟩

/-- The functions of a program whose outline has their parts have them too. -/
theorem hasBlock_root {body : Outline} (bodied : body.Bodied) :
    ∀ f ∈ (l.root body).all, f.kind = .funcBody → ∃ params block, f.HasBlock params block := by
  suffices all : ∀ f ∈ (l.root body).all,
      (f.kind = .funcBody → ∃ params block, f.HasBlock params block)
        ∧ ∃ next cs, (∀ o ∈ cs, o.Bodied) ∧ f.children = l.branchesOf next cs from
    fun f mem => (all f mem).1
  refine Branch.forall_mem_all (fun p above c child => ?_) _
    ⟨nofun, 0, [body], List.forall_mem_singleton.mpr bodied, ?_⟩
  · obtain ⟨-, next, cs, bodied, children⟩ := above
    rw [children] at child
    obtain ⟨o, inside, n, mem, -⟩ := exists_of_mem_branchesOf child
    cases o with
    | doc token =>
      obtain ⟨comment, none⟩ := comment_of_mem_branches mem
      rw [comment]
      exact ⟨nofun, 0, [], List.forall_mem_nil _, none⟩
    | node kind first last below =>
      obtain ⟨rfl, -, children⟩ := eq_of_mem_branches mem
      have parts := bodied _ inside
      exact ⟨fun function => l.exists_hasBlock (parts.1 function) children, n, below,
        Outline.bodiedAll_iff.mp parts.2, children⟩
  · rw [branchesOf, branchesOf, List.append_nil]
    rfl

end Layout

/-! ## Returns -/

namespace Tree

/-- Every return in a function is found once, as a return of the innermost function around it, and
not as one of another function; and the returns of a function are found in the order of a walk. -/
structure ReturnsToNearest (t : Tree) : Prop where
  once : ∀ id f, t.kind id = .returnStat → t.nearestFunction? id = some f →
    (t.returnStats f).count id = 1
  elsewhere : ∀ id f, t.kind f = .funcBody → t.nearestFunction? id ≠ some f →
    id ∉ t.returnStats f
  inOrder : ∀ f, t.kind f = .funcBody → (t.returnStats f).Sublist t.walk

variable {t : Tree} {r f params block : Branch}

namespace Grows

theorem walk_perm (h : t.Grows r) : t.walk.Perm (List.range t.size) := by
  rw [h.walk_eq, ← h.ids]
  exact Branch.preorder_perm r

/-- A walk that does not enter functions meets nodes in the order of the whole walk. -/
theorem own_sublist_walk (h : t.Grows r) (mem : block ∈ r.all) :
    ((Branch.ownOf [block]).map Branch.id).Sublist t.walk := by
  have inner := Branch.ownOf_sublist_preorderOf [block]
  rw [Branch.preorderOf, Branch.preorderOf, List.append_nil] at inner
  rw [h.walk_eq]
  exact inner.trans (Branch.preorder_sublist r mem)

/-- The returns of a function with its parts. -/
theorem returnStats_eq (h : t.Grows r) (mem : f ∈ r.all) (parts : f.HasBlock params block) :
    t.returnStats f.id = ((Branch.ownOf [block]).map Branch.id).filter
      fun id => t.kind id == .returnStat := by
  have inside := mem_of_child mem parts.block_mem
  have found : t.block? f.id = some block.id := by
    rw [block?, child?, h.children mem, parts.children_eq, List.map_cons, List.find?_cons,
      h.kind (mem_of_child mem parts.params_mem), parts.params_kind, List.map_cons, List.find?_cons,
      h.kind inside, parts.block_kind]
    rfl
  have enough : (Branch.ownOf [block]).length ≤ t.size := by
    have le := (h.own_sublist_walk inside).length_le
    rwa [h.walk_perm.length_eq, List.length_range, List.length_map] at le
  have walk := h.preorderWithin_own [block] (List.forall_mem_singleton.mpr inside)
    (List.forall_mem_singleton.mpr (by rw [parts.block_kind]; decide)) enough #[]
  rw [returnStats, found]
  dsimp only
  rw [show [block.id] = [block].map Branch.id from rfl, walk]
  rfl

/-- The returns of a function with its parts are the returns whose nearest function it is. -/
theorem mem_returnStats_iff (h : t.Grows r) (mem : f ∈ r.all) (function : f.kind = .funcBody)
    (parts : f.HasBlock params block) {id : NodeId} :
    id ∈ t.returnStats f.id
      ↔ t.kind id = .returnStat ∧ t.nearestFunction? id = some f.id := by
  have own {c : Branch} (inside : c ∈ r.all) (ret : c.kind = .returnStat) :
      c ∈ Branch.ownOf [block] ↔ t.nearestFunction? c.id = some f.id :=
    (parts.mem_own_block_iff ret).trans
      (h.mem_ownOf_children_iff mem function c inside (by rw [ret]; decide))
  rw [h.returnStats_eq mem parts, List.mem_filter, beq_iff_eq, and_comm]
  refine and_congr_right fun ret => ?_
  obtain ⟨c, inside, kind, rfl⟩ := h.exists_mem_of_kind ret (by decide)
  rw [← own inside kind]
  constructor
  · intro among
    obtain ⟨d, met, same⟩ := List.mem_map.mp among
    have below : d ∈ Branch.ownOf f.children :=
      parts.ownOf_children ▸ List.mem_append_right _ met
    have node := (h.nearestFunction?_of_mem_ownOf mem function d below).1
    rwa [← h.eq_of_id_eq node inside same]
  · exact List.mem_map_of_mem

/-- Every return belongs to its nearest function, if functions have their parts. -/
theorem returnsToNearest_of_hasBlock (h : t.Grows r)
    (parts : ∀ f ∈ r.all, f.kind = .funcBody → ∃ params block, f.HasBlock params block) :
    t.ReturnsToNearest := by
  have inOrder (id : NodeId) (isBody : t.kind id = .funcBody) :
      (t.returnStats id).Sublist t.walk := by
    obtain ⟨f, mem, kind, rfl⟩ := h.exists_mem_of_kind isBody (by decide)
    obtain ⟨params, block, has⟩ := parts f mem kind
    rw [h.returnStats_eq mem has]
    exact List.filter_sublist.trans (h.own_sublist_walk (mem_of_child mem has.block_mem))
  have member (id g : NodeId) (isBody : t.kind g = .funcBody) :
      id ∈ t.returnStats g ↔ t.kind id = .returnStat ∧ t.nearestFunction? id = some g := by
    obtain ⟨f, mem, kind, rfl⟩ := h.exists_mem_of_kind isBody (by decide)
    obtain ⟨params, block, has⟩ := parts f mem kind
    exact h.mem_returnStats_iff mem kind has
  refine ⟨fun id g ret nearest => ?_, fun id g isBody other mem => ?_, inOrder⟩
  · have found := List.find?_some nearest
    have isBody : t.kind g = .funcBody := beq_iff_eq.mp found
    have nodup : t.walk.Nodup := h.walk_perm.nodup_iff.mpr List.nodup_range
    exact List.count_eq_one_of_mem (nodup.sublist (inOrder g isBody))
      ((member id g isBody).mpr ⟨ret, nearest⟩)
  · exact other ((member id g isBody).mp mem).2

end Grows

end Tree

/-- In every text each return belongs to its nearest function. -/
theorem Parsed.returnsToNearest (limit : Nat) (text : String) :
    (ofTextWithin limit text).tree.ReturnsToNearest := by
  have charged := (Program.charged limit
    ((Lexed.ofText text).lexemes.map Lexeme.token).toList).1
  obtain ⟨r, grows, bare, -⟩ := realizes limit text
  refine grows.returnsToNearest_of_hasBlock fun f mem function => ?_
  obtain ⟨g, mem', same⟩ := Branch.exists_bare_eq bare mem
  have isBody : g.kind = .funcBody := by
    rw [← Branch.kind_bare, same, Branch.kind_bare, function]
  obtain ⟨params, block, has⟩ := Layout.hasBlock_root _ (charged.bodied _ List.mem_cons_self) g
    mem' isBody
  exact Branch.HasBlock.exists_of_bare (same ▸ has.bare)

/-- A function that another one returns keeps its own returns. -/
theorem Parsed.returnsToNearest_returned :
    let t := (ofTextWithin maxNesting "f = function() return function() return 1 end end").tree
    t.textOf 7 = "return 1" ∧ t.kind 9 = .funcBody ∧ t.kind 15 = .funcBody
      ∧ (t.returnStats 9).count 7 = 1 ∧ 7 ∉ t.returnStats 15 := by
  intro t
  have returns : t.ReturnsToNearest := returnsToNearest maxNesting _
  exact ⟨by decide +kernel, by decide +kernel, by decide +kernel,
    returns.once 7 9 (by decide +kernel) (by decide +kernel),
    returns.elsewhere 7 15 (by decide +kernel) (by decide +kernel)⟩

end LuaTyping
