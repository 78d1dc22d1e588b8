import LuaTyping.Proofs.Scope.Visible

/-!
# Lookups follow the scoping rules

The bindings that a lookup finds at a node are compared with the environment that the walk of the
program meets the node with.  Two facts are carried down the tree together: the environment names
what is seen of the nodes above at the start of the node, and below the node nothing of it becomes
visible but through the node itself, when it is a block or a statement that introduces names.

* `Tree.Agrees`: the two facts.
* `Tree.Agrees.child`: the step from a node to a child.
* `Tree.agrees_of_meets`: so they hold wherever the walk comes.
* `Scopes.lookup_eq_environment`: a lookup finds what the environment of the node says.
-/

namespace LuaTyping

namespace Environment

variable {env : Environment}

theorem add_eq (env : Environment) (names : List Declared) :
    env.add names = names.reverse ++ env := by
  induction names generalizing env with
  | nil => rfl
  | cons d names ih =>
    have ih := ih (d :: env)
    rw [add] at ih ⊢
    rw [List.foldl_cons, ih, List.reverse_cons, List.append_assoc]
    rfl

theorem lookup?_append (names env : List Declared) (name : String) :
    lookup? (names ++ env) name = (lookup? names name).or (lookup? env name) :=
  List.find?_append

end Environment

namespace Tree

/-- No colon method lists a parameter `self`. -/
def SelfUnlisted (t : Tree) : Prop :=
  ∀ body ∈ t.walk, t.kind body = .funcBody → t.implicitSelf body ≠ [] →
    ∀ p ∈ t.params body, t.textOf p ≠ "self"

instance (t : Tree) : Decidable t.SelfUnlisted :=
  inferInstanceAs (Decidable (∀ body ∈ t.walk, _))

/-! ## The children of a node and their environments -/

section Below

variable {t : Tree} {p c : NodeId} {env env' : Environment}

theorem leave_eq (t : Tree) (env : Environment) (stats : List NodeId) :
    t.leave env stats = (stats.flatMap t.declares).reverse ++ env := by
  induction stats generalizing env with
  | nil => rfl
  | cons s ss ih =>
    have ih := ih (env.add (t.declares s))
    rw [leave] at ih ⊢
    rw [List.foldl_cons, ih, Environment.add_eq, List.flatMap_cons, List.reverse_append,
      List.append_assoc]

/-- A statement is met with what the statements in front of it leave. -/
theorem mem_thread {stats : List NodeId} (mem : (c, env') ∈ t.thread env stats) :
    ∃ before behind, stats = before ++ c :: behind ∧ env' = t.leave env before := by
  induction stats generalizing env with
  | nil => exact absurd mem List.not_mem_nil
  | cons s ss ih =>
    rw [thread] at mem
    rcases List.mem_cons.mp mem with eq | mem
    · obtain ⟨rfl, rfl⟩ := Prod.mk.inj eq
      exact ⟨[], ss, rfl, rfl⟩
    · obtain ⟨before, behind, rfl, rfl⟩ := ih mem
      exact ⟨s :: before, behind, rfl, rfl⟩

theorem map_fst_thread (t : Tree) (env : Environment) (stats : List NodeId) :
    (t.thread env stats).map Prod.fst = stats := by
  induction stats generalizing env with
  | nil => rfl
  | cons s ss ih => rw [thread, List.map_cons, ih]

/-- The walk goes on to the children of a node, in their order. -/
theorem map_fst_below (t : Tree) (env : Environment) (p : NodeId) :
    (t.below env p).map Prod.fst = t.children p := by
  unfold below
  split <;> first | exact map_fst_thread t env _ | simp [Function.comp_def]

theorem child_of_mem_below (mem : (c, env') ∈ t.below env p) : c ∈ t.children p := by
  rw [← map_fst_below t env p]
  exact List.mem_map_of_mem mem

theorem eq_of_mem_pairs {ids : List NodeId} {f : NodeId → Environment}
    (mem : (c, env') ∈ ids.map fun c => (c, f c)) : env' = f c := by
  obtain ⟨c', -, eq⟩ := List.mem_map.mp mem
  obtain ⟨rfl, rfl⟩ := Prod.mk.inj eq
  rfl

/-- A child is met with one environment. -/
theorem below_unique {env'' : Environment} (nodup : (t.children p).Nodup)
    (mem : (c, env') ∈ t.below env p) (mem' : (c, env'') ∈ t.below env p) : env' = env'' := by
  rw [← map_fst_below t env p] at nodup
  have same := List.inj_on_of_nodup_map nodup mem mem' rfl
  exact (Prod.mk.inj same).2

end Below

/-- What the environment of a node has to do with the bindings of the nodes above: it names what is
seen of them where the node starts, and inside the node no binding becomes visible but those of the
node itself, or of its statements if it is a block. -/
structure Agrees (t : Tree) (id : NodeId) (env : Environment) : Prop where
  inside : id < t.size
  above : ∀ a ∈ t.ancestors id, a < t.size
  upwards : (id :: t.ancestors id).Pairwise (· < ·)
  same : ∀ name, Environment.lookup? env name
    = Environment.lookup? (t.seenFrom (t.start id) (t.ancestors id)) name
  quiet_own : ∀ a ∈ t.ancestors id, ∀ b ∈ t.ownBindings a,
    b.visibleFrom ≤ t.start id ∨ t.stop id ≤ b.visibleFrom
  quiet_block : ∀ a ∈ t.ancestors id, ∀ β s b, t.Owns a β → s ∈ t.children β → b ∈ t.binds s →
    b.visibleFrom ≤ t.start id ∨ t.stop id ≤ b.visibleFrom ∨ s = id ∨ β = id

namespace Agrees

variable {t : Tree} {p c a β : NodeId} {env env' : Environment}

/-! ## Nothing becomes visible on the way to a child -/

/-- The words of a part lie in the node, and are some. -/
theorem bounds_part (h : t.Arranged) (part : c ∈ t.parts p) (holds : t.Holds c) :
    t.start p ≤ t.start c ∧ t.start c < t.stop c ∧ t.stop c ≤ t.stop p := by
  have inside := h.inside part holds
  exact ⟨inside.1, holds.2, inside.2⟩

/-- Unless a node above owns the node's own names, as much is seen of it at the start of a child as
at the start of the node. -/
theorem seen_child (h : t.Arranged) (agrees : t.Agrees p env) (part : c ∈ t.parts p)
    (holds : t.Holds c) (mem : a ∈ t.ancestors p) (notOwner : ¬ t.Owns a p)
    (notLocal : t.kind p = .localFuncStat → ∀ β, p ∈ t.children β → ¬ t.Owns a β) :
    t.seen (t.start c) a = t.seen (t.start p) a := by
  have bounds := bounds_part h part holds
  have inside := agrees.above a mem
  refine seen_congr fun b binding => ?_
  have apart : b.visibleFrom ≤ t.start p ∨ t.stop p ≤ b.visibleFrom := by
    cases own : t.ownsScope a with
    | false =>
      rw [Arranged.bindings_eq_nil inside own] at binding
      exact absurd binding List.not_mem_nil
    | true =>
      obtain ⟨β, owns⟩ := h.exists_owned inside own
      rw [h.bindings_eq owns inside] at binding
      rcases List.mem_append.mp binding with opened | binding
      · exact agrees.quiet_own a mem b opened
      · obtain ⟨s, child, bound⟩ := List.mem_flatMap.mp binding
        rcases agrees.quiet_block a mem β s b owns child bound with low | high | rfl | rfl
        · exact .inl low
        · exact .inr high
        · unfold binds at bound
          split at bound
          · obtain ⟨n, -, rfl⟩ := List.mem_map.mp bound
            exact .inr (Nat.le_refl _)
          · exact absurd owns (notLocal ‹_› β child)
          · exact absurd bound List.not_mem_nil
        · exact absurd owns notOwner
  omega

/-- What the node itself opens becomes visible in front of a child or behind it. -/
theorem quiet_own_child (h : t.Arranged) (part : c ∈ t.parts p) (holds : t.Holds c) {b : Binding}
    (mem : b ∈ t.ownBindings p) : b.visibleFrom ≤ t.start c ∨ t.stop c ≤ b.visibleFrom := by
  have bounds := bounds_part h part holds
  have kinds : (t.kind p).holdsBlock = true ∧ (t.kind p).goesOn = false := by
    unfold ownBindings at mem
    split at mem <;> first | exact absurd mem List.not_mem_nil | (rename_i kind; rw [kind]; decide)
  rw [t.visibleFrom_ownBindings mem, openAt]
  split
  · exact .inl bounds.1
  · obtain ⟨ks, β, ks', eq, block, -, -, last⟩ :=
      h.exists_body (Arranged.parent_lt_size (Arranged.mem_parts.mp part).1) kinds.1
    obtain rfl := last kinds.2
    have inside : β ∈ t.children p := by
      refine (Arranged.mem_parts.mp (?_ : β ∈ t.parts p)).1
      rw [eq]
      exact List.mem_append_right _ List.mem_cons_self
    rw [bodyStart, h.block?_eq inside block]
    have order := h.order p
    rw [eq, List.pairwise_append] at order
    rw [eq] at part
    rcases List.mem_append.mp part with before | here
    · exact .inr (order.2.2 c before β List.mem_cons_self holds)
    · rw [List.mem_singleton.mp here]
      exact .inl (Nat.le_refl _)

/-- The name of a local function is visible at all parts of the statement. -/
theorem visible_localFunction (h : t.Arranged) (isFunction : t.kind p = .localFuncStat)
    (part : c ∈ t.parts p) {b : Binding} (bound : b ∈ t.binds p) :
    b.visibleFrom ≤ t.start c := by
  rw [binds, isFunction] at bound
  obtain ⟨n, found, rfl⟩ := List.mem_map.mp bound
  obtain ⟨name, -, nonempty, -⟩ := h.bounds_ownName isFunction (Option.mem_toList.mp found)
  have isName : t.kind n = .nameDef := by
    simpa using List.find?_some (Option.mem_toList.mp found)
  dsimp only [bindingOf]
  by_cases same : c = n
  · rw [same]
  · -- what stands beside the name is the body, behind it
    have admits := h.admits_parent (Arranged.mem_parts.mp part).1
    generalize kinds : (t.parts p).map t.kind = ks at admits
    rw [isFunction] at admits
    cases admits with
    | flat flat => exact absurd flat (by decide)
    | body holds => exact absurd holds (by decide)
    | localFunction =>
      obtain ⟨n', rest, eq, isName', tail⟩ := List.map_eq_cons_iff.mp kinds
      obtain ⟨f, rest', rfl, isBody, none⟩ := List.map_eq_cons_iff.mp tail
      obtain rfl := List.map_eq_nil_iff.mp none
      have order := h.order p
      rw [eq] at name part order
      have first : n = n' := by
        rcases List.mem_cons.mp name with same | mem
        · exact same
        · rw [List.mem_singleton.mp mem, isBody] at isName
          exact absurd isName (by decide)
      have second : c = f := by
        rcases List.mem_cons.mp part with same' | mem
        · exact absurd (same'.trans first.symm) same
        · exact List.mem_singleton.mp mem
      have behind := (List.pairwise_cons.mp order).1 f (List.mem_singleton.mpr rfl)
      rw [← first, ← second] at behind
      have holdsName : t.Holds n := ⟨by rw [isName]; decide, nonempty⟩
      exact Nat.le_trans (Nat.le_of_lt nonempty) (behind holdsName)

/-- The names of a statement become visible in front of its parts or behind them. -/
theorem quiet_statement (h : t.Arranged) (part : c ∈ t.parts p) (holds : t.Holds c) {b : Binding}
    (bound : b ∈ t.binds p) : b.visibleFrom ≤ t.start c ∨ t.stop c ≤ b.visibleFrom := by
  by_cases isFunction : t.kind p = .localFuncStat
  · exact .inl (visible_localFunction h isFunction part bound)
  · have bounds := bounds_part h part holds
    unfold binds at bound
    split at bound
    · obtain ⟨n, -, rfl⟩ := List.mem_map.mp bound
      exact .inr bounds.2.2
    · exact absurd ‹_› isFunction
    · exact absurd bound List.not_mem_nil

/-- The names of a statement become visible in front of the other statements or behind them. -/
theorem quiet_sibling (h : t.Arranged) {s : NodeId} (block : t.kind β = .block)
    (child : s ∈ t.children β) (child' : c ∈ t.children β) (ne : s ≠ c) {b : Binding}
    (bound : b ∈ t.binds s) : b.visibleFrom ≤ t.start c ∨ t.stop c ≤ b.visibleFrom := by
  have bounds := h.bounds_binds block child bound
  have parts := h.parts_block block
  have holds := h.holds_statement block child
  have holds' := h.holds_statement block child'
  rcases h.order_of_ne (parts ▸ child) (parts ▸ child') ne with before | behind
  · have := before holds
    omega
  · have := behind holds'
    omega

/-- Below a node nothing becomes visible but through its parts. -/
theorem quiet_block_child (h : t.Arranged) (agrees : t.Agrees p env) (part : c ∈ t.parts p)
    (holds : t.Holds c) (mem : a ∈ p :: t.ancestors p) {s : NodeId} {b : Binding}
    (owns : t.Owns a β) (child : s ∈ t.children β) (bound : b ∈ t.binds s) :
    b.visibleFrom ≤ t.start c ∨ t.stop c ≤ b.visibleFrom ∨ s = c ∨ β = c := by
  have bounds := bounds_part h part holds
  have below := (Arranged.mem_parts.mp part).1
  have inBlock (same : β = p) :
      b.visibleFrom ≤ t.start c ∨ t.stop c ≤ b.visibleFrom ∨ s = c ∨ β = c := by
    subst same
    by_cases self : s = c
    · exact .inr (.inr (.inl self))
    · rcases quiet_sibling h owns.1 child below self bound with low | high
      · exact .inl low
      · exact .inr (.inl high)
  rcases List.mem_cons.mp mem with rfl | mem
  · obtain ⟨block, ⟨same, -⟩ | ⟨inside, -, -⟩⟩ := owns
    · exact inBlock same.symm
    · by_cases self : β = c
      · exact .inr (.inr (.inr self))
      · have nonempty := h.holds_of_children inside child
        have part' := Arranged.mem_parts.mpr ⟨inside, nonempty.1⟩
        have within := h.bounds_binds block child bound
        have stat := h.bounds_statement block child
        rcases h.order_of_ne part' part self with before | behind
        · have := before nonempty
          omega
        · have := behind holds
          omega
  · rcases agrees.quiet_block a mem β s b owns child bound with low | high | rfl | same
    · exact .inl (Nat.le_trans low bounds.1)
    · exact .inr (.inl (Nat.le_trans bounds.2.2 high))
    · rcases quiet_statement h part holds bound with low | high
      · exact .inl low
      · exact .inr (.inl high)
    · exact inBlock same

/-! ## The environment of a child -/

/-- Above a node that is neither block nor local function as much is seen at the start of a child
as at its own start. -/
theorem seenFrom_child (h : t.Arranged) (agrees : t.Agrees p env) (part : c ∈ t.parts p)
    (holds : t.Holds c) (notBlock : t.kind p ≠ .block) (notFunction : t.kind p ≠ .localFuncStat) :
    t.seenFrom (t.start c) (t.ancestors p) = t.seenFrom (t.start p) (t.ancestors p) :=
  seenFrom_congr fun _ mem => seen_child h agrees part holds mem (fun owns => notBlock owns.1)
    fun isFunction => absurd isFunction notFunction

/-- What is seen at a part of a node with a block in it that the node owns: up to the block what
the node opens itself, and behind the block the names of its statements too. -/
theorem seen_body (h : t.Arranged) (part : c ∈ t.parts p) (holds : t.Holds c)
    (holdsBlock : (t.kind p).holdsBlock = true) (owner : ownsBlock (t.kind p) = false) :
    ∃ β, t.block? p = some β ∧
      ((c = β ∧ t.seen (t.start c) p = t.opened (t.start c) p)
        ∨ (t.kind c ≠ .block ∧ t.kind p ≠ .repeatStat ∧ t.stop c ≤ t.start β
          ∧ t.seen (t.start c) p = t.opened (t.start c) p)
        ∨ (t.kind c ≠ .block ∧ (t.kind p).goesOn = true
          ∧ t.seen (t.start c) p
            = ((t.children β).flatMap t.declares).reverse ++ t.opened (t.start c) p)) := by
  have inside := Arranged.parent_lt_size (Arranged.mem_parts.mp part).1
  obtain ⟨ks, β, ks', eq, block, inner, front, last⟩ := h.exists_body inside holdsBlock
  have partβ : β ∈ t.parts p := by
    rw [eq]
    exact List.mem_append_right _ List.mem_cons_self
  have child := (Arranged.mem_parts.mp partβ).1
  have owns : t.Owns p β :=
    ⟨block, .inr ⟨child, by rw [h.ownsScope_block child block, owner],
      Arranged.ownsScope_of_holdsBlock holdsBlock owner⟩⟩
  have order := h.order p
  rw [eq, List.pairwise_append] at order
  refine ⟨β, h.block?_eq child block, ?_⟩
  rw [eq] at part
  rcases List.mem_append.mp part with before | here
  · have stop := order.2.2 c before β List.mem_cons_self holds
    refine .inr (.inl ⟨(inner c (List.mem_append_left _ before)).2, ?_, stop, ?_⟩)
    · intro isRepeat
      rw [front isRepeat] at before
      exact absurd before List.not_mem_nil
    · exact h.seen_before owns inside (Nat.le_trans (Nat.le_of_lt holds.2) stop)
  · rcases List.mem_cons.mp here with rfl | behind
    · exact .inl ⟨rfl, h.seen_before owns inside (Nat.le_refl _)⟩
    · refine .inr (.inr ⟨(inner c (List.mem_append_right _ behind)).2, ?_, ?_⟩)
      · refine Bool.not_eq_false _ ▸ fun notOn => ?_
        rw [last notOn] at behind
        exact absurd behind List.not_mem_nil
      · by_cases empty : t.children β = []
        · -- an empty block leaves nothing, wherever it stands
          rw [empty, seen, h.bindings_eq owns inside, empty, List.flatMap_nil, List.append_nil]
          rfl
        · obtain ⟨s, rest, children⟩ := List.exists_cons_of_ne_nil empty
          have holdsβ : t.Holds β :=
            h.holds_of_children child (children ▸ List.mem_cons_self)
          exact h.seen_behind owns inside ((List.pairwise_cons.mp order.2.1).1 c behind holdsβ)

/-- The parameters of a function and the unwritten `self` name the same in either order. -/
theorem lookup?_opens_funcBody (unlisted : t.SelfUnlisted) (inside : p ∈ t.walk)
    (isBody : t.kind p = .funcBody) (name : String) :
    Environment.lookup? (t.opens p).reverse name
      = Environment.lookup? ((t.ownBindings p).map Binding.declared).reverse name := by
  have own : (t.ownBindings p).map Binding.declared
      = (t.params p).map (fun q => t.declared q q .param) ++ t.implicitSelf p := by
    rw [ownBindings, isBody, List.map_append, List.map_map]
    congr 1
    rw [selfBinding, implicitSelf]
    cases t.parent p with
    | none => rfl
    | some stat =>
      rw [Option.bind_some, cast?]
      by_cases kind : t.kind stat = .funcStat
      · by_cases method : t.isMethod stat = true <;> simp [kind, method, Binding.declared]
      · simp [kind]
  have opens : t.opens p
      = t.implicitSelf p ++ (t.params p).map fun q => t.declared q q .param := by
    rw [Tree.opens, isBody]
  rw [own, opens, List.reverse_append, List.reverse_append, Environment.lookup?_append,
    Environment.lookup?_append]
  cases self : Environment.lookup? (t.implicitSelf p).reverse name with
  | none => rw [Option.or_none, Option.none_or]
  | some d =>
    -- the name is `self`, and no parameter has it
    have mem := List.mem_reverse.mp (List.mem_of_find?_eq_some self)
    have named : d.name = name := by simpa using List.find?_some self
    have isSelf : d.name = "self" := by
      unfold implicitSelf at mem
      split at mem
      · split at mem
        · rw [List.mem_singleton.mp mem]
        · exact absurd mem List.not_mem_nil
      · exact absurd mem List.not_mem_nil
    have none : Environment.lookup? ((t.params p).map fun q => t.declared q q .param).reverse name
        = none := by
      refine List.find?_eq_none.mpr fun d' mem' => ?_
      obtain ⟨q, param, rfl⟩ := List.mem_map.mp (List.mem_reverse.mp mem')
      have other := unlisted p inside isBody (List.ne_nil_of_mem mem) q param
      rw [← named, isSelf]
      simpa [declared] using other
    rw [none, Option.or_none, Option.none_or]

/-- The nodes above a statement, seen from its owner. -/
theorem seenFrom_ancestors (h : t.Arranged) {s : NodeId} (owns : t.Owns a β)
    (child : s ∈ t.children β) (offset : Nat) :
    t.seenFrom offset (t.ancestors s) = t.seen offset a ++ t.seenFrom offset (t.ancestors a) := by
  rw [h.child_ancestors child, seenFrom_cons]
  obtain ⟨-, ⟨rfl, -⟩ | ⟨inside, notOwner, -⟩⟩ := owns
  · rfl
  · rw [Arranged.seen_eq_nil (Arranged.parent_lt_size child) notOwner, List.nil_append,
      h.child_ancestors inside, seenFrom_cons]

theorem owner_unique (owns : t.Owns a β) {a' : NodeId} (owns' : t.Owns a' β) (h : t.Arranged) :
    a = a' := by
  obtain ⟨-, ⟨rfl, own⟩ | ⟨child, notOwn, -⟩⟩ := owns <;>
    obtain ⟨-, ⟨rfl, own'⟩ | ⟨child', notOwn', -⟩⟩ := owns'
  · rfl
  · exact absurd (own.symm.trans notOwn') (by decide)
  · exact absurd (own'.symm.trans notOwn) (by decide)
  · have parents := (h.child_parent child).symm.trans (h.child_parent child')
    exact Option.some.inj parents

/-- Every statement of a block is seen from an owner. -/
theorem exists_owner_of_child (h : t.Arranged) {s : NodeId} (block : t.kind β = .block)
    (child : s ∈ t.children β) : ∃ a, t.Owns a β ∧ a < t.size := by
  have notRoot : β ≠ t.root := by
    rintro rfl
    rw [h.root_kind] at block
    exact absurd block (by decide)
  obtain ⟨p, -, around⟩ := (h.exists_parent (Arranged.parent_lt_size child)).resolve_left notRoot
  obtain ⟨a, owns⟩ := h.exists_owner around block
  refine ⟨a, owns, ?_⟩
  obtain ⟨-, ⟨rfl, -⟩ | ⟨inside, -, -⟩⟩ := owns
  · exact Arranged.parent_lt_size child
  · exact Arranged.parent_lt_size inside

/-- Above the owner of a block is what is above the block, the owner apart. -/
theorem above_owner (h : t.Arranged) (owns : t.Owns a β)
    (upwards : (β :: t.ancestors β).Pairwise (· < ·)) :
    t.ancestors a <:+ t.ancestors β ∧ a ∉ t.ancestors a := by
  obtain ⟨-, ⟨rfl, -⟩ | ⟨up, -, -⟩⟩ := owns
  · refine ⟨List.suffix_refl _, fun self => ?_⟩
    exact absurd ((List.pairwise_cons.mp upwards).1 _ self) (Nat.lt_irrefl _)
  · rw [h.child_ancestors up] at upwards ⊢
    refine ⟨List.suffix_cons _ _, fun self => ?_⟩
    have above := (List.pairwise_cons.mp (List.pairwise_cons.mp upwards).2).1 _ self
    exact absurd above (Nat.lt_irrefl _)

/-- Above an owner as much is seen at a child of a node in its scope as at the node. -/
theorem seenFrom_owner (h : t.Arranged) (agrees : t.Agrees p env) (part : c ∈ t.parts p)
    (holds : t.Holds c) (suffix : t.ancestors a <:+ t.ancestors p)
    (fresh : a ∉ t.ancestors a) (owner : ∀ a', t.Owns a' p → a' = a)
    (local_ : t.kind p = .localFuncStat → ∀ β, p ∈ t.children β → ∀ a', t.Owns a' β → a' = a) :
    t.seenFrom (t.start c) (t.ancestors a) = t.seenFrom (t.start p) (t.ancestors a) := by
  refine seenFrom_congr fun a' mem => ?_
  have ne : a' ≠ a := by
    rintro rfl
    exact fresh mem
  exact seen_child h agrees part holds (suffix.subset mem) (fun owns => ne (owner a' owns))
    fun isFunction β child owns => ne (local_ isFunction β child a' owns)

/-- A statement of a block is met with what the statements in front of it leave. -/
theorem same_block (h : t.Arranged) (agrees : t.Agrees p env) (block : t.kind p = .block)
    (mem : (c, env') ∈ t.thread env (t.children p)) (name : String) :
    Environment.lookup? env' name
      = Environment.lookup? (t.seenFrom (t.start c) (t.ancestors c)) name := by
  obtain ⟨before, behind, split, rfl⟩ := mem_thread mem
  have child : c ∈ t.children p := by
    rw [split]
    exact List.mem_append_right _ List.mem_cons_self
  have part : c ∈ t.parts p := h.parts_block block ▸ child
  have holds := h.holds_statement block child
  have bounds := h.bounds_statement block child
  obtain ⟨a, owns, inside⟩ := exists_owner_of_child h block child
  obtain ⟨suffix, fresh⟩ := above_owner h owns agrees.upwards
  -- seen from the block, the owner shows what it opens
  have around : t.seenFrom (t.start p) (t.ancestors p)
      = ((t.ownBindings a).map Binding.declared).reverse
        ++ t.seenFrom (t.start p) (t.ancestors a) := by
    obtain ⟨-, ⟨rfl, -⟩ | ⟨up, -, -⟩⟩ := id owns
    · have none : t.ownBindings a = [] := by rw [ownBindings, block]
      rw [none]
      rfl
    · rw [h.child_ancestors up, seenFrom_cons, h.seen_before owns inside (Nat.le_refl _),
        h.opened_of_block owns child (Nat.le_refl _)]
  have stable := seenFrom_owner h agrees part holds suffix fresh
    (fun a' owns' => owner_unique owns' owns h) fun isFunction => by
      rw [block] at isFunction
      exact absurd isFunction (by decide)
  have none : (t.binds c).filter (fun b => decide (b.visibleFrom ≤ t.start c)) = [] := by
    refine List.filter_eq_nil_iff.mpr fun b bound => ?_
    have first := (h.bounds_binds block child bound).1
    rw [decide_eq_true_eq]
    omega
  rw [seenFrom_ancestors h owns child,
    h.seen_statement owns inside split (Nat.le_refl _) bounds.2.1,
    none, h.opened_of_block owns child bounds.1, stable, leave_eq, Environment.lookup?_append,
    agrees.same, around]
  simp only [List.reverse_nil, List.map_nil, List.nil_append, List.append_assoc,
    Environment.lookup?_append]

/-- The body of a local function is met with its name in force. -/
theorem same_localFunction (h : t.Arranged) (agrees : t.Agrees p env)
    (isFunction : t.kind p = .localFuncStat) (part : c ∈ t.parts p) (holds : t.Holds c)
    (name : String) :
    Environment.lookup? (env.add (t.declares p)) name
      = Environment.lookup? (t.seenFrom (t.start c) (t.ancestors c)) name := by
  have bounds := bounds_part h part holds
  have notRoot : p ≠ t.root := by
    rintro rfl
    rw [h.root_kind] at isFunction
    exact absurd isFunction (by decide)
  obtain ⟨β, -, child⟩ := (h.exists_parent agrees.inside).resolve_left notRoot
  have block := h.parent_of_local child (.inr isFunction)
  have around := h.bounds_statement block child
  obtain ⟨a, owns, inside⟩ := exists_owner_of_child h block child
  obtain ⟨before, behind, split⟩ := List.append_of_mem child
  have upwards := agrees.upwards
  rw [h.child_ancestors child] at upwards
  obtain ⟨suffix, fresh⟩ := above_owner h owns (List.pairwise_cons.mp upwards).2
  have suffix : t.ancestors a <:+ t.ancestors p := by
    rw [h.child_ancestors child]
    exact suffix.trans (List.suffix_cons _ _)
  have stable := seenFrom_owner h agrees part holds suffix fresh
    (fun a' owns' => by
      rw [owns'.1] at isFunction
      exact absurd isFunction (by decide)) fun _ β' child' a' owns' => by
        have same := (h.child_parent child').symm.trans (h.child_parent child)
        obtain rfl := Option.some.inj same
        exact owner_unique owns' owns h
  have notOwner : t.ownsScope p = false := by rw [ownsScope, isFunction]
  have all : (t.binds p).filter (fun b => decide (b.visibleFrom ≤ t.start c)) = t.binds p :=
    List.filter_eq_self.mpr fun b bound =>
      decide_eq_true (visible_localFunction h isFunction part bound)
  have none : (t.binds p).filter (fun b => decide (b.visibleFrom ≤ t.start p)) = [] := by
    refine List.filter_eq_nil_iff.mpr fun b bound => ?_
    have first := (h.bounds_binds block child bound).1
    rw [decide_eq_true_eq]
    omega
  have later := h.seen_statement owns inside split bounds.1
    (Nat.lt_of_lt_of_le bounds.2.1 bounds.2.2)
  have earlier := h.seen_statement owns inside split (Nat.le_refl _) around.2.1
  rw [all, List.map_reverse, t.declared_binds,
    h.opened_of_block owns child (Nat.le_trans around.1 bounds.1)] at later
  rw [none, h.opened_of_block owns child around.1] at earlier
  rw [h.child_ancestors (Arranged.mem_parts.mp part).1, seenFrom_cons,
    Arranged.seen_eq_nil agrees.inside notOwner, List.nil_append, seenFrom_ancestors h owns child,
    stable, later, Environment.add_eq, Environment.lookup?_append, agrees.same,
    seenFrom_ancestors h owns child, earlier]
  simp only [List.reverse_nil, List.map_nil, List.nil_append, List.append_assoc,
    Environment.lookup?_append]

/-- The children of a node that adds no names to the environment around it. -/
theorem same_other (h : t.Arranged) (agrees : t.Agrees p env) (part : c ∈ t.parts p)
    (holds : t.Holds c) (notBlock : t.kind p ≠ .block) (notFunction : t.kind p ≠ .localFuncStat)
    (names : List Declared) (own : ∀ name, Environment.lookup? names name
      = Environment.lookup? (t.seen (t.start c) p) name) (name : String) :
    Environment.lookup? (names ++ env) name
      = Environment.lookup? (t.seenFrom (t.start c) (t.ancestors c)) name := by
  rw [h.child_ancestors (Arranged.mem_parts.mp part).1, seenFrom_cons,
    seenFrom_child h agrees part holds notBlock notFunction, Environment.lookup?_append,
    Environment.lookup?_append, own, agrees.same]

/-- The body of a function is met with its parameters in force. -/
theorem seen_funcBody (h : t.Arranged) (unlisted : t.SelfUnlisted) (inside : p < t.size)
    (isBody : t.kind p = .funcBody) (part : c ∈ t.parts p) (holds : t.Holds c) (name : String) :
    Environment.lookup? (t.opens p).reverse name
      = Environment.lookup? (t.seen (t.start c) p) name := by
  have openAt : t.openAt p ≤ t.start c := by
    rw [Tree.openAt, if_pos isBody]
    exact (bounds_part h part holds).1
  have seen : t.seen (t.start c) p = t.opened (t.start c) p := by
    obtain ⟨β, -, ⟨-, seen⟩ | ⟨-, -, -, seen⟩ | ⟨-, goesOn, -⟩⟩ :=
      seen_body h part holds (by rw [isBody]; rfl) (by rw [isBody]; rfl)
    · exact seen
    · exact seen
    · rw [isBody] at goesOn
      exact absurd goesOn (by decide)
  rw [seen, opened_of_le openAt]
  exact lookup?_opens_funcBody unlisted (h.mem_walk.mpr inside) isBody name

/-- The block of a loop over values is met with the loop's names in force, what is in front of it
without them. -/
theorem seen_for (h : t.Arranged)
    (isFor : t.kind p = .numericForStat ∨ t.kind p = .genericForStat) (part : c ∈ t.parts p)
    (holds : t.Holds c) :
    t.seen (t.start c) p = if t.kind c = .block then (t.opens p).reverse else [] := by
  have kinds : (t.kind p).holdsBlock = true ∧ ownsBlock (t.kind p) = false
      ∧ (t.kind p).goesOn = false ∧ t.kind p ≠ .funcBody := by
    rcases isFor with kind | kind <;> rw [kind] <;> decide
  have own : (t.ownBindings p).map Binding.declared = t.opens p := by
    unfold ownBindings Tree.opens
    rcases isFor with kind | kind <;> rw [kind] <;> simp [Function.comp_def, Binding.declared,
      bindingOf, declared]
  obtain ⟨β, block, ⟨rfl, seen⟩ | ⟨notBlock, -, stop, seen⟩ | ⟨-, goesOn, -⟩⟩ :=
    seen_body h part holds kinds.1 kinds.2.1
  · have isBlock : t.kind c = .block := by simpa using List.find?_some block
    have openAt : t.openAt p ≤ t.start c := by
      rw [Tree.openAt, if_neg kinds.2.2.2, bodyStart, block]
    rw [seen, opened_of_le openAt, own, if_pos isBlock]
  · have closed : t.start c < t.openAt p := by
      rw [Tree.openAt, if_neg kinds.2.2.2, bodyStart, block]
      exact Nat.lt_of_lt_of_le holds.2 stop
    rw [seen, opened_of_lt closed, if_neg notBlock]
  · rw [kinds.2.2.1] at goesOn
    exact absurd goesOn (by decide)

/-- The condition of `repeat` is met with what its block leaves. -/
theorem seen_repeat (h : t.Arranged) (isRepeat : t.kind p = .repeatStat) (part : c ∈ t.parts p)
    (holds : t.Holds c) :
    t.seen (t.start c) p = if t.kind c = .block then []
      else ((((t.block? p).map t.children).getD []).flatMap t.declares).reverse := by
  have none : t.opened (t.start c) p = [] := by
    rw [opened, ownBindings, isRepeat]
    rfl
  obtain ⟨β, block, ⟨rfl, seen⟩ | ⟨-, other, -, -⟩ | ⟨notBlock, -, seen⟩⟩ :=
    seen_body h part holds (by rw [isRepeat]; rfl) (by rw [isRepeat]; rfl)
  · have isBlock : t.kind c = .block := by simpa using List.find?_some block
    rw [seen, none, if_pos isBlock]
  · exact absurd isRepeat other
  · rw [seen, none, if_neg notBlock, block, List.append_nil]
    rfl

/-- A program and what owns no scope show nothing of their own in front of their statements. -/
theorem seen_other (h : t.Arranged) (inside : p < t.size) (part : c ∈ t.parts p)
    (holds : t.Holds c) (notBlock : t.kind p ≠ .block) (notBody : t.kind p ≠ .funcBody)
    (notNumeric : t.kind p ≠ .numericForStat) (notGeneric : t.kind p ≠ .genericForStat)
    (notRepeat : t.kind p ≠ .repeatStat) : t.seen (t.start c) p = [] := by
  by_cases chunk : t.kind p = .chunk
  · have none : t.opened (t.start c) p = [] := by
      rw [opened, ownBindings, chunk]
      rfl
    obtain ⟨β, -, ⟨-, seen⟩ | ⟨-, -, -, seen⟩ | ⟨-, goesOn, -⟩⟩ :=
      seen_body h part holds (by rw [chunk]; rfl) (by rw [chunk]; rfl)
    · rw [seen, none]
    · rw [seen, none]
    · rw [chunk] at goesOn
      exact absurd goesOn (by decide)
  · refine Arranged.seen_eq_nil inside ?_
    unfold ownsScope
    cases kind : t.kind p <;> first | rfl | contradiction

/-- A child is met with what is seen at its start. -/
theorem same_child (h : t.Arranged) (unlisted : t.SelfUnlisted) (agrees : t.Agrees p env)
    (mem : (c, env') ∈ t.below env p) (part : c ∈ t.parts p) (holds : t.Holds c) (name : String) :
    Environment.lookup? env' name
      = Environment.lookup? (t.seenFrom (t.start c) (t.ancestors c)) name := by
  have forLoop (isFor : t.kind p = .numericForStat ∨ t.kind p = .genericForStat)
      (eq : env' = if t.kind c = .block then env.add (t.opens p) else env) :
      Environment.lookup? env' name
        = Environment.lookup? (t.seenFrom (t.start c) (t.ancestors c)) name := by
    have names : env' = (if t.kind c = .block then (t.opens p).reverse else []) ++ env := by
      rw [eq, Environment.add_eq]
      split <;> rfl
    rw [names, ← seen_for h isFor part holds]
    exact same_other h agrees part holds (by rcases isFor with kind | kind <;> rw [kind] <;> decide)
      (by rcases isFor with kind | kind <;> rw [kind] <;> decide) _ (fun _ => rfl) name
  unfold below at mem
  split at mem
  · exact same_block h agrees ‹_› mem name
  · rw [eq_of_mem_pairs mem]
    exact same_localFunction h agrees ‹_› part holds name
  · rename_i kind
    rw [eq_of_mem_pairs mem, Environment.add_eq]
    exact same_other h agrees part holds (by rw [kind]; decide) (by rw [kind]; decide) _
      (seen_funcBody h unlisted agrees.inside kind part holds) name
  · exact forLoop (.inl ‹_›) (eq_of_mem_pairs mem)
  · exact forLoop (.inr ‹_›) (eq_of_mem_pairs mem)
  · rename_i kind
    have names : env' = (if t.kind c = .block then []
        else ((((t.block? p).map t.children).getD []).flatMap t.declares).reverse) ++ env := by
      rw [eq_of_mem_pairs mem, leave_eq]
      split <;> rfl
    rw [names, ← seen_repeat h kind part holds]
    exact same_other h agrees part holds (by rw [kind]; decide) (by rw [kind]; decide) _
      (fun _ => rfl) name
  · rename_i notBlock notFunction notBody notNumeric notGeneric notRepeat
    rw [eq_of_mem_pairs mem]
    have none := seen_other h agrees.inside part holds notBlock notBody notNumeric notGeneric
      notRepeat
    exact same_other h agrees part holds notBlock notFunction [] (fun _ => by rw [none]) name

/-! ## The walk -/

/-- The step of the walk. -/
theorem child (h : t.Arranged) (unlisted : t.SelfUnlisted) (agrees : t.Agrees p env)
    (mem : (c, env') ∈ t.below env p) (part : c ∈ t.parts p) (holds : t.Holds c) :
    t.Agrees c env' where
  inside := h.child_lt_size (Arranged.mem_parts.mp part).1
  above := by
    rw [h.child_ancestors (Arranged.mem_parts.mp part).1]
    exact List.forall_mem_cons.mpr ⟨agrees.inside, agrees.above⟩
  upwards := by
    have up := h.lt_parent (Arranged.mem_parts.mp part).1
    rw [h.child_ancestors (Arranged.mem_parts.mp part).1]
    refine List.pairwise_cons.mpr ⟨List.forall_mem_cons.mpr ⟨up, fun a above => ?_⟩, agrees.upwards⟩
    exact Nat.lt_trans up ((List.pairwise_cons.mp agrees.upwards).1 a above)
  same := same_child h unlisted agrees mem part holds
  quiet_own := by
    rw [h.child_ancestors (Arranged.mem_parts.mp part).1]
    have bounds := bounds_part h part holds
    intro a above b own
    rcases List.mem_cons.mp above with rfl | above
    · exact quiet_own_child h part holds own
    · rcases agrees.quiet_own a above b own with low | high
      · exact .inl (Nat.le_trans low bounds.1)
      · exact .inr (Nat.le_trans bounds.2.2 high)
  quiet_block := by
    rw [h.child_ancestors (Arranged.mem_parts.mp part).1]
    intro a above β s b owns child bound
    exact quiet_block_child h agrees part holds above owns child bound

end Agrees

section Walk

variable {t : Tree} {id : NodeId} {env : Environment}

theorem agrees_root (h : t.Arranged) : t.Agrees t.root [] where
  inside := by
    refine Nat.lt_of_not_le fun outside => ?_
    have kind := h.root_kind
    rw [Tree.kind, Tree.node, Array.getD_eq_getD_getElem?, Array.getElem?_eq_none outside] at kind
    exact absurd kind (by decide)
  above := by
    rw [h.root_ancestors]
    exact fun a mem => absurd mem List.not_mem_nil
  upwards := by
    rw [h.root_ancestors]
    exact List.pairwise_singleton _ _
  same := by
    rw [h.root_ancestors]
    exact fun _ => rfl
  quiet_own := by
    rw [h.root_ancestors]
    exact fun a mem => absurd mem List.not_mem_nil
  quiet_block := by
    rw [h.root_ancestors]
    exact fun a mem => absurd mem List.not_mem_nil

/-- Wherever the walk meets words, its environment is what is seen. -/
theorem agrees_of_meets (h : t.Arranged) (unlisted : t.SelfUnlisted) (meets : t.Meets id env)
    (holds : id = t.root ∨ t.Holds id) : t.Agrees id env := by
  induction meets with
  | root => exact agrees_root h
  | @child p c env env' meets mem ih =>
    have child := child_of_mem_below mem
    have holds := holds.resolve_left (h.child_ne_root child)
    have part := Arranged.mem_parts.mpr ⟨child, holds.1⟩
    have above : p = t.root ∨ t.Holds p := by
      rcases h.exists_parent (Arranged.parent_lt_size child) with root | ⟨q, -, up⟩
      · exact .inl root
      · exact .inr (h.holds_of_children up child)
    exact (ih above).child h unlisted mem part holds

/-- The walk meets every node. -/
theorem exists_meets (h : t.Arranged) (inside : id < t.size) : ∃ env, t.Meets id env := by
  refine h.forall_of_root (motive := fun id => ∃ env, t.Meets id env) ⟨[], .root⟩
    (fun {p c} child met => ?_) inside
  obtain ⟨env, meets⟩ := met
  rw [← map_fst_below t env p] at child
  obtain ⟨⟨c, env'⟩, mem, rfl⟩ := List.mem_map.mp child
  exact ⟨env', meets.child mem⟩

/-- The walk meets a node with one environment only. -/
theorem meets_unique (h : t.Arranged) {env' : Environment} (meets : t.Meets id env)
    (meets' : t.Meets id env') : env = env' := by
  induction meets generalizing env' with
  | root =>
    generalize root : t.root = id at meets'
    cases meets' with
    | root => rfl
    | child _ mem => exact absurd root.symm (h.child_ne_root (child_of_mem_below mem))
  | @child p c env env₁ meets mem ih =>
    have child := child_of_mem_below mem
    generalize same : c = id at meets'
    cases meets' with
    | root => exact absurd same (h.child_ne_root child)
    | @child p' _ env₂ _ meets' mem' =>
      subst same
      have parents := (h.child_parent child).symm.trans (h.child_parent (child_of_mem_below mem'))
      obtain rfl := Option.some.inj parents
      obtain rfl := ih meets'
      have nodup := h.walk_nodup.sublist (h.walk_children (Arranged.parent_lt_size child))
      exact below_unique (List.nodup_cons.mp nodup).2 mem mem'

end Walk

end Tree

/-- A lookup at a name of a text without faults finds what the scoping rules say: the walk of the
program meets the name with one environment, and a lookup of any name finds what the environment has
for it.  Names become visible at offsets, so every place of the text has to have its own one. -/
theorem Scopes.lookup_eq_environment (text : String) (small : text.utf8ByteSize < offsetCount)
    (clean : (Parsed.ofText text).errors = [])
    (unlisted : (Parsed.ofText text).tree.SelfUnlisted) (id : NodeId)
    (isName : (Parsed.ofText text).tree.kind id = .nameExpr) :
    ∃ env, (Parsed.ofText text).tree.Meets id env
      ∧ (∀ env', (Parsed.ofText text).tree.Meets id env' → env' = env)
      ∧ ∀ name, ((Scopes.ofTree (Parsed.ofText text).tree).lookup (Parsed.ofText text).tree id
          name).map Binding.declared = env.lookup? name := by
  have h := Parsed.arranged small clean
  generalize (Parsed.ofText text).tree = t at h unlisted isName ⊢
  have inside : id < t.size := by
    refine Nat.lt_of_not_le fun outside => ?_
    rw [Tree.kind, Tree.node, Array.getD_eq_getD_getElem?, Array.getElem?_eq_none outside] at isName
    exact absurd isName (by decide)
  have notRoot : id ≠ t.root := by
    rintro rfl
    rw [h.root_kind] at isName
    exact absurd isName (by decide)
  obtain ⟨env, meets⟩ := Tree.exists_meets h inside
  obtain ⟨p, -, child⟩ := (h.exists_parent inside).resolve_left notRoot
  have holds := h.holds_of_child child (by rw [isName]; decide) (by rw [isName]; decide)
  have agrees := Tree.agrees_of_meets h unlisted meets (.inr holds)
  refine ⟨env, meets, fun env' meets' => Tree.meets_unique h meets' meets, fun name => ?_⟩
  rw [h.lookup_eq agrees.above, agrees.same]

/-- In a colon method `self` is met with the unwritten parameter in force. -/
theorem Scopes.lookup_eq_environment_self :
    let t := (Parsed.ofText "local t; function t:m(a) return self end").tree
    ∃ env, t.Meets 9 env ∧ (∀ env', t.Meets 9 env' → env' = env)
      ∧ ∀ name, ((Scopes.ofTree t).lookup t 9 name).map Binding.declared = env.lookup? name :=
  Scopes.lookup_eq_environment "local t; function t:m(a) return self end" (by decide +kernel)
    (by decide +kernel) (by decide +kernel) 9 (by decide +kernel)

end LuaTyping
