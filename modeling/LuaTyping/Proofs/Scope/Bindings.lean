import LuaTyping.Proofs.Syntax.Arranged
import LuaTyping.Proofs.Scope.Environment

/-!
# The bindings of an owner

The table of bindings is filled in the order of a walk over the tree.  In an arranged tree every
block has one owner, and the owner has the bindings that it opens itself and behind them those of
the statements of its block, in the order in which they become visible.

* `Scopes.latest_eq`: of bindings in this order, the latest is the last one that is visible.
* `Scopes.of_latest`, `Scopes.not_of_latest`: a visible one is found, whatever the order.
* `Tree.Owns`: the owner of the scope of a block.
* `Tree.Arranged.bindings_eq`: the bindings of an owner.
* `Tree.pairwise_ownBindings`, `Tree.pairwise_binds`: what one node binds is in this order.
-/

namespace LuaTyping

/-- What a binding declares, without the place from which it is visible. -/
def Binding.declared (b : Binding) : Declared := ⟨b.name, b.node, b.kind⟩

/-! ## The latest binding -/

namespace Scopes

theorem foldl_latest {bs : List Binding} {name : String} {offset : Nat} (best : Option Binding)
    (sorted : bs.Pairwise fun b c => b.visibleFrom ≤ c.visibleFrom)
    (before : ∀ x ∈ best, ∀ b ∈ bs, x.visibleFrom ≤ b.visibleFrom) :
    bs.foldl (fun best b =>
      if b.name == name && decide (b.visibleFrom ≤ offset)
          && best.all (fun x => decide (x.visibleFrom ≤ b.visibleFrom)) then some b
      else best) best
      = ((bs.filter fun b => decide (b.visibleFrom ≤ offset)).reverse.find?
          fun b => b.name == name).or best := by
  induction bs generalizing best with
  | nil => rfl
  | cons b bs ih =>
    obtain ⟨first, sorted⟩ := List.pairwise_cons.mp sorted
    have later : best.all (fun x => decide (x.visibleFrom ≤ b.visibleFrom)) = true := by
      cases best with
      | none => rfl
      | some x => exact decide_eq_true (before x rfl b List.mem_cons_self)
    rw [List.foldl_cons, later, Bool.and_true, List.filter_cons]
    by_cases visible : b.visibleFrom ≤ offset
    · by_cases named : b.name == name
      · rw [if_pos (by simp [visible, named]), if_pos (by simp [visible]), List.reverse_cons,
          List.find?_append, ih _ sorted (fun x mem c inside => ?_)]
        · simp [named]
        · obtain rfl := Option.some.inj mem
          exact first c inside
      · rw [if_neg (by simp [named]), if_pos (by simp [visible]), List.reverse_cons,
          List.find?_append, ih best sorted fun x mem c inside =>
            before x mem c (List.mem_cons_of_mem _ inside)]
        simp [named]
    · rw [if_neg (by simp [visible]), if_neg (by simp [visible])]
      exact ih best sorted fun x mem c inside => before x mem c (List.mem_cons_of_mem _ inside)

/-- Of bindings that become visible in their order, the latest is the last visible one. -/
theorem latest_eq (bs : Array Binding)
    (sorted : bs.toList.Pairwise fun b c => b.visibleFrom ≤ c.visibleFrom) (name : String)
    (offset : Nat) :
    latest bs name offset
      = (bs.toList.filter fun b => decide (b.visibleFrom ≤ offset)).reverse.find?
          fun b => b.name == name := by
  rw [latest, ← Array.foldl_toList, foldl_latest none sorted (fun x mem => absurd mem (by simp)),
    Option.or_none]

/-- In whatever order bindings become visible: what is found is the best so far or a visible binding
of the name, and nothing is found only if there is neither. -/
theorem foldl_latest_cases (bs : List Binding) (name : String) (offset : Nat)
    (best : Option Binding) :
    match bs.foldl (fun best b =>
      if b.name == name && decide (b.visibleFrom ≤ offset)
          && best.all (fun x => decide (x.visibleFrom ≤ b.visibleFrom)) then some b
      else best) best with
    | some b => best = some b ∨ b ∈ bs ∧ b.visibleFrom ≤ offset ∧ b.name = name
    | none => best = none ∧ ∀ b ∈ bs, b.visibleFrom ≤ offset → b.name ≠ name := by
  induction bs generalizing best with
  | nil => cases best <;> simp
  | cons c bs ih =>
    rw [List.foldl_cons]
    split
    · next b found =>
      have cases := ih (if c.name == name && decide (c.visibleFrom ≤ offset)
        && best.all (fun x => decide (x.visibleFrom ≤ c.visibleFrom)) then some c else best)
      rw [found] at cases
      rcases cases with here | ⟨mem, fits⟩
      · split at here
        · next fits =>
          obtain rfl := Option.some.inj here
          simp only [Bool.and_eq_true, beq_iff_eq, decide_eq_true_eq] at fits
          exact .inr ⟨List.mem_cons_self, fits.1.2, fits.1.1⟩
        · exact .inl here
      · exact .inr ⟨List.mem_cons_of_mem _ mem, fits⟩
    · next missing =>
      have cases := ih (if c.name == name && decide (c.visibleFrom ≤ offset)
        && best.all (fun x => decide (x.visibleFrom ≤ c.visibleFrom)) then some c else best)
      rw [missing] at cases
      obtain ⟨kept, others⟩ := cases
      split at kept
      · exact absurd kept nofun
      · next unfit =>
        subst kept
        refine ⟨rfl, List.forall_mem_cons.mpr ⟨fun visible named => unfit ?_, others⟩⟩
        simp [visible, named]

/-- What is found is a visible binding of the name. -/
theorem of_latest {bs : Array Binding} {name : String} {offset : Nat} {b : Binding}
    (found : latest bs name offset = some b) :
    b ∈ bs.toList ∧ b.visibleFrom ≤ offset ∧ b.name = name := by
  have cases := foldl_latest_cases bs.toList name offset none
  rw [latest, ← Array.foldl_toList] at found
  rw [found] at cases
  exact cases.resolve_left nofun

/-- Nothing is found only where no binding of the name is visible. -/
theorem not_of_latest {bs : Array Binding} {name : String} {offset : Nat}
    (missing : latest bs name offset = none) :
    ∀ b ∈ bs.toList, b.visibleFrom ≤ offset → b.name ≠ name := by
  have cases := foldl_latest_cases bs.toList name offset none
  rw [latest, ← Array.foldl_toList] at missing
  rw [missing] at cases
  exact cases.2

end Scopes

/-! ## What a node contributes -/

namespace Tree

theorem kind_of_listedNames {t : Tree} {stat n : NodeId} (mem : n ∈ t.listedNames stat) :
    t.kind n = .nameDef := by
  unfold listedNames at mem
  split at mem
  · exact eq_of_beq (List.mem_filter.mp mem).2
  · exact absurd mem List.not_mem_nil

theorem kind_of_params {t : Tree} {body n : NodeId} (mem : n ∈ t.params body) :
    t.kind n = .paramDef := by
  unfold params at mem
  split at mem
  · exact eq_of_beq (List.mem_filter.mp mem).2
  · exact absurd mem List.not_mem_nil

/-- The bindings of a statement for the statements behind it. -/
def binds (t : Tree) (stat : NodeId) : List Binding :=
  match t.kind stat with
  | .localStat => (t.listedNames stat).map fun n => t.bindingOf n n .variable (t.stop stat)
  | .localFuncStat =>
    (t.ownName? stat).toList.map fun n => t.bindingOf n stat .function (t.start n)
  | _ => []

/-- Where the bindings that a function or a loop opens become visible. -/
def openAt (t : Tree) (id : NodeId) : Nat :=
  if t.kind id = .funcBody then t.start id else t.bodyStart id

/-- The binding of the unwritten parameter of a colon method. -/
def selfBinding (t : Tree) (body : NodeId) : List Binding :=
  match (t.parent body).bind (t.cast? .funcStat) with
  | some stat => if t.isMethod stat then [⟨"self", stat, .self, t.start body⟩] else []
  | none => []

/-- The bindings that a function or a loop opens itself. -/
def ownBindings (t : Tree) (id : NodeId) : List Binding :=
  match t.kind id with
  | .funcBody =>
    (t.params id).map (fun p => t.bindingOf p p .param (t.start id)) ++ t.selfBinding id
  | .numericForStat =>
    (t.ownName? id).toList.map fun n => t.bindingOf n n .variable (t.bodyStart id)
  | .genericForStat =>
    (t.listedNames id).map fun n => t.bindingOf n n .variable (t.bodyStart id)
  | _ => []

/-- The bindings of a node in the scope of another. -/
def contributes (t : Tree) (owner id : NodeId) : List Binding :=
  ((t.bindingsAt id).filter fun b => b.1 == owner).map Prod.snd

/-- The bindings in the scope of a node. -/
def bindings (t : Tree) (owner : NodeId) : List Binding := (t.allBindings.getD owner #[]).toList

variable (t : Tree)

theorem declared_binds (stat : NodeId) :
    (t.binds stat).map Binding.declared = t.declares stat := by
  unfold binds declares
  cases t.kind stat <;> simp [Function.comp_def, Binding.declared, bindingOf, declared]

theorem binds_eq_nil {stat : NodeId} (notLocal : t.kind stat ≠ .localStat)
    (notFunction : t.kind stat ≠ .localFuncStat) : t.binds stat = [] := by
  unfold binds
  split
  · exact absurd ‹_› notLocal
  · exact absurd ‹_› notFunction
  · rfl

theorem visibleFrom_ownBindings {id : NodeId} {b : Binding} (mem : b ∈ t.ownBindings id) :
    b.visibleFrom = t.openAt id := by
  unfold ownBindings at mem
  unfold openAt
  split at mem
  · rename_i kind
    rw [if_pos kind]
    rcases List.mem_append.mp mem with mem | mem
    · obtain ⟨p, -, rfl⟩ := List.mem_map.mp mem
      rfl
    · unfold selfBinding at mem
      split at mem
      · split at mem
        · rw [List.mem_singleton.mp mem]
        · exact absurd mem List.not_mem_nil
      · exact absurd mem List.not_mem_nil
  · rename_i kind
    rw [if_neg (by rw [kind]; decide)]
    obtain ⟨n, -, rfl⟩ := List.mem_map.mp mem
    rfl
  · rename_i kind
    rw [if_neg (by rw [kind]; decide)]
    obtain ⟨n, -, rfl⟩ := List.mem_map.mp mem
    rfl
  · exact absurd mem List.not_mem_nil

/-- All that a node opens becomes visible at once. -/
theorem pairwise_ownBindings (id : NodeId) :
    (t.ownBindings id).Pairwise fun x y => x.visibleFrom ≤ y.visibleFrom := by
  refine List.pairwise_of_forall_mem_list fun x mem y mem' => ?_
  rw [t.visibleFrom_ownBindings mem, t.visibleFrom_ownBindings mem']

/-- All that a statement binds becomes visible at once. -/
theorem pairwise_binds (s : NodeId) :
    (t.binds s).Pairwise fun x y => x.visibleFrom ≤ y.visibleFrom := by
  unfold binds
  split
  · exact List.pairwise_map.mpr (List.pairwise_of_forall fun _ _ => Nat.le_refl _)
  · cases t.ownName? s with
    | none => exact List.Pairwise.nil
    | some n => exact List.pairwise_singleton _ _
  · exact List.Pairwise.nil

/-- A node adds to the scope around it, and to its own. -/
theorem bindingsAt_eq (id : NodeId) :
    t.bindingsAt id
      = (match t.scopeOwner? id with
          | some owner => (t.binds id).map fun b => (owner, b)
          | none => [])
        ++ (t.ownBindings id).map fun b => (id, b) := by
  unfold bindingsAt binds ownBindings
  cases t.kind id with
  | localStat => cases t.scopeOwner? id <;> simp [Function.comp_def]
  | localFuncStat => cases t.ownName? id <;> cases t.scopeOwner? id <;> simp
  | funcBody =>
    unfold selfBinding
    have none : (match t.scopeOwner? id with
        | some owner => ([] : List Binding).map fun b => (owner, b)
        | none => []) = [] := by
      cases t.scopeOwner? id <;> rfl
    rw [none]
    cases (t.parent id).bind (t.cast? .funcStat) with
    | none => simp [Function.comp_def]
    | some stat => by_cases method : t.isMethod stat = true <;> simp [method, Function.comp_def]
  | numericForStat => cases t.ownName? id <;> cases t.scopeOwner? id <;> simp
  | genericForStat => cases t.scopeOwner? id <;> simp [Function.comp_def]
  | _ => cases t.scopeOwner? id <;> rfl

theorem contributes_eq (owner id : NodeId) :
    t.contributes owner id
      = (if t.scopeOwner? id = some owner then t.binds id else [])
        ++ if id = owner then t.ownBindings id else [] := by
  rw [contributes, bindingsAt_eq, List.filter_append, List.map_append]
  congr 1
  · cases t.scopeOwner? id with
    | none => rfl
    | some o =>
      by_cases same : o = owner
      · simp [same, List.filter_map, Function.comp_def]
      · simp [same, List.filter_map, Function.comp_def]
  · by_cases same : id = owner
    · simp [same, List.filter_map, Function.comp_def]
    · simp [same, List.filter_map, Function.comp_def]

/-- The bindings of a node in the order of a walk. -/
theorem bindings_eq_flatMap {owner : NodeId} (inside : owner < t.size) :
    t.bindings owner = t.walk.flatMap (t.contributes owner) := by
  have inner (bs : List (NodeId × Binding)) (table : Array (Array Binding))
      (size : owner < table.size) :
      owner < (bs.foldl (fun table b => table.modify b.1 (·.push b.2)) table).size ∧
      ((bs.foldl (fun table b => table.modify b.1 (·.push b.2)) table).getD owner #[]).toList
        = (table.getD owner #[]).toList
          ++ ((bs.filter fun b => b.1 == owner).map Prod.snd) := by
    induction bs generalizing table with
    | nil => exact ⟨size, by simp⟩
    | cons b bs ih =>
      obtain ⟨size', eq⟩ := ih (table.modify b.1 (·.push b.2)) (by rwa [Array.size_modify])
      refine ⟨size', ?_⟩
      rw [List.foldl_cons, eq, List.filter_cons]
      by_cases same : b.1 = owner
      · simp [same, size, Array.getElem_modify]
      · simp [same, Array.getD_eq_getD_getElem?, Array.getElem?_modify]
  have outer (ids : List NodeId) (table : Array (Array Binding)) (size : owner < table.size) :
      ((ids.foldl (fun table id =>
        (t.bindingsAt id).foldl (fun table b => table.modify b.1 (·.push b.2)) table)
        table).getD owner #[]).toList
        = (table.getD owner #[]).toList ++ ids.flatMap (t.contributes owner) := by
    induction ids generalizing table with
    | nil => simp
    | cons id ids ih =>
      obtain ⟨size', eq⟩ := inner (t.bindingsAt id) table size
      rw [List.foldl_cons, ih _ size', eq, List.flatMap_cons, List.append_assoc, contributes]
  rw [bindings, allBindings, outer _ _ (by simpa using inside)]
  simp [inside]

/-! ## Owners -/

/-- The node owns the scope of a block: it is the block itself or the node around it. -/
def Owns (t : Tree) (owner block : NodeId) : Prop :=
  t.kind block = .block ∧
    ((owner = block ∧ t.ownsScope block = true)
      ∨ (block ∈ t.children owner ∧ t.ownsScope block = false ∧ t.ownsScope owner = true))

namespace Arranged

variable {t : Tree} {p c a β s : NodeId}

theorem parent_lt_size (child : c ∈ t.children p) : p < t.size := by
  refine Nat.lt_of_not_le fun outside => ?_
  rw [children_of_ge outside] at child
  exact absurd child List.not_mem_nil

theorem child_lt_size (h : t.Arranged) (child : c ∈ t.children p) : c < t.size :=
  Nat.lt_trans (h.lt_parent child) (parent_lt_size child)

theorem child_ne_root (h : t.Arranged) (child : c ∈ t.children p) : c ≠ t.root := by
  rintro rfl
  have parent := h.child_parent child
  rw [h.root_parent] at parent
  exact absurd parent (by simp)

/-- What holds of the root, and of a node whenever it holds of its parent, holds of every node. -/
theorem forall_of_root (h : t.Arranged) {motive : NodeId → Prop} (root : motive t.root)
    (child : ∀ {p c}, c ∈ t.children p → motive p → motive c) {id : NodeId} (inside : id < t.size) :
    motive id := by
  -- parents have larger numbers, so the way up ends
  induction rest : t.size - id using Nat.strongRecOn generalizing id with
  | _ n ih =>
    rcases h.exists_parent inside with rfl | ⟨p, inside', below⟩
    · exact root
    · have lt : t.size - p < n := by
        rw [← rest]
        exact Nat.sub_lt_sub_left inside (h.lt_parent below)
      exact child below (ih _ lt inside' rfl)

theorem parent_ne_comment (h : t.Arranged) (child : c ∈ t.children p) : t.kind p ≠ .comment := by
  intro comment
  rw [h.comment comment] at child
  exact absurd child List.not_mem_nil

theorem mem_parts {t : Tree} {p c : NodeId} :
    c ∈ t.parts p ↔ c ∈ t.children p ∧ t.kind c ≠ .comment := by
  rw [parts, List.mem_filter, bne_iff_ne]

/-- The kinds below the parent of a node. -/
theorem admits_parent (h : t.Arranged) (child : c ∈ t.children p) :
    (t.kind p).Admits ((t.parts p).map t.kind) :=
  h.admits (parent_lt_size child) (h.parent_ne_comment child)

/-- Local names are introduced by statements of a block. -/
theorem parent_of_local (h : t.Arranged) (child : c ∈ t.children p)
    (isLocal : t.kind c = .localStat ∨ t.kind c = .localFuncStat) : t.kind p = .block := by
  have stat : (t.kind c).isStatement = true := by
    rcases isLocal with kind | kind <;> rw [kind] <;> rfl
  have notComment : t.kind c ≠ .comment := by
    rcases isLocal with kind | kind <;> rw [kind] <;> decide
  have mem := List.mem_map_of_mem (f := t.kind) (mem_parts.mpr ⟨child, notComment⟩)
  have admits := h.admits_parent child
  generalize (t.parts p).map t.kind = ks at admits mem
  generalize t.kind p = kind at admits
  cases admits with
  | block => rfl
  | flat _ inner =>
    rw [(inner _ mem).1] at stat
    exact absurd stat (by decide)
  | body _ inner =>
    rcases List.mem_append.mp mem with mem | mem
    · rw [(inner _ (List.mem_append_left _ mem)).1] at stat
      exact absurd stat (by decide)
    · rcases List.mem_cons.mp mem with block | mem
      · rw [block] at stat
        exact absurd stat (by decide)
      · rw [(inner _ (List.mem_append_right _ mem)).1] at stat
        exact absurd stat (by decide)
  | localFunction =>
    rcases isLocal with kind | kind <;> rw [kind] at mem <;> exact absurd mem (by decide)

/-- A node with a block in it, part by part. -/
theorem exists_body (h : t.Arranged) (inside : p < t.size)
    (holds : (t.kind p).holdsBlock = true) :
    ∃ ks β ks', t.parts p = ks ++ β :: ks' ∧ t.kind β = .block
      ∧ (∀ c ∈ ks ++ ks', (t.kind c).isStatement = false ∧ t.kind c ≠ .block)
      ∧ (t.kind p = .repeatStat → ks = []) ∧ ((t.kind p).goesOn = false → ks' = []) := by
  have notComment : t.kind p ≠ .comment := by
    intro comment
    rw [comment] at holds
    exact absurd holds (by decide)
  have admits := h.admits inside notComment
  generalize kinds : (t.parts p).map t.kind = ks at admits
  generalize t.kind p = kind at admits holds
  cases admits with
  | block => exact absurd holds (by decide)
  | flat flat =>
    rw [NodeKind.isFlat, holds] at flat
    exact absurd flat Bool.false_ne_true
  | @body _ ks ks' _ inner front behind =>
    obtain ⟨cs, rest, eq, rfl, tail⟩ := List.map_eq_append_iff.mp kinds
    obtain ⟨β, cs', rfl, block, rfl⟩ := List.map_eq_cons_iff.mp tail
    refine ⟨cs, β, cs', eq, block, fun c mem => ?_, fun isRepeat => ?_, fun last => ?_⟩
    · rw [← List.map_append] at inner
      exact inner _ (List.mem_map_of_mem mem)
    · exact List.map_eq_nil_iff.mp (front isRepeat)
    · exact List.map_eq_nil_iff.mp (behind last)
  | localFunction => exact absurd holds (by decide)

/-- A block stands in a node that holds blocks. -/
theorem holdsBlock_parent (h : t.Arranged) (child : β ∈ t.children p) (block : t.kind β = .block) :
    (t.kind p).holdsBlock = true := by
  have mem := List.mem_map_of_mem (f := t.kind)
    (mem_parts.mpr ⟨child, by rw [block]; decide⟩)
  rw [block] at mem
  have admits := h.admits_parent child
  generalize (t.parts p).map t.kind = ks at admits mem
  generalize t.kind p = kind at admits
  cases admits with
  | block stats => exact absurd (stats _ mem) (by decide)
  | flat _ inner => exact absurd rfl (inner _ mem).2
  | body holds => exact holds
  | localFunction => exact absurd mem (by decide)

/-- The block of a node is the only one. -/
theorem block_unique (h : t.Arranged) {β' : NodeId} (child : β ∈ t.children p)
    (block : t.kind β = .block) (child' : β' ∈ t.children p) (block' : t.kind β' = .block) :
    β = β' := by
  have part := mem_parts.mpr ⟨child, by rw [block]; decide⟩
  have part' := mem_parts.mpr ⟨child', by rw [block']; decide⟩
  obtain ⟨ks, γ, ks', eq, -, inner, -, -⟩ :=
    h.exists_body (parent_lt_size child) (h.holdsBlock_parent child block)
  have only {δ : NodeId} (part : δ ∈ t.parts p) (block : t.kind δ = .block) : δ = γ := by
    rw [eq] at part
    rcases List.mem_append.mp part with mem | mem
    · exact absurd block (inner _ (List.mem_append_left _ mem)).2
    · rcases List.mem_cons.mp mem with same | mem
      · exact same
      · exact absurd block (inner _ (List.mem_append_right _ mem)).2
  rw [only part block, only part' block']

theorem block?_eq (h : t.Arranged) (child : β ∈ t.children p) (block : t.kind β = .block) :
    t.block? p = some β := by
  have found : (t.block? p).isSome = true :=
    List.find?_isSome.mpr ⟨β, child, by rw [block]; rfl⟩
  obtain ⟨γ, eq⟩ := Option.isSome_iff_exists.mp found
  have isBlock : t.kind γ = .block := by simpa using List.find?_some eq
  rw [eq, h.block_unique child block (List.mem_of_find?_eq_some eq) isBlock]

theorem ownsScope_block (h : t.Arranged) (child : β ∈ t.children p) (block : t.kind β = .block) :
    t.ownsScope β = ownsBlock (t.kind p) := by
  rw [ownsScope, block, h.child_parent child]

/-- A node that holds a block owns a scope if its block does not. -/
theorem ownsScope_of_holdsBlock (holds : (t.kind p).holdsBlock = true)
    (notBlock : ownsBlock (t.kind p) = false) : t.ownsScope p = true := by
  unfold ownsScope
  cases kind : t.kind p <;> rw [kind] at holds notBlock <;>
    first | rfl | exact absurd holds (by decide) | exact absurd notBlock (by decide)

/-- Every block has an owner. -/
theorem exists_owner (h : t.Arranged) (child : β ∈ t.children p) (block : t.kind β = .block) :
    ∃ a, t.Owns a β := by
  have owns := h.ownsScope_block child block
  cases kind : ownsBlock (t.kind p) with
  | true => exact ⟨β, block, .inl ⟨rfl, by rw [owns, kind]⟩⟩
  | false =>
    refine ⟨p, block, .inr ⟨child, by rw [owns, kind], ?_⟩⟩
    exact ownsScope_of_holdsBlock (h.holdsBlock_parent child block) kind

theorem holdsBlock_of_ownsScope (owns : t.ownsScope a = true) (notBlock : t.kind a ≠ .block) :
    (t.kind a).holdsBlock = true ∧ ownsBlock (t.kind a) = false := by
  unfold ownsScope at owns
  cases kind : t.kind a <;> rw [kind] at owns notBlock <;>
    first | exact ⟨rfl, rfl⟩ | exact absurd rfl notBlock | exact absurd owns Bool.false_ne_true

/-- Every owner has a block. -/
theorem exists_owned (h : t.Arranged) (inside : a < t.size) (owns : t.ownsScope a = true) :
    ∃ β, t.Owns a β := by
  by_cases block : t.kind a = .block
  · exact ⟨a, block, .inl ⟨rfl, owns⟩⟩
  · obtain ⟨holds, notOwn⟩ := holdsBlock_of_ownsScope owns block
    obtain ⟨ks, β, ks', eq, isBlock, -, -, -⟩ := h.exists_body inside holds
    have part : β ∈ t.parts a := by
      rw [eq]
      exact List.mem_append_right _ List.mem_cons_self
    have child := (mem_parts.mp part).1
    exact ⟨β, isBlock, .inr ⟨child, by rw [h.ownsScope_block child isBlock, notOwn], owns⟩⟩

theorem owner_ne_block (h : t.Arranged) (child : β ∈ t.children a) (block : t.kind β = .block) :
    t.kind a ≠ .block := by
  intro isBlock
  have holds := h.holdsBlock_parent child block
  rw [isBlock] at holds
  exact absurd holds (by decide)

theorem owned_unique (h : t.Arranged) {β' : NodeId} (owns : t.Owns a β) (owns' : t.Owns a β') :
    β = β' := by
  obtain ⟨block, ⟨rfl, -⟩ | ⟨child, -, -⟩⟩ := owns <;>
    obtain ⟨block', ⟨rfl, -⟩ | ⟨child', -, -⟩⟩ := owns'
  · rfl
  · exact absurd block (h.owner_ne_block child' block')
  · exact absurd block' (h.owner_ne_block child block)
  · exact h.block_unique child block child' block'

/-- The owner of the scope that a statement of a block stands in. -/
theorem scopeOwner?_eq (h : t.Arranged) (owns : t.Owns a β) (child : s ∈ t.children β) :
    t.scopeOwner? s = some a := by
  rw [scopeOwner?, h.child_ancestors child]
  obtain ⟨-, ⟨rfl, own⟩ | ⟨inside, notOwn, own⟩⟩ := owns
  · rw [List.find?_cons_of_pos own]
  · rw [List.find?_cons_of_neg (by simp [notOwn]), h.child_ancestors inside,
      List.find?_cons_of_pos own]

theorem ownsScope_owner (owns : t.Owns a β) : t.ownsScope a = true := by
  obtain ⟨-, ⟨rfl, own⟩ | ⟨-, -, own⟩⟩ := owns <;> exact own

theorem block_le_owner (h : t.Arranged) (owns : t.Owns a β) : β ≤ a := by
  obtain ⟨-, ⟨rfl, -⟩ | ⟨child, -, -⟩⟩ := owns
  · exact Nat.le_refl _
  · exact Nat.le_of_lt (h.lt_parent child)

/-! ## The bindings of an owner -/

/-- Who contributes to an owner is the owner or a statement of its block. -/
theorem mem_of_contributes (h : t.Arranged) (owns : t.Owns a β) (inside : s < t.size)
    (some_ : t.contributes a s ≠ []) : s ∈ a :: t.children β := by
  rw [contributes_eq] at some_
  by_cases own : s = a
  · rw [own]
    exact List.mem_cons_self
  rw [if_neg own, List.append_nil] at some_
  by_cases owner : t.scopeOwner? s = some a
  · rw [if_pos owner] at some_
    have isLocal : t.kind s = .localStat ∨ t.kind s = .localFuncStat := by
      by_contra other
      rw [not_or] at other
      exact some_ (t.binds_eq_nil other.1 other.2)
    rcases h.exists_parent inside with rfl | ⟨γ, -, child⟩
    · rw [h.root_kind] at isLocal
      exact absurd isLocal (by decide)
    · have block := h.parent_of_local child isLocal
      have notRoot : γ ≠ t.root := by
        rintro rfl
        rw [h.root_kind] at block
        exact absurd block (by decide)
      obtain ⟨p, -, around⟩ := (h.exists_parent (parent_lt_size child)).resolve_left notRoot
      obtain ⟨a', owns'⟩ := h.exists_owner around block
      rw [h.scopeOwner?_eq owns' child] at owner
      obtain rfl := Option.some.inj owner
      rw [h.owned_unique owns owns']
      exact List.mem_cons_of_mem _ child
  · rw [if_neg owner] at some_
    exact absurd rfl some_

/-- What a list contributes, a longer one contributes too, as far as the rest has nothing. -/
theorem flatMap_eq_of_sublist {α γ : Type} {f : α → List γ} {xs ys : List α}
    (sub : xs.Sublist ys) (nodup : ys.Nodup) (only : ∀ y ∈ ys, f y ≠ [] → y ∈ xs) :
    ys.flatMap f = xs.flatMap f := by
  induction sub with
  | slnil => rfl
  | @cons xs ys y sub ih =>
    obtain ⟨fresh, nodup⟩ := List.nodup_cons.mp nodup
    have none : f y = [] := by
      by_contra some_
      exact fresh (sub.subset (only y List.mem_cons_self some_))
    rw [List.flatMap_cons, none, List.nil_append]
    exact ih nodup fun z mem => only z (List.mem_cons_of_mem _ mem)
  | @cons_cons xs ys y sub ih =>
    obtain ⟨fresh, nodup⟩ := List.nodup_cons.mp nodup
    rw [List.flatMap_cons, List.flatMap_cons, ih nodup fun z mem some_ => ?_]
    rcases List.mem_cons.mp (only z (List.mem_cons_of_mem _ mem) some_) with rfl | mem'
    · exact absurd mem fresh
    · exact mem'

/-- The bindings of an owner: its own, and behind them those of the statements of its block. -/
theorem bindings_eq (h : t.Arranged) (owns : t.Owns a β) (inside : a < t.size) :
    t.bindings a = t.ownBindings a ++ (t.children β).flatMap t.binds := by
  have sub : (a :: t.children β).Sublist t.walk := by
    obtain ⟨-, ⟨rfl, -⟩ | ⟨child, -, -⟩⟩ := owns
    · exact h.walk_children inside
    · exact h.walk_grandchildren child
  rw [bindings_eq_flatMap t inside, flatMap_eq_of_sublist sub h.walk_nodup fun s mem =>
    h.mem_of_contributes owns (h.mem_walk.mp mem), List.flatMap_cons]
  congr 1
  · have notLocal : t.binds a = [] := by
      have own := ownsScope_owner owns
      unfold ownsScope at own
      refine t.binds_eq_nil ?_ ?_ <;> intro kind <;> rw [kind] at own <;>
        exact absurd own Bool.false_ne_true
    rw [contributes_eq, notLocal, if_pos rfl, ite_self, List.nil_append]
  · refine List.flatMap_congr fun s child => ?_
    have other : s ≠ a := by
      have lt := h.lt_parent child
      have le := h.block_le_owner owns
      rintro rfl
      exact absurd (Nat.lt_of_lt_of_le lt le) (Nat.lt_irrefl _)
    rw [contributes_eq, if_pos (h.scopeOwner?_eq owns child), if_neg other, List.append_nil]

/-- Who owns no scope has no bindings. -/
theorem bindings_eq_nil (inside : a < t.size) (notOwner : t.ownsScope a = false) :
    t.bindings a = [] := by
  rw [bindings_eq_flatMap t inside, List.flatMap_eq_nil_iff]
  intro s _
  rw [contributes_eq, List.append_eq_nil_iff]
  constructor
  · refine if_neg fun owner => ?_
    have own := List.find?_some owner
    rw [notOwner] at own
    exact absurd own (by decide)
  · by_cases same : s = a
    · rw [if_pos same, same]
      unfold ownsScope at notOwner
      unfold ownBindings
      split <;> rename_i kind
      · rw [kind] at notOwner
        exact absurd notOwner.symm Bool.false_ne_true
      · rw [kind] at notOwner
        exact absurd notOwner.symm Bool.false_ne_true
      · rw [kind] at notOwner
        exact absurd notOwner.symm Bool.false_ne_true
      · rfl
    · exact if_neg same

end Arranged

end Tree

end LuaTyping
