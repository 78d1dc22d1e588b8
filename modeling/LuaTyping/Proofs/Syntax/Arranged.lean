import LuaTyping.Proofs.Syntax.Formed
import LuaTyping.Proofs.Syntax.Realized
import LuaTyping.Proofs.Syntax.Sound.Statement

/-!
# The arrangement of a tree

What can be said of the tree of every text without faults, node by node: which kinds stand below
which, and that what holds words stands in its order inside its parent.

Comments stand in front of what they describe and have no place in this order, and an empty block
has no words.  A node *holds words* if it is neither.

* `NodeKind.Admits`: the kinds of the children of a node.
* `Tree.Arranged`: the arrangement of a tree.
* `Parsed.arranged`: the tree of a text without faults is arranged.
-/

namespace LuaTyping

/-- The kinds of the children of a node of a kind, comments apart. -/
inductive NodeKind.Admits : NodeKind → List NodeKind → Prop
  | block {ks : List NodeKind} : (∀ k ∈ ks, k.isStatement = true) → Admits .block ks
  | flat {kind : NodeKind} {ks : List NodeKind} :
    kind.isFlat = true → (∀ k ∈ ks, k.isStatement = false ∧ k ≠ .block) → Admits kind ks
  | body {kind : NodeKind} {ks ks' : List NodeKind} :
    kind.holdsBlock = true → (∀ k ∈ ks ++ ks', k.isStatement = false ∧ k ≠ .block) →
    (kind = .repeatStat → ks = []) → (kind.goesOn = false → ks' = []) →
    Admits kind (ks ++ .block :: ks')
  | localFunction : Admits .localFuncStat [.nameDef, .funcBody]

/-! ## Phrases -/

namespace Phrase

/-- The kinds of the groups in a row. -/
def kinds (ps : List Phrase) : List NodeKind :=
  ps.filterMap fun p => match p with
    | word _ => none
    | group kind _ => some kind

theorem kinds_append (ps qs : List Phrase) : kinds (ps ++ qs) = kinds ps ++ kinds qs := by
  rw [kinds, List.filterMap_append, kinds, kinds]

@[simp] theorem kinds_word (w : Word) (ps : List Phrase) : kinds (word w :: ps) = kinds ps := rfl

@[simp] theorem kinds_group (kind : NodeKind) (parts ps : List Phrase) :
    kinds (group kind parts :: ps) = kind :: kinds ps := rfl

theorem mem_kinds {ps : List Phrase} {k : NodeKind} :
    k ∈ kinds ps ↔ ∃ parts, group k parts ∈ ps := by
  induction ps with
  | nil => simp [kinds]
  | cons p ps ih => cases p <;> simp [ih, exists_or]

theorem kinds_inner {ps : List Phrase} (inner : ∀ p ∈ ps, p.Inner) :
    ∀ k ∈ kinds ps, k.isStatement = false ∧ k ≠ .block := by
  intro k mem
  obtain ⟨parts, mem⟩ := mem_kinds.mp mem
  have plain := inner _ mem
  exact ⟨plain.1, plain.2.1⟩

theorem Fits.admits {kind : NodeKind} {parts : List Phrase} (h : Fits kind parts) :
    kind.Admits (kinds parts) := by
  cases h with
  | block stats =>
    refine .block fun k mem => ?_
    obtain ⟨ps, mem⟩ := mem_kinds.mp mem
    exact (stats _ mem).1
  | flat flat inner => exact .flat flat (kinds_inner inner)
  | @body _ p ps stats qs holds inner front behind =>
    have none {ps : List Phrase} (words : ∀ q ∈ ps, ∃ w, q = word w) : kinds ps = [] := by
      refine List.eq_nil_iff_forall_not_mem.mpr fun k mem => ?_
      obtain ⟨parts, mem⟩ := mem_kinds.mp mem
      obtain ⟨w, eq⟩ := words _ mem
      exact absurd eq (by simp)
    rw [kinds_append, kinds_group]
    exact .body holds (by rw [← kinds_append]; exact kinds_inner inner)
      (fun isRepeat => none (front isRepeat)) fun last => none (behind last)
  | localFunction => exact .localFunction

theorem Fits.ne_comment {kind : NodeKind} {parts : List Phrase} (h : Fits kind parts) :
    kind ≠ .comment := by
  rintro rfl
  cases h with
  | flat flat => exact absurd flat (by decide)
  | body holds => exact absurd holds (by decide)

/-- A group without words is an empty block. -/
theorem Fits.count_pos {kind : NodeKind} {parts : List Phrase} (h : Fits kind parts) :
    0 < count parts ∨ (kind = .block ∧ parts = []) := by
  cases h with
  | block stats =>
    cases parts with
    | nil => exact .inr ⟨rfl, rfl⟩
    | cons p ps =>
      have head := (stats p List.mem_cons_self).solid
      cases p with
      | word => exact absurd head id
      | group kind parts =>
        rw [count_cons]
        exact .inl (Nat.add_pos_left head _)
  | flat _ inner =>
    rw [count_cons]
    exact .inl (Nat.add_pos_left (inner _ List.mem_cons_self).words_pos _)
  | body _ inner =>
    rw [List.cons_append, count_cons]
    exact .inl (Nat.add_pos_left (inner _ List.mem_cons_self).words_pos _)
  | localFunction =>
    rw [count_cons]
    exact .inl (Nat.add_pos_left Nat.one_pos _)

/-- A group that is neither statement nor block has no statement or block at its front. -/
theorem Fits.front {kind : NodeKind} {parts : List Phrase} (h : Fits kind parts)
    (notStat : kind.isStatement = false) (notBlock : kind ≠ .block) :
    ∃ p ps, parts = p :: ps ∧ p.Inner := by
  cases h with
  | block => exact absurd rfl notBlock
  | flat _ inner => exact ⟨_, _, rfl, inner _ List.mem_cons_self⟩
  | body _ inner => exact ⟨_, _, rfl, inner _ List.mem_cons_self⟩
  | localFunction => exact ⟨_, _, rfl, trivial⟩

/-- A local function begins with a word. -/
theorem Fits.front_word {parts : List Phrase} (h : Fits .localFuncStat parts) :
    ∃ w ps, parts = word w :: ps := by
  cases h with
  | flat flat => exact absurd flat (by decide)
  | body holds => exact absurd holds (by decide)
  | localFunction => exact ⟨_, _, rfl⟩

theorem doc_le_firstMark (kind : NodeKind) (i n : Nat) : Mark.doc i ≤ firstMark kind i n := by
  simp only [firstMark, Mark.doc, Mark.start]
  split <;> omega

theorem firstMark_le_start (kind : NodeKind) (i n : Nat) : firstMark kind i n ≤ Mark.start i := by
  simp only [firstMark, Mark.doc, Mark.start]
  split <;> omega

theorem lastMark_of_pos {n : Nat} (kind : NodeKind) (i : Nat) (pos : 0 < n) :
    lastMark kind i n = Mark.stopBefore (i + n) := by
  have first := firstMark_le_start kind i n
  refine Nat.max_eq_left (Nat.le_trans first ?_)
  simp only [Mark.start, Mark.stopBefore]
  omega

theorem lastMark_zero (kind : NodeKind) (i : Nat) : lastMark kind i 0 = firstMark kind i 0 := by
  have first := doc_le_firstMark kind i 0
  refine Nat.max_eq_right (Nat.le_trans ?_ first)
  simp only [Mark.doc, Mark.stopBefore]
  omega

end Phrase

/-! ## Branches -/

open Phrase (firstMark lastMark docSlot outlinesOf kinds)

namespace Branch

/-- The node is no comment and not empty. -/
def Holds (b : Branch) : Prop := b.kind ≠ .comment ∧ b.span.start < b.span.stop

/-- The children that are no comments. -/
def parts (b : Branch) : List Branch := b.children.filter fun c => c.kind != .comment

/-- The children of a node are arranged: they are of the right kinds, what holds words lies inside
the node, and each child lies behind the words of those before it.  The children of a local
function stand behind its first word. -/
structure Arranged (b : Branch) : Prop where
  admits : b.kind.Admits (b.parts.map Branch.kind)
  inside : ∀ c ∈ b.parts, c.Holds → b.span.start ≤ c.span.start ∧ c.span.stop ≤ b.span.stop
  order : b.parts.Pairwise fun c d => c.Holds → c.span.stop ≤ d.span.start
  late : b.kind = .localFuncStat → ∀ c ∈ b.parts, b.span.start < c.span.start
  bare : b.kind.isStatement = false → b.parts = b.children

/-- The node holds words or is a block without statements. -/
def Filled (b : Branch) : Prop := b.Holds ∨ (b.kind = .block ∧ b.children = [])

/-- A comment, with nothing below it. -/
def IsComment (b : Branch) : Prop := b.kind = .comment ∧ b.children = []

/-- No children are admitted below a comment. -/
theorem Arranged.kind_ne_comment {b : Branch} (h : b.Arranged) : b.kind ≠ .comment := by
  intro isComment
  have admits := h.admits
  rw [isComment] at admits
  generalize b.parts.map Branch.kind = ks at admits
  cases admits with
  | flat flat => exact absurd flat (by decide)
  | body holds => exact absurd holds (by decide)

end Branch

namespace Layout

variable {l : Layout}

/-- Doc slots become comments. -/
theorem isComment_of_mem_docSlot {next i : Nat} {kind : NodeKind} {b : Branch}
    (mem : b ∈ l.branchesOf next (docSlot kind i)) : b.IsComment := by
  rw [docSlot] at mem
  split at mem
  · rw [branchesOf_singleton, branches] at mem
    split at mem
    · rw [List.mem_singleton.mp mem]
      exact ⟨rfl, rfl⟩
    · exact absurd mem List.not_mem_nil
  · exact absurd mem List.not_mem_nil

/-! ### A row of groups -/

section Row

variable {next i : Nat} {kind : NodeKind} {parts ps : List Phrase} {b : Branch}

/-- The branch of a group that stands at token `i`, with the nodes below it. -/
theorem branchesOf_group (next i : Nat) (kind : NodeKind) (parts : List Phrase) :
    ∃ id below, l.branchesOf next (Phrase.outlines i (.group kind parts))
        = [.node id kind ⟨l.offset (firstMark kind i (Phrase.count parts)),
            l.offset (lastMark kind i (Phrase.count parts))⟩
          (l.branchesOf next (docSlot kind i) ++ l.branchesOf below (outlinesOf i parts))] := by
  rw [Phrase.outlines, branchesOf_singleton, branches, branchesOf_append]
  exact ⟨_, _, rfl⟩

/-- The branches of phrases in a row are those of the groups, each at its place. -/
theorem exists_group_of_mem (mem : b ∈ l.branchesOf next (outlinesOf i ps)) :
    ∃ qs kind parts rs, ps = qs ++ .group kind parts :: rs ∧ b.kind = kind
      ∧ b.span = ⟨l.offset (firstMark kind (i + Phrase.count qs) (Phrase.count parts)),
          l.offset (lastMark kind (i + Phrase.count qs) (Phrase.count parts))⟩ := by
  induction ps generalizing next i with
  | nil => exact absurd mem List.not_mem_nil
  | cons p ps ih =>
    rw [outlinesOf, branchesOf_append, List.mem_append] at mem
    rcases mem with mem | mem
    · cases p with
      | word w => exact absurd mem List.not_mem_nil
      | group kind parts =>
        obtain ⟨id, below, eq⟩ := l.branchesOf_group next i kind parts
        rw [eq] at mem
        rw [List.mem_singleton.mp mem]
        exact ⟨[], kind, parts, ps, rfl, rfl, rfl⟩
    · obtain ⟨qs, kind, parts, rs, rfl, kindEq, spanEq⟩ := ih mem
      refine ⟨p :: qs, kind, parts, rs, rfl, kindEq, ?_⟩
      rw [spanEq, Phrase.count_cons, Nat.add_assoc]

theorem map_kind_branchesOf (next i : Nat) (ps : List Phrase) :
    (l.branchesOf next (outlinesOf i ps)).map Branch.kind = kinds ps := by
  induction ps generalizing next i with
  | nil => rfl
  | cons p ps ih =>
    rw [outlinesOf, branchesOf_append, List.map_append, ih]
    cases p with
    | word w => rfl
    | group kind parts =>
      obtain ⟨id, below, eq⟩ := l.branchesOf_group next i kind parts
      rw [eq]
      rfl

/-- A row begins no earlier than its first token, or than the comment in front of it. -/
theorem doc_le_start (h : l.Faithful) (mem : b ∈ l.branchesOf next (outlinesOf i ps)) :
    l.offset (Mark.doc i) ≤ b.span.start := by
  obtain ⟨qs, kind, parts, rs, -, -, spanEq⟩ := exists_group_of_mem mem
  rw [spanEq]
  refine offset_le h (Nat.le_trans ?_ (Phrase.doc_le_firstMark _ _ _))
  simp only [Mark.doc]
  omega

/-- A row that begins with a word or a plain group begins no earlier than its first token. -/
theorem start_le_start {p : Phrase} (h : l.Faithful) (inner : p.Inner)
    (mem : b ∈ l.branchesOf next (outlinesOf i (p :: ps))) :
    l.offset (Mark.start i) ≤ b.span.start := by
  obtain ⟨qs, kind, parts, rs, eq, -, spanEq⟩ := exists_group_of_mem mem
  rw [spanEq]
  refine offset_le h ?_
  cases qs with
  | nil =>
    obtain ⟨rfl, -⟩ := List.cons.inj eq
    simp [firstMark, inner.1, inner.2.1]
  | cons q qs =>
    obtain ⟨rfl, -⟩ := List.cons.inj eq
    refine Nat.le_trans ?_ (Phrase.doc_le_firstMark _ _ _)
    have taken := inner.words_pos
    rw [Phrase.count_cons]
    simp only [Mark.start, Mark.doc]
    omega

/-- What holds words has at least one. -/
theorem count_pos_of_holds {k n : Nat} (holds : b.Holds)
    (spanEq : b.span = ⟨l.offset (firstMark kind k n), l.offset (lastMark kind k n)⟩) : 0 < n := by
  refine Nat.pos_of_ne_zero fun none => ?_
  have nonempty := holds.2
  rw [spanEq, none, Phrase.lastMark_zero] at nonempty
  exact Nat.lt_irrefl _ nonempty

theorem stop_le_stop (h : l.Faithful) (mem : b ∈ l.branchesOf next (outlinesOf i ps))
    (holds : b.Holds) : b.span.stop ≤ l.offset (Mark.stopBefore (i + Phrase.count ps)) := by
  obtain ⟨qs, kind, parts, rs, rfl, -, spanEq⟩ := exists_group_of_mem mem
  have pos := count_pos_of_holds holds spanEq
  rw [spanEq]
  refine offset_le h ?_
  rw [Phrase.lastMark_of_pos _ _ pos, Phrase.count_append, Phrase.count_cons,
    Phrase.length_words_group]
  simp only [Mark.stopBefore]
  omega

/-- What holds words stops before the next child starts. -/
theorem pairwise_row (h : l.Faithful) (next i : Nat) (ps : List Phrase) :
    (l.branchesOf next (outlinesOf i ps)).Pairwise
      fun c d => c.Holds → c.span.stop ≤ d.span.start := by
  induction ps generalizing next i with
  | nil => exact List.Pairwise.nil
  | cons p ps ih =>
    rw [outlinesOf, branchesOf_append, List.pairwise_append]
    refine ⟨?_, ih _ _, fun c mem d mem' holds => ?_⟩
    · cases p with
      | word w => exact List.Pairwise.nil
      | group kind parts =>
        obtain ⟨id, below, eq⟩ := l.branchesOf_group next i kind parts
        rw [eq]
        exact List.pairwise_singleton _ _
    · have stop : c.span.stop ≤ l.offset (Mark.stopBefore (i + p.words.length)) := by
        have only : outlinesOf i [p] = Phrase.outlines i p := by
          rw [outlinesOf, outlinesOf, List.append_nil]
        rw [← only] at mem
        have bound := stop_le_stop h mem holds
        rw [Phrase.count_cons, Phrase.count_nil, Nat.add_zero] at bound
        exact bound
      refine Nat.le_trans stop (Nat.le_trans (offset_le h ?_) (doc_le_start h mem'))
      simp only [Mark.stopBefore, Mark.doc]
      omega

end Row

/-! ### A whole phrase -/

/-- A group starts no later than what stands in it. -/
theorem group_start_le (h : l.Faithful) {kind : NodeKind} {parts : List Phrase} {next i : Nat}
    {c : Branch} (fits : Phrase.Fits kind parts)
    (mem : c ∈ l.branchesOf next (outlinesOf i parts)) :
    l.offset (firstMark kind i (Phrase.count parts)) ≤ c.span.start := by
  by_cases own : kind.isStatement = true ∨ (kind = .block ∧ 0 < Phrase.count parts)
  · rw [firstMark, if_pos own]
    exact doc_le_start h mem
  · rw [firstMark, if_neg own]
    rw [not_or] at own
    rcases fits.count_pos with pos | ⟨rfl, rfl⟩
    · have notBlock : kind ≠ .block := fun block => own.2 ⟨block, pos⟩
      obtain ⟨p, ps, rfl, inner⟩ := fits.front (Bool.eq_false_iff.mpr own.1) notBlock
      exact start_le_start h inner mem
    · exact absurd mem List.not_mem_nil

/-- The node of a group is arranged. -/
theorem arranged_group (h : l.Faithful) {kind : NodeKind} {parts : List Phrase}
    {next i id below : Nat} (fits : Phrase.Fits kind parts) (formed : Phrase.FormedAll parts)
    (within : i + Phrase.count parts ≤ l.lexemes.size) :
    (Branch.node id kind ⟨l.offset (firstMark kind i (Phrase.count parts)),
      l.offset (lastMark kind i (Phrase.count parts))⟩
      (l.branchesOf next (docSlot kind i)
        ++ l.branchesOf below (outlinesOf i parts))).Arranged := by
  have partsEq : (Branch.node id kind ⟨l.offset (firstMark kind i (Phrase.count parts)),
      l.offset (lastMark kind i (Phrase.count parts))⟩
      (l.branchesOf next (docSlot kind i) ++ l.branchesOf below (outlinesOf i parts))).parts
        = l.branchesOf below (outlinesOf i parts) := by
    rw [Branch.parts, Branch.children, List.filter_append,
      List.filter_eq_nil_iff.mpr fun c mem => by simp [(isComment_of_mem_docSlot mem).1],
      List.nil_append]
    refine List.filter_eq_self.mpr fun c mem => ?_
    obtain ⟨qs, kind, inner, rs, rfl, kindEq, -⟩ := exists_group_of_mem mem
    have part := Phrase.formedAll_iff.mp formed (.group kind inner) (by simp)
    rw [kindEq]
    simpa using part.1.ne_comment
  refine ⟨?_, ?_, ?_, ?_, ?_⟩
  · rw [partsEq, map_kind_branchesOf]
    exact fits.admits
  · rw [partsEq]
    intro c mem holds
    exact ⟨group_start_le h fits mem,
      Nat.le_trans (stop_le_stop h mem holds) (offset_le h (Nat.le_max_left _ _))⟩
  · rw [partsEq]
    exact pairwise_row h _ _ _
  · rw [partsEq]
    intro isLocal c mem
    obtain rfl : kind = .localFuncStat := isLocal
    obtain ⟨w, ps, rfl⟩ := fits.front_word
    have first : i < l.lexemes.size := by
      rw [Phrase.count_cons, Phrase.length_words_word] at within
      omega
    have behind : l.offset (Mark.doc (i + 1)) ≤ c.span.start := doc_le_start h mem
    refine Nat.lt_of_lt_of_le (offset_lt h first (Phrase.firstMark_le_start _ _ _) ?_) behind
    simp only [Mark.stop, Mark.doc]
    omega
  · intro notStat
    rw [partsEq]
    have none : docSlot kind i = [] := if_neg (Bool.eq_false_iff.mp notStat)
    rw [Branch.children, none]
    rfl

theorem filled_group (h : l.Faithful) {kind : NodeKind} {parts : List Phrase}
    {next i id below : Nat} (fits : Phrase.Fits kind parts)
    (within : i + Phrase.count parts ≤ l.lexemes.size) :
    (Branch.node id kind ⟨l.offset (firstMark kind i (Phrase.count parts)),
      l.offset (lastMark kind i (Phrase.count parts))⟩
      (l.branchesOf next (docSlot kind i) ++ l.branchesOf below (outlinesOf i parts))).Filled := by
  rcases fits.count_pos with pos | ⟨rfl, rfl⟩
  · refine .inl ⟨fits.ne_comment, ?_⟩
    dsimp only [Branch.span]
    refine offset_lt h (i := i) (by omega) (Phrase.firstMark_le_start _ _ _) ?_
    rw [Phrase.lastMark_of_pos _ _ pos]
    simp only [Mark.stop, Mark.stopBefore]
    omega
  · exact .inr ⟨rfl, rfl⟩

mutual

/-- All nodes of a phrase are comments or arranged. -/
theorem arranged_outlines (h : l.Faithful) {i : Nat} :
    (p : Phrase) → p.Formed → i + p.words.length ≤ l.lexemes.size → (next : Nat) →
      ∀ b ∈ Branch.allOf (l.branchesOf next (Phrase.outlines i p)),
        b.IsComment ∨ (b.Arranged ∧ b.Filled)
  | .word w, _, _, _ => fun b mem => absurd mem List.not_mem_nil
  | .group kind parts, formed, within, next => by
    obtain ⟨id, below, eq⟩ := l.branchesOf_group next i kind parts
    have inner := arranged_outlinesOf h parts formed.2 within below
    intro b mem
    rw [eq, Branch.allOf, Branch.allOf, List.append_nil, Branch.all, Branch.allOf_append] at mem
    rcases List.mem_append.mp mem with mem | mem
    · rcases List.mem_append.mp mem with mem | mem
      · obtain ⟨c, inside, mem⟩ := Branch.mem_allOf.mp mem
        have comment := isComment_of_mem_docSlot inside
        rw [Branch.all_eq, comment.2] at mem
        rw [List.mem_singleton.mp mem]
        exact .inl comment
      · exact inner b mem
    · rw [List.mem_singleton.mp mem]
      exact .inr ⟨arranged_group h formed.1 formed.2 within, filled_group h formed.1 within⟩

theorem arranged_outlinesOf (h : l.Faithful) {i : Nat} :
    (ps : List Phrase) → Phrase.FormedAll ps → i + Phrase.count ps ≤ l.lexemes.size →
      (next : Nat) →
      ∀ b ∈ Branch.allOf (l.branchesOf next (outlinesOf i ps)),
        b.IsComment ∨ (b.Arranged ∧ b.Filled)
  | [], _, _, _ => fun b mem => absurd mem List.not_mem_nil
  | p :: ps, formed, within, next => by
    rw [Phrase.count_cons] at within
    have head := arranged_outlines h (i := i) p formed.1 (by omega) next
    have tail := arranged_outlinesOf h ps formed.2 (i := i + p.words.length) (by omega)
      (next + (Branch.allOf (l.branchesOf next (Phrase.outlines i p))).length)
    intro b mem
    rw [outlinesOf, branchesOf_append, Branch.allOf_append, List.mem_append] at mem
    rcases mem with mem | mem
    · exact head b mem
    · exact tail b mem

end

/-- The root of a program whose main block has the phrase of some statements. -/
theorem arranged_root (h : l.Faithful) {body : Outline} {ss : List Stat}
    (outline : [body] = outlinesOf 0 [.group .block (Stat.phrases ss)])
    (size : Phrase.count [.group .block (Stat.phrases ss)] = l.lexemes.size) :
    (l.root body).Arranged := by
  have below : l.branches 0 body
      = l.branchesOf 0 (outlinesOf 0 [.group .block (Stat.phrases ss)]) := by
    rw [← outline, branchesOf_singleton]
  have isBlock : ∀ c ∈ l.branchesOf 0 (outlinesOf 0 [.group .block (Stat.phrases ss)]),
      c.kind = .block := by
    intro c mem
    have kindMem := List.mem_map_of_mem (f := Branch.kind) mem
    rw [map_kind_branchesOf] at kindMem
    exact List.mem_singleton.mp kindMem
  have partsEq : (l.root body).parts
      = l.branchesOf 0 (outlinesOf 0 [.group .block (Stat.phrases ss)]) := by
    rw [root, Branch.parts, Branch.children, below]
    exact List.filter_eq_self.mpr fun c mem => by simp [isBlock c mem]
  refine ⟨?_, ?_, ?_, ?_, ?_⟩
  · rw [partsEq, map_kind_branchesOf]
    have admits : NodeKind.chunk.Admits ([] ++ .block :: []) :=
      .body rfl (by simp) (fun _ => rfl) fun _ => rfl
    exact admits
  · rw [partsEq]
    intro c mem holds
    refine ⟨Nat.zero_le _, Nat.le_trans (stop_le_stop h mem holds) ?_⟩
    have behind : Mark.stopBefore (0 + l.lexemes.size) ≤ Mark.start l.lexemes.size := by
      simp only [Mark.stopBefore, Mark.start]
      omega
    have last := offset_le h behind
    rw [offset_start, tokenStart_of_ge (Nat.le_refl _)] at last
    rw [size]
    exact last
  · rw [partsEq]
    exact pairwise_row h _ _ _
  · intro isLocal
    have isChunk : (l.root body).kind = .chunk := rfl
    rw [isChunk] at isLocal
    exact absurd isLocal (by decide)
  · rw [partsEq, root, Branch.children, below]
    exact fun _ => rfl

/-- All nodes of a program whose main block has the phrase of some statements. -/
theorem arranged_all (h : l.Faithful) {body : Outline} {ss : List Stat}
    (outline : [body] = outlinesOf 0 [.group .block (Stat.phrases ss)])
    (size : Phrase.count [.group .block (Stat.phrases ss)] = l.lexemes.size) :
    ∀ b ∈ (l.root body).all,
      b.IsComment ∨ (b.Arranged ∧ (b = l.root body ∨ b.Filled)) := by
  have formed : Phrase.FormedAll [.group .block (Stat.phrases ss)] :=
    ⟨Phrase.formed_block (Stat.formedAll ss), trivial⟩
  have inner := arranged_outlinesOf h _ formed (i := 0) (by omega) 0
  rw [← outline, branchesOf_singleton] at inner
  intro b mem
  rw [Branch.all_eq] at mem
  rcases List.mem_append.mp mem with mem | mem
  · exact (inner b mem).imp_right fun arranged => ⟨arranged.1, .inr arranged.2⟩
  · rw [List.mem_singleton.mp mem]
    exact .inr ⟨arranged_root h outline size, .inl rfl⟩

end Layout

/-! ## Trees -/

namespace Tree

/-- The node is no comment and not empty. -/
def Holds (t : Tree) (id : NodeId) : Prop := t.kind id ≠ .comment ∧ t.start id < t.stop id

/-- The children that are no comments. -/
def parts (t : Tree) (id : NodeId) : List NodeId :=
  (t.children id).filter fun c => t.kind c != .comment

/-- The nodes of a tree hang together, every node but the comments has children of the right kinds,
and what holds words stands in its order inside its parent. -/
structure Arranged (t : Tree) : Prop where
  root_kind : t.kind t.root = .chunk
  root_parent : t.parent t.root = none
  root_ancestors : t.ancestors t.root = []
  child_parent : ∀ {p c}, c ∈ t.children p → t.parent c = some p
  child_ancestors : ∀ {p c}, c ∈ t.children p → t.ancestors c = p :: t.ancestors p
  exists_parent : ∀ {id}, id < t.size → id = t.root ∨ ∃ p, p < t.size ∧ id ∈ t.children p
  lt_parent : ∀ {p c}, c ∈ t.children p → c < p
  walk_nodup : t.walk.Nodup
  walk_children : ∀ {p}, p < t.size → (p :: t.children p).Sublist t.walk
  walk_grandchildren : ∀ {p q}, q ∈ t.children p → (p :: t.children q).Sublist t.walk
  mem_walk : ∀ {id}, id ∈ t.walk ↔ id < t.size
  comment : ∀ {id}, t.kind id = .comment → t.children id = []
  admits : ∀ {id}, id < t.size → t.kind id ≠ .comment →
    (t.kind id).Admits ((t.parts id).map t.kind)
  inside : ∀ {p c}, c ∈ t.parts p → t.Holds c → t.start p ≤ t.start c ∧ t.stop c ≤ t.stop p
  order : ∀ p, (t.parts p).Pairwise fun c d => t.Holds c → t.stop c ≤ t.start d
  late : ∀ {p c}, t.kind p = .localFuncStat → c ∈ t.parts p → t.start p < t.start c
  bare : ∀ {p}, t.kind p ≠ .comment → (t.kind p).isStatement = false → t.parts p = t.children p
  holds : ∀ {id}, id < t.size → t.kind id ≠ .comment → id ≠ t.root →
    t.Holds id ∨ (t.kind id = .block ∧ t.children id = [])

namespace Grows

variable {t : Tree} {r b : Branch} {p c : NodeId}

theorem holds_iff (h : t.Grows r) (mem : b ∈ r.all) : t.Holds b.id ↔ b.Holds := by
  rw [Tree.Holds, Branch.Holds, h.kind mem, Tree.start, Tree.stop, h.span mem]

theorem parts (h : t.Grows r) (mem : b ∈ r.all) : t.parts b.id = b.parts.map Branch.id := by
  rw [Tree.parts, h.children mem, List.filter_map, Branch.parts]
  congr 1
  refine List.filter_congr fun c child => ?_
  have inside := Branch.mem_all_trans mem (Branch.mem_all_of_mem_children child)
  rw [Function.comp_apply, h.kind inside]

/-- A node stands before its children in the walk. -/
theorem children_sublist_walk (h : t.Grows r) (mem : b ∈ r.all) :
    (b.id :: t.children b.id).Sublist t.walk := by
  rw [h.walk_eq, h.children mem]
  refine List.Sublist.trans ?_ (Branch.preorder_sublist r mem)
  rw [Branch.preorder_eq]
  exact (Branch.ids_sublist_preorderOf b.children).cons_cons _

/-- A node stands before the children of its children in the walk. -/
theorem grandchildren_sublist_walk (h : t.Grows r) (mem : b ∈ r.all) {d : Branch}
    (below : d ∈ b.children) : (b.id :: t.children d.id).Sublist t.walk := by
  rw [h.walk_eq, h.children (mem_of_child mem below)]
  refine List.Sublist.trans ?_ (Branch.preorder_sublist r mem)
  have part := Branch.preorder_sublist_of_mem b.children
    (Branch.mem_allOf.mpr ⟨d, below, Branch.self_mem_all d⟩)
  rw [Branch.preorder_eq] at part ⊢
  refine List.Sublist.cons_cons _ (List.Sublist.trans ?_ part)
  exact (Branch.ids_sublist_preorderOf d.children).trans (List.sublist_cons_self _ _)

/-- The kinds of the parts are those of the branch. -/
theorem kinds_parts (h : t.Grows r) (mem : b ∈ r.all) :
    (t.parts b.id).map t.kind = b.parts.map Branch.kind := by
  rw [h.parts mem, List.map_map]
  refine List.map_congr_left fun c part => ?_
  rw [Function.comp_apply, h.kind (mem_of_child mem (List.mem_filter.mp part).1)]

section Nodes

variable (nodes : ∀ b ∈ r.all, b.IsComment ∨ (b.Arranged ∧ (b = r ∨ b.Filled)))

include nodes

/-- A node that is no comment has an arranged branch. -/
theorem exists_arranged (h : t.Grows r) {id : NodeId} (inside : id < t.size)
    (notComment : t.kind id ≠ .comment) :
    ∃ b ∈ r.all, b.Arranged ∧ (b = r ∨ b.Filled) ∧ b.id = id := by
  obtain ⟨b, mem, rfl⟩ := h.exists_mem inside
  rw [h.kind mem] at notComment
  obtain ⟨arranged, filled⟩ := (nodes b mem).resolve_left fun comment => notComment comment.1
  exact ⟨b, mem, arranged, filled, rfl⟩

/-- What is a part of a node is a part of an arranged branch. -/
theorem exists_part (h : t.Grows r) (part : c ∈ t.parts p) :
    ∃ b ∈ r.all, b.Arranged ∧ ∃ d ∈ b.parts, d ∈ r.all ∧ b.id = p ∧ d.id = c := by
  obtain ⟨b, mem, d, below, rfl, rfl⟩ := h.exists_child (List.mem_filter.mp part).1
  have inside := mem_of_child mem below
  rw [h.parts mem] at part
  obtain ⟨d', part', same⟩ := List.mem_map.mp part
  obtain rfl := h.eq_of_id_eq (mem_of_child mem (List.mem_filter.mp part').1) inside same
  obtain ⟨arranged, -⟩ := (nodes b mem).resolve_left fun comment =>
    absurd (comment.2 ▸ below) List.not_mem_nil
  exact ⟨b, mem, arranged, d', part', inside, rfl, rfl⟩

/-- A branch whose node is a comment has nothing below it. -/
theorem children_of_comment (mem : b ∈ r.all) (isComment : b.kind = .comment) :
    b.children = [] := by
  rcases nodes b mem with comment | ⟨arranged, -⟩
  · exact comment.2
  · exact absurd isComment arranged.kind_ne_comment

theorem pairwise_parts (h : t.Grows r) (mem : b ∈ r.all) :
    (t.parts b.id).Pairwise fun c d => t.Holds c → t.stop c ≤ t.start d := by
  rw [h.parts mem, List.pairwise_map]
  rcases nodes b mem with comment | ⟨arranged, -⟩
  · rw [Branch.parts, comment.2]
    exact List.Pairwise.nil
  · refine arranged.order.imp_of_mem fun {c d} part part' before holds => ?_
    have mem' := mem_of_child mem (List.mem_filter.mp part).1
    have mem'' := mem_of_child mem (List.mem_filter.mp part').1
    rw [h.holds_iff mem'] at holds
    rw [Tree.stop, Tree.start, h.span mem', h.span mem'']
    exact before holds

/-- A tree is arranged if the nodes of its branch are. -/
theorem arranged (h : t.Grows r) (root : r.kind = .chunk) : t.Arranged where
  root_kind := by rw [h.root_eq, h.kind (Branch.self_mem_all r), root]
  root_parent := by rw [h.root_eq, h.parent_root]
  root_ancestors := by rw [h.root_eq, h.ancestors_root]
  child_parent child := by
    obtain ⟨b, mem, d, below, rfl, rfl⟩ := h.exists_child child
    exact h.parent mem below
  child_ancestors child := by
    obtain ⟨b, mem, d, below, rfl, rfl⟩ := h.exists_child child
    exact h.ancestors_child mem below
  exists_parent inside := by
    obtain ⟨b, mem, rfl⟩ := h.exists_mem inside
    rcases Branch.eq_or_exists_parent r mem with rfl | ⟨p, mem', child⟩
    · exact .inl h.root_eq.symm
    · refine .inr ⟨p.id, h.id_lt_size mem', ?_⟩
      rw [h.children mem']
      exact List.mem_map_of_mem child
  lt_parent child := by
    obtain ⟨b, mem, d, below, rfl, rfl⟩ := h.exists_child child
    exact h.id_lt_id mem below
  walk_nodup := by
    rw [h.walk_eq, (Branch.preorder_perm r).nodup_iff, h.ids]
    exact List.nodup_range
  walk_children inside := by
    obtain ⟨b, mem, rfl⟩ := h.exists_mem inside
    exact h.children_sublist_walk mem
  walk_grandchildren child := by
    obtain ⟨b, mem, d, below, rfl, rfl⟩ := h.exists_child child
    exact h.grandchildren_sublist_walk mem below
  mem_walk := by
    intro id
    rw [h.walk_eq, (Branch.preorder_perm r).mem_iff, h.ids]
    exact List.mem_range
  comment := by
    intro id isComment
    by_cases inside : id < t.size
    · obtain ⟨b, mem, rfl⟩ := h.exists_mem inside
      rw [h.kind mem] at isComment
      rw [h.children mem, children_of_comment nodes mem isComment, List.map_nil]
    · exact children_of_ge (Nat.le_of_not_lt inside)
  admits := by
    intro id inside notComment
    obtain ⟨b, mem, arranged, -, rfl⟩ := h.exists_arranged nodes inside notComment
    rw [h.kinds_parts mem, h.kind mem]
    exact arranged.admits
  inside := by
    intro p c part holds
    obtain ⟨b, mem, arranged, d, part', mem', rfl, rfl⟩ := h.exists_part nodes part
    rw [h.holds_iff mem'] at holds
    rw [Tree.start, Tree.start, Tree.stop, Tree.stop, h.span mem, h.span mem']
    exact arranged.inside d part' holds
  order := by
    intro p
    by_cases inside : p < t.size
    · obtain ⟨b, mem, rfl⟩ := h.exists_mem inside
      exact h.pairwise_parts nodes mem
    · rw [Tree.parts, children_of_ge (Nat.le_of_not_lt inside)]
      exact List.Pairwise.nil
  late := by
    intro p c isLocal part
    obtain ⟨b, mem, arranged, d, part', mem', rfl, rfl⟩ := h.exists_part nodes part
    rw [h.kind mem] at isLocal
    rw [Tree.start, Tree.start, h.span mem, h.span mem']
    exact arranged.late isLocal d part'
  bare := by
    intro p notComment notStat
    by_cases inside : p < t.size
    · obtain ⟨b, mem, arranged, -, rfl⟩ := h.exists_arranged nodes inside notComment
      rw [h.kind mem] at notStat
      rw [h.parts mem, h.children mem, arranged.bare notStat]
    · rw [Tree.parts, children_of_ge (Nat.le_of_not_lt inside)]
      rfl
  holds := by
    intro id inside notComment notRoot
    obtain ⟨b, mem, -, filled, rfl⟩ := h.exists_arranged nodes inside notComment
    rw [h.holds_iff mem, h.kind mem, h.children mem, List.map_eq_nil_iff]
    rw [h.root_eq] at notRoot
    exact filled.resolve_left fun same => notRoot (congrArg Branch.id same)

end Nodes

end Grows

end Tree

/-- The tree of a text without faults is arranged, where every place of the text has an offset of
its own. -/
theorem Parsed.arranged {text : String} (small : text.utf8ByteSize < offsetCount)
    (clean : (Parsed.ofText text).errors = []) : (Parsed.ofText text).tree.Arranged := by
  rw [Parsed.ofText, errors_ofTextWithin] at clean
  obtain ⟨-, faults⟩ := List.append_eq_nil_iff.mp clean
  obtain ⟨ss, spans⟩ := Program.exists_phrases (List.map_eq_nil_iff.mp faults)
  have size : Phrase.count [.group .block (Stat.phrases ss)]
      = (Layout.ofLexed text (Lexed.ofText text)).lexemes.size := by
    have tokens := congrArg List.length spans.tokens_eq
    simpa [Phrase.tokens, Phrase.count, Layout.ofLexed] using tokens.symm
  have nodes := Layout.arranged_all (Layout.faithful_ofLexed small) spans.outlines_eq size
  exact (grows_root maxNesting small).arranged nodes rfl

end LuaTyping
