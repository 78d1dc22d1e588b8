import LuaTyping.Proofs.Infer.Gives
import LuaTyping.Proofs.DocTag.TypeExpr

/-!
# Inferred types are valid

A type names a place in the project, and whoever looks at the place has to find there what the type
says.  `LuaType.ValidIn` says so of one type, and `TypeSet.ValidIn` of a set that an expression was
found to have.

Types are made in a dozen places; each of them looks at the kind of the node before it makes a
type of it.  Two things have to come from elsewhere: that a file has its own number
(`Project.numbered_ofFiles`), and that a type expression never yields the empty name
(`TypeExpr.parse?_valid`).

* `inferred_types_valid`: what is inferred in a project of inserted files is valid in it.
-/

namespace LuaTyping

/-! ## Projects of inserted files -/

namespace Project

/-- Every file has the number under which it is found. -/
def Numbered (p : Project) : Prop := ∀ i f, p.file? i = some f → f.id = i

theorem numbered_empty (patterns : List String) : (empty patterns).Numbered := by
  intro i f h
  simp [empty, file?] at h

theorem Numbered.insert {p : Project} (h : p.Numbered) (path text : String) :
    (p.insert path text).2.Numbered := by
  intro i f hf
  unfold Project.insert at hf
  dsimp only at hf
  split at hf
  · rename_i id _
    simp only [file?, Array.getElem?_setIfInBounds] at hf
    split at hf
    · split at hf
      · cases hf
        assumption
      · cases hf
    · exact h i f hf
  · simp only [file?, Array.getElem?_push] at hf
    split at hf
    · cases hf
      rename_i last
      exact last.symm
    · exact h i f hf

/-- However files are inserted, each has its own number. -/
theorem numbered_ofFiles (patterns : List String) (files : List (String × String)) :
    (ofFiles patterns files).Numbered := by
  unfold ofFiles
  suffices keep : ∀ p : Project, p.Numbered →
      (files.foldl (fun p f => (p.insert f.1 f.2).2) p).Numbered from
    keep _ (numbered_empty patterns)
  induction files with
  | nil => exact fun p h => h
  | cons f fs ih => exact fun p h => ih _ (h.insert f.1 f.2)

/-- At the site stands a node of the kind, in the file with the number of the site. -/
def HasNode (p : Project) (s : Site) (kind : NodeKind) : Prop :=
  ∃ f, p.file? s.file = some f ∧ f.id = s.file ∧ s.node < f.tree.size ∧ f.tree.kind s.node = kind

/-- A node that is no error node stands where its kind is read. -/
theorem Numbered.hasNode {p : Project} (h : p.Numbered) {s : Site} {kind : NodeKind}
    (hk : (p.tree s.file).kind s.node = kind) (known : kind ≠ .error) : p.HasNode s kind := by
  unfold tree at hk
  cases hf : p.file? s.file with
  | none =>
    rw [hf] at hk
    exact absurd hk.symm known
  | some f =>
    rw [hf] at hk
    refine ⟨f, hf, h _ f hf, ?_, hk⟩
    by_contra out
    apply known
    rw [← hk]
    simp only [Option.map_some, Option.getD_some, Tree.kind, Tree.node]
    rw [Array.getD_eq_getD_getElem?, Array.getElem?_eq_none (Nat.le_of_not_lt out)]
    rfl

end Project

/-! ## Valid types -/

/-- What a type says about the project is so. -/
inductive LuaType.ValidIn (p : Project) : LuaType → Prop
  | named {name : String} (nonempty : name ≠ "") : ValidIn p (.named name)
  | table {site : Site} (node : p.HasNode site .tableConstructor) : ValidIn p (.table site)
  | function {site : Site} (node : p.HasNode site .funcBody) : ValidIn p (.function site)
  /-- The site of a global type is its name, where no local binding is visible. -/
  | global {name : String} {site : Site} (node : p.HasNode site .nameExpr)
      (text : (p.tree site.file).textOf site.node = name)
      (unbound : (p.scopes site.file).lookup (p.tree site.file) site.node name = none) :
      ValidIn p (.global name site)

/-- A valid type that has a name and a place has the text at the place as its name. -/
theorem LuaType.ValidIn.textOf_of_name? {p : Project} {t : LuaType} {name : String} {s : Site}
    (h : t.ValidIn p) (place : t.site? = some s) (called : t.name? = some name) :
    (p.tree s.file).textOf s.node = name := by
  cases h with
  | named => cases place
  | table | function => cases called
  | global _ text _ =>
    cases place
    cases called
    exact text

/-- There are types in the set, each once, and they are valid. -/
structure TypeSet.ValidIn (p : Project) (s : TypeSet) : Prop where
  nonempty : s.toList ≠ []
  nodup : s.toList.Nodup
  valid : ∀ t ∈ s.toList, t.ValidIn p

namespace TypeSet

namespace ValidIn

variable {p : Project} {a b : TypeSet} {t : LuaType}

theorem single (h : t.ValidIn p) : (TypeSet.single t).ValidIn p := by
  refine ⟨by simp, (TypeSet.single t).nodup, fun u hu => ?_⟩
  rw [toList_single, List.mem_singleton] at hu
  rw [hu]
  exact h

theorem insert (hs : ∀ u ∈ a.toList, u.ValidIn p) (ht : t.ValidIn p) :
    (a.insert t).ValidIn p := by
  obtain ⟨nonempty, valid⟩ := forall_insert hs ht
  exact ⟨nonempty, (a.insert t).nodup, valid⟩

theorem union (ha : a.ValidIn p) (hb : b.ValidIn p) : (a.union b).ValidIn p := by
  obtain ⟨t, ht⟩ := List.exists_mem_of_ne_nil _ ha.nonempty
  refine ⟨List.ne_nil_of_mem (mem_union.mpr (Or.inl ht)), (a.union b).nodup, fun u hu => ?_⟩
  rcases mem_union.mp hu with hu | hu
  · exact ha.valid u hu
  · exact hb.valid u hu

end ValidIn

end TypeSet

/-! ## Types from doc comments -/

theorem ofList_ne_empty {cs : List Char} (h : cs ≠ []) : String.ofList cs ≠ "" := by
  intro eq
  apply h
  rw [← String.toList_ofList (l := cs), eq]
  rfl

namespace TypeExpr

/-- A type that can be written has a name, and the name is not empty. -/
theorem Written.validIn (p : Project) {t : LuaType} (written : Written t) : t.ValidIn p := by
  obtain ⟨c, cs, name, -⟩ := written.alternative.exists_start
  rw [written.named]
  refine .named fun empty => ?_
  rw [empty] at name
  cases name

/-- The types of an expression are valid in every project. -/
theorem parse?_valid (p : Project) {text : List Char} {s : TypeSet} (h : parse? text = some s) :
    s.ValidIn p := by
  obtain ⟨nonempty, written⟩ := parse?_written h
  exact ⟨nonempty, s.nodup, fun t mem => (written t mem).validIn p⟩

end TypeExpr

namespace DocTag

variable {line : List Char} {s : TypeSet}

theorem variableTypes?_valid (p : Project) (h : variableTypes? line = some s) : s.ValidIn p := by
  unfold variableTypes? at h
  split at h
  · exact TypeExpr.parse?_valid p h
  · obtain ⟨text, -, h⟩ := Option.bind_eq_some_iff.mp h
    split at h
    · cases h
    · rename_i name nonempty
      cases h
      exact .single (.named (ofList_ne_empty nonempty))

theorem paramTypes?_valid (p : Project) {param : String} (h : paramTypes? param line = some s) :
    s.ValidIn p := by
  obtain ⟨text, -, h⟩ := Option.bind_eq_some_iff.mp h
  dsimp only at h
  split at h
  · split at h
    · split at h
      · cases h
      · obtain ⟨types, parsed, rfl⟩ := Option.map_eq_some_iff.mp h
        have valid := TypeExpr.parse?_valid p parsed
        split
        · exact .insert valid.valid (.named (by decide))
        · exact valid
    · cases h
  · cases h

theorem returnTypes?_valid (p : Project) (h : returnTypes? line = some s) : s.ValidIn p := by
  obtain ⟨text, -, h⟩ := Option.bind_eq_some_iff.mp h
  exact TypeExpr.parse?_valid p h

end DocTag

namespace Tree

/-- What every line can only yield with a property, the comment yields with it. -/
theorem firstTag?_of_forall {Q : TypeSet → Prop} {t : Tree} {comment : NodeId}
    {read : List Char → Option TypeSet} (h : ∀ line s, read line = some s → Q s) {s : TypeSet}
    (hs : t.firstTag? comment read = some s) : Q s := by
  obtain ⟨line, -, hl⟩ := List.exists_of_findSome?_eq_some hs
  exact h _ s hl

/-! ## Kinds of children -/

theorem kind_of_child? {t : Tree} {id c : NodeId} {kind : NodeKind}
    (h : t.child? id kind = some c) : t.kind c = kind := by
  have := List.find?_some h
  rwa [beq_iff_eq] at this

theorem kind_of_cast? {t : Tree} {id c : NodeId} {kind : NodeKind}
    (h : t.cast? kind id = some c) : t.kind c = kind := by
  unfold cast? at h
  split at h
  · cases h
    assumption
  · cases h

/-- What a value node wraps is of the kind that its form says. -/
theorem kind_of_valueForm?_table {t : Tree} {id c : NodeId}
    (h : t.valueForm? id = some (.table c)) : t.kind c = .tableConstructor := by
  obtain ⟨d, -, h⟩ := Option.bind_eq_some_iff.mp h
  split at h
  · cases h
    assumption
  all_goals first
    | cases h
    | (obtain ⟨x, -, hx⟩ := Option.map_eq_some_iff.mp h; cases hx)

end Tree

/-! ## Kinds of resolved nodes -/

namespace Project

variable {p : Project}

theorem kind_of_memberSource? {file : Nat} {d : MemberDef} {site : Site}
    (h : p.memberSource? file d = some (.function site)) :
    (p.tree site.file).kind site.node = .funcBody := by
  unfold memberSource? at h
  split at h
  · obtain ⟨_, -, h⟩ := Option.map_eq_some_iff.mp h
    cases h
  · obtain ⟨id, cast, h⟩ := Option.map_eq_some_iff.mp h
    cases h
    exact Tree.kind_of_cast? cast

/-- A member that is a function stands at the body of a function. -/
theorem kind_of_findMember? {type : LuaType} {name : String} {site : Site}
    (h : p.findMember? type name = some (.function site)) :
    (p.tree site.file).kind site.node = .funcBody := by
  have written : ∀ table, p.writtenMember? table name ≠ some (.function site) := by
    intro table h
    obtain ⟨f, -, h⟩ := Option.bind_eq_some_iff.mp h
    obtain ⟨v, -, h⟩ := Option.map_eq_some_iff.mp h
    cases h
  cases type with
  | table table =>
    simp only [findMember?, tableMember?] at h
    split at h
    · split at h
      · exact absurd h (written table)
      · rcases Option.or_eq_some_iff.mp h with h | ⟨-, h⟩
        · obtain ⟨d, -, h⟩ := Option.bind_eq_some_iff.mp h
          exact kind_of_memberSource? h
        · exact absurd h (written table)
    · cases h
  | «global» global s =>
    have mem := List.mem_of_getLast? h
    obtain ⟨f, -, mem⟩ := List.mem_flatMap.mp mem
    obtain ⟨d, -, h⟩ := List.mem_filterMap.mp mem
    exact kind_of_memberSource? h
  | named name => cases h
  | function s => cases h

/-- Only the name in an assignment is declared by it. -/
theorem kind_of_resolve?_assignment {s : Site} {d : Declaration} (h : p.resolve? s = some d)
    (hd : d.kind = .assignment) : (p.tree d.site.file).kind d.site.node = .nameExpr := by
  have checked : ∀ file node expected kind, kind ≠ .assignment ∨ expected = .nameExpr →
      (p.declaration file node expected kind).kind = .assignment →
      (p.tree file).kind node = .nameExpr := by
    intro file node expected kind only hk
    unfold declaration at hk
    dsimp only at hk
    split at hk
    · rename_i is
      rcases only with only | rfl
      · exact absurd hk only
      · exact is
    · cases hk
  have ofGlobal : ∀ file (g : GlobalDef), (p.globalDeclaration file g).kind = .assignment →
      (p.tree file).kind g.node = .nameExpr := by
    intro file g hk
    unfold globalDeclaration at hk
    split at hk
    · exact checked _ _ _ _ (Or.inr rfl) hk
    · exact checked _ _ _ _ (Or.inl (by decide)) hk
  have site_eq : ∀ file (g : GlobalDef), (p.globalDeclaration file g).site = ⟨file, g.node⟩ := by
    intro file g
    unfold globalDeclaration
    split <;> rfl
  rcases Option.or_eq_some_iff.mp h with h | ⟨-, h⟩
  · obtain ⟨b, -, rfl⟩ := Option.map_eq_some_iff.mp h
    unfold localDeclaration at hd ⊢
    split at hd <;> exact checked _ _ _ _ (Or.inl (by decide)) hd
  · unfold resolveGlobal? at h
    dsimp only at h
    split at h
    · cases h
      rw [site_eq]
      exact ofGlobal _ _ hd
    · obtain ⟨g, -, rfl⟩ := Option.map_eq_some_iff.mp h
      rw [site_eq]
      exact ofGlobal _ _ hd

/-- A name without a local declaration is free in the scopes of its file. -/
theorem lookup_eq_none_of_resolveLocal? {s : Site} (h : p.resolveLocal? s = none) :
    (p.scopes s.file).lookup (p.tree s.file) s.node ((p.tree s.file).textOf s.node) = none :=
  Option.map_eq_none_iff.mp h

end Project

/-! ## Every plan gives valid types -/

namespace Plan

variable {p : Project}

theorem ofFunction_valid (h : p.Numbered) (stat : Site) :
    (ofFunction p stat).Gives (TypeSet.ValidIn p) (TypeSet.ValidIn p) :=
  .ofOption_bind fun _ hbody =>
    .pure (.single (.function (h.hasNode (Tree.kind_of_child? hbody) (by decide))))

theorem ofVariable_valid (name : Site) :
    (ofVariable p name).Gives (TypeSet.ValidIn p) (TypeSet.ValidIn p) := by
  refine .guarded (.ofOption_bind fun stat _ => ?_)
  split
  · split
    · rename_i types tagged
      obtain ⟨comment, -, tagged⟩ := Option.bind_eq_some_iff.mp tagged
      exact .pure (Tree.firstTag?_of_forall (fun _ _ => DocTag.variableTypes?_valid p) tagged)
    · exact .ofOption_bind fun _ _ => .infer _
  · exact .pure (.single (.named (by decide)))
  · exact .unknown

theorem ofParam_valid (param : Site) :
    (ofParam p param).Gives (TypeSet.ValidIn p) (TypeSet.ValidIn p) := by
  refine .ofOption fun types tagged => ?_
  obtain ⟨comment, -, tagged⟩ := Option.bind_eq_some_iff.mp tagged
  exact Tree.firstTag?_of_forall (fun _ _ => DocTag.paramTypes?_valid p) tagged

theorem memberOf_valid (h : p.Numbered) (name : String) (type : LuaType) :
    (memberOf p name type).Gives (TypeSet.ValidIn p) (TypeSet.ValidIn p) := by
  unfold memberOf
  split
  · exact .infer _
  · rename_i site found
    exact .pure (.single (.function (h.hasNode (Project.kind_of_findMember? found) (by decide))))
  · exact .unknown

theorem member_valid (h : p.Numbered) (owner : TypeSet) (name : String) :
    (member p owner name).Gives (TypeSet.ValidIn p) (TypeSet.ValidIn p) :=
  .bind (.joinAll (fun _ _ => .union) (memberOf_valid h name) _) fun _ hr => .ofOption hr

theorem ofFields_valid (h : p.Numbered) {types : TypeSet} (ht : types.ValidIn p)
    (names : List String) :
    (ofFields p types names).Gives (TypeSet.ValidIn p) (TypeSet.ValidIn p) := by
  induction names generalizing types with
  | nil => exact .pure ht
  | cons name names ih => exact .bind (member_valid h types name) fun _ hs => ih hs

theorem ofSelf_valid (h : p.Numbered) (method : Site) :
    (ofSelf p method).Gives (TypeSet.ValidIn p) (TypeSet.ValidIn p) :=
  .guarded <| .ofOption_bind fun _ _ => .ofOption_bind fun _ _ =>
    .bind (.infer _) fun _ ht => ofFields_valid h ht _

theorem ofDeclaration_valid (h : p.Numbered) (d : Declaration) :
    (ofDeclaration p d).Gives (TypeSet.ValidIn p) (TypeSet.ValidIn p) := by
  unfold ofDeclaration
  split
  · exact ofVariable_valid _
  · exact ofParam_valid _
  · exact ofFunction_valid h _
  · exact ofFunction_valid h _
  · exact ofSelf_valid h _
  · exact .unknown
  · exact .unknown

theorem ofReturn_valid (body : Site) :
    (ofReturn p body).Gives (TypeSet.ValidIn p) (TypeSet.ValidIn p) := by
  refine .guarded ?_
  dsimp only
  split
  · rename_i types tagged
    obtain ⟨comment, -, tagged⟩ := Option.bind_eq_some_iff.mp tagged
    exact .pure (Tree.firstTag?_of_forall (fun _ _ => DocTag.returnTypes?_valid p) tagged)
  · exact .bind (.joinAll (fun _ _ => .union) (fun _ => .infer _) _) fun _ hr => .ofOption hr

theorem ofFile_valid (file : Nat) :
    (ofFile p file).Gives (TypeSet.ValidIn p) (TypeSet.ValidIn p) :=
  .guarded (.ofOption_bind fun _ _ => .infer _)

theorem ofCall_valid (call : Site) :
    (ofCall p call).Gives (TypeSet.ValidIn p) (TypeSet.ValidIn p) := by
  unfold ofCall
  split
  · exact ofFile_valid _
  · have target : (callTarget p call).Gives (TypeSet.ValidIn p) fun _ => True :=
      .ofOption_bind fun _ _ => .bind (.infer _) fun _ _ => .ofOption fun _ _ => trivial
    exact .bind target fun _ _ => ofReturn_valid _

theorem assigned_valid (target : Site) :
    (assigned p target).Gives (TypeSet.ValidIn p) (TypeSet.ValidIn p) := by
  refine .ofOption_bind fun stat _ => ?_
  split
  · rename_i types tagged
    obtain ⟨comment, -, tagged⟩ := Option.bind_eq_some_iff.mp tagged
    exact .pure (Tree.firstTag?_of_forall (fun _ _ => DocTag.variableTypes?_valid p) tagged)
  · exact .ofOption_bind fun _ _ => .infer _

/-- A name without a local declaration is a global type at its own site. -/
theorem global_valid (h : p.Numbered) {name : Site}
    (hk : (p.tree name.file).kind name.node = .nameExpr) (free : p.resolveLocal? name = none) :
    (LuaType.global ((p.tree name.file).textOf name.node) name).ValidIn p :=
  .global (h.hasNode hk (by decide)) rfl (Project.lookup_eq_none_of_resolveLocal? free)

theorem ofTarget_valid (h : p.Numbered) {target : Site}
    (hk : (p.tree target.file).kind target.node = .nameExpr) :
    (ofTarget p target).Gives (TypeSet.ValidIn p) (TypeSet.ValidIn p) := by
  refine .bind (.attempt (assigned_valid target)) fun types known => ?_
  split
  · exact .ofOption known
  · rename_i free
    have own := global_valid h hk free
    refine .pure ?_
    unfold withGlobal
    split
    · rename_i s
      split
      · exact .single own
      · exact .insert (known s rfl).valid own
    · exact .single own

theorem ofName_valid (h : p.Numbered) {name : Site}
    (hk : (p.tree name.file).kind name.node = .nameExpr) :
    (ofName p name).Gives (TypeSet.ValidIn p) (TypeSet.ValidIn p) := by
  unfold ofName
  split
  · rename_i undeclared
    exact .pure (.single (global_valid h hk (Option.or_eq_none_iff.mp undeclared).1))
  · rename_i d declared
    split
    · rename_i assigned
      exact ofTarget_valid h (Project.kind_of_resolve?_assignment declared assigned)
    · exact ofDeclaration_valid h d

theorem ofMember_valid (h : p.Numbered) (e : Site) :
    (ofMember p e).Gives (TypeSet.ValidIn p) (TypeSet.ValidIn p) :=
  .ofOption_bind fun _ _ => .ofOption_bind fun _ _ =>
    .bind (.infer _) fun _ _ => member_valid h _ _

theorem ofMethod_valid (h : p.Numbered) (e : Site) :
    (ofMethod p e).Gives (TypeSet.ValidIn p) (TypeSet.ValidIn p) :=
  .ofOption_bind fun _ _ => .bind (.infer _) fun _ _ =>
    .ofOption_bind fun _ _ => member_valid h _ _

theorem literalType?_valid {form : LiteralForm} {t : LuaType} (h : literalType? form = some t) :
    t.ValidIn p := by
  cases form <;> cases h <;> exact .named (by decide)

theorem ofValue_valid (h : p.Numbered) (value : Site) :
    (ofValue p value).Gives (TypeSet.ValidIn p) (TypeSet.ValidIn p) := by
  refine .guarded (.ofOption_bind fun form hform => ?_)
  cases form with
  | expr id => exact .infer _
  | member id => exact ofMember_valid h _
  | table id =>
    exact .pure (.single (.table (h.hasNode (Tree.kind_of_valueForm?_table hform) (by decide))))
  | literal id =>
    exact .ofOption_bind fun _ ht => .pure (.single (literalType?_valid ht))
  | closure id =>
    exact .ofOption_bind fun _ hb =>
      .pure (.single (.function (h.hasNode (Tree.kind_of_child? hb) (by decide))))

theorem binaryType?_valid {operator : String} {t : LuaType} (h : binaryType? operator = some t) :
    t.ValidIn p := by
  unfold binaryType? at h
  split_ifs at h <;> cases h <;> exact .named (by decide)

theorem unaryType?_valid {operator : String} {t : LuaType} (h : unaryType? operator = some t) :
    t.ValidIn p := by
  unfold unaryType? at h
  split_ifs at h <;> cases h <;> exact .named (by decide)

theorem operand_valid (e : Site) (id : Option NodeId) :
    (operand e id).Gives (TypeSet.ValidIn p) (TypeSet.ValidIn p) :=
  .ofOption_bind fun _ _ => .infer _

theorem joinKnown_valid {a b : Option TypeSet} (ha : ∀ s, a = some s → s.ValidIn p)
    (hb : ∀ s, b = some s → s.ValidIn p) : ∀ s, joinKnown a b = some s → s.ValidIn p := by
  intro s hs
  cases a with
  | none => exact hb s hs
  | some x =>
    cases b with
    | none => exact ha s hs
    | some y =>
      cases hs
      exact .union (ha x rfl) (hb y rfl)

theorem ofBinary_valid (e : Site) :
    (ofBinary p e).Gives (TypeSet.ValidIn p) (TypeSet.ValidIn p) := by
  unfold ofBinary
  dsimp only
  split
  · exact .bind (.attempt (operand_valid _ _)) fun _ hl =>
      .bind (.attempt (operand_valid _ _)) fun _ hr => .ofOption (joinKnown_valid hl hr)
  · exact .ofOption_bind fun _ ht => .pure (.single (binaryType?_valid ht))

theorem ofUnary_valid (e : Site) :
    (ofUnary p e).Gives (TypeSet.ValidIn p) (TypeSet.ValidIn p) :=
  .ofOption_bind fun _ ht => .pure (.single (unaryType?_valid ht))

theorem ofParen_valid (e : Site) :
    (ofParen p e).Gives (TypeSet.ValidIn p) (TypeSet.ValidIn p) :=
  .ofOption_bind fun _ _ => .infer _

/-- Told valid types, the plan of an expression answers with valid types. -/
theorem ofExpression_valid (h : p.Numbered) (e : Site) :
    (ofExpression p e).Gives (TypeSet.ValidIn p) (TypeSet.ValidIn p) := by
  unfold ofExpression
  split
  · exact ofValue_valid h e
  · exact ofCall_valid e
  · rename_i name
    exact ofName_valid h name
  · exact ofParen_valid e
  · exact ofMember_valid h e
  · exact ofMember_valid h e
  · exact ofMethod_valid h e
  · exact ofBinary_valid e
  · exact ofUnary_valid e
  · exact .unknown

end Plan

/-- What is inferred for an expression, under any guard, is valid in the project. -/
theorem inferExpression_valid {c : Context} (h : c.project.Numbered) (e : Site) (g : Guard)
    {types : TypeSet} (answer : (inferExpression c e g).1 = some types) :
    types.ValidIn c.project :=
  inferExpression_gives (Plan.ofExpression_valid h) e g types answer

/-- In a project of inserted files, whatever an expression is found to be under a guard is some
types, each of them once, and every type is valid in the project. -/
theorem inferred_types_valid {patterns : List String} {files : List (String × String)}
    {maxDepth : Nat} {e : Site} {g : Guard} {types : TypeSet}
    (answer : (inferExpression ⟨.ofFiles patterns files, maxDepth⟩ e g).1 = some types) :
    types.toList ≠ [] ∧ types.toList.Nodup ∧
      ∀ t ∈ types.toList, t.ValidIn (.ofFiles patterns files) := by
  have valid := inferExpression_valid (c := ⟨.ofFiles patterns files, maxDepth⟩)
    (Project.numbered_ofFiles patterns files) e g answer
  exact ⟨valid.nonempty, valid.nodup, valid.valid⟩

/-- A global variable that holds a table: both types are valid. -/
theorem inferred_types_valid_global :
    Context.infer ⟨.ofFiles [] [("a.lua", "x={}return x")], 8⟩ ⟨0, 7⟩ =
        some (.insert (.single (.table ⟨0, 2⟩)) (.global "x" ⟨0, 0⟩)) ∧
      ∀ t ∈ [LuaType.table ⟨0, 2⟩, .global "x" ⟨0, 0⟩],
        t.ValidIn (.ofFiles [] [("a.lua", "x={}return x")]) := by
  have answer : Context.infer ⟨.ofFiles [] [("a.lua", "x={}return x")], 8⟩ ⟨0, 7⟩ =
      some (.insert (.single (.table ⟨0, 2⟩)) (.global "x" ⟨0, 0⟩)) := by decide +kernel
  exact ⟨answer, (inferred_types_valid answer).2.2⟩

end LuaTyping
