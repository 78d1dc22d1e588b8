import LuaTyping.Proofs.Infer.Agree
import LuaTyping.Proofs.Infer.Alike

/-!
# Projects that are alike near some files

From one file inference comes to others in three ways: by a global variable, by a member that is
assigned to a global variable, and by `require`.  Take a set of files, the *near* ones, that are
alike in two projects.  If the three ways lead from near files to near files only, and to the same
places in both projects, then inference cannot tell the projects apart from where it starts near.

* `Project.Alike`: the two projects are alike near these files.
* `Project.Alike.ofExpression_agree`: the plans of near expressions agree.
* `Project.Alike.infer_eq`: near expressions have the same types.
-/

namespace LuaTyping

/-- A search in a list looks at the members of the list only. -/
theorem findSome?_congr {α β : Type} {f g : α → Option β} {as : List α}
    (h : ∀ a ∈ as, f a = g a) : as.findSome? f = as.findSome? g := by
  induction as with
  | nil => rfl
  | cons a as ih =>
    rw [List.findSome?_cons, List.findSome?_cons, h a List.mem_cons_self,
      ih fun b mem => h b (List.mem_cons_of_mem _ mem)]

/-- The place of a member. -/
def MemberSource.site : MemberSource → Site
  | value site => site
  | function site => site

/-- The type names a place in near files only. -/
def LuaType.Near (near : Nat → Prop) (t : LuaType) : Prop := ∀ s, t.site? = some s → near s.file

/-- All types of the set name places in near files only. -/
def TypeSet.Near (near : Nat → Prop) (s : TypeSet) : Prop := ∀ t ∈ s.toList, t.Near near

/-- Near files are alike in both projects: their trees, their definitions of members and their
local names. -/
structure Project.AlikeFiles (near : Nat → Prop) (p p' : Project) : Prop where
  tree : ∀ f, near f → (p.tree f).Alike (p'.tree f)
  members_eq : ∀ f, near f → (p.scopes f).members = (p'.scopes f).members
  resolveLocal?_eq : ∀ s, near s.file → p.kindAt s = .nameExpr →
    p.resolveLocal? s = p'.resolveLocal? s

/-- Near files are alike in both projects, and what leads out of a near file leads to the same
place of a near file in both. -/
structure Project.Alike (near : Nat → Prop) (p p' : Project) : Prop
    extends Project.AlikeFiles near p p' where
  resolveGlobal?_eq : ∀ s, near s.file → p.kindAt s = .nameExpr →
    p.resolveGlobal? s = p'.resolveGlobal? s
  resolveGlobal?_near : ∀ s d, near s.file → p.resolveGlobal? s = some d → near d.site.file
  globalMember?_eq : ∀ global name, p.globalMember? global name = p'.globalMember? global name
  globalMember?_near : ∀ global name source,
    p.globalMember? global name = some source → near source.site.file
  require?_eq : ∀ module f, near f → p.require? module f = p'.require? module f
  require?_near : ∀ module f g, near f → p.require? module f = some g → near g

variable {near : Nat → Prop}

/-! ## Near types -/

namespace TypeSet.Near

variable {a b : TypeSet} {t : LuaType}

theorem single (h : t.Near near) : (TypeSet.single t).Near near := by
  intro u mem
  rw [toList_single, List.mem_singleton] at mem
  rwa [mem]

theorem insert (ha : a.Near near) (ht : t.Near near) : (a.insert t).Near near := by
  intro u mem
  rcases mem_insert.mp mem with mem | rfl
  · exact ha u mem
  · exact ht

theorem union (a b : TypeSet) (ha : a.Near near) (hb : b.Near near) : (a.union b).Near near := by
  intro u mem
  exact (mem_union.mp mem).elim (ha u) (hb u)

theorem joinKnown {a b : Option TypeSet} (ha : ∀ s, a = some s → s.Near near)
    (hb : ∀ s, b = some s → s.Near near) : ∀ s, joinKnown a b = some s → s.Near near := by
  intro s hs
  cases a with
  | none => exact hb s hs
  | some x =>
    cases b with
    | none => exact ha s hs
    | some y =>
      cases hs
      exact union x y (ha x rfl) (hb y rfl)

end TypeSet.Near

namespace LuaType

theorem near_named (near : Nat → Prop) (name : String) : (named name).Near near :=
  fun _ none => absurd none (by simp [site?])

theorem near_table {s : Site} (h : near s.file) : (table s).Near near := by
  rintro _ ⟨⟩
  exact h

theorem near_global {name : String} {s : Site} (h : near s.file) :
    («global» name s).Near near := by
  rintro _ ⟨⟩
  exact h

theorem near_function {s : Site} (h : near s.file) : (function s).Near near := by
  rintro _ ⟨⟩
  exact h

end LuaType

/-- What is valid in every project names no place. -/
theorem TypeSet.near_of_valid {s : TypeSet} (h : ∀ p, s.ValidIn p) : s.Near near := by
  intro t mem
  have nowhere (s : Site) (kind : NodeKind) : ¬(Project.empty []).HasNode s kind := by
    rintro ⟨f, found, -⟩
    simp [Project.empty, Project.file?] at found
  obtain _ | ⟨node⟩ | ⟨node⟩ | ⟨node⟩ := (h (.empty [])).valid t mem
  · exact LuaType.near_named near _
  · exact absurd node (nowhere _ _)
  · exact absurd node (nowhere _ _)
  · exact absurd node (nowhere _ _)

/-! ## Resolution -/

namespace Project

variable {p p' : Project}

/-- A declaration of a known kind has checked the kind of its node. -/
theorem kind_of_declaration {file node : Nat} {expected : NodeKind} {kind known : DeclarationKind}
    (h : (p.declaration file node expected kind).kind = known) (hk : known ≠ .other) :
    kind = known ∧ (p.tree file).kind node = expected := by
  unfold declaration at h
  dsimp only at h
  split at h
  · rename_i is
    exact ⟨h, is⟩
  · exact absurd h.symm hk

/-- Only a parameter is declared as one. -/
theorem kind_of_resolve?_param {s : Site} {d : Declaration} (h : p.resolve? s = some d)
    (hd : d.kind = .param) : (p.tree d.site.file).kind d.site.node = .paramDef := by
  have notGlobal (file : Nat) (g : GlobalDef) : (p.globalDeclaration file g).kind ≠ .param := by
    intro kind
    unfold globalDeclaration at kind
    split at kind <;> exact absurd (kind_of_declaration kind (by decide)).1 (by decide)
  rcases Option.or_eq_some_iff.mp h with h | ⟨-, h⟩
  · obtain ⟨b, -, rfl⟩ := Option.map_eq_some_iff.mp h
    unfold localDeclaration at hd ⊢
    split at hd
    case h_2 => exact (kind_of_declaration hd (by decide)).2
    all_goals exact absurd (kind_of_declaration hd (by decide)).1 (by decide)
  · unfold resolveGlobal? at h
    dsimp only at h
    split at h
    · cases h
      exact absurd hd (notGlobal _ _)
    · obtain ⟨g, -, rfl⟩ := Option.map_eq_some_iff.mp h
      exact absurd hd (notGlobal _ _)

/-- A local declaration is in the file of the name. -/
theorem file_of_resolveLocal? {s : Site} {d : Declaration} (h : p.resolveLocal? s = some d) :
    d.site.file = s.file := by
  obtain ⟨b, -, rfl⟩ := Option.map_eq_some_iff.mp h
  unfold localDeclaration
  split <;> rfl

/-! ## Members -/

/-- The source of a definition is in the file of the definition. -/
theorem file_of_memberSource? {file : Nat} {d : MemberDef} {source : MemberSource}
    (found : p.memberSource? file d = some source) : source.site.file = file := by
  unfold memberSource? at found
  split at found <;>
    (obtain ⟨id, -, rfl⟩ := Option.map_eq_some_iff.mp found; rfl)

theorem file_of_tableMember? {table : Site} {name : String} {source : MemberSource}
    (found : p.tableMember? table name = some source) : source.site.file = table.file := by
  have written (found : p.writtenMember? table name = some source) :
      source.site.file = table.file := by
    obtain ⟨f, -, found⟩ := Option.bind_eq_some_iff.mp found
    obtain ⟨v, -, rfl⟩ := Option.map_eq_some_iff.mp found
    rfl
  unfold tableMember? at found
  dsimp only at found
  split at found
  · exact written found
  · rcases Option.or_eq_some_iff.mp found with found | ⟨-, found⟩
    · obtain ⟨d, -, found⟩ := Option.bind_eq_some_iff.mp found
      exact file_of_memberSource? found
    · exact written found

namespace AlikeFiles

theorem kindAt_eq (h : p.AlikeFiles near p') {s : Site} (hs : near s.file) :
    p.kindAt s = p'.kindAt s := by
  rw [kindAt, kindAt, (h.tree _ hs).kind_eq]

theorem tableVariable?_eq (h : p.AlikeFiles near p') {table : Site} (hs : near table.file) :
    p.tableVariable? table = p'.tableVariable? table := by
  have t := h.tree _ hs
  rw [tableVariable?, tableVariable?, ← t.parent_eq, ← t.cast?_eq, ← t.exprs_eq, ← t.kind_eq,
    ← t.listedNames_eq, ← t.targets_eq]
  refine Option.bind_congr fun value _ => Option.bind_congr fun list _ =>
    Option.bind_congr fun index _ => Option.bind_congr fun stat _ => ?_
  split
  · rfl
  · refine Option.bind_congr fun target found => ?_
    obtain ⟨d, -, cast⟩ := Option.bind_eq_some_iff.mp found
    have name := Tree.kind_of_cast? cast
    rw [← h.resolveLocal?_eq (table.sibling target) hs name, t.text_word name rfl]
  · rfl

theorem isNamedBy_eq (h : p.AlikeFiles near p') (v : Variable) {base : Site} (hs : near base.file)
    (name : p.kindAt base = .nameExpr) : p.isNamedBy v base = p'.isNamedBy v base := by
  have text := (h.tree _ hs).text_word name rfl
  unfold isNamedBy
  rw [← h.resolveLocal?_eq base hs name, ← text]

theorem memberDefs_eq (h : p.AlikeFiles near p') {file : Nat} (hs : near file) (v : Variable)
    (name : String) : p.memberDefs file v name = p'.memberDefs file v name := by
  rw [memberDefs, memberDefs, ← h.members_eq file hs, ← (h.tree file hs).kind_eq]
  refine List.filter_congr fun d _ => ?_
  by_cases isName : (p.tree file).kind d.base = .nameExpr
  · have same : p.isNamedBy v ⟨file, d.base⟩ = p'.isNamedBy v ⟨file, d.base⟩ :=
      h.isNamedBy_eq v hs isName
    rw [same]
  · rw [beq_false_of_ne isName, Bool.and_false, Bool.false_and, Bool.false_and]

theorem memberSource?_eq (h : p.AlikeFiles near p') {file : Nat} (hs : near file) :
    p.memberSource? file = p'.memberSource? file := by
  funext d
  rw [memberSource?, memberSource?, (h.tree file hs).expr?_eq, (h.tree file hs).cast?_eq]

theorem tableMember?_eq (h : p.AlikeFiles near p') {table : Site} (hs : near table.file)
    (name : String) : p.tableMember? table name = p'.tableMember? table name := by
  have t := h.tree _ hs
  have written : p.writtenMember? table name = p'.writtenMember? table name := by
    rw [writtenMember?, writtenMember?, Tree.tableFields, Tree.tableFields, t.childrenOf_eq,
      t.fieldKey?_eq, t.fieldValue?_eq]
  rw [tableMember?, tableMember?, ← h.tableVariable?_eq hs, written, ← h.memberSource?_eq hs]
  cases p.tableVariable? table with
  | none => rfl
  | some v => simp only [h.memberDefs_eq hs v name]

end AlikeFiles

namespace Alike

theorem resolve?_eq (h : p.Alike near p') {s : Site} (hs : near s.file)
    (name : p.kindAt s = .nameExpr) : p.resolve? s = p'.resolve? s := by
  rw [resolve?, resolve?, h.resolveLocal?_eq s hs name, h.resolveGlobal?_eq s hs name]

theorem resolve?_near (h : p.Alike near p') {s : Site} {d : Declaration} (hs : near s.file)
    (found : p.resolve? s = some d) : near d.site.file := by
  rcases Option.or_eq_some_iff.mp found with found | ⟨-, found⟩
  · rwa [file_of_resolveLocal? found]
  · exact h.resolveGlobal?_near s d hs found

theorem findMember?_eq (h : p.Alike near p') {type : LuaType} (ht : type.Near near)
    (name : String) : p.findMember? type name = p'.findMember? type name := by
  cases type with
  | table site =>
    rw [findMember?, findMember?, h.kindAt_eq (ht site rfl), h.tableMember?_eq (ht site rfl)]
  | «global» global site => exact h.globalMember?_eq global name
  | named name => rfl
  | function site => rfl

theorem findMember?_near (h : p.Alike near p') {type : LuaType} (ht : type.Near near)
    {name : String} {source : MemberSource} (found : p.findMember? type name = some source) :
    near source.site.file := by
  cases type with
  | table site =>
    rw [findMember?] at found
    split at found
    · rw [file_of_tableMember? found]
      exact ht site rfl
    · cases found
  | «global» global site => exact h.globalMember?_near global name source found
  | named name => cases found
  | function site => cases found

end Alike

end Project

/-! ## Plans -/

namespace Project.Alike

open Plan

variable {p p' : Project}

/-- Plans that agree near: told near types, they answer with near types. -/
abbrev Agrees (near : Nat → Prop) (a b : Plan TypeSet) : Prop :=
  Plan.Agree (fun e => near e.file) (TypeSet.Near near) (TypeSet.Near near) a b

theorem ofFunction_agree (h : p.Alike near p') {stat : Site} (hs : near stat.file) :
    Agrees near (ofFunction p stat) (ofFunction p' stat) := by
  unfold ofFunction Tree.body?
  rw [← (h.tree _ hs).child?_eq]
  exact .ofOption_bind fun body _ => .pure (.single (LuaType.near_function hs))

/-- A type that a doc comment gives is near everywhere. -/
theorem near_of_taggedType? {t : Tree} {c : Option NodeId} {types : TypeSet}
    (tagged : c.bind t.taggedType? = some types) : types.Near near := by
  obtain ⟨comment, -, tagged⟩ := Option.bind_eq_some_iff.mp tagged
  exact Tree.firstTag?_of_forall
    (fun _ _ read => TypeSet.near_of_valid fun p => DocTag.variableTypes?_valid p read) tagged

theorem ofVariable_agree (h : p.Alike near p') {name : Site} (hs : near name.file) :
    Agrees near (ofVariable p name) (ofVariable p' name) := by
  have t := h.tree _ hs
  unfold ofVariable
  refine .guarded ?_
  dsimp only
  rw [← t.introducedBy?_eq]
  refine .ofOption_bind fun stat _ => ?_
  rw [← t.kind_eq, ← t.bind_taggedType?_eq, ← t.valueAt?_eq, ← t.nameIndex_eq]
  split
  · split
    · rename_i types tagged
      exact .pure (near_of_taggedType? tagged)
    · exact .ofOption_bind fun value _ => .infer hs
  · exact .pure (.single (LuaType.near_named near _))
  · exact .unknown

theorem ofParam_agree (h : p.Alike near p') {param : Site} (hs : near param.file)
    (kind : p.kindAt param = .paramDef) :
    Agrees near (ofParam p param) (ofParam p' param) := by
  have t := h.tree _ hs
  have same : (((p.tree param.file).paramFunction? param.node).bind
        (p.tree param.file).functionComment?).bind (fun comment =>
        (p.tree param.file).taggedParam? comment ((p.tree param.file).textOf param.node))
      = (((p'.tree param.file).paramFunction? param.node).bind
        (p'.tree param.file).functionComment?).bind (fun comment =>
        (p'.tree param.file).taggedParam? comment ((p'.tree param.file).textOf param.node)) := by
    rw [← t.paramFunction?_eq, ← t.functionComment?_eq,
      ← t.text_word kind rfl]
    refine Option.bind_congr fun comment found => ?_
    obtain ⟨body, -, found⟩ := Option.bind_eq_some_iff.mp found
    exact t.firstTag?_eq (Tree.Alike.kind_of_functionComment? found) _
  unfold ofParam
  dsimp only
  rw [← same]
  refine .ofOption fun types tagged => ?_
  obtain ⟨comment, -, tagged⟩ := Option.bind_eq_some_iff.mp tagged
  exact Tree.firstTag?_of_forall
    (fun _ _ read => TypeSet.near_of_valid fun p => DocTag.paramTypes?_valid p read) tagged

theorem memberOf_agree (h : p.Alike near p') (name : String) {type : LuaType}
    (ht : type.Near near) : Agrees near (memberOf p name type) (memberOf p' name type) := by
  unfold memberOf
  rw [← h.findMember?_eq ht]
  split
  · rename_i found
    exact .infer (h.findMember?_near ht found)
  · rename_i found
    exact .pure (.single (LuaType.near_function (h.findMember?_near ht found)))
  · exact .unknown

theorem member_agree (h : p.Alike near p') {owner : TypeSet} (ho : owner.Near near)
    (name : String) : Agrees near (member p owner name) (member p' owner name) :=
  .bind (.joinAll TypeSet.Near.union fun _ mem => h.memberOf_agree name (ho _ mem))
    fun _ hr => .ofOption hr

theorem ofFields_agree (h : p.Alike near p') {types : TypeSet} (ht : types.Near near)
    (names : List String) : Agrees near (ofFields p types names) (ofFields p' types names) := by
  induction names generalizing types with
  | nil => exact .pure ht
  | cons name names ih => exact .bind (h.member_agree ht name) fun _ hs => ih hs

theorem ofSelf_agree (h : p.Alike near p') {method : Site} (hs : near method.file) :
    Agrees near (ofSelf p method) (ofSelf p' method) := by
  have t := h.tree _ hs
  unfold ofSelf Tree.funcName? Tree.nameBase?
  refine .guarded ?_
  dsimp only
  rw [← t.child?_eq, ← t.nameFields_eq]
  exact .ofOption_bind fun name _ => .ofOption_bind fun base _ =>
    .bind (.infer hs) fun types ht => h.ofFields_agree ht _

theorem ofReturn_agree (h : p.Alike near p') {body : Site} (hs : near body.file) :
    Agrees near (ofReturn p body) (ofReturn p' body) := by
  have t := h.tree _ hs
  unfold ofReturn
  refine .guarded ?_
  dsimp only
  rw [← t.bind_taggedReturn?_eq, ← t.returnStats_eq, ← t.valueAt?_eq]
  split
  · rename_i types tagged
    obtain ⟨comment, -, tagged⟩ := Option.bind_eq_some_iff.mp tagged
    exact .pure (Tree.firstTag?_of_forall
      (fun _ _ read => TypeSet.near_of_valid fun p => DocTag.returnTypes?_valid p read) tagged)
  · exact .bind (.joinAll TypeSet.Near.union fun _ _ => .infer hs) fun _ hr => .ofOption hr

theorem ofFile_agree (h : p.Alike near p') {file : Nat} (hs : near file) :
    Agrees near (ofFile p file) (ofFile p' file) := by
  have t := h.tree _ hs
  unfold ofFile Tree.block? Tree.blockReturn?
  dsimp only
  rw [← t.root_eq, ← t.child?_eq, ← t.valueAt?_eq]
  exact .guarded (.ofOption_bind fun value _ => .infer hs)

theorem functionBody?_eq (h : p.Alike near p') {type : LuaType} (ht : type.Near near) :
    p.functionBody? type = p'.functionBody? type := by
  cases type with
  | function site => rw [functionBody?, functionBody?, h.kindAt_eq (ht site rfl)]
  | _ => rfl

/-- The body of a function type is where the type says. -/
theorem site?_of_functionBody? {type : LuaType} {body : Site}
    (found : p.functionBody? type = some body) : type.site? = some body := by
  cases type with
  | function site =>
    rw [functionBody?] at found
    split at found
    · exact found
    · cases found
  | _ => cases found

theorem callTarget_agree (h : p.Alike near p') {call : Site} (hs : near call.file) :
    Plan.Agree (fun e => near e.file) (TypeSet.Near near) (fun body => near body.file)
      (Plan.callTarget p call) (Plan.callTarget p' call) := by
  unfold Plan.callTarget Tree.callee?
  rw [← (h.tree _ hs).exprAt?_eq]
  refine .ofOption_bind fun callee _ => .bind (.infer hs) fun types ht => ?_
  have same : types.toList.findSome? p.functionBody? = types.toList.findSome? p'.functionBody? :=
    findSome?_congr fun type mem => h.functionBody?_eq (ht type mem)
  rw [← same]
  refine .ofOption fun body found => ?_
  obtain ⟨type, mem, found⟩ := List.exists_of_findSome?_eq_some found
  exact ht type mem body (site?_of_functionBody? found)

theorem ofCall_agree (h : p.Alike near p') {call : Site} (hs : near call.file) :
    Agrees near (ofCall p call) (ofCall p' call) := by
  have required : p.requiredFile? call = p'.requiredFile? call := by
    rw [requiredFile?, requiredFile?, ← (h.tree _ hs).requireTarget?_eq]
    exact Option.bind_congr fun module _ => h.require?_eq module _ hs
  unfold ofCall
  rw [← required]
  split
  · rename_i file found
    obtain ⟨module, -, found⟩ := Option.bind_eq_some_iff.mp found
    exact h.ofFile_agree (h.require?_near module _ file hs found)
  · exact .bind (h.callTarget_agree hs) fun body hb => h.ofReturn_agree hb

theorem assigned_agree (h : p.Alike near p') {target : Site} (hs : near target.file) :
    Agrees near (assigned p target) (assigned p' target) := by
  have t := h.tree _ hs
  unfold assigned
  dsimp only
  rw [← t.assignmentOf?_eq]
  refine .ofOption_bind fun stat _ => ?_
  rw [← t.bind_taggedType?_eq, ← t.valueAt?_eq]
  split
  · rename_i types tagged
    exact .pure (near_of_taggedType? tagged)
  · exact .ofOption_bind fun value _ => .infer hs

/-- The types of a global target are near if the target is. -/
theorem near_withGlobal {types : Option TypeSet} {global : LuaType}
    (known : ∀ s, types = some s → s.Near near) (hg : global.Near near) :
    (withGlobal types global).Near near := by
  unfold withGlobal
  split
  · rename_i s
    split
    · exact .single hg
    · exact .insert (known s rfl) hg
  · exact .single hg

theorem ofTarget_agree (h : p.Alike near p') {target : Site} (hs : near target.file)
    (name : p.kindAt target = .nameExpr) :
    Agrees near (ofTarget p target) (ofTarget p' target) := by
  have text := (h.tree _ hs).text_word name rfl
  refine .bind (.attempt (h.assigned_agree hs)) fun types known => ?_
  dsimp only
  rw [← h.resolveLocal?_eq target hs name, ← text]
  split
  · exact .ofOption known
  · exact .pure (near_withGlobal known (LuaType.near_global hs))

theorem ofDeclaration_agree (h : p.Alike near p') {d : Declaration} (hs : near d.site.file)
    (param : d.kind = .param → p.kindAt d.site = .paramDef) :
    Agrees near (ofDeclaration p d) (ofDeclaration p' d) := by
  unfold ofDeclaration
  split
  · exact h.ofVariable_agree hs
  · rename_i kind
    exact h.ofParam_agree hs (param kind)
  · exact h.ofFunction_agree hs
  · exact h.ofFunction_agree hs
  · exact h.ofSelf_agree hs
  · exact .unknown
  · exact .unknown

theorem ofName_agree (h : p.Alike near p') {name : Site} (hs : near name.file)
    (kind : p.kindAt name = .nameExpr) : Agrees near (ofName p name) (ofName p' name) := by
  have text := (h.tree _ hs).text_word kind rfl
  unfold ofName
  rw [← h.resolve?_eq hs kind, ← text]
  split
  · exact .pure (.single (LuaType.near_global hs))
  · rename_i d found
    have hd := h.resolve?_near hs found
    split
    · rename_i assignment
      exact h.ofTarget_agree hd (kind_of_resolve?_assignment found assignment)
    · exact h.ofDeclaration_agree hd (kind_of_resolve?_param found)

theorem ofMember_agree (h : p.Alike near p') {e : Site} (hs : near e.file) :
    Agrees near (ofMember p e) (ofMember p' e) := by
  have t := h.tree _ hs
  unfold ofMember Tree.owner?
  dsimp only
  rw [← t.keyName?_eq, ← t.exprAt?_eq]
  exact .ofOption_bind fun key _ => .ofOption_bind fun owner _ =>
    .bind (.infer hs) fun types ht => h.member_agree ht key

theorem ofMethod_agree (h : p.Alike near p') {e : Site} (hs : near e.file) :
    Agrees near (ofMethod p e) (ofMethod p' e) := by
  have t := h.tree _ hs
  unfold ofMethod Tree.owner?
  dsimp only
  rw [← t.nameText?_eq, ← t.exprAt?_eq]
  exact .ofOption_bind fun owner _ => .bind (.infer hs) fun types ht =>
    .ofOption_bind fun name _ => h.member_agree ht name

theorem near_literalType? {form : LiteralForm} {t : LuaType} (found : literalType? form = some t) :
    t.Near near := by
  cases form <;> cases found <;> exact LuaType.near_named near _

theorem ofValue_agree (h : p.Alike near p') {value : Site} (hs : near value.file) :
    Agrees near (ofValue p value) (ofValue p' value) := by
  have t := h.tree _ hs
  unfold ofValue Tree.closureBody?
  refine .guarded ?_
  dsimp only
  rw [← t.valueForm?_eq, ← t.child?_eq]
  refine .ofOption_bind fun form found => ?_
  cases form with
  | expr id => exact .infer hs
  | member id => exact h.ofMember_agree hs
  | table id => exact .pure (.single (LuaType.near_table hs))
  | literal id =>
    simp only [← t.literalForm_eq found]
    exact .ofOption_bind fun type ht => .pure (.single (near_literalType? ht))
  | closure id =>
    exact .ofOption_bind fun body _ => .pure (.single (LuaType.near_function hs))

theorem near_binaryType? {operator : String} {t : LuaType}
    (found : binaryType? operator = some t) : t.Near near := by
  unfold binaryType? at found
  split_ifs at found <;> cases found <;> exact LuaType.near_named near _

theorem near_unaryType? {operator : String} {t : LuaType}
    (found : unaryType? operator = some t) : t.Near near := by
  unfold unaryType? at found
  split_ifs at found <;> cases found <;> exact LuaType.near_named near _

theorem operand_agree {e : Site} (hs : near e.file) (id : Option NodeId) :
    Agrees near (operand e id) (operand e id) :=
  .ofOption_bind fun _ _ => .infer hs

theorem ofBinary_agree (h : p.Alike near p') {e : Site} (hs : near e.file) :
    Agrees near (ofBinary p e) (ofBinary p' e) := by
  have t := h.tree _ hs
  unfold ofBinary Tree.leftOperand? Tree.rightOperand?
  dsimp only
  rw [← t.operatorText_eq, ← t.exprAt?_eq]
  split
  · exact .bind (.attempt (operand_agree hs _)) fun left hl =>
      .bind (.attempt (operand_agree hs _)) fun right hr =>
        .ofOption (TypeSet.Near.joinKnown hl hr)
  · exact .ofOption_bind fun type ht => .pure (.single (near_binaryType? ht))

theorem ofUnary_agree (h : p.Alike near p') {e : Site} (hs : near e.file) :
    Agrees near (ofUnary p e) (ofUnary p' e) := by
  unfold ofUnary
  dsimp only
  rw [← (h.tree _ hs).operatorText_eq]
  exact .ofOption_bind fun type ht => .pure (.single (near_unaryType? ht))

theorem ofParen_agree (h : p.Alike near p') {e : Site} (hs : near e.file) :
    Agrees near (ofParen p e) (ofParen p' e) := by
  unfold ofParen
  rw [← (h.tree _ hs).parenInner?_eq]
  exact .ofOption_bind fun inner _ => .infer hs

/-- The plans of a near expression agree. -/
theorem ofExpression_agree (h : p.Alike near p') {e : Site} (hs : near e.file) :
    Agrees near (ofExpression p e) (ofExpression p' e) := by
  unfold ofExpression
  rw [← h.kindAt_eq hs]
  split
  · exact h.ofValue_agree hs
  · exact h.ofCall_agree hs
  · rename_i name
    exact h.ofName_agree hs name
  · exact h.ofParen_agree hs
  · exact h.ofMember_agree hs
  · exact h.ofMember_agree hs
  · exact h.ofMethod_agree hs
  · exact h.ofBinary_agree hs
  · exact h.ofUnary_agree hs
  · exact .unknown

/-- Near expressions have the same types in both projects. -/
theorem infer_eq (h : p.Alike near p') (maxDepth : Nat) {e : Site} (hs : near e.file) :
    Context.infer ⟨p, maxDepth⟩ e = Context.infer ⟨p', maxDepth⟩ e :=
  Context.infer_eq (fun e => near e.file) (fun _ hs => h.ofExpression_agree hs) maxDepth hs

end Project.Alike

end LuaTyping
