import LuaTyping.Proofs.Scope.Respaced
import LuaTyping.Proofs.Infer.Made

/-!
# Spaces do not matter

Two projects whose files differ in the spaces between tokens have the same trees but for the spans,
and the same types, down to the sites in them.  The trees are made of the tokens alone.  Inference
compares offsets, but only through scopes and through the search for a global definition, and both
come out the same in respaced trees as long as every place has an offset of its own; so the two
projects are alike in all files.

* `SameTokens`, `Project.Respaced`.
* `SameTokens.tables`: texts with the same tokens have the same table but for the spans.
* `Project.Twins`: respaced projects whose offsets are exact.
* `Project.Twins.alike`: these are alike.
* `Project.same_of_respaced`: respaced projects have the same trees and the same types.
-/

namespace LuaTyping

/-! ## Texts -/

/-- The tokens of a text, each with its text. -/
def tokenTexts (text : String) : List (Token × String) :=
  (Lexed.ofText text).lexemes.toList.map fun x => (x.token, x.span.slice text)

/-- The texts have no comments, and the same tokens, whatever stands between them. -/
structure SameTokens (text text' : String) : Prop where
  bare : (Lexed.ofText text).comments = #[]
  bare' : (Lexed.ofText text').comments = #[]
  tokens : tokenTexts text = tokenTexts text'

namespace SameTokens

variable {text text' : String}

/-- The text of a token of a text that is cut into tokens. -/
theorem slice_token (text : String) (lexed : Lexed) {i : Nat} (inside : i < lexed.lexemes.size) :
    Span.slice (Layout.ofLexed text lexed).text
      ⟨(Layout.ofLexed text lexed).tokenStart i, (Layout.ofLexed text lexed).tokenStop i⟩
      = lexed.lexemes[i].span.slice text := by
  rw [Layout.tokenStart_of_lt (l := .ofLexed text lexed) inside,
    Layout.tokenStop_of_lt (l := .ofLexed text lexed) inside]
  rfl

theorem layouts (h : SameTokens text text') (small : text.utf8ByteSize < offsetCount)
    (small' : text'.utf8ByteSize < offsetCount) :
    (Layout.ofLexed text (Lexed.ofText text)).Respaced
      (Layout.ofLexed text' (Lexed.ofText text')) := by
  have size : (Lexed.ofText text).lexemes.size = (Lexed.ofText text').lexemes.size := by
    have lengths := congrArg List.length h.tokens
    rwa [tokenTexts, tokenTexts, List.length_map, List.length_map] at lengths
  refine ⟨Layout.faithful_ofLexed small, Layout.faithful_ofLexed small', h.bare, h.bare', size,
    fun i inside => ?_⟩
  have inside : i < (Lexed.ofText text).lexemes.size := inside
  have inside' := Nat.lt_of_lt_of_eq inside size
  have same := congrArg (·[i]?) h.tokens
  simp only [tokenTexts, List.getElem?_map, Array.getElem?_toList,
    Array.getElem?_eq_getElem inside, Array.getElem?_eq_getElem inside', Option.map_some,
    Option.some.injEq, Prod.mk.injEq] at same
  rw [slice_token text _ inside, slice_token text' _ inside', same.2]

theorem outlines (h : SameTokens text text') :
    ((Lexed.ofText text).lexemes.map Lexeme.token).toList
      = ((Lexed.ofText text').lexemes.map Lexeme.token).toList := by
  have same := congrArg (List.map Prod.fst) h.tokens
  rw [tokenTexts, tokenTexts, List.map_map, List.map_map] at same
  rw [Array.toList_map, Array.toList_map]
  exact same

/-- The tables of the texts are the same but for the places of the nodes. -/
theorem tables (h : SameTokens text text') :
    (Parsed.ofText text).tree.size = (Parsed.ofText text').tree.size ∧
      ∀ id, (Parsed.ofText text).tree.kind id = (Parsed.ofText text').tree.kind id ∧
        (Parsed.ofText text).tree.parent id = (Parsed.ofText text').tree.parent id ∧
        (Parsed.ofText text).tree.children id = (Parsed.ofText text').tree.children id := by
  obtain ⟨r, grows, bare, -⟩ := Parsed.realizes maxNesting text
  obtain ⟨r', grows', bare', -⟩ := Parsed.realizes maxNesting text'
  refine grows.same_of_bare_eq grows' ?_
  rw [bare, bare', ← h.outlines]
  exact Layout.bare_root h.bare h.bare' _

/-- The trees of the texts have the same nodes at the same marks. -/
theorem trees (h : SameTokens text text') (small : text.utf8ByteSize < offsetCount)
    (small' : text'.utf8ByteSize < offsetCount) :
    Tree.Twins (Layout.ofLexed text (Lexed.ofText text))
      (Layout.ofLexed text' (Lexed.ofText text')) (Parsed.ofText text).tree
      (Parsed.ofText text').tree := by
  obtain ⟨j, le, lies⟩ := Program.lies maxNesting
    ((Lexed.ofText text).lexemes.map Lexeme.token).toList
  rw [Array.length_toList, Array.size_map] at le
  have grows := Parsed.grows_root maxNesting small
  have grows' := Parsed.grows_root maxNesting small'
  rw [← h.outlines] at grows'
  exact ⟨(h.layouts small small').tree rfl rfl grows grows' ⟨0, j, lies, le⟩,
    Parsed.sorted_tree small, Parsed.sorted_tree small'⟩

end SameTokens

/-- Trees without nodes. -/
theorem Tree.twins_empty : ∃ l, Tree.Twins l l ⟨"", #[]⟩ ⟨"", #[]⟩ := by
  have same : SameTokens "" "" := ⟨by decide +kernel, by decide +kernel, rfl⟩
  have layouts := same.layouts (by decide) (by decide)
  have sorted : Tree.Sorted ⟨"", #[]⟩ := fun a => by
    rw [bindings_of_ge (Nat.zero_le a)]
    exact List.Pairwise.nil
  exact ⟨_, ⟨layouts, rfl, rfl, rfl, fun _ =>
    ⟨rfl, rfl, rfl, NodeKind.noConfusion, .inr (.inl rfl)⟩⟩, sorted, sorted⟩

/-! ## Projects -/

/-- The projects have the same patterns and the same paths in the same order, and corresponding
files have the same tokens. -/
structure Project.Respaced (p p' : Project) : Prop where
  patterns : p.patterns = p'.patterns
  size : p.size = p'.size
  paths : ∀ i f f', p.file? i = some f → p'.file? i = some f' → f.path = f'.path
  tokens : ∀ i f f', p.file? i = some f → p'.file? i = some f' → SameTokens f.text f'.text

/-- Every place of every file has an offset of its own. -/
def Project.Small (p : Project) : Prop :=
  ∀ i f, p.file? i = some f → f.text.utf8ByteSize < offsetCount

/-- Respaced projects that are made file by file, with an offset for every place. -/
structure Project.Twins (p p' : Project) : Prop extends p.Respaced p' where
  made : p.Made
  made' : p'.Made
  small : p.Small
  small' : p'.Small

namespace Project

variable {p p' : Project}

/-- The local declaration of a binding is known from what the binding declares. -/
theorem localDeclaration_eq {file : Nat} (kinds : (p.tree file).kind = (p'.tree file).kind)
    {b b' : Binding} (same : b.declared = b'.declared) :
    p.localDeclaration file b = p'.localDeclaration file b' := by
  have node : b.node = b'.node := congrArg Declared.node same
  have kind : b.kind = b'.kind := congrArg Declared.kind same
  unfold localDeclaration declaration
  rw [kinds, node, kind]

theorem globalDeclaration_eq {file : Nat} (kinds : (p.tree file).kind = (p'.tree file).kind)
    {d d' : GlobalDef} (node : d.node = d'.node) (kind : d.kind = d'.kind) :
    p.globalDeclaration file d = p'.globalDeclaration file d' := by
  unfold globalDeclaration declaration
  rw [kinds, node, kind]

/-- A global name has a definition in its own file or else in another one. -/
theorem resolveGlobal?_eq_or (p : Project) (s : Site) :
    p.resolveGlobal? s
      = ((nearestGlobal ((p.scopes s.file).globalsOf ((p.tree s.file).textOf s.node))
          ((p.tree s.file).start s.node)).map (p.globalDeclaration s.file)).or
        ((p.globalElsewhere? s.file ((p.tree s.file).textOf s.node)).map
          fun d => p.globalDeclaration d.1 d.2) := by
  unfold resolveGlobal?
  dsimp only
  split
  · rename_i found
    rw [found]
    rfl
  · rename_i found
    rw [found]
    rfl

theorem Made.map_files (made : p.Made) :
    p.files.toList.map (fun f => (f.id, f.path))
      = (List.range p.size).map fun i => (i, ((p.file? i).map SourceFile.path).getD "") := by
  rw [← made.stocked.numbered.map_id_files, List.map_map]
  refine List.map_congr_left fun f mem => ?_
  rw [Function.comp_apply, made.stocked.numbered.file?_id mem]
  rfl

namespace Respaced

/-- What is known of the files with a number. -/
theorem file_cases (h : p.Respaced p') (i : Nat) :
    (p.file? i = none ∧ p'.file? i = none) ∨
      ∃ f f', p.file? i = some f ∧ p'.file? i = some f' := by
  rcases Nat.lt_or_ge i p.size with inside | outside
  · have inside' : i < p'.files.size := Nat.lt_of_lt_of_eq inside h.size
    exact .inr ⟨_, _, Array.getElem?_eq_getElem inside, Array.getElem?_eq_getElem inside'⟩
  · have outside' : p'.files.size ≤ i := Nat.le_trans (Nat.le_of_eq h.size.symm) outside
    exact .inl ⟨Array.getElem?_eq_none outside, Array.getElem?_eq_none outside'⟩

/-- The tables of the files with a number. -/
theorem tables (h : p.Respaced p') (made : p.Made) (made' : p'.Made) (i : Nat) :
    (p.tree i).size = (p'.tree i).size ∧ ∀ id, (p.tree i).kind id = (p'.tree i).kind id ∧
      (p.tree i).parent id = (p'.tree i).parent id ∧
      (p.tree i).children id = (p'.tree i).children id := by
  rcases h.file_cases i with ⟨none, none'⟩ | ⟨f, f', found, found'⟩
  · rw [tree, tree, none, none']
    exact ⟨rfl, fun _ => ⟨rfl, rfl, rfl⟩⟩
  · rw [made.stocked.tree_eq found, made'.stocked.tree_eq found']
    exact (h.tokens i f f' found found').tables

end Respaced

namespace Twins

/-- The trees of the files with a number. -/
theorem trees (h : p.Twins p') (i : Nat) :
    ∃ l l', Tree.Twins l l' (p.tree i) (p'.tree i) := by
  rcases h.file_cases i with ⟨none, none'⟩ | ⟨f, f', found, found'⟩
  · obtain ⟨l, empty⟩ := Tree.twins_empty
    refine ⟨l, l, ?_⟩
    rw [tree, tree, none, none']
    exact empty
  · rw [h.made.stocked.tree_eq found, h.made'.stocked.tree_eq found']
    exact ⟨_, _, (h.tokens i f f' found found').trees (h.small i f found)
      (h.small' i f' found')⟩

theorem resolveLocal?_eq (h : p.Twins p') {s : Site}
    (is : p.kindAt s = .nameExpr) : p.resolveLocal? s = p'.resolveLocal? s := by
  obtain ⟨l, l', twins⟩ := h.trees s.file
  have bindings := twins.lookup_eq is (h.made.stocked.bindings_scopes s.file)
    (h.made'.stocked.bindings_scopes s.file) ((p.tree s.file).textOf s.node)
  rw [twins.alike.text_word is rfl] at bindings
  rw [resolveLocal?, resolveLocal?]
  rw [twins.alike.text_word is rfl]
  generalize (p.scopes s.file).lookup (p.tree s.file) s.node _ = b at bindings
  generalize (p'.scopes s.file).lookup (p'.tree s.file) s.node _ = b' at bindings
  cases b with
  | none =>
    cases b' with
    | none => rfl
    | some b' => exact absurd bindings (by simp)
  | some b =>
    cases b' with
    | none => exact absurd bindings (by simp)
    | some b' =>
      exact congrArg some (localDeclaration_eq twins.alike.kind_eq (Option.some.inj bindings))

/-- Definitions that correspond declare the same. -/
theorem globalDeclaration_eq_of_twins {i : Nat} {l l' : Layout}
    (twins : Tree.Twins l l' (p.tree i) (p'.tree i)) (d d' : GlobalDef)
    (same : GlobalDef.Respaced l l' d d') : p.globalDeclaration i d = p'.globalDeclaration i d' :=
  globalDeclaration_eq twins.alike.kind_eq same.node_eq same.kind_eq

theorem globalElsewhere?_eq (h : p.Twins p') (file : Nat)
    (name : String) :
    (p.globalElsewhere? file name).map (fun d => p.globalDeclaration d.1 d.2)
      = (p'.globalElsewhere? file name).map fun d => p'.globalDeclaration d.1 d.2 := by
  rw [h.made.stocked.numbered.globalElsewhere?_eq, h.made'.stocked.numbered.globalElsewhere?_eq,
    h.size, List.map_findSome?, List.map_findSome?]
  refine findSome?_congr fun i _ => ?_
  rw [Function.comp_apply, Function.comp_apply]
  split
  · rfl
  · obtain ⟨l, l', twins⟩ := h.trees i
    rw [Option.map_map, Option.map_map, h.made.stocked.scopes_eq, h.made'.stocked.scopes_eq]
    exact map_head?_eq (twins.globalsOf name) (globalDeclaration_eq_of_twins twins)

theorem resolveGlobal?_eq (h : p.Twins p') {s : Site}
    (is : p.kindAt s = .nameExpr) : p.resolveGlobal? s = p'.resolveGlobal? s := by
  obtain ⟨l, l', twins⟩ := h.trees s.file
  have isWord : ((p.tree s.file).kind s.node).isWord = true := by
    rw [kindAt] at is
    rw [is]
    rfl
  obtain ⟨i, token, span, span'⟩ := twins.word isWord
  rw [resolveGlobal?_eq_or, resolveGlobal?_eq_or, ← twins.alike.text_word is rfl,
    h.globalElsewhere?_eq, h.made.stocked.scopes_eq, h.made'.stocked.scopes_eq, Tree.start,
    span, Tree.start, span']
  congr 1
  exact Tree.Respaced.nearestGlobal_eq twins.layouts (twins.globalsOf _)
    (globalDeclaration_eq_of_twins twins) token

theorem alikeFiles (h : p.Twins p') :
    p.AlikeFiles (fun _ => True) p' where
  tree f _ := by
    obtain ⟨l, l', twins⟩ := h.trees f
    exact twins.alike
  members_eq f _ := by
    obtain ⟨l, l', twins⟩ := h.trees f
    rw [h.made.stocked.scopes_eq, h.made'.stocked.scopes_eq]
    exact twins.alike.members_eq
  resolveLocal?_eq _ _ is := h.resolveLocal?_eq is

theorem globalMember?_eq (h : p.Twins p')
    (global name : String) : p.globalMember? global name = p'.globalMember? global name := by
  have files := h.alikeFiles
  rw [h.made.stocked.numbered.globalMember?_eq, h.made'.stocked.numbered.globalMember?_eq, h.size]
  congr 1
  refine List.flatMap_congr fun i _ => ?_
  rw [files.memberDefs_eq trivial, files.memberSource?_eq trivial]

theorem require?_eq (h : p.Twins p') (module : String)
    (origin : Nat) : p.require? module origin = p'.require? module origin := by
  have paths (i : Nat) : (p.file? i).map SourceFile.path = (p'.file? i).map SourceFile.path := by
    rcases h.file_cases i with ⟨none, none'⟩ | ⟨f, f', found, found'⟩
    · rw [none, none']
    · rw [found, found', Option.map_some, Option.map_some, h.paths i f f' found found']
  rw [require?, require?, h.made.map_files, h.made'.map_files, h.patterns, h.size, paths origin]
  simp only [paths]

/-- Twins are alike in all files. -/
theorem alike (h : p.Twins p') :
    p.Alike (fun _ => True) p' where
  toAlikeFiles := h.alikeFiles
  resolveGlobal?_eq _ _ is := h.resolveGlobal?_eq is
  resolveGlobal?_near _ _ _ _ := trivial
  globalMember?_eq := h.globalMember?_eq
  globalMember?_near _ _ _ _ := trivial
  require?_eq module origin _ := h.require?_eq module origin
  require?_near _ _ _ _ _ := trivial

end Twins

/-- Projects whose files have the same tokens have the same tables of nodes, in kind, parent and
children, and if every place has an offset of its own, then every expression has the same types in
both. -/
theorem same_of_respaced (made : p.Made) (made' : p'.Made) (h : p.Respaced p') :
    (∀ file, (p.tree file).size = (p'.tree file).size ∧
      ∀ id, (p.tree file).kind id = (p'.tree file).kind id ∧
        (p.tree file).parent id = (p'.tree file).parent id ∧
        (p.tree file).children id = (p'.tree file).children id) ∧
      (p.Small → p'.Small →
        ∀ maxDepth e, Context.infer ⟨p, maxDepth⟩ e = Context.infer ⟨p', maxDepth⟩ e) := by
  refine ⟨h.tables made made', fun small small' maxDepth e => ?_⟩
  have twins : p.Twins p' := ⟨h, made, made', small, small'⟩
  exact twins.alike.infer_eq maxDepth trivial

/-- The second of two variables, with no space in front of it and with some. -/
theorem same_of_respaced_shadowed :
    Context.infer ⟨ofFiles [] [("a.lua", "local x = 1\nlocal x = { x }\n\nreturn x")], 8⟩ ⟨0, 15⟩
      = some (.single (.table ⟨0, 11⟩)) := by
  have only (text : String) (i : Nat) (f : SourceFile)
      (found : (ofFiles [] [("a.lua", text)]).file? i = some f) :
      f.path = normalizePath (normalizePath "a.lua") ∧ f.text = text := by
    have files : (ofFiles [] [("a.lua", text)]).files
        = #[.parse 0 (normalizePath "a.lua") text] := rfl
    rw [file?, files] at found
    obtain ⟨inside, rfl⟩ := Array.getElem?_eq_some_iff.mp found
    obtain rfl : i = 0 := Nat.lt_one_iff.mp inside
    exact ⟨rfl, rfl⟩
  have respaced : (ofFiles [] [("a.lua", "local x=1local x={x}return x")]).Respaced
      (ofFiles [] [("a.lua", "local x = 1\nlocal x = { x }\n\nreturn x")]) := by
    refine ⟨rfl, rfl, fun i f f' found found' => ?_, fun i f f' found found' => ?_⟩
    · rw [(only _ i f found).1, (only _ i f' found').1]
    · rw [(only _ i f found).2, (only _ i f' found').2]
      exact ⟨by decide +kernel, by decide +kernel, by decide +kernel⟩
  have small : (ofFiles [] [("a.lua", "local x=1local x={x}return x")]).Small := fun i f found => by
    rw [(only _ i f found).2]
    decide
  have small' : (ofFiles [] [("a.lua", "local x = 1\nlocal x = { x }\n\nreturn x")]).Small :=
    fun i f found => by
      rw [(only _ i f found).2]
      decide
  have same := (same_of_respaced (made_ofFiles _ _) (made_ofFiles _ _) respaced).2 small small'
    8 ⟨0, 15⟩
  exact same.symm.trans (by decide +kernel)

end Project

end LuaTyping
