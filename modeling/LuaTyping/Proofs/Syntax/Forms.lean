import LuaTyping.Proofs.Syntax.Sketch
import LuaTyping.Proofs.Syntax.Abstract

/-!
# The forms as groups

What the phrases of expressions and statements have in common, whatever their form: they are groups
with at least one word, lists of them are rows, and their outlines begin and end with their words.
-/

namespace LuaTyping

open Phrase (key value ofName leaf exprList Spans commaTail commaList)

/-! ## The phrases of the forms are groups -/

theorem Exp.phrases_eq_map (es : List Exp) : Exp.phrases es = es.map Exp.phrase := by
  induction es with
  | nil => rfl
  | cons e es ih => rw [Exp.phrases, ih, List.map_cons]

theorem Suffixed.phrases_eq_map (es : List Suffixed) :
    Suffixed.phrases es = es.map Suffixed.phrase := by
  induction es with
  | nil => rfl
  | cons e es ih => rw [Suffixed.phrases, ih, List.map_cons]

theorem Stat.phrases_eq_map (ss : List Stat) : Stat.phrases ss = ss.map Stat.phrase := by
  induction ss with
  | nil => rfl
  | cons s ss ih => rw [Stat.phrases, ih, List.map_cons]

/-- A group that is neither statement nor block is plain if its first part has a word. -/
theorem Phrase.plain_group {kind : NodeKind} {p : Phrase} {ps : List Phrase}
    (notStat : kind.isStatement = false) (notBlock : kind ≠ .block) (head : 0 < p.words.length) :
    (Phrase.group kind (p :: ps)).Plain :=
  ⟨notStat, notBlock, by rw [Phrase.count_cons]; omega⟩

theorem Phrase.isStatement_group {kind : NodeKind} {p : Phrase} {ps : List Phrase}
    (stat : kind.isStatement = true) (head : 0 < p.words.length) :
    (Phrase.group kind (p :: ps)).IsStatement :=
  ⟨stat, by rw [Phrase.count_cons]; omega⟩

theorem Phrase.leaf_plain {kind : NodeKind} (w : Word) (notStat : kind.isStatement = false)
    (notBlock : kind ≠ .block) : (leaf kind w).Plain :=
  Phrase.plain_group notStat notBlock Nat.one_pos

theorem Phrase.Plain.words_pos {p : Phrase} (h : p.Plain) : 0 < p.words.length := by
  cases p with
  | word => exact absurd h id
  | group => exact h.2.2

theorem Suffixed.plain : (e : Suffixed) → e.phrase.Plain
  | .name _ => Phrase.plain_group rfl (by decide) Nat.one_pos
  | .paren _ => Phrase.plain_group rfl (by decide) Nat.one_pos
  | .field e _ => Phrase.plain_group rfl (by decide) e.plain.words_pos
  | .index e _ => Phrase.plain_group rfl (by decide) e.plain.words_pos
  | .call e _ => Phrase.plain_group rfl (by decide) e.plain.words_pos
  | .method e _ _ =>
    have inner : (Phrase.group .methodExpr [e.phrase, key .colon, _]).Plain :=
      Phrase.plain_group rfl (by decide) e.plain.words_pos
    Phrase.plain_group rfl (by decide) inner.words_pos

theorem Exp.plain : (e : Exp) → e.phrase.Plain
  | .literal _ => Phrase.plain_group rfl (by decide) Nat.one_pos
  | .table fields =>
    have inner : (Phrase.tableOf fields.phrases).Plain :=
      Phrase.plain_group rfl (by decide) Nat.one_pos
    Phrase.plain_group rfl (by decide) inner.words_pos
  | .function params body =>
    have inner : (Phrase.group .closureExpr
        [key .functionKw, .funcBody params (Stat.phrases body)]).Plain :=
      Phrase.plain_group rfl (by decide) Nat.one_pos
    Phrase.plain_group rfl (by decide) inner.words_pos
  | .suffixed e => Phrase.plain_group rfl (by decide) e.plain.words_pos
  | .unary _ _ => Phrase.plain_group rfl (by decide) Nat.one_pos
  | .binary left _ _ => Phrase.plain_group rfl (by decide) left.plain.words_pos

theorem Fields.plain (fs : Fields) : (Phrase.tableOf fs.phrases).Plain :=
  Phrase.plain_group rfl (by decide) Nat.one_pos

theorem Field.plain (f : Field) : f.phrase.Plain := by
  cases f with
  | positional v => exact Phrase.plain_group rfl (by decide) v.plain.words_pos
  | _ => exact Phrase.plain_group rfl (by decide) Nat.one_pos

theorem Args.plain (args : Args) : args.phrase.Plain := by
  cases args with
  | list es => exact Phrase.plain_group rfl (by decide) Nat.one_pos
  | table fields =>
    have inner : (value (Phrase.tableOf fields.phrases)).Plain :=
      Phrase.plain_group rfl (by decide) fields.plain.words_pos
    exact Phrase.plain_group rfl (by decide) inner.words_pos
  | string text => exact Phrase.plain_group rfl (by decide) Nat.one_pos

theorem Stat.isStatement (s : Stat) : s.phrase.IsStatement := by
  cases s with
  | assign target targets trailing e es =>
    have inner : (Phrase.group .varList
        (commaList (target.phrase :: Suffixed.phrases targets))).Plain :=
      Phrase.plain_group rfl (by decide) target.plain.words_pos
    exact Phrase.isStatement_group rfl inner.words_pos
  | call e args => exact Phrase.isStatement_group rfl (Suffixed.call e args).plain.words_pos
  | methodCall e n args =>
    exact Phrase.isStatement_group rfl (Suffixed.method e n args).plain.words_pos
  | _ => exact Phrase.isStatement_group rfl Nat.one_pos

/-! ## Lists of forms -/

theorem commaTail_map {α : Type} (f : α → Phrase) (xs : List α) :
    commaTail (xs.map f) = xs.flatMap fun x => [key .comma, f x] := by
  induction xs with
  | nil => rfl
  | cons x xs ih => rw [List.map_cons, commaTail, ih, List.flatMap_cons]; rfl

theorem commaTail_eq {ps : List Phrase} (ne : ps ≠ []) :
    commaTail ps = key .comma :: commaList ps := by
  cases ps with
  | nil => exact absurd rfl ne
  | cons p ps => rfl

theorem row_commaExprs (e : Exp) (es : List Exp) :
    Phrase.Row (commaList (e.phrase :: Exp.phrases es)) := by
  cases es with
  | nil => exact .last e.plain.solid
  | cons e' es =>
    refine .solid e.plain.solid (Phrase.row_commaTail (List.cons_ne_nil _ _) ?_)
    rw [Exp.phrases_eq_map]
    intro p mem
    obtain ⟨x, -, rfl⟩ := List.mem_map.mp mem
    exact x.plain.solid

theorem row_commaSuffixed (e : Suffixed) (es : List Suffixed) :
    Phrase.Row (commaList (e.phrase :: es.map Suffixed.phrase)) := by
  cases es with
  | nil => exact .last e.plain.solid
  | cons e' es =>
    refine .solid e.plain.solid (Phrase.row_commaTail (List.cons_ne_nil _ _) ?_)
    intro p mem
    obtain ⟨x, -, rfl⟩ := List.mem_map.mp mem
    exact x.plain.solid

theorem row_names (n : Name) (ns : List Name) :
    Phrase.Row (commaList ((n :: ns).map (ofName .nameDef))) := by
  have solid (n : Name) : (ofName .nameDef n).Solid := (Phrase.leaf_plain _ rfl (by decide)).solid
  cases ns with
  | nil => exact .last (solid n)
  | cons m ns =>
    refine .solid (solid n) (Phrase.row_commaTail (List.cons_ne_nil _ _) ?_)
    intro p mem
    obtain ⟨x, -, rfl⟩ := List.mem_map.mp mem
    exact solid x

theorem row_localName (n : LocalName) (rest : List Phrase) (row : rest = [] ∨ Phrase.Row rest) :
    Phrase.Row (Phrase.localName n ++ rest) := by
  have name : (ofName .nameDef n.name).Solid := (Phrase.leaf_plain _ rfl (by decide)).solid
  have single {p : Phrase} (solid : p.Solid) : Phrase.Row (p :: rest) := by
    rcases row with rfl | row
    · exact .last solid
    · exact .solid solid row
  obtain ⟨n, attrib⟩ := n
  cases attrib with
  | none => exact single name
  | some a =>
    have attrib : (Phrase.group .attrib [key .less, .word a.word, key .greater]).Plain :=
      Phrase.plain_group rfl (by decide) Nat.one_pos
    exact .solid name (single attrib.solid)

theorem row_localNames (n : LocalName) (ns : List LocalName) :
    Phrase.Row (Phrase.localName n ++ Phrase.localNamesTail ns) := by
  induction ns generalizing n with
  | nil => exact row_localName n _ (.inl rfl)
  | cons m ns ih => exact row_localName n _ (.inr (.word (ih m)))

theorem row_fields (fs : List Name) (rest : List Phrase)
    (row : rest = [] ∨ Phrase.Row rest) :
    fs.flatMap (fun f => [key .dot, ofName .name f]) ++ rest = []
      ∨ Phrase.Row (fs.flatMap (fun f => [key .dot, ofName .name f]) ++ rest) := by
  induction fs with
  | nil => exact row
  | cons f fs ih =>
    have name : (ofName .name f).Solid := (Phrase.leaf_plain _ rfl (by decide)).solid
    rw [List.flatMap_cons, List.append_assoc]
    generalize fs.flatMap (fun f => [key .dot, ofName .name f]) ++ rest = tail at ih ⊢
    refine .inr (.word ?_)
    rcases ih with rfl | row
    · exact .last name
    · exact .solid name row

theorem row_funcName (n : FuncName) :
    Phrase.Row (ofName .nameExpr n.base
      :: (n.fields.flatMap (fun f => [key .dot, ofName .name f])
        ++ match n.method with
          | none => []
          | some m => [key .colon, ofName .methodName m])) := by
  have base : (ofName .nameExpr n.base).Solid := (Phrase.leaf_plain _ rfl (by decide)).solid
  have method : (match n.method with
      | none => []
      | some m => [key .colon, ofName .methodName m]) = []
      ∨ Phrase.Row (match n.method with
        | none => []
        | some m => [key .colon, ofName .methodName m]) := by
    cases n.method with
    | none => exact .inl rfl
    | some m => exact .inr (.word (.last (Phrase.leaf_plain _ rfl (by decide)).solid))
  rcases row_fields n.fields _ method with empty | row
  · rw [empty]
    exact .last base
  · exact .solid base row

/-! ## Marks of what was read -/

section Marks

variable {p q : Phrase} {i j k l : Nat} {ts us vs ws : List Token} {o a b : Outline}
  {os : List Outline}

/-- A word in front of phrases. -/
theorem Phrase.Spans.after {ps : List Phrase} (h : Spans ps (i + 1) us os j vs) (t : Token) :
    Spans (key t :: ps) i (t :: us) os j vs :=
  Phrase.spans_word_cons.mpr ⟨us, rfl, h⟩

theorem Phrase.Spans.key (t : Token) : Spans [key t] i (t :: us) [] (i + 1) us :=
  Spans.word t.word

/-- A name in a node of its own. -/
theorem Phrase.Spans.name (kind : NodeKind) (notStat : kind.isStatement = false)
    (notBlock : kind ≠ .block) :
    Spans [ofName kind ⟨Token.name.word, rfl⟩] i (.name :: us) [.leaf kind i] (i + 1) us :=
  Spans.leaf kind Token.name.word notStat notBlock

/-- A plain phrase begins with its first word and stops with its last. -/
theorem Phrase.Spans.marks (h : Spans [p] i ts [o] j us) (plain : p.Plain) :
    o.first = Mark.start i ∧ o.last = Mark.stopBefore j ∧ i < j := by
  have taken : i < j := by
    rw [h.stop_eq, Phrase.count_cons]
    have := plain.words_pos
    omega
  cases p with
  | word => exact absurd plain id
  | group kind parts =>
    obtain ⟨os, -, eq⟩ := (Phrase.spans_plain plain.1 plain.2.1).mp h
    obtain rfl := List.singleton_inj.mp eq
    refine ⟨rfl, Nat.max_eq_left ?_, taken⟩
    simp only [Mark.start, Mark.stopBefore]
    omega

/-- A value node takes the words of what it wraps. -/
theorem Phrase.Spans.valueOf (h : Spans [p] i ts [o] j us) (plain : p.Plain) :
    Spans [value p] i ts [o.value] j us := by
  obtain ⟨first, last, taken⟩ := h.marks plain
  have stop : Mark.stopBefore j = max (Mark.stopBefore j) (Mark.start i) := by
    refine (Nat.max_eq_left ?_).symm
    simp only [Mark.start, Mark.stopBefore]
    omega
  rw [Outline.value, first, last, stop]
  exact h.plain .valueExpr rfl (by decide)

/-- A node over two others takes the words from the first to the second. -/
theorem Phrase.Spans.join_eq {kind : NodeKind} (h : Spans [p] i ts [a] j us) (plain : p.Plain)
    (h' : Spans [q] k vs [b] l ws) (plain' : q.Plain) (le : i ≤ k) (le' : j ≤ l) :
    Outline.join kind a b os
      = .node kind (Mark.start i) (max (Mark.stopBefore l) (Mark.start i)) os := by
  obtain ⟨first, last, taken⟩ := h.marks plain
  obtain ⟨first', last', taken'⟩ := h'.marks plain'
  rw [Outline.join, first, last, first', last']
  congr 1
  · simp only [Mark.start]
    omega
  · simp only [Mark.start, Mark.stopBefore]
    omega

end Marks

end LuaTyping
