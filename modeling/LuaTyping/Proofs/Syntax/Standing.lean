import LuaTyping.Syntax.Parse
import LuaTyping.Proofs.Syntax.Rules
import LuaTyping.Proofs.Syntax.Sites

/-!
# Nodes of groups

A text without faults is the text of some statements, and its tree is drawn from their phrase.
Every node but the root and the comments *stands* for a group: it takes the place of the group's
words among the tokens of the text, and below it stand the nodes of its parts.  So what the rules
say of the parts of a group is true of what is below a node.

* `Branch.Stands`: a node stands for a group.
* `Branch.Stands.child`: so does every child of it that is no comment.
* `Branch.Stands.map_kind_children`: the kinds of what is below it.
* `Parsed.exists_standing`: the nodes of a text without faults.
-/

namespace LuaTyping

open Phrase (Ruled RuledAll GroupAt count docSlot outlinesOf kinds group word tokens)

/-- The branch is the node of a group of parts among the tokens of a text, the first of which is
token `i`. -/
structure Branch.Stands (l : Layout) (i : Nat) (kind : NodeKind) (parts : List Phrase)
    (b : Branch) : Prop where
  kind_eq : b.kind = kind
  span_eq : b.span = l.spanOf ⟨kind, i, count parts⟩
  children_eq : ∃ next below, b.children
    = l.branchesOf next (docSlot kind i) ++ l.branchesOf below (outlinesOf i parts)
  ruled : (group kind parts).Ruled
  formed : (group kind parts).Formed
  words : ∃ before after, l.lexemes.toList.map Lexeme.token = before ++ tokens parts ++ after
    ∧ before.length = i

namespace Layout

variable {l : Layout} {b : Branch} {ps before after : List Phrase} {next i : Nat}

/-- The branches of phrases in a row stand for the groups of the row. -/
theorem exists_stands_of_mem (mem : b ∈ l.branchesOf next (outlinesOf i ps)) (ruled : RuledAll ps)
    (formed : Phrase.FormedAll ps)
    (words : ∃ before after, l.lexemes.toList.map Lexeme.token = before ++ tokens ps ++ after
      ∧ before.length = i) :
    ∃ qs kind parts rs, ps = qs ++ group kind parts :: rs
      ∧ b.Stands l (i + count qs) kind parts := by
  induction ps generalizing next i with
  | nil => exact absurd mem List.not_mem_nil
  | cons p ps ih =>
    obtain ⟨before, after, whole, rfl⟩ := words
    rw [outlinesOf, branchesOf_append, List.mem_append] at mem
    rcases mem with mem | mem
    · cases p with
      | word w => exact absurd mem List.not_mem_nil
      | group kind parts =>
        obtain ⟨id, below, eq⟩ := l.branchesOf_group next before.length kind parts
        rw [eq] at mem
        rw [List.mem_singleton.mp mem]
        refine ⟨[], kind, parts, ps, rfl, rfl, rfl, ⟨next, below, rfl⟩, ruled.1, formed.1, before,
          tokens ps ++ after, ?_, rfl⟩
        simp only [whole, Phrase.tokens_group_cons, List.append_assoc]
    · have front : tokens (p :: ps) = p.words.map Word.token ++ tokens ps := List.map_append
      have rest : ∃ before' after', l.lexemes.toList.map Lexeme.token
          = before' ++ tokens ps ++ after' ∧ before'.length = before.length + p.words.length :=
        ⟨before ++ p.words.map Word.token, after,
          by simp only [whole, front, List.append_assoc],
          by rw [List.length_append, List.length_map]⟩
      obtain ⟨qs, kind, parts, rs, rfl, stands⟩ := ih mem ruled.2 formed.2 rest
      refine ⟨p :: qs, kind, parts, rs, rfl, ?_⟩
      rwa [Phrase.count_cons, ← Nat.add_assoc]

end Layout

namespace Branch.Stands

variable {l : Layout} {b c : Branch} {i : Nat} {kind : NodeKind} {parts : List Phrase}

theorem rule (h : b.Stands l i kind parts) : Phrase.Rule kind parts := h.ruled.1

theorem kind_ne_comment (h : b.Stands l i kind parts) : kind ≠ .comment := h.formed.1.ne_comment

/-- Below a node is the comment of a statement, or a node that stands for one of the parts. -/
theorem child (h : b.Stands l i kind parts) (child : c ∈ b.children) :
    (c.IsComment ∧ kind.isStatement = true ∧ l.docSpan? i = some c.span)
      ∨ ∃ qs k ps rs, parts = qs ++ group k ps :: rs ∧ c.Stands l (i + count qs) k ps := by
  obtain ⟨next, below, children⟩ := h.children_eq
  rw [children, List.mem_append] at child
  rcases child with slot | part
  · refine .inl ⟨Layout.isComment_of_mem_docSlot slot, ?_⟩
    rw [docSlot] at slot
    split at slot
    · next stat =>
      rw [Layout.branchesOf_singleton, Layout.branches] at slot
      split at slot
      · next found =>
        rw [List.mem_singleton.mp slot]
        exact ⟨stat, found⟩
      · exact absurd slot List.not_mem_nil
    · exact absurd slot List.not_mem_nil
  · exact .inr (Layout.exists_stands_of_mem part h.ruled.2 h.formed.2 h.words)

/-- Below a node are the groups among its parts, and a statement may have a comment in front. -/
theorem map_kind_children (h : b.Stands l i kind parts) :
    ∃ docs : List NodeKind, (∀ k ∈ docs, k = .comment) ∧ (kind.isStatement = false → docs = [])
      ∧ b.children.map Branch.kind = docs ++ kinds parts := by
  obtain ⟨next, below, children⟩ := h.children_eq
  refine ⟨(l.branchesOf next (docSlot kind i)).map Branch.kind, fun k mem => ?_, fun notStat => ?_,
    ?_⟩
  · obtain ⟨c, slot, rfl⟩ := List.mem_map.mp mem
    exact (Layout.isComment_of_mem_docSlot slot).1
  · rw [docSlot, if_neg (Bool.eq_false_iff.mp notStat)]
    rfl
  · rw [children, List.map_append, Layout.map_kind_branchesOf]

/-- The words of a group are tokens of the text. -/
theorem exists_lexeme (h : b.Stands l i kind parts) {p s : List Token} {t : Token} {m : Nat}
    (split : tokens parts = p ++ t :: s) (place : i + p.length = m) :
    ∃ bound : m < l.lexemes.size, l.lexemes[m].token = t := by
  subst place
  obtain ⟨before, after, whole, rfl⟩ := h.words
  have here : (l.lexemes.toList.map Lexeme.token)[before.length + p.length]? = some t := by
    rw [whole, split, List.append_assoc, List.getElem?_append_right (Nat.le_add_right _ _),
      Nat.add_sub_cancel_left, List.append_assoc, List.getElem?_append_right (Nat.le_refl _),
      Nat.sub_self]
    rfl
  rw [List.getElem?_map, Array.getElem?_toList] at here
  obtain ⟨x, found, rfl⟩ := Option.map_eq_some_iff.mp here
  obtain ⟨bound, rfl⟩ := Array.getElem?_eq_some_iff.mp found
  exact ⟨bound, rfl⟩

/-- A group begins among the tokens of the text, or behind the last one. -/
theorem first_le_size (h : b.Stands l i kind parts) : i ≤ l.lexemes.size := by
  obtain ⟨before, after, whole, rfl⟩ := h.words
  have size := congrArg List.length whole
  simp only [List.length_map, Array.length_toList, List.length_append] at size
  omega

end Branch.Stands

namespace Layout

variable {l : Layout}

/-- The nodes of a program whose main block has the phrase of some statements. -/
theorem standing_root {body : Outline} {ss : List Stat}
    (outline : [body] = outlinesOf 0 [group .block (Stat.phrases ss)])
    (words : l.lexemes.toList.map Lexeme.token = tokens [group .block (Stat.phrases ss)]) :
    (∃ b, (l.root body).children = [b] ∧ b.Stands l 0 .block (Stat.phrases ss))
      ∧ ∀ b ∈ (l.root body).all,
        b = l.root body ∨ b.IsComment ∨ ∃ i kind parts, b.Stands l i kind parts := by
  have children : (l.root body).children
      = l.branchesOf 0 (outlinesOf 0 [group .block (Stat.phrases ss)]) := by
    rw [← outline, branchesOf_singleton, root, Branch.children]
  have ruled : RuledAll [group .block (Stat.phrases ss)] :=
    ⟨Stat.ruled_block (Stat.ruledAll ss), trivial⟩
  have formed : Phrase.FormedAll [group .block (Stat.phrases ss)] :=
    ⟨Phrase.formed_block (Stat.formedAll ss), trivial⟩
  have top : ∀ b ∈ (l.root body).children, b.Stands l 0 .block (Stat.phrases ss) := by
    intro b mem
    rw [children] at mem
    obtain ⟨qs, kind, parts, rs, split, stands⟩ := exists_stands_of_mem mem ruled formed
      ⟨[], [], by simpa using words, rfl⟩
    cases qs with
    | nil =>
      obtain ⟨rfl, rfl⟩ := Phrase.group.inj (List.cons.inj split).1
      exact stands
    | cons q qs => exact absurd (List.cons.inj split).2 (by simp)
  constructor
  · obtain ⟨id, below, eq⟩ := l.branchesOf_group 0 0 .block (Stat.phrases ss)
    rw [outlinesOf, outlinesOf, List.append_nil, eq] at children
    exact ⟨_, children, top _ (children ▸ List.mem_singleton.mpr rfl)⟩
  · -- what a node stands for is passed on to its children
    have step : ∀ p : Branch, (p.IsComment ∨ ∃ i kind parts, p.Stands l i kind parts) →
        ∀ c ∈ p.children, c.IsComment ∨ ∃ i kind parts, c.Stands l i kind parts := by
      rintro p (comment | ⟨i, kind, parts, stands⟩) c child
      · rw [comment.2] at child
        exact absurd child List.not_mem_nil
      · rcases stands.child child with ⟨comment, -⟩ | ⟨qs, k, ps, rs, -, part⟩
        · exact .inl comment
        · exact .inr ⟨_, _, _, part⟩
    intro b mem
    rw [Branch.all_eq, List.mem_append, List.mem_singleton] at mem
    rcases mem with below | rfl
    · exact .inr (Branch.forall_mem_allOf step _ (fun c child => .inr ⟨_, _, _, top c child⟩) b
        below)
    · exact .inl rfl

end Layout

/-- The layout of a text. -/
def Layout.ofText (text : String) : Layout := .ofLexed text (Lexed.ofText text)

theorem Layout.ofText_faithful {text : String} (small : text.utf8ByteSize < offsetCount) :
    (Layout.ofText text).Faithful := faithful_ofLexed small

/-- The tree of a text without faults has one block below its root, and every other node stands for
a group or is a comment, where every place of the text has an offset of its own. -/
theorem Parsed.exists_standing {text : String} (small : text.utf8ByteSize < offsetCount)
    (clean : (Parsed.ofText text).errors = []) :
    ∃ r b : Branch, (Parsed.ofText text).tree.Grows r ∧ r.kind = .chunk
      ∧ r.span = ⟨0, text.utf8ByteSize⟩ ∧ r.children = [b]
      ∧ (∃ parts, b.Stands (Layout.ofText text) 0 .block parts)
      ∧ ∀ c ∈ r.all, c = r ∨ c.IsComment
        ∨ ∃ i kind parts, c.Stands (Layout.ofText text) i kind parts := by
  rw [Parsed.ofText, errors_ofTextWithin] at clean
  obtain ⟨-, faults⟩ := List.append_eq_nil_iff.mp clean
  obtain ⟨ss, spans⟩ := Program.exists_phrases (List.map_eq_nil_iff.mp faults)
  have words := spans.tokens_eq
  rw [List.append_nil, Array.toList_map] at words
  obtain ⟨⟨b, children, block⟩, each⟩ := Layout.standing_root (l := Layout.ofText text)
    spans.outlines_eq words
  exact ⟨_, b, grows_root maxNesting small, rfl, rfl, children, ⟨_, block⟩, each⟩

end LuaTyping
