import LuaTyping.Proofs.Syntax.Drawn
import LuaTyping.Proofs.Syntax.Realized

/-!
# Nodes are cut out between characters

Tokens and comments are made of whole characters, and the offsets of nodes are offsets of tokens and
comments, or the ends of the text.  So no node of a text begins or ends inside a character, whatever
the text.

* `Span.Cuts`: a span whose ends lie between characters.
* `Layout.Faithful.isBoundary_offset`: the offset of a mark lies between characters.
* `Parsed.cuts_span`: every node of a text is cut out between characters.
-/

namespace LuaTyping

namespace Layout

variable {l : Layout}

theorem Faithful.cuts_of_mem_branches (h : l.Faithful) {o : Outline} {next : Nat} {b : Branch}
    (mem : b ∈ l.branches next o) :
    b.span.Cuts l.text ∧ ∃ below cs, b.children = l.branchesOf below cs := by
  cases o with
  | node kind first last cs =>
    obtain ⟨-, span, children⟩ := eq_of_mem_branches mem
    rw [span]
    exact ⟨⟨h.isBoundary_offset first, h.isBoundary_offset last⟩, next, cs, children⟩
  | doc token =>
    rw [branches] at mem
    cases found : l.docSpan? token with
    | none =>
      rw [found] at mem
      exact absurd mem List.not_mem_nil
    | some s =>
      rw [found] at mem
      rw [List.mem_singleton.mp mem]
      exact ⟨h.cuts_docSpan found, next, [], rfl⟩

/-- Every node of a program is cut out between characters. -/
theorem Faithful.cuts_root (h : l.Faithful) (body : Outline) :
    ∀ b ∈ (l.root body).all, b.span.Cuts l.text := by
  suffices all : ∀ b ∈ (l.root body).all,
      b.span.Cuts l.text ∧ ∃ next cs, b.children = l.branchesOf next cs from
    fun b mem => (all b mem).1
  refine Branch.forall_mem_all (fun p above c child => ?_) _
    ⟨Span.cuts_whole l.text, 0, [body], ?_⟩
  · obtain ⟨-, next, cs, children⟩ := above
    rw [children] at child
    obtain ⟨o, -, n, mem, -⟩ := exists_of_mem_branchesOf child
    exact h.cuts_of_mem_branches mem
  · rw [branchesOf, branchesOf, List.append_nil]
    rfl

end Layout

/-- Every node of a text is cut out between characters, where every place of the text has an offset
of its own. -/
theorem Parsed.cuts_span {text : String} (small : text.utf8ByteSize < offsetCount) {id : NodeId}
    (inside : id < (ofText text).tree.size) : ((ofText text).tree.span id).Cuts text := by
  have grows := grows_root maxNesting small
  obtain ⟨b, mem, rfl⟩ := grows.exists_mem inside
  exact grows.span mem ▸ (Layout.faithful_ofLexed small).cuts_root _ b mem

end LuaTyping
