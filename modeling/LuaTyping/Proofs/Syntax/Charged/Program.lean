import LuaTyping.Proofs.Syntax.Charged.Statement
import LuaTyping.Proofs.Syntax.Realized
import LuaTyping.Proofs.Syntax.Total.Program
import LuaTyping.Proofs.Token.Covers

/-!
# The number of nodes of programs

Every level of nesting is frugal, the lowest one because it makes no more than an error node.  So a
program has at most eight nodes for each of its tokens, and a few more.  A token takes at least one
byte.  So the numbers of nodes do not wrap around at 32 bits in a text that has less than an eighth
as many bytes.

* `Program.charged`: the main block of a program is charged to its tokens.
* `Layout.nodeCount_le_size`: a doc slot is at most one node.
* `Parsed.size_tree_le`: the number of nodes of a text.
* `Parsed.node_numbers_fit`: the numbers of nodes are kept apart by 32 bits.
-/

namespace LuaTyping

open Outline (Charged)

namespace Grammar

/-- Every level is frugal. -/
theorem level_frugal (n : Nat) : (level n).Frugal := by
  induction n with
  | zero =>
    have error (c : Cursor Sketch) : Step.cutOff.Ends c fun o _ => Charged 1 c.pos c.pos [o] := by
      refine Step.yields_cutOff.ends.mono fun o d _ cut => ?_
      rw [cut]
      exact (Charged.nil c.pos).node (by decide)
    refine ⟨fun _ c => (error c).mono fun o d leads charged => ?_,
      fun c => (error c).mono fun o d leads charged => ?_⟩
    · have le := leads.pos_le
      exact charged.mono (by omega)
    · have le := leads.pos_le
      exact ⟨charged.mono (by omega), fun moved => charged.mono (by omega)⟩
  | succ n ih => exact ⟨charged_expression ih, charged_statement ih⟩

end Grammar

/-- The functions of a program have their parts, and its nodes are charged to its tokens. -/
theorem Program.charged (limit : Nat) (tokens : List Token) :
    Charged 1 0 tokens.length [(Program.ofTokens limit tokens).body]
      ∧ (Program.ofTokens limit tokens).body.kind = .block := by
  have chunk : (Grammar.chunk limit).Ends (.start tokens ⟨⟩) fun o d =>
      Charged 1 0 d.pos [o] ∧ o.kind = .block :=
    (Grammar.charged_block (Grammar.level_frugal limit) _).bind fun body d _ stats =>
      .skip fun _ e leads => .pure ⟨stats.1.mono (by have := leads.pos_le; omega), stats.2⟩
  have inside := (Grammar.chunk limit (.start tokens (⟨⟩ : Sketch))).property.of_start.2
  obtain ⟨charged, block⟩ := chunk (Grammar.astray_chunk limit tokens)
  exact ⟨charged.mono (by omega), block⟩

/-! ## Nodes -/

namespace Layout

variable (l : Layout)

mutual

theorem length_branches_le (next : Nat) : (o : Outline) →
    (Branch.allOf (l.branches next o)).length ≤ o.size
  | .doc token => by
    rw [branches]
    split
    · exact Nat.le_refl 1
    · exact Nat.zero_le 1
  | .node kind first last children => by
    have below := length_branchesOf_le next children
    rw [branches, Branch.allOf, Branch.allOf, List.append_nil, Branch.all, List.length_append,
      List.length_singleton, Outline.size]
    omega

theorem length_branchesOf_le (next : Nat) : (os : List Outline) →
    (Branch.allOf (l.branchesOf next os)).length ≤ Outline.sizeList os
  | [] => Nat.le_refl 0
  | o :: os => by
    have head := length_branches_le next o
    have tail := length_branchesOf_le (next + (Branch.allOf (l.branches next o)).length) os
    rw [branchesOf, Branch.allOf_append, List.length_append, Outline.sizeList]
    omega

end

/-- A doc slot is at most one node. -/
theorem nodeCount_le_size (o : Outline) : l.nodeCount o ≤ o.size := l.length_branches_le 0 o

end Layout

namespace Lexed

theorem length_placed (offset : Nat) (ps : List Piece) : (placed offset ps).length = ps.length := by
  induction ps generalizing offset with
  | nil => rfl
  | cons p ps ih => rw [placed, List.length_cons, List.length_cons, ih]

/-- A text has no more tokens than bytes. -/
theorem size_lexemes_le (text : String) : (ofText text).lexemes.size ≤ text.utf8ByteSize := by
  have pieces := size_pieces_le text
  have tokens := List.length_filterMap_le lexeme? (placed 0 (Lexer.pieces text.toList).toList)
  rw [← lexemes_ofText, length_placed, Array.length_toList, Array.length_toList] at tokens
  exact Nat.le_trans tokens pieces

end Lexed

namespace Parsed

/-- A text has at most eight nodes for each token, and two more. -/
theorem size_tree_le (limit : Nat) (text : String) :
    (ofTextWithin limit text).tree.size ≤ 8 * (Lexed.ofText text).lexemes.size + 2 := by
  have charged := (Program.charged limit
    ((Lexed.ofText text).lexemes.map Lexeme.token).toList).1.cost
  have nodes := Layout.nodeCount_le_size (.ofLexed text (Lexed.ofText text))
    (Program.ofTokens limit ((Lexed.ofText text).lexemes.map Lexeme.token).toList).body
  rw [Outline.sizeList, Outline.sizeList, Array.length_toList, Array.size_map] at charged
  rw [(realizes limit text).size_eq]
  omega

/-- A text has at most eight nodes for each token, and eight more, whatever is wrong with it.  The
table has a row for every node that the parser allocates, as it never takes one back.  If the text
has less than `2 ^ 29 - 1` bytes, then no length of the table is changed when it is cut down to 32
bits, and the numbers of nodes with 32 bits are different. -/
theorem node_numbers_fit (text : String) :
    (ofText text).tree.size ≤ 8 * (Lexed.ofText text).lexemes.size + 8
      ∧ (text.utf8ByteSize < 2 ^ 29 - 1 →
        (∀ n ≤ (ofText text).tree.size, (UInt32.ofNat n).toNat = n)
          ∧ ((List.range (ofText text).tree.size).map UInt32.ofNat).Nodup) := by
  have nodes := size_tree_le maxNesting text
  have tokens := Lexed.size_lexemes_le text
  refine ⟨Nat.le_trans nodes (by omega), fun short => ?_⟩
  have fits : ∀ n ≤ (ofText text).tree.size, (UInt32.ofNat n).toNat = n := by
    intro n le
    have le : n ≤ 8 * (Lexed.ofText text).lexemes.size + 2 := Nat.le_trans le nodes
    exact UInt32.toNat_ofNat_of_lt' (by rw [UInt32.size]; omega)
  refine ⟨fits, (List.nodup_map_iff_inj_on List.nodup_range).mpr fun m mem n mem' same => ?_⟩
  have same := congrArg UInt32.toNat same
  rwa [fits m (List.mem_range.mp mem).le, fits n (List.mem_range.mp mem').le] at same

/-- A function that is broken off: three tokens, and the nodes of what is missing. -/
theorem node_numbers_fit_broken :
    "f=function".utf8ByteSize < 2 ^ 29 - 1 ∧ (ofText "f=function").tree.size = 11
      ∧ ((List.range (ofText "f=function").tree.size).map UInt32.ofNat).Nodup := by
  have short : "f=function".utf8ByteSize < 2 ^ 29 - 1 := by decide
  exact ⟨short, by decide +kernel, ((node_numbers_fit "f=function").2 short).2⟩

end Parsed

end LuaTyping
