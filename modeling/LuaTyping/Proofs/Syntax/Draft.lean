import LuaTyping.Syntax.Draft
import LuaTyping.Proofs.Syntax.Table

/-!
# Tables that are filled from below

At any time the table under construction is a row of branches whose roots have no parent yet.  They
are *loose*.  A new node takes the last loose branches below it, which tells their roots the new
parent and nothing else, and is the last loose branch from then on.  So a node that is given as a
child is given once: it is no longer loose.

* `Draft.Holds`: the loose branches of a table.
* `Draft.Holds.node`: a new node over the last loose branches.
* `Draft.Holds.grows`: a single loose branch is the tree of the table.
-/

namespace LuaTyping

namespace Draft

/-- The table has the rows of the loose branches and no others, in the order of their numbers. -/
structure Holds (d : Draft) (loose : List Branch) : Prop where
  ids : (Branch.allOf loose).map Branch.id = List.range d.nodes.size
  nodes : d.nodes.toList = (Branch.familyOf none loose).map Branch.row

/-! ## Adoption -/

/-- The row of a loose branch is told a parent. -/
theorem toList_adopt (parent : NodeId) {nodes : Array Node} {b : Branch} {front back : List Node}
    (rows : nodes.toList = front ++ ((b.family none).map Branch.row ++ back))
    (number : b.id = front.length + (Branch.allOf b.children).length) :
    (adopt nodes parent b.id).toList
      = front ++ ((b.family (some parent)).map Branch.row ++ back) := by
  obtain ⟨id, kind, span, children⟩ := b
  have size : id = (front ++ (Branch.familyOf (some id) children).map Branch.row).length := by
    rw [List.length_append, List.length_map, Branch.length_familyOf]
    exact number
  have split (parent : Option NodeId) (back : List Node) :
      front ++ ((Branch.family parent (.node id kind span children)).map Branch.row ++ back)
        = front ++ (Branch.familyOf (some id) children).map Branch.row
          ++ ⟨kind, span, parent, children.map Branch.id⟩ :: back := by
    rw [Branch.family, List.map_append, List.append_assoc, List.append_assoc]
    rfl
  rw [split] at rows ⊢
  rw [adopt, Array.toList_modify, rows, Branch.id, List.modify_eq_take_drop,
    List.take_left' size.symm, List.drop_left' size.symm]
  rfl

/-- The rows of loose branches are told their parent one after the other. -/
theorem toList_foldl_adopt (parent : NodeId) (below : List Branch) {nodes : Array Node}
    {front : List Node} (rows : nodes.toList = front ++ (Branch.familyOf none below).map Branch.row)
    (ids : (Branch.allOf below).map Branch.id
      = List.range' front.length (Branch.allOf below).length) :
    ((below.map Branch.id).foldl (adopt · parent) nodes).toList
      = front ++ (Branch.familyOf (some parent) below).map Branch.row := by
  induction below generalizing nodes front with
  | nil => exact rows
  | cons b bs ih =>
    rw [Branch.allOf, List.map_append, List.length_append, ← List.range'_append_1] at ids
    obtain ⟨own, rest⟩ := List.append_inj ids (by simp)
    have number : b.id = front.length + (Branch.allOf b.children).length := by
      rw [Branch.all_eq, List.map_append, List.length_append, List.length_singleton,
        List.range'_concat] at own
      simpa using (List.append_inj' own rfl).2
    rw [Branch.familyOf, List.map_append] at rows
    have told := toList_adopt parent rows number
    rw [← List.append_assoc] at told
    rw [List.map_cons, List.foldl_cons, ih told (by
      rw [List.length_append, List.length_map, ← List.length_map (f := Prod.fst),
        Branch.map_fst_family, rest]), Branch.familyOf, List.map_append, List.append_assoc]

theorem size_foldl_adopt {parent : NodeId} (ids : List NodeId) (nodes : Array Node) :
    (ids.foldl (adopt · parent) nodes).size = nodes.size := by
  induction ids generalizing nodes with
  | nil => rfl
  | cons id ids ih => rw [List.foldl_cons, ih, adopt, Array.size_modify]

/-! ## New nodes -/

namespace Holds

variable {d : Draft} {front below : List Branch}

theorem empty (l : Layout) : (⟨l, #[]⟩ : Draft).Holds [] := ⟨rfl, rfl⟩

theorem size_eq (h : d.Holds front) : d.nodes.size = (Branch.allOf front).length := by
  have size := congrArg List.length h.ids
  rw [List.length_map, List.length_range] at size
  exact size.symm

/-- A new node over the last loose branches is loose, and they no longer are. -/
theorem node (h : d.Holds (front ++ below)) (kind : NodeKind) (span : Span) :
    (d.node kind span (below.map Branch.id)).1 = d.nodes.size
      ∧ (d.node kind span (below.map Branch.id)).2.layout = d.layout
      ∧ (d.node kind span (below.map Branch.id)).2.Holds
        (front ++ [.node d.nodes.size kind span below]) := by
  refine ⟨rfl, rfl, ?_, ?_⟩
  · have ids := h.ids
    rw [Branch.allOf_append, List.map_append] at ids
    simp only [Draft.node, Array.size_push, size_foldl_adopt, Branch.allOf_append, Branch.allOf,
      Branch.all, List.append_nil, List.map_append, List.map_cons, List.map_nil, Branch.id,
      List.range_succ]
    rw [← List.append_assoc, ids]
  · have size := h.size_eq
    have ids := h.ids
    have rows := h.nodes
    rw [Branch.allOf_append, List.map_append, size, Branch.allOf_append, List.length_append,
      List.range_eq_range', ← List.range'_append_1] at ids
    obtain ⟨-, rest⟩ := List.append_inj ids (by simp)
    rw [Branch.familyOf_append, List.map_append] at rows
    have told := toList_foldl_adopt d.nodes.size below rows (by
      rw [List.length_map, Branch.length_familyOf, rest, Nat.zero_add])
    simp only [Draft.node, Array.toList_push, told, Branch.familyOf_append, Branch.familyOf,
      Branch.family, List.append_nil, List.map_append, List.map_cons, List.map_nil,
      List.append_assoc]
    rfl

/-- The number of the root of a loose branch is the number of its row. -/
theorem row_eq {b : Branch} (h : d.Holds front) (mem : b ∈ Branch.allOf front) :
    (d.row b.id).kind = b.kind ∧ (d.row b.id).span = b.span := by
  have found : ∃ x ∈ Branch.familyOf none front, x.1 = b := by
    rw [← Branch.map_fst_familyOf none] at mem
    exact List.mem_map.mp mem
  obtain ⟨x, inside, rfl⟩ := found
  obtain ⟨i, bound, rfl⟩ := List.getElem_of_mem inside
  have number : ((Branch.familyOf none front)[i]).1.id = i := by
    have ids := h.ids
    rw [← Branch.map_fst_familyOf none, List.map_map] at ids
    have at_ := congrArg (·[i]?) ids
    rw [List.getElem?_map, List.getElem?_eq_getElem bound, List.getElem?_range (by
      rwa [h.size_eq, ← Branch.length_familyOf none])] at at_
    exact Option.some.inj at_
  have row : d.row i = Branch.row (Branch.familyOf none front)[i] := by
    rw [Draft.row, Array.getD_eq_getD_getElem?, ← Array.getElem?_toList, h.nodes,
      List.getElem?_map, List.getElem?_eq_getElem bound]
    rfl
  rw [number, row]
  exact ⟨rfl, rfl⟩

/-- If there is only one loose branch, the table is that of its tree. -/
theorem grows {b : Branch} (h : d.Holds [b]) (text : String) :
    (⟨text, d.nodes⟩ : Tree).Grows b := by
  have ids := h.ids
  have nodes := h.nodes
  rw [Branch.allOf, Branch.allOf, List.append_nil] at ids
  rw [Branch.familyOf, Branch.familyOf, List.append_nil] at nodes
  exact ⟨ids, nodes⟩

end Holds

end Draft

end LuaTyping
