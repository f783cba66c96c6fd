import SchemaLink.Session.Place

/-!
# Handles that denote something

Look-up is total, so statements about all nodes also speak of handles that denote nothing. Those
read as the blank node, which stands at the top level and owns nothing.

`Schema.Grounded` says that climbing never leaves the schema: every parent is there, and so is the
main submodule of every module. **The numbers of parents stay below the bound of the search** in a
grounded schema, so that bound never cuts a search off (`Grounded.number_parent_lt`).
-/

namespace SchemaLink

namespace Parent

/-- The numbers of submodules and of nodes do not get into each other's way. -/
theorem number_injective : Function.Injective Parent.number := by
  intro p q h
  match p, q with
  | .submodule ⟨u⟩, .submodule ⟨v⟩ =>
    obtain rfl : u = v := by simp only [number] at h; omega
    rfl
  | .node ⟨a⟩, .node ⟨b⟩ =>
    obtain rfl : a = b := by simp only [number] at h; omega
    rfl
  | .submodule ⟨u⟩, .node ⟨b⟩ =>
    simp only [number] at h
    omega
  | .node ⟨a⟩, .submodule ⟨v⟩ =>
    simp only [number] at h
    omega

end Parent

namespace Schema

variable {s : Schema} {id : NodeId} {p : Parent}

/-- The parent is a submodule or a node of the schema. -/
def HasParent (s : Schema) : Parent → Prop
  | .submodule u => u.index < s.submodules.size
  | .node id => id.index < s.nodes.size

/-- The position is the top level of a module or a node of the schema. -/
def HasPosition (s : Schema) : Position → Prop
  | .top m => m.index < s.modules.size
  | .node id => id.index < s.nodes.size

instance : DecidablePred s.HasParent
  | .submodule u => inferInstanceAs (Decidable (u.index < s.submodules.size))
  | .node id => inferInstanceAs (Decidable (id.index < s.nodes.size))

/-- Climbing from a node and entering a module never leave the schema. -/
structure Grounded (s : Schema) : Prop where
  parent_exists : ∀ id, id.index < s.nodes.size → s.HasParent (s.node id).parent
  main_exists : ∀ m, m.index < s.modules.size → (s.module m).main.index < s.submodules.size

theorem node_of_size_le (h : s.nodes.size ≤ id.index) : s.node id = blankNode := by
  simp [node, h]

theorem kind_of_size_le (h : s.nodes.size ≤ id.index) : s.kind id = .uses := by
  rw [kind, node_of_size_le h]
  rfl

/-- A node of any other kind than `uses` is there. -/
theorem index_lt_of_kind_ne_uses (h : s.kind id ≠ .uses) : id.index < s.nodes.size := by
  rcases Nat.lt_or_ge id.index s.nodes.size with hlt | hge
  · exact hlt
  · exact absurd (kind_of_size_le hge) h

theorem mem_nodeIds : id ∈ s.nodeIds ↔ id.index < s.nodes.size := by
  constructor
  · intro h
    obtain ⟨i, hi, rfl⟩ := List.mem_map.1 h
    exact List.mem_range.1 hi
  · intro h
    exact List.mem_map.2 ⟨id.index, List.mem_range.2 h, rfl⟩

theorem HasParent.number_lt (h : s.HasParent p) : p.number < s.parentBound := by
  match p with
  | .submodule u =>
    have h : u.index < s.submodules.size := h
    simp only [Parent.number, parentBound]
    omega
  | .node id =>
    have h : id.index < s.nodes.size := h
    simp only [Parent.number, parentBound]
    omega

namespace Grounded

variable (hs : s.Grounded)
include hs

/-- In a schema that is not empty, the parent of anything has a number below the bound. -/
theorem number_parent_lt (hpos : 0 < s.parentBound) (id : NodeId) :
    (s.node id).parent.number < s.parentBound := by
  by_cases hid : id.index < s.nodes.size
  · exact (hs.parent_exists id hid).number_lt
  · rw [node_of_size_le (by omega)]
    exact hpos

theorem parentBound_pos {c : Position} (hc : s.HasPosition c) : 0 < s.parentBound := by
  match c with
  | .top m =>
    have := hs.main_exists m hc
    simp only [parentBound]
    omega
  | .node id =>
    have hid : id.index < s.nodes.size := hc
    simp only [parentBound]
    omega

end Grounded

end Schema

end SchemaLink
