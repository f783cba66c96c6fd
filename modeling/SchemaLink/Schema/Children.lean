import SchemaLink.Kind

/-!
# Handles and child collections

Nodes, modules and submodules are referred to by handles: their positions in the schema that holds
them. A node's children form one collection per kind.

**One list holds all collections**, in order of arrival, each entry with its kind. The collection of
a kind is the sublist of that kind, so "inserting into one collection leaves the others alone" is a
fact about filtering.
-/

namespace SchemaLink

/-- A handle of a node. -/
structure NodeId where
  index : Nat
deriving DecidableEq

/-- A handle of a module. -/
structure ModuleId where
  index : Nat
deriving DecidableEq

/-- A handle of a submodule. -/
structure SubmoduleId where
  index : Nat
deriving DecidableEq

/-- The children of a node or submodule. -/
structure Children where
  /-- Kind and handle of each child, in order of arrival. -/
  entries : List (Kind × NodeId) := []
deriving DecidableEq

namespace Children

/-- The collection of one kind. -/
def slot (c : Children) (k : Kind) : List NodeId :=
  (c.entries.filter (·.1 = k)).map Prod.snd

/-- A child is inserted unless its kind is not collected or it is already there. -/
def takes (c : Children) (k : Kind) (id : NodeId) : Bool :=
  k.collected && (k, id) ∉ c.entries

/-- Adds a child at the end of its collection, once. -/
def insert (c : Children) (k : Kind) (id : NodeId) : Children :=
  if c.takes k id then ⟨c.entries ++ [(k, id)]⟩ else c

/-- The collections of the given kinds, one after the other. -/
def slots (c : Children) (ks : List Kind) : List NodeId :=
  ks.flatMap c.slot

/-- The children that appear in data, in look-up order. -/
def data (c : Children) : List NodeId :=
  c.slots Kind.dataKinds

/-- The number of children. -/
def size (c : Children) : Nat :=
  c.entries.length

theorem slot_insert (c : Children) (k j : Kind) (id : NodeId) :
    (c.insert k id).slot j
      = if c.takes k id ∧ k = j then c.slot j ++ [id] else c.slot j := by
  by_cases ha : c.takes k id = true
  · by_cases hk : k = j
    · subst hk
      simp [insert, slot, ha]
    · simp [insert, slot, ha, hk]
  · simp [insert, ha]

end Children

end SchemaLink
