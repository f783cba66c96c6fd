import SchemaLink.Session.Follow

/-!
# Leaf references

A leaf reference gives a path to another leaf, which may be a reference itself. Its referent is the
leaf at the end of this chain. A chain that comes back to a leaf it has passed is a fault.

**The chain is bounded by the number of leaves**: each step arrives at a leaf that has not been
passed, or is the last.

**Where a path leads is asked for** through a function that is passed in. Many chains run over the
same leaves, so the links of all leaves can be looked up in a table instead of being followed again;
`linkIn_links` says that this makes no difference.
-/

namespace SchemaLink

/-- How the path written at a leaf is followed. -/
abbrev LinkFinder := NodeId → String → Except Halt NodeId

/-- The path of a leaf and where it leads. -/
structure LeafLink where
  path : String
  outcome : Except Halt NodeId

namespace Session

variable (x : Session)

/-- The path of a leaf whose type is a leaf reference. -/
def referencePath? (leaf : NodeId) : Option String :=
  (x.schema.node leaf).content.typeHandle?.bind fun t ↦
    (x.schema.node t).content.describedType?.bind fun spec ↦
      if spec.name = "leafref" then spec.path else none

/-! ### Links -/

/-- Follows the path written at a leaf to another leaf. -/
def followLink : LinkFinder :=
  fun leaf path ↦ x.followFrom true path leaf

/-- The links of all leaf references, at the index of the leaf. -/
def links : Array (Option LeafLink) :=
  (x.schema.nodeIds.map fun leaf ↦
    (x.referencePath? leaf).map fun path ↦ ⟨path, x.followLink leaf path⟩).toArray

/-- Looks a link up in a table, and follows the path if it is not there. -/
def linkIn (table : Array (Option LeafLink)) : LinkFinder :=
  fun leaf path ↦
    match table[leaf.index]?.join with
    | some link => if link.path = path then link.outcome else x.followLink leaf path
    | none => x.followLink leaf path

/-- The table of all links tells where paths lead. -/
theorem linkIn_links : x.linkIn x.links = x.followLink := by
  funext leaf path
  unfold linkIn
  split
  · next link h =>
    split
    · next hp =>
      obtain ⟨index⟩ := leaf
      simp only [links, Schema.nodeIds, List.map_map, List.getElem?_toArray,
        List.getElem?_map] at h
      by_cases hi : index < x.schema.nodes.size
      · simp only [List.getElem?_range hi, Option.map_some, Option.join_some] at h
        obtain ⟨p, -, rfl⟩ := Option.map_eq_some_iff.1 h
        rw [← hp]
      · simp [List.getElem?_eq_none (l := List.range x.schema.nodes.size) (by simpa using hi)] at h
    · rfl
  · rfl

/-! ### Chains -/

/-- Goes on along a chain from a leaf, with at most `n` more steps. -/
def chase (link : LinkFinder) : Nat → List NodeId → NodeId → String → Except Halt NodeId
  | 0, _, _, _ => .error .unending
  | n + 1, passed, origin, path =>
    match link origin path with
    | .error halt => .error halt
    | .ok leaf =>
      if leaf ∈ passed then
        .error (.fault (.cyclicTypeReference (x.schema.label leaf) path
          (x.schema.homeName origin)))
      else
        match x.referencePath? leaf with
        | none => .ok leaf
        | some next => chase link n (leaf :: passed) leaf next

/-- The number of nodes that hold a value. -/
def valueCount : Nat :=
  (x.schema.nodeIds.filter fun id ↦ (x.schema.kind id).holdsValue).length

/-- The leaf at the end of the chain that starts with a path written at a node. -/
def referentBy (link : LinkFinder) (path : String) (origin : NodeId) : Except Halt NodeId :=
  let start := x.schema.carrier origin
  x.chase link (x.valueCount + 1) [start] start path

/-- The leaf at the end of the chain that starts with a path written at a node. -/
def referent (path : String) (origin : NodeId) : Except Halt NodeId :=
  x.referentBy x.followLink path origin

end Session

end SchemaLink
