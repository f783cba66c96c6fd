import SchemaLink.DepthFirst
import SchemaLink.Name
import SchemaLink.Registry

/-!
# Groupings and their uses

A `uses` node refers to a grouping by name. **Scoping is lexical inside a module**: the innermost
enclosing node that declares a grouping of the name wins, then the top level of the module. A
qualifier that denotes another module leads to the top level of that one.

`usagesOf` turns the references round: for each grouping, where it is used. `expand` collects what a
list of uses brings in: the groupings it refers to, those that they use themselves, and so on, each
once.
-/

namespace SchemaLink

namespace Schema

/-- The name by which a node refers to a grouping; a node that is no `uses` refers by its own
name. -/
def groupingReference (s : Schema) (id : NodeId) : String :=
  match (s.node id).content with
  | .uses grouping => grouping
  | _ => (s.node id).name

/-- The first grouping of a name among the children of a node. -/
def groupingIn? (s : Schema) (name : String) (id : NodeId) : Option NodeId :=
  s.firstNamed? name ((s.node id).children.slot .grouping)

/-- The first grouping of a name in the enclosing nodes, innermost first. -/
def enclosingGrouping? (s : Schema) (name : String) (id : NodeId) : Option NodeId :=
  (s.ancestors id).findSome? (s.groupingIn? name)

/-- The first grouping of a name at the top level of a module. -/
def topGrouping? (s : Schema) (name : String) (m : ModuleId) : Option NodeId :=
  s.firstNamed? name (s.topLevel m .grouping)

/-- The grouping of a name that is seen from a node when it is looked for in a given module. -/
def groupingSeen? (s : Schema) (name : String) (target : ModuleId) (id : NodeId) : Option NodeId :=
  (if target = s.homeModule id then s.enclosingGrouping? name id else none).or
    (s.topGrouping? name target)

/-- The children of a grouping that it brings in where it is used. -/
def fieldKinds : List Kind :=
  [.container, .list, .leaf, .leafList, .choice]

end Schema

namespace Registry

/-- The grouping that a qualified name denotes at a node. -/
def groupingCalled (r : Registry) (s : Schema) (q : QName) (id : NodeId) : Except Fault NodeId :=
  match r.moduleFor s (s.homeModule id) (q.qualifier.getD "") with
  | .error fault => .error fault
  | .ok target =>
    match s.groupingSeen? q.name target id with
    | some grouping => .ok grouping
    | none =>
      .error (.unresolvedGrouping (s.groupingReference id) (s.module (s.homeModule id)).name)

/-- The grouping to which a node refers. -/
def groupingOf (r : Registry) (s : Schema) (id : NodeId) : Except Fault NodeId :=
  r.groupingCalled s (QName.ofString (s.groupingReference id)) id

/-- The grouping to which a node refers, if there is one. -/
def groupingOf? (r : Registry) (s : Schema) (id : NodeId) : Option NodeId :=
  (r.groupingOf s id).toOption

/-- All pairs of a grouping and a `uses` that refers to it, in the order of the uses. -/
def usages (r : Registry) (s : Schema) : List (NodeId × NodeId) :=
  (s.nodeIds.filter fun id ↦ s.kind id = .uses).filterMap fun id ↦
    (r.groupingOf? s id).map (·, id)

/-- Where to go on from a node while uses are expanded: from a `uses` to its grouping, from a
grouping to the uses directly inside it. -/
def expansionStep (r : Registry) (s : Schema) (id : NodeId) : List NodeId :=
  match s.kind id with
  | .uses => (r.groupingOf? s id).toList
  | .grouping => (s.node id).children.slot .uses
  | _ => []

end Registry

namespace Children

/-- The children of the given kinds with their kinds, kind after kind. -/
def fields (c : Children) (ks : List Kind) : List (Kind × NodeId) :=
  ks.flatMap fun k ↦ (c.slot k).map (k, ·)

end Children

/-- What a list of uses brings in. -/
structure Contribution where
  /-- The groupings, each once. -/
  groupings : List NodeId
  /-- Their fields. -/
  fields : List (Kind × NodeId)
  /-- The uses that refer to nothing. -/
  failures : List (NodeId × Fault)

namespace Registry

/-- The fault of a `uses` that refers to nothing. -/
def usesFault? (r : Registry) (s : Schema) (id : NodeId) : Option (NodeId × Fault) :=
  match s.kind id, r.groupingOf s id with
  | .uses, .error fault => some (id, fault)
  | _, _ => none

/-- Expands uses depth first. -/
def expand (r : Registry) (s : Schema) (uses : List NodeId) : Contribution :=
  let reached := DepthFirst.search NodeId.index s.nodes.size (r.expansionStep s) uses
  let groupings := reached.filter fun id ↦ s.kind id = .grouping
  { groupings
    fields := groupings.flatMap fun g ↦ (s.node g).children.fields Schema.fieldKinds
    failures := reached.filterMap (r.usesFault? s) }

end Registry

end SchemaLink
