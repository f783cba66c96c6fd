import SchemaLink.Session.Basic

/-!
# Places in the data

Where a node is declared is not always where its data is. A node inside a grouping has its data
wherever the grouping is used; a node inside an augment has it in the target; choices and cases
leave no trace. Two questions depend on that.

* `anchors`: the positions to which `..` leads, from a declared parent. Choices and cases are passed
  over, a grouping stands for the parents of all its uses, an augment for its target.
* `inDataTree`: whether a node has any place in the data of a module.

Both are depth-first searches upward over declared parents. **The target of an augment is asked
for** through a function that is passed in, since finding it can lead to these questions again.
-/

namespace SchemaLink

/-- A position on a path: the top level of a module, or a node. -/
inductive Position where
  | top (module : ModuleId)
  | node (id : NodeId)
deriving DecidableEq

/-- How the target of an augment is found. -/
abbrev TargetFinder := NodeId → Except Halt NodeId

/-- The number of a parent: submodules have the even numbers and nodes the odd ones. -/
def Parent.number : Parent → Nat
  | .submodule u => 2 * u.index
  | .node id => 2 * id.index + 1

/-- The numbers of all parents in a schema are smaller than this. -/
def Schema.parentBound (s : Schema) : Nat :=
  2 * (s.submodules.size + s.nodes.size)

/-- Searches parents depth first. -/
def Schema.searchParents (s : Schema) (next : Parent → List Parent) (start : Parent) :
    List Parent :=
  DepthFirst.search Parent.number s.parentBound next [start]

namespace Session

variable (x : Session) (target : TargetFinder)

/-- The declared parents of the uses of a grouping. -/
def usePlaces (grouping : NodeId) : List Parent :=
  (x.occurrencesOf grouping).map fun u ↦ (x.schema.node u).parent

/-! ### Anchors -/

/-- The parents that stand for a parent without data of its own. -/
def anchorStep : Parent → List Parent
  | .submodule _ => []
  | .node p =>
    match x.schema.kind p with
    | .choice | .case => [(x.schema.node p).parent]
    | .grouping => x.usePlaces p
    | _ => []

/-- The position of a parent, if it has one of its own. An augment whose target is not found has
none. -/
def anchorAt : Parent → Except Halt (Option Position)
  | .submodule u => .ok (some (.top (x.schema.submodule u).module))
  | .node p =>
    match x.schema.kind p with
    | .choice | .case | .grouping => .ok none
    | .augment =>
      match target p with
      | .ok t => .ok (some (.node t))
      | .error (.fault _) => .ok none
      | .error .unending => .error .unending
    | _ => .ok (some (.node p))

/-- The positions to which `..` leads from a node declared in the given parent, each once. -/
def anchors (parent : Parent) : Except Halt (List Position) :=
  match (x.schema.searchParents x.anchorStep parent).mapM (x.anchorAt target) with
  | .ok found => .ok (found.filterMap id).eraseDups
  | .error halt => .error halt

/-! ### Presence in the data -/

/-- Where to look on for a place in the data. -/
def placeStep : Parent → List Parent
  | .submodule _ => []
  | .node p =>
    match x.schema.kind p with
    | .grouping => x.usePlaces p
    | .augment =>
      match target p with
      | .ok t => [.node t]
      | .error _ => []
    | _ => [(x.schema.node p).parent]

/-- Whether the search can be ended at a parent: the top level of a module is a place, and an
augment whose target is never found keeps the search from ending. -/
def placeVerdict : Parent → Option (Except Halt Bool)
  | .submodule _ => some (.ok true)
  | .node p =>
    match x.schema.kind p with
    | .augment =>
      match target p with
      | .error .unending => some (.error .unending)
      | _ => none
    | _ => none

/-- The node has a place in the data of some module. -/
def inDataTreeBy (id : NodeId) : Except Halt Bool :=
  let parent := (x.schema.node (x.schema.carrier id)).parent
  let line := x.schema.searchParents (x.placeStep target) parent
  (line.findSome? (x.placeVerdict target)).getD (.ok false)

end Session

end SchemaLink
