import SchemaLink.Session.Follow

/-!
# Merging augments

An augment adds nodes to a target elsewhere: its own children, and the fields of the groupings that
its uses bring in. Merging enters these nodes among the children of the target. **Nodes are shared,
not copied**, and a node that is already there is not entered again, so merging an augment into the
same target a second time changes nothing.

Some combinations are not allowed and are left out: a case outside of a choice, a notification
outside of a container or list.
-/

namespace SchemaLink

/-- The kinds of children that an augment adds itself. -/
def contributedKinds : List Kind :=
  [.container, .list, .leaf, .leafList, .choice, .notification, .case]

/-- A child of one kind may be added to a target of another. -/
def admits (target child : Kind) : Bool :=
  match child with
  | .case => target = .choice
  | .notification => target = .container || target = .list
  | _ => true

namespace Children

/-- Enters several children in turn. -/
def insertAll (c : Children) (fields : List (Kind × NodeId)) : Children :=
  fields.foldl (fun c f ↦ c.insert f.1 f.2) c

end Children

/-- What an augment adds, before the target is asked what it admits. -/
def Registry.contribution (r : Registry) (s : Schema) (children : Children) : Contribution :=
  let used := r.expand s (children.slot .uses)
  { used with fields := children.fields contributedKinds ++ used.fields }

namespace Session

/-- Enters a contribution among the children of a target and records the target. -/
def merge (x : Session) (augment target : NodeId) (added : Contribution) : Session :=
  let kind := x.schema.kind target
  { x with
    schema := x.schema.modifyChildren target
      (·.insertAll (added.fields.filter fun f ↦ admits kind f.1))
    targets := (augment, target) :: x.targets.filter (·.1 ≠ augment)
    mergedGroupings :=
      x.mergedGroupings ++ added.groupings.filter (· ∉ x.mergedGroupings) }

/-- Where an augment is to be merged, and what it adds there. -/
def mergePlan (x : Session) (augment : NodeId) : Except Halt (NodeId × Contribution) :=
  match (x.schema.node augment).content with
  | .augment path children =>
    match x.followFrom false path augment with
    | .error halt => .error halt
    | .ok target =>
      let kind := x.schema.kind target
      if kind.augmentable then .ok (target, x.registry.contribution x.schema children)
      else .error (.fault (.invalidAugmentTarget path kind.keyword (x.schema.homeName augment)))
  | _ => .error (.fault (x.notAugment augment))

end Session

namespace Link

/-- Merges an augment into its target; the result is the target. Uses that refer to nothing are
passed over one by one, if they can be, after the rest has been merged. -/
def mergeAugment (augment : NodeId) : Link NodeId := do
  let (target, added) ← ask (·.mergePlan augment)
  modify (·.merge augment target added)
  tolerateAll .expandUses added.failures
  pure target

/-- Merges several augments in turn and counts them. -/
def mergeAll : List NodeId → Link Nat
  | [] => pure 0
  | augment :: rest => do
    let first ← attempt .applyAugment augment (mergeAugment augment)
    let others ← mergeAll rest
    pure (first.toList.length + others)

end Link

namespace Schema

/-- The submodules of a module in the order in which their augments are merged: the main one, those
that it includes by first mention, and the others. -/
def mergeUnits (s : Schema) (m : ModuleId) : List SubmoduleId :=
  let d := s.module m
  (d.main :: (d.includes.filterMap (s.submoduleNamed? m) ++ d.attached)).eraseDups

/-- The includes of a module that name no submodule of it. -/
def missingIncludes (s : Schema) (m : ModuleId) : List String :=
  (s.module m).includes.filter fun name ↦ (s.submoduleNamed? m name).isNone

/-- The augments at the top level of a module, in the order in which they are merged. -/
def augmentsOf (s : Schema) (m : ModuleId) : List NodeId :=
  (s.mergeUnits m).flatMap fun u ↦ (s.submodule u).body.slot .augment

end Schema

/-- The warning about an include that names no submodule. -/
def includeWarning (module name : String) : Diagnostic :=
  .ofWarning .applyAugment "W001" module name
    ("included submodule " ++ name ++ " is not part of the batch")

/-- Notes the includes of a module that name no submodule of it. -/
def Session.noteMissingIncludes (x : Session) (m : ModuleId) : Session :=
  let warnings := (x.schema.missingIncludes m).map (includeWarning (x.schema.module m).name)
  { x with diagnostics := x.diagnostics ++ warnings }

/-- Merges the augments of a module; the result is how many were merged. -/
def Link.mergeAugmentsOf (m : ModuleId) : Link Nat := do
  modify (·.noteMissingIncludes m)
  mergeAll ((← get).schema.augmentsOf m)

end SchemaLink
