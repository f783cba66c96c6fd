import SchemaLink.ImportOrder
import SchemaLink.Session.Augment
import SchemaLink.Session.TypeName

/-!
# Linking a schema

A schema is linked in three stages: its modules are registered and ordered by their imports; in that
order, the identities of each module are recorded and then its augments merged; at last the type of
every typed node that has a place in the data is named, so that faults in types are noted.
-/

namespace SchemaLink

/-- A linked schema. -/
structure Linked where
  session : Session
  /-- The modules in the order in which they were processed. -/
  order : List ModuleId

namespace Linked

/-- The names of the modules in the order in which they were processed. -/
def processedNames (l : Linked) : List String :=
  l.order.map fun m ↦ (l.session.schema.module m).name

end Linked

/-- A question with a yes or no answer, asked of several nodes: those with the answer yes. -/
def selectM (question : NodeId → Except Halt Bool) : List NodeId → Except Halt (List NodeId)
  | [] => .ok []
  | id :: rest =>
    match question id with
    | .error halt => .error halt
    | .ok keep =>
      match selectM question rest with
      | .error halt => .error halt
      | .ok kept => .ok (if keep then id :: kept else kept)

namespace Session

/-- The nodes that own a type. -/
def typedNodes (x : Session) : List NodeId :=
  x.schema.nodeIds.filter fun id ↦ (x.schema.node id).content.typeHandle?.isSome

/-- The nodes that own a type and have a place in the data. -/
def placedTypedNodes (x : Session) : Except Halt (List NodeId) :=
  selectM x.inDataTree x.typedNodes

end Session

namespace Link

/-- Completes several modules in turn. -/
def completeModules : List ModuleId → Link Unit
  | [] => pure ()
  | m :: rest => do
    let _ ← indexIdentitiesOf m
    let _ ← mergeAugmentsOf m
    completeModules rest

/-- Names the types of several nodes; `table` holds the links of all leaf references. -/
def checkNames (table : Array (Option LeafLink)) : List NodeId → Link Unit
  | [] => pure ()
  | id :: rest => do
    let _ ← attempt .resolveType id (ask fun x ↦ x.valueTypeNameBy (x.linkIn table) id)
    checkNames table rest

/-- Names the type of every typed node that has a place in the data. The links do not change on the
way, since only diagnostics are added. -/
def nameAllTypes : Link Unit := do
  let ids ← ask (·.placedTypedNodes)
  checkNames (← get).links ids

end Link

namespace Schema

/-- Links a schema. -/
def resolve (s : Schema) (policy : Policy) : Except Halt Linked :=
  match Session.start s policy with
  | .error fault => .error (.fault fault)
  | .ok x =>
    match x.registry.importOrder s with
    | .error fault => .error (.fault fault)
    | .ok order =>
      match (do Link.completeModules order; Link.nameAllTypes : Link Unit) x with
      | .ok () y => .ok { session := y, order }
      | .error halt _ => .error halt

end Schema

end SchemaLink
