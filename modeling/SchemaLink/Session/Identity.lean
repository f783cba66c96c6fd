import SchemaLink.Naming
import SchemaLink.Session.Basic

/-!
# Identities

An identity may be derived from others, its bases; the first one counts. Following first bases gives
the ancestry of an identity, which ends at a root: an identity without bases. Each base is looked up
in the module of the identity that names it.

**What is recorded.** Each module lists its roots, which need a generated type. Each submodule has a
table with one entry for each of its identities and each ancestor of it. Nothing is recorded twice.
-/

namespace SchemaLink

namespace Registry

/-- The identity that a name denotes in a module, if there is one. -/
def identityNamed? (r : Registry) (s : Schema) (home : ModuleId) (written : String) :
    Except Fault (Option NodeId) :=
  let q := QName.ofString written
  match r.moduleFor s home (q.qualifier.getD "") with
  | .error fault => .error fault
  | .ok owner => .ok (s.firstNamed? q.name (s.topLevel owner .identity))

end Registry

/-- The first base that an identity names. -/
def Schema.firstBase? (s : Schema) (id : NodeId) : Option String :=
  match (s.node id).content with
  | .identity bases => bases.head?
  | _ => none

namespace Session

variable (x : Session)

/-- The identity that another one names as a base. -/
def baseOf (id : NodeId) (written : String) : Except Fault NodeId :=
  match x.registry.identityNamed? x.schema (x.schema.homeModule id) written with
  | .error fault => .error fault
  | .ok (some base) => .ok base
  | .ok none =>
    .error (.unresolvedIdentity written (x.schema.node id).name (x.schema.homeName id))

/-- The fault of an identity whose ancestry comes back to `again` after the identities `passed`. -/
def cycleFault (id : NodeId) (passed : List NodeId) (again : NodeId) : Fault :=
  .cyclicIdentityBase (x.schema.node id).name (x.schema.homeName id)
    ((passed ++ [again]).map fun a ↦ (x.schema.node a).name)

/-- The identity that is the first base of another; a root has none. -/
def nextBase (id : NodeId) : Except Fault (Option NodeId) :=
  match x.schema.firstBase? id with
  | none => .ok none
  | some written => (x.baseOf id written).map some

/-- Goes on from the last of the identities `passed`, the first of which is `id`, with at most `n`
more steps. -/
def ancestryFrom (id : NodeId) : Nat → List NodeId → NodeId → Except Fault (List NodeId)
  | 0, passed, _ => .ok passed
  | n + 1, passed, current =>
    match x.nextBase current with
    | .error fault => .error fault
    | .ok none => .ok passed
    | .ok (some base) =>
      if base ∈ passed then .error (x.cycleFault id passed base)
      else ancestryFrom id n (passed ++ [base]) base

/-- The ancestors of an identity, from its first base up to the root. There are never more steps
than nodes. -/
def ancestry (id : NodeId) : Except Fault (List NodeId) :=
  match x.ancestryFrom id (x.schema.nodes.size + 1) [id] id with
  | .ok passed => .ok passed.tail
  | .error fault => .error fault

/-- The root from which an identity is derived; a root is its own. -/
def rootOf (id : NodeId) : Except Fault NodeId :=
  match x.ancestry id with
  | .ok line => .ok (line.getLastD id)
  | .error fault => .error fault

/-- Records a root with its module. -/
def addRoot (m : ModuleId) (root : NodeId) : Session :=
  { x with
    schema := x.schema.modifyModule m fun d ↦
      { d with roots := Module.insertRoot (x.schema.node root).name root d.roots } }

/-- Records table entries of one identity with a submodule, each once. Only the entries that the
identity already has can be among them. -/
def addEntries (u : SubmoduleId) (identity : String) (entries : List IdentityEntry) : Session :=
  { x with
    schema := x.schema.modifySubmodule u fun d ↦
      let known := d.table.filter (·.identity = identity)
      { d with table := d.table ++ (entries.filter (· ∉ known)).eraseDups } }

/-- The table entry of an identity for one of its ancestors; `base` is its first base. -/
def entryFor (id base ancestor : NodeId) : Except Fault IdentityEntry :=
  match x.registry.familyTypeName x.schema ancestor with
  | .error fault => .error fault
  | .ok baseType =>
    let owner := x.schema.module (x.schema.homeModule base)
    .ok
      { identity := (x.schema.node id).name, base := ancestor, baseType
        space := owner.space, ownPrefix := owner.ownPrefix }

end Session

namespace Link

/-- The table entries of an identity for some of its ancestors. Faults are passed over one by
one. -/
def entriesFor (id base : NodeId) : List NodeId → Link (List IdentityEntry)
  | [] => pure []
  | ancestor :: rest => do
    let entry ← attempt .locateBase id (ask fun x ↦ Halt.lift (x.entryFor id base ancestor))
    let entries ← entriesFor id base rest
    pure (entry.toList ++ entries)

/-- Records what follows from the ancestry of an identity declared in a submodule of a module. The
result is the number of identities recorded: one, or none if the ancestry has a fault that is passed
over. -/
def indexIdentity (m : ModuleId) (u : SubmoduleId) (id : NodeId) : Link Nat := do
  match ← attempt .locateBase id (ask fun x ↦ Halt.lift (x.ancestry id)) with
  | none => pure 0
  | some [] =>
    modify (·.addRoot m id)
    pure 1
  | some (base :: line) =>
    let root := line.getLastD base
    modify fun x ↦ x.addRoot (x.schema.homeModule root) root
    let entries ← entriesFor id base (base :: line)
    modify fun x ↦ x.addEntries u (x.schema.node id).name entries
    pure 1

/-- Records several identities and counts them. -/
def indexAll (m : ModuleId) : List (SubmoduleId × NodeId) → Link Nat
  | [] => pure 0
  | (u, id) :: rest => do
    let first ← indexIdentity m u id
    let others ← indexAll m rest
    pure (first + others)

end Link

/-- The identities at the top level of a module, each with its submodule. -/
def Schema.identitiesOf (s : Schema) (m : ModuleId) : List (SubmoduleId × NodeId) :=
  (s.module m).units.flatMap fun u ↦ ((s.submodule u).body.slot .identity).map (u, ·)

/-- Records the identities of a module; the result is how many were recorded. -/
def Link.indexIdentitiesOf (m : ModuleId) : Link Nat := do
  indexAll m ((← get).schema.identitiesOf m)

end SchemaLink
