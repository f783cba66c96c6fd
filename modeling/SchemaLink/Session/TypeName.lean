import SchemaLink.Session.Identity
import SchemaLink.Session.Reference

/-!
# Names of types

Two names belong to a typed node. The **written name** is the type as it is declared; a leaf
reference has the written name of its referent, an identity reference the name of its base. The
**value name** is the type that generated code uses for the values.

* Primitive types keep their names, unless a range, length or pattern narrows them.
* Narrowed primitives, enumerations, unions, bit sets and binary values get a generated name from
  the place where they are declared.
* The members of a union get a generated name with their type and position added.
* References to declared types and identities get the generated name of what they denote.
* Leaf references have the name of their referent.
-/

namespace SchemaLink

/-- The built-in types that need no definition. -/
def primitiveTypes : List String :=
  ["int8", "int16", "int32", "int64", "uint8", "uint16", "uint32", "uint64", "string", "boolean",
   "decimal64", "empty", "instance-identifier"]

/-- The built-in types that always need a definition. -/
def definedTypes : List String :=
  ["enumeration", "union", "bits", "binary"]

/-- A name with underscores for hyphens. -/
def underscored (name : String) : String :=
  String.ofList (name.toList.map fun c ↦ if c = '-' then '_' else c)

namespace Session

variable (x : Session)

/-- The type node of a typed node and the type it describes; a type node stands for itself. -/
def ownType (id : NodeId) : Except Fault (NodeId × TypeBody) :=
  let ty :=
    match (x.schema.node id).content with
    | .type _ => some id
    | content => content.typeHandle?
  match ty.bind fun t ↦ (x.schema.node t).content.describedType?.map (t, ·) with
  | some found => .ok found
  | none =>
    .error (.invalidDocument (x.schema.homeName id) (x.schema.label id ++ " carries no type"))

/-- The fault of a leaf reference without a path. -/
def pathlessFault (ty : NodeId) : Fault :=
  .unresolvedPath "" 0 "" "" (x.schema.homeName ty)
    ("leafref in " ++ x.schema.label (x.schema.carrier ty) ++ " has no path")

/-- The referent of a leaf reference. -/
def typeReferent (link : LinkFinder) (ty : NodeId) (spec : TypeBody) : Except Halt NodeId :=
  match spec.path with
  | some path => x.referentBy link path ty
  | none => .error (.fault (x.pathlessFault ty))

/-- The base of an identity reference, which must denote an identity. -/
def referenceBase (ty : NodeId) (spec : TypeBody) : Except Fault String :=
  let missing (base : String) : Fault :=
    .unresolvedIdentity base (x.schema.node (x.schema.carrier ty)).name (x.schema.homeName ty)
  match spec.base with
  | none => .error (missing "")
  | some base =>
    match x.registry.identityNamed? x.schema (x.schema.homeModule ty) base with
    | .error fault => .error fault
    | .ok none => .error (missing base)
    | .ok (some _) => .ok base

/-- The node that gives a type its generated name: the one it belongs to. -/
def namingNode (ty : NodeId) : NodeId :=
  (x.schema.enclosingNode? ty).getD ty

/-- The position of a type among the members of the union it belongs to. -/
def memberIndex? (ty : NodeId) : Option Nat :=
  (x.schema.node (x.namingNode ty)).content.describedType?.bind fun union ↦ union.members.idxOf? ty

/-- The generated name from the place of a type. -/
def placeName (ty : NodeId) : Except Fault String :=
  x.registry.generatedName x.schema (x.schema.homeModule ty)
    (x.schema.scopedLabel (x.namingNode ty))

/-- The name of a built-in type with values of its own. -/
def builtinName (ty : NodeId) (spec : TypeBody) : Except Fault String :=
  match x.memberIndex? ty with
  | some i =>
    (x.placeName ty).map fun place ↦ place ++ "_" ++ underscored spec.name ++ "_" ++ Nat.repr i
  | none =>
    if spec.name ∈ definedTypes ∨ spec.constrained then x.placeName ty else .ok spec.name

/-- The value name of a type that is not followed as a leaf reference. Only a leaf reference without
a path is not followed. -/
def directName (ty : NodeId) (spec : TypeBody) : Except Fault String :=
  let home := x.schema.homeModule ty
  if spec.name = "leafref" then .error (x.pathlessFault ty)
  else if spec.name = "identityref" then
    match x.referenceBase ty spec with
    | .ok base => x.registry.familyTypeNameOf x.schema home base
    | .error fault => .error fault
  else if spec.name ∈ definedTypes ∨ spec.name ∈ primitiveTypes then x.builtinName ty spec
  else x.registry.generatedName x.schema home spec.name

/-- The value name of a node with a type of its own. -/
def ownValueName (id : NodeId) : Except Fault String :=
  match x.ownType id with
  | .ok (ty, spec) => x.directName ty spec
  | .error fault => .error fault

/-- The value name of a typed node or type, given how leaf references are followed. -/
def valueTypeNameBy (link : LinkFinder) (id : NodeId) : Except Halt String :=
  match x.ownType id with
  | .error fault => .error (.fault fault)
  | .ok (ty, spec) =>
    if spec.name = "leafref" then
      match x.typeReferent link ty spec with
      | .ok leaf => Halt.lift (x.ownValueName leaf)
      | .error halt => .error halt
    else Halt.lift (x.directName ty spec)

/-- The written name of a typed node or type, given how leaf references are followed. -/
def writtenTypeNameBy (link : LinkFinder) (id : NodeId) : Except Halt String :=
  match x.ownType id with
  | .error fault => .error (.fault fault)
  | .ok (ty, spec) =>
    if spec.name = "leafref" then
      match x.typeReferent link ty spec with
      | .ok leaf => Halt.lift ((x.ownType leaf).map fun found ↦ found.2.name)
      | .error halt => .error halt
    else if spec.name = "identityref" then Halt.lift (x.referenceBase ty spec)
    else .ok spec.name

/-- The value name of a typed node or type. -/
def valueTypeName (id : NodeId) : Except Halt String :=
  x.valueTypeNameBy x.followLink id

/-- The written name of a typed node or type. -/
def writtenTypeName (id : NodeId) : Except Halt String :=
  x.writtenTypeNameBy x.followLink id

end Session

end SchemaLink
