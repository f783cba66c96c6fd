import SchemaLink.Document.Basic
import SchemaLink.Schema.Children

/-!
# Schemas

A schema holds every module, submodule and node of a batch. A handle is a position in one of its
three arrays, and entries are only ever appended or changed in place, so handles stay valid.

**Every node knows its place**: a submodule, if it stands at the top level, or another node. The
parent of a node is there before the node is, so its position is smaller; that is why climbing from
a node, `Schema.ancestors`, needs no more steps than the node's position.

**Look-up is total.** A handle that denotes nothing gives a blank entry; no handle of that sort ever
comes out of the operations of this library.
-/

namespace SchemaLink

/-- A type, with the members of a union given as nodes. -/
structure TypeBody where
  name : String
  range : Option String := none
  length : Option String := none
  pattern : Option String := none
  path : Option String := none
  base : Option String := none
  members : List NodeId := []
  enums : List String := []
deriving DecidableEq

/-- A range, a length or a pattern narrows the type. -/
def TypeBody.constrained (t : TypeBody) : Bool :=
  t.range.isSome || t.length.isSome || t.pattern.isSome

/-- What a node holds besides its name. -/
inductive Content where
  | block (kind : BlockKind) (children : Children)
  | augment (target : String) (children : Children)
  | uses (grouping : String)
  | typed (kind : TypedKind) (type : NodeId)
  | identity (bases : List String)
  | type (spec : TypeBody)
deriving DecidableEq

namespace Content

/-- The kind of node with this content. -/
def kind : Content → Kind
  | block k _ => k.kind
  | augment _ _ => .augment
  | uses _ => .uses
  | typed k _ => k.kind
  | identity _ => .identity
  | type _ => .type

/-- The children, for the kinds that own any. -/
def children? : Content → Option Children
  | block _ c | augment _ c => some c
  | _ => none

/-- Changes the children, for the kinds that own any. -/
def mapChildren (f : Children → Children) : Content → Content
  | block k c => block k (f c)
  | augment t c => augment t (f c)
  | other => other

/-- The type node of a typed node. -/
def typeHandle? : Content → Option NodeId
  | typed _ t => some t
  | _ => none

/-- The type that a type node describes. -/
def describedType? : Content → Option TypeBody
  | type t => some t
  | _ => none

@[simp] theorem kind_mapChildren (f : Children → Children) (c : Content) :
    (c.mapChildren f).kind = c.kind := by
  cases c <;> rfl

@[simp] theorem children?_mapChildren (f : Children → Children) (c : Content) :
    (c.mapChildren f).children? = c.children?.map f := by
  cases c <;> rfl

end Content

/-- Where a node is declared. -/
inductive Parent where
  | submodule (id : SubmoduleId)
  | node (id : NodeId)
deriving DecidableEq

/-- A node. -/
structure Node where
  name : String
  description : Option String := none
  parent : Parent
  content : Content
deriving DecidableEq

namespace Node

/-- The kind of a node. -/
def kind (n : Node) : Kind :=
  n.content.kind

/-- The children of a node, for the kinds that own any. -/
def children? (n : Node) : Option Children :=
  n.content.children?

/-- The children of a node; none for the kinds that own none. -/
def children (n : Node) : Children :=
  n.children?.getD {}

/-- Kind and name, as nodes are called in reports. -/
def label (n : Node) : String :=
  n.kind.keyword ++ ":" ++ n.name

end Node

/-- An entry of an identity table: `identity` is derived from the identity `base`. -/
structure IdentityEntry where
  identity : String
  base : NodeId
  /-- The generated name of the table. -/
  baseType : String
  /-- The name space of the module that declares the direct base. -/
  space : String
  /-- The prefix of that module. -/
  ownPrefix : String
deriving DecidableEq

/-- A module. -/
structure Module where
  name : String
  ownPrefix : String
  space : String
  description : Option String := none
  imports : List Import := []
  includes : List String := []
  /-- The submodule that holds the module's own body. -/
  main : SubmoduleId
  /-- The other submodules, in the order of their arrival. -/
  attached : List SubmoduleId := []
  /-- The identities without bases that need a generated type, sorted by name. -/
  roots : List (String × NodeId) := []
deriving DecidableEq

namespace Module

/-- All submodules, the main one first. -/
def units (m : Module) : List SubmoduleId :=
  m.main :: m.attached

/-- The prefix that a module binds to a module of the given name. -/
def prefixFor? (m : Module) (name : String) : Option String :=
  (m.imports.find? (·.module = name)).map Import.localPrefix

/-- Binds a name to a root identity in a list that is sorted by name. -/
def insertRoot (name : String) (id : NodeId) : List (String × NodeId) → List (String × NodeId)
  | [] => [(name, id)]
  | e :: es =>
    if e.1 = name then (name, id) :: es
    else if name < e.1 then (name, id) :: e :: es
    else e :: insertRoot name id es

end Module

/-- A submodule. -/
structure Submodule where
  name : String
  module : ModuleId
  isMain : Bool
  body : Children := {}
  /-- The identity table entries of the identities declared here. -/
  table : List IdentityEntry := []
deriving DecidableEq

/-- A schema. -/
structure Schema where
  nodes : Array Node := #[]
  modules : Array Module := #[]
  submodules : Array Submodule := #[]
deriving DecidableEq

namespace Schema

/-! ### Look-up -/

/-- The entry for a handle that denotes no node. -/
def blankNode : Node :=
  { name := "", parent := .submodule ⟨0⟩, content := .uses "" }

/-- The node of a handle. -/
def node (s : Schema) (id : NodeId) : Node :=
  s.nodes[id.index]?.getD blankNode

/-- The module of a handle. -/
def module (s : Schema) (id : ModuleId) : Module :=
  s.modules[id.index]?.getD { name := "", ownPrefix := "", space := "", main := ⟨0⟩ }

/-- The submodule of a handle. -/
def submodule (s : Schema) (id : SubmoduleId) : Submodule :=
  s.submodules[id.index]?.getD { name := "", module := ⟨0⟩, isMain := true }

/-- The handles of all nodes, in order. -/
def nodeIds (s : Schema) : List NodeId :=
  (List.range s.nodes.size).map NodeId.mk

/-- The handles of all modules, in order. -/
def moduleHandles (s : Schema) : List ModuleId :=
  (List.range s.modules.size).map ModuleId.mk

/-- The kind of a node. -/
def kind (s : Schema) (id : NodeId) : Kind :=
  (s.node id).kind

/-- How a node is called in reports. -/
def label (s : Schema) (id : NodeId) : String :=
  (s.node id).label

/-- The first module of a name. -/
def moduleNamed? (s : Schema) (name : String) : Option ModuleId :=
  s.moduleHandles.find? fun m ↦ (s.module m).name = name

/-- The first submodule of a module with a given name. -/
def submoduleNamed? (s : Schema) (m : ModuleId) (name : String) : Option SubmoduleId :=
  (s.module m).units.find? fun u ↦ (s.submodule u).name = name

/-- The bodies of a module: its main one and those of its submodules. -/
def bodies (s : Schema) (m : ModuleId) : List Children :=
  (s.module m).units.map fun u ↦ (s.submodule u).body

/-- The first of some nodes with a given name. -/
def firstNamed? (s : Schema) (name : String) (ids : List NodeId) : Option NodeId :=
  ids.find? fun id ↦ (s.node id).name = name

/-- The first child of a given kind and name. -/
def childNamed? (s : Schema) (name : String) (c : Children) (k : Kind) : Option NodeId :=
  (c.entries.find? fun e ↦ e.1 = k ∧ (s.node e.2).name = name).map Prod.snd

theorem childNamed?_eq (s : Schema) (name : String) (c : Children) (k : Kind) :
    s.childNamed? name c k = s.firstNamed? name (c.slot k) := by
  simp [childNamed?, firstNamed?, Children.slot, List.find?_map, List.find?_filter]

/-- The first child of a given name among those that appear in data. -/
def dataNamed? (s : Schema) (name : String) (c : Children) : Option NodeId :=
  Kind.dataKinds.findSome? (s.childNamed? name c)

/-- Searching kind by kind is searching all data children in order. -/
theorem dataNamed?_eq (s : Schema) (name : String) (c : Children) :
    s.dataNamed? name c = s.firstNamed? name c.data := by
  have h : s.childNamed? name c = fun k ↦ s.firstNamed? name (c.slot k) :=
    funext (s.childNamed?_eq name c)
  simp [dataNamed?, h, firstNamed?, Children.data, Children.slots, List.find?_flatMap]

/-- The top-level nodes of one kind in all bodies of a module. -/
def topLevel (s : Schema) (m : ModuleId) (k : Kind) : List NodeId :=
  (s.bodies m).flatMap (·.slot k)

/-! ### Climbing -/

/-- The node in which a node is declared. -/
def enclosingNode? (s : Schema) (id : NodeId) : Option NodeId :=
  match (s.node id).parent with
  | .node p => some p
  | .submodule _ => none

/-- The first `n` ancestors of a node, innermost first. -/
def ancestorsUpTo (s : Schema) : Nat → NodeId → List NodeId
  | 0, _ => []
  | n + 1, id =>
    match s.enclosingNode? id with
    | none => []
    | some p => p :: ancestorsUpTo s n p

/-- The ancestors of a node, innermost first. -/
def ancestors (s : Schema) (id : NodeId) : List NodeId :=
  s.ancestorsUpTo id.index id

/-- A node and its ancestors, innermost first. -/
def lineage (s : Schema) (id : NodeId) : List NodeId :=
  id :: s.ancestors id

/-- The submodule in which a node stands, directly or deep inside. -/
def homeSubmodule (s : Schema) (id : NodeId) : SubmoduleId :=
  match (s.node ((s.lineage id).getLast (by simp [lineage]))).parent with
  | .submodule u => u
  | .node _ => ⟨0⟩

/-- The module in which a node stands. -/
def homeModule (s : Schema) (id : NodeId) : ModuleId :=
  (s.submodule (s.homeSubmodule id)).module

/-- The name of the module in which a node stands. -/
def homeName (s : Schema) (id : NodeId) : String :=
  (s.module (s.homeModule id)).name

/-- The node whose values a type describes: the innermost node that is no type, counting from the
type itself. Any other node is its own carrier, and so is a type that stands nowhere. -/
def carrier (s : Schema) (id : NodeId) : NodeId :=
  let line := s.lineage id
  (line.find? fun a ↦ s.kind a ≠ .type).getD (line.getLast (by simp [line, lineage]))

/-! ### Declared children -/

/-- The kinds of children in the order in which declared names are looked up. -/
def declaredKinds : List Kind :=
  Kind.dataKinds ++ [.grouping, .augment, .identity, .typedef, .uses]

/-- The first declared child of a given name. -/
def declaredIn? (s : Schema) (name : String) (c : Children) : Option NodeId :=
  s.firstNamed? name (c.slots declaredKinds)

/-- Follows names downward through declared children only. -/
def declaredBelow? (s : Schema) (id : NodeId) : List String → Option NodeId
  | [] => some id
  | name :: names =>
    match (s.node id).children?.bind (s.declaredIn? name) with
    | none => none
    | some child => declaredBelow? s child names

/-- Follows names from the top level of a module through declared children only. -/
def findDeclared? (s : Schema) (m : ModuleId) : List String → Option NodeId
  | [] => none
  | name :: names =>
    match (s.bodies m).findSome? (s.declaredIn? name) with
    | none => none
    | some id => s.declaredBelow? id names

/-! ### Growth -/

/-- The handle that the next node will get. -/
def nextNode (s : Schema) : NodeId :=
  ⟨s.nodes.size⟩

/-- The handle that the next module will get. -/
def nextModule (s : Schema) : ModuleId :=
  ⟨s.modules.size⟩

/-- The handle that the next submodule will get. -/
def nextSubmodule (s : Schema) : SubmoduleId :=
  ⟨s.submodules.size⟩

/-- Changes the children of a node. -/
def modifyChildren (s : Schema) (id : NodeId) (f : Children → Children) : Schema :=
  { s with
    nodes := s.nodes.modify id.index fun n ↦ { n with content := n.content.mapChildren f } }

/-- Changes a submodule. -/
def modifySubmodule (s : Schema) (id : SubmoduleId) (f : Submodule → Submodule) : Schema :=
  { s with submodules := s.submodules.modify id.index f }

/-- Changes a module. -/
def modifyModule (s : Schema) (id : ModuleId) (f : Module → Module) : Schema :=
  { s with modules := s.modules.modify id.index f }

/-- Enters a node among the children of its parent. -/
def link (s : Schema) (parent : Parent) (kind : Kind) (id : NodeId) : Schema :=
  match parent with
  | .submodule u => s.modifySubmodule u fun m ↦ { m with body := m.body.insert kind id }
  | .node p => s.modifyChildren p (·.insert kind id)

/-- Appends a node and enters it among the children of its parent. -/
def pushNode (s : Schema) (n : Node) : Schema :=
  { s with nodes := s.nodes.push n }.link n.parent n.kind s.nextNode

/-- Appends a module with its main submodule, whose handle and emptiness replace those given. -/
def pushModule (s : Schema) (m : Module) : Schema :=
  { s with
    modules := s.modules.push { m with main := s.nextSubmodule, attached := [], roots := [] }
    submodules := s.submodules.push { name := m.name, module := s.nextModule, isMain := true } }

/-- Appends a submodule and attaches it to its module. -/
def pushSubmodule (s : Schema) (m : ModuleId) (name : String) : Schema :=
  { s with
    submodules := s.submodules.push { name, module := m, isMain := false } }.modifyModule m
      fun x ↦ { x with attached := x.attached ++ [s.nextSubmodule] }

end Schema

end SchemaLink
