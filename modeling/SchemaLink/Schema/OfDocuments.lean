import SchemaLink.Fault
import SchemaLink.Schema.Basic

/-!
# Schemas from documents

A batch of documents is lowered in one pass over its statements, which checks and builds at once.
The modules come first, in the order of their documents, and then the submodules, each of which is
attached to a module that is there by then. **A statement gets its handle before the statements
inside it.** So the handle of a type is not known when the node that owns it is added, and it is
entered afterwards, as are the members of a union, one after the other.

The pass stops at the first name that is missing, and at a submodule whose module is not there.
-/

namespace SchemaLink

/-- Points a typed node to its type. -/
def Content.withType (type : NodeId) : Content → Content
  | .typed kind _ => .typed kind type
  | other => other

/-- Appends a member to a union. -/
def Content.withMember (member : NodeId) : Content → Content
  | .type spec => .type { spec with members := spec.members ++ [member] }
  | other => other

/-- Changes the content of a node. -/
def Schema.modifyContent (s : Schema) (id : NodeId) (f : Content → Content) : Schema :=
  { s with nodes := s.nodes.modify id.index fun n ↦ { n with content := f n.content } }

/-- What stands in a typed node for its type until that has a handle. -/
def NodeId.unassigned : NodeId :=
  ⟨4294967295⟩

/-- A step that adds to a schema, or refuses a document and stops. -/
abbrev Lowering := EStateM Fault Schema

namespace Lowering

/-- Refuses a document called `source` if a name in it is missing. -/
def requireName (source complaint name : String) : Lowering Unit :=
  if name = "" then throw (.invalidDocument source complaint) else pure ()

/-- Appends a node and enters it among the children of its parent. -/
def addNode (n : Node) : Lowering NodeId := do
  let id := (← get).nextNode
  modify (·.pushNode n)
  pure id

/-! ### Types -/

mutual

/-- Lowers a type that belongs to the node `owner`. -/
def lowerType (source : String) (owner : NodeId) : TypeDescription → Lowering NodeId
  | ⟨name, range, length, pattern, path, base, members, enums⟩ => do
    requireName source ((← get).label owner ++ " has a type without a name") name
    let spec : TypeBody := { name, range, length, pattern, path, base, enums }
    let id ← addNode { name, parent := .node owner, content := .type spec }
    lowerMembers source id members
    pure id

/-- Lowers several types and makes them members of a union. -/
def lowerMembers (source : String) (union : NodeId) : List TypeDescription → Lowering Unit
  | [] => pure ()
  | t :: ts => do
    let member ← lowerType source union t
    modify (·.modifyContent union (.withMember member))
    lowerMembers source union ts

end

/-! ### Statements -/

mutual

/-- Lowers a statement with everything inside it. -/
def lowerStatement (source : String) (parent : Parent) : Statement → Lowering Unit
  | .block kind name description body => do
    requireName source (kind.kind.keyword ++ " without a name") name
    let id ← addNode { name, description, parent, content := .block kind {} }
    lowerStatements source (.node id) body
  | .typed kind name description type => do
    requireName source (kind.kind.keyword ++ " without a name") name
    let owner ← addNode { name, description, parent, content := .typed kind .unassigned }
    let id ← lowerType source owner type
    modify (·.modifyContent owner (.withType id))
  | .uses grouping => do
    requireName source "uses without a grouping name" grouping
    let _ ← addNode { name := grouping, parent, content := .uses grouping }
  | .augment target description body => do
    requireName source "augment without a target path" target
    let id ← addNode { name := target, description, parent, content := .augment target {} }
    lowerStatements source (.node id) body
  | .identity name description bases => do
    requireName source "identity without a name" name
    let _ ← addNode { name, description, parent, content := .identity bases }

/-- Lowers several statements in turn. -/
def lowerStatements (source : String) (parent : Parent) : List Statement → Lowering Unit
  | [] => pure ()
  | st :: sts => do
    lowerStatement source parent st
    lowerStatements source parent sts

end

/-! ### Documents -/

/-- Lowers a module with its main body. -/
def lowerModule (doc : ModuleDescription) : Lowering Unit := do
  if doc.name = "" ∨ doc.ownPrefix = "" then
    throw (.invalidDocument doc.name "module requires a name and a prefix")
  let main := (← get).nextSubmodule
  modify (·.pushModule
    { name := doc.name, ownPrefix := doc.ownPrefix, space := doc.space
      description := doc.description, imports := doc.imports, includes := doc.includes, main })
  lowerStatements doc.name (.submodule main) doc.body

/-- Lowers a submodule, which is attached to the first module with the name of its owner. -/
def lowerSubmodule (doc : SubmoduleDescription) : Lowering Unit := do
  match (← get).moduleNamed? doc.owner with
  | none => throw (.unknownModule doc.owner doc.name)
  | some m =>
    let id := (← get).nextSubmodule
    modify (·.pushSubmodule m doc.name)
    lowerStatements doc.name (.submodule id) doc.body

/-- Lowers the modules of a batch and leaves its submodules over, in order. -/
def lowerModules : List Document → Lowering (List SubmoduleDescription)
  | [] => pure []
  | .module doc :: docs => do
    lowerModule doc
    lowerModules docs
  | .submodule doc :: docs => do
    let others ← lowerModules docs
    pure (doc :: others)

/-- Lowers several submodules in turn. -/
def lowerSubmodules : List SubmoduleDescription → Lowering Unit
  | [] => pure ()
  | doc :: docs => do
    lowerSubmodule doc
    lowerSubmodules docs

/-- Lowers a batch, the modules before the submodules. -/
def lowerBatch (docs : List Document) : Lowering Unit := do
  let submodules ← lowerModules docs
  lowerSubmodules submodules

end Lowering

/-- The schema of a batch of documents. -/
def Schema.ofDocuments (docs : List Document) : Except Fault Schema :=
  match Lowering.lowerBatch docs {} with
  | .ok () s => .ok s
  | .error fault _ => .error fault

end SchemaLink
