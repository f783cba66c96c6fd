import SchemaLink.Fault
import SchemaLink.Proofs.Growth

/-!
# What is wrong with a batch, and what it means

Two questions about a batch of documents are kept apart here. **What is wrong** with it is the list
`offences`: names that are missing and submodules of modules that are not there, the modules first
and each document from the outside in. **What it means** is the schema that `ofBatch` builds, which
is defined for every batch.

In this description each statement gets its handle before the statements inside it, a typed node is
followed by its type and a union by its members, so the handles of types are known in advance: they
follow from the number of types that come before.
-/

namespace SchemaLink

/-! ### Offences -/

/-- The complaint of a document called `source` if a name is missing. -/
def nameOffence (source complaint name : String) : List Fault :=
  if name = "" then [.invalidDocument source complaint] else []

mutual

/-- The offences of a type that belongs to the node called `owner`. -/
def TypeDescription.offences (source owner : String) : TypeDescription → List Fault
  | ⟨name, _, _, _, _, _, members, _⟩ =>
    nameOffence source (owner ++ " has a type without a name") name
      ++ TypeDescription.listOffences source (Kind.type.keyword ++ ":" ++ name) members

/-- The offences of several types. -/
def TypeDescription.listOffences (source owner : String) : List TypeDescription → List Fault
  | [] => []
  | t :: ts => t.offences source owner ++ TypeDescription.listOffences source owner ts

end

mutual

/-- The offences of a statement, its own before those of its body. -/
def Statement.offences (source : String) : Statement → List Fault
  | .block kind name _ body =>
    nameOffence source (kind.kind.keyword ++ " without a name") name
      ++ Statement.listOffences source body
  | .typed kind name _ type =>
    nameOffence source (kind.kind.keyword ++ " without a name") name
      ++ type.offences source (kind.kind.keyword ++ ":" ++ name)
  | .uses grouping => nameOffence source "uses without a grouping name" grouping
  | .augment target _ body =>
    nameOffence source "augment without a target path" target
      ++ Statement.listOffences source body
  | .identity name _ _ => nameOffence source "identity without a name" name

/-- The offences of several statements. -/
def Statement.listOffences (source : String) : List Statement → List Fault
  | [] => []
  | s :: ss => s.offences source ++ Statement.listOffences source ss

end

/-- The offences of a module. -/
def ModuleDescription.offences (doc : ModuleDescription) : List Fault :=
  (if doc.name = "" ∨ doc.ownPrefix = "" then
    [.invalidDocument doc.name "module requires a name and a prefix"]
  else []) ++ Statement.listOffences doc.name doc.body

/-- The offences of a submodule in a batch with the given modules. -/
def SubmoduleDescription.offences (modules : List String) (doc : SubmoduleDescription) :
    List Fault :=
  (if doc.owner ∈ modules then [] else [.unknownModule doc.owner doc.name])
    ++ Statement.listOffences doc.name doc.body

/-! ### Batches -/

/-- The module documents of a batch, in order. -/
def modulesOf : List Document → List ModuleDescription
  | [] => []
  | .module doc :: docs => doc :: modulesOf docs
  | .submodule _ :: docs => modulesOf docs

/-- The submodule documents of a batch, in order. -/
def submodulesOf : List Document → List SubmoduleDescription
  | [] => []
  | .module _ :: docs => submodulesOf docs
  | .submodule doc :: docs => doc :: submodulesOf docs

/-- The offences of a batch. -/
def offences (docs : List Document) : List Fault :=
  (modulesOf docs).flatMap ModuleDescription.offences
    ++ (submodulesOf docs).flatMap
      (SubmoduleDescription.offences ((modulesOf docs).map ModuleDescription.name))

/-! ### Building -/

mutual

/-- The number of nodes that a type takes: one, and those of its members. -/
def TypeDescription.size : TypeDescription → Nat
  | ⟨_, _, _, _, _, _, members, _⟩ => 1 + TypeDescription.listSize members

/-- The number of nodes that several types take. -/
def TypeDescription.listSize : List TypeDescription → Nat
  | [] => 0
  | t :: ts => t.size + TypeDescription.listSize ts

end

/-- The handles of several types of which the first stands at position `start`. -/
def TypeDescription.handles (start : Nat) : List TypeDescription → List NodeId
  | [] => []
  | t :: ts => ⟨start⟩ :: TypeDescription.handles (start + t.size) ts

namespace Schema

mutual

/-- Adds a type and its members. -/
def addType (s : Schema) (owner : NodeId) (t : TypeDescription) : Schema :=
  match t with
  | ⟨name, range, length, pattern, path, base, members, enums⟩ =>
    let id := s.nextNode
    let spec : TypeBody :=
      { name, range, length, pattern, path, base
        members := TypeDescription.handles (id.index + 1) members
        enums }
    (s.pushNode { name, parent := .node owner, content := .type spec }).addTypes id members

/-- Adds several types. -/
def addTypes (s : Schema) (owner : NodeId) (ts : List TypeDescription) : Schema :=
  match ts with
  | [] => s
  | t :: ts => (s.addType owner t).addTypes owner ts

end

mutual

/-- Adds the node of a statement and everything inside it. -/
def addStatement (s : Schema) (parent : Parent) (st : Statement) : Schema :=
  match st with
  | .block kind name description body =>
    (s.pushNode { name, description, parent, content := .block kind {} }).addStatements
      (.node s.nextNode) body
  | .typed kind name description type =>
    (s.pushNode
      { name, description, parent, content := .typed kind ⟨s.nextNode.index + 1⟩ }).addType
      s.nextNode type
  | .uses grouping => s.pushNode { name := grouping, parent, content := .uses grouping }
  | .augment target description body =>
    (s.pushNode
      { name := target, description, parent, content := .augment target {} }).addStatements
      (.node s.nextNode) body
  | .identity name description bases =>
    s.pushNode { name, description, parent, content := .identity bases }

/-- Adds several statements. -/
def addStatements (s : Schema) (parent : Parent) (sts : List Statement) : Schema :=
  match sts with
  | [] => s
  | st :: sts => (s.addStatement parent st).addStatements parent sts

end

/-- Adds the module that a document describes. -/
def enterModule (s : Schema) (doc : ModuleDescription) : Schema :=
  (s.pushModule
    { name := doc.name, ownPrefix := doc.ownPrefix, space := doc.space
      description := doc.description, imports := doc.imports, includes := doc.includes
      main := s.nextSubmodule }).addStatements (.submodule s.nextSubmodule) doc.body

/-- Adds the submodule that a document describes to the first module with the name of its owner. -/
def enterSubmodule (s : Schema) (doc : SubmoduleDescription) : Schema :=
  match s.moduleNamed? doc.owner with
  | none => s
  | some m =>
    (s.pushSubmodule m doc.name).addStatements (.submodule s.nextSubmodule) doc.body

/-- The meaning of a batch. -/
def ofBatch (docs : List Document) : Schema :=
  (submodulesOf docs).foldl enterSubmodule ((modulesOf docs).foldl enterModule {})

/-! ### Sizes -/

mutual

theorem size_addType (s : Schema) (owner : NodeId) (t : TypeDescription) :
    (s.addType owner t).nodes.size = s.nodes.size + t.size := by
  match t with
  | ⟨name, range, length, pattern, path, base, members, enums⟩ =>
    rw [addType, size_addTypes, size_nodes_pushNode, TypeDescription.size]
    omega

theorem size_addTypes (s : Schema) (owner : NodeId) (ts : List TypeDescription) :
    (s.addTypes owner ts).nodes.size = s.nodes.size + TypeDescription.listSize ts := by
  match ts with
  | [] => rw [addTypes, TypeDescription.listSize, Nat.add_zero]
  | t :: ts =>
    rw [addTypes, size_addTypes, size_addType, TypeDescription.listSize, Nat.add_assoc]

end

end Schema

/-! ### Headings -/

/-- What a module says about itself before its body. -/
structure Heading where
  name : String
  ownPrefix : String
  imports : List Import

/-- The heading of a module. -/
def Module.heading (m : Module) : Heading :=
  ⟨m.name, m.ownPrefix, m.imports⟩

/-- The heading of a described module. -/
def ModuleDescription.heading (doc : ModuleDescription) : Heading :=
  ⟨doc.name, doc.ownPrefix, doc.imports⟩

namespace Schema

variable {s : Schema}

/-- The headings of the modules of a schema, in order. -/
def headings (s : Schema) : List Heading :=
  (s.modules.map Module.heading).toList

theorem headings_eq_of_modules_eq {s s' : Schema} (h : s'.modules = s.modules) :
    s'.headings = s.headings := by
  rw [headings, h, headings]

mutual

theorem modules_addType (s : Schema) (owner : NodeId) (t : TypeDescription) :
    (s.addType owner t).modules = s.modules := by
  match t with
  | ⟨name, range, length, pattern, path, base, members, enums⟩ =>
    rw [addType, modules_addTypes, modules_pushNode]

theorem modules_addTypes (s : Schema) (owner : NodeId) (ts : List TypeDescription) :
    (s.addTypes owner ts).modules = s.modules := by
  match ts with
  | [] => rw [addTypes]
  | t :: ts => rw [addTypes, modules_addTypes, modules_addType]

end

mutual

/-- Statements add no modules. -/
theorem modules_addStatement (s : Schema) (p : Parent) (st : Statement) :
    (s.addStatement p st).modules = s.modules := by
  match st with
  | .block kind name description body =>
    rw [addStatement, modules_addStatements, modules_pushNode]
  | .typed kind name description type => rw [addStatement, modules_addType, modules_pushNode]
  | .uses grouping => rw [addStatement, modules_pushNode]
  | .augment target description body =>
    rw [addStatement, modules_addStatements, modules_pushNode]
  | .identity name description bases => rw [addStatement, modules_pushNode]

theorem modules_addStatements (s : Schema) (p : Parent) (sts : List Statement) :
    (s.addStatements p sts).modules = s.modules := by
  match sts with
  | [] => rw [addStatements]
  | st :: sts => rw [addStatements, modules_addStatements, modules_addStatement]

end

theorem headings_enterModule (s : Schema) (doc : ModuleDescription) :
    (s.enterModule doc).headings = s.headings ++ [doc.heading] := by
  rw [enterModule, headings_eq_of_modules_eq (modules_addStatements _ _ _)]
  simp [headings, pushModule, Module.heading, ModuleDescription.heading]

/-- A submodule is attached to its module, and nothing else is said about the module. -/
theorem headings_enterSubmodule (s : Schema) (doc : SubmoduleDescription) :
    (s.enterSubmodule doc).headings = s.headings := by
  unfold enterSubmodule
  split
  · rfl
  · next m _ =>
    rw [headings_eq_of_modules_eq (modules_addStatements _ _ _)]
    have hattach : ∀ x : Module,
        ({ x with attached := x.attached ++ [s.nextSubmodule] } : Module).heading = x.heading :=
      fun _ ↦ rfl
    simp only [headings, pushSubmodule, modifyModule, map_modify_of_comp_eq hattach]

theorem headings_foldl_enterModule (s : Schema) (ds : List ModuleDescription) :
    (ds.foldl enterModule s).headings = s.headings ++ ds.map ModuleDescription.heading := by
  induction ds generalizing s with
  | nil => simp
  | cons doc ds ih =>
    rw [List.foldl_cons, ih, headings_enterModule, List.append_assoc]
    rfl

theorem names_foldl_enterModule (ds : List ModuleDescription) :
    (ds.foldl enterModule {}).headings.map Heading.name = ds.map ModuleDescription.name := by
  rw [headings_foldl_enterModule, show ({} : Schema).headings = [] by simp [headings],
    List.nil_append, List.map_map]
  rfl

theorem headings_foldl_enterSubmodule (s : Schema) (ds : List SubmoduleDescription) :
    (ds.foldl enterSubmodule s).headings = s.headings := by
  induction ds generalizing s with
  | nil => rfl
  | cons doc ds ih => rw [List.foldl_cons, ih, headings_enterSubmodule]

theorem map_heading_moduleHandles (s : Schema) :
    s.moduleHandles.map (fun m ↦ (s.module m).heading) = s.headings := by
  refine List.ext_getElem (by simp [moduleHandles, headings]) fun i hi _ ↦ ?_
  have hi : i < s.modules.size := by simpa [moduleHandles] using hi
  simp [moduleHandles, headings, module, hi]

/-! ### Looking up modules -/

theorem index_lt_of_moduleNamed? {name : String} {m : ModuleId} (h : s.moduleNamed? name = some m) :
    m.index < s.modules.size := by
  obtain ⟨i, hi, rfl⟩ := List.mem_map.1 (List.mem_of_find?_eq_some h)
  exact List.mem_range.1 hi

theorem mem_headings_of_moduleNamed? {name : String} {m : ModuleId}
    (h : s.moduleNamed? name = some m) : name ∈ s.headings.map Heading.name := by
  have hname : (s.module m).name = name := by simpa using List.find?_some h
  rw [← map_heading_moduleHandles, List.map_map]
  exact List.mem_map.2 ⟨m, List.mem_of_find?_eq_some h, hname⟩

/-- A module is found by its name. -/
theorem exists_moduleNamed? {name : String} (h : name ∈ s.headings.map Heading.name) :
    ∃ m, s.moduleNamed? name = some m ∧ m.index < s.modules.size ∧ (s.module m).name = name := by
  rw [← map_heading_moduleHandles, List.map_map] at h
  obtain ⟨m, hm, hname⟩ := List.mem_map.1 h
  obtain ⟨found, hfound⟩ := Option.isSome_iff_exists.1
    (List.find?_isSome (p := fun i ↦ (s.module i).name = name).2 ⟨m, hm, decide_eq_true hname⟩)
  exact ⟨found, hfound, index_lt_of_moduleNamed? hfound, by simpa using List.find?_some hfound⟩

end Schema

end SchemaLink
