import SchemaLink.Path
import SchemaLink.Registry

/-!
# Generated names

Names in generated code come from qualified names. **A qualifier is replaced by the own prefix of
the module it denotes**, so the same thing gets the same name in every module that refers to it,
whatever prefix is bound to its module there.
-/

namespace SchemaLink

namespace Registry

/-- The generated name for a name written in a module. -/
def generatedName (r : Registry) (s : Schema) (home : ModuleId) (written : String) :
    Except Fault String :=
  let q := QName.ofString written
  match q.qualifier with
  | none => .ok (Name.identifier ((s.module home).ownPrefix ++ ":" ++ q.name))
  | some p =>
    match r.moduleFor s home p with
    | .ok owner => .ok (Name.identifier ((s.module owner).ownPrefix ++ ":" ++ q.name))
    | .error fault => .error fault

/-- The name of the generated type of the identities derived from one named `written`. -/
def familyTypeNameOf (r : Registry) (s : Schema) (home : ModuleId) (written : String) :
    Except Fault String :=
  r.generatedName s home (written ++ "_id")

/-- The name of the generated type of the identities derived from an identity. -/
def familyTypeName (r : Registry) (s : Schema) (id : NodeId) : Except Fault String :=
  r.familyTypeNameOf s (s.homeModule id) (s.node id).name

end Registry

namespace Schema

/-- What a node adds to the names of the nodes inside it: its own name, or for an augment the names
along its target path. -/
def nameLabel (s : Schema) (id : NodeId) : String :=
  match (s.node id).content with
  | .augment target _ => "_".intercalate ((Path.ofString target).segments.filterMap Segment.name?)
  | _ => (s.node id).name

/-- The labels from the top level of the module down to a node, joined. -/
def scopedLabel (s : Schema) (id : NodeId) : String :=
  "_".intercalate ((s.lineage id).reverse.map s.nameLabel)

end Schema

end SchemaLink
