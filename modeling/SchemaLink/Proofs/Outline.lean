import SchemaLink.Session.Augment
import SchemaLink.Proofs.Growth

/-!
# The outline of a schema

Linking changes three things in a schema: the children of targets, the recorded roots of modules and
the identity tables of submodules. What is left when these are taken out is the *outline*, and it
never changes. **Whatever is read off the outline alone has the same answer before, during and after
linking**: where a node is declared, in which module, what a prefix denotes, and to which grouping a
`uses` refers (`groupingOf_outline`).

Merging adds children of seven kinds only (`contributedKinds`), so the outline keeps the children of
all other kinds, among them groupings and uses.
-/

namespace SchemaLink

/-- The children that merging never adds. -/
def Children.outline (c : Children) : Children :=
  ⟨c.entries.filter fun e ↦ e.1 ∉ contributedKinds⟩

/-- A node without the children that merging may add. -/
def Node.outline (n : Node) : Node :=
  { n with content := n.content.mapChildren Children.outline }

/-- A module without its recorded roots. -/
def Module.outline (m : Module) : Module :=
  { m with roots := [] }

/-- A submodule without its identity table. -/
def Submodule.outline (u : Submodule) : Submodule :=
  { u with table := [] }

/-- A schema without what linking may change. -/
def Schema.outline (s : Schema) : Schema where
  nodes := s.nodes.map Node.outline
  modules := s.modules.map Module.outline
  submodules := s.submodules.map Submodule.outline

variable {s s' : Schema} {id : NodeId} {k : Kind}

/-! ### Children and nodes -/

theorem Children.slot_outline (c : Children) (hk : k ∉ contributedKinds) :
    c.outline.slot k = c.slot k := by
  rw [slot, slot, outline, List.filter_filter]
  congr 1
  refine List.filter_congr fun e _ ↦ ?_
  by_cases he : e.1 = k <;> simp [he, hk]

theorem Children.outline_insert (c : Children) (hk : k ∈ contributedKinds) :
    (c.insert k id).outline = c.outline := by
  unfold insert
  split
  · simp [outline, hk]
  · rfl

theorem Children.outline_insertAll (c : Children) {fields : List (Kind × NodeId)}
    (h : ∀ f ∈ fields, f.1 ∈ contributedKinds) : (c.insertAll fields).outline = c.outline := by
  induction fields generalizing c with
  | nil => rfl
  | cons f fields ih =>
    calc (c.insertAll (f :: fields)).outline
        = ((c.insert f.1 f.2).insertAll fields).outline := rfl
      _ = (c.insert f.1 f.2).outline := ih _ fun g hg ↦ h g (by simp [hg])
      _ = c.outline := c.outline_insert (h f (by simp))

namespace Node

@[simp] theorem name_outline (n : Node) : n.outline.name = n.name :=
  rfl

@[simp] theorem parent_outline (n : Node) : n.outline.parent = n.parent :=
  rfl

@[simp] theorem content_outline (n : Node) :
    n.outline.content = n.content.mapChildren Children.outline :=
  rfl

@[simp] theorem kind_outline (n : Node) : n.outline.kind = n.kind := by
  simp [kind]

theorem children_outline (n : Node) : n.outline.children = n.children.outline := by
  rcases h : n.content.children? <;> simp [children, children?, h]
  rfl

end Node

@[simp] theorem Module.units_outline (m : Module) : m.outline.units = m.units :=
  rfl

namespace Schema

/-! ### Entries -/

@[simp] theorem node_outline (s : Schema) (id : NodeId) :
    s.outline.node id = (s.node id).outline := by
  rcases Nat.lt_or_ge id.index s.nodes.size with hid | hid
  · simp [node, outline, hid]
  · rw [node_of_size_le hid, node_of_size_le (by simpa [outline] using hid)]
    rfl

@[simp] theorem module_outline (s : Schema) (m : ModuleId) :
    s.outline.module m = (s.module m).outline := by
  rcases Nat.lt_or_ge m.index s.modules.size with hm | hm <;>
    simp [module, outline, hm, Module.outline]

@[simp] theorem submodule_outline (s : Schema) (u : SubmoduleId) :
    s.outline.submodule u = (s.submodule u).outline := by
  rcases Nat.lt_or_ge u.index s.submodules.size with hu | hu <;>
    simp [submodule, outline, hu, Submodule.outline]

@[simp] theorem kind_outline (s : Schema) (id : NodeId) : s.outline.kind id = s.kind id := by
  simp [kind]

@[simp] theorem size_nodes_outline (s : Schema) : s.outline.nodes.size = s.nodes.size := by
  simp [outline]

@[simp] theorem size_modules_outline (s : Schema) :
    s.outline.modules.size = s.modules.size := by
  simp [outline]

@[simp] theorem size_submodules_outline (s : Schema) :
    s.outline.submodules.size = s.submodules.size := by
  simp [outline]

@[simp] theorem nodeIds_outline (s : Schema) : s.outline.nodeIds = s.nodeIds := by
  simp [nodeIds]

@[simp] theorem bodies_outline (s : Schema) (m : ModuleId) : s.outline.bodies m = s.bodies m := by
  simp [bodies, Submodule.outline]

@[simp] theorem firstNamed?_outline (s : Schema) : s.outline.firstNamed? = s.firstNamed? := by
  funext name ids
  simp [firstNamed?]

@[simp] theorem topLevel_outline (s : Schema) (m : ModuleId) :
    s.outline.topLevel m = s.topLevel m := by
  funext k
  simp [topLevel]

theorem hasParent_outline (s : Schema) (p : Parent) : s.outline.HasParent p ↔ s.HasParent p := by
  cases p <;> simp [HasParent, outline]

/-- Whether handles denote something is read off the outline. -/
theorem grounded_of_outline_eq (h : s'.outline = s.outline) (hs : s.Grounded) : s'.Grounded where
  parent_exists := by
    intro id hid
    have hparent := hs.parent_exists id (by rwa [← size_nodes_outline, ← h, size_nodes_outline])
    rw [← hasParent_outline, ← Node.parent_outline, ← node_outline, ← h] at hparent
    rwa [hasParent_outline, node_outline, Node.parent_outline] at hparent
  main_exists := by
    intro m hm
    have hmodules : s'.modules.size = s.modules.size := by
      simpa [outline] using congrArg (·.modules.size) h
    have hsubmodules : s'.submodules.size = s.submodules.size := by
      simpa [outline] using congrArg (·.submodules.size) h
    have hmain : (s'.module m).main = (s.module m).main := by
      simpa [Module.outline] using congrArg (fun z ↦ (z.module m).main) h
    rw [hmain, hsubmodules]
    exact hs.main_exists m (hmodules ▸ hm)

/-! ### Climbing -/

@[simp] theorem enclosingNode?_outline (s : Schema) (id : NodeId) :
    s.outline.enclosingNode? id = s.enclosingNode? id := by
  simp [enclosingNode?]

theorem ancestorsUpTo_outline (s : Schema) (n : Nat) (id : NodeId) :
    s.outline.ancestorsUpTo n id = s.ancestorsUpTo n id := by
  induction n generalizing id with
  | zero => rfl
  | succ n ih => simp [ancestorsUpTo, ih]

@[simp] theorem ancestors_outline (s : Schema) (id : NodeId) :
    s.outline.ancestors id = s.ancestors id :=
  s.ancestorsUpTo_outline _ _

@[simp] theorem homeSubmodule_outline (s : Schema) (id : NodeId) :
    s.outline.homeSubmodule id = s.homeSubmodule id := by
  simp [homeSubmodule, lineage]

@[simp] theorem homeModule_outline (s : Schema) (id : NodeId) :
    s.outline.homeModule id = s.homeModule id := by
  simp [homeModule, Submodule.outline]

/-! ### Groupings -/

@[simp] theorem groupingReference_outline (s : Schema) (id : NodeId) :
    s.outline.groupingReference id = s.groupingReference id := by
  rcases hc : (s.node id).content <;> simp [groupingReference, hc, Content.mapChildren]

theorem groupingIn?_outline (s : Schema) (name : String) :
    s.outline.groupingIn? name = s.groupingIn? name := by
  funext id
  have hk : Kind.grouping ∉ contributedKinds := by decide
  simp [groupingIn?, Node.children_outline, Children.slot_outline _ hk]

end Schema

namespace Registry

theorem moduleFor_outline (r : Registry) (s : Schema) (home : ModuleId) (written : String) :
    r.moduleFor s.outline home written = r.moduleFor s home written := by
  simp [moduleFor, Module.outline]

/-- **Uses keep referring to the same groupings.** -/
theorem groupingOf_outline (r : Registry) (s : Schema) (id : NodeId) :
    r.groupingOf s.outline id = r.groupingOf s id := by
  simp [groupingOf, groupingCalled, moduleFor_outline, Schema.groupingSeen?,
    Schema.enclosingGrouping?, Schema.groupingIn?_outline, Schema.topGrouping?, Module.outline]

end Registry

/-! ### Schemas with the same outline -/

section

variable (h : s'.outline = s.outline)
include h

namespace Schema

theorem node_outline_eq_of_outline_eq (id : NodeId) :
    (s'.node id).outline = (s.node id).outline := by
  rw [← node_outline, h, node_outline]

theorem name_eq_of_outline_eq (id : NodeId) : (s'.node id).name = (s.node id).name := by
  rw [← Node.name_outline, node_outline_eq_of_outline_eq h, Node.name_outline]

theorem parent_eq_of_outline_eq (id : NodeId) : (s'.node id).parent = (s.node id).parent := by
  rw [← Node.parent_outline, node_outline_eq_of_outline_eq h, Node.parent_outline]

theorem kind_eq_of_outline_eq (id : NodeId) : s'.kind id = s.kind id := by
  rw [← kind_outline, h, kind_outline]

theorem label_eq_of_outline_eq (id : NodeId) : s'.label id = s.label id := by
  have hkind : (s'.node id).kind = (s.node id).kind := kind_eq_of_outline_eq h id
  rw [label, Node.label, name_eq_of_outline_eq h, hkind, label, Node.label]

theorem size_eq_of_outline_eq : s'.nodes.size = s.nodes.size := by
  rw [← size_nodes_outline, h, size_nodes_outline]

theorem module_outline_eq_of_outline_eq (m : ModuleId) :
    (s'.module m).outline = (s.module m).outline := by
  rw [← module_outline, h, module_outline]

theorem moduleName_eq_of_outline_eq (m : ModuleId) : (s'.module m).name = (s.module m).name :=
  (congrArg Module.name (module_outline_eq_of_outline_eq h m) :
    (s'.module m).outline.name = (s.module m).outline.name)

theorem units_eq_of_outline_eq (m : ModuleId) : (s'.module m).units = (s.module m).units := by
  rw [← Module.units_outline, module_outline_eq_of_outline_eq h, Module.units_outline]

end Schema

namespace Registry

theorem moduleFor_eq_of_outline_eq (r : Registry) (home : ModuleId) (written : String) :
    r.moduleFor s' home written = r.moduleFor s home written := by
  rw [← r.moduleFor_outline s', h, r.moduleFor_outline]

theorem groupingOf_eq_of_outline_eq (r : Registry) (id : NodeId) :
    r.groupingOf s' id = r.groupingOf s id := by
  rw [← r.groupingOf_outline s', h, r.groupingOf_outline]

end Registry

end

/-! ### Changes that leave the outline alone -/

namespace Schema

theorem outline_modifyChildren {f : Children → Children} (hf : ∀ c, (f c).outline = c.outline) :
    (s.modifyChildren id f).outline = s.outline := by
  have hnode : ∀ n : Node,
      ({ n with content := n.content.mapChildren f } : Node).outline = n.outline := by
    intro n
    rcases hc : n.content <;> simp [Node.outline, hc, Content.mapChildren, hf]
  simp only [outline, modifyChildren, map_modify_of_comp_eq hnode]

theorem outline_modifyModule {m : ModuleId} {f : Module → Module}
    (hf : ∀ d, (f d).outline = d.outline) : (s.modifyModule m f).outline = s.outline := by
  simp only [outline, modifyModule, map_modify_of_comp_eq hf]

theorem outline_modifySubmodule {u : SubmoduleId} {f : Submodule → Submodule}
    (hf : ∀ d, (f d).outline = d.outline) : (s.modifySubmodule u f).outline = s.outline := by
  simp only [outline, modifySubmodule, map_modify_of_comp_eq hf]

end Schema

end SchemaLink
