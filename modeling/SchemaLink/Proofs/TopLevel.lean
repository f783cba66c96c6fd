import SchemaLink.Proofs.Coherence
import SchemaLink.Proofs.Registration

/-!
# Nodes at the top level of modules

References across modules lead to nodes at the top level: a prefix denotes a module, and a name one
of the nodes in its bodies. **A node at the top level of a module stands in that module**
(`IsAbout.homeModule_of_mem_topLevel`), so going back from the node gives the module that the prefix
denoted.

This is a matter of the outline, and of the registry, and so it holds of every session about a
lowered schema (`Session.IsAbout`), however far the session has come.
-/

namespace SchemaLink

variable {s : Schema} {x y : Session} {m home owner : ModuleId} {id : NodeId} {k : Kind}

namespace Schema

theorem mem_topLevel_iff :
    id ∈ s.topLevel m k ↔ ∃ u ∈ (s.module m).units, id ∈ (s.submodule u).body.slot k := by
  simp [topLevel, bodies]

theorem Tidy.exists_unit_of_mem_topLevel (hs : s.Tidy) (hk : k.collected = true)
    (h : id ∈ s.topLevel m k) :
    ∃ u ∈ (s.module m).units, id ∈ s.declaredUnder (.submodule u) k := by
  obtain ⟨u, hu, hid⟩ := mem_topLevel_iff.1 h
  exact ⟨u, hu, by rwa [← hs.slot_body_eq hk]⟩

theorem StandsIn.index_lt (h : s.StandsIn id m) : m.index < s.modules.size := by
  induction h with
  | top _ hm _ => exact hm
  | inside _ _ ih => exact ih

end Schema

namespace Registry

/-- A prefix denotes the module itself or a registered one. -/
theorem Faithful.index_lt_of_moduleFor {r : Registry} {written : String} (hr : r.Faithful s)
    (hhome : home.index < s.modules.size) (h : r.moduleFor s home written = .ok owner) :
    owner.index < s.modules.size := by
  rw [moduleFor] at h
  split at h
  · cases h
    exact hhome
  · split at h
    · cases h
    · split at h
      · cases h
      · next hname =>
        cases h
        exact hr.index_lt_of_mem_modules (hr.byName?_eq_some_iff.1 hname).1

end Registry

namespace Session

/-- The session is about a lowered schema: it has the outline of that schema, and modules of that
schema are registered. -/
structure IsAbout (x : Session) (s : Schema) : Prop where
  tidy : s.Tidy
  framed : s.Framed
  outline_eq : x.schema.outline = s.outline
  faithful : x.registry.Faithful s

theorem isAbout_start {docs : List Document} (hdocs : Schema.ofDocuments docs = .ok s)
    {policy : Policy} (hx : start s policy = .ok x) : x.IsAbout s := by
  obtain ⟨r, hr, rfl⟩ := exists_registry_of_start hx
  exact
    { tidy := Schema.tidy_of_ofDocuments hdocs
      framed := Schema.framed_of_ofDocuments hdocs
      outline_eq := rfl
      faithful := (Registry.built_of_ofSchema hr).faithful }

namespace IsAbout

theorem of_setting_eq (h : x.IsAbout s) (heq : y.setting = x.setting) : y.IsAbout s where
  tidy := h.tidy
  framed := h.framed
  outline_eq :=
    (congrArg Session.schema heq : y.schema.outline = x.schema.outline).trans h.outline_eq
  faithful := by
    have hregistry : y.setting.registry = x.setting.registry := by rw [heq]
    exact (show y.registry = x.registry from hregistry) ▸ h.faithful

theorem performAll (h : x.IsAbout s) (requests : List Request) :
    (x.performAll requests).IsAbout s :=
  h.of_setting_eq (setting_performAll x requests)

variable (h : x.IsAbout s)
include h

theorem framed_schema : x.schema.Framed :=
  h.framed.of_outline_eq h.outline_eq

theorem topLevel_eq (m : ModuleId) : x.schema.topLevel m = s.topLevel m := by
  rw [← Schema.topLevel_outline, h.outline_eq, Schema.topLevel_outline]

theorem size_modules_eq : x.schema.modules.size = s.modules.size := by
  rw [← Schema.size_modules_outline, h.outline_eq, Schema.size_modules_outline]

theorem units_eq (m : ModuleId) : (x.schema.module m).units = (s.module m).units :=
  Schema.units_eq_of_outline_eq h.outline_eq m

theorem kind_of_mem_topLevel (hk : k.collected = true) (hid : id ∈ x.schema.topLevel m k) :
    x.schema.kind id = k := by
  rw [h.topLevel_eq] at hid
  obtain ⟨u, -, hu⟩ := h.tidy.exists_unit_of_mem_topLevel hk hid
  rw [Schema.kind_eq_of_outline_eq h.outline_eq]
  exact (Schema.mem_declaredUnder.1 hu).2.2

/-- A node at the top level of a module is declared in one of its submodules. -/
theorem exists_unit_of_mem_topLevel (hk : k.collected = true)
    (hid : id ∈ x.schema.topLevel m k) :
    ∃ u ∈ (x.schema.module m).units, (x.schema.node id).parent = .submodule u := by
  rw [h.topLevel_eq] at hid
  obtain ⟨u, hunit, hu⟩ := h.tidy.exists_unit_of_mem_topLevel hk hid
  refine ⟨u, by rwa [h.units_eq], ?_⟩
  rw [Schema.parent_eq_of_outline_eq h.outline_eq]
  exact (Schema.mem_declaredUnder.1 hu).2.1

/-- **A node at the top level of a module stands in that module.** -/
theorem homeModule_of_mem_topLevel (hm : m.index < x.schema.modules.size)
    (hk : k.collected = true) (hid : id ∈ x.schema.topLevel m k) :
    x.schema.homeModule id = m := by
  obtain ⟨u, hunit, hp⟩ := h.exists_unit_of_mem_topLevel hk hid
  rw [Schema.homeModule, Schema.homeSubmodule_of_parent_submodule hp]
  exact (h.framed_schema.unit_module m hm u hunit).2

/-- Nodes stand in modules that are there. -/
theorem index_homeModule_lt (hid : id.index < x.schema.nodes.size) :
    (x.schema.homeModule id).index < x.schema.modules.size :=
  ((h.framed_schema.standsIn_iff hid).2 rfl).index_lt

theorem index_lt_of_moduleFor {written : String} (hhome : home.index < x.schema.modules.size)
    (howner : x.registry.moduleFor x.schema home written = .ok owner) :
    owner.index < x.schema.modules.size := by
  rw [h.size_modules_eq] at hhome ⊢
  rw [Registry.moduleFor_eq_of_outline_eq h.outline_eq] at howner
  exact h.faithful.index_lt_of_moduleFor hhome howner

end IsAbout

end Session

end SchemaLink
