import SchemaLink.Proofs.Distinct
import SchemaLink.Proofs.Recording

/-!
# Roots and identity tables

What is recorded of identities goes into two collections that are only ever added to: the roots of a
module, a map from names that is kept as a list sorted by name, and the table of a submodule, a list
without repetitions. **Adding the same things again changes neither of them**, although a name may
come twice among the roots that are added, and is then bound to the first one for a while
(`Module.insertRoots_insertRoots`, `Submodule.extendTables_extendTables`).

Recording several identities adds to the roots of each module those that belong there, and to the
table of each submodule the entries of its identities (`Session.module_recordedAll`,
`Session.submodule_recordedAll`). What is added does not depend on what is there. So recording the
same identities again leaves the schema as it is (`Session.schema_recordedAll_recordedAll`).
-/

namespace SchemaLink

variable {x y : Session} {m d : ModuleId} {u v : SubmoduleId} {id base : NodeId}
  {name key : String} {roots new : List (String × NodeId)} {e : String × NodeId}
  {table entries : List IdentityEntry} {entry : IdentityEntry} {ids : List (SubmoduleId × NodeId)}
  {added : List (String × List IdentityEntry)}

/-! ### Lists of roots -/

namespace Module

theorem mem_insertRoot (h : e ∈ insertRoot name id roots) : e = (name, id) ∨ e ∈ roots := by
  fun_induction insertRoot name id roots <;> grind

theorem mem_keys_insertRoot :
    key ∈ (insertRoot name id roots).map Prod.fst ↔ key = name ∨ key ∈ roots.map Prod.fst := by
  fun_induction insertRoot name id roots <;> grind

theorem sorted_insertRoot (h : (roots.map Prod.fst).Pairwise (· < ·)) :
    ((insertRoot name id roots).map Prod.fst).Pairwise (· < ·) := by
  induction roots with
  | nil => simp [insertRoot]
  | cons e rest ih =>
    rw [List.map_cons, List.pairwise_cons] at h
    rw [insertRoot]
    split
    · next heq => exact List.pairwise_cons.2 ⟨heq ▸ h.1, h.2⟩
    · split
      · next hlt =>
        refine List.pairwise_cons.2 ⟨fun k hk ↦ ?_, List.pairwise_cons.2 h⟩
        rcases List.mem_cons.1 hk with rfl | hk
        · exact hlt
        · exact String.lt_trans hlt (h.1 k hk)
      · next hne hnlt =>
        refine List.pairwise_cons.2 ⟨fun k hk ↦ ?_, ih h.2⟩
        rcases mem_keys_insertRoot.1 hk with rfl | hk
        · grind
        · exact h.1 k hk

/-- A root that is bound again is bound to the last one. -/
theorem insertRoot_insertRoot_self (name : String) (id id' : NodeId)
    (roots : List (String × NodeId)) :
    insertRoot name id (insertRoot name id' roots) = insertRoot name id roots := by
  fun_induction insertRoot name id' roots <;> grind [insertRoot]

/-- The order in which different names are bound does not matter. -/
theorem insertRoot_comm {name' : String} (h : name ≠ name') (id id' : NodeId)
    (roots : List (String × NodeId)) :
    insertRoot name id (insertRoot name' id' roots) =
      insertRoot name' id' (insertRoot name id roots) := by
  induction roots with
  | nil => grind [insertRoot]
  | cons e rest ih => grind [insertRoot]

/-- Binds several roots in turn. -/
def insertRoots (new roots : List (String × NodeId)) : List (String × NodeId) :=
  new.foldl (fun l e ↦ insertRoot e.1 e.2 l) roots

theorem mem_insertRoots (h : e ∈ insertRoots new roots) : e ∈ new ∨ e ∈ roots := by
  induction new generalizing roots with
  | nil => exact .inr h
  | cons f rest ih =>
    rcases ih h with h | h
    · exact .inl (List.mem_cons_of_mem f h)
    · rcases mem_insertRoot h with rfl | h
      · exact .inl List.mem_cons_self
      · exact .inr h

theorem mem_keys_insertRoots :
    key ∈ (insertRoots new roots).map Prod.fst ↔
      key ∈ new.map Prod.fst ∨ key ∈ roots.map Prod.fst := by
  induction new generalizing roots with
  | nil => simp [insertRoots]
  | cons f rest ih =>
    rw [insertRoots, List.foldl_cons, ← insertRoots, ih, mem_keys_insertRoot, List.map_cons,
      List.mem_cons]
    tauto

theorem sorted_insertRoots (h : (roots.map Prod.fst).Pairwise (· < ·)) :
    ((insertRoots new roots).map Prod.fst).Pairwise (· < ·) := by
  induction new generalizing roots with
  | nil => exact h
  | cons f rest ih => exact ih (sorted_insertRoot h)

/-- A root that is bound later leaves no trace of what it was bound to. -/
theorem insertRoots_insertRoot_of_mem (h : name ∈ new.map Prod.fst) :
    insertRoots new (insertRoot name id roots) = insertRoots new roots := by
  induction new generalizing roots with
  | nil => simp at h
  | cons f rest ih =>
    rw [insertRoots, insertRoots, List.foldl_cons, List.foldl_cons, ← insertRoots, ← insertRoots]
    by_cases hname : f.1 = name
    · rw [hname, insertRoot_insertRoot_self]
    · rw [insertRoot_comm hname]
      exact ih (by simpa [Ne.symm hname] using h)

theorem insertRoots_insertRoot_of_not_mem (h : name ∉ new.map Prod.fst) :
    insertRoots new (insertRoot name id roots) = insertRoot name id (insertRoots new roots) := by
  induction new generalizing roots with
  | nil => rfl
  | cons f rest ih =>
    rw [List.map_cons, List.mem_cons, not_or] at h
    rw [insertRoots, insertRoots, List.foldl_cons, List.foldl_cons, ← insertRoots, ← insertRoots,
      insertRoot_comm (Ne.symm h.1), ih h.2]

/-- **Binding the same roots again changes nothing**, even if a name comes twice among them. -/
theorem insertRoots_insertRoots (new roots : List (String × NodeId)) :
    insertRoots new (insertRoots new roots) = insertRoots new roots := by
  induction new generalizing roots with
  | nil => rfl
  | cons f rest ih =>
    have hcons (l : List (String × NodeId)) :
        insertRoots (f :: rest) l = insertRoots rest (insertRoot f.1 f.2 l) := rfl
    rw [hcons, hcons]
    by_cases hf : f.1 ∈ rest.map Prod.fst
    · rw [insertRoots_insertRoot_of_mem hf, ih]
    · rw [← insertRoots_insertRoot_of_not_mem hf, insertRoot_insertRoot_self, ih]

end Module

/-! ### Tables -/

namespace Submodule

/-- A table to which entries of one identity have been added. -/
def extendTable (identity : String) (entries table : List IdentityEntry) : List IdentityEntry :=
  table ++ (entries.filter (· ∉ table.filter (·.identity = identity))).eraseDups

theorem mem_extendTable :
    entry ∈ extendTable name entries table ↔ entry ∈ table ∨ entry ∈ entries := by
  simp only [extendTable, List.mem_append, List.mem_eraseDups, List.mem_filter, decide_eq_true_eq]
  tauto

theorem nodup_extendTable (hentries : ∀ entry ∈ entries, entry.identity = name)
    (h : table.Nodup) : (extendTable name entries table).Nodup := by
  refine List.nodup_append.2 ⟨h, Distinct.nodup_eraseDups _, fun a ha b hb hab ↦ ?_⟩
  obtain ⟨hb, hnew⟩ := List.mem_filter.1 (List.mem_eraseDups.1 hb)
  -- what is in the table and belongs to the identity would have been known
  exact of_decide_eq_true hnew (List.mem_filter.2 ⟨hab ▸ ha, by simpa using hentries b hb⟩)

theorem extendTable_of_subset (hentries : ∀ entry ∈ entries, entry.identity = name)
    (h : entries ⊆ table) : extendTable name entries table = table := by
  have hnil : entries.filter (· ∉ table.filter (·.identity = name)) = [] := by
    refine List.filter_eq_nil_iff.2 fun entry hentry ↦ ?_
    simp [h hentry, hentries entry hentry]
  rw [extendTable, hnil]
  simp

/-- A table to which entries of several identities have been added in turn. -/
def extendTables (added : List (String × List IdentityEntry)) (table : List IdentityEntry) :
    List IdentityEntry :=
  added.foldl (fun t a ↦ extendTable a.1 a.2 t) table

theorem mem_extendTables :
    entry ∈ extendTables added table ↔ entry ∈ table ∨ ∃ a ∈ added, entry ∈ a.2 := by
  induction added generalizing table with
  | nil => simp [extendTables]
  | cons a rest ih =>
    rw [extendTables, List.foldl_cons, ← extendTables, ih, mem_extendTable,
      List.exists_mem_cons_iff]
    exact or_assoc

theorem nodup_extendTables (hadded : ∀ a ∈ added, ∀ entry ∈ a.2, entry.identity = a.1)
    (h : table.Nodup) : (extendTables added table).Nodup := by
  induction added generalizing table with
  | nil => exact h
  | cons a rest ih =>
    exact ih (fun b hb ↦ hadded b (List.mem_cons_of_mem a hb))
      (nodup_extendTable (hadded a List.mem_cons_self) h)

/-- **Adding the same entries again changes nothing.** -/
theorem extendTables_extendTables (hadded : ∀ a ∈ added, ∀ entry ∈ a.2, entry.identity = a.1) :
    extendTables added (extendTables added table) = extendTables added table := by
  have hknown (rest : List (String × List IdentityEntry)) (hrest : rest ⊆ added) :
      extendTables rest (extendTables added table) = extendTables added table := by
    induction rest with
    | nil => rfl
    | cons a rest ih =>
      have ha : a ∈ added := hrest List.mem_cons_self
      rw [extendTables, List.foldl_cons, ← extendTables, extendTable_of_subset (hadded a ha)]
      · exact ih fun b hb ↦ hrest (List.mem_cons_of_mem a hb)
      · exact fun entry hentry ↦ mem_extendTables.2 (.inr ⟨a, ha, hentry⟩)
  exact hknown added (List.Subset.refl _)

end Submodule

/-! ### What has been recorded -/

namespace Session

theorem name_eq_of_setting_eq (h : y.setting = x.setting) (a : NodeId) :
    (y.schema.node a).name = (x.schema.node a).name :=
  Schema.name_eq_of_outline_eq (congrArg Session.schema h) a

/-- The roots of a module `d` that are recorded with an identity of the module `m`. -/
def newRoots (x : Session) (m d : ModuleId) (id : NodeId) : List (String × NodeId) :=
  match x.listedRoot? m id with
  | none => []
  | some (owner, root) => if d = owner then [((x.schema.node root).name, root)] else []

theorem newRoots_eq_of_setting_eq (h : y.setting = x.setting) (m d : ModuleId) (id : NodeId) :
    y.newRoots m d id = x.newRoots m d id := by
  have hentry : y.listedRoot? m id = x.listedRoot? m id := by
    rw [← y.listedRoot?_setting, h, x.listedRoot?_setting]
  simp only [newRoots, hentry, name_eq_of_setting_eq h]

theorem module_withRoot (hd : d.index < x.schema.modules.size) :
    (x.withRoot m id).schema.module d =
      { x.schema.module d with
        roots := Module.insertRoots (x.newRoots m d id) (x.schema.module d).roots } := by
  rcases hentry : x.listedRoot? m id with - | ⟨owner, root⟩
  · simp [withRoot, newRoots, hentry, Module.insertRoots]
  · simp only [withRoot, newRoots, hentry, addRoot, Schema.module_modifyModule]
    by_cases howner : d = owner
    · simp [← howner, hd, Module.insertRoots]
    · simp [howner, Module.insertRoots]

theorem submodules_withRoot (x : Session) (m : ModuleId) (id : NodeId) :
    (x.withRoot m id).schema.submodules = x.schema.submodules := by
  unfold withRoot
  split <;> rfl

theorem size_modules_withRoot (x : Session) (m : ModuleId) (id : NodeId) :
    (x.withRoot m id).schema.modules.size = x.schema.modules.size := by
  unfold withRoot
  split
  · rfl
  · exact Schema.size_modifyModule _ _ _

theorem module_recorded (hd : d.index < x.schema.modules.size) :
    (x.recorded m u id).schema.module d =
      { x.schema.module d with
        roots := Module.insertRoots (x.newRoots m d id) (x.schema.module d).roots } :=
  module_withRoot hd

theorem submodule_addEntries (x : Session) (u v : SubmoduleId) (identity : String)
    (entries : List IdentityEntry) :
    (x.addEntries u identity entries).schema.submodule v =
      if v = u ∧ u.index < x.schema.submodules.size then
        { x.schema.submodule v with
          table := Submodule.extendTable identity entries (x.schema.submodule v).table }
      else x.schema.submodule v :=
  Schema.submodule_modifySubmodule _ _ _ v

theorem submodule_recorded (x : Session) (m : ModuleId) (u v : SubmoduleId) (id : NodeId) :
    (x.recorded m u id).schema.submodule v =
      if v = u ∧ u.index < x.schema.submodules.size then
        { x.schema.submodule v with
          table := Submodule.extendTable (x.schema.node id).name (x.entriesOf id)
            (x.schema.submodule v).table }
      else x.schema.submodule v := by
  have hsubmodule : (x.withRoot m id).schema.submodule = x.schema.submodule := by
    funext v
    rw [Schema.submodule, submodules_withRoot, Schema.submodule]
  rw [recorded, submodule_addEntries, submodules_withRoot, hsubmodule]

theorem nodes_recorded (x : Session) (m : ModuleId) (u : SubmoduleId) (id : NodeId) :
    (x.recorded m u id).schema.nodes = x.schema.nodes := by
  have hroot : (x.withRoot m id).schema.nodes = x.schema.nodes := by
    unfold withRoot
    split <;> rfl
  exact hroot

theorem size_modules_recorded (x : Session) (m : ModuleId) (u : SubmoduleId) (id : NodeId) :
    (x.recorded m u id).schema.modules.size = x.schema.modules.size :=
  size_modules_withRoot x m id

theorem size_submodules_recorded (x : Session) (m : ModuleId) (u : SubmoduleId) (id : NodeId) :
    (x.recorded m u id).schema.submodules.size = x.schema.submodules.size := by
  rw [recorded, addEntries, Schema.size_modifySubmodule, submodules_withRoot]

theorem recordedAll_cons (x : Session) (m : ModuleId) (i : SubmoduleId × NodeId)
    (rest : List (SubmoduleId × NodeId)) :
    x.recordedAll m (i :: rest) = (x.recorded m i.1 i.2).recordedAll m rest :=
  rfl

theorem setting_recordedAll (x : Session) (m : ModuleId) (ids : List (SubmoduleId × NodeId)) :
    (x.recordedAll m ids).setting = x.setting := by
  induction ids generalizing x with
  | nil => rfl
  | cons i rest ih => rw [recordedAll_cons, ih, setting_recorded]

theorem nodes_recordedAll (x : Session) (m : ModuleId) (ids : List (SubmoduleId × NodeId)) :
    (x.recordedAll m ids).schema.nodes = x.schema.nodes := by
  induction ids generalizing x with
  | nil => rfl
  | cons i rest ih => rw [recordedAll_cons, ih, nodes_recorded]

/-- **The roots of a module** once some identities of the module `m` have been recorded. -/
theorem module_recordedAll (hd : d.index < x.schema.modules.size) :
    (x.recordedAll m ids).schema.module d =
      { x.schema.module d with
        roots := Module.insertRoots (ids.flatMap fun i ↦ x.newRoots m d i.2)
          (x.schema.module d).roots } := by
  induction ids generalizing x with
  | nil => rfl
  | cons i rest ih =>
    have hnew (j : NodeId) : (x.recorded m i.1 i.2).newRoots m d j = x.newRoots m d j :=
      newRoots_eq_of_setting_eq (setting_recorded x m i.1 i.2) m d j
    rw [recordedAll_cons, ih (by rwa [size_modules_recorded]), module_recorded hd]
    simp only [hnew, List.flatMap_cons, Module.insertRoots, List.foldl_append]

/-- The table entries of some identities that belong to the submodule `v`, with the names of the
identities. -/
def newEntries (x : Session) (v : SubmoduleId) (ids : List (SubmoduleId × NodeId)) :
    List (String × List IdentityEntry) :=
  (ids.filter (·.1 = v)).map fun i ↦ ((x.schema.node i.2).name, x.entriesOf i.2)

theorem newEntries_eq_of_setting_eq (h : y.setting = x.setting) (v : SubmoduleId)
    (ids : List (SubmoduleId × NodeId)) : y.newEntries v ids = x.newEntries v ids := by
  have hentries (a : NodeId) : y.entriesOf a = x.entriesOf a := by
    rw [← y.entriesOf_setting, h, x.entriesOf_setting]
  simp only [newEntries, hentries, name_eq_of_setting_eq h]

/-- **The table of a submodule** once some identities have been recorded. -/
theorem submodule_recordedAll (hv : v.index < x.schema.submodules.size) :
    (x.recordedAll m ids).schema.submodule v =
      { x.schema.submodule v with
        table := Submodule.extendTables (x.newEntries v ids) (x.schema.submodule v).table } := by
  induction ids generalizing x with
  | nil => rfl
  | cons i rest ih =>
    rw [recordedAll_cons, ih (by rwa [size_submodules_recorded]), submodule_recorded,
      newEntries_eq_of_setting_eq (setting_recorded x m i.1 i.2)]
    by_cases hi : i.1 = v
    · simp [newEntries, hi, hv, Submodule.extendTables]
    · simp [newEntries, hi, Ne.symm hi, Submodule.extendTables]

theorem size_modules_recordedAll (x : Session) (m : ModuleId)
    (ids : List (SubmoduleId × NodeId)) :
    (x.recordedAll m ids).schema.modules.size = x.schema.modules.size := by
  induction ids generalizing x with
  | nil => rfl
  | cons i rest ih => rw [recordedAll_cons, ih, size_modules_recorded]

theorem size_submodules_recordedAll (x : Session) (m : ModuleId)
    (ids : List (SubmoduleId × NodeId)) :
    (x.recordedAll m ids).schema.submodules.size = x.schema.submodules.size := by
  induction ids generalizing x with
  | nil => rfl
  | cons i rest ih => rw [recordedAll_cons, ih, size_submodules_recorded]

/-- **An entry of an identity** names one of its ancestors, with the generated name of that
ancestor's family, and the module of the first base. -/
theorem mem_entriesOf_iff :
    entry ∈ x.entriesOf id ↔
      ∃ base line, x.ancestry id = .ok (base :: line) ∧
        ∃ ancestor ∈ base :: line, entry.identity = (x.schema.node id).name ∧
          entry.base = ancestor ∧
          x.registry.familyTypeName x.schema ancestor = .ok entry.baseType ∧
          entry.space = (x.schema.module (x.schema.homeModule base)).space ∧
          entry.ownPrefix = (x.schema.module (x.schema.homeModule base)).ownPrefix := by
  have hentry (base ancestor : NodeId) : x.entryFor id base ancestor = .ok entry ↔
      entry.identity = (x.schema.node id).name ∧ entry.base = ancestor ∧
        x.registry.familyTypeName x.schema ancestor = .ok entry.baseType ∧
        entry.space = (x.schema.module (x.schema.homeModule base)).space ∧
        entry.ownPrefix = (x.schema.module (x.schema.homeModule base)).ownPrefix := by
    obtain ⟨identity, base', baseType, space, ownPrefix⟩ := entry
    rcases hname : x.registry.familyTypeName x.schema ancestor with fault | name
    · simp [entryFor, hname]
    · simp [entryFor, hname, eq_comm]
  rcases hline : x.ancestry id with fault | - | ⟨base, line⟩
  · simp [entriesOf, hline]
  · simp [entriesOf, hline]
  · simp only [entriesOf_of_cons hline, entriesFor, List.mem_filterMap, toOption_eq_some_iff,
      hentry, Except.ok.injEq, List.cons.injEq]
    constructor
    · rintro ⟨ancestor, hmem, h⟩
      exact ⟨base, line, ⟨rfl, rfl⟩, ancestor, hmem, h⟩
    · rintro ⟨_, _, ⟨rfl, rfl⟩, ancestor, hmem, h⟩
      exact ⟨ancestor, hmem, h⟩

theorem identity_of_mem_newEntries (x : Session) (v : SubmoduleId)
    (ids : List (SubmoduleId × NodeId)) :
    ∀ a ∈ x.newEntries v ids, ∀ entry ∈ a.2, entry.identity = a.1 := by
  intro a ha entry hentry
  obtain ⟨i, -, rfl⟩ := List.mem_map.1 ha
  obtain ⟨_, _, -, _, -, hidentity, -⟩ := mem_entriesOf_iff.1 hentry
  exact hidentity

end Session

/-- Schemas are equal if they have the same nodes and the same entries for modules and
submodules. -/
theorem Schema.eq_of_lookups_eq {s s' : Schema} (hnodes : s'.nodes = s.nodes)
    (hmodules : s'.modules.size = s.modules.size)
    (hmodule : ∀ d, d.index < s.modules.size → s'.module d = s.module d)
    (hsubmodules : s'.submodules.size = s.submodules.size)
    (hsubmodule : ∀ v, v.index < s.submodules.size → s'.submodule v = s.submodule v) :
    s' = s := by
  obtain ⟨nodes, modules, submodules⟩ := s
  obtain ⟨nodes', modules', submodules'⟩ := s'
  have hm : modules' = modules := by
    refine Array.ext hmodules fun i hi hi' ↦ ?_
    simpa [Schema.module, hi, hi'] using hmodule ⟨i⟩ hi'
  have hs : submodules' = submodules := by
    refine Array.ext hsubmodules fun i hi hi' ↦ ?_
    simpa [Schema.submodule, hi, hi'] using hsubmodule ⟨i⟩ hi'
  obtain rfl : nodes' = nodes := hnodes
  rw [hm, hs]

namespace Session

/-- **Recording the same identities again changes nothing.** -/
theorem schema_recordedAll_recordedAll (x : Session) (m : ModuleId)
    (ids : List (SubmoduleId × NodeId)) :
    ((x.recordedAll m ids).recordedAll m ids).schema = (x.recordedAll m ids).schema := by
  have hsetting := setting_recordedAll x m ids
  refine Schema.eq_of_lookups_eq (nodes_recordedAll _ m ids) (size_modules_recordedAll _ m ids)
    (fun d hd ↦ ?_) (size_submodules_recordedAll _ m ids) fun v hv ↦ ?_
  · have hd' : d.index < x.schema.modules.size := by rwa [size_modules_recordedAll] at hd
    have hnew (j : NodeId) : (x.recordedAll m ids).newRoots m d j = x.newRoots m d j :=
      newRoots_eq_of_setting_eq hsetting m d j
    simp only [module_recordedAll hd, module_recordedAll hd', hnew,
      Module.insertRoots_insertRoots]
  · have hv' : v.index < x.schema.submodules.size := by rwa [size_submodules_recordedAll] at hv
    simp only [submodule_recordedAll hv, submodule_recordedAll hv',
      newEntries_eq_of_setting_eq hsetting,
      Submodule.extendTables_extendTables (identity_of_mem_newEntries x v ids)]

end Session

end SchemaLink
