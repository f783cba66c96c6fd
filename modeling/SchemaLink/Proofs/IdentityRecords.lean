import SchemaLink.Proofs.Ancestries
import SchemaLink.Proofs.IdentityTables
import SchemaLink.Proofs.Merging
import SchemaLink.Proofs.TopLevel

/-!
# What is known about identities in the end

The roots that a module lists come from three sides: its own identities, identities of other modules
that are derived from its roots, and earlier turns. `Session.Rooted` says that whatever they come
from they are identities without bases at the top level of the module, sorted by name; and that a
module that has had its turn lists all of them. A base stands in the module in which it was found
(`Derives.mem_topLevel`), so the module in which a root is recorded is the one that declares it.

**What recording the identities of a module does** is stated in full in
`Session.identities_recorded`, together with the roots after a whole run.
-/

namespace SchemaLink

variable {s : Schema} {x y : Session} {m d : ModuleId} {u : SubmoduleId} {id base root : NodeId}
  {e : String × NodeId} {entry : IdentityEntry} {ids : List (SubmoduleId × NodeId)}

/-! ### Roots after a run -/

namespace Schema

/-- An identity without bases at the top level of a module. -/
def IsRoot (s : Schema) (m : ModuleId) (id : NodeId) : Prop :=
  id ∈ s.topLevel m .identity ∧ (s.node id).content = .identity []

@[simp] theorem isRoot_outline (s : Schema) (m : ModuleId) (id : NodeId) :
    s.outline.IsRoot m id ↔ s.IsRoot m id := by
  rcases hc : (s.node id).content <;> simp [IsRoot, hc, Content.mapChildren]

theorem isRoot_iff (hk : s.kind id = .identity) :
    s.IsRoot m id ↔ id ∈ s.topLevel m .identity ∧ s.firstBase? id = none := by
  have hk : (s.node id).content.kind = .identity := hk
  rcases hc : (s.node id).content with ⟨kind, _⟩ | _ | _ | ⟨kind, _⟩ | bases | _ <;>
    simp_all [Content.kind, IsRoot, firstBase?]
  · cases kind <;> simp [BlockKind.kind] at hk
  · cases kind <;> simp [TypedKind.kind] at hk

theorem mem_topLevel_identity_iff :
    id ∈ s.topLevel m .identity ↔ ∃ u, (u, id) ∈ s.identitiesOf m := by
  simp [mem_topLevel_iff, identitiesOf]

end Schema

namespace Session

/-- A base stands at the top level of its module. -/
theorem Derives.mem_topLevel (h : x.Derives id base) (hx : x.IsAbout s) :
    base ∈ x.schema.topLevel (x.schema.homeModule base) .identity := by
  have hhome := hx.index_homeModule_lt h.index_lt
  obtain ⟨written, -, hnamed⟩ := h
  simp only [Registry.identityNamed?] at hnamed
  split at hnamed
  · cases hnamed
  · next owner howner =>
    have hmem := Schema.mem_of_firstNamed? (Except.ok.inj hnamed)
    rwa [hx.homeModule_of_mem_topLevel (hx.index_lt_of_moduleFor hhome howner) rfl hmem]

/-- The last identity of a line is a base, unless the line has only one. -/
theorem Line.exists_derives {line : List NodeId} (h : x.Line id line root) (hline : line ≠ []) :
    ∃ last, x.Derives last root := by
  induction h with
  | here => exact absurd rfl hline
  | @on id base root line hbase hrest ih =>
    cases hrest with
    | here => exact ⟨id, hbase⟩
    | on => exact ih (List.cons_ne_nil _ _)

/-- **What is recorded as a root is one**, in the module that lists it. -/
theorem isRoot_of_listedRoot? (hx : x.IsAbout s) (hid : id ∈ x.schema.topLevel m .identity)
    (h : x.listedRoot? m id = some (d, root)) : x.schema.IsRoot d root := by
  have hkind {a : NodeId} {i : ModuleId} (ha : a ∈ x.schema.topLevel i .identity) :
      x.schema.kind a = .identity := hx.kind_of_mem_topLevel rfl ha
  rw [listedRoot?] at h
  split at h
  · cases h
  · next hancestry =>
    cases h
    obtain ⟨_, ⟨⟩, -, hnone⟩ := ancestry_eq_ok_iff.1 hancestry
    exact (Schema.isRoot_iff (hkind hid)).2 ⟨hid, hnone⟩
  · next base line hancestry =>
    obtain ⟨last, hline, -, hnone⟩ := ancestry_eq_ok_iff.1 hancestry
    obtain rfl : line.getLastD base = last := by
      rw [← hline.getLastD_eq, List.getLastD_cons]
    cases h
    obtain ⟨_, hderives⟩ := hline.exists_derives (List.cons_ne_nil _ _)
    have hmem := hderives.mem_topLevel hx
    exact (Schema.isRoot_iff (hkind hmem)).2 ⟨hmem, hnone⟩

/-- A root is recorded as its own. -/
theorem listedRoot?_of_isRoot (h : x.schema.IsRoot m id) : x.listedRoot? m id = some (m, id) := by
  have hnone : x.schema.firstBase? id = none := by simp [Schema.firstBase?, h.2]
  have hancestry : x.ancestry id = .ok [] :=
    ancestry_eq_ok_iff.2 ⟨id, .here, List.nodup_singleton id, hnone⟩
  rw [listedRoot?, hancestry]

/-- What the modules of a schema `s` list in a session: roots only, sorted by name, and all of them
if the module is one of those `done`. -/
structure Rooted (x : Session) (s : Schema) (done : List ModuleId) : Prop extends x.IsAbout s where
  isRoot : ∀ d, d.index < s.modules.size → ∀ e ∈ (x.schema.module d).roots,
    x.schema.IsRoot d e.2 ∧ (x.schema.node e.2).name = e.1
  listed : ∀ d, d.index < s.modules.size → d ∈ done → ∀ id, x.schema.IsRoot d id →
    (x.schema.node id).name ∈ (x.schema.module d).roots.map Prod.fst
  sorted : ∀ d, d.index < s.modules.size →
    ((x.schema.module d).roots.map Prod.fst).Pairwise (· < ·)

theorem mem_newRoots_iff :
    e ∈ x.newRoots m d id ↔
      x.listedRoot? m id = some (d, e.2) ∧ (x.schema.node e.2).name = e.1 := by
  rcases hentry : x.listedRoot? m id with - | ⟨owner, root⟩
  · simp [newRoots, hentry]
  · obtain ⟨name, a⟩ := e
    by_cases howner : d = owner
    · simp only [newRoots, hentry, howner, if_true, List.mem_singleton, Prod.mk.injEq,
        Option.some.injEq, true_and]
      constructor <;> rintro ⟨rfl, rfl⟩ <;> exact ⟨rfl, rfl⟩
    · simp [newRoots, hentry, howner, Ne.symm howner]

theorem isRoot_eq_of_setting_eq (h : y.setting = x.setting) :
    y.schema.IsRoot = x.schema.IsRoot := by
  funext d a
  have houtline : y.schema.outline = x.schema.outline := congrArg Session.schema h
  rw [← Schema.isRoot_outline, houtline, Schema.isRoot_outline]

namespace Rooted

variable {done : List ModuleId}

theorem of_ledger_eq (h : x.Rooted s done) (heq : y.ledger = x.ledger) : y.Rooted s done := by
  have hsetting := setting_eq_of_ledger_eq heq
  have hmodules : y.ledger.schema.modules = x.ledger.schema.modules := by rw [heq]
  have hmodule : y.schema.module = x.schema.module := by
    funext d
    rw [Schema.module, show y.schema.modules = x.schema.modules from hmodules, ← Schema.module]
  refine ⟨h.toIsAbout.of_setting_eq hsetting, ?_, ?_, ?_⟩
  · simpa only [hmodule, isRoot_eq_of_setting_eq hsetting, name_eq_of_setting_eq hsetting]
      using h.isRoot
  · simpa only [hmodule, isRoot_eq_of_setting_eq hsetting, name_eq_of_setting_eq hsetting]
      using h.listed
  · simpa only [hmodule] using h.sorted

/-- **Step.** Recording the identities of a module lists its roots, and other roots with their
modules. -/
theorem recordedAll (h : x.Rooted s done) (m : ModuleId) :
    (x.recordedAll m (x.schema.identitiesOf m)).Rooted s (done ++ [m]) := by
  set ids := x.schema.identitiesOf m
  have hsetting := setting_recordedAll x m ids
  have hroots {d : ModuleId} (hd : d.index < s.modules.size) :
      ((x.recordedAll m ids).schema.module d).roots =
        Module.insertRoots (ids.flatMap fun i ↦ x.newRoots m d i.2) (x.schema.module d).roots := by
    rw [module_recordedAll (by rwa [h.size_modules_eq])]
  refine ⟨h.toIsAbout.of_setting_eq hsetting, fun d hd e he ↦ ?_, fun d hd hdone id hid ↦ ?_,
    fun d hd ↦ ?_⟩
  · rw [isRoot_eq_of_setting_eq hsetting, name_eq_of_setting_eq hsetting]
    rw [hroots hd] at he
    rcases Module.mem_insertRoots he with he | he
    · obtain ⟨i, hi, he⟩ := List.mem_flatMap.1 he
      obtain ⟨hentry, hname⟩ := mem_newRoots_iff.1 he
      have hidentity := Schema.mem_topLevel_identity_iff.2 ⟨i.1, hi⟩
      exact ⟨isRoot_of_listedRoot? h.toIsAbout hidentity hentry, hname⟩
    · exact h.isRoot d hd e he
  · rw [isRoot_eq_of_setting_eq hsetting] at hid
    rw [name_eq_of_setting_eq hsetting, hroots hd, Module.mem_keys_insertRoots]
    rcases List.mem_append.1 hdone with hdone | hdone
    · exact .inr (h.listed d hd hdone id hid)
    · obtain rfl := List.mem_singleton.1 hdone
      obtain ⟨u, hu⟩ := Schema.mem_topLevel_identity_iff.1 hid.1
      refine .inl (List.mem_map.2 ⟨((x.schema.node id).name, id), ?_, rfl⟩)
      exact List.mem_flatMap.2 ⟨(u, id), hu, mem_newRoots_iff.2 ⟨listedRoot?_of_isRoot hid, rfl⟩⟩
  · rw [hroots hd]
    exact Module.sorted_insertRoots (h.sorted d hd)

/-- **Run.** Completing modules lists the roots of all of them. -/
theorem completeModules (h : x.Rooted s done) {ms : List ModuleId}
    (hrun : Link.completeModules ms x = .ok () y) : y.Rooted s (done ++ ms) := by
  induction ms generalizing x done with
  | nil =>
    cases hrun
    rwa [List.append_nil]
  | cons m rest ih =>
    obtain ⟨n, z, hindex, hrun⟩ := Link.bind_eq_ok hrun
    obtain ⟨k, w, hmerge, hrun⟩ := Link.bind_eq_ok hrun
    have hz : z.Rooted s (done ++ [m]) :=
      (h.recordedAll m).of_ledger_eq
        (ignoresMerges_ledger.ignores.eq_of_silent_eq (Link.silent_of_indexIdentitiesOf hindex))
    have hw : w.Rooted s (done ++ [m]) := by
      refine hz.of_ledger_eq ?_
      rw [← Link.after_of_eq_ok hmerge]
      exact ignoresMerges_ledger.keeps_mergeAugmentsOf m z
    have hrest := ih hw hrun
    rwa [List.append_assoc, List.singleton_append] at hrest

end Rooted

theorem rooted_start {docs : List Document} (hdocs : Schema.ofDocuments docs = .ok s)
    {policy : Policy} (hx : start s policy = .ok x) : x.Rooted s [] := by
  have habout := isAbout_start hdocs hx
  obtain ⟨r, -, rfl⟩ := exists_registry_of_start hx
  have hnone (d : ModuleId) : (s.module d).roots = [] :=
    (Schema.unrecorded_of_ofDocuments hdocs).roots_eq d
  refine ⟨habout, ?_, ?_, ?_⟩
  · intro d _ e he
    simp [hnone] at he
  · intro d _ hd
    simp at hd
  · intro d _
    simp [hnone]

/-- **After a run** the roots that a module lists are its own, and all of them are there. -/
theorem rooted_of_resolve {docs : List Document} (hdocs : Schema.ofDocuments docs = .ok s)
    {policy : Policy} {l : Linked} (hrun : s.resolve policy = .ok l) :
    l.session.Rooted s s.moduleHandles := by
  obtain ⟨x, hx, horder, hrun⟩ := Schema.exists_start_of_resolve hrun
  obtain ⟨_, y, hcomplete, hnames⟩ := Link.bind_eq_ok hrun
  have hy := (rooted_start hdocs hx).completeModules hcomplete
  have hsession : l.session.Rooted s l.order := by
    refine hy.of_ledger_eq (ignoresMerges_ledger.ignores.eq_of_silent_eq ?_)
    rw [← Link.after_of_eq_ok hnames]
    exact Link.keeps_nameAllTypes y
  obtain ⟨r, hr, rfl⟩ := exists_registry_of_start hx
  have hperm := ((Registry.built_of_ofSchema hr).faithful.perm_of_importOrder_eq_ok horder).2
  rw [Registry.modules_of_ofSchema hr] at hperm
  exact { hsession with listed := fun d hd hdone ↦ hsession.listed d hd (hperm.mem_iff.2 hdone) }

/-! ### What is recorded -/

/-- The table of a submodule once the identities of its module have been recorded. -/
theorem mem_table_recordedAll (hx : x.IsAbout s) (hm : m.index < x.schema.modules.size)
    (hu : u ∈ (x.schema.module m).units) :
    entry ∈ ((x.recordedAll m (x.schema.identitiesOf m)).schema.submodule u).table ↔
      entry ∈ (x.schema.submodule u).table ∨
        ∃ id ∈ (x.schema.submodule u).body.slot .identity, entry ∈ x.entriesOf id := by
  have hunit := (hx.framed_schema.unit_module m hm u hu).1
  have hmem (id : NodeId) : (u, id) ∈ x.schema.identitiesOf m ↔
      id ∈ (x.schema.submodule u).body.slot .identity := by
    simp [Schema.identitiesOf, hu]
  rw [submodule_recordedAll hunit, Submodule.mem_extendTables]
  refine or_congr_right ?_
  constructor
  · rintro ⟨_, ha, hentry⟩
    obtain ⟨⟨v, id⟩, hi, rfl⟩ := List.mem_map.1 ha
    obtain ⟨hi, hv⟩ := List.mem_filter.1 hi
    obtain rfl : u = v := by simpa [eq_comm] using hv
    exact ⟨id, (hmem id).1 hi, hentry⟩
  · rintro ⟨id, hid, hentry⟩
    exact ⟨_, List.mem_map.2 ⟨(u, id), List.mem_filter.2 ⟨(hmem id).2 hid, by simp⟩, rfl⟩, hentry⟩

theorem nodup_table_recordedAll (u : SubmoduleId) (h : (x.schema.submodule u).table.Nodup) :
    ((x.recordedAll m ids).schema.submodule u).table.Nodup := by
  by_cases hu : u.index < x.schema.submodules.size
  · rw [submodule_recordedAll hu]
    exact Submodule.nodup_extendTables (identity_of_mem_newEntries x u ids) h
  · have hsize := size_submodules_recordedAll x m ids
    rw [Schema.submodule_of_size_le (by omega)]
    exact List.nodup_nil

theorem table_recordedAll_of_not_mem (hids : ∀ i ∈ ids, i.1 ≠ u) :
    ((x.recordedAll m ids).schema.submodule u).table = (x.schema.submodule u).table := by
  by_cases hu : u.index < x.schema.submodules.size
  · have hnil : x.newEntries u ids = [] := by
      simpa [newEntries, List.filter_eq_nil_iff] using fun v id hi ↦ hids (v, id) hi
    rw [submodule_recordedAll hu, hnil]
    rfl
  · have hsize := size_submodules_recordedAll x m ids
    rw [Schema.submodule_of_size_le (by omega), Schema.submodule_of_size_le (by omega)]

/-- **What recording the identities of a module does**, in any session under best effort. The table
of each of its submodules gets the entries of the identities declared there: one for each ancestor
that has a name, if the ancestry is found. Nothing comes twice that did not, other modules keep
their tables, and doing it again changes nothing. And after a whole run, under whichever policy, the
roots that a module lists are its own identities without bases: each name once, all names, and each
with an identity of that name. -/
theorem identities_recorded {s : Schema} {docs : List Document}
    (hdocs : Schema.ofDocuments docs = .ok s) (hx : start s .bestEffort = .ok x)
    (requests : List Request) {m : ModuleId} (hm : m.index < s.modules.size) :
    let y := x.performAll requests
    (∃ n z, Link.indexIdentitiesOf m y = .ok n z ∧
      (∀ u ∈ (y.schema.module m).units, ∀ entry,
        entry ∈ (z.schema.submodule u).table ↔
          entry ∈ (y.schema.submodule u).table ∨
            ∃ id ∈ (y.schema.submodule u).body.slot .identity,
              ∃ base line, y.ancestry id = .ok (base :: line) ∧
                ∃ ancestor ∈ base :: line, entry.identity = (y.schema.node id).name ∧
                  entry.base = ancestor ∧
                  y.registry.familyTypeName y.schema ancestor = .ok entry.baseType ∧
                  entry.space = (y.schema.module (y.schema.homeModule base)).space ∧
                  entry.ownPrefix = (y.schema.module (y.schema.homeModule base)).ownPrefix) ∧
      (∀ u, (y.schema.submodule u).table.Nodup → (z.schema.submodule u).table.Nodup) ∧
      (∀ u, (y.schema.submodule u).module ≠ m →
        (z.schema.submodule u).table = (y.schema.submodule u).table) ∧
      ∃ n' z', Link.indexIdentitiesOf m z = .ok n' z' ∧ z'.schema = z.schema) ∧
    ∀ policy l, s.resolve policy = .ok l → ∀ d, d.index < s.modules.size →
      let t := l.session.schema
      ((t.module d).roots.map Prod.fst).Nodup ∧
        (∀ name, name ∈ (t.module d).roots.map Prod.fst ↔
          ∃ id, t.IsRoot d id ∧ (t.node id).name = name) ∧
        ∀ name id, (name, id) ∈ (t.module d).roots → t.IsRoot d id ∧ (t.node id).name = name := by
  intro y
  refine ⟨?_, fun policy l hrun d hd ↦ ?_⟩
  · have hy : y.IsAbout s := (isAbout_start hdocs hx).performAll requests
    have hpolicy : y.policy = .bestEffort := by
      rw [Link.policy_eq_of_setting_eq (setting_performAll x requests)]
      obtain ⟨r, -, rfl⟩ := exists_registry_of_start hx
      rfl
    have hm' : m.index < y.schema.modules.size := by rwa [hy.size_modules_eq]
    set ids := y.schema.identitiesOf m with hids
    obtain ⟨n, z, hz⟩ := Link.exists_indexAll_eq_ok hpolicy m ids
    have hsilent := Link.silent_of_indexAll hz
    have hschema : z.schema = (y.recordedAll m ids).schema := schema_of_silent_eq hsilent
    refine ⟨n, z, hz, fun u hu entry ↦ ?_, fun u hu ↦ ?_, fun u hu ↦ ?_, ?_⟩
    · rw [hschema, mem_table_recordedAll hy hm' hu]
      simp only [mem_entriesOf_iff]
    · rw [hschema]
      exact nodup_table_recordedAll u hu
    · rw [hschema]
      refine table_recordedAll_of_not_mem fun i hi hiu ↦ hu ?_
      obtain ⟨v, hv, hi⟩ := List.mem_flatMap.1 hi
      obtain ⟨_, -, rfl⟩ := List.mem_map.1 hi
      obtain rfl : v = u := hiu
      exact (hy.framed_schema.unit_module m hm' v hv).2
    · have hsetting : z.setting = y.setting :=
        (Link.setting_eq_of_silent_eq hsilent).trans (setting_recordedAll y m ids)
      have hsame : z.schema.identitiesOf m = ids := by
        have houtline : z.schema.outline = y.schema.outline := congrArg Session.schema hsetting
        rw [← Schema.identitiesOf_outline, houtline, Schema.identitiesOf_outline]
      have hagain : (z.recordedAll m ids).silent =
          ((y.recordedAll m ids).recordedAll m ids).silent := by
        rw [silent_recordedAll, hsilent, ← silent_recordedAll]
      obtain ⟨n', z', hz'⟩ := Link.exists_indexAll_eq_ok
        ((Link.policy_eq_of_setting_eq hsetting).trans hpolicy) m (z.schema.identitiesOf m)
      refine ⟨n', z', hz', ?_⟩
      have hsilent' := Link.silent_of_indexAll hz'
      rw [hsame] at hsilent'
      rw [schema_of_silent_eq (hsilent'.trans hagain), hschema,
        schema_recordedAll_recordedAll]
  · have h := rooted_of_resolve hdocs hrun
    refine ⟨(h.sorted d hd).imp String.ne_of_lt, fun name ↦ ⟨fun hname ↦ ?_, ?_⟩,
      fun name id hmem ↦ h.isRoot d hd _ hmem⟩
    · obtain ⟨⟨_, id⟩, hmem, rfl⟩ := List.mem_map.1 hname
      exact ⟨id, h.isRoot d hd _ hmem⟩
    · rintro ⟨id, hid, rfl⟩
      exact h.listed d hd (List.mem_map.2 ⟨d.index, List.mem_range.2 hd, rfl⟩) id hid

/-- An identity of a submodule whose line goes through another module, and an identity that is its
own base. -/
def outfitted : List Document :=
  [.module
    { name := "m", ownPrefix := "m", space := "urn:m"
      body := [
        .identity "tool" none [],
        .identity "saw" none ["m:tool"],
        .identity "ouroboros" none ["ouroboros"]] },
   .module
    { name := "n", ownPrefix := "n", space := "urn:n"
      imports := [{ module := "m", localPrefix := "k" }] },
   .submodule
    { name := "n-extra", owner := "n", body := [.identity "jigsaw" none ["k:saw"]] }]

theorem identities_recorded_outfitted :
    ∃ s x, Schema.ofDocuments outfitted = .ok s ∧ start s .bestEffort = .ok x ∧
      1 < s.modules.size ∧
      (∃ n z, Link.indexIdentitiesOf ⟨1⟩ (x.performAll [.identities ⟨0⟩]) = .ok n z ∧
        { identity := "jigsaw", base := ⟨0⟩, baseType := "M_tool_id", space := "urn:m"
          ownPrefix := "m" } ∈ (z.schema.submodule ⟨2⟩).table) ∧
      ∃ l, s.resolve .bestEffort = .ok l ∧
        "tool" ∈ (l.session.schema.module ⟨0⟩).roots.map Prod.fst := by
  have hdocs : Schema.ofDocuments outfitted = .ok (Schema.ofBatch outfitted) :=
    Schema.ofDocuments_of_offences_eq_nil rfl
  obtain ⟨x, hx, hu, hid, hancestry, hname, htype, hspace, hprefix⟩ :
      ∃ x, start (Schema.ofBatch outfitted) .bestEffort = .ok x ∧
        let y := x.performAll [.identities ⟨0⟩]
        ⟨2⟩ ∈ (y.schema.module ⟨1⟩).units ∧ ⟨3⟩ ∈ (y.schema.submodule ⟨2⟩).body.slot .identity ∧
          y.ancestry ⟨3⟩ = .ok [⟨1⟩, ⟨0⟩] ∧ (y.schema.node ⟨3⟩).name = "jigsaw" ∧
          y.registry.familyTypeName y.schema ⟨0⟩ = .ok "M_tool_id" ∧
          (y.schema.module (y.schema.homeModule ⟨1⟩)).space = "urn:m" ∧
          (y.schema.module (y.schema.homeModule ⟨1⟩)).ownPrefix = "m" :=
    exists_ok_of_any (by decide +kernel)
  obtain ⟨l, hl, hroot, hrootName⟩ : ∃ l, (Schema.ofBatch outfitted).resolve .bestEffort = .ok l ∧
      (⟨0⟩ ∈ l.session.schema.topLevel ⟨0⟩ .identity ∧
        (l.session.schema.node ⟨0⟩).content = .identity []) ∧
      (l.session.schema.node ⟨0⟩).name = "tool" :=
    exists_ok_of_any (by decide +kernel)
  obtain ⟨⟨n, z, hz, htable, -⟩, hroots⟩ :=
    identities_recorded hdocs hx [.identities ⟨0⟩] (m := ⟨1⟩) (by decide)
  refine ⟨_, x, hdocs, hx, by decide, ⟨n, z, hz, ?_⟩, l, hl, ?_⟩
  · exact (htable ⟨2⟩ hu _).2 (.inr ⟨⟨3⟩, hid, ⟨1⟩, [⟨0⟩], hancestry, ⟨0⟩, by simp, hname.symm, rfl,
      htype, hspace.symm, hprefix.symm⟩)
  · exact ((hroots .bestEffort l hl ⟨0⟩ (by decide)).2.1 "tool").2 ⟨⟨0⟩, hroot, hrootName⟩

end Session

end SchemaLink
