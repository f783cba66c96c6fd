import SchemaLink.Proofs.Distinct
import SchemaLink.Proofs.Enrichment
import SchemaLink.Proofs.ImportOrder

/-!
# What a run merges

During a run the collections of a node hold what is declared under it, followed by what augments
have contributed: nothing twice, nothing else, and nothing left out. `Session.Merged` states this of
a session, for all nodes at once, together with the list of augments that have had their turn.

**Each augment has one turn** (`nodup_flatMap_augmentsOf`). Modules come once in the import order,
submodules once in a module, and an augment stands in one submodule. So the target that is recorded
for an augment is never replaced, and its contributions stay with it.

**Turns do not get into each other's way.** A contribution is read off children of augments and
groupings, and these are never added to, so it is the same whenever the turn comes
(`KeepsDeclarations.contribution_eq`). What an augment adds to a target inside another augment's
contributions is shared by all who hold that target.
-/

namespace SchemaLink

variable {s : Schema} {x y : Session} {m : ModuleId} {a t id : NodeId} {k : Kind}
  {done augments : List NodeId}

/-! ### Turns -/

namespace Schema

@[simp] theorem submoduleNamed?_outline (s : Schema) (m : ModuleId) :
    s.outline.submoduleNamed? m = s.submoduleNamed? m := by
  funext name
  simp [submoduleNamed?, Submodule.outline]

@[simp] theorem augmentsOf_outline (s : Schema) (m : ModuleId) :
    s.outline.augmentsOf m = s.augmentsOf m := by
  simp [augmentsOf, mergeUnits, Submodule.outline, Module.outline]

theorem mem_units_of_mem_mergeUnits {u : SubmoduleId} (h : u ∈ s.mergeUnits m) :
    u ∈ (s.module m).units := by
  simp only [mergeUnits, List.mem_eraseDups, List.mem_cons, List.mem_append,
    List.mem_filterMap] at h
  rcases h with rfl | ⟨name, -, hname⟩ | h
  · simp [Module.units]
  · exact List.mem_of_find?_eq_some hname
  · simp [Module.units, h]

/-- The bodies of submodules collect augments that are declared there, and each of them once. -/
structure FilesAugments (s : Schema) : Prop where
  nodup_slot : ∀ u, ((s.submodule u).body.slot .augment).Nodup
  kind_eq : ∀ u, ∀ a ∈ (s.submodule u).body.slot .augment, s.kind a = .augment
  parent_eq : ∀ u, ∀ a ∈ (s.submodule u).body.slot .augment, (s.node a).parent = .submodule u

namespace FilesAugments

variable (hs : s.FilesAugments)
include hs

theorem kind_of_mem_augmentsOf (h : a ∈ s.augmentsOf m) : s.kind a = .augment := by
  obtain ⟨u, -, ha⟩ := List.mem_flatMap.1 h
  exact hs.kind_eq u a ha

theorem nodup_augmentsOf (m : ModuleId) : (s.augmentsOf m).Nodup := by
  rw [augmentsOf, List.nodup_flatMap]
  refine ⟨fun u _ ↦ hs.nodup_slot u, (Distinct.nodup_eraseDups _).imp fun {u v} hne a hu hv ↦ ?_⟩
  have hparent := (hs.parent_eq u a hu).symm.trans (hs.parent_eq v a hv)
  exact hne (by simpa using hparent)

end FilesAugments

namespace Tidy

variable (hs : s.Tidy)
include hs

theorem filesAugments : s.FilesAugments where
  nodup_slot := by
    intro u
    rw [hs.slot_body_eq rfl]
    exact s.nodup_declaredUnder _ _
  kind_eq := by
    intro u a ha
    rw [hs.slot_body_eq rfl] at ha
    exact (mem_declaredUnder.1 ha).2.2
  parent_eq := by
    intro u a ha
    rw [hs.slot_body_eq rfl] at ha
    exact (mem_declaredUnder.1 ha).2.1

theorem exists_unit_of_mem_augmentsOf (h : a ∈ s.augmentsOf m) :
    ∃ u ∈ (s.module m).units, a ∈ s.declaredUnder (.submodule u) .augment := by
  obtain ⟨u, hu, ha⟩ := List.mem_flatMap.1 h
  rw [hs.slot_body_eq rfl] at ha
  exact ⟨u, mem_units_of_mem_mergeUnits hu, ha⟩

/-- **Each augment has one turn.** -/
theorem nodup_flatMap_augmentsOf {ms : List ModuleId} (hms : ms.Nodup)
    (hexist : ∀ m ∈ ms, m.index < s.modules.size) : (ms.flatMap s.augmentsOf).Nodup := by
  rw [List.nodup_flatMap]
  refine ⟨fun m _ ↦ hs.filesAugments.nodup_augmentsOf m, hms.imp_of_mem fun {m n} hm hn hne ↦ ?_⟩
  intro a ham han
  obtain ⟨u, hu, hau⟩ := hs.exists_unit_of_mem_augmentsOf ham
  obtain ⟨v, hv, hav⟩ := hs.exists_unit_of_mem_augmentsOf han
  -- the augment stands in one submodule, and that belongs to one module
  have hparent := (mem_declaredUnder.1 hau).2.1.symm.trans (mem_declaredUnder.1 hav).2.1
  obtain rfl : u = v := by simpa using hparent
  exact hne ((hs.unit_module m (hexist m hm) u hu).2.symm.trans
    (hs.unit_module n (hexist n hn) u hv).2)

end Tidy

end Schema

/-! ### Recorded targets -/

namespace Session

/-- A node receives another from some augment that has been merged into it. -/
def Receives (x : Session) (s : Schema) (t : NodeId) (k : Kind) (id : NodeId) : Prop :=
  ∃ a, x.mergedTarget? a = some t ∧ x.registry.Contributes s a k id ∧ admits (s.kind t) k = true

theorem mergedTarget?_merge (added : Contribution) (b : NodeId) :
    (x.merge a t added).mergedTarget? b = if b = a then some t else x.mergedTarget? b := by
  by_cases hb : b = a
  · simp [mergedTarget?, merge, hb]
  · have hne : (b == a) = false := by simpa using hb
    simp only [mergedTarget?, merge, List.lookup_cons, hne, hb, if_false]
    -- an older entry of `a` is dropped, which the look-up of another augment does not notice
    exact lookup_filter_ne hb x.targets

/-- **What one more merge adds**, if the augment has not been merged before. -/
theorem receives_merge_iff (ha : x.mergedTarget? a = none) (added : Contribution) {j : NodeId} :
    (x.merge a t added).Receives s j k id ↔
      x.Receives s j k id ∨
        j = t ∧ x.registry.Contributes s a k id ∧ admits (s.kind j) k = true := by
  constructor
  · rintro ⟨b, hb, hcontributes, hadmits⟩
    rw [mergedTarget?_merge] at hb
    split at hb
    · next hba =>
      obtain rfl : t = j := by simpa using hb
      exact .inr ⟨rfl, hba ▸ hcontributes, hadmits⟩
    · exact .inl ⟨b, hb, hcontributes, hadmits⟩
  · rintro (⟨b, hb, hcontributes, hadmits⟩ | ⟨rfl, hcontributes, hadmits⟩)
    · have hba : b ≠ a := by
        rintro rfl
        simp [ha] at hb
      exact ⟨b, by rw [mergedTarget?_merge, if_neg hba, hb], hcontributes, hadmits⟩
    · exact ⟨a, by rw [mergedTarget?_merge, if_pos rfl], hcontributes, hadmits⟩

/-! ### The invariant -/

/-- A session started from a tidy schema in which only the augments `done` have had their turn: it
is enriched by exactly what they contribute. -/
structure Merged (s : Schema) (done : List NodeId) (x : Session) : Prop extends Enriched s x where
  mem_done : ∀ a t, x.mergedTarget? a = some t → a ∈ done
  kinds : ∀ a t, x.mergedTarget? a = some t → s.kind a = .augment ∧ (s.kind t).augmentable = true
  mem_entries : ∀ t k id, (k, id) ∈ (x.schema.node t).children.entries ↔
    (k, id) ∈ s.declared (.node t) ∨ x.Receives s t k id

namespace Merged

theorem mono {done' : List NodeId} (h : Merged s done x) (hsub : done ⊆ done') :
    Merged s done' x :=
  { h with mem_done := fun a t ha ↦ hsub (h.mem_done a t ha) }

/-- Apart from the outline, the invariant looks at nodes, targets and registry only. -/
theorem of_untabled_eq (h : Merged s done x) (heq : y.untabled = x.untabled) :
    Merged s done y := by
  have transport (P : Session → Prop) (hP : P x.untabled) : P y.untabled := heq ▸ hP
  exact
    { toEnriched := h.toEnriched.of_untabled_eq heq
      mem_done := transport (fun z ↦ ∀ a t, z.mergedTarget? a = some t → a ∈ done) h.mem_done
      kinds := transport
        (fun z ↦ ∀ a t, z.mergedTarget? a = some t →
          s.kind a = .augment ∧ (s.kind t).augmentable = true) h.kinds
      mem_entries := transport
        (fun z ↦ ∀ t k id, (k, id) ∈ (z.schema.node t).children.entries ↔
          (k, id) ∈ s.declared (.node t) ∨ z.Receives s t k id) h.mem_entries }

theorem of_silent_eq (h : Merged s done x) (heq : y.silent = x.silent) : Merged s done y :=
  h.of_untabled_eq (Link.untabled_eq_of_silent_eq heq)

/-- What a node receives is declared elsewhere: under an augment or a grouping. -/
theorem not_mem_declared_of_receives (hs : s.Tidy) (h : Merged s done x)
    (hreceives : x.Receives s t k id) : (k, id) ∉ s.declared (.node t) := by
  obtain ⟨a, ha, hcontributes, -⟩ := hreceives
  obtain ⟨hkind, htarget⟩ := h.kinds a t ha
  intro hmem
  have hparent := (Schema.mem_declaredUnder.1 (Schema.mem_declared.1 hmem).1).2.1
  -- it has one parent, which would be the target, but augments and groupings are no targets
  rcases hcontributes with ⟨-, hid⟩ | ⟨-, g, hg, hid⟩
  · obtain rfl : a = t := by
      simpa using (Schema.mem_declaredUnder.1 hid).2.1.symm.trans hparent
    simp [hkind, Kind.augmentable] at htarget
  · obtain rfl : g = t := by
      simpa using (Schema.mem_declaredUnder.1 hid).2.1.symm.trans hparent
    simp [hg.kind_eq hs, Kind.augmentable] at htarget

/-- **The two parts of a collection.** -/
theorem exists_added (hs : s.Tidy) (h : Merged s done x) (t : NodeId) :
    ∃ added, (x.schema.node t).children.entries = s.declared (.node t) ++ added ∧
      ∀ k id, (k, id) ∈ added ↔ x.Receives s t k id := by
  obtain ⟨added, hadded⟩ := h.declared_extends t
  refine ⟨added, hadded.symm, fun k id ↦ ?_⟩
  have hnodup := h.nodup_entries t
  have hmem := h.mem_entries t k id
  rw [← hadded] at hnodup hmem
  rw [List.mem_append] at hmem
  constructor
  · intro hid
    rcases hmem.1 (.inr hid) with hdeclared | hreceives
    · exact absurd hid (List.disjoint_of_nodup_append hnodup hdeclared)
    · exact hreceives
  · intro hreceives
    exact (hmem.2 (.inr hreceives)).resolve_left (h.not_mem_declared_of_receives hs hreceives)

theorem mergedTarget?_eq_none (h : Merged s done x) (ha : a ∉ done) : x.mergedTarget? a = none :=
  Option.eq_none_iff_forall_ne_some.2 fun t ht ↦ ha (h.mem_done a t ht)

/-- **Step.** An augment that has its turn adds its contributions, and nothing else changes. -/
theorem merge (hs : s.Tidy) (h : Merged s done x) (ha : a ∉ done) {path : String}
    {children : Children} (hcontent : (x.schema.node a).content = .augment path children)
    (ht : (x.schema.kind t).augmentable = true) :
    Merged s (done ++ [a]) (x.merge a t (x.registry.contribution x.schema children)) := by
  have hkeeps := h.keepsDeclarations hs
  refine ⟨h.toEnriched.merge hs hcontent ht, ?_, ?_, ?_⟩
  · intro b j hb
    rw [mergedTarget?_merge] at hb
    split at hb
    · next hba => simp [hba]
    · exact List.mem_append_left _ (h.mem_done b j hb)
  · intro b j hb
    rw [mergedTarget?_merge] at hb
    split at hb
    · next hba =>
      obtain rfl : t = j := by simpa using hb
      exact ⟨hba ▸ h.kind_eq_augment hs hcontent, by rwa [← hkeeps.kind_eq]⟩
    · exact h.kinds b j hb
  · intro j k id
    -- the target gets what the rules say, and the other nodes neither change nor receive anything
    rw [children_merge _ ht, receives_merge_iff (h.mergedTarget?_eq_none ha)]
    split
    · next hj =>
      rw [Children.mem_entries_insertAll collected_of_mem_admitted, h.mem_entries,
        List.mem_filter, h.mem_fields_iff hs hcontent, hkeeps.kind_eq, hj, or_assoc]
      simp
    · next hj => simp [hj, h.mem_entries]

/-! ### The run -/

theorem mergeAugment (hs : s.Tidy) (h : Merged s done x) (ha : a ∉ done) :
    Merged s (done ++ [a]) ((Link.mergeAugment a).after x) := by
  rcases Link.after_mergeAugment a x with heq | ⟨t, added, hplan, heq⟩
  · rw [heq]
    exact h.mono (List.subset_append_left _ _)
  · obtain ⟨path, children, hcontent, -, ht, rfl⟩ := Link.mergePlan_eq_ok hplan
    exact (h.merge hs ha hcontent ht).of_silent_eq heq

/-- A fault that is passed over does not undo a merge. -/
theorem attempt_mergeAugment (hs : s.Tidy) (h : Merged s done x) (ha : a ∉ done)
    (activity : Activity) (subject : NodeId) :
    Merged s (done ++ [a]) ((Link.attempt activity subject (Link.mergeAugment a)).after x) := by
  rcases Link.after_attempt activity subject (Link.mergeAugment a) x with heq | ⟨d, heq⟩
  · rw [heq]
    exact h.mergeAugment hs ha
  · rw [heq]
    exact (h.mergeAugment hs ha).of_silent_eq rfl

theorem mergeAll (hs : s.Tidy) (h : Merged s done x) (hnodup : (done ++ augments).Nodup) :
    Merged s (done ++ augments) ((Link.mergeAll augments).after x) := by
  induction augments generalizing done x with
  | nil =>
    rw [List.append_nil]
    exact h
  | cons a rest ih =>
    have ha : a ∉ done := fun hmem ↦ List.disjoint_of_nodup_append hnodup hmem List.mem_cons_self
    have hfirst := h.attempt_mergeAugment hs ha .applyAugment a
    rw [List.append_cons] at hnodup ⊢
    rcases Link.after_bind (Link.attempt .applyAugment a (Link.mergeAugment a)) _ x with
      heq | ⟨first, heq⟩
    · rw [Link.mergeAll, heq]
      exact hfirst.mono (List.subset_append_left _ _)
    · rw [Link.mergeAll, heq, Link.after_bind_pure]
      exact ih hfirst hnodup

theorem mergeAugmentsOf (hs : s.Tidy) (h : Merged s done x)
    (hnodup : (done ++ s.augmentsOf m).Nodup) :
    Merged s (done ++ s.augmentsOf m) ((Link.mergeAugmentsOf m).after x) := by
  rw [Link.mergeAugmentsOf, Link.after_modify_bind, Link.after_get_bind]
  have haugments : (x.noteMissingIncludes m).schema.augmentsOf m = s.augmentsOf m := by
    show x.schema.augmentsOf m = _
    rw [← Schema.augmentsOf_outline, h.outline_eq, Schema.augmentsOf_outline]
  rw [haugments]
  exact mergeAll hs (h.of_silent_eq rfl) hnodup

theorem completeModules (hs : s.Tidy) (h : Merged s done x) {ms : List ModuleId}
    (hnodup : (done ++ ms.flatMap s.augmentsOf).Nodup) :
    Merged s (done ++ ms.flatMap s.augmentsOf) ((Link.completeModules ms).after x) := by
  induction ms generalizing done x with
  | nil =>
    rw [List.flatMap_nil, List.append_nil]
    exact h
  | cons m rest ih =>
    -- the run may stop among the identities of the module, among its augments, or in a later module
    have hindexed := h.of_untabled_eq (Link.keeps_indexIdentitiesOf m x)
    rw [List.flatMap_cons, ← List.append_assoc] at hnodup ⊢
    have hmerged := hindexed.mergeAugmentsOf hs (List.nodup_append.1 hnodup).1
    rcases Link.after_bind (Link.indexIdentitiesOf m) _ x with heq | ⟨_, heq⟩
    · rw [Link.completeModules, heq]
      exact hindexed.mono (List.subset_append_of_subset_left _ (List.subset_append_left _ _))
    · rw [Link.completeModules, heq]
      rcases Link.after_bind (Link.mergeAugmentsOf m) _ ((Link.indexIdentitiesOf m).after x) with
        heq | ⟨_, heq⟩
      · rw [heq]
        exact hmerged.mono (List.subset_append_left _ _)
      · rw [heq]
        exact ih hmerged hnodup

end Merged

/-- At the start nothing has been merged. -/
theorem merged_start (hs : s.Tidy) {policy : Policy} (h : start s policy = .ok x) :
    Merged s [] x := by
  have henriched := enriched_start hs h
  obtain ⟨r, -, rfl⟩ := exists_registry_of_start h
  have hentries (t : NodeId) : (s.node t).children.entries = s.declared (.node t) :=
    hs.entries_eq (.node t)
  exact
    { toEnriched := henriched
      mem_done := by simp [mergedTarget?]
      kinds := by simp [mergedTarget?]
      mem_entries := by simp [hentries, Receives, mergedTarget?] }

end Session

namespace Schema

variable {policy : Policy} {l : Linked}

/-- **What a run that ends well consists of.** -/
theorem exists_start_of_resolve (h : s.resolve policy = .ok l) :
    ∃ x, Session.start s policy = .ok x ∧ x.registry.importOrder s = .ok l.order ∧
      (do Link.completeModules l.order; Link.nameAllTypes : Link Unit) x = .ok () l.session := by
  rw [resolve] at h
  split at h
  · simp at h
  · next x hx =>
    split at h
    · simp at h
    · next order horder =>
      split at h
      · next y hy =>
        obtain rfl := Except.ok.inj h
        exact ⟨x, hx, horder, hy⟩
      · simp at h

/-- **Run.** A run that ends well has given each augment its turn. -/
theorem Tidy.merged_of_resolve (hs : s.Tidy) (h : s.resolve policy = .ok l) :
    l.session.Merged s (l.order.flatMap s.augmentsOf) := by
  obtain ⟨x, hx, horder, hrun⟩ := exists_start_of_resolve h
  have hmerged := Session.merged_start hs hx
  obtain ⟨r, hr, rfl⟩ := Session.exists_registry_of_start hx
  have hfaithful := (Registry.built_of_ofSchema hr).faithful
  have hperm := (hfaithful.perm_of_importOrder_eq_ok horder).2
  have hnodup : (l.order.flatMap s.augmentsOf).Nodup :=
    hs.nodup_flatMap_augmentsOf (hperm.nodup_iff.2 hfaithful.modules_nodup) fun m hm ↦
      hfaithful.index_lt_of_mem_modules (hperm.mem_iff.1 hm)
  have hcompleted := hmerged.completeModules hs
    (by rwa [List.nil_append] : ([] ++ l.order.flatMap s.augmentsOf).Nodup)
  rw [List.nil_append] at hcompleted
  rw [← Link.after_of_eq_ok hrun]
  rcases Link.after_bind (Link.completeModules l.order) (fun _ ↦ Link.nameAllTypes) _ with
    heq | ⟨_, heq⟩
  · rw [heq]
    exact hcompleted
  · rw [heq]
    exact hcompleted.of_silent_eq (Link.keeps_nameAllTypes _)

/-- **What a collection holds after a run.** First what is declared under the node, then what the
augments merged into it contribute, as far as the node admits it; nothing twice. -/
theorem slot_of_resolve {docs : List Document} (hdocs : ofDocuments docs = .ok s)
    (hrun : s.resolve policy = .ok l) (t : NodeId) (hk : k.collected = true) :
    ((l.session.schema.node t).children.slot k).Nodup ∧
      ∃ added, (l.session.schema.node t).children.slot k =
          s.declaredUnder (.node t) k ++ added ∧
        ∀ id, id ∈ added ↔ ∃ a, l.session.mergedTarget? a = some t ∧
          l.session.registry.Contributes s a k id ∧ admits (s.kind t) k = true := by
  have hs := tidy_of_ofDocuments hdocs
  have hmerged := hs.merged_of_resolve hrun
  obtain ⟨added, hentries, hmem⟩ := hmerged.exists_added hs t
  refine ⟨?_, (added.filter (·.1 = k)).map Prod.snd, ?_, fun id ↦ ?_⟩
  · -- entries of one kind differ in their handles
    refine List.Nodup.map_on ?_ ((hmerged.nodup_entries t).filter _)
    rintro ⟨k₁, id₁⟩ h₁ ⟨k₂, id₂⟩ h₂ rfl
    have hk₁ : k₁ = k := by simpa using (List.mem_filter.1 h₁).2
    have hk₂ : k₂ = k := by simpa using (List.mem_filter.1 h₂).2
    rw [hk₁, hk₂]
  · rw [Children.slot, hentries, List.filter_append, List.map_append, filter_declared hk]
  · rw [← Session.Receives, ← hmem]
    simp

/-- A container gets a leaf by way of a grouping, but not the case beside it; a second augment leads
nowhere. -/
def furnished : List Document :=
  [.module
    { name := "m", ownPrefix := "m", space := "urn:m"
      body := [
        .block .grouping "labelled" none [.typed .leaf "label" none { name := "string" }],
        .block .container "box" none [.typed .leaf "size" none { name := "int8" }],
        .augment "/m:box" none [.uses "labelled", .block .case "open" none []],
        .augment "/m:lid" none []] }]

theorem slot_of_resolve_furnished :
    ∃ s l, ofDocuments furnished = .ok s ∧ s.resolve .bestEffort = .ok l ∧
      (l.session.schema.node ⟨3⟩).children.slot .leaf = [⟨4⟩, ⟨1⟩] ∧
      s.declaredUnder (.node ⟨3⟩) .leaf = [⟨4⟩] ∧
      ∃ a, l.session.mergedTarget? a = some ⟨3⟩ ∧
        l.session.registry.Contributes s a .leaf ⟨1⟩ := by
  have hslots : ((ofBatch furnished).resolve .bestEffort).toOption.map
      (fun l ↦ (l.session.schema.node ⟨3⟩).children.slot .leaf) = some [⟨4⟩, ⟨1⟩] := by
    decide +kernel
  have hdeclared : (ofBatch furnished).declaredUnder (.node ⟨3⟩) .leaf = [⟨4⟩] := by
    decide +kernel
  obtain ⟨l, hl, hslot⟩ := Option.map_eq_some_iff.1 hslots
  have hrun := toOption_eq_some_iff.1 hl
  have hdocs : ofDocuments furnished = .ok (ofBatch furnished) := ofDocuments_of_offences_eq_nil rfl
  obtain ⟨-, added, heq, hadded⟩ := slot_of_resolve hdocs hrun ⟨3⟩ (k := .leaf) rfl
  have hadded' : added = [⟨1⟩] := by
    rw [hslot, hdeclared] at heq
    simpa using heq.symm
  obtain ⟨a, ha, hcontributes, -⟩ := (hadded ⟨1⟩).1 (by simp [hadded'])
  exact ⟨_, l, hdocs, hrun, hslot, hdeclared, a, ha, hcontributes⟩

end Schema

end SchemaLink
