import SchemaLink.Proofs.Repetition

/-!
# What one merge changes

Merging an augment is all or nothing. If its path leads nowhere, or to a node that may not be
augmented, the session stays as it was. Else the target is extended and **nothing else in the schema
changes**: `Session.MergeEffect` lists what a merge does to each part of a session. Under best
effort there is no third case (`Session.mergeAugment_effect`), since uses that refer to nothing are
passed over one by one after the merge, and none of their faults is fatal.

A target keeps what it has been given, and an augment always gives the same. **So merging an augment
again into a target that has had it changes neither schema nor merged groupings**, whatever has been
merged in between, and wherever else the augment has been led to meanwhile
(`Session.mergeAugment_again`).
-/

namespace SchemaLink

variable {s : Schema} {x y z : Session} {a g t u id : NodeId} {k : Kind} {added : Contribution}

/-! ### Collections -/

namespace Children

variable {c : Children} {fields : List (Kind × NodeId)}

/-- **What entering several children does to a collection**: those of its kind that are not there
come after the others, in order and without repetition. -/
theorem slot_insertAll (hfields : ∀ f ∈ fields, f.1.collected = true) :
    (c.insertAll fields).slot k = c.slot k ++
      (((fields.filter (·.1 = k)).map Prod.snd).filter (· ∉ c.slot k)).eraseDups := by
  induction fields generalizing c with
  | nil => simp [insertAll]
  | cons f fields ih =>
    obtain ⟨j, id⟩ := f
    have hj : j.collected = true := hfields (j, id) (by simp)
    have hstep : c.insertAll ((j, id) :: fields) = (c.insert j id).insertAll fields := rfl
    rw [hstep, ih fun f hf ↦ hfields f (by simp [hf]), slot_insert]
    by_cases hjk : j = k
    · subst hjk
      by_cases hid : id ∈ c.slot j
      · have htakes : c.takes j id = false := by simp [takes, ← mem_slot, hid]
        simp [htakes, hid]
      · -- the child that is entered counts as there for those that come after it
        have htakes : c.takes j id = true := by simp [takes, ← mem_slot, hid, hj]
        simp [htakes, hid, List.eraseDups_cons, List.filter_filter, and_comm, beq_eq_decide]
    · simp [hjk]

/-- The fields of one kind among those of several kinds. -/
theorem filter_fields {ks : List Kind} (hks : ks.Nodup) :
    ((c.fields ks).filter (·.1 = k)).map Prod.snd = if k ∈ ks then c.slot k else [] := by
  induction ks with
  | nil => simp [fields]
  | cons j ks ih =>
    obtain ⟨hj, hks⟩ := List.nodup_cons.1 hks
    have hcons : c.fields (j :: ks) = (c.slot j).map (j, ·) ++ c.fields ks := rfl
    rw [hcons, List.filter_append, List.map_append, ih hks]
    by_cases hjk : j = k
    · subst hjk
      simp [hj, List.filter_map, Function.comp_def]
    · simp [hjk, Ne.symm hjk, List.filter_map, Function.comp_def]

end Children

/-! ### What an augment offers -/

namespace Registry

variable {r : Registry}

/-- The groupings that an augment brings in, in the order in which they are opened. -/
def broughtIn (r : Registry) (s : Schema) (a : NodeId) : List NodeId :=
  (r.expand s ((s.node a).children.slot .uses)).groupings

/-- What an augment offers to the collection of one kind, in order: what is declared in it, and then
the fields of the groupings that it brings in. -/
def offered (r : Registry) (s : Schema) (a : NodeId) (k : Kind) : List NodeId :=
  (if k ∈ contributedKinds then s.declaredUnder (.node a) k else []) ++
    if k ∈ Schema.fieldKinds then
      (r.broughtIn s a).flatMap fun g ↦ s.declaredUnder (.node g) k
    else []

theorem filter_fields_contribution (hs : s.Tidy) (k : Kind) :
    ((r.contribution s (s.node a).children).fields.filter (·.1 = k)).map Prod.snd =
      r.offered s a k := by
  have hfields : (r.contribution s (s.node a).children).fields =
      (s.node a).children.fields contributedKinds ++
        (r.broughtIn s a).flatMap fun g ↦ (s.node g).children.fields Schema.fieldKinds := rfl
  rw [hfields, List.filter_append, List.map_append, Children.filter_fields (by decide), offered]
  congr 1
  · split
    · next hk => exact hs.slot_eq (collected_of_mem_contributedKinds hk)
    · rfl
  · have hnodup : Schema.fieldKinds.Nodup := by decide
    simp only [List.filter_flatMap, List.map_flatMap, Children.filter_fields hnodup]
    split
    · next hk =>
      exact List.flatMap_congr fun g _ ↦ hs.slot_eq (collected_of_mem_fieldKinds hk)
    · simp

/-- **An augment offers what it contributes by the rules.** -/
theorem mem_offered_iff (hs : s.Tidy) : id ∈ r.offered s a k ↔ r.Contributes s a k id := by
  rw [← filter_fields_contribution hs, ← mem_fields_contribution_iff hs]
  simp

end Registry

/-! ### Passing over faults -/

namespace Session

/-- The item for a fault that concerns a node. -/
def item (x : Session) (activity : Activity) (f : NodeId × Fault) : Diagnostic :=
  .ofFault activity (f.2.module?.getD "") (x.schema.label f.1) f.2

/-- A merge after which all uses that refer to nothing are noted. -/
def mergeNoting (x : Session) (a t : NodeId) (added : Contribution) : Session :=
  { x.merge a t added with
    diagnostics := x.diagnostics ++ added.failures.map (x.item .expandUses) }

end Session

namespace Link

variable {activity : Activity} {faults : List (NodeId × Fault)}

theorem tolerateAll_of_not_fatal (hpolicy : x.policy = .bestEffort)
    (hfatal : ∀ f ∈ faults, f.2.fatal = false) :
    tolerateAll activity faults x =
      .ok ⟨⟩ { x with diagnostics := x.diagnostics ++ faults.map (x.item activity) } := by
  induction faults generalizing x with
  | nil =>
    rw [List.map_nil, List.append_nil]
    rfl
  | cons f rest ih =>
    have hfirst := tolerate_of_not_fatal (hfatal f (by simp)) hpolicy activity f.1
    have hrest := ih (x := x.noteFault activity (x.schema.label f.1) f.2) hpolicy
      fun e he ↦ hfatal e (by simp [he])
    rw [tolerateAll, bind_of_eq_ok hfirst, hrest, List.map_cons, List.append_cons]
    rfl

theorem tolerateAll_eq_ok_of_strict (hpolicy : x.policy = .strict) {r : PUnit}
    (h : tolerateAll activity faults x = .ok r y) : faults = [] := by
  cases faults with
  | nil => rfl
  | cons f rest =>
    rw [tolerateAll, bind_of_eq_error (tolerate_of_stop (.inr hpolicy) activity f.1)] at h
    cases h

theorem mergeAugment_of_plan (hplan : x.mergePlan a = .ok (t, added)) :
    mergeAugment a x =
      (tolerateAll .expandUses added.failures >>= fun _ ↦ pure t) (x.merge a t added) := by
  have hask : ask (·.mergePlan a) x = .ok (t, added) x := ask_of_eq_ok hplan
  rw [mergeAugment, bind_of_eq_ok hask]
  rfl

/-- An augment that is merged was led to its target. -/
theorem mergePlan_of_mergeAugment (h : mergeAugment a x = .ok t y) :
    ∃ added, x.mergePlan a = .ok (t, added) := by
  rcases hplan : x.mergePlan a with halt | ⟨t', added⟩
  · rw [mergeAugment_of_halt hplan] at h
    cases h
  · rw [mergeAugment_of_plan hplan] at h
    rcases htolerate : tolerateAll .expandUses added.failures (x.merge a t' added) with
      ⟨_, w⟩ | ⟨halt, w⟩
    · rw [bind_of_eq_ok htolerate] at h
      obtain ⟨rfl, -⟩ := EStateM.Result.ok.inj h
      exact ⟨added, rfl⟩
    · rw [bind_of_eq_error htolerate] at h
      cases h

/-- **Under best effort a merge goes through** once its plan is made. -/
theorem mergeAugment_of_bestEffort (hpolicy : x.policy = .bestEffort)
    (hplan : x.mergePlan a = .ok (t, added)) :
    mergeAugment a x = .ok t (x.mergeNoting a t added) := by
  have hfatal : ∀ f ∈ added.failures, f.2.fatal = false := by
    obtain ⟨path, children, -, -, -, rfl⟩ := mergePlan_eq_ok hplan
    exact fun f ↦ Registry.fatal_of_mem_failures
  have htolerate : tolerateAll .expandUses added.failures (x.merge a t added) = _ :=
    tolerateAll_of_not_fatal hpolicy hfatal
  have hitem : (x.merge a t added).item .expandUses = x.item .expandUses := by
    funext f
    simp [Session.item, Session.merge]
  rw [mergeAugment_of_plan hplan, bind_of_eq_ok htolerate, hitem]
  rfl

/-- A merge goes through only if uses that refer to nothing are passed over or there are none. -/
theorem bestEffort_or_of_mergeAugment (hplan : x.mergePlan a = .ok (t, added)) {t' : NodeId}
    (h : mergeAugment a x = .ok t' y) : x.policy = .bestEffort ∨ added.failures = [] := by
  rcases hpolicy : x.policy with - | -
  · rw [mergeAugment_of_plan hplan] at h
    rcases htolerate : tolerateAll .expandUses added.failures (x.merge a t added) with
      ⟨_, w⟩ | ⟨halt, w⟩
    · exact .inr (tolerateAll_eq_ok_of_strict (x := x.merge a t added) hpolicy htolerate)
    · rw [bind_of_eq_error htolerate] at h
      cases h
  · exact .inl rfl

/-- And if so, it does. -/
theorem exists_mergeAugment_eq_ok (hplan : x.mergePlan a = .ok (t, added))
    (h : x.policy = .bestEffort ∨ added.failures = []) :
    ∃ z, mergeAugment a x = .ok t z ∧ z.silent = (x.merge a t added).silent := by
  rcases h with hpolicy | hnone
  · exact ⟨_, mergeAugment_of_bestEffort hpolicy hplan, rfl⟩
  · refine ⟨x.merge a t added, ?_, rfl⟩
    rw [mergeAugment_of_plan hplan, hnone]
    rfl

end Link

/-! ### One merge -/

namespace Session

/-- **What a merge does** to a session that was started from the schema `s`. -/
structure MergeEffect (s : Schema) (x : Session) (a t : NodeId) (y : Session) : Prop where
  /-- The target may be augmented. -/
  augmentable : (x.schema.kind t).augmentable = true
  /-- Each collection of the target is followed by what it admits of what the augment offers and
  does not hold, in order and without repetition. -/
  slot_eq : ∀ k, (y.schema.node t).children.slot k =
    (x.schema.node t).children.slot k ++
      ((if admits (x.schema.kind t) k then x.registry.offered s a k else []).filter
        (· ∉ (x.schema.node t).children.slot k)).eraseDups
  /-- Nothing else in the schema changes. -/
  schema_eq : y.schema = x.schema.modifyChildren t fun _ ↦ (y.schema.node t).children
  registry_eq : y.registry = x.registry
  policy_eq : y.policy = x.policy
  usages_eq : y.usages = x.usages
  /-- The target is recorded for the augment. -/
  mergedTarget?_eq : ∀ b, y.mergedTarget? b = if b = a then some t else x.mergedTarget? b
  /-- The groupings that the augment brings in count as merged. -/
  mem_mergedGroupings_iff : ∀ g,
    g ∈ y.mergedGroupings ↔ g ∈ x.mergedGroupings ∨ x.registry.Brings s a g
  /-- There is one more item for each `uses` that comes up and refers to nothing. -/
  diagnostics_eq : ∃ misses : List (NodeId × Fault), (misses.map Prod.fst).Nodup ∧
    (∀ u fault, (u, fault) ∈ misses ↔ x.registry.Misses s a u fault) ∧
      y.diagnostics = x.diagnostics ++ misses.map (x.item .expandUses)

namespace Enriched

/-- An augment keeps its path. -/
theorem exists_content (h : Enriched s x) {path : String} {children : Children}
    (ha : (s.node a).content = .augment path children) :
    ∃ children', (x.schema.node a).content = .augment path children' := by
  have houtline : (x.schema.node a).content.mapChildren Children.outline =
      (s.node a).content.mapChildren Children.outline := by
    simpa using congrArg (fun z ↦ (z.node a).content) h.outline_eq
  rw [ha] at houtline
  cases hc : (x.schema.node a).content <;> simp_all [Content.mapChildren]

/-- **In every session an augment contributes what it contributed at the start.** -/
theorem contribution_eq (hs : s.Tidy) (h : Enriched s x) {path : String} {children : Children}
    (hcontent : (x.schema.node a).content = .augment path children) :
    x.registry.contribution x.schema children =
      x.registry.contribution s (s.node a).children := by
  have hkeeps := h.keepsDeclarations hs
  have hchildren : (x.schema.node a).children = children := by
    rw [Node.children, Node.children?, hcontent]
    rfl
  rw [hkeeps.contribution_eq, ← hchildren,
    hkeeps.children_eq a (by rw [h.kind_eq_augment hs hcontent]; rfl)]

theorem mergeEffect (hs : s.Tidy) (h : Enriched s x) (hplan : x.mergePlan a = .ok (t, added)) :
    MergeEffect s x a t (x.mergeNoting a t added) := by
  obtain ⟨path, children, hcontent, -, ht, rfl⟩ := Link.mergePlan_eq_ok hplan
  have hcollected : ∀ f ∈ (x.registry.contribution x.schema children).fields.filter
      fun f ↦ admits (x.schema.kind t) f.1, f.1.collected = true := collected_of_mem_admitted
  have hchildren := children_merge (a := a) (x.registry.contribution x.schema children) ht t
  rw [if_pos rfl] at hchildren
  set added := x.registry.contribution x.schema children with hadded
  rw [h.contribution_eq hs hcontent] at hadded
  exact
    { augmentable := ht
      slot_eq := by
        intro k
        have hadmitted : ((added.fields.filter fun f ↦ admits (x.schema.kind t) f.1).filter
            (·.1 = k)).map Prod.snd =
              if admits (x.schema.kind t) k then x.registry.offered s a k else [] := by
          rw [List.filter_filter, ← Registry.filter_fields_contribution hs, ← hadded]
          split
          · next hk =>
            congr 1
            refine List.filter_congr fun f _ ↦ ?_
            by_cases hf : f.1 = k <;> simp [hf, hk]
          · next hk =>
            have hnone : ∀ f ∈ added.fields,
                (decide (f.1 = k) && admits (x.schema.kind t) f.1) ≠ true := by
              rintro f - hf
              obtain ⟨hfk, hadmits⟩ := Bool.and_eq_true_iff.1 hf
              exact hk (of_decide_eq_true hfk ▸ hadmits)
            simpa using List.filter_eq_nil_iff.2 hnone
        rw [← hadmitted, ← Children.slot_insertAll hcollected]
        exact congrArg (·.slot k) hchildren
      schema_eq := by
        refine Schema.modifyChildren_congr ?_
        exact hchildren.symm
      registry_eq := rfl
      policy_eq := rfl
      usages_eq := rfl
      mergedTarget?_eq := mergedTarget?_merge added
      mem_mergedGroupings_iff := by
        intro g
        have hgroupings : g ∈ added.groupings ↔ x.registry.Brings s a g := by
          rw [hadded]
          exact Registry.mem_groupings_expand_iff hs
        rw [← hgroupings]
        by_cases hg : g ∈ x.mergedGroupings <;> simp [mergeNoting, Session.merge, hg]
      diagnostics_eq := by
        refine ⟨added.failures, ?_, fun u fault ↦ ?_, rfl⟩
        · rw [hadded]
          exact x.registry.nodup_failures_expand s a
        · rw [hadded]
          exact Registry.mem_failures_expand_iff hs }

/-- An augment is merged if its path leads to a node that may be augmented. -/
theorem mergePlan_eq_ok (h : Enriched s x) {path : String} {children : Children}
    (ha : (s.node a).content = .augment path children)
    (hfollow : x.followFrom false path a = .ok t) (ht : (x.schema.kind t).augmentable = true) :
    ∃ added, x.mergePlan a = .ok (t, added) := by
  obtain ⟨children', hcontent⟩ := h.exists_content ha
  exact ⟨x.registry.contribution x.schema children', by simp [mergePlan, hcontent, hfollow, ht]⟩

/-- The path that an augment is written with is the one that a plan follows. -/
theorem followFrom_of_mergePlan (h : Enriched s x) {path : String} {children : Children}
    (ha : (s.node a).content = .augment path children)
    (hplan : x.mergePlan a = .ok (t, added)) :
    x.followFrom false path a = .ok t ∧ (x.schema.kind t).augmentable = true := by
  obtain ⟨children', hcontent⟩ := h.exists_content ha
  obtain ⟨path', _, hcontent', hfollow, ht, -⟩ := Link.mergePlan_eq_ok hplan
  obtain ⟨rfl, -⟩ := Content.augment.inj (hcontent.symm.trans hcontent')
  exact ⟨hfollow, ht⟩

end Enriched

/-- **All or nothing.** Under best effort, whatever a session has been asked for: if merging an
augment stops, the session is what it was; if it succeeds, the session is what `MergeEffect` says,
where the augment offers what it contributes by the rules. It succeeds exactly with the node to
which the path leads, if that may be augmented. -/
theorem mergeAugment_effect {docs : List Document} (hdocs : Schema.ofDocuments docs = .ok s)
    (hx : start s .bestEffort = .ok x) (requests : List Request) {path : String}
    {children : Children} (ha : (s.node a).content = .augment path children) :
    let y := x.performAll requests
    (∀ halt z, Link.mergeAugment a y = .error halt z → z = y) ∧
      (∀ t z, Link.mergeAugment a y = .ok t z → MergeEffect s y a t z) ∧
      (∀ k id, id ∈ y.registry.offered s a k ↔ y.registry.Contributes s a k id) ∧
      ∀ t, (∃ z, Link.mergeAugment a y = .ok t z) ↔
        y.followFrom false path a = .ok t ∧ (y.schema.kind t).augmentable = true := by
  intro y
  have hs := Schema.tidy_of_ofDocuments hdocs
  have hy : Enriched s y := enriched_performAll hs hx requests
  have hpolicy : y.policy = .bestEffort := by
    refine (stable_policy .bestEffort).performAll ?_ requests
    obtain ⟨r, -, rfl⟩ := exists_registry_of_start hx
    rfl
  refine ⟨fun halt z hz ↦ ?_, fun t z hz ↦ ?_, fun k id ↦ Registry.mem_offered_iff hs, fun t ↦ ?_⟩
  · rcases hplan : y.mergePlan a with halt' | ⟨t, added⟩
    · rw [Link.mergeAugment_of_halt hplan] at hz
      exact (EStateM.Result.error.inj hz).2.symm
    · rw [Link.mergeAugment_of_bestEffort hpolicy hplan] at hz
      cases hz
  · obtain ⟨added, hplan⟩ := Link.mergePlan_of_mergeAugment hz
    rw [Link.mergeAugment_of_bestEffort hpolicy hplan] at hz
    obtain ⟨-, rfl⟩ := EStateM.Result.ok.inj hz
    exact hy.mergeEffect hs hplan
  · constructor
    · rintro ⟨z, hz⟩
      obtain ⟨added, hplan⟩ := Link.mergePlan_of_mergeAugment hz
      exact hy.followFrom_of_mergePlan ha hplan
    · rintro ⟨hfollow, ht⟩
      obtain ⟨added, hplan⟩ := hy.mergePlan_eq_ok ha hfollow ht
      exact ⟨_, Link.mergeAugment_of_bestEffort hpolicy hplan⟩

/-- Two groupings use each other; an augment uses one of them, a grouping that is not there, and
has a case, which its target does not admit. Another augment goes into what the first one adds. -/
def provided : List Document :=
  [.module
    { name := "m", ownPrefix := "m", space := "urn:m"
      body := [
        .block .grouping "part" none
          [.block .container "box" none [], .uses "rest", .uses "gone"],
        .block .grouping "rest" none
          [.typed .leaf "size" none { name := "int8" }, .uses "part"],
        .block .container "top" none [.typed .leaf "size" none { name := "string" }],
        .augment "/m:top" none
          [.uses "part", .uses "lost", .block .case "open" none [],
            .block .container "lid" none []],
        .augment "/m:top/m:box" none [.block .container "lid" none []]] }]

/-- The children of both groupings come after those of the augment; two uses are noted. -/
theorem mergeAugment_effect_provided :
    ∃ s x z, Schema.ofDocuments provided = .ok s ∧ start s .bestEffort = .ok x ∧
      Link.mergeAugment ⟨11⟩ (x.performAll [.identities ⟨0⟩]) = .ok ⟨8⟩ z ∧
      (z.schema.node ⟨8⟩).children.slot .container = [⟨15⟩, ⟨1⟩] ∧
      (z.schema.node ⟨8⟩).children.slot .leaf = [⟨9⟩, ⟨5⟩] ∧
      z.mergedGroupings = [⟨0⟩, ⟨4⟩] ∧ z.diagnostics.map (·.subject) = ["uses:gone", "uses:lost"] ∧
      MergeEffect s (x.performAll [.identities ⟨0⟩]) ⟨11⟩ ⟨8⟩ z := by
  obtain ⟨x, hx, hfollow, hkind, hcontainers, hleaves, hgroupings, hitems⟩ :
      ∃ x, start (Schema.ofBatch provided) .bestEffort = .ok x ∧
        let y := x.performAll [.identities ⟨0⟩]
        let z := (Link.mergeAugment ⟨11⟩).after y
        y.followFrom false "/m:top" ⟨11⟩ = .ok ⟨8⟩ ∧
          (y.schema.kind ⟨8⟩).augmentable = true ∧
          (z.schema.node ⟨8⟩).children.slot .container = [⟨15⟩, ⟨1⟩] ∧
          (z.schema.node ⟨8⟩).children.slot .leaf = [⟨9⟩, ⟨5⟩] ∧
          z.mergedGroupings = [⟨0⟩, ⟨4⟩] ∧
          z.diagnostics.map (·.subject) = ["uses:gone", "uses:lost"] :=
    exists_ok_of_any (by decide +kernel)
  have hdocs : Schema.ofDocuments provided = .ok (Schema.ofBatch provided) :=
    Schema.ofDocuments_of_offences_eq_nil rfl
  obtain ⟨-, heffect, -, hiff⟩ := mergeAugment_effect (a := ⟨11⟩) hdocs hx [.identities ⟨0⟩] rfl
  obtain ⟨z, hz⟩ := (hiff ⟨8⟩).2 ⟨hfollow, hkind⟩
  rw [Link.after_of_eq_ok hz] at hcontainers hleaves hgroupings hitems
  exact ⟨_, x, z, hdocs, hx, hz, hcontainers, hleaves, hgroupings, hitems, heffect _ _ hz⟩

/-! ### Merging again -/

/-- A target has had an augment: it holds all that it admits of the contribution, and the groupings
brought in count as merged. -/
structure HasHad (s : Schema) (a t : NodeId) (x : Session) : Prop extends Enriched s x where
  mem_entries : ∀ k id, x.registry.Contributes s a k id → admits (s.kind t) k = true →
    (k, id) ∈ (x.schema.node t).children.entries
  mem_mergedGroupings : ∀ g, x.registry.Brings s a g → g ∈ x.mergedGroupings

namespace HasHad

/-- **Step.** What a target has had is not taken back. -/
theorem stable (hs : s.Tidy) (a t : NodeId) : Stable (HasHad s a t) where
  of_untabled_eq := by
    intro x y hx heq
    have transport (P : Session → Prop) (hP : P x.untabled) : P y.untabled := heq ▸ hP
    exact
      { toEnriched := hx.toEnriched.of_untabled_eq heq
        mem_entries := transport
          (fun z ↦ ∀ k id, z.registry.Contributes s a k id → admits (s.kind t) k = true →
            (k, id) ∈ (z.schema.node t).children.entries) hx.mem_entries
        mem_mergedGroupings := transport
          (fun z ↦ ∀ g, z.registry.Brings s a g → g ∈ z.mergedGroupings) hx.mem_mergedGroupings }
  merge := by
    intro x b j added hx hplan
    exact
      { toEnriched := (Enriched.stable hs).merge hx.toEnriched hplan
        mem_entries := fun k id hid hadmits ↦
          (entries_merge_extends hplan t).subset (hx.mem_entries k id hid hadmits)
        mem_mergedGroupings := fun g hg ↦
          List.mem_append_left _ (hx.mem_mergedGroupings g hg) }

end HasHad

/-- A merge gives its target what the augment offers. -/
theorem MergeEffect.hasHad (hs : s.Tidy) (hx : Enriched s x) (hy : Enriched s y)
    (h : MergeEffect s x a t y) : HasHad s a t y where
  toEnriched := hy
  mem_entries := by
    intro k id hid hadmits
    rw [h.registry_eq, ← Registry.mem_offered_iff hs] at hid
    rw [← (hx.keepsDeclarations hs).kind_eq] at hadmits
    rw [← Children.mem_slot, h.slot_eq, if_pos hadmits]
    by_cases hold : id ∈ (x.schema.node t).children.slot k
    · exact List.mem_append_left _ hold
    · exact List.mem_append_right _ (by simp [hid, hold])
  mem_mergedGroupings := fun g hg ↦
    (h.mem_mergedGroupings_iff g).2 (.inr (h.registry_eq ▸ hg))

/-- In every session a plan has the contribution that the augment had at the start. -/
theorem Enriched.added_eq (hs : s.Tidy) (h : Enriched s x)
    (hplan : x.mergePlan a = .ok (t, added)) :
    added = x.registry.contribution s (s.node a).children := by
  obtain ⟨path, children, hcontent, -, -, rfl⟩ := Link.mergePlan_eq_ok hplan
  exact h.contribution_eq hs hcontent

namespace HasHad

/-- **A target that has had an augment gets nothing from it.** -/
theorem merge_eq (hs : s.Tidy) (h : HasHad s a t x) (hplan : x.mergePlan a = .ok (t, added)) :
    (x.merge a t added).schema = x.schema ∧
      (x.merge a t added).mergedGroupings = x.mergedGroupings := by
  have hadded := h.added_eq hs hplan
  have hholds : x.HoldsAll t added := by
    rintro ⟨k, id⟩ hf hadmits
    rw [hadded, Registry.mem_fields_contribution_iff hs] at hf
    rw [(h.keepsDeclarations hs).kind_eq] at hadmits
    exact h.mem_entries k id hf hadmits
  have hgroupings : ∀ g ∈ added.groupings, g ∈ x.mergedGroupings := by
    intro g hg
    rw [hadded] at hg
    exact h.mem_mergedGroupings g ((Registry.mem_groupings_expand_iff hs).1 hg)
  refine ⟨hholds.schema_merge a, ?_⟩
  have hnone : added.groupings.filter (· ∉ x.mergedGroupings) = [] := by
    simpa using hgroupings
  rw [Session.merge, hnone, List.append_nil]

end HasHad

theorem stable_registry (r : Registry) : Stable fun y ↦ y.registry = r :=
  .of_merge (fun _ ↦ .rfl) fun hy _ ↦ hy

/-- **Merging an augment again changes nothing.** Once an augment has been merged into a target, let
anything else be asked for. If its path still leads to that target, or does so again, then merging
it succeeds with the target and leaves the schema and the merged groupings as they are. -/
theorem mergeAugment_again {docs : List Document} (hdocs : Schema.ofDocuments docs = .ok s)
    {policy : Policy} (hx : start s policy = .ok x) (requests later : List Request)
    {path : String} {children : Children} (ha : (s.node a).content = .augment path children)
    (hfirst : Link.mergeAugment a (x.performAll requests) = .ok t y)
    (hback : (y.performAll later).followFrom false path a = .ok t) :
    let z := y.performAll later
    ∃ z', Link.mergeAugment a z = .ok t z' ∧ z'.schema = z.schema ∧
      z'.mergedGroupings = z.mergedGroupings := by
  intro z
  set w := x.performAll requests
  have hs := Schema.tidy_of_ofDocuments hdocs
  have hw : Enriched s w := enriched_performAll hs hx requests
  obtain ⟨added, hplan⟩ := Link.mergePlan_of_mergeAugment hfirst
  have hy : y.silent = (w.mergeNoting a t added).silent := by
    rw [← Link.after_of_eq_ok hfirst]
    exact Link.silent_mergeAugment hplan
  have hz : HasHad s a t z := by
    have hnoting : Enriched s (w.mergeNoting a t added) :=
      (Enriched.stable hs).of_silent_eq ((Enriched.stable hs).merge hw hplan) rfl
    have hgiven := (hw.mergeEffect hs hplan).hasHad hs hw hnoting
    exact (HasHad.stable hs a t).performAll ((HasHad.stable hs a t).of_silent_eq hgiven hy) later
  have hkind : (z.schema.kind t).augmentable = true := by
    rw [(hz.keepsDeclarations hs).kind_eq, ← (hw.keepsDeclarations hs).kind_eq]
    exact (hw.followFrom_of_mergePlan ha hplan).2
  obtain ⟨added', hplan'⟩ := hz.mergePlan_eq_ok ha hback hkind
  -- neither the policy nor the contribution is another one than the first time
  have hpolicy : z.policy = w.policy :=
    (stable_policy w.policy).performAll
      ((stable_policy w.policy).of_silent_eq (x := w.mergeNoting a t added) rfl hy) later
  have hregistry : z.registry = w.registry :=
    (stable_registry w.registry).performAll
      ((stable_registry w.registry).of_silent_eq (x := w.mergeNoting a t added) rfl hy) later
  have hadded : added' = added := by
    rw [hz.added_eq hs hplan', hw.added_eq hs hplan, hregistry]
  obtain ⟨z', hmerge, hsilent⟩ := Link.exists_mergeAugment_eq_ok hplan' (by
    rw [hpolicy, hadded]
    exact Link.bestEffort_or_of_mergeAugment hplan hfirst)
  obtain ⟨hschema, hgroupings⟩ := hz.merge_eq hs hplan'
  refine ⟨z', hmerge, (schema_of_silent_eq hsilent).trans hschema, ?_⟩
  exact (congrArg mergedGroupings hsilent :
    z'.silent.mergedGroupings = (z.merge a t added').silent.mergedGroupings).trans hgroupings

/-- The first augment is merged, then both are, and then the first one again. -/
theorem mergeAugment_again_provided :
    ∃ s x y z', Schema.ofDocuments provided = .ok s ∧ start s .bestEffort = .ok x ∧
      Link.mergeAugment ⟨11⟩ x = .ok ⟨8⟩ y ∧
      let z := y.performAll [.augments ⟨0⟩, .identities ⟨0⟩]
      (z.schema.node ⟨1⟩).children.slot .container = [⟨17⟩] ∧
        Link.mergeAugment ⟨11⟩ z = .ok ⟨8⟩ z' ∧ z'.schema = z.schema ∧
        z'.mergedGroupings = z.mergedGroupings := by
  obtain ⟨x, hx, hok, hfollow, hslot, hback⟩ :
      ∃ x, start (Schema.ofBatch provided) .bestEffort = .ok x ∧
        let y := (Link.mergeAugment ⟨11⟩).after x
        let z := y.performAll [.augments ⟨0⟩, .identities ⟨0⟩]
        (Link.mergeAugment ⟨11⟩).succeeds x = true ∧
          x.followFrom false "/m:top" ⟨11⟩ = .ok ⟨8⟩ ∧
          (z.schema.node ⟨1⟩).children.slot .container = [⟨17⟩] ∧
          z.followFrom false "/m:top" ⟨11⟩ = .ok ⟨8⟩ :=
    exists_ok_of_any (by decide +kernel)
  have hdocs : Schema.ofDocuments provided = .ok (Schema.ofBatch provided) :=
    Schema.ofDocuments_of_offences_eq_nil rfl
  have hstart : Enriched (Schema.ofBatch provided) x :=
    enriched_performAll (Schema.tidy_of_ofDocuments hdocs) hx []
  obtain ⟨t, hfirst⟩ := Link.exists_ok_of_succeeds hok
  obtain ⟨added, hplan⟩ := Link.mergePlan_of_mergeAugment hfirst
  have ht := (hstart.followFrom_of_mergePlan rfl hplan).1
  obtain rfl : t = ⟨8⟩ := Except.ok.inj (ht.symm.trans hfollow)
  set y := (Link.mergeAugment ⟨11⟩).after x
  obtain ⟨z', hagain⟩ :=
    mergeAugment_again hdocs hx [] [.augments ⟨0⟩, .identities ⟨0⟩] rfl hfirst hback
  exact ⟨_, x, y, z', hdocs, hx, hfirst, hslot, hagain⟩

end Session

end SchemaLink
