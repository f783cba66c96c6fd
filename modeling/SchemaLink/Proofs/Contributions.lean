import SchemaLink.Proofs.Declared
import SchemaLink.Proofs.DepthFirst
import SchemaLink.Proofs.Outline

/-!
# What an augment contributes

An augment contributes children declared in it, and fields of the groupings that it brings in: those
used in it, those used in these, and so on. `Registry.Brings` and `Registry.Contributes` say this by
rules over declarations. `Registry.contribution` computes it by one search over uses and groupings.

**In a tidy schema the two agree** (`mem_fields_contribution_iff`), however groupings use each
other. **And it does not matter when one asks**: children of augments and groupings are never added
to, so `contribution` gives the same answer in every schema that `KeepsDeclarations` of the first
(`KeepsDeclarations.contribution_eq`).
-/

namespace SchemaLink

variable {r : Registry} {s s' : Schema} {a g u id : NodeId} {k : Kind} {name : String}

namespace Registry

/-- A node brings in a grouping: through a `uses` in it, or in a grouping that it brings in. -/
inductive Brings (r : Registry) (s : Schema) (a : NodeId) : NodeId → Prop where
  | used {u g : NodeId} (hu : u ∈ s.declaredUnder (.node a) .uses)
      (hg : r.groupingOf s u = .ok g) : Brings r s a g
  | nested {o u g : NodeId} (ho : Brings r s a o) (hu : u ∈ s.declaredUnder (.node o) .uses)
      (hg : r.groupingOf s u = .ok g) : Brings r s a g

/-- A node is a contribution of an augment: a child of it, or a field of a grouping that it brings
in. -/
def Contributes (r : Registry) (s : Schema) (a : NodeId) (k : Kind) (id : NodeId) : Prop :=
  k ∈ contributedKinds ∧ id ∈ s.declaredUnder (.node a) k ∨
    k ∈ Schema.fieldKinds ∧ ∃ g, r.Brings s a g ∧ id ∈ s.declaredUnder (.node g) k

end Registry

theorem toOption_eq_some_iff {ε α : Type} {answer : Except ε α} {a : α} :
    answer.toOption = some a ↔ answer = .ok a := by
  rcases answer with e | a' <;> simp [Except.toOption]

/-- An answer can be checked for a fact by evaluating both together. -/
theorem exists_ok_of_any {ε α : Type} {answer : Except ε α} {P : α → Prop} [DecidablePred P]
    (h : answer.toOption.any (fun a ↦ decide (P a)) = true) : ∃ a, answer = .ok a ∧ P a := by
  cases answer with
  | error e => simp [Except.toOption] at h
  | ok a => exact ⟨a, rfl, by simpa [Except.toOption] using h⟩

theorem mem_contributedKinds_of_mem_fieldKinds (h : k ∈ Schema.fieldKinds) :
    k ∈ contributedKinds := by
  cases k <;> simp_all [Schema.fieldKinds, contributedKinds]

theorem collected_of_mem_contributedKinds (h : k ∈ contributedKinds) : k.collected = true := by
  cases k <;> simp_all [contributedKinds, Kind.collected]

theorem collected_of_mem_fieldKinds (h : k ∈ Schema.fieldKinds) : k.collected = true :=
  collected_of_mem_contributedKinds (mem_contributedKinds_of_mem_fieldKinds h)

theorem Children.mem_fields {c : Children} {ks : List Kind} :
    (k, id) ∈ c.fields ks ↔ k ∈ ks ∧ id ∈ c.slot k := by
  simp only [fields, List.mem_flatMap, List.mem_map, Prod.mk.injEq]
  constructor
  · rintro ⟨k', hk', id', hid', rfl, rfl⟩
    exact ⟨hk', hid'⟩
  · rintro ⟨hk, hid⟩
    exact ⟨k, hk, id, hid, rfl, rfl⟩

/-! ### Groupings are found among groupings -/

namespace Schema

theorem mem_of_firstNamed? {ids : List NodeId} (h : s.firstNamed? name ids = some id) : id ∈ ids :=
  List.mem_of_find?_eq_some h

/-- Every child is in the collection of its own kind. -/
def Filed (s : Schema) : Prop :=
  ∀ p k id, id ∈ (s.childrenOf p).slot k → s.kind id = k

namespace Filed

variable (hs : s.Filed)
include hs

theorem kind_of_groupingSeen? {target : ModuleId} (h : s.groupingSeen? name target id = some g) :
    s.kind g = .grouping := by
  rcases Option.or_eq_some_iff.1 h with h | ⟨-, h⟩
  · split at h
    · obtain ⟨o, -, ho⟩ := List.exists_of_findSome?_eq_some h
      exact hs (.node o) .grouping g (mem_of_firstNamed? ho)
    · simp at h
  · obtain ⟨body, hbody, hg⟩ := List.mem_flatMap.1 (mem_of_firstNamed? h)
    obtain ⟨u, -, rfl⟩ := List.mem_map.1 hbody
    exact hs (.submodule u) .grouping g hg

/-- A `uses` refers to a grouping. -/
theorem kind_of_groupingOf (h : r.groupingOf s u = .ok g) : s.kind g = .grouping := by
  simp only [Registry.groupingOf, Registry.groupingCalled] at h
  split at h
  · simp at h
  · split at h
    · next found hfound =>
      obtain rfl : found = g := by simpa using h
      exact hs.kind_of_groupingSeen? hfound
    · simp at h

end Filed

namespace Tidy

variable (hs : s.Tidy)
include hs

theorem filed : s.Filed := by
  intro p k id h
  have hdeclared : (k, id) ∈ s.declared p := by
    rw [← hs.entries_eq]
    simpa [Children.slot] using h
  exact (mem_declaredUnder.1 (mem_declared.1 hdeclared).1).2.2

theorem kind_of_groupingOf (h : r.groupingOf s u = .ok g) : s.kind g = .grouping :=
  hs.filed.kind_of_groupingOf h

end Tidy

end Schema

namespace Registry

theorem Brings.kind_eq (h : r.Brings s a g) (hs : s.Tidy) : s.kind g = .grouping := by
  cases h with
  | used _ hg => exact hs.kind_of_groupingOf hg
  | nested _ _ hg => exact hs.kind_of_groupingOf hg

theorem groupingOf?_eq_some_iff : r.groupingOf? s u = some g ↔ r.groupingOf s u = .ok g :=
  toOption_eq_some_iff

/-- The steps of an expansion. -/
theorem mem_expansionStep_iff (hs : s.Tidy) {b : NodeId} :
    b ∈ r.expansionStep s id ↔
      s.kind id = .uses ∧ r.groupingOf s id = .ok b ∨
        s.kind id = .grouping ∧ b ∈ s.declaredUnder (.node id) .uses := by
  have hslot : (s.node id).children.slot .uses = s.declaredUnder (.node id) .uses := hs.slot_eq rfl
  rcases hk : s.kind id <;> simp [expansionStep, hk, groupingOf?_eq_some_iff, hslot]

/-- What an expansion meets: uses declared at the start or in a grouping brought in, and groupings
brought in. -/
def Met (r : Registry) (s : Schema) (a id : NodeId) : Prop :=
  (s.kind id = .uses ∧ ∃ o, (o = a ∨ r.Brings s a o) ∧ id ∈ s.declaredUnder (.node o) .uses) ∨
    s.kind id = .grouping ∧ r.Brings s a id

theorem Met.step (hs : s.Tidy) {b : NodeId} (h : r.Met s a id) (hb : b ∈ r.expansionStep s id) :
    r.Met s a b := by
  rcases (mem_expansionStep_iff hs).1 hb with ⟨hk, hg⟩ | ⟨hk, hu⟩
  · refine .inr ⟨hs.kind_of_groupingOf hg, ?_⟩
    rcases h with ⟨-, o, rfl | ho, hid⟩ | ⟨hk', -⟩
    · exact .used hid hg
    · exact .nested ho hid hg
    · simp [hk] at hk'
  · rcases h with ⟨hk', -⟩ | ⟨-, hbrings⟩
    · simp [hk] at hk'
    · exact .inl ⟨(Schema.mem_declaredUnder.1 hu).2.2, id, .inr hbrings, hu⟩

theorem met_of_reachable (hs : s.Tidy) {b : NodeId} (hu : u ∈ s.declaredUnder (.node a) .uses)
    (h : Relation.ReflTransGen (DepthFirst.Leads (r.expansionStep s)) u b) : r.Met s a b := by
  induction h with
  | refl => exact .inl ⟨(Schema.mem_declaredUnder.1 hu).2.2, a, .inl rfl, hu⟩
  | tail _ hstep ih => exact ih.step hs hstep

theorem index_lt_of_mem_expansionStep (hs : s.Tidy) {b : NodeId} (hb : b ∈ r.expansionStep s id) :
    b.index < s.nodes.size := by
  rcases (mem_expansionStep_iff hs).1 hb with ⟨-, hg⟩ | ⟨-, hu⟩
  · exact Schema.index_lt_of_kind_ne_uses (by simp [hs.kind_of_groupingOf hg])
  · exact (Schema.mem_declaredUnder.1 hu).1

theorem nodeId_index_injective : Function.Injective NodeId.index := by
  rintro ⟨a⟩ ⟨b⟩ rfl
  rfl

/-- From the uses declared at the start an expansion comes to every grouping brought in. -/
theorem Brings.reachable (hs : s.Tidy) (h : r.Brings s a g) :
    ∃ u ∈ s.declaredUnder (.node a) .uses,
      Relation.ReflTransGen (DepthFirst.Leads (r.expansionStep s)) u g := by
  induction h with
  | @used u g hu hg =>
    have hstep := (mem_expansionStep_iff hs).2 (.inl ⟨(Schema.mem_declaredUnder.1 hu).2.2, hg⟩)
    exact ⟨u, hu, .single hstep⟩
  | @nested o u g ho hu hg ih =>
    -- two steps of the search for one rule: down to the `uses`, and over to its grouping
    obtain ⟨u₀, hu₀, hreach⟩ := ih
    have hdown := (mem_expansionStep_iff (r := r) hs).2 (.inr ⟨ho.kind_eq hs, hu⟩)
    have hstep := (mem_expansionStep_iff hs).2 (.inl ⟨(Schema.mem_declaredUnder.1 hu).2.2, hg⟩)
    exact ⟨u₀, hu₀, (hreach.tail hdown).tail hstep⟩

/-- What an expansion comes to. -/
def reached (r : Registry) (s : Schema) (a : NodeId) : List NodeId :=
  DepthFirst.search NodeId.index s.nodes.size (r.expansionStep s) ((s.node a).children.slot .uses)

theorem nodup_reached (r : Registry) (s : Schema) (a : NodeId) : (r.reached s a).Nodup :=
  DepthFirst.nodup_search

/-- **An expansion comes to what it meets by the rules.** -/
theorem mem_reached_iff (hs : s.Tidy) : id ∈ r.reached s a ↔ r.Met s a id := by
  have hreached : id ∈ r.reached s a ↔ ∃ u ∈ s.declaredUnder (.node a) .uses,
      Relation.ReflTransGen (DepthFirst.Leads (r.expansionStep s)) u id := by
    rw [reached, hs.slot_eq rfl]
    exact DepthFirst.mem_search_iff nodeId_index_injective
      (fun u hu ↦ (Schema.mem_declaredUnder.1 hu).1) fun _ _ ↦ index_lt_of_mem_expansionStep hs
  rw [hreached]
  constructor
  · rintro ⟨u, hu, hreach⟩
    exact met_of_reachable hs hu hreach
  · rintro (⟨-, o, rfl | ho, hid⟩ | ⟨-, hbrings⟩)
    · exact ⟨id, hid, .refl⟩
    · obtain ⟨u, hu, hreach⟩ := ho.reachable hs
      exact ⟨u, hu, hreach.tail ((mem_expansionStep_iff hs).2 (.inr ⟨ho.kind_eq hs, hid⟩))⟩
    · exact hbrings.reachable hs

/-- **The groupings of an expansion are the groupings brought in.** -/
theorem mem_groupings_expand_iff (hs : s.Tidy) :
    g ∈ (r.expand s ((s.node a).children.slot .uses)).groupings ↔ r.Brings s a g := by
  have hgroupings : (r.expand s ((s.node a).children.slot .uses)).groupings =
      (r.reached s a).filter fun id ↦ s.kind id = .grouping := rfl
  rw [hgroupings, List.mem_filter, mem_reached_iff hs, decide_eq_true_eq]
  constructor
  · rintro ⟨⟨hk, -⟩ | ⟨-, hbrings⟩, hkind⟩
    · simp [hk] at hkind
    · exact hbrings
  · intro hbrings
    exact ⟨.inr ⟨hbrings.kind_eq hs, hbrings⟩, hbrings.kind_eq hs⟩

/-- A `uses` that refers to nothing comes up in an expansion: it is declared at the start or in a
grouping brought in. -/
def Misses (r : Registry) (s : Schema) (a u : NodeId) (fault : Fault) : Prop :=
  (∃ o, (o = a ∨ r.Brings s a o) ∧ u ∈ s.declaredUnder (.node o) .uses) ∧
    r.groupingOf s u = .error fault

theorem usesFault?_eq_some_iff {fault : Fault} :
    r.usesFault? s id = some (u, fault) ↔
      s.kind id = .uses ∧ r.groupingOf s id = .error fault ∧ id = u := by
  rcases hk : s.kind id <;> rcases hg : r.groupingOf s id with f | g <;>
    simp [usesFault?, hk, hg, and_comm]

/-- **The failures of an expansion are the uses that refer to nothing.** -/
theorem mem_failures_expand_iff (hs : s.Tidy) {fault : Fault} :
    (u, fault) ∈ (r.expand s ((s.node a).children.slot .uses)).failures ↔
      r.Misses s a u fault := by
  have hfailures : (r.expand s ((s.node a).children.slot .uses)).failures =
      (r.reached s a).filterMap (r.usesFault? s) := rfl
  simp only [hfailures, List.mem_filterMap, usesFault?_eq_some_iff, mem_reached_iff hs]
  constructor
  · rintro ⟨id, ⟨-, hmet⟩ | ⟨hk, -⟩, hkind, hfault, rfl⟩
    · exact ⟨hmet, hfault⟩
    · simp [hk] at hkind
  · rintro ⟨⟨o, ho, hu⟩, hfault⟩
    have hkind := (Schema.mem_declaredUnder.1 hu).2.2
    exact ⟨u, .inl ⟨hkind, o, ho, hu⟩, hkind, hfault, rfl⟩

/-- Each `uses` fails once. -/
theorem nodup_failures_expand (r : Registry) (s : Schema) (a : NodeId) :
    ((r.expand s ((s.node a).children.slot .uses)).failures.map Prod.fst).Nodup := by
  have hfailures : (r.expand s ((s.node a).children.slot .uses)).failures =
      (r.reached s a).filterMap (r.usesFault? s) := rfl
  rw [hfailures, List.map_filterMap]
  refine (r.nodup_reached s a).filterMap fun id id' u hu hu' ↦ ?_
  have hself {id : NodeId} (h : u ∈ (r.usesFault? s id).map Prod.fst) : id = u := by
    obtain ⟨⟨v, fault⟩, hv, rfl⟩ := Option.map_eq_some_iff.1 h
    exact (usesFault?_eq_some_iff.1 hv).2.2
  rw [hself hu, hself hu']

theorem mem_fields_expand_iff (hs : s.Tidy) :
    (k, id) ∈ (r.expand s ((s.node a).children.slot .uses)).fields ↔
      k ∈ Schema.fieldKinds ∧ ∃ g, r.Brings s a g ∧ id ∈ s.declaredUnder (.node g) k := by
  have hfields : (r.expand s ((s.node a).children.slot .uses)).fields =
      (r.expand s ((s.node a).children.slot .uses)).groupings.flatMap
        fun g ↦ (s.node g).children.fields Schema.fieldKinds := rfl
  rw [hfields, List.mem_flatMap]
  constructor
  · rintro ⟨g, hg, hmem⟩
    obtain ⟨hk, hid⟩ := Children.mem_fields.1 hmem
    rw [hs.slot_eq (collected_of_mem_fieldKinds hk)] at hid
    exact ⟨hk, g, (mem_groupings_expand_iff hs).1 hg, hid⟩
  · rintro ⟨hk, g, hg, hid⟩
    rw [← hs.slot_eq (collected_of_mem_fieldKinds hk)] at hid
    exact ⟨g, (mem_groupings_expand_iff hs).2 hg, Children.mem_fields.2 ⟨hk, hid⟩⟩

/-- **What is computed is what the rules say.** -/
theorem mem_fields_contribution_iff (hs : s.Tidy) :
    (k, id) ∈ (r.contribution s (s.node a).children).fields ↔ r.Contributes s a k id := by
  have hfields : (r.contribution s (s.node a).children).fields =
      (s.node a).children.fields contributedKinds ++
        (r.expand s ((s.node a).children.slot .uses)).fields := rfl
  rw [hfields, List.mem_append, mem_fields_expand_iff hs, Children.mem_fields, Contributes]
  refine or_congr_left (and_congr_right fun hk ↦ ?_)
  rw [hs.slot_eq (collected_of_mem_contributedKinds hk)]

/-- All contributions are of the kinds that merging may add. -/
theorem kind_mem_of_mem_fields_contribution {children : Children} {f : Kind × NodeId}
    (h : f ∈ (r.contribution s children).fields) : f.1 ∈ contributedKinds := by
  obtain ⟨k, id⟩ := f
  rcases List.mem_append.1 h with h | h
  · exact (Children.mem_fields.1 h).1
  · obtain ⟨g, -, hg⟩ := List.mem_flatMap.1 h
    exact mem_contributedKinds_of_mem_fieldKinds (Children.mem_fields.1 hg).1

end Registry

/-! ### Asking later -/

/-- A schema is another one to which children have been added, but only to nodes that may be
augmented. -/
structure Schema.KeepsDeclarations (s s' : Schema) : Prop where
  outline_eq : s'.outline = s.outline
  children_eq : ∀ id, (s.kind id).augmentable = false → (s'.node id).children = (s.node id).children

namespace Schema.KeepsDeclarations

variable (h : s.KeepsDeclarations s')
include h

theorem kind_eq (id : NodeId) : s'.kind id = s.kind id :=
  kind_eq_of_outline_eq h.outline_eq id

theorem parent_eq (id : NodeId) : (s'.node id).parent = (s.node id).parent :=
  parent_eq_of_outline_eq h.outline_eq id

theorem size_eq : s'.nodes.size = s.nodes.size :=
  size_eq_of_outline_eq h.outline_eq

theorem groupingOf_eq (r : Registry) (id : NodeId) : r.groupingOf s' id = r.groupingOf s id :=
  r.groupingOf_eq_of_outline_eq h.outline_eq id

theorem expansionStep_eq (r : Registry) : r.expansionStep s' = r.expansionStep s := by
  funext id
  rcases hk : s.kind id <;>
    simp [Registry.expansionStep, h.kind_eq, hk, Registry.groupingOf?, h.groupingOf_eq]
  -- left is the case of a grouping, the only one that looks at children
  rw [h.children_eq id (by rw [hk]; rfl)]

/-- **Contributions do not depend on what has been merged.** -/
theorem contribution_eq (r : Registry) (children : Children) :
    r.contribution s' children = r.contribution s children := by
  have hexpand (uses : List NodeId) : r.expand s' uses = r.expand s uses := by
    have hfault : r.usesFault? s' = r.usesFault? s := by
      funext id
      simp only [Registry.usesFault?, h.kind_eq, h.groupingOf_eq]
    simp only [Registry.expand, h.expansionStep_eq, h.size_eq, h.kind_eq, hfault,
      Contribution.mk.injEq, true_and, and_true]
    refine List.flatMap_congr fun g hg ↦ ?_
    have hk : s.kind g = .grouping := by simpa using (List.mem_filter.1 hg).2
    rw [h.children_eq g (by rw [hk]; rfl)]
  simp only [Registry.contribution, hexpand]

end Schema.KeepsDeclarations

end SchemaLink
