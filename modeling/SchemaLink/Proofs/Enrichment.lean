import SchemaLink.Proofs.Requests

/-!
# What requests add to a schema

Whatever a session is asked for, its collections keep holding what is declared, in front and
unchanged. **What comes after that was contributed by some augment**, to a node that may be
augmented, and nothing is there twice. `Session.Enriched` says so; it is stable, so it holds after
every sequence of requests (`enriched_performAll`), whichever of them failed and however often an
augment was merged.

A contribution is read off children of augments and groupings. These are never added to, so it is
the same whenever it is asked for (`Enriched.mem_fields_iff`).
-/

namespace SchemaLink

variable {s : Schema} {x y : Session} {a t id : NodeId} {k : Kind}

/-! ### Collections -/

namespace Children

variable {c : Children} {fields : List (Kind × NodeId)} {e : Kind × NodeId}

theorem mem_slot : id ∈ c.slot k ↔ (k, id) ∈ c.entries := by
  simp [slot]

/-- Entries of one kind differ in their handles. -/
theorem nodup_slot (h : c.entries.Nodup) : (c.slot k).Nodup := by
  refine List.Nodup.map_on ?_ (h.filter _)
  rintro ⟨k₁, id₁⟩ h₁ ⟨k₂, id₂⟩ h₂ rfl
  have hk₁ : k₁ = k := by simpa using (List.mem_filter.1 h₁).2
  have hk₂ : k₂ = k := by simpa using (List.mem_filter.1 h₂).2
  rw [hk₁, hk₂]

theorem mem_entries_insert (hk : k.collected = true) :
    e ∈ (c.insert k id).entries ↔ e ∈ c.entries ∨ e = (k, id) := by
  by_cases h : (k, id) ∈ c.entries
  · have htakes : c.takes k id = false := by simp [takes, h]
    simp only [insert, htakes]
    constructor
    · exact .inl
    · rintro (he | rfl)
      · exact he
      · exact h
  · simp [insert, takes, hk, h]

theorem nodup_entries_insert (h : c.entries.Nodup) : (c.insert k id).entries.Nodup := by
  unfold insert
  split
  · next htakes =>
    have hnew : (k, id) ∉ c.entries := by simpa using (Bool.and_eq_true_iff.1 htakes).2
    rw [List.nodup_append_comm]
    exact List.nodup_cons.2 ⟨hnew, h⟩
  · exact h

theorem entries_insert_extends : c.entries <+: (c.insert k id).entries := by
  unfold insert
  split
  · exact List.prefix_append _ _
  · exact List.prefix_rfl

theorem mem_entries_insertAll (h : ∀ f ∈ fields, f.1.collected = true) :
    e ∈ (c.insertAll fields).entries ↔ e ∈ c.entries ∨ e ∈ fields := by
  induction fields generalizing c with
  | nil => simp [insertAll]
  | cons f fields ih =>
    have hrest := ih (c := c.insert f.1 f.2) fun g hg ↦ h g (by simp [hg])
    rw [mem_entries_insert (h f (by simp))] at hrest
    rw [List.mem_cons, ← or_assoc]
    exact hrest

theorem nodup_entries_insertAll (h : c.entries.Nodup) : (c.insertAll fields).entries.Nodup := by
  induction fields generalizing c with
  | nil => exact h
  | cons f fields ih => exact ih (nodup_entries_insert h)

theorem entries_insertAll_extends : c.entries <+: (c.insertAll fields).entries := by
  induction fields generalizing c with
  | nil => exact List.prefix_rfl
  | cons f fields ih => exact entries_insert_extends.trans (ih (c := c.insert f.1 f.2))

end Children

/-! ### One merge -/

namespace Session

/-- Nodes that may be augmented own children. -/
theorem isSome_children?_of_augmentable {n : Node} (h : n.kind.augmentable = true) :
    n.content.children?.isSome = true := by
  rcases hc : n.content with ⟨_, _⟩ | ⟨_, _⟩ | _ | ⟨k, _⟩ | _ | _
  case typed =>
    cases k <;> simp [Node.kind, hc, Content.kind, TypedKind.kind, Kind.augmentable] at h
  all_goals simp_all [Node.kind, Content.kind, Content.children?, Kind.augmentable]

theorem children_merge (added : Contribution) (ht : (x.schema.kind t).augmentable = true)
    (j : NodeId) : ((x.merge a t added).schema.node j).children =
      if j = t then
        (x.schema.node j).children.insertAll
          (added.fields.filter fun f ↦ admits (x.schema.kind t) f.1)
      else (x.schema.node j).children := by
  rw [merge, Schema.node_modifyChildren]
  split
  · next hj =>
    rw [Node.children_mapChildren, if_pos (hj ▸ isSome_children?_of_augmentable ht)]
  · rfl

/-- What a target admits of a contribution is collected. -/
theorem collected_of_mem_admitted {children : Children} {target : Kind} :
    ∀ f ∈ (x.registry.contribution x.schema children).fields.filter fun f ↦ admits target f.1,
      f.1.collected = true :=
  fun _ hf ↦ collected_of_mem_contributedKinds
    (Registry.kind_mem_of_mem_fields_contribution (List.mem_filter.1 hf).1)

/-! ### The invariant -/

/-- A session started from a schema: its collections hold what is declared, and then contributions
of augments. -/
structure Enriched (s : Schema) (x : Session) : Prop where
  outline_eq : x.schema.outline = s.outline
  declared_extends : ∀ t, s.declared (.node t) <+: (x.schema.node t).children.entries
  nodup_entries : ∀ t, (x.schema.node t).children.entries.Nodup
  mem_entries_cases : ∀ t k id, (k, id) ∈ (x.schema.node t).children.entries →
    (k, id) ∈ s.declared (.node t) ∨
      (s.kind t).augmentable = true ∧ ∃ a, s.kind a = .augment ∧ x.registry.Contributes s a k id

namespace Enriched

/-- Apart from the outline, the invariant looks at nodes and registry only. -/
theorem of_untabled_eq (h : Enriched s x) (heq : y.untabled = x.untabled) : Enriched s y := by
  have transport (P : Session → Prop) (hP : P x.untabled) : P y.untabled := heq ▸ hP
  exact
    { outline_eq :=
        (congrArg Session.schema (Link.setting_eq_of_untabled_eq heq)).trans h.outline_eq
      declared_extends := transport
        (fun z ↦ ∀ t, s.declared (.node t) <+: (z.schema.node t).children.entries)
        h.declared_extends
      nodup_entries := transport
        (fun z ↦ ∀ t, (z.schema.node t).children.entries.Nodup) h.nodup_entries
      mem_entries_cases := transport
        (fun z ↦ ∀ t k id, (k, id) ∈ (z.schema.node t).children.entries →
          (k, id) ∈ s.declared (.node t) ∨ (s.kind t).augmentable = true ∧
            ∃ a, s.kind a = .augment ∧ z.registry.Contributes s a k id) h.mem_entries_cases }

/-- Nodes that may not be augmented keep their children. -/
theorem keepsDeclarations (hs : s.Tidy) (h : Enriched s x) : s.KeepsDeclarations x.schema where
  outline_eq := h.outline_eq
  children_eq := by
    intro j hj
    obtain ⟨added, hadded⟩ := h.declared_extends j
    have hnodup := h.nodup_entries j
    -- an entry that was added would be declared as well, and so be there twice
    have hnil : added = [] := by
      refine List.eq_nil_iff_forall_not_mem.2 fun e he ↦ ?_
      have hmem : (e.1, e.2) ∈ (x.schema.node j).children.entries := by
        rw [← hadded]
        exact List.mem_append_right _ he
      rcases h.mem_entries_cases j e.1 e.2 hmem with hdeclared | ⟨haugmentable, -⟩
      · rw [← hadded] at hnodup
        exact List.disjoint_of_nodup_append hnodup hdeclared he
      · simp [haugmentable] at hj
    have hentries : (x.schema.node j).children.entries = (s.node j).children.entries := by
      rw [← hadded, hnil, List.append_nil, ← hs.entries_eq]
      rfl
    rw [← Children.mk.injEq] at hentries
    exact hentries

/-- In every session handles denote something, as walks take for granted. -/
theorem grounded (hs : s.Tidy) (h : Enriched s x) : x.schema.Grounded :=
  Schema.grounded_of_outline_eq h.outline_eq hs.grounded

theorem kind_eq_augment (hs : s.Tidy) (h : Enriched s x) {path : String} {children : Children}
    (hcontent : (x.schema.node a).content = .augment path children) : s.kind a = .augment := by
  rw [← (h.keepsDeclarations hs).kind_eq, Schema.kind, Node.kind, hcontent]
  rfl

/-- In every session, what an augment adds is what it contributes by the rules. -/
theorem mem_fields_iff (hs : s.Tidy) (h : Enriched s x) {path : String} {children : Children}
    (hcontent : (x.schema.node a).content = .augment path children) :
    (k, id) ∈ (x.registry.contribution x.schema children).fields ↔
      x.registry.Contributes s a k id := by
  have hkeeps := h.keepsDeclarations hs
  have hkind := h.kind_eq_augment hs hcontent
  have hchildren : children = (s.node a).children := by
    rw [← hkeeps.children_eq a (by rw [hkind]; rfl), Node.children, Node.children?, hcontent]
    rfl
  rw [hkeeps.contribution_eq, hchildren, Registry.mem_fields_contribution_iff hs]

/-- **Step.** A merge adds contributions of an augment. -/
theorem merge (hs : s.Tidy) (h : Enriched s x) {path : String} {children : Children}
    (hcontent : (x.schema.node a).content = .augment path children)
    (ht : (x.schema.kind t).augmentable = true) :
    Enriched s (x.merge a t (x.registry.contribution x.schema children)) where
  outline_eq := by
    refine Eq.trans (congrArg Session.schema (Link.setting_merge x a t ?_)) h.outline_eq
    exact fun _ ↦ Registry.kind_mem_of_mem_fields_contribution
  declared_extends := by
    intro j
    rw [children_merge _ ht]
    split
    · exact (h.declared_extends j).trans Children.entries_insertAll_extends
    · exact h.declared_extends j
  nodup_entries := by
    intro j
    rw [children_merge _ ht]
    split
    · exact Children.nodup_entries_insertAll (h.nodup_entries j)
    · exact h.nodup_entries j
  mem_entries_cases := by
    intro j k id hmem
    rw [children_merge _ ht] at hmem
    split at hmem
    · next hj =>
      rw [Children.mem_entries_insertAll collected_of_mem_admitted] at hmem
      rcases hmem with hmem | hmem
      · exact h.mem_entries_cases j k id hmem
      · refine .inr ⟨?_, a, h.kind_eq_augment hs hcontent,
          (h.mem_fields_iff hs hcontent).1 (List.mem_filter.1 hmem).1⟩
        rwa [hj, ← (h.keepsDeclarations hs).kind_eq]
    · exact h.mem_entries_cases j k id hmem

theorem stable (hs : s.Tidy) : Stable (Enriched s) where
  of_untabled_eq := of_untabled_eq
  merge := by
    intro x a t added hx hplan
    obtain ⟨path, children, hcontent, -, ht, rfl⟩ := Link.mergePlan_eq_ok hplan
    exact hx.merge hs hcontent ht

end Enriched

/-- At the start the collections hold what is declared. -/
theorem enriched_start (hs : s.Tidy) {policy : Policy} (h : start s policy = .ok x) :
    Enriched s x := by
  obtain ⟨r, -, rfl⟩ := exists_registry_of_start h
  have hentries (t : NodeId) : (s.node t).children.entries = s.declared (.node t) :=
    hs.entries_eq (.node t)
  exact
    { outline_eq := rfl
      declared_extends := fun t ↦ ⟨[], by rw [List.append_nil, hentries]⟩
      nodup_entries := fun t ↦ by
        rw [hentries]
        exact s.nodup_declared _
      mem_entries_cases := fun t k id hmem ↦ .inl (by rwa [hentries] at hmem) }

/-- **Run.** Whatever a session has been asked for, it has only been enriched. -/
theorem enriched_performAll (hs : s.Tidy) {policy : Policy} (h : start s policy = .ok x)
    (requests : List Request) : Enriched s (x.performAll requests) :=
  (Enriched.stable hs).performAll (enriched_start hs h) requests

end Session

end SchemaLink
