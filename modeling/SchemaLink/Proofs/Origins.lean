import SchemaLink.Proofs.Ascent

/-!
# Where children come from

After a run, the children of a node are declared in it or were merged into it. Those that were
merged were declared elsewhere: in an augment, or in a grouping that is used in the augment, perhaps
by way of other groupings. `Session.Hangs` covers both. **A child that was merged hangs in an
augment whose recorded target holds it** (`Settled.origin`), so that from the child one can climb
back to the target.

`Session.Settled` collects what look-up and climbing need to know about a session after a run, and
says nothing of how the run went. All that follows about such sessions is derived from it.
-/

namespace SchemaLink

namespace Session

variable {x : Session} {target : TargetFinder} {id a g t u : NodeId} {p : Parent} {c : Position}
  {k : Kind}

/-- A node hangs in a parent: it is declared there, or hangs in a grouping that is used there. -/
inductive Hangs (x : Session) (id : NodeId) : Parent → Prop where
  | declared : Hangs x id (x.schema.node id).parent
  | used {g u : NodeId} (h : Hangs x id (.node g)) (hg : x.schema.kind g = .grouping)
      (hu : (g, u) ∈ x.usages) : Hangs x id (x.schema.node u).parent

theorem hangs_of_parent_eq (h : (x.schema.node id).parent = p) : x.Hangs id p :=
  h ▸ .declared

theorem Hangs.used_of_parent_eq (h : x.Hangs id (.node g)) (hg : x.schema.kind g = .grouping)
    (hu : (g, u) ∈ x.usages) (hp : (x.schema.node u).parent = p) : x.Hangs id p :=
  hp ▸ h.used hg hu

/-- **From where a node hangs, `..` leads to what stands for that place.** -/
theorem Hangs.anchor (h : x.Hangs id p) (hc : x.Anchor target p c) :
    x.Anchor target (x.schema.node id).parent c := by
  induction h with
  | declared => exact hc
  | used _ hg hu ih => exact ih (.used hg hu hc)

/-- A recorded target is the target. -/
theorem targetOf_of_mergedTarget? (h : x.mergedTarget? a = some t) : x.targetOf a = .ok t := by
  simp [targetOf, targetWithin, h]

/-- What is known about a session after a run that has ended well. -/
structure Settled (x : Session) : Prop where
  framed : x.schema.Framed
  coherent : x.schema.Coherent
  mem_usages_iff : ∀ g u, (g, u) ∈ x.usages ↔
    u.index < x.schema.nodes.size ∧ x.schema.kind u = .uses ∧
      x.registry.groupingOf x.schema u = .ok g
  kind_of_groupingOf : ∀ u g, x.registry.groupingOf x.schema u = .ok g →
    x.schema.kind g = .grouping
  kinds_of_mergedTarget? : ∀ a t, x.mergedTarget? a = some t →
    x.schema.kind a = .augment ∧ (x.schema.kind t).augmentable = true
  /-- A child is declared where it is, or was merged there by an augment in which it hangs. -/
  origin : ∀ p k id, id ∈ (x.schema.childrenOf p).slot k →
    (x.schema.node id).parent = p ∨
      k ∈ contributedKinds ∧ ∃ a t, p = .node t ∧ x.mergedTarget? a = some t ∧ x.Hangs id (.node a)

namespace Settled

variable (hx : x.Settled)
include hx

theorem grounded : x.schema.Grounded where
  parent_exists := fun _ hid ↦ hx.framed.hasParent hid
  main_exists := fun m hm ↦ (hx.framed.unit_module m hm _ (by simp [Module.units])).1

theorem filed : x.schema.Filed :=
  hx.coherent.filed

/-- A child of a parent that nothing is merged into is declared there. -/
theorem parent_eq_of_mem_slot (hp : ∀ a t, p = .node t → x.mergedTarget? a ≠ some t)
    (h : id ∈ (x.schema.childrenOf p).slot k) : (x.schema.node id).parent = p := by
  rcases hx.origin p k id h with hparent | ⟨-, a, t, ht, hmerged, -⟩
  · exact hparent
  · exact absurd hmerged (hp a t ht)

/-- Nothing is merged into a grouping. -/
theorem parent_eq_of_mem_slot_grouping (hg : x.schema.kind g = .grouping)
    (h : id ∈ (x.schema.node g).children.slot k) : (x.schema.node id).parent = .node g := by
  refine hx.parent_eq_of_mem_slot (fun a t ht hmerged ↦ ?_) h
  obtain rfl : g = t := by simpa using ht
  simpa [hg, Kind.augmentable] using (hx.kinds_of_mergedTarget? a g hmerged).2

/-- A `uses` stands where it is declared, and is listed among the uses of its grouping. -/
theorem usage_of_mem_slot (hu : u ∈ (x.schema.childrenOf p).slot .uses)
    (hg : x.registry.groupingOf x.schema u = .ok g) :
    (x.schema.node u).parent = p ∧ x.schema.kind g = .grouping ∧ (g, u) ∈ x.usages := by
  obtain ⟨hindex, hkind⟩ := hx.coherent.kind_of_mem_slot p .uses u hu
  refine ⟨?_, hx.kind_of_groupingOf u g hg, (hx.mem_usages_iff g u).2 ⟨hindex, hkind, hg⟩⟩
  rcases hx.origin p .uses u hu with hparent | ⟨hk, -⟩
  · exact hparent
  · simp [contributedKinds] at hk

end Settled

end Session

/-! ### Contributions -/

namespace Session

variable {s : Schema} {x : Session} {a o g u id : NodeId} {k : Kind} (hs : s.Tidy)
  (hkeeps : s.KeepsDeclarations x.schema) (husages : x.usages = x.registry.usages s)
include hs hkeeps husages

/-- What hangs in a grouping hangs where the grouping is used. -/
theorem Hangs.of_groupingOf (h : x.Hangs id (.node g)) (hu : u ∈ s.declaredUnder (.node o) .uses)
    (hg : x.registry.groupingOf s u = .ok g) : x.Hangs id (.node o) := by
  obtain ⟨hindex, hp, hkind⟩ := Schema.mem_declaredUnder.1 hu
  refine h.used_of_parent_eq ?_ ?_ ((hkeeps.parent_eq u).trans hp)
  · rw [hkeeps.kind_eq]
    exact hs.kind_of_groupingOf hg
  · rw [husages]
    exact Registry.mem_usages_iff.2 ⟨hindex, hkind, hg⟩

theorem Hangs.of_brings (h : x.Hangs id (.node g)) (hg : x.registry.Brings s a g) :
    x.Hangs id (.node a) := by
  induction hg with
  | used hu hg => exact h.of_groupingOf hs hkeeps husages hu hg
  | nested _ hu hg ih => exact ih (h.of_groupingOf hs hkeeps husages hu hg)

/-- **What an augment contributes hangs in it.** -/
theorem hangs_of_contributes (h : x.registry.Contributes s a k id) : x.Hangs id (.node a) := by
  rcases h with ⟨-, hid⟩ | ⟨-, g, hg, hid⟩
  · exact hangs_of_parent_eq ((hkeeps.parent_eq id).trans (Schema.mem_declaredUnder.1 hid).2.1)
  · have hfield : x.Hangs id (.node g) :=
      hangs_of_parent_eq ((hkeeps.parent_eq id).trans (Schema.mem_declaredUnder.1 hid).2.1)
    exact hfield.of_brings hs hkeeps husages hg

end Session

theorem Registry.Contributes.mem_contributedKinds {r : Registry} {s : Schema} {a id : NodeId}
    {k : Kind} (h : r.Contributes s a k id) : k ∈ contributedKinds := by
  rcases h with ⟨hk, -⟩ | ⟨hk, -⟩
  · exact hk
  · exact mem_contributedKinds_of_mem_fieldKinds hk

/-! ### Runs that end well -/

namespace Schema

open Session

variable {s : Schema} {policy : Policy} {l : Linked} {id : NodeId} {p : Parent} {k : Kind}

theorem usages_of_resolve (hrun : s.resolve policy = .ok l) :
    l.session.usages = l.session.registry.usages s := by
  obtain ⟨x, hx, hsetting⟩ := setting_of_resolve hrun
  obtain ⟨r, -, rfl⟩ := exists_registry_of_start hx
  have hregistry : l.session.registry = r := congrArg Session.registry hsetting
  have husages : l.session.usages = r.usages s := congrArg Session.usages hsetting
  rw [husages, hregistry]

/-- After a run, a child is declared or was merged. -/
theorem origin_of_resolve (hs : s.Tidy) (hrun : s.resolve policy = .ok l)
    (hmem : id ∈ (l.session.schema.childrenOf p).slot k) :
    (l.session.schema.node id).parent = p ∨
      k ∈ contributedKinds ∧ ∃ a t, p = .node t ∧ l.session.mergedTarget? a = some t ∧
        l.session.Hangs id (.node a) := by
  have hmerged := hs.merged_of_resolve hrun
  have hkeeps := hmerged.keepsDeclarations hs
  have hdeclared (h : (k, id) ∈ s.declared p) : (l.session.schema.node id).parent = p :=
    (hkeeps.parent_eq id).trans (mem_declaredUnder.1 (mem_declared.1 h).1).2.1
  match p with
  | .submodule u =>
    rw [childrenOf, hmerged.body_eq] at hmem
    refine .inl (hdeclared ?_)
    rw [← hs.entries_eq]
    exact Children.mem_slot.1 hmem
  | .node t =>
    rcases (hmerged.mem_entries t k id).1 (Children.mem_slot.1 hmem) with
      h | ⟨a, ha, hcontributes, -⟩
    · exact .inl (hdeclared h)
    · exact .inr ⟨hcontributes.mem_contributedKinds, a, t, rfl, ha,
        hangs_of_contributes hs hkeeps (usages_of_resolve hrun) hcontributes⟩

/-- **A run that ends well leaves a settled session.** -/
theorem settled_of_resolve {docs : List Document} (hdocs : ofDocuments docs = .ok s)
    (hrun : s.resolve policy = .ok l) : l.session.Settled := by
  have hs := tidy_of_ofDocuments hdocs
  have hframed := framed_of_ofDocuments hdocs
  have hmerged := hs.merged_of_resolve hrun
  have hkeeps := hmerged.keepsDeclarations hs
  exact
    { framed := hframed.of_outline_eq hmerged.outline_eq
      coherent := hmerged.coherent hs hframed
      mem_usages_iff := by
        intro g u
        rw [usages_of_resolve hrun, Registry.mem_usages_iff, hkeeps.size_eq, hkeeps.kind_eq,
          hkeeps.groupingOf_eq]
      kind_of_groupingOf := by
        intro u g hg
        rw [hkeeps.groupingOf_eq] at hg
        rw [hkeeps.kind_eq]
        exact hs.kind_of_groupingOf hg
      kinds_of_mergedTarget? := by
        intro a t ht
        rw [hkeeps.kind_eq, hkeeps.kind_eq]
        exact hmerged.kinds a t ht
      origin := fun p k id ↦ origin_of_resolve hs hrun }

end Schema

end SchemaLink
