import SchemaLink.Proofs.Ascent
import SchemaLink.Proofs.Requests

/-!
# The index of uses stays right

Where a grouping is used is looked up in an index that is made once, when a session starts, although
the schema goes on changing. **It need not be made again**: to which grouping a `uses` refers is
read off the outline of the schema, and the outline never changes. So after every sequence of
requests the index is what a scan of the present schema would find (`Session.Indexed`).
-/

namespace SchemaLink

/-- The index is read off the outline. -/
theorem Registry.usages_outline (r : Registry) (s : Schema) :
    r.usages s.outline = r.usages s := by
  simp only [usages, groupingOf?, groupingOf_outline, Schema.nodeIds_outline, Schema.kind_outline]

/-- Handles of nodes are listed by position. -/
theorem Schema.pairwise_nodeIds (s : Schema) : s.nodeIds.Pairwise (·.index < ·.index) :=
  List.pairwise_lt_range.map NodeId.mk fun _ _ h ↦ h

namespace Session

variable {s : Schema} {policy : Policy} {x y : Session} {g u : NodeId}

/-- The index of uses is the one that a scan of the present schema would make. -/
def Indexed (x : Session) : Prop :=
  x.usages = x.registry.usages x.schema

theorem indexed_start (h : start s policy = .ok x) : x.Indexed := by
  obtain ⟨r, -, rfl⟩ := exists_registry_of_start h
  rfl

namespace Indexed

/-- Index, registry and outline all belong to what never changes. -/
theorem of_setting_eq (h : x.Indexed) (heq : y.setting = x.setting) : y.Indexed := by
  have husages : y.setting.usages = x.setting.usages := by rw [heq]
  have hregistry : y.setting.registry = x.setting.registry := by rw [heq]
  have houtline : y.schema.outline = x.schema.outline := congrArg Session.schema heq
  show y.setting.usages = y.setting.registry.usages y.schema
  rw [husages, hregistry, ← Registry.usages_outline, houtline, Registry.usages_outline]
  exact h

theorem stable : Stable Indexed where
  of_untabled_eq := fun h heq ↦ h.of_setting_eq (Link.setting_eq_of_untabled_eq heq)
  merge := by
    intro x a t added hx hplan
    obtain ⟨_, _, -, -, -, rfl⟩ := Link.mergePlan_eq_ok hplan
    exact hx.of_setting_eq (Link.setting_merge x a t fun _ ↦
      Registry.kind_mem_of_mem_fields_contribution)

theorem mem_occurrencesOf_iff (h : x.Indexed) :
    u ∈ x.occurrencesOf g ↔ u.index < x.schema.nodes.size ∧ x.schema.kind u = .uses ∧
      x.registry.groupingOf x.schema u = .ok g := by
  rw [mem_occurrencesOf, h, Registry.mem_usages_iff]

/-- The uses of a grouping come in the order of the schema, and so none comes twice. -/
theorem pairwise_occurrencesOf (h : x.Indexed) (g : NodeId) :
    (x.occurrencesOf g).Pairwise (·.index < ·.index) := by
  have husages : x.usages.Pairwise (·.2.index < ·.2.index) := by
    rw [h]
    refine (x.schema.pairwise_nodeIds.filter _).filterMap _ fun u v huv e he f hf ↦ ?_
    obtain ⟨_, -, rfl⟩ := Option.map_eq_some_iff.1 he
    obtain ⟨_, -, rfl⟩ := Option.map_eq_some_iff.1 hf
    exact huv
  exact (husages.filter _).map Prod.snd fun _ _ huv ↦ huv

end Indexed

/-- **The index is right in every session.** Whatever a session has been asked for, the uses of a
grouping are listed by position, each once, and they are exactly the uses that refer to the grouping
in the schema as it is now. -/
theorem occurrencesOf_performAll (hx : start s policy = .ok x) (requests : List Request)
    (g : NodeId) :
    let y := x.performAll requests
    (y.occurrencesOf g).Pairwise (·.index < ·.index) ∧
      ∀ u, u ∈ y.occurrencesOf g ↔ u.index < y.schema.nodes.size ∧ y.schema.kind u = .uses ∧
        y.registry.groupingOf y.schema u = .ok g := by
  have hindexed := Indexed.stable.performAll (indexed_start hx) requests
  exact ⟨hindexed.pairwise_occurrencesOf g, fun u ↦ hindexed.mem_occurrencesOf_iff⟩

/-- Inside a container a grouping is hidden by another one of its name, which is used there before
and after it is declared; an augment of the container uses the outer one. -/
def overlaid : List Document :=
  [.module
    { name := "m", ownPrefix := "m", space := "urn:m"
      body := [
        .block .grouping "part" none [.block .container "lid" none []],
        .block .container "box" none
          [.uses "part", .block .grouping "part" none [], .uses "m:part"],
        .augment "/m:box" none [.uses "part", .block .choice "form" none [.uses "part"]],
        .identity "shape" none []] }]

/-- After the merge, with the lid of the outer grouping in the container, the uses in the augment
still refer to the outer grouping. -/
theorem occurrencesOf_performAll_overlaid :
    ∃ s x, Schema.ofDocuments overlaid = .ok s ∧ start s .bestEffort = .ok x ∧
      let y := x.performAll [.identities ⟨0⟩, .augments ⟨0⟩, .augment ⟨6⟩]
      (y.schema.node ⟨2⟩).children.slot .container = [⟨1⟩] ∧
        (∀ u ∈ [NodeId.mk 3, ⟨5⟩], u ∈ y.occurrencesOf ⟨4⟩) ∧
        ∀ u ∈ [NodeId.mk 7, ⟨9⟩], u ∈ y.occurrencesOf ⟨0⟩ ∧ u ∉ y.occurrencesOf ⟨4⟩ := by
  obtain ⟨x, hx, hmerged, hinner, houter⟩ :
      ∃ x, start (Schema.ofBatch overlaid) .bestEffort = .ok x ∧
        let y := x.performAll [.identities ⟨0⟩, .augments ⟨0⟩, .augment ⟨6⟩]
        (y.schema.node ⟨2⟩).children.slot .container = [⟨1⟩] ∧
          (∀ u ∈ [NodeId.mk 3, ⟨5⟩], u.index < y.schema.nodes.size ∧ y.schema.kind u = .uses ∧
            y.registry.groupingOf y.schema u = .ok ⟨4⟩) ∧
          ∀ u ∈ [NodeId.mk 7, ⟨9⟩], u.index < y.schema.nodes.size ∧ y.schema.kind u = .uses ∧
            y.registry.groupingOf y.schema u = .ok ⟨0⟩ :=
    exists_ok_of_any (by decide +kernel)
  have hdocs : Schema.ofDocuments overlaid = .ok (Schema.ofBatch overlaid) :=
    Schema.ofDocuments_of_offences_eq_nil rfl
  refine ⟨_, x, hdocs, hx, hmerged, fun u hu ↦ ?_, fun u hu ↦ ⟨?_, fun hmem ↦ ?_⟩⟩
  · exact ((occurrencesOf_performAll hx _ ⟨4⟩).2 u).2 (hinner u hu)
  · exact ((occurrencesOf_performAll hx _ ⟨0⟩).2 u).2 (houter u hu)
  · have hgrouping := (((occurrencesOf_performAll hx _ ⟨4⟩).2 u).1 hmem).2.2
    simp [(houter u hu).2.2] at hgrouping

end Session

end SchemaLink
