import SchemaLink.Proofs.Coherence
import SchemaLink.Proofs.Merging
import SchemaLink.Proofs.Walks

/-!
# Where `..` ends up

In data only containers, lists and notifications, and modules at the top, have anything inside them.
From a node that appears in data, `..` should therefore lead to one of these. On the way up,
choices, cases and groupings are passed over, and **whatever is not passed over encloses data**: a
lowered schema has room for nodes nowhere else. An augment is the exception. It stands for its
target as it is, and a target may be a choice or a case, or, as long as the augment has not been
merged, anything that its path leads to.

**`..` leads to places that enclose data exactly if the augments on the way up have such targets**
(`Session.Climbable.enclosesData_iff`). Every step of the way up keeps to places that have room for
nodes, which is the invariant of the search.
-/

namespace SchemaLink

/-- Nodes of these kinds are places in data that have other data inside. -/
def Kind.enclosesData : Kind → Bool
  | container | list | notification => true
  | _ => false

/-- The position is a module or a node that has other data inside. -/
def Schema.EnclosesData (s : Schema) : Position → Prop
  | .top _ => True
  | .node id => (s.kind id).enclosesData = true

namespace Schema

variable {s : Schema} {id : NodeId}

/-- What collects nodes and is neither passed over nor an augment encloses data. -/
theorem enclosesData_of_collects (h : s.Collects (.node id))
    (htransparent : (s.kind id).transparent = false) (hgrouping : s.kind id ≠ .grouping)
    (haugment : s.kind id ≠ .augment) : (s.kind id).enclosesData = true := by
  have h : (s.node id).content.children?.isSome = true := h
  rw [kind, Node.kind] at *
  rcases hc : (s.node id).content with ⟨kind, _⟩ | _ | _ | _ | _ | _ <;>
    simp_all [Content.children?, Content.kind]
  cases kind <;> simp_all [BlockKind.kind, Kind.enclosesData, Kind.transparent]

theorem Roomy.collects_parent (hs : s.Roomy) (hid : id.index < s.nodes.size)
    (hk : s.kind id ≠ .type) : s.Collects (s.node id).parent :=
  (hasRoom_of_ne_type hk).1 (hs id hid)

end Schema

/-- Groupings are listed with the nodes of kind `uses` that refer to them. -/
theorem Registry.mem_usages_iff {r : Registry} {s : Schema} {g u : NodeId} :
    (g, u) ∈ r.usages s ↔
      u.index < s.nodes.size ∧ s.kind u = .uses ∧ r.groupingOf s u = .ok g := by
  rw [← groupingOf?_eq_some_iff]
  simp [usages, Schema.mem_nodeIds, and_assoc]

namespace Session

open Relation

variable {x : Session} {target : TargetFinder} {home : ModuleId} {id : NodeId} {p q : Parent}
  {c : Position}

/-- Going up from a node, over choices, cases and the uses of groupings, one comes to a parent. -/
def ComesTo (x : Session) (id : NodeId) (p : Parent) : Prop :=
  ReflTransGen (DepthFirst.Leads x.anchorStep) (x.schema.node id).parent p

theorem moves_parent_iff : x.Moves target home .parent (.node id) c ↔
    x.Anchor target (x.schema.node id).parent c := by
  constructor
  · rintro ⟨⟩
    assumption
  · exact .parent

/-! ### The way up -/

/-- Nodes are where there is room for them, and groupings are used by uses. -/
structure Climbable (x : Session) : Prop where
  roomy : x.schema.Roomy
  uses : ∀ g u, (g, u) ∈ x.usages → u.index < x.schema.nodes.size ∧ x.schema.kind u = .uses

namespace Climbable

variable (hx : x.Climbable)
include hx

/-- **Step.** From what is passed over the way goes on to something that collects nodes. -/
theorem collects_of_mem_anchorStep (hq : q ∈ x.anchorStep p) : x.schema.Collects q := by
  obtain ⟨id, -, ⟨htransparent, rfl⟩ | ⟨-, u, hu, rfl⟩⟩ := mem_anchorStep_iff.1 hq
  · have hkind : x.schema.kind id ≠ .uses ∧ x.schema.kind id ≠ .type := by
      constructor <;> intro hk <;> simp [hk, Kind.transparent] at htransparent
    exact hx.roomy.collects_parent (Schema.index_lt_of_kind_ne_uses hkind.1) hkind.2
  · obtain ⟨hindex, hkind⟩ := hx.uses _ u hu
    exact hx.roomy.collects_parent hindex (by simp [hkind])

/-- **Run.** All of the way up collects nodes. -/
theorem collects_of_comesTo (hid : id.index < x.schema.nodes.size)
    (hk : x.schema.kind id ≠ .type) (h : x.ComesTo id p) : x.schema.Collects p := by
  rcases ReflTransGen.cases_tail h with rfl | ⟨q, -, hstep⟩
  · exact hx.roomy.collects_parent hid hk
  · exact hx.collects_of_mem_anchorStep hstep

/-- **The anchors of a node enclose data exactly if the targets on the way up do.** -/
theorem enclosesData_iff (hid : id.index < x.schema.nodes.size) (hk : x.schema.kind id ≠ .type) :
    (∀ c, x.Anchor target (x.schema.node id).parent c → x.schema.EnclosesData c) ↔
      ∀ a t, x.ComesTo id (.node a) → x.schema.kind a = .augment → target a = .ok t →
        (x.schema.kind t).enclosesData = true := by
  constructor
  · intro h a t hcomes ha ht
    exact h (.node t) (anchor_iff.2 ⟨_, hcomes, anchorAt_eq_ok_some_iff.2
      (.inr (.inl ⟨a, t, rfl, ha, ht, rfl⟩))⟩)
  · intro h c hc
    obtain ⟨q, hcomes, hq⟩ := anchor_iff.1 hc
    rcases anchorAt_eq_ok_some_iff.1 hq with ⟨u, -, rfl⟩ | ⟨a, t, rfl, ha, ht, rfl⟩ |
      ⟨p, rfl, htransparent, hgrouping, haugment, rfl⟩
    · trivial
    · exact h a t hcomes ha ht
    · exact Schema.enclosesData_of_collects (hx.collects_of_comesTo hid hk hcomes) htransparent
        hgrouping haugment

end Climbable

end Session

namespace Schema

open Session

variable {s : Schema} {policy : Policy} {l : Linked} {id : NodeId}

/-- **Linking leaves the setting alone**, up to its very end. -/
theorem setting_of_resolve (h : s.resolve policy = .ok l) :
    ∃ x, Session.start s policy = .ok x ∧ l.session.setting = x.setting := by
  obtain ⟨x, hx, -, hrun⟩ := exists_start_of_resolve h
  have hnames : Link.Keeps Session.setting Link.nameAllTypes := fun y ↦
    Link.setting_eq_of_untabled_eq (Link.untabled_eq_of_silent_eq (Link.keeps_nameAllTypes y))
  have hkeeps := (Link.keeps_completeModules l.order).bind fun _ ↦ hnames
  refine ⟨x, hx, ?_⟩
  rw [← Link.after_of_eq_ok hrun]
  exact hkeeps x

theorem climbable_of_resolve {docs : List Document} (hdocs : ofDocuments docs = .ok s)
    (hrun : s.resolve policy = .ok l) : l.session.Climbable := by
  have hmerged := (tidy_of_ofDocuments hdocs).merged_of_resolve hrun
  have hkeeps := hmerged.keepsDeclarations (tidy_of_ofDocuments hdocs)
  obtain ⟨x, hx, hsetting⟩ := setting_of_resolve hrun
  obtain ⟨r, -, rfl⟩ := exists_registry_of_start hx
  have husages : l.session.usages = r.usages s := congrArg Session.usages hsetting
  refine ⟨((framed_of_ofDocuments hdocs).of_outline_eq hmerged.outline_eq).roomy, fun g u hu ↦ ?_⟩
  rw [husages] at hu
  obtain ⟨hindex, hkind, -⟩ := Registry.mem_usages_iff.1 hu
  rw [hkeeps.size_eq, hkeeps.kind_eq]
  exact ⟨hindex, hkind⟩

/-- **Where `..` ends up.** After every run that ends well, from every node that appears in data:
`..` leads to modules, containers, lists and notifications only, exactly if the augments on the way
up from the node have only such targets. -/
theorem enclosesData_of_ascent_iff {docs : List Document} (hdocs : ofDocuments docs = .ok s)
    (hrun : s.resolve policy = .ok l) (hid : l.session.schema.kind id ∈ Kind.dataKinds)
    (home : ModuleId) :
    (∀ c, l.session.Moves l.session.targetOf home .parent (.node id) c →
        l.session.schema.EnclosesData c) ↔
      ∀ a t, l.session.ComesTo id (.node a) → l.session.schema.kind a = .augment →
        l.session.targetOf a = .ok t → (l.session.schema.kind t).enclosesData = true := by
  have hk : l.session.schema.kind id ≠ .uses ∧ l.session.schema.kind id ≠ .type := by
    constructor <;> intro hk <;> simp [hk, Kind.dataKinds] at hid
  have hindex := index_lt_of_kind_ne_uses hk.1
  simp only [moves_parent_iff]
  exact (climbable_of_resolve hdocs hrun).enclosesData_iff hindex hk.2

/-- A grouping is used in a case inside a container and in an augment into that container. -/
def sheltered : List Document :=
  [.module
    { name := "m", ownPrefix := "m", space := "urn:m"
      body := [
        .block .grouping "part" none [.typed .leaf "size" none { name := "string" }],
        .block .container "box" none
          [.block .choice "form" none [.block .case "open" none [.uses "part"]]],
        .augment "/m:box" none [.uses "part"]] }]

theorem enclosesData_of_ascent_sheltered :
    ∃ s l, ofDocuments sheltered = .ok s ∧ s.resolve .strict = .ok l ∧
      l.session.schema.kind ⟨1⟩ = .leaf ∧ l.session.targetOf ⟨7⟩ = .ok ⟨3⟩ ∧
      ∀ c, l.session.Moves l.session.targetOf ⟨0⟩ .parent (.node ⟨1⟩) c →
        l.session.schema.EnclosesData c := by
  have hchecks : ((ofBatch sheltered).resolve .strict).toOption.map
      (fun l ↦ (l.session.schema.kind ⟨1⟩, l.session.targetOf ⟨7⟩, l.session.schema.kind ⟨3⟩,
        l.session.schema.nodeIds.filter fun a ↦ l.session.schema.kind a = .augment)) =
      some (.leaf, .ok ⟨3⟩, .container, [⟨7⟩]) := by
    decide +kernel
  obtain ⟨l, hl, hchecks⟩ := Option.map_eq_some_iff.1 hchecks
  simp only [Prod.mk.injEq] at hchecks
  obtain ⟨hleaf, htarget, hbox, haugments⟩ := hchecks
  have hdocs : ofDocuments sheltered = .ok (ofBatch sheltered) := ofDocuments_of_offences_eq_nil rfl
  have hrun := toOption_eq_some_iff.1 hl
  refine ⟨_, l, hdocs, hrun, hleaf, htarget, ?_⟩
  refine (enclosesData_of_ascent_iff hdocs hrun (by rw [hleaf]; decide) ⟨0⟩).2 ?_
  intro a t _ ha ht
  have hmem : a ∈ l.session.schema.nodeIds :=
    mem_nodeIds.2 (index_lt_of_kind_ne_uses (by rw [ha]; decide))
  obtain rfl : a = ⟨7⟩ := by
    rw [← List.mem_singleton, ← haugments]
    exact List.mem_filter.2 ⟨hmem, by simp [ha]⟩
  obtain rfl : (⟨3⟩ : NodeId) = t := by simpa using htarget.symm.trans ht
  rw [hbox]
  rfl

/-- An augment into a choice. -/
def stranded : List Document :=
  [.module
    { name := "m", ownPrefix := "m", space := "urn:m"
      body := [
        .block .container "box" none [.block .choice "form" none []],
        .augment "/m:box/m:form" none [.typed .leaf "size" none { name := "string" }]] }]

/-- **`..` may lead to a choice**, from a leaf that an augment contributes to it. -/
theorem ascent_to_choice :
    ∃ s l, ofDocuments stranded = .ok s ∧ s.resolve .strict = .ok l ∧
      l.session.schema.kind ⟨3⟩ = .leaf ∧ l.session.schema.kind ⟨1⟩ = .choice ∧
      l.session.Moves l.session.targetOf ⟨0⟩ .parent (.node ⟨3⟩) (.node ⟨1⟩) := by
  have hchecks : ((ofBatch stranded).resolve .strict).toOption.map
      (fun l ↦ (l.session.schema.kind ⟨3⟩, l.session.schema.kind ⟨1⟩,
        (l.session.schema.node ⟨3⟩).parent, l.session.schema.kind ⟨2⟩, l.session.targetOf ⟨2⟩)) =
      some (.leaf, .choice, .node ⟨2⟩, .augment, .ok ⟨1⟩) := by
    decide +kernel
  obtain ⟨l, hl, hchecks⟩ := Option.map_eq_some_iff.1 hchecks
  simp only [Prod.mk.injEq] at hchecks
  obtain ⟨hleaf, hchoice, hparent, haugment, htarget⟩ := hchecks
  refine ⟨_, l, ofDocuments_of_offences_eq_nil rfl, toOption_eq_some_iff.1 hl, hleaf, hchoice,
    moves_parent_iff.2 ?_⟩
  rw [hparent]
  exact .target haugment htarget

end Schema

end SchemaLink
