import SchemaLink.Proofs.Enrichment
import SchemaLink.Proofs.Places

/-!
# Coherent schemas

Look-up by handle never asks whether a handle is right: a child is taken to be of the kind of its
collection, a parent to own what is declared in it, a type to belong to its node.
`Schema.Coherent` lists what is taken for granted. **Every session that documents and requests lead
to has a coherent schema.**

Coherence has two sides. Places and types can be read off the outline, which never changes, so they
are what they were when the documents were lowered (`Framed`). Collections do change, and for them
the session is compared with the lowered schema (`Session.Enriched`).
-/

namespace SchemaLink

namespace Schema

variable {s s' : Schema} {p : Parent} {id q t : NodeId} {u : SubmoduleId} {m : ModuleId} {k : Kind}

/-! ### Climbing -/

/-- A node stands in a module: at the top level of one of its submodules, or inside another node
that does. -/
inductive StandsIn (s : Schema) : NodeId → ModuleId → Prop where
  | top {id : NodeId} {u : SubmoduleId} {m : ModuleId} (hp : (s.node id).parent = .submodule u)
      (hm : m.index < s.modules.size) (hu : u ∈ (s.module m).units) : StandsIn s id m
  | inside {id q : NodeId} {m : ModuleId} (hp : (s.node id).parent = .node q)
      (h : StandsIn s q m) : StandsIn s id m

theorem ancestorsUpTo_of_parent_submodule (hp : (s.node id).parent = .submodule u) (n : Nat) :
    s.ancestorsUpTo n id = [] := by
  cases n with
  | zero => rfl
  | succ n => simp [ancestorsUpTo, enclosingNode?, hp]

theorem ancestors_of_parent_submodule (hp : (s.node id).parent = .submodule u) :
    s.ancestors id = [] :=
  ancestorsUpTo_of_parent_submodule hp _

theorem homeSubmodule_of_parent_submodule (hp : (s.node id).parent = .submodule u) :
    s.homeSubmodule id = u := by
  simp [homeSubmodule, lineage, ancestors_of_parent_submodule hp, hp]

section

variable (hlt : ∀ id q, (s.node id).parent = .node q → q.index < id.index)
include hlt

/-- No more steps than the position of a node are needed to list its ancestors. -/
theorem ancestorsUpTo_eq_of_le {n l : Nat} (hn : id.index ≤ n) (hl : id.index ≤ l) :
    s.ancestorsUpTo n id = s.ancestorsUpTo l id := by
  induction n generalizing id l with
  | zero =>
    rcases hp : (s.node id).parent with u | q
    · rw [ancestorsUpTo_of_parent_submodule hp, ancestorsUpTo_of_parent_submodule hp]
    · have := hlt id q hp
      omega
  | succ n ih =>
    rcases hp : (s.node id).parent with u | q
    · rw [ancestorsUpTo_of_parent_submodule hp, ancestorsUpTo_of_parent_submodule hp]
    · have hq := hlt id q hp
      obtain ⟨l, rfl⟩ : ∃ l', l = l' + 1 := ⟨l - 1, by omega⟩
      simp only [ancestorsUpTo, enclosingNode?, hp]
      rw [ih (by omega) (show q.index ≤ l by omega)]

theorem ancestors_of_parent_node (hp : (s.node id).parent = .node q) :
    s.ancestors id = q :: s.ancestors q := by
  have hq := hlt id q hp
  obtain ⟨n, hn⟩ : ∃ n, id.index = n + 1 := ⟨id.index - 1, by omega⟩
  simp only [ancestors, hn, ancestorsUpTo, enclosingNode?, hp]
  rw [ancestorsUpTo_eq_of_le hlt (show q.index ≤ n by omega) (Nat.le_refl _)]

theorem homeSubmodule_of_parent_node (hp : (s.node id).parent = .node q) :
    s.homeSubmodule id = s.homeSubmodule q := by
  simp only [homeSubmodule, lineage, ancestors_of_parent_node hlt hp]
  rw [List.getLast_cons (by simp)]

theorem homeModule_of_parent_node (hp : (s.node id).parent = .node q) :
    s.homeModule id = s.homeModule q := by
  rw [homeModule, homeModule, homeSubmodule_of_parent_node hlt hp]

/-- A node stands in the same submodule as the nodes around it. -/
theorem homeSubmodule_of_mem_ancestors {a : NodeId} (h : a ∈ s.ancestors id) :
    s.homeSubmodule a = s.homeSubmodule id := by
  induction hn : id.index using Nat.strongRecOn generalizing id with
  | _ n ih =>
    rcases hp : (s.node id).parent with u | q
    · simp [ancestors_of_parent_submodule hp] at h
    · have hq := hlt id q hp
      rw [homeSubmodule_of_parent_node hlt hp]
      rw [ancestors_of_parent_node hlt hp] at h
      rcases List.mem_cons.1 h with rfl | h
      · rfl
      · exact ih q.index (hn ▸ hq) h rfl

/-- The node whose values a type describes stands in the module of the type. -/
theorem homeModule_carrier : s.homeModule (s.carrier id) = s.homeModule id := by
  have hmem : s.carrier id ∈ s.lineage id := by
    rw [carrier]
    rcases hfind : (s.lineage id).find? fun a ↦ s.kind a ≠ .type with _ | a
    · exact List.getLast_mem _
    · exact List.mem_of_find?_eq_some hfind
  rcases List.mem_cons.1 hmem with h | h
  · rw [h]
  · rw [homeModule, homeModule, homeSubmodule_of_mem_ancestors hlt h]

end

/-- Only types are carried by another node. -/
theorem carrier_eq_self (h : s.kind id ≠ .type) : s.carrier id = id := by
  simp [carrier, lineage, h]

/-- The type of a node that is no type describes the values of that node. -/
theorem carrier_of_parent_node (hlt : ∀ id q, (s.node id).parent = .node q → q.index < id.index)
    (ht : s.kind t = .type) (hp : (s.node t).parent = .node id) (hid : s.kind id ≠ .type) :
    s.carrier t = id := by
  simp [carrier, lineage, ancestors_of_parent_node hlt hp, ht, hid]

/-! ### Frames -/

/-- What can be said of the places and types of a schema without looking at collections. -/
structure Framed (s : Schema) : Prop where
  parent_lt : ∀ id q, (s.node id).parent = .node q → q.index < id.index
  roomy : s.Roomy
  listed : s.Listed
  unit_module : ∀ m, m.index < s.modules.size → ∀ u ∈ (s.module m).units,
    u.index < s.submodules.size ∧ (s.submodule u).module = m
  typesFit : s.TypesFit
  membersFit : s.MembersFit

theorem framed_of_ofDocuments {docs : List Document} (h : ofDocuments docs = .ok s) : s.Framed where
  parent_lt := (tidy_of_ofDocuments h).parent_lt
  roomy := roomy_of_ofDocuments h
  listed := listed_of_ofDocuments h
  unit_module := (tidy_of_ofDocuments h).unit_module
  typesFit := typesFit_of_ofDocuments h
  membersFit := membersFit_of_ofDocuments h

@[simp] theorem collects_outline (s : Schema) (p : Parent) :
    s.outline.Collects p ↔ s.Collects p := by
  cases p <;> simp [Collects]

@[simp] theorem bearsTypes_outline (s : Schema) (id : NodeId) :
    s.outline.BearsTypes id ↔ s.BearsTypes id := by
  simp [BearsTypes]

@[simp] theorem typeOf_outline (s : Schema) (owner t : NodeId) :
    s.outline.TypeOf owner t ↔ s.TypeOf owner t := by
  simp [TypeOf]

/-- **The frame of a schema is read off its outline.** -/
theorem framed_outline_iff : s.outline.Framed ↔ s.Framed := by
  have hroomy : s.outline.Roomy ↔ s.Roomy := by simp [Roomy, HasRoom]
  have hlisted : s.outline.Listed ↔ s.Listed := by simp [Listed, Submodule.outline]
  have htypes : s.outline.TypesFit ↔ s.TypesFit := by simp [TypesFit]
  have hmembers : s.outline.MembersFit ↔ s.MembersFit := by simp [MembersFit, MembersFitAt]
  constructor
  · rintro ⟨h₁, h₂, h₃, h₄, h₅, h₆⟩
    exact ⟨by simpa using h₁, hroomy.1 h₂, hlisted.1 h₃, by simpa [Submodule.outline] using h₄,
      htypes.1 h₅, hmembers.1 h₆⟩
  · rintro ⟨h₁, h₂, h₃, h₄, h₅, h₆⟩
    exact ⟨by simpa using h₁, hroomy.2 h₂, hlisted.2 h₃, by simpa [Submodule.outline] using h₄,
      htypes.2 h₅, hmembers.2 h₆⟩

theorem Framed.of_outline_eq (hs : s.Framed) (h : s'.outline = s.outline) : s'.Framed :=
  framed_outline_iff.1 (h ▸ framed_outline_iff.2 hs)

namespace Framed

variable (hs : s.Framed)
include hs

theorem index_lt_of_parent_submodule (hid : id.index < s.nodes.size)
    (hp : (s.node id).parent = .submodule u) : u.index < s.submodules.size := by
  have hroom := hs.roomy id hid
  by_cases hk : s.kind id = .type
  · rw [hk, hasRoom_type, hp] at hroom
    simp at hroom
  · rw [hasRoom_of_ne_type hk, hp] at hroom
    exact hroom

/-- **Every node stands in one module**, the one that climbing leads to. -/
theorem standsIn_iff (hid : id.index < s.nodes.size) : s.StandsIn id m ↔ m = s.homeModule id := by
  constructor
  · intro h
    induction h with
    | @top id u m hp hm hu =>
      rw [homeModule, homeSubmodule_of_parent_submodule hp]
      exact (hs.unit_module m hm u hu).2.symm
    | @inside id q m hp _ ih =>
      rw [homeModule, homeSubmodule_of_parent_node hs.parent_lt hp]
      exact ih (Nat.lt_trans (hs.parent_lt id q hp) hid)
  · rintro rfl
    -- along parents positions fall
    induction hn : id.index using Nat.strongRecOn generalizing id with
    | _ n ih =>
      rcases hp : (s.node id).parent with u | q
      · obtain ⟨hm, hunit⟩ := hs.listed u (hs.index_lt_of_parent_submodule hid hp)
        rw [homeModule, homeSubmodule_of_parent_submodule hp]
        exact .top hp hm hunit
      · have hq := hs.parent_lt id q hp
        rw [homeModule, homeSubmodule_of_parent_node hs.parent_lt hp]
        exact .inside hp (ih q.index (by omega) (by omega) rfl)

end Framed

/-! ### Coherence -/

/-- What look-up by handle takes for granted. -/
structure Coherent (s : Schema) : Prop where
  /-- What a collection holds is there and of the kind of the collection. -/
  kind_of_mem_slot : ∀ p k id, id ∈ (s.childrenOf p).slot k →
    id.index < s.nodes.size ∧ s.kind id = k
  /-- Nothing is in a collection twice. -/
  nodup_slot : ∀ p k, ((s.childrenOf p).slot k).Nodup
  /-- The parent of a node is there and has room for it. -/
  hasRoom : ∀ id, id.index < s.nodes.size →
    s.HasParent (s.node id).parent ∧ s.HasRoom (s.kind id) (s.node id).parent
  /-- A node comes after its parent. -/
  parent_lt : ∀ id q, (s.node id).parent = .node q → q.index < id.index
  /-- Climbing from a node leads to one module. -/
  standsIn_iff : ∀ id, id.index < s.nodes.size → ∀ m, s.StandsIn id m ↔ m = s.homeModule id
  /-- A node is collected by its parent unless it is a type. -/
  mem_slot_parent : ∀ id, id.index < s.nodes.size → s.kind id ≠ .type →
    id ∈ (s.childrenOf (s.node id).parent).slot (s.kind id)
  /-- A typed node has a type, which belongs to it. -/
  type_fits : ∀ id, s.kind id ∈ [.leaf, .leafList, .typedef] →
    ∃ t, (s.node id).content.typeHandle? = some t ∧ s.kind t = .type ∧ (s.node t).parent = .node id
  /-- The members of a union are types that belong to it. -/
  members_fit : ∀ id spec, (s.node id).content.describedType? = some spec →
    ∀ t ∈ spec.members, s.kind t = .type ∧ (s.node t).parent = .node id

theorem Coherent.filed (h : s.Coherent) : s.Filed :=
  fun p k id hid ↦ (h.kind_of_mem_slot p k id hid).2

theorem kind_of_describedType? (h : (s.node t).content.describedType?.isSome = true) :
    s.kind t = .type := by
  show (s.node t).content.kind = .type
  cases hc : (s.node t).content <;> simp_all [Content.describedType?, Content.kind]

theorem exists_typeHandle? (h : s.kind id ∈ [.leaf, .leafList, .typedef]) :
    ∃ t, (s.node id).content.typeHandle? = some t := by
  have h : (s.node id).content.kind ∈ [.leaf, .leafList, .typedef] := h
  rcases hc : (s.node id).content with ⟨kind, _⟩ | _ | _ | ⟨_, t⟩ | _ | _ <;>
    simp_all [Content.typeHandle?, Content.kind]
  cases kind <;> simp [BlockKind.kind] at h

theorem collected_of_ne_type (h : k ≠ .type) : k.collected = true := by
  cases k <;> simp_all [Kind.collected]

theorem Framed.hasParent (hs : s.Framed) (hid : id.index < s.nodes.size) :
    s.HasParent (s.node id).parent := by
  rcases hp : (s.node id).parent with u | q
  · exact hs.index_lt_of_parent_submodule hid hp
  · exact Nat.lt_trans (hs.parent_lt id q hp) hid

end Schema

namespace Session

variable {s : Schema} {x : Session} {p : Parent} {id : NodeId} {k : Kind}

namespace Enriched

/-- Submodules keep their collections. -/
theorem body_eq (h : Enriched s x) (u : SubmoduleId) :
    (x.schema.submodule u).body = (s.submodule u).body := by
  simpa [Submodule.outline] using congrArg (fun z ↦ (z.submodule u).body) h.outline_eq

/-- What is collected is declared somewhere, with the kind of its collection. -/
theorem exists_declaredUnder (hs : s.Tidy) (h : Enriched s x)
    (hmem : (k, id) ∈ (x.schema.childrenOf p).entries) : ∃ q, id ∈ s.declaredUnder q k := by
  match p with
  | .submodule u =>
    rw [Schema.childrenOf, h.body_eq] at hmem
    have hdeclared : (k, id) ∈ s.declared (.submodule u) := by rwa [← hs.entries_eq]
    exact ⟨_, (Schema.mem_declared.1 hdeclared).1⟩
  | .node t =>
    rcases h.mem_entries_cases t k id hmem with hdeclared | ⟨-, a, -, ⟨-, hid⟩ | ⟨-, g, -, hid⟩⟩
    · exact ⟨_, (Schema.mem_declared.1 hdeclared).1⟩
    · exact ⟨_, hid⟩
    · exact ⟨_, hid⟩

/-- What is declared is still collected. -/
theorem declared_subset (hs : s.Tidy) (h : Enriched s x) (p : Parent) :
    s.declared p ⊆ (x.schema.childrenOf p).entries := by
  match p with
  | .submodule u =>
    rw [Schema.childrenOf, h.body_eq, ← hs.entries_eq]
    exact List.Subset.refl _
  | .node t => exact (h.declared_extends t).subset

theorem nodup_childrenOf (hs : s.Tidy) (h : Enriched s x) (p : Parent) :
    (x.schema.childrenOf p).entries.Nodup := by
  match p with
  | .submodule u =>
    have hentries : (s.submodule u).body.entries = s.declared (.submodule u) :=
      hs.entries_eq (.submodule u)
    rw [Schema.childrenOf, h.body_eq, hentries]
    exact s.nodup_declared _
  | .node t => exact h.nodup_entries t

theorem coherent (hs : s.Tidy) (hframed : s.Framed) (h : Enriched s x) : x.schema.Coherent := by
  have hkeeps := h.keepsDeclarations hs
  have hx := hframed.of_outline_eq h.outline_eq
  have hparent (id : NodeId) : (x.schema.node id).parent = (s.node id).parent := by
    simpa using congrArg (fun z ↦ (z.node id).parent) h.outline_eq
  exact
    { kind_of_mem_slot := by
        intro p k id hmem
        obtain ⟨q, hq⟩ := h.exists_declaredUnder hs (Children.mem_slot.1 hmem)
        obtain ⟨hid, -, hkind⟩ := Schema.mem_declaredUnder.1 hq
        exact ⟨by rwa [hkeeps.size_eq], by rw [hkeeps.kind_eq, hkind]⟩
      nodup_slot := fun p k ↦ Children.nodup_slot (h.nodup_childrenOf hs p)
      hasRoom := fun id hid ↦ ⟨hx.hasParent hid, hx.roomy id hid⟩
      parent_lt := hx.parent_lt
      standsIn_iff := fun id hid m ↦ hx.standsIn_iff hid
      mem_slot_parent := by
        intro id hid hk
        rw [hkeeps.kind_eq] at hk ⊢
        rw [hparent, Children.mem_slot]
        refine h.declared_subset hs _ (Schema.mem_declared.2 ⟨?_, Schema.collected_of_ne_type hk⟩)
        exact Schema.mem_declaredUnder.2 ⟨by rwa [← hkeeps.size_eq], rfl, rfl⟩
      type_fits := by
        intro id hk
        obtain ⟨t, ht⟩ := Schema.exists_typeHandle? hk
        obtain ⟨htype, hp⟩ := hx.typesFit id t ht
        exact ⟨t, ht, Schema.kind_of_describedType? htype, hp⟩
      members_fit := by
        intro id spec hspec t ht
        obtain ⟨htype, hp⟩ := hx.membersFit id spec hspec t ht
        exact ⟨Schema.kind_of_describedType? htype, hp⟩ }

end Enriched

/-- What documents and requests lead to is framed. -/
theorem framed_performAll {docs : List Document}
    (hdocs : Schema.ofDocuments docs = .ok s) {policy : Policy} (hx : start s policy = .ok x)
    (requests : List Request) : (x.performAll requests).schema.Framed :=
  (Schema.framed_of_ofDocuments hdocs).of_outline_eq
    (enriched_performAll (Schema.tidy_of_ofDocuments hdocs) hx requests).outline_eq

/-- **Documents and requests lead to coherent schemas**, whatever is asked for, in which order,
under which policy, and whether it succeeds or fails. -/
theorem coherent_performAll {docs : List Document} (hdocs : Schema.ofDocuments docs = .ok s)
    {policy : Policy} (hx : start s policy = .ok x) (requests : List Request) :
    (x.performAll requests).schema.Coherent := by
  have hs := Schema.tidy_of_ofDocuments hdocs
  have hframed := Schema.framed_of_ofDocuments hdocs
  exact (enriched_performAll hs hx requests).coherent hs hframed

/-- A leaf whose type is a union inside a union, and an augment that fails once it has been merged,
since it uses a grouping that is not there. -/
def assembled : List Document :=
  [.module
    { name := "m", ownPrefix := "m", space := "urn:m"
      body := [
        .typed .leaf "size" none
          { name := "union"
            members := [
              { name := "int8" },
              { name := "union", members := [{ name := "string" }] }] },
        .block .container "box" none [],
        .augment "/m:box" none [.block .container "lid" none [], .uses "gone"],
        .identity "shape" none []] }]

theorem coherent_performAll_assembled :
    ∃ s x, Schema.ofDocuments assembled = .ok s ∧ start s .strict = .ok x ∧
      let y := x.performAll [.augment ⟨6⟩, .augment ⟨5⟩, .augments ⟨0⟩, .identities ⟨0⟩]
      (y.schema.node ⟨5⟩).children.slot .container = [⟨7⟩] ∧ y.schema.Coherent := by
  have hslots : (start (Schema.ofBatch assembled) .strict).toOption.map
      (fun x ↦
        let y := x.performAll [.augment ⟨6⟩, .augment ⟨5⟩, .augments ⟨0⟩, .identities ⟨0⟩]
        (y.schema.node ⟨5⟩).children.slot .container) = some [⟨7⟩] := by
    decide +kernel
  obtain ⟨x, hx, hslot⟩ := Option.map_eq_some_iff.1 hslots
  have hdocs : Schema.ofDocuments assembled = .ok (Schema.ofBatch assembled) :=
    Schema.ofDocuments_of_offences_eq_nil rfl
  have hstart := toOption_eq_some_iff.1 hx
  exact ⟨_, x, hdocs, hstart, hslot, coherent_performAll hdocs hstart _⟩

end Session

end SchemaLink
