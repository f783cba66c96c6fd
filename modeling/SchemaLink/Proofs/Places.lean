import SchemaLink.Proofs.Declared

/-!
# Where nodes, submodules and types belong

Four facts about lowered schemas beyond tidiness.

* **Every node is where there is room for it** (`Schema.Roomy`): a type belongs to a typed node or
  to a union, and any other node to something that collects children.
* **Every submodule is listed by its module** (`Schema.Listed`).
* **Every member of a union is a type that belongs to the union** (`Schema.MembersFit`).
* **The node of a type is called after the type** (`Schema.TypesNamed`).

The first two are inductions over the steps in which the meaning of a batch is built. The third is
not: there the handles of the members are written down with the union, before the members are
there. `Schema.Settles` therefore looks at whole types. It says of a schema and a later one that all
unions appended in between have their members by the end, and that what was there stays what it was.
The fourth is not either, because a step may give a type any name: it is an induction over
descriptions of types.
-/

namespace SchemaLink

namespace Content

variable {c : Content}

theorem Plain.kind_ne_type (h : c.Plain) : c.kind ≠ .type := by
  rcases c with ⟨kind, _⟩ | _ | _ | _ | _ | _ <;> simp_all [Plain, Content.kind]
  cases kind <;> simp [BlockKind.kind]

theorem Plain.describedType?_eq (h : c.Plain) : c.describedType? = none := by
  cases c <;> simp_all [Plain, describedType?]

theorem kind_ne_type_of_typed {k : TypedKind} {t : NodeId} (h : c = .typed k t) :
    c.kind ≠ .type := by
  rw [h]
  cases k <;> simp [Content.kind, TypedKind.kind]

end Content

namespace Schema

variable {s s' s'' : Schema} {p : Parent} {n : Node} {id owner t : NodeId} {k : Kind}

/-! ### Room -/

/-- Types may belong to the node: it is a typed node, or a type itself. -/
def BearsTypes (s : Schema) (id : NodeId) : Prop :=
  (s.node id).content.typeHandle?.isSome = true ∨
    (s.node id).content.describedType?.isSome = true

/-- A parent has room for a node of a given kind. -/
def HasRoom (s : Schema) (k : Kind) (p : Parent) : Prop :=
  if k = .type then ∃ q, p = .node q ∧ s.BearsTypes q else s.Collects p

/-- Every node is where there is room for it. -/
def Roomy (s : Schema) : Prop :=
  ∀ id, id.index < s.nodes.size → s.HasRoom (s.kind id) (s.node id).parent

theorem hasRoom_of_ne_type (hk : k ≠ .type) : s.HasRoom k p ↔ s.Collects p := by
  rw [HasRoom, if_neg hk]

theorem hasRoom_type : s.HasRoom .type p ↔ ∃ q, p = .node q ∧ s.BearsTypes q := by
  rw [HasRoom, if_pos rfl]

theorem BearsTypes.index_lt (h : s.BearsTypes id) : id.index < s.nodes.size := by
  refine index_lt_of_kind_ne_uses fun hk ↦ ?_
  have hk : (s.node id).content.kind = .uses := hk
  have h : (s.node id).content.typeHandle?.isSome = true ∨
    (s.node id).content.describedType?.isSome = true := h
  rcases hc : (s.node id).content with _ | _ | _ | ⟨kind, _⟩ | _ | _ <;>
    simp_all [Content.typeHandle?, Content.describedType?, Content.kind]
  cases kind <;> simp [TypedKind.kind] at hk

theorem BearsTypes.pushNode (h : s.BearsTypes id) (n : Node) : (s.pushNode n).BearsTypes id := by
  have hne := ne_nextNode_of_lt h.index_lt
  rw [BearsTypes, typeHandle?_pushNode, describedType?_pushNode, if_neg hne, if_neg hne]
  exact h

theorem HasRoom.pushNode (h : s.HasRoom k p) (n : Node) : (s.pushNode n).HasRoom k p := by
  by_cases hk : k = .type
  · subst hk
    obtain ⟨q, rfl, hq⟩ := hasRoom_type.1 h
    exact hasRoom_type.2 ⟨q, rfl, hq.pushNode n⟩
  · rw [hasRoom_of_ne_type hk] at h ⊢
    exact h.pushNode n

/-- **Step.** One more node where there is room for it. -/
theorem Roomy.pushNode (hs : s.Roomy) (hn : s.HasRoom n.kind n.parent) : (s.pushNode n).Roomy := by
  intro id hid
  rw [kind_pushNode, parent_pushNode]
  split
  · exact hn.pushNode n
  · next hne =>
    have hid : id.index < s.nodes.size + 1 := by simpa using hid
    have : id.index ≠ s.nodes.size := fun h ↦ hne (by rw [nextNode, ← h])
    exact (hs id (by omega)).pushNode n

/-- More modules and submodules take no room away. -/
theorem Roomy.of_collects (hs : s.Roomy) (hnodes : s'.nodes = s.nodes)
    (hcollects : ∀ p, s.Collects p → s'.Collects p) : s'.Roomy := by
  have hnode : s'.node = s.node := by
    funext id
    rw [node, hnodes, node]
  intro id hid
  have hroom := hs id (hnodes ▸ hid)
  rw [kind, hnode]
  change s'.HasRoom (s.kind id) _
  by_cases hk : s.kind id = .type
  · rw [hk, hasRoom_type] at hroom ⊢
    simpa only [BearsTypes, hnode] using hroom
  · rw [hasRoom_of_ne_type hk] at hroom ⊢
    exact hcollects _ hroom

theorem bearsTypes_of_kind_eq_type (h : s.kind id = .type) : s.BearsTypes id := by
  refine .inr ?_
  have h : (s.node id).content.kind = .type := h
  rcases hc : (s.node id).content with ⟨kind, _⟩ | _ | _ | ⟨kind, _⟩ | _ | _ <;>
    simp_all [Content.describedType?, Content.kind]
  · cases kind <;> simp [BlockKind.kind] at h
  · cases kind <;> simp [TypedKind.kind] at h

/-- **Run.** Lowering puts every node where there is room for it. -/
theorem Grows.roomy (h : s.Grows s') (hs : s.Roomy) : s'.Roomy := by
  induction h with
  | refl => exact hs
  | module d _ ih => exact ih.of_collects rfl fun p hp ↦ (Grows.refl.module d).collects hp
  | submodule name _ hm ih =>
    exact ih.of_collects rfl fun p hp ↦ (Grows.refl.submodule name hm).collects hp
  | plain _ hp hn ih => exact ih.pushNode ((hasRoom_of_ne_type hn.kind_ne_type).2 hp)
  | @typed s' n k name spec _ hp hn ih =>
    have hfirst := ih.pushNode ((hasRoom_of_ne_type (Content.kind_ne_type_of_typed hn)).2 hp)
    refine hfirst.pushNode (hasRoom_type.2 ⟨s'.nextNode, rfl, .inl ?_⟩)
    rw [typeHandle?_pushNode, if_pos rfl, hn]
    rfl
  | member _ ho ih =>
    exact ih.pushNode (hasRoom_type.2 ⟨_, rfl, bearsTypes_of_kind_eq_type ho⟩)

/-! ### Submodules -/

/-- Every submodule belongs to a module that lists it. -/
def Listed (s : Schema) : Prop :=
  ∀ u, u.index < s.submodules.size → (s.submodule u).module.index < s.modules.size ∧
    u ∈ (s.module (s.submodule u).module).units

theorem Listed.pushNode (hs : s.Listed) (n : Node) : (s.pushNode n).Listed := by
  intro u hu
  have hmodule : ((s.pushNode n).submodule u).module = (s.submodule u).module := by
    rw [submodule_pushNode]
    split <;> rfl
  have hmodules (m : ModuleId) : (s.pushNode n).module m = s.module m := by simp [module]
  rw [hmodule, modules_pushNode, hmodules]
  exact hs u (by simpa using hu)

theorem Listed.pushModule (hs : s.Listed) (d : Module) : (s.pushModule d).Listed := by
  intro u hu
  rw [submodule_pushModule, size_modules_pushModule, module_pushModule]
  by_cases hnext : u = s.nextSubmodule
  · simp [hnext, nextModule, Module.units]
  · have hlt : u.index < s.submodules.size := by
      have hne : u.index ≠ s.submodules.size := fun h ↦ hnext (by rw [nextSubmodule, ← h])
      have hu : u.index < s.submodules.size + 1 := by simpa using hu
      omega
    obtain ⟨hm, hunit⟩ := hs u hlt
    have hold : (s.submodule u).module ≠ s.nextModule := by
      intro h
      rw [h] at hm
      exact Nat.lt_irrefl _ hm
    rw [if_neg hnext, if_neg hold]
    exact ⟨by omega, hunit⟩

theorem Listed.pushSubmodule (hs : s.Listed) {m : ModuleId} (name : String)
    (hm : m.index < s.modules.size) : (s.pushSubmodule m name).Listed := by
  intro u hu
  rw [submodule_pushSubmodule, size_modules_pushSubmodule, module_pushSubmodule]
  by_cases hnext : u = s.nextSubmodule
  · simp [hnext, hm, Module.units]
  · have hlt : u.index < s.submodules.size := by
      have hne : u.index ≠ s.submodules.size := fun h ↦ hnext (by rw [nextSubmodule, ← h])
      have hu : u.index < s.submodules.size + 1 := by simpa using hu
      omega
    obtain ⟨hexists, hunit⟩ := hs u hlt
    rw [if_neg hnext]
    refine ⟨hexists, ?_⟩
    split
    · simp only [Module.units, List.mem_cons, List.mem_append] at hunit ⊢
      exact hunit.imp_right .inl
    · exact hunit

/-- **Run.** Lowering lists every submodule with its module. -/
theorem Grows.listed (h : s.Grows s') (hs : s.Listed) : s'.Listed := by
  induction h with
  | refl => exact hs
  | module d _ ih => exact ih.pushModule d
  | submodule name _ hm ih => exact ih.pushSubmodule name hm
  | plain _ _ _ ih => exact ih.pushNode _
  | typed _ _ _ ih => exact (ih.pushNode _).pushNode _
  | member _ _ ih => exact ih.pushNode _

/-! ### Types that belong to nodes -/

/-- A node is a type and belongs to a given node. -/
def TypeOf (s : Schema) (owner t : NodeId) : Prop :=
  (s.node t).content.describedType?.isSome = true ∧ (s.node t).parent = .node owner

/-- If the node is a union, its members are types that belong to it. -/
def MembersFitAt (s : Schema) (id : NodeId) : Prop :=
  ∀ spec, (s.node id).content.describedType? = some spec → ∀ t ∈ spec.members, s.TypeOf id t

/-- The members of every union are types that belong to it. -/
def MembersFit (s : Schema) : Prop :=
  ∀ id, s.MembersFitAt id

/-- A later schema in which nodes have the types and places that they had. -/
structure Carries (s s' : Schema) : Prop where
  size_le : s.nodes.size ≤ s'.nodes.size
  parent_eq : ∀ id, id.index < s.nodes.size → (s'.node id).parent = (s.node id).parent
  describedType?_eq : ∀ id, id.index < s.nodes.size →
    (s'.node id).content.describedType? = (s.node id).content.describedType?

/-- A later schema in which all unions that have been appended have their members. -/
structure Settles (s s' : Schema) : Prop extends Carries s s' where
  fits : ∀ id, s.nodes.size ≤ id.index → s'.MembersFitAt id

namespace Carries

theorem trans (h : s.Carries s') (h' : s'.Carries s'') : s.Carries s'' where
  size_le := Nat.le_trans h.size_le h'.size_le
  parent_eq := fun id hid ↦
    (h'.parent_eq id (Nat.lt_of_lt_of_le hid h.size_le)).trans (h.parent_eq id hid)
  describedType?_eq := fun id hid ↦
    (h'.describedType?_eq id (Nat.lt_of_lt_of_le hid h.size_le)).trans (h.describedType?_eq id hid)

theorem of_nodes_eq (h : s'.nodes = s.nodes) : s.Carries s' := by
  have hnode (id : NodeId) : s'.node id = s.node id := by rw [node, h, node]
  exact ⟨Nat.le_of_eq (by rw [h]), fun id _ ↦ by rw [hnode], fun id _ ↦ by rw [hnode]⟩

theorem pushNode (s : Schema) (n : Node) : s.Carries (s.pushNode n) where
  size_le := by
    rw [size_nodes_pushNode]
    omega
  parent_eq := fun id hid ↦ by rw [parent_pushNode, if_neg (ne_nextNode_of_lt hid)]
  describedType?_eq := fun id hid ↦ by
    rw [describedType?_pushNode, if_neg (ne_nextNode_of_lt hid)]

theorem typeOf (h : s.Carries s') (ht : s.TypeOf owner t) : s'.TypeOf owner t := by
  have hlt := index_lt_of_describedType? ht.1
  rw [TypeOf, h.describedType?_eq t hlt, h.parent_eq t hlt]
  exact ht

theorem membersFitAt (h : s.Carries s') (hid : id.index < s.nodes.size)
    (hfits : s.MembersFitAt id) : s'.MembersFitAt id := by
  intro spec hspec t ht
  rw [h.describedType?_eq id hid] at hspec
  exact h.typeOf (hfits spec hspec t ht)

end Carries

theorem membersFitAt_of_describedType?_eq_none
    (h : (s.node id).content.describedType? = none) : s.MembersFitAt id := by
  intro spec hspec
  simp [h] at hspec

theorem membersFitAt_of_size_le (h : s.nodes.size ≤ id.index) : s.MembersFitAt id :=
  membersFitAt_of_describedType?_eq_none (by rw [node_of_size_le h]; rfl)

namespace Settles

theorem trans (h : s.Settles s') (h' : s'.Settles s'') : s.Settles s'' where
  toCarries := h.toCarries.trans h'.toCarries
  fits := by
    intro id hid
    by_cases hlt : id.index < s'.nodes.size
    · exact h'.membersFitAt hlt (h.fits id hid)
    · exact h'.fits id (Nat.le_of_not_lt hlt)

theorem of_nodes_eq (h : s'.nodes = s.nodes) : s.Settles s' where
  toCarries := .of_nodes_eq h
  fits := fun _ hid ↦ membersFitAt_of_size_le (by rwa [h])

theorem pushNode (s : Schema) (hn : n.content.describedType? = none) :
    s.Settles (s.pushNode n) where
  toCarries := .pushNode s n
  fits := by
    intro id hid
    by_cases hnext : id = s.nextNode
    · refine membersFitAt_of_describedType?_eq_none ?_
      rw [describedType?_pushNode, if_pos hnext, hn]
    · refine membersFitAt_of_size_le ?_
      have hne : id.index ≠ s.nodes.size := fun h ↦ hnext (by rw [nextNode, ← h])
      rw [size_nodes_pushNode]
      omega

end Settles

/-! ### Whole types -/

mutual

theorem carries_addType (s : Schema) (owner : NodeId) (t : TypeDescription) :
    s.Carries (s.addType owner t) := by
  match t with
  | ⟨name, range, length, pattern, path, base, members, enums⟩ =>
    rw [addType]
    exact (Carries.pushNode s _).trans (carries_addTypes _ _ members)

theorem carries_addTypes (s : Schema) (owner : NodeId) (ts : List TypeDescription) :
    s.Carries (s.addTypes owner ts) := by
  match ts with
  | [] =>
    rw [addTypes]
    exact .of_nodes_eq rfl
  | t :: ts =>
    rw [addTypes]
    exact (carries_addType s owner t).trans (carries_addTypes _ owner ts)

end

/-- The first node of a type is the type itself. -/
theorem typeOf_addType (s : Schema) (owner : NodeId) (t : TypeDescription) :
    (s.addType owner t).TypeOf owner s.nextNode := by
  match t with
  | ⟨name, range, length, pattern, path, base, members, enums⟩ =>
    rw [addType]
    refine (carries_addTypes _ _ members).typeOf ?_
    rw [TypeOf, describedType?_pushNode, parent_pushNode, if_pos rfl, if_pos rfl]
    exact ⟨rfl, rfl⟩

/-- **The handles that are written down in advance are those of the types.** -/
theorem typeOf_of_mem_handles {ts : List TypeDescription}
    (h : t ∈ TypeDescription.handles s.nodes.size ts) : (s.addTypes owner ts).TypeOf owner t := by
  induction ts generalizing s with
  | nil => simp [TypeDescription.handles] at h
  | cons first ts ih =>
    rw [addTypes]
    rw [TypeDescription.handles, ← size_addType s owner] at h
    rcases List.mem_cons.1 h with rfl | h
    · exact (carries_addTypes _ owner ts).typeOf (typeOf_addType s owner first)
    · exact ih h

mutual

theorem settles_addType (s : Schema) (owner : NodeId) (t : TypeDescription) :
    s.Settles (s.addType owner t) := by
  refine ⟨carries_addType s owner t, fun id hid ↦ ?_⟩
  match t with
  | ⟨name, range, length, pattern, path, base, members, enums⟩ =>
    rw [addType]
    have hmembers := settles_addTypes (s.pushNode
      { name, parent := .node owner
        content := .type { name, range, length, pattern, path, base
                           members := TypeDescription.handles (s.nextNode.index + 1) members
                           enums } }) s.nextNode members
    by_cases hnext : id = s.nextNode
    · -- the union itself: its members are the types that follow it
      subst hnext
      intro spec hspec t ht
      rw [hmembers.describedType?_eq s.nextNode (by simp [nextNode]), describedType?_pushNode,
        if_pos rfl] at hspec
      obtain rfl := Option.some.inj hspec
      exact typeOf_of_mem_handles (by rwa [size_nodes_pushNode])
    · refine hmembers.fits id ?_
      have hne : id.index ≠ s.nodes.size := fun h ↦ hnext (by rw [nextNode, ← h])
      rw [size_nodes_pushNode]
      omega

theorem settles_addTypes (s : Schema) (owner : NodeId) (ts : List TypeDescription) :
    s.Settles (s.addTypes owner ts) := by
  match ts with
  | [] =>
    rw [addTypes]
    exact .of_nodes_eq rfl
  | t :: ts =>
    rw [addTypes]
    exact (settles_addType s owner t).trans (settles_addTypes _ owner ts)

end

theorem spans_settles : Spans fun s s' ↦ s.Grows s' ∧ s.Settles s' where
  refl := fun s ↦ ⟨.refl, .of_nodes_eq rfl⟩
  trans := fun h h' ↦ ⟨h.1.trans h'.1, h.2.trans h'.2⟩
  collects := fun h ↦ h.1.collects
  module := fun s d ↦ ⟨spans_grows.module s d, .of_nodes_eq rfl⟩
  submodule := fun s _ name hm ↦ ⟨spans_grows.submodule s name hm, .of_nodes_eq rfl⟩
  plain := fun s _ hp hn ↦ ⟨spans_grows.plain s hp hn, .pushNode s hn.describedType?_eq⟩
  typed := fun s _ _ t hp hn ↦
    ⟨spans_grows.typed s t hp hn,
      (Settles.pushNode s (by rw [hn]; rfl)).trans (settles_addType _ _ t)⟩

/-! ### Names of types -/

/-- The node of a type is called after the type. -/
def TypesNamed (s : Schema) : Prop :=
  ∀ id spec, (s.node id).content.describedType? = some spec → (s.node id).name = spec.name

theorem TypesNamed.pushNode (hs : s.TypesNamed)
    (hn : ∀ spec, n.content.describedType? = some spec → n.name = spec.name) :
    (s.pushNode n).TypesNamed := by
  intro id spec hspec
  rw [describedType?_pushNode] at hspec
  rw [name_pushNode]
  split
  · next hnext => exact hn spec (by rwa [if_pos hnext] at hspec)
  · next hold => exact hs id spec (by rwa [if_neg hold] at hspec)

theorem TypesNamed.pushUntyped (hs : s.TypesNamed) (hn : n.content.describedType? = none) :
    (s.pushNode n).TypesNamed :=
  hs.pushNode fun spec hspec ↦ by simp [hn] at hspec

theorem TypesNamed.of_nodes_eq (hs : s.TypesNamed) (h : s'.nodes = s.nodes) : s'.TypesNamed := by
  intro id spec hspec
  rw [node, h] at hspec ⊢
  exact hs id spec hspec

mutual

theorem typesNamed_addType {s : Schema} (hs : s.TypesNamed) (owner : NodeId)
    (t : TypeDescription) : (s.addType owner t).TypesNamed := by
  match t with
  | ⟨name, range, length, pattern, path, base, members, enums⟩ =>
    rw [addType]
    refine typesNamed_addTypes (hs.pushNode fun spec hspec ↦ ?_) s.nextNode members
    obtain rfl := Option.some.inj hspec
    rfl

theorem typesNamed_addTypes {s : Schema} (hs : s.TypesNamed) (owner : NodeId)
    (ts : List TypeDescription) : (s.addTypes owner ts).TypesNamed := by
  match ts with
  | [] => rwa [addTypes]
  | t :: ts =>
    rw [addTypes]
    exact typesNamed_addTypes (typesNamed_addType hs owner t) owner ts

end

theorem spans_typesNamed : Spans fun s s' ↦ s.Grows s' ∧ (s.TypesNamed → s'.TypesNamed) where
  refl := fun _ ↦ ⟨.refl, fun hs ↦ hs⟩
  trans := fun h h' ↦ ⟨h.1.trans h'.1, h'.2 ∘ h.2⟩
  collects := fun h ↦ h.1.collects
  module := fun s d ↦ ⟨spans_grows.module s d, fun hs ↦ hs.of_nodes_eq rfl⟩
  submodule := fun s _ name hm ↦ ⟨spans_grows.submodule s name hm, fun hs ↦ hs.of_nodes_eq rfl⟩
  plain := fun s _ hp hn ↦
    ⟨spans_grows.plain s hp hn, fun hs ↦ hs.pushUntyped hn.describedType?_eq⟩
  typed := fun s _ _ t hp hn ↦
    ⟨spans_grows.typed s t hp hn,
      fun hs ↦ typesNamed_addType (hs.pushUntyped (by rw [hn]; rfl)) _ t⟩

/-! ### Lowered schemas -/

section

variable {docs : List Document} (h : ofDocuments docs = .ok s)
include h

theorem roomy_of_ofDocuments : s.Roomy :=
  (grows_of_ofDocuments h).roomy fun id hid ↦ by simp at hid

theorem listed_of_ofDocuments : s.Listed :=
  (grows_of_ofDocuments h).listed fun u hu ↦ by simp at hu

theorem membersFit_of_ofDocuments : s.MembersFit :=
  fun id ↦ (spans_settles.of_ofDocuments h).2.fits id (Nat.zero_le _)

theorem typesNamed_of_ofDocuments : s.TypesNamed := by
  refine (spans_typesNamed.of_ofDocuments h).2 fun id spec hspec ↦ ?_
  rw [node_of_size_le (by simp)] at hspec
  simp [blankNode, Content.describedType?] at hspec

end

end Schema

end SchemaLink
