import Mathlib.Data.List.Nodup
import SchemaLink.Proofs.Lowering

/-!
# Declared children

A node is declared under its parent. **In a lowered schema the collections hold exactly what is
declared**: under each parent, in order, once each (`Tidy.slot_eq`). Later on, merging may only add
to these collections, so `declaredUnder` also tells the two parts of a collection apart.

`Schema.Tidy` puts together what lowering guarantees about places: parents come first, collections
are filled from parents, and a module and its submodules know each other. `Schema.TypesFit` says
that the handle in a typed node denotes its type.
-/

namespace SchemaLink

namespace Schema

variable {s s' : Schema} {p : Parent} {n : Node} {id : NodeId} {k : Kind}

/-- The collections of a parent. -/
def childrenOf (s : Schema) : Parent → Children
  | .submodule u => (s.submodule u).body
  | .node id => (s.node id).children

/-- The nodes of one kind declared under a parent, in order. -/
def declaredUnder (s : Schema) (p : Parent) (k : Kind) : List NodeId :=
  s.nodeIds.filter fun id ↦ (s.node id).parent = p ∧ s.kind id = k

/-- All nodes declared under a parent that are collected, in order and with their kinds. -/
def declared (s : Schema) (p : Parent) : List (Kind × NodeId) :=
  (s.nodeIds.filter fun id ↦ (s.node id).parent = p ∧ (s.kind id).collected).map
    fun id ↦ (s.kind id, id)

/-- What lowering guarantees about places. -/
structure Tidy (s : Schema) : Prop where
  parent_exists : ∀ id, id.index < s.nodes.size → s.HasParent (s.node id).parent
  /-- A node comes after its parent. -/
  parent_lt : ∀ id p, (s.node id).parent = .node p → p.index < id.index
  /-- Collections hold what is declared. -/
  entries_eq : ∀ p, (s.childrenOf p).entries = s.declared p
  /-- The submodules of a module are there and know their module. -/
  unit_module : ∀ m, m.index < s.modules.size → ∀ u ∈ (s.module m).units,
    u.index < s.submodules.size ∧ (s.submodule u).module = m

/-- The handle in a typed node denotes the node of its type. -/
def TypesFit (s : Schema) : Prop :=
  ∀ id t, (s.node id).content.typeHandle? = some t →
    (s.node t).content.describedType?.isSome = true ∧ (s.node t).parent = .node id

/-! ### Declared nodes -/

theorem mem_declaredUnder :
    id ∈ s.declaredUnder p k ↔
      id.index < s.nodes.size ∧ (s.node id).parent = p ∧ s.kind id = k := by
  simp [declaredUnder, mem_nodeIds]

theorem mem_declared :
    (k, id) ∈ s.declared p ↔ id ∈ s.declaredUnder p k ∧ k.collected = true := by
  simp only [declared, List.mem_map, List.mem_filter, mem_nodeIds, mem_declaredUnder,
    decide_eq_true_eq, Prod.mk.injEq]
  constructor
  · rintro ⟨id', ⟨hid, hp, hc⟩, rfl, rfl⟩
    exact ⟨⟨hid, hp, rfl⟩, hc⟩
  · rintro ⟨⟨hid, hp, rfl⟩, hc⟩
    exact ⟨id, ⟨hid, hp, hc⟩, rfl, rfl⟩

theorem nodup_nodeIds (s : Schema) : s.nodeIds.Nodup :=
  List.nodup_range.map fun a b h ↦ by simpa using h

theorem nodup_declaredUnder (s : Schema) (p : Parent) (k : Kind) : (s.declaredUnder p k).Nodup :=
  s.nodup_nodeIds.filter _

theorem nodup_declared (s : Schema) (p : Parent) : (s.declared p).Nodup :=
  (s.nodup_nodeIds.filter _).map fun _ _ h ↦ (Prod.mk.inj h).2

/-- The collection of one kind out of all that is declared. -/
theorem filter_declared (hk : k.collected = true) :
    ((s.declared p).filter (·.1 = k)).map Prod.snd = s.declaredUnder p k := by
  rw [declared, List.filter_map, List.map_map, List.filter_filter, declaredUnder]
  refine (List.map_id _).trans (List.filter_congr fun id _ ↦ ?_)
  by_cases hid : s.kind id = k <;> simp [hid, hk]

/-! ### One more node -/

theorem nodeIds_pushNode (s : Schema) (n : Node) :
    (s.pushNode n).nodeIds = s.nodeIds ++ [s.nextNode] := by
  simp [nodeIds, List.range_succ, nextNode]

theorem mem_nodeIds_ne_nextNode (h : id ∈ s.nodeIds) : id ≠ s.nextNode :=
  ne_nextNode_of_lt (mem_nodeIds.1 h)

theorem declared_pushNode (s : Schema) (n : Node) (p : Parent) :
    (s.pushNode n).declared p =
      s.declared p ++
        if n.parent = p ∧ n.kind.collected = true then [(n.kind, s.nextNode)] else [] := by
  have hold : ((s.nodeIds.filter fun id ↦
      ((s.pushNode n).node id).parent = p ∧ ((s.pushNode n).kind id).collected).map
        fun id ↦ ((s.pushNode n).kind id, id)) = s.declared p := by
    rw [declared, List.filter_congr (q := fun id ↦
      decide ((s.node id).parent = p ∧ (s.kind id).collected = true))]
    · refine List.map_congr_left fun id hid ↦ ?_
      rw [kind_pushNode, if_neg (mem_nodeIds_ne_nextNode (List.mem_filter.1 hid).1)]
    · intro id hid
      rw [parent_pushNode, kind_pushNode, if_neg (mem_nodeIds_ne_nextNode hid),
        if_neg (mem_nodeIds_ne_nextNode hid)]
  rw [declared, nodeIds_pushNode, List.filter_append, List.map_append, hold]
  by_cases hn : n.parent = p ∧ n.kind.collected = true
  · simp [parent_pushNode, kind_pushNode, hn]
  · simp [parent_pushNode, kind_pushNode, hn]

theorem childrenOf_pushNode (hne : n.parent ≠ .node s.nextNode) (hempty : n.children = {})
    (p : Parent) :
    (s.pushNode n).childrenOf p =
      if p = .node s.nextNode then {}
      else if n.parent = p ∧ s.Collects p then (s.childrenOf p).insert n.kind s.nextNode
      else s.childrenOf p := by
  match p with
  | .submodule u =>
    simp only [childrenOf, submodule_pushNode, Collects]
    by_cases hu : n.parent = .submodule u ∧ u.index < s.submodules.size <;> simp [hu]
  | .node j =>
    simp only [childrenOf, node_pushNode, Parent.node.injEq, Collects]
    by_cases hj : j = s.nextNode
    · subst hj
      simp [hne, hempty]
    · by_cases hp : n.parent = .node j
      · simp [hj, hp, Node.children_mapChildren]
      · simp [hj, hp]

/-- **Step.** One more node keeps a schema tidy: it is collected if its kind is, which takes a
parent that collects children. -/
theorem Tidy.pushNode (hs : s.Tidy) (hp : s.HasParent n.parent) (hempty : n.children = {})
    (hc : n.kind.collected = true → s.Collects n.parent) : (s.pushNode n).Tidy where
  parent_exists := by
    intro id hid
    have hgrows : ∀ {p}, s.HasParent p → (s.pushNode n).HasParent p := by
      intro p hp
      cases p with
      | submodule u => simpa [HasParent] using hp
      | node j => simp only [HasParent, size_nodes_pushNode] at hp ⊢; omega
    rw [parent_pushNode]
    split
    · exact hgrows hp
    · next hne =>
      have hid : id.index < s.nodes.size + 1 := by simpa using hid
      refine hgrows (hs.parent_exists id ?_)
      have : id.index ≠ s.nodes.size := fun h ↦ hne (by rw [nextNode, ← h])
      omega
  parent_lt := by
    intro id q
    rw [parent_pushNode]
    split
    · next hid =>
      intro hq
      rw [hq] at hp
      rw [hid]
      exact hp
    · exact hs.parent_lt id q
  entries_eq := by
    intro p
    have hne : n.parent ≠ .node s.nextNode := by
      intro h
      rw [h] at hp
      exact Nat.lt_irrefl _ hp
    rw [childrenOf_pushNode hne hempty, declared_pushNode]
    by_cases hnext : p = .node s.nextNode
    · -- nothing is declared under the new node yet
      have hnone : s.declared p = [] := by
        refine List.eq_nil_iff_forall_not_mem.2 fun e hmem ↦ ?_
        obtain ⟨k, id⟩ := e
        obtain ⟨hid, hparent, -⟩ := mem_declaredUnder.1 (mem_declared.1 hmem).1
        have hlt := hs.parent_lt id s.nextNode (hnext ▸ hparent)
        simp only [nextNode] at hlt
        omega
      simp [hnext, hne, hnext ▸ hnone]
    · have hnew : (n.kind, s.nextNode) ∉ s.declared p := by
        intro hmem
        exact ne_nextNode_of_lt (mem_declaredUnder.1 (mem_declared.1 hmem).1).1 rfl
      by_cases hnp : n.parent = p
      · by_cases hk : n.kind.collected = true
        · simp [hnext, hnp, hk, hnp ▸ hc hk, Children.insert, Children.takes, hs.entries_eq, hnew]
        · simp [hnext, hnp, hk, Children.insert, Children.takes, hs.entries_eq]
      · simp [hnext, hnp, hs.entries_eq]
  unit_module := by
    intro m hm u hu
    have hmodule : (s.pushNode n).module m = s.module m := by simp [module]
    have hold := hs.unit_module m (by simpa using hm) u (hmodule ▸ hu)
    refine ⟨by simpa using hold.1, ?_⟩
    rw [submodule_pushNode]
    split <;> exact hold.2

/-! ### One more module or submodule -/

theorem submodule_of_size_le {u : SubmoduleId} (h : s.submodules.size ≤ u.index) :
    s.submodule u = { name := "", module := ⟨0⟩, isMain := true } := by
  simp [submodule, h]

theorem HasParent.mono_submodules (hnodes : s'.nodes = s.nodes)
    (hsub : s.submodules.size ≤ s'.submodules.size) (hp : s.HasParent p) : s'.HasParent p := by
  cases p with
  | submodule u => exact Nat.lt_of_lt_of_le hp hsub
  | node id =>
    rw [HasParent, hnodes]
    exact hp

/-- A schema with more submodules, all of them empty, has the same collections. -/
theorem Tidy.of_nodes_eq (hs : s.Tidy) (hnodes : s'.nodes = s.nodes)
    (hsize : s.submodules.size ≤ s'.submodules.size)
    (hbody : ∀ u, (s'.submodule u).body = (s.submodule u).body)
    (hunits : ∀ m, m.index < s'.modules.size → ∀ u ∈ (s'.module m).units,
      u.index < s'.submodules.size ∧ (s'.submodule u).module = m) : s'.Tidy := by
  have hnode : s'.node = s.node := by
    funext id
    rw [node, hnodes, node]
  refine ⟨?_, ?_, ?_, hunits⟩
  · intro id hid
    rw [hnode]
    exact (hs.parent_exists id (hnodes ▸ hid)).mono_submodules hnodes hsize
  · intro id q
    rw [hnode]
    exact hs.parent_lt id q
  · intro p
    have hdeclared : s'.declared p = s.declared p := by
      obtain ⟨nodes, _, _⟩ := s'
      obtain rfl : nodes = s.nodes := hnodes
      rfl
    rw [hdeclared, ← hs.entries_eq]
    cases p with
    | submodule u => simp only [childrenOf, hbody]
    | node id => simp only [childrenOf, hnode]

theorem Tidy.pushModule (hs : s.Tidy) (d : Module) : (s.pushModule d).Tidy := by
  refine hs.of_nodes_eq rfl (by simp) ?_ ?_
  · intro u
    rw [submodule_pushModule]
    split
    · next hu => rw [submodule_of_size_le (by simp [hu, nextSubmodule])]
    · rfl
  · intro m hm u hu
    rw [module_pushModule] at hu
    rw [submodule_pushModule, size_submodules_pushModule]
    split at hu
    · next hnext =>
      obtain rfl : u = s.nextSubmodule := by simpa [Module.units] using hu
      simp [nextSubmodule, hnext]
    · next hnext =>
      have hlt : m.index < s.modules.size := by
        have hne : m.index ≠ s.modules.size := fun h ↦ hnext (by rw [nextModule, ← h])
        have hm : m.index < s.modules.size + 1 := by simpa using hm
        omega
      obtain ⟨hexists, hmodule⟩ := hs.unit_module m hlt u hu
      refine ⟨by omega, ?_⟩
      rw [if_neg (by rintro rfl; exact Nat.lt_irrefl _ hexists), hmodule]

theorem Tidy.pushSubmodule (hs : s.Tidy) (m : ModuleId) (name : String) :
    (s.pushSubmodule m name).Tidy := by
  refine hs.of_nodes_eq rfl (by simp) ?_ ?_
  · intro u
    rw [submodule_pushSubmodule]
    split
    · next hu => rw [submodule_of_size_le (by simp [hu, nextSubmodule])]
    · rfl
  · intro i hi u hu
    have hold : u ∈ (s.module i).units → u.index < s.submodules.size + 1 ∧
        (if u = s.nextSubmodule then { name, module := m, isMain := false }
          else s.submodule u).module = i := by
      intro hu
      obtain ⟨hexists, hmodule⟩ := hs.unit_module i (by simpa using hi) u hu
      refine ⟨by omega, ?_⟩
      rw [if_neg (by rintro rfl; exact Nat.lt_irrefl _ hexists), hmodule]
    rw [module_pushSubmodule] at hu
    rw [submodule_pushSubmodule, size_submodules_pushSubmodule]
    split at hu
    · next him =>
      -- the module gets the new submodule at the end of its list
      simp only [Module.units, List.mem_cons, List.mem_append, List.not_mem_nil, or_false] at hu
      rcases hu with hu | hu | rfl
      · exact hold (by simp [Module.units, hu])
      · exact hold (by simp [Module.units, hu])
      · simp [nextSubmodule, him.1]
    · exact hold hu

theorem tidy_empty : ({} : Schema).Tidy where
  parent_exists := by intro id h; simp at h
  parent_lt := by intro id q h; simp [node, blankNode] at h
  entries_eq := by
    intro p
    cases p <;> rfl
  unit_module := by intro m h; simp at h

/-! ### Lowered schemas are tidy -/

theorem hasParent_of_kind_eq_type (h : s.kind id = .type) : s.HasParent (.node id) :=
  index_lt_of_kind_ne_uses (by simp [h])

/-- **Run.** Lowering keeps a schema tidy. -/
theorem Grows.tidy (h : s.Grows s') (hs : s.Tidy) : s'.Tidy := by
  induction h with
  | refl => exact hs
  | module d _ ih => exact ih.pushModule d
  | submodule name _ _ ih => exact ih.pushSubmodule _ name
  | plain _ hp hn ih => exact ih.pushNode hp.hasParent hn.children_eq fun _ ↦ hp
  | @typed s' n k name spec _ hp hn ih =>
    have hn' : n.children = {} := by rw [Node.children, Node.children?, hn]; rfl
    refine (ih.pushNode hp.hasParent hn' fun _ ↦ hp).pushNode ?_ rfl ?_
    · simp [typeNode, HasParent, nextNode]
    · simp [typeNode, Node.kind, Content.kind, Kind.collected]
  | member _ ho ih =>
    refine ih.pushNode (hasParent_of_kind_eq_type ho) rfl ?_
    simp [typeNode, Node.kind, Content.kind, Kind.collected]

theorem tidy_of_ofDocuments {docs : List Document} (h : ofDocuments docs = .ok s) : s.Tidy :=
  (grows_of_ofDocuments h).tidy tidy_empty

namespace Tidy

variable (hs : s.Tidy)
include hs

theorem slot_childrenOf (hk : k.collected = true) :
    (s.childrenOf p).slot k = s.declaredUnder p k := by
  rw [Children.slot, hs.entries_eq, filter_declared hk]

/-- **The collections of a node hold what is declared under it.** -/
theorem slot_eq (hk : k.collected = true) :
    (s.node id).children.slot k = s.declaredUnder (.node id) k :=
  hs.slot_childrenOf (p := .node id) hk

/-- The collections of a submodule hold what is declared at its top level. -/
theorem slot_body_eq {u : SubmoduleId} (hk : k.collected = true) :
    (s.submodule u).body.slot k = s.declaredUnder (.submodule u) k :=
  hs.slot_childrenOf (p := .submodule u) hk

theorem grounded : s.Grounded where
  parent_exists := hs.parent_exists
  main_exists := fun m hm ↦ (hs.unit_module m hm _ (by simp [Module.units])).1

end Tidy

/-! ### Types -/

theorem index_lt_of_describedType? (h : (s.node id).content.describedType?.isSome = true) :
    id.index < s.nodes.size := by
  refine index_lt_of_kind_ne_uses fun hk ↦ ?_
  have hk : (s.node id).content.kind = .uses := hk
  cases hc : (s.node id).content <;> simp_all [Content.describedType?, Content.kind]

/-- **Step.** A node without a type of its own leaves the types of the others alone. -/
theorem TypesFit.pushNode (hs : s.TypesFit) (hn : n.content.typeHandle? = none) :
    (s.pushNode n).TypesFit := by
  intro id t ht
  rw [typeHandle?_pushNode] at ht
  split at ht
  · simp [hn] at ht
  · obtain ⟨htype, hparent⟩ := hs id t ht
    have hne := ne_nextNode_of_lt (index_lt_of_describedType? htype)
    rw [describedType?_pushNode, parent_pushNode, if_neg hne, if_neg hne]
    exact ⟨htype, hparent⟩

/-- **Step.** A typed node is followed by its type. -/
theorem TypesFit.pushTyped (hs : s.TypesFit) {k : TypedKind} {name : String} {spec : TypeBody}
    (hn : n.content = .typed k ⟨s.nodes.size + 1⟩) :
    ((s.pushNode n).pushNode (typeNode s.nextNode name spec)).TypesFit := by
  have hnext : (s.pushNode n).nextNode = ⟨s.nodes.size + 1⟩ := by simp [nextNode]
  intro id t ht
  rw [typeHandle?_pushNode] at ht
  split at ht
  · simp [typeNode, Content.typeHandle?] at ht
  · rw [typeHandle?_pushNode] at ht
    split at ht
    · next hid =>
      obtain rfl : t = (s.pushNode n).nextNode := by
        rw [hn, Content.typeHandle?, Option.some.injEq] at ht
        rw [hnext, ht]
      rw [describedType?_pushNode, parent_pushNode, if_pos rfl, if_pos rfl, hid]
      exact ⟨rfl, rfl⟩
    · obtain ⟨htype, hparent⟩ := hs id t ht
      have hlt := index_lt_of_describedType? htype
      have hne := ne_nextNode_of_lt hlt
      have hne' : t ≠ (s.pushNode n).nextNode :=
        ne_nextNode_of_lt (by rw [size_nodes_pushNode]; omega)
      rw [describedType?_pushNode, parent_pushNode, describedType?_pushNode, parent_pushNode,
        if_neg hne', if_neg hne', if_neg hne, if_neg hne]
      exact ⟨htype, hparent⟩

theorem typesFit_empty : ({} : Schema).TypesFit := by
  intro id t ht
  simp [node, blankNode, Content.typeHandle?] at ht

/-- **Run.** Lowering gives every typed node its type. -/
theorem Grows.typesFit (h : s.Grows s') (hs : s.TypesFit) : s'.TypesFit := by
  induction h with
  | refl => exact hs
  | module d _ ih => exact ih
  | submodule name _ _ ih => exact ih
  | plain _ _ hn ih => exact ih.pushNode hn.typeHandle?_eq
  | typed _ _ hn ih => exact ih.pushTyped hn
  | member _ _ ih => exact ih.pushNode rfl

theorem typesFit_of_ofDocuments {docs : List Document} (h : ofDocuments docs = .ok s) :
    s.TypesFit :=
  (grows_of_ofDocuments h).typesFit typesFit_empty

end Schema

end SchemaLink
