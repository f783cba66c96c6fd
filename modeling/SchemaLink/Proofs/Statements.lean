import SchemaLink.Proofs.Places

/-!
# Where statements go

Lowering gives each statement the next handle, then its type or its body the handles after that. So
the handles of the statements of a body follow from their sizes (`Statement.handles`), and **outside
a statement its node is all that is stated by it** (`Schema.statedUnder_addStatement`): the nodes of
its body belong to nodes that were not there before.

Two relations say what a schema has in common with a later one. `Schema.Retains` holds across all
steps of lowering: nodes, modules and submodules stay what they were, apart from what is collected
in them or attached to them. `Schema.Keeps` adds that the lists of certain parents are complete.
While a body is being lowered those are the nodes inside it, since more may be stated under the
parents that are still open.
-/

namespace SchemaLink

/-! ### Where statements go -/

mutual

/-- The number of nodes that a statement takes: one, and those of its type or of its body. -/
def Statement.size : Statement → Nat
  | .block _ _ _ body => 1 + Statement.listSize body
  | .typed _ _ _ type => 1 + type.size
  | .uses _ => 1
  | .augment _ _ body => 1 + Statement.listSize body
  | .identity _ _ _ => 1

/-- The number of nodes that several statements take. -/
def Statement.listSize : List Statement → Nat
  | [] => 0
  | st :: sts => st.size + Statement.listSize sts

end

theorem Statement.size_pos (st : Statement) : 0 < st.size := by
  cases st <;> simp only [Statement.size] <;> omega

/-- The handles of several statements of which the first stands at position `start`. -/
def Statement.handles (start : Nat) : List Statement → List NodeId
  | [] => []
  | st :: sts => ⟨start⟩ :: Statement.handles (start + st.size) sts

/-! ### Entries without what is added later -/

/-- The node without its children. -/
def Node.bare (n : Node) : Node :=
  { n with content := n.content.mapChildren fun _ ↦ {} }

theorem Node.bare_mapChildren (n : Node) (f : Children → Children) :
    ({ n with content := n.content.mapChildren f } : Node).bare = n.bare := by
  obtain ⟨name, description, parent, content⟩ := n
  cases content <;> rfl

/-- The module without what is attached to it later. -/
def Module.bare (m : Module) : Module :=
  { m with attached := [], roots := [] }

/-- The submodule without its collections. -/
def Submodule.bare (u : Submodule) : Submodule :=
  { u with body := {}, table := [] }

theorem Kind.collected_iff (k : Kind) : k.collected = true ↔ k ≠ .type := by
  cases k <;> simp [collected]

namespace Schema

variable {s s' s'' : Schema} {p q : Parent} {n : Node} {P Q : Parent → Prop}

/-- The nodes that are stated under a parent, in order: all that belong to it except types. -/
def statedUnder (s : Schema) (p : Parent) : List NodeId :=
  s.nodeIds.filter fun id ↦ (s.node id).parent = p ∧ s.kind id ≠ .type

/-! ### Sizes -/

mutual

theorem size_addStatement (s : Schema) (p : Parent) (st : Statement) :
    (s.addStatement p st).nodes.size = s.nodes.size + st.size := by
  match st with
  | .block kind name description body =>
    rw [addStatement, size_addStatements, size_nodes_pushNode, Statement.size, Nat.add_assoc]
  | .typed kind name description type =>
    rw [addStatement, size_addType, size_nodes_pushNode, Statement.size, Nat.add_assoc]
  | .uses grouping => rw [addStatement, size_nodes_pushNode, Statement.size]
  | .augment target description body =>
    rw [addStatement, size_addStatements, size_nodes_pushNode, Statement.size, Nat.add_assoc]
  | .identity name description bases => rw [addStatement, size_nodes_pushNode, Statement.size]

theorem size_addStatements (s : Schema) (p : Parent) (sts : List Statement) :
    (s.addStatements p sts).nodes.size = s.nodes.size + Statement.listSize sts := by
  match sts with
  | [] => rw [addStatements, Statement.listSize, Nat.add_zero]
  | st :: sts =>
    rw [addStatements, size_addStatements, size_addStatement, Statement.listSize, Nat.add_assoc]

end

mutual

theorem size_submodules_addType (s : Schema) (owner : NodeId) (t : TypeDescription) :
    (s.addType owner t).submodules.size = s.submodules.size := by
  match t with
  | ⟨name, range, length, pattern, path, base, members, enums⟩ =>
    rw [addType, size_submodules_addTypes, size_submodules_pushNode]

theorem size_submodules_addTypes (s : Schema) (owner : NodeId) (ts : List TypeDescription) :
    (s.addTypes owner ts).submodules.size = s.submodules.size := by
  match ts with
  | [] => rw [addTypes]
  | t :: ts => rw [addTypes, size_submodules_addTypes, size_submodules_addType]

end

mutual

theorem size_submodules_addStatement (s : Schema) (p : Parent) (st : Statement) :
    (s.addStatement p st).submodules.size = s.submodules.size := by
  match st with
  | .block kind name description body =>
    rw [addStatement, size_submodules_addStatements, size_submodules_pushNode]
  | .typed kind name description type =>
    rw [addStatement, size_submodules_addType, size_submodules_pushNode]
  | .uses grouping => rw [addStatement, size_submodules_pushNode]
  | .augment target description body =>
    rw [addStatement, size_submodules_addStatements, size_submodules_pushNode]
  | .identity name description bases => rw [addStatement, size_submodules_pushNode]

theorem size_submodules_addStatements (s : Schema) (p : Parent) (sts : List Statement) :
    (s.addStatements p sts).submodules.size = s.submodules.size := by
  match sts with
  | [] => rw [addStatements]
  | st :: sts => rw [addStatements, size_submodules_addStatements, size_submodules_addStatement]

end

/-! ### What is stated -/

theorem statedUnder_eq (s : Schema) (p : Parent) :
    s.statedUnder p = (s.declared p).map Prod.snd := by
  simp only [statedUnder, declared, List.map_map, Kind.collected_iff]
  exact (List.map_id' _).symm

theorem statedUnder_pushNode (s : Schema) (n : Node) (p : Parent) :
    (s.pushNode n).statedUnder p =
      s.statedUnder p ++ if n.parent = p ∧ n.kind ≠ .type then [s.nextNode] else [] := by
  rw [statedUnder_eq, declared_pushNode, List.map_append, ← statedUnder_eq]
  simp only [Kind.collected_iff]
  split <;> rfl

/-- Nothing is stated under a parent that is not there yet. -/
theorem Tidy.statedUnder_eq_nil (hs : s.Tidy) (hp : ¬ s.HasParent p) : s.statedUnder p = [] := by
  refine List.filter_eq_nil_iff.2 fun id hid hstated ↦ hp ?_
  obtain ⟨rfl, -⟩ : (s.node id).parent = p ∧ _ := by simpa using hstated
  exact hs.parent_exists id (mem_nodeIds.1 hid)

mutual

/-- Types are not stated anywhere. -/
theorem statedUnder_addType (s : Schema) (owner : NodeId) (t : TypeDescription) (q : Parent) :
    (s.addType owner t).statedUnder q = s.statedUnder q := by
  match t with
  | ⟨name, range, length, pattern, path, base, members, enums⟩ =>
    rw [addType, statedUnder_addTypes, statedUnder_pushNode]
    simp [Node.kind, Content.kind]

theorem statedUnder_addTypes (s : Schema) (owner : NodeId) (ts : List TypeDescription)
    (q : Parent) : (s.addTypes owner ts).statedUnder q = s.statedUnder q := by
  match ts with
  | [] => rw [addTypes]
  | t :: ts => rw [addTypes, statedUnder_addTypes, statedUnder_addType]

end

theorem statedUnder_of_nodes_eq (h : s'.nodes = s.nodes) (p : Parent) :
    s'.statedUnder p = s.statedUnder p := by
  obtain ⟨nodes, _, _⟩ := s'
  obtain rfl : nodes = s.nodes := h
  rfl

/-! ### What later schemas retain -/

theorem bare_pushNode (s : Schema) (n : Node) (id : NodeId) :
    ((s.pushNode n).node id).bare = if id = s.nextNode then n.bare else (s.node id).bare := by
  rw [node_pushNode]
  split <;> split <;> simp only [Node.bare_mapChildren]

/-- A later schema in which nodes, modules and submodules are what they were, apart from what is
collected in them or attached to them. -/
structure Retains (s s' : Schema) : Prop where
  nodes_le : s.nodes.size ≤ s'.nodes.size
  modules_le : s.modules.size ≤ s'.modules.size
  submodules_le : s.submodules.size ≤ s'.submodules.size
  node_eq : ∀ id, id.index < s.nodes.size → (s'.node id).bare = (s.node id).bare
  module_eq : ∀ m, m.index < s.modules.size → (s'.module m).bare = (s.module m).bare
  submodule_eq : ∀ u, u.index < s.submodules.size → (s'.submodule u).bare = (s.submodule u).bare

namespace Retains

theorem refl (s : Schema) : s.Retains s :=
  ⟨Nat.le_refl _, Nat.le_refl _, Nat.le_refl _, fun _ _ ↦ rfl, fun _ _ ↦ rfl, fun _ _ ↦ rfl⟩

theorem trans (h : s.Retains s') (h' : s'.Retains s'') : s.Retains s'' where
  nodes_le := Nat.le_trans h.nodes_le h'.nodes_le
  modules_le := Nat.le_trans h.modules_le h'.modules_le
  submodules_le := Nat.le_trans h.submodules_le h'.submodules_le
  node_eq := fun id hid ↦
    (h'.node_eq id (Nat.lt_of_lt_of_le hid h.nodes_le)).trans (h.node_eq id hid)
  module_eq := fun m hm ↦
    (h'.module_eq m (Nat.lt_of_lt_of_le hm h.modules_le)).trans (h.module_eq m hm)
  submodule_eq := fun u hu ↦
    (h'.submodule_eq u (Nat.lt_of_lt_of_le hu h.submodules_le)).trans (h.submodule_eq u hu)

theorem pushNode (s : Schema) (n : Node) : s.Retains (s.pushNode n) where
  nodes_le := by simp
  modules_le := by simp
  submodules_le := by simp
  node_eq := fun id hid ↦ by rw [bare_pushNode, if_neg (ne_nextNode_of_lt hid)]
  module_eq := fun m _ ↦ by simp [module]
  submodule_eq := fun u _ ↦ by
    rw [submodule_pushNode]
    split <;> rfl

theorem pushModule (s : Schema) (d : Module) : s.Retains (s.pushModule d) where
  nodes_le := by simp
  modules_le := by simp
  submodules_le := by simp
  node_eq := fun _ _ ↦ rfl
  module_eq := fun m hm ↦ by
    rw [module_pushModule, if_neg (by rintro rfl; exact Nat.lt_irrefl _ hm)]
  submodule_eq := fun u hu ↦ by
    rw [submodule_pushModule, if_neg (by rintro rfl; exact Nat.lt_irrefl _ hu)]

theorem pushSubmodule (s : Schema) (m : ModuleId) (name : String) :
    s.Retains (s.pushSubmodule m name) where
  nodes_le := by simp
  modules_le := by simp
  submodules_le := by simp
  node_eq := fun _ _ ↦ rfl
  module_eq := fun i _ ↦ by
    rw [module_pushSubmodule]
    split <;> rfl
  submodule_eq := fun u hu ↦ by
    rw [submodule_pushSubmodule, if_neg (by rintro rfl; exact Nat.lt_irrefl _ hu)]

theorem hasParent (h : s.Retains s') (hp : s.HasParent p) : s'.HasParent p := by
  match p with
  | .submodule u => exact Nat.lt_of_lt_of_le hp h.submodules_le
  | .node id => exact Nat.lt_of_lt_of_le hp h.nodes_le

theorem collects (h : s.Retains s') (hp : s.Collects p) : s'.Collects p := by
  match p with
  | .submodule u => exact Nat.lt_of_lt_of_le hp h.submodules_le
  | .node id =>
    have heq := congrArg (·.content.children?.isSome) (h.node_eq id hp.hasParent)
    simp only [Node.bare, Content.children?_mapChildren, Option.isSome_map] at heq
    exact heq.trans hp

theorem carries (h : s.Retains s') : s.Carries s' where
  size_le := h.nodes_le
  parent_eq := fun id hid ↦ by
    simpa [Node.bare] using congrArg (·.parent) (h.node_eq id hid)
  describedType?_eq := fun id hid ↦ by
    simpa [Node.bare] using congrArg (·.content.describedType?) (h.node_eq id hid)

/-- The node that was appended first. -/
theorem bare_nextNode (h : (s.pushNode n).Retains s') : (s'.node s.nextNode).bare = n.bare := by
  rw [h.node_eq _ (by simp [nextNode]), bare_pushNode, if_pos rfl]

end Retains

mutual

theorem retains_addType (s : Schema) (owner : NodeId) (t : TypeDescription) :
    s.Retains (s.addType owner t) := by
  match t with
  | ⟨name, range, length, pattern, path, base, members, enums⟩ =>
    rw [addType]
    exact (Retains.pushNode s _).trans (retains_addTypes _ _ members)

theorem retains_addTypes (s : Schema) (owner : NodeId) (ts : List TypeDescription) :
    s.Retains (s.addTypes owner ts) := by
  match ts with
  | [] =>
    rw [addTypes]
    exact .refl s
  | t :: ts =>
    rw [addTypes]
    exact (retains_addType s owner t).trans (retains_addTypes _ owner ts)

end

theorem spans_retains : Spans Retains where
  refl := .refl
  trans := .trans
  collects := fun h ↦ h.collects
  module := .pushModule
  submodule := fun s m name _ ↦ .pushSubmodule s m name
  plain := fun s n _ _ ↦ .pushNode s n
  typed := fun s _ _ t _ _ ↦ (Retains.pushNode s _).trans (retains_addType _ _ t)

/-! ### What is stated by a statement -/

theorem statedUnder_pushNode_of_ne_type (hn : n.kind ≠ .type) (q : Parent) :
    (s.pushNode n).statedUnder q =
      s.statedUnder q ++ if n.parent = q then [s.nextNode] else [] := by
  simp only [statedUnder_pushNode, hn, ne_eq, not_false_eq_true, and_true]

theorem HasParent.ne_nextNode (h : s.HasParent p) : p ≠ .node s.nextNode := by
  rintro rfl
  exact Nat.lt_irrefl _ h

mutual

/-- Outside a statement, its node is all that is stated by it. -/
theorem statedUnder_addStatement (s : Schema) (p : Parent) (st : Statement) (hp : s.Collects p)
    (hq : s.HasParent q) :
    (s.addStatement p st).statedUnder q =
      s.statedUnder q ++ if p = q then [s.nextNode] else [] := by
  match st with
  | .block kind name description body =>
    rw [addStatement, statedUnder_addStatements _ _ body (collects_nextNode rfl hp.ne_nextNode)
      ((Retains.pushNode s _).hasParent hq), if_neg hq.ne_nextNode.symm, List.append_nil,
      statedUnder_pushNode_of_ne_type]
    exact Content.Plain.kind_ne_type rfl
  | .typed kind name description type =>
    rw [addStatement, statedUnder_addType, statedUnder_pushNode_of_ne_type]
    exact Content.kind_ne_type_of_typed rfl
  | .uses grouping =>
    rw [addStatement, statedUnder_pushNode_of_ne_type]
    exact Content.Plain.kind_ne_type trivial
  | .augment target description body =>
    rw [addStatement, statedUnder_addStatements _ _ body (collects_nextNode rfl hp.ne_nextNode)
      ((Retains.pushNode s _).hasParent hq), if_neg hq.ne_nextNode.symm, List.append_nil,
      statedUnder_pushNode_of_ne_type]
    exact Content.Plain.kind_ne_type rfl
  | .identity name description bases =>
    rw [addStatement, statedUnder_pushNode_of_ne_type]
    exact Content.Plain.kind_ne_type trivial

theorem statedUnder_addStatements (s : Schema) (p : Parent) (sts : List Statement)
    (hp : s.Collects p) (hq : s.HasParent q) :
    (s.addStatements p sts).statedUnder q =
      s.statedUnder q ++ if p = q then Statement.handles s.nodes.size sts else [] := by
  match sts with
  | [] => simp [addStatements, Statement.handles]
  | st :: sts =>
    have hfirst := spans_retains.addStatement s p st hp
    rw [addStatements, statedUnder_addStatements _ p sts (hfirst.collects hp) (hfirst.hasParent hq),
      statedUnder_addStatement s p st hp hq, size_addStatement, List.append_assoc]
    by_cases hpq : p = q <;> simp [hpq, Statement.handles, nextNode]

end

/-! ### Complete bodies -/

/-- A later schema in which nothing more is stated under the given parents. -/
structure Keeps (s : Schema) (P : Parent → Prop) (s' : Schema) : Prop extends Retains s s' where
  stated_eq : ∀ p, s.HasParent p → P p → s'.statedUnder p = s.statedUnder p

/-- The nodes from a position on, as parents. -/
def NodesFrom (a : Nat) : Parent → Prop
  | .submodule _ => False
  | .node id => a ≤ id.index

theorem NodesFrom.mono {a b : Nat} (hab : a ≤ b) (h : NodesFrom b p) : NodesFrom a p := by
  match p with
  | .node id => exact Nat.le_trans hab h

theorem not_nodesFrom_of_hasParent (hp : s.HasParent p) : ¬ NodesFrom s.nodes.size p := by
  match p with
  | .submodule u => exact id
  | .node id => exact Nat.not_le_of_lt hp

theorem Keeps.refl (s : Schema) : s.Keeps P s :=
  ⟨.refl s, fun _ _ _ ↦ rfl⟩

theorem Keeps.trans (h : s.Keeps P s') (h' : s'.Keeps P s'') : s.Keeps P s'' where
  toRetains := h.toRetains.trans h'.toRetains
  stated_eq := fun p hp hP ↦ (h'.stated_eq p (h.hasParent hp) hP).trans (h.stated_eq p hp hP)

theorem Keeps.mono (h : s.Keeps P s') (hPQ : ∀ p, Q p → P p) : s.Keeps Q s' where
  toRetains := h.toRetains
  stated_eq := fun p hp hQ ↦ h.stated_eq p hp (hPQ p hQ)

/-- Statements are stated under their parent only. -/
theorem keeps_addStatements (sts : List Statement) (hp : s.Collects p) (hP : ¬ P p) :
    s.Keeps P (s.addStatements p sts) where
  toRetains := spans_retains.addStatements s p sts hp
  stated_eq := fun q hq hQ ↦ by
    rw [statedUnder_addStatements s p sts hp hq, if_neg (by rintro rfl; exact hP hQ),
      List.append_nil]

/-- The body of a new parent states nothing elsewhere. -/
theorem Retains.keeps_addStatements (h : s.Retains s') (hnodes : s'.nodes = s.nodes)
    (hnew : ¬ s.HasParent p) (hp : s'.Collects p) (body : List Statement) :
    s.Keeps (fun _ ↦ True) (s'.addStatements p body) where
  toRetains := h.trans (spans_retains.addStatements s' p body hp)
  stated_eq := fun q hq _ ↦ by
    rw [statedUnder_addStatements s' p body hp (h.hasParent hq),
      if_neg (by rintro rfl; exact hnew hq), List.append_nil, statedUnder_of_nodes_eq hnodes]

end Schema

end SchemaLink
