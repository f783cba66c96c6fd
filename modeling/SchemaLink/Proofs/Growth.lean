import SchemaLink.Proofs.Handles

/-!
# Looking things up in a schema that has changed

One lemma for each kind of change and each kind of look-up. Changes in place leave everything but
the entry alone; appending leaves all entries alone. In these terms no later proof has to look into
arrays.
-/

namespace SchemaLink

/-- An entry of an array in which one entry has been changed. -/
theorem getD_modify {α : Type} (as : Array α) (i j : Nat) (f : α → α) (blank : α) :
    (as.modify i f)[j]?.getD blank =
      if j = i ∧ i < as.size then f (as[j]?.getD blank) else as[j]?.getD blank := by
  by_cases hij : j = i
  · subst hij
    by_cases hj : j < as.size <;> simp [hj, Array.getElem_modify]
  · simp [Array.getElem?_modify, hij, Ne.symm hij]

theorem map_modify_of_comp_eq {α β : Type} {g : α → β} {f : α → α} (h : ∀ a, g (f a) = g a)
    (as : Array α) (i : Nat) : (as.modify i f).map g = as.map g := by
  refine Array.ext (by simp) fun j hj _ ↦ ?_
  have hj : j < as.size := by simpa using hj
  by_cases hij : i = j <;> simp [Array.getElem_modify, hij, h]

namespace Content

@[simp] theorem typeHandle?_mapChildren (f : Children → Children) (c : Content) :
    (c.mapChildren f).typeHandle? = c.typeHandle? := by
  cases c <;> rfl

theorem exists_typed_of_typeHandle? {c : Content} {t : NodeId} (h : c.typeHandle? = some t) :
    ∃ k, c = .typed k t := by
  cases c <;> simp_all [typeHandle?]

@[simp] theorem describedType?_mapChildren (f : Children → Children) (c : Content) :
    (c.mapChildren f).describedType? = c.describedType? := by
  cases c <;> rfl

end Content

theorem Node.children_mapChildren (f : Children → Children) (n : Node) :
    ({ n with content := n.content.mapChildren f } : Node).children =
      if n.content.children?.isSome = true then f n.children else n.children := by
  rcases h : n.content.children? <;> simp [children, children?, h]

namespace Schema

variable {s : Schema} {id j : NodeId} {u v : SubmoduleId} {m i : ModuleId}

/-! ### Changes in place -/

section

variable (s id) (f : Children → Children)

theorem node_modifyChildren (j : NodeId) :
    (s.modifyChildren id f).node j =
      if j = id then { s.node j with content := (s.node j).content.mapChildren f }
      else s.node j := by
  obtain ⟨j⟩ := j
  obtain ⟨i⟩ := id
  rcases Nat.lt_or_ge j s.nodes.size with hj | hj
  · simp only [node, modifyChildren, getD_modify, NodeId.mk.injEq]
    by_cases hij : j = i
    · subst hij
      simp [hj]
    · simp [hij]
  · -- a handle that denotes nothing reads as the blank node, which owns no children
    rw [node_of_size_le (by simpa [modifyChildren] using hj), node_of_size_le hj]
    split <;> rfl

@[simp] theorem size_modifyChildren : (s.modifyChildren id f).nodes.size = s.nodes.size := by
  simp [modifyChildren]

@[simp] theorem modules_modifyChildren : (s.modifyChildren id f).modules = s.modules :=
  rfl

@[simp] theorem submodules_modifyChildren : (s.modifyChildren id f).submodules = s.submodules :=
  rfl

@[simp] theorem parent_modifyChildren (j : NodeId) :
    ((s.modifyChildren id f).node j).parent = (s.node j).parent := by
  rw [node_modifyChildren]
  split <;> rfl

@[simp] theorem kind_modifyChildren (j : NodeId) :
    (s.modifyChildren id f).kind j = s.kind j := by
  rw [kind, kind, node_modifyChildren]
  split <;> simp [Node.kind]

@[simp] theorem label_modifyChildren (j : NodeId) :
    (s.modifyChildren id f).label j = s.label j := by
  rw [label, label, node_modifyChildren]
  split <;> simp [Node.label, Node.kind]

end

section

variable (s u) (f : Submodule → Submodule)

theorem submodule_modifySubmodule (v : SubmoduleId) :
    (s.modifySubmodule u f).submodule v =
      if v = u ∧ u.index < s.submodules.size then f (s.submodule v) else s.submodule v := by
  obtain ⟨v⟩ := v
  obtain ⟨u⟩ := u
  simp only [submodule, modifySubmodule, getD_modify, SubmoduleId.mk.injEq]

@[simp] theorem nodes_modifySubmodule : (s.modifySubmodule u f).nodes = s.nodes :=
  rfl

@[simp] theorem node_modifySubmodule : (s.modifySubmodule u f).node = s.node :=
  rfl

@[simp] theorem modules_modifySubmodule : (s.modifySubmodule u f).modules = s.modules :=
  rfl

@[simp] theorem size_modifySubmodule :
    (s.modifySubmodule u f).submodules.size = s.submodules.size := by
  simp [modifySubmodule]

end

section

variable (s m) (f : Module → Module)

theorem module_modifyModule (i : ModuleId) :
    (s.modifyModule m f).module i =
      if i = m ∧ m.index < s.modules.size then f (s.module i) else s.module i := by
  obtain ⟨i⟩ := i
  obtain ⟨m⟩ := m
  simp only [module, modifyModule, getD_modify, ModuleId.mk.injEq]

@[simp] theorem nodes_modifyModule : (s.modifyModule m f).nodes = s.nodes :=
  rfl

@[simp] theorem node_modifyModule : (s.modifyModule m f).node = s.node :=
  rfl

@[simp] theorem submodules_modifyModule : (s.modifyModule m f).submodules = s.submodules :=
  rfl

@[simp] theorem size_modifyModule : (s.modifyModule m f).modules.size = s.modules.size := by
  simp [modifyModule]

end

/-! ### Appended nodes -/

section

variable (s) (n : Node)

@[simp] theorem size_nodes_pushNode : (s.pushNode n).nodes.size = s.nodes.size + 1 := by
  rcases hp : n.parent <;> simp [pushNode, link, hp, modifyChildren]

@[simp] theorem modules_pushNode : (s.pushNode n).modules = s.modules := by
  rcases hp : n.parent <;> simp [pushNode, link, hp]

@[simp] theorem size_submodules_pushNode :
    (s.pushNode n).submodules.size = s.submodules.size := by
  rcases hp : n.parent <;> simp [pushNode, link, hp]

/-- The new node stands last, and its parent, if that is a node, gets one more child. -/
theorem node_pushNode (j : NodeId) :
    (s.pushNode n).node j =
      let old := if j = s.nextNode then n else s.node j
      if n.parent = .node j then
        { old with content := old.content.mapChildren (·.insert n.kind s.nextNode) }
      else old := by
  have hnode : ({ s with nodes := s.nodes.push n } : Schema).node j =
      if j = s.nextNode then n else s.node j := by
    obtain ⟨j⟩ := j
    simp only [node, nextNode, Array.getElem?_push, NodeId.mk.injEq]
    split <;> simp
  rcases hp : n.parent with u | p
  · simp [pushNode, link, hp, hnode]
  · simp only [pushNode, link, hp, node_modifyChildren, hnode, Parent.node.injEq]
    by_cases hj : j = p
    · simp [hj]
    · simp [hj, Ne.symm hj]

theorem name_pushNode (j : NodeId) :
    ((s.pushNode n).node j).name = if j = s.nextNode then n.name else (s.node j).name := by
  rw [node_pushNode]
  split <;> split <;> simp_all

theorem parent_pushNode (j : NodeId) :
    ((s.pushNode n).node j).parent = if j = s.nextNode then n.parent else (s.node j).parent := by
  rw [node_pushNode]
  split <;> split <;> simp_all

theorem kind_pushNode (j : NodeId) :
    (s.pushNode n).kind j = if j = s.nextNode then n.kind else s.kind j := by
  simp only [kind, node_pushNode, Node.kind]
  split <;> split <;> simp_all

theorem typeHandle?_pushNode (j : NodeId) :
    ((s.pushNode n).node j).content.typeHandle? =
      if j = s.nextNode then n.content.typeHandle? else (s.node j).content.typeHandle? := by
  rw [node_pushNode]
  split <;> split <;> simp_all

theorem describedType?_pushNode (j : NodeId) :
    ((s.pushNode n).node j).content.describedType? =
      if j = s.nextNode then n.content.describedType? else (s.node j).content.describedType? := by
  rw [node_pushNode]
  split <;> split <;> simp_all

theorem submodule_pushNode (v : SubmoduleId) :
    (s.pushNode n).submodule v =
      if n.parent = .submodule v ∧ v.index < s.submodules.size then
        { s.submodule v with body := (s.submodule v).body.insert n.kind s.nextNode }
      else s.submodule v := by
  rcases hp : n.parent with u | p
  · simp only [pushNode, link, hp, submodule_modifySubmodule, Parent.submodule.injEq]
    by_cases hv : v = u
    · simp [hv, submodule]
    · simp [hv, Ne.symm hv, submodule]
  · simp [pushNode, link, hp, modifyChildren, submodule]

end

/-! ### Appended modules and submodules -/

section

variable (s) (m : ModuleId) (d : Module) (name : String)

@[simp] theorem nodes_pushModule : (s.pushModule d).nodes = s.nodes :=
  rfl

@[simp] theorem node_pushModule : (s.pushModule d).node = s.node :=
  rfl

@[simp] theorem size_modules_pushModule : (s.pushModule d).modules.size = s.modules.size + 1 := by
  simp [pushModule]

@[simp] theorem size_submodules_pushModule :
    (s.pushModule d).submodules.size = s.submodules.size + 1 := by
  simp [pushModule]

theorem module_pushModule (i : ModuleId) :
    (s.pushModule d).module i =
      if i = s.nextModule then { d with main := s.nextSubmodule, attached := [], roots := [] }
      else s.module i := by
  obtain ⟨i⟩ := i
  simp only [module, pushModule, nextModule, Array.getElem?_push, ModuleId.mk.injEq]
  split <;> simp

theorem submodule_pushModule (v : SubmoduleId) :
    (s.pushModule d).submodule v =
      if v = s.nextSubmodule then { name := d.name, module := s.nextModule, isMain := true }
      else s.submodule v := by
  obtain ⟨v⟩ := v
  simp only [submodule, pushModule, nextSubmodule, Array.getElem?_push, SubmoduleId.mk.injEq]
  split <;> simp

@[simp] theorem nodes_pushSubmodule : (s.pushSubmodule m name).nodes = s.nodes :=
  rfl

@[simp] theorem node_pushSubmodule : (s.pushSubmodule m name).node = s.node :=
  rfl

@[simp] theorem size_modules_pushSubmodule :
    (s.pushSubmodule m name).modules.size = s.modules.size := by
  simp [pushSubmodule]

@[simp] theorem size_submodules_pushSubmodule :
    (s.pushSubmodule m name).submodules.size = s.submodules.size + 1 := by
  simp [pushSubmodule]

theorem module_pushSubmodule (i : ModuleId) :
    (s.pushSubmodule m name).module i =
      if i = m ∧ m.index < s.modules.size then
        { s.module i with attached := (s.module i).attached ++ [s.nextSubmodule] }
      else s.module i := by
  rw [pushSubmodule, module_modifyModule]
  rfl

theorem submodule_pushSubmodule (v : SubmoduleId) :
    (s.pushSubmodule m name).submodule v =
      if v = s.nextSubmodule then { name, module := m, isMain := false } else s.submodule v := by
  obtain ⟨v⟩ := v
  simp only [submodule, pushSubmodule, submodules_modifyModule, nextSubmodule,
    Array.getElem?_push, SubmoduleId.mk.injEq]
  split <;> simp

end

end Schema

end SchemaLink
