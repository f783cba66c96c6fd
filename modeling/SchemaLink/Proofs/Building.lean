import SchemaLink.Schema.OfDocuments
import SchemaLink.Proofs.Meaning

/-!
# Lowering does what a batch means

Lowering checks and builds at once, and enters the handles of types when they are there. Its
description keeps the two apart and knows all handles in advance. `Lowering.Does` relates a step of
lowering to both parts of its description: the step stops for the first offence, and without any it
leads to what the description builds. **Steps in turn have their offences in turn**
(`Lowering.Does.bind`), so each part of a document is one line.

What is entered afterwards could as well have been there from the beginning, because appending other
nodes in between commutes with it (`Schema.addTypes_modifyContent`). So `ofDocuments` refuses a
batch with an offence, for the first one, and else gives its meaning (`Schema.ofDocuments_eq`).
-/

namespace SchemaLink

/-! ### Changes of content -/

/-- In an array, an entry that is there is changed before or after another is appended. -/
theorem push_modify {α : Type} {as : Array α} {i : Nat} (h : i < as.size) (f : α → α) (a : α) :
    (as.modify i f).push a = (as.push a).modify i f := by
  refine Array.ext (by simp) fun j hj _ ↦ ?_
  simp only [Array.size_push, Array.size_modify] at hj
  rcases Nat.lt_or_eq_of_le (Nat.le_of_lt_succ hj) with hlt | rfl
  · simp [Array.getElem_push, Array.getElem_modify, hlt]
  · simp [Array.getElem_push, Array.getElem_modify, Nat.ne_of_lt h]

theorem modify_size_push {α : Type} (as : Array α) (f : α → α) (a : α) :
    (as.push a).modify as.size f = as.push (f a) := by
  refine Array.ext (by simp) fun j hj _ ↦ ?_
  simp only [Array.size_modify, Array.size_push] at hj
  rcases Nat.lt_or_eq_of_le (Nat.le_of_lt_succ hj) with hlt | rfl
  · simp [Array.getElem_push, Array.getElem_modify, hlt, Nat.ne_of_gt hlt]
  · simp [Array.getElem_push, Array.getElem_modify]

theorem modify_modify_comm {α : Type} {f g : α → α} (h : ∀ a, f (g a) = g (f a)) (as : Array α)
    (i j : Nat) : (as.modify i f).modify j g = (as.modify j g).modify i f := by
  refine Array.ext (by simp) fun k _ _ ↦ ?_
  simp only [Array.getElem_modify]
  split <;> split <;> simp [h]

theorem modify_modify {α : Type} (f g : α → α) (as : Array α) (i : Nat) :
    (as.modify i f).modify i g = as.modify i fun a ↦ g (f a) := by
  refine Array.ext (by simp) fun k _ _ ↦ ?_
  simp only [Array.getElem_modify]
  split <;> rfl

namespace Content

/-- Appends several members to a union. -/
def withMembers (members : List NodeId) : Content → Content
  | .type spec => .type { spec with members := spec.members ++ members }
  | other => other

theorem withMembers_nil (c : Content) : c.withMembers [] = c := by
  cases c <;> simp [withMembers]

theorem withMembers_withMember (c : Content) (member : NodeId) (members : List NodeId) :
    (c.withMember member).withMembers members = c.withMembers (member :: members) := by
  cases c <;> simp [withMembers, withMember]

/-- A change that leaves the kind and the children of a content alone. -/
structure Inert (f : Content → Content) : Prop where
  kind_eq : ∀ c, (f c).kind = c.kind
  mapChildren_comm : ∀ g c, (f c).mapChildren g = f (c.mapChildren g)

theorem inert_withType (id : NodeId) : Inert (withType id) :=
  ⟨fun c ↦ by cases c <;> rfl, fun _ c ↦ by cases c <;> rfl⟩

theorem inert_withMember (id : NodeId) : Inert (withMember id) :=
  ⟨fun c ↦ by cases c <;> rfl, fun _ c ↦ by cases c <;> rfl⟩

theorem inert_withMembers (ids : List NodeId) : Inert (withMembers ids) :=
  ⟨fun c ↦ by cases c <;> rfl, fun _ c ↦ by cases c <;> rfl⟩

end Content

namespace Schema

variable {s : Schema} {id j : NodeId} {f g : Content → Content}

@[simp] theorem nextNode_modifyContent (s : Schema) (id : NodeId) (f : Content → Content) :
    (s.modifyContent id f).nextNode = s.nextNode := by
  simp [modifyContent, nextNode]

theorem modifyContent_modifyContent (s : Schema) (id : NodeId) (f g : Content → Content) :
    (s.modifyContent id f).modifyContent id g = s.modifyContent id fun c ↦ g (f c) := by
  simp [modifyContent, modify_modify]

theorem modifyContent_of_forall_eq (hf : ∀ c, f c = c) : s.modifyContent id f = s := by
  have hnode : (fun n : Node ↦ { n with content := f n.content }) = fun n ↦ n :=
    funext fun n ↦ by rw [hf]
  have hnodes : s.nodes.modify id.index (fun n ↦ n) = s.nodes :=
    Array.ext (by simp) fun k _ _ ↦ by simp [Array.getElem_modify]
  rw [modifyContent, hnode, hnodes]

theorem label_modifyContent (hf : Content.Inert f) :
    (s.modifyContent id f).label j = s.label j := by
  obtain ⟨j⟩ := j
  simp only [label, node, modifyContent, getD_modify]
  split
  · simp [Node.label, Node.kind, hf.kind_eq]
  · rfl

theorem link_modifyContent (hf : Content.Inert f) (s : Schema) (p : Parent) (k : Kind) :
    (s.modifyContent id f).link p k j = (s.link p k j).modifyContent id f := by
  rcases p with u | p
  · rfl
  · have hcomm : ∀ n : Node,
        ({ n with content := (f n.content).mapChildren (·.insert k j) } : Node) =
          { n with content := f (n.content.mapChildren (·.insert k j)) } :=
      fun n ↦ by rw [hf.mapChildren_comm]
    simp only [modifyContent, link, modifyChildren]
    rw [modify_modify_comm fun n ↦ (hcomm n).symm]

/-- **A content that has been changed stays so when a node is appended**, and may as well be changed
afterwards. -/
theorem pushNode_modifyContent (hid : id.index < s.nodes.size) (hf : Content.Inert f) (n : Node) :
    (s.modifyContent id f).pushNode n = (s.pushNode n).modifyContent id f := by
  rw [pushNode, pushNode, ← link_modifyContent hf, nextNode_modifyContent]
  simp only [modifyContent, push_modify hid]

/-- A node whose content is changed at once may as well be appended with the other content. -/
theorem modifyContent_pushNode (hf : Content.Inert f) (n : Node) :
    (s.pushNode n).modifyContent s.nextNode f =
      s.pushNode { n with content := f n.content } := by
  have hkind : ({ n with content := f n.content } : Node).kind = n.kind := hf.kind_eq _
  rw [pushNode, pushNode, ← link_modifyContent hf, hkind]
  simp only [modifyContent, nextNode, modify_size_push]

mutual

theorem addType_modifyContent (hf : Content.Inert f) (s : Schema) (hid : id.index < s.nodes.size)
    (owner : NodeId) (t : TypeDescription) :
    (s.modifyContent id f).addType owner t = (s.addType owner t).modifyContent id f := by
  match t with
  | ⟨name, range, length, pattern, path, base, members, enums⟩ =>
    rw [addType, addType, nextNode_modifyContent, pushNode_modifyContent hid hf,
      addTypes_modifyContent hf _ (by simp only [size_nodes_pushNode]; omega)]

/-- **What is entered afterwards could as well have been there before.** -/
theorem addTypes_modifyContent (hf : Content.Inert f) (s : Schema) (hid : id.index < s.nodes.size)
    (owner : NodeId) (ts : List TypeDescription) :
    (s.modifyContent id f).addTypes owner ts = (s.addTypes owner ts).modifyContent id f := by
  match ts with
  | [] => rw [addTypes, addTypes]
  | t :: ts =>
    rw [addTypes, addTypes, addType_modifyContent hf s hid,
      addTypes_modifyContent hf _ (by rw [size_addType]; omega)]

end

/-! ### Labels -/

theorem label_pushNode (n : Node) :
    (s.pushNode n).label j = if j = s.nextNode then n.label else s.label j := by
  have hkind := kind_pushNode s n j
  have hname := name_pushNode s n j
  simp only [kind] at hkind
  rw [label, Node.label, hkind, hname]
  split <;> rfl

theorem label_pushNode_of_lt (hj : j.index < s.nodes.size) (n : Node) :
    (s.pushNode n).label j = s.label j := by
  have hne : j ≠ s.nextNode := by
    rintro rfl
    exact Nat.lt_irrefl _ hj
  rw [label_pushNode, if_neg hne]

theorem label_nextNode_pushNode (s : Schema) (n : Node) :
    (s.pushNode n).label s.nextNode = n.label := by
  rw [label_pushNode, if_pos rfl]

theorem index_nextNode_lt_pushNode (s : Schema) (n : Node) :
    s.nextNode.index < (s.pushNode n).nodes.size := by
  rw [size_nodes_pushNode]
  exact Nat.lt_succ_self _

mutual

theorem label_addType (s : Schema) (hj : j.index < s.nodes.size) (owner : NodeId)
    (t : TypeDescription) : (s.addType owner t).label j = s.label j := by
  match t with
  | ⟨name, range, length, pattern, path, base, members, enums⟩ =>
    rw [addType, label_addTypes _ (by simp only [size_nodes_pushNode]; omega),
      label_pushNode_of_lt hj]

theorem label_addTypes (s : Schema) (hj : j.index < s.nodes.size) (owner : NodeId)
    (ts : List TypeDescription) : (s.addTypes owner ts).label j = s.label j := by
  match ts with
  | [] => rw [addTypes]
  | t :: ts =>
    rw [addTypes, label_addTypes _ (by rw [size_addType]; omega), label_addType s hj]

end

end Schema

/-! ### Steps and their descriptions -/

namespace Lowering

variable {α β : Type} {step : Lowering α} {next : α → Lowering β} {s s' s'' : Schema} {a : α}
  {b : β} {before after : List Fault}

/-- A step stops for the first of some offences, and without any gives `a` and leads to `s'`. -/
def Does (step : Lowering α) (s : Schema) (offences : List Fault) (a : α) (s' : Schema) : Prop :=
  match offences with
  | [] => step s = .ok a s'
  | fault :: _ => ∃ left, step s = .error fault left

theorem Does.eq_ok (h : Does step s [] a s') : step s = .ok a s' :=
  h

theorem Does.exists_eq_error {fault : Fault} {others : List Fault}
    (h : Does step s (fault :: others) a s') : ∃ left, step s = .error fault left :=
  h

/-- **Steps in turn.** The offences of the second step count where the first one has none. -/
theorem Does.bind (hstep : Does step s before a s') (hnext : Does (next a) s' after b s'') :
    Does (step >>= next) s (before ++ after) b s'' := by
  have hrun : (step >>= next) s = EStateM.bind step next s := rfl
  cases before with
  | nil =>
    rw [EStateM.bind, hstep.eq_ok] at hrun
    show Does (step >>= next) s after b s''
    cases after with
    | nil => exact hrun.trans hnext.eq_ok
    | cons fault others => exact hnext.exists_eq_error.imp fun left h ↦ hrun.trans h
  | cons fault others =>
    obtain ⟨left, hstop⟩ := hstep.exists_eq_error
    rw [EStateM.bind, hstop] at hrun
    exact ⟨left, hrun⟩

/-- A step without offences of its own comes last. -/
theorem Does.bind_last (hstep : Does step s before a s') (hnext : Does (next a) s' [] b s'') :
    Does (step >>= next) s before b s'' :=
  List.append_nil before ▸ hstep.bind hnext

/-- A step without offences of its own comes first. -/
theorem Does.bind_first (hstep : Does step s [] a s') (hnext : Does (next a) s' after b s'') :
    Does (step >>= next) s after b s'' :=
  hstep.bind hnext

theorem does_pure (a : α) (s : Schema) : Does (pure a) s [] a s :=
  rfl

theorem does_get (s : Schema) : Does get s [] s s :=
  rfl

theorem does_modify (f : Schema → Schema) (s : Schema) : Does (modify f) s [] () (f s) :=
  rfl

theorem does_addNode (n : Node) (s : Schema) : Does (addNode n) s [] s.nextNode (s.pushNode n) :=
  rfl

theorem does_requireName (source complaint name : String) (s : Schema) :
    Does (requireName source complaint name) s (nameOffence source complaint name) () s := by
  rw [requireName, nameOffence]
  split
  · exact ⟨s, rfl⟩
  · exact rfl

/-! ### Types -/

mutual

/-- A type is lowered as if its members were known before. -/
theorem does_lowerType (source : String) (s : Schema) (owner : NodeId) (t : TypeDescription) :
    Does (lowerType source owner t) s (t.offences source (s.label owner)) s.nextNode
      (s.addType owner t) := by
  match t with
  | ⟨name, range, length, pattern, path, base, members, enums⟩ =>
    let spec : TypeBody := { name, range, length, pattern, path, base, enums }
    let n : Node := { name, parent := .node owner, content := .type spec }
    have hlt := s.index_nextNode_lt_pushNode n
    have hmembers := does_lowerMembers source (s.pushNode n) hlt members
    -- the members could as well have been there when the type was appended
    rw [← Schema.addTypes_modifyContent (Content.inert_withMembers _) _ hlt,
      Schema.modifyContent_pushNode (Content.inert_withMembers _),
      Schema.label_nextNode_pushNode, Schema.size_nodes_pushNode] at hmembers
    rw [lowerType, TypeDescription.offences, Schema.addType]
    exact (does_get s).bind_first ((does_requireName _ _ _ s).bind
      ((does_addNode n s).bind_first (hmembers.bind_last (does_pure _ _))))

/-- Members are entered one after the other, and all at once in the description. -/
theorem does_lowerMembers (source : String) (s : Schema) {union : NodeId}
    (hunion : union.index < s.nodes.size) (ts : List TypeDescription) :
    Does (lowerMembers source union ts) s
      (TypeDescription.listOffences source (s.label union) ts) ()
      ((s.addTypes union ts).modifyContent union
        (.withMembers (TypeDescription.handles s.nodes.size ts))) := by
  match ts with
  | [] =>
    rw [lowerMembers, TypeDescription.listOffences, Schema.addTypes, TypeDescription.handles,
      Schema.modifyContent_of_forall_eq Content.withMembers_nil]
    exact does_pure () s
  | t :: ts =>
    have hfirst := does_lowerType source s union t
    have hlt : union.index < (s.addType union t).nodes.size := by
      rw [Schema.size_addType]
      omega
    have hothers := does_lowerMembers source
      ((s.addType union t).modifyContent union (.withMember s.nextNode))
      (by simpa [Schema.modifyContent] using hlt) ts
    rw [Schema.label_modifyContent (Content.inert_withMember _), Schema.label_addType s hunion,
      Schema.addTypes_modifyContent (Content.inert_withMember _) _ hlt,
      Schema.modifyContent_modifyContent] at hothers
    simp only [Content.withMembers_withMember] at hothers
    rw [lowerMembers, TypeDescription.listOffences, Schema.addTypes, TypeDescription.handles]
    refine hfirst.bind ((does_modify _ _).bind_first ?_)
    have hsize : ((s.addType union t).modifyContent union
        (.withMember s.nextNode)).nodes.size = s.nodes.size + t.size := by
      simp [Schema.modifyContent, Schema.size_addType]
    rw [hsize] at hothers
    exact hothers

end

/-! ### Statements -/

mutual

theorem does_lowerStatement (source : String) (s : Schema) (parent : Parent) (st : Statement) :
    Does (lowerStatement source parent st) s (st.offences source) ()
      (s.addStatement parent st) := by
  match st with
  | .block kind name description body =>
    rw [lowerStatement, Statement.offences, Schema.addStatement]
    exact (does_requireName _ _ _ s).bind ((does_addNode _ s).bind_first
      (does_lowerStatements source _ (.node s.nextNode) body))
  | .typed kind name description type =>
    let n : Node := { name, description, parent, content := .typed kind .unassigned }
    have hlt := s.index_nextNode_lt_pushNode n
    have hlabel : (s.pushNode n).label s.nextNode = kind.kind.keyword ++ ":" ++ name :=
      s.label_nextNode_pushNode n
    have hnext : (s.pushNode n).nextNode = ⟨s.nextNode.index + 1⟩ := by
      simp [Schema.nextNode]
    have htype := does_lowerType source (s.pushNode n) s.nextNode type
    have hlast := does_modify (·.modifyContent s.nextNode (.withType (s.pushNode n).nextNode))
      ((s.pushNode n).addType s.nextNode type)
    rw [hlabel] at htype
    -- and so could the handle of the type
    rw [← Schema.addType_modifyContent (Content.inert_withType _) _ hlt,
      Schema.modifyContent_pushNode (Content.inert_withType _), hnext] at hlast
    rw [lowerStatement, Statement.offences, Schema.addStatement]
    refine (does_requireName _ _ _ s).bind ((does_addNode n s).bind_first (htype.bind_last ?_))
    rw [hnext]
    exact hlast
  | .uses grouping =>
    rw [lowerStatement, Statement.offences, Schema.addStatement]
    exact (does_requireName _ _ _ s).bind_last ((does_addNode _ s).bind_first (does_pure () _))
  | .augment target description body =>
    rw [lowerStatement, Statement.offences, Schema.addStatement]
    exact (does_requireName _ _ _ s).bind ((does_addNode _ s).bind_first
      (does_lowerStatements source _ (.node s.nextNode) body))
  | .identity name description bases =>
    rw [lowerStatement, Statement.offences, Schema.addStatement]
    exact (does_requireName _ _ _ s).bind_last ((does_addNode _ s).bind_first (does_pure () _))

theorem does_lowerStatements (source : String) (s : Schema) (parent : Parent)
    (sts : List Statement) :
    Does (lowerStatements source parent sts) s (Statement.listOffences source sts) ()
      (s.addStatements parent sts) := by
  match sts with
  | [] =>
    rw [lowerStatements, Statement.listOffences, Schema.addStatements]
    exact does_pure () s
  | st :: sts =>
    rw [lowerStatements, Statement.listOffences, Schema.addStatements]
    exact (does_lowerStatement source s parent st).bind
      (does_lowerStatements source _ parent sts)

end

/-! ### Documents -/

theorem does_lowerModule (s : Schema) (doc : ModuleDescription) :
    Does (lowerModule doc) s doc.offences () (s.enterModule doc) := by
  rw [lowerModule, ModuleDescription.offences]
  split
  · exact ⟨s, rfl⟩
  · exact (does_get s).bind_first ((does_modify _ s).bind_first
      (does_lowerStatements doc.name _ (.submodule s.nextSubmodule) doc.body))

/-- The module of a submodule is found if some module has its name. -/
theorem does_lowerSubmodule (s : Schema) (doc : SubmoduleDescription) :
    Does (lowerSubmodule doc) s (doc.offences (s.headings.map Heading.name)) ()
      (s.enterSubmodule doc) := by
  rw [lowerSubmodule, SubmoduleDescription.offences, Schema.enterSubmodule]
  refine (does_get s).bind_first ?_
  rcases hm : s.moduleNamed? doc.owner with - | m
  · have habsent : doc.owner ∉ s.headings.map Heading.name := fun howner ↦ by
      obtain ⟨m, hfound, -⟩ := Schema.exists_moduleNamed? howner
      cases hm.symm.trans hfound
    rw [if_neg habsent]
    exact ⟨s, rfl⟩
  · rw [if_pos (Schema.mem_headings_of_moduleNamed? hm)]
    exact (does_get s).bind_first ((does_modify _ s).bind_first
      (does_lowerStatements doc.name _ (.submodule s.nextSubmodule) doc.body))

/-- The modules of a batch are lowered, and its submodules are left over. -/
theorem does_lowerModules (s : Schema) (docs : List Document) :
    Does (lowerModules docs) s ((modulesOf docs).flatMap ModuleDescription.offences)
      (submodulesOf docs) ((modulesOf docs).foldl Schema.enterModule s) := by
  induction docs generalizing s with
  | nil => exact does_pure [] s
  | cons doc docs ih =>
    rcases doc with doc | doc
    · exact (does_lowerModule s doc).bind (ih _)
    · exact (ih s).bind_last (does_pure (doc :: submodulesOf docs) _)

/-- Attaching submodules does not change which modules are there. -/
theorem does_lowerSubmodules {names : List String} (s : Schema)
    (hnames : s.headings.map Heading.name = names) (docs : List SubmoduleDescription) :
    Does (lowerSubmodules docs) s (docs.flatMap (SubmoduleDescription.offences names)) ()
      (docs.foldl Schema.enterSubmodule s) := by
  induction docs generalizing s with
  | nil => exact does_pure () s
  | cons doc docs ih =>
    exact (hnames ▸ does_lowerSubmodule s doc).bind
      (ih _ ((congrArg _ (Schema.headings_enterSubmodule s doc)).trans hnames))

theorem does_lowerBatch (docs : List Document) :
    Does (lowerBatch docs) {} (offences docs) () (.ofBatch docs) :=
  (does_lowerModules {} docs).bind
    (does_lowerSubmodules _ (Schema.names_foldl_enterModule _) (submodulesOf docs))

end Lowering

namespace Schema

/-- **Lowering refuses a batch for the first of its offences, and else gives its meaning.** -/
theorem ofDocuments_eq (docs : List Document) :
    ofDocuments docs =
      match offences docs with
      | [] => .ok (ofBatch docs)
      | fault :: _ => .error fault := by
  have hrun := Lowering.does_lowerBatch docs
  rw [ofDocuments]
  generalize offences docs = found at hrun ⊢
  cases found with
  | nil => rw [hrun.eq_ok]
  | cons fault others =>
    obtain ⟨left, hstop⟩ := hrun.exists_eq_error
    rw [hstop]

theorem ofDocuments_of_offences_eq_nil {docs : List Document} (h : offences docs = []) :
    ofDocuments docs = .ok (ofBatch docs) := by
  rw [ofDocuments_eq, h]

theorem ofDocuments_eq_ok_iff {docs : List Document} {s : Schema} :
    ofDocuments docs = .ok s ↔ offences docs = [] ∧ ofBatch docs = s := by
  rw [ofDocuments_eq]
  split <;> simp_all

/-- A batch is refused for the first offence in its list. -/
theorem ofDocuments_eq_error_iff {docs : List Document} {fault : Fault} :
    ofDocuments docs = .error fault ↔ ∃ rest, offences docs = fault :: rest := by
  rw [ofDocuments_eq]
  split <;> simp_all

/-- A batch is accepted if its list of offences is empty. -/
theorem exists_ofDocuments_eq_ok_iff {docs : List Document} :
    (∃ s, ofDocuments docs = .ok s) ↔ offences docs = [] := by
  simp [ofDocuments_eq_ok_iff]

end Schema

end SchemaLink
