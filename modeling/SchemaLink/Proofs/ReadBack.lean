import SchemaLink.Proofs.Batches
import SchemaLink.Proofs.Statements

/-!
# Reading documents back from a schema

Lowering spreads a batch over three arrays. **Nothing is lost on the way**: reading the arrays back
gives the module documents and then the submodule documents, each in the order of the batch
(`Schema.documents_of_ofDocuments`).

Reading knows nothing about the batch and does not look at collections. The statements of a body are
the nodes that name it as their parent, in the order of their handles; only types are read from the
nodes that own them.

What has been lowered is read from any later schema in which no more is stated inside it. So each
result is about a schema and all that `Schema.Keeps` its bodies, and the bodies inside a body, the
statements of a list and the documents of a batch are all put together in the same way.
-/

namespace SchemaLink

/-! ### Reading -/

namespace Node

/-- The statement that a node stands for, given the statements inside it and a reading of types. -/
def statement? (n : Node) (body : Option (List Statement))
    (type? : NodeId → Option TypeDescription) : Option Statement :=
  match n.content with
  | .block kind _ => body.map (.block kind n.name n.description)
  | .typed kind t => (type? t).map (.typed kind n.name n.description)
  | .uses grouping => some (.uses grouping)
  | .augment target _ => body.map (.augment target n.description)
  | .identity bases => some (.identity n.name n.description bases)
  | .type _ => none

theorem statement?_bare (n : Node) (body : Option (List Statement))
    (type? : NodeId → Option TypeDescription) :
    n.bare.statement? body type? = n.statement? body type? := by
  obtain ⟨name, description, parent, content⟩ := n
  cases content <;> rfl

end Node

/-- The description of a module with a given body. -/
def Module.describe (m : Module) (body : List Statement) : ModuleDescription :=
  { name := m.name, ownPrefix := m.ownPrefix, space := m.space, description := m.description
    imports := m.imports, includes := m.includes, body }

theorem Module.describe_bare (m : Module) (body : List Statement) :
    m.bare.describe body = m.describe body :=
  rfl

theorem Submodule.isMain_bare (u : Submodule) : u.bare.isMain = u.isMain :=
  rfl

namespace Schema

variable {s s' s'' : Schema} {p : Parent} {n : Node} {id : NodeId}

/-- Reads a type that is nested no deeper than a bound. -/
def readType? (s : Schema) : Nat → NodeId → Option TypeDescription
  | 0, _ => none
  | depth + 1, t =>
    (s.node t).content.describedType?.bind fun spec ↦
      (spec.members.mapM (s.readType? depth)).map fun members ↦
        { name := spec.name, range := spec.range, length := spec.length, pattern := spec.pattern
          path := spec.path, base := spec.base, members, enums := spec.enums }

/-- Reads a statement that is nested no deeper than a bound. -/
def readStatement? (s : Schema) : Nat → NodeId → Option Statement
  | 0, _ => none
  | depth + 1, id =>
    (s.node id).statement? ((s.statedUnder (.node id)).mapM (s.readStatement? depth))
      (s.readType? depth)

/-- Reads all that is stated under a parent. No nesting is deeper than there are nodes. -/
def readBody? (s : Schema) (p : Parent) : Option (List Statement) :=
  (s.statedUnder p).mapM (s.readStatement? s.nodes.size)

/-- Reads a module. -/
def readModule? (s : Schema) (m : ModuleId) : Option ModuleDescription :=
  (s.readBody? (.submodule (s.module m).main)).map (s.module m).describe

/-- Reads a submodule. -/
def readSubmodule? (s : Schema) (u : SubmoduleId) : Option SubmoduleDescription :=
  (s.readBody? (.submodule u)).map fun body ↦
    { name := (s.submodule u).name, owner := (s.module (s.submodule u).module).name, body }

/-- The submodules that have been attached to a module, in order. -/
def attachedUnits (s : Schema) : List SubmoduleId :=
  ((List.range s.submodules.size).map SubmoduleId.mk).filter fun u ↦ ¬ (s.submodule u).isMain

/-- Reads a whole schema: its modules, and then the attached submodules. -/
def documents? (s : Schema) : Option (List Document) := do
  let modules ← s.moduleHandles.mapM s.readModule?
  let submodules ← s.attachedUnits.mapM s.readSubmodule?
  some (modules.map .module ++ submodules.map .submodule)

/-! ### Types are read as they were written -/

mutual

theorem readType?_addType (s : Schema) (owner : NodeId) (t : TypeDescription) {depth : Nat}
    (h : (s.addType owner t).Carries s') (hdepth : t.size ≤ depth) :
    s'.readType? depth s.nextNode = some t := by
  match t with
  | ⟨name, range, length, pattern, path, base, members, enums⟩ =>
    rw [addType] at h
    rw [TypeDescription.size] at hdepth
    obtain ⟨depth, rfl⟩ : ∃ d, depth = d + 1 := ⟨depth - 1, by omega⟩
    have hspec := (((carries_addTypes _ _ members).trans h).describedType?_eq s.nextNode
      (by simp [nextNode])).trans (by rw [describedType?_pushNode, if_pos rfl])
    have hmembers := mapM_readType?_addTypes _ _ members h (show _ ≤ depth by omega)
    rw [size_nodes_pushNode] at hmembers
    rw [readType?, hspec]
    simp only [Content.describedType?, Option.bind_some, nextNode, hmembers, Option.map_some]

theorem mapM_readType?_addTypes (s : Schema) (owner : NodeId) (ts : List TypeDescription)
    {depth : Nat} (h : (s.addTypes owner ts).Carries s')
    (hdepth : TypeDescription.listSize ts ≤ depth) :
    (TypeDescription.handles s.nodes.size ts).mapM (s'.readType? depth) = some ts := by
  match ts with
  | [] => rfl
  | t :: ts =>
    rw [addTypes] at h
    rw [TypeDescription.listSize] at hdepth
    have hfirst := readType?_addType s owner t ((carries_addTypes _ owner ts).trans h)
      (show _ ≤ depth by omega)
    have hrest := mapM_readType?_addTypes _ owner ts h (show _ ≤ depth by omega)
    rw [size_addType] at hrest
    rw [TypeDescription.handles, List.mapM_cons, hrest, show (⟨s.nodes.size⟩ : NodeId) = s.nextNode
      from rfl, hfirst]
    rfl

end

/-! ### Statements are read as they were written -/

/-- A node is read as what it was when it was appended. -/
theorem readStatement?_of_bare_eq (h : (s.node id).bare = n.bare) (depth : Nat) :
    s.readStatement? (depth + 1) id =
      n.statement? ((s.statedUnder (.node id)).mapM (s.readStatement? depth))
        (s.readType? depth) := by
  rw [readStatement?, ← Node.statement?_bare, h, Node.statement?_bare]

/-- A node with a body is read from its body once that is complete. -/
theorem Keeps.readStatement?_eq {body : List Statement} {depth : Nat} (hs : s.Tidy)
    (hp : s.Collects n.parent) (hn : n.content.children? = some {})
    (h : ((s.pushNode n).addStatements (.node s.nextNode) body).Keeps
      (NodesFrom s.nodes.size) s')
    (hbody : (Statement.handles (s.pushNode n).nodes.size body).mapM (s'.readStatement? depth) =
      some body) :
    s'.readStatement? (depth + 1) s.nextNode = n.statement? (some body) (s'.readType? depth) := by
  have hinner := collects_nextNode hn hp.ne_nextNode
  have hretains := spans_retains.addStatements _ _ body hinner
  have hnew : (s.pushNode n).HasParent (.node s.nextNode) := hinner.hasParent
  have hnone : (s.pushNode n).statedUnder (.node s.nextNode) = [] := by
    rw [statedUnder_pushNode, hs.statedUnder_eq_nil (Nat.lt_irrefl _)]
    simp [hp.ne_nextNode]
  rw [readStatement?_of_bare_eq (hretains.trans h.toRetains).bare_nextNode,
    h.stated_eq _ (hretains.hasParent hnew) (Nat.le_refl _),
    statedUnder_addStatements _ _ body hinner hnew, hnone, if_pos rfl, List.nil_append, hbody]

mutual

theorem readStatement?_addStatement (s : Schema) (p : Parent) (st : Statement) {depth : Nat}
    (hs : s.Tidy) (hp : s.Collects p)
    (h : (s.addStatement p st).Keeps (NodesFrom s.nodes.size) s')
    (hdepth : st.size ≤ depth + 1) : s'.readStatement? (depth + 1) s.nextNode = some st := by
  match st with
  | .block kind name description body =>
    rw [addStatement] at h
    rw [Statement.size] at hdepth
    have hbody := mapM_readStatement?_addStatements _ _ body
      ((Grows.refl.plain hp (by exact rfl)).tidy hs) (collects_nextNode rfl hp.ne_nextNode)
      (h.mono fun _ ↦ .mono (by simp)) (show _ ≤ depth by omega)
    exact h.readStatement?_eq hs hp rfl hbody
  | .typed kind name description type =>
    rw [addStatement] at h
    rw [Statement.size] at hdepth
    have htype := readType?_addType _ s.nextNode type h.carries (show _ ≤ depth by omega)
    rw [readStatement?_of_bare_eq (((retains_addType _ _ type).trans h.toRetains).bare_nextNode)]
    simp only [nextNode, size_nodes_pushNode] at htype
    simp only [Node.statement?, nextNode, htype, Option.map_some]
  | .uses grouping =>
    rw [addStatement] at h
    rw [readStatement?_of_bare_eq h.bare_nextNode]
    rfl
  | .augment target description body =>
    rw [addStatement] at h
    rw [Statement.size] at hdepth
    have hbody := mapM_readStatement?_addStatements _ _ body
      ((Grows.refl.plain hp (by exact rfl)).tidy hs) (collects_nextNode rfl hp.ne_nextNode)
      (h.mono fun _ ↦ .mono (by simp)) (show _ ≤ depth by omega)
    exact h.readStatement?_eq hs hp rfl hbody
  | .identity name description bases =>
    rw [addStatement] at h
    rw [readStatement?_of_bare_eq h.bare_nextNode]
    rfl

theorem mapM_readStatement?_addStatements (s : Schema) (p : Parent) (sts : List Statement)
    {depth : Nat} (hs : s.Tidy) (hp : s.Collects p)
    (h : (s.addStatements p sts).Keeps (NodesFrom s.nodes.size) s')
    (hdepth : Statement.listSize sts ≤ depth) :
    (Statement.handles s.nodes.size sts).mapM (s'.readStatement? depth) = some sts := by
  match sts with
  | [] => rfl
  | st :: sts =>
    rw [addStatements] at h
    rw [Statement.listSize] at hdepth
    have hpos := st.size_pos
    obtain ⟨depth, rfl⟩ : ∃ d, depth = d + 1 := ⟨depth - 1, by omega⟩
    have hlowered := spans_retains.addStatement s p st hp
    have hp' := hlowered.collects hp
    -- the parent is older than the statements, so the rest states nothing inside the first
    have hkeeps := keeps_addStatements sts hp' (not_nodesFrom_of_hasParent hp.hasParent)
    have hfirst := readStatement?_addStatement s p st hs hp (hkeeps.trans h)
      (show _ ≤ depth + 1 by omega)
    have hrest := mapM_readStatement?_addStatements _ p sts
      ((spans_grows.addStatement s p st hp).tidy hs) hp'
      (h.mono fun _ ↦ .mono hlowered.nodes_le) (show _ ≤ depth + 1 by omega)
    rw [size_addStatement] at hrest
    rw [Statement.handles, List.mapM_cons, hrest, show (⟨s.nodes.size⟩ : NodeId) = s.nextNode
      from rfl, hfirst]
    rfl

end

/-! ### Bodies of modules and submodules -/

/-- **The body of a new parent is read as it was written.** -/
theorem Tidy.readBody?_eq {body : List Statement} (hs : s.Tidy) (hs' : s'.Tidy)
    (hnodes : s'.nodes = s.nodes) (hnew : ¬ s.HasParent p) (hp : s'.Collects p)
    (h : (s'.addStatements p body).Keeps (fun _ ↦ True) s'') : s''.readBody? p = some body := by
  have hretains := spans_retains.addStatements s' p body hp
  have hsize := h.nodes_le
  rw [size_addStatements] at hsize
  have hread := mapM_readStatement?_addStatements s' p body hs' hp (h.mono fun _ _ ↦ trivial)
    (show _ ≤ s''.nodes.size by omega)
  rw [readBody?, h.stated_eq p (hretains.hasParent hp.hasParent) trivial,
    statedUnder_addStatements s' p body hp hp.hasParent, statedUnder_of_nodes_eq hnodes,
    hs.statedUnder_eq_nil hnew, if_pos rfl, List.nil_append, hread]

theorem Retains.attachedUnits_eq (h : s.Retains s')
    (hsize : s'.submodules.size = s.submodules.size + 1) :
    s'.attachedUnits = s.attachedUnits ++
      if (s'.submodule s.nextSubmodule).isMain = true then [] else [s.nextSubmodule] := by
  have hold : ((List.range s.submodules.size).map SubmoduleId.mk).filter
      (fun u ↦ ¬ (s'.submodule u).isMain) = s.attachedUnits := by
    refine List.filter_congr fun u hu ↦ ?_
    obtain ⟨i, hi, rfl⟩ := List.mem_map.1 hu
    have hmain : (s'.submodule ⟨i⟩).isMain = (s.submodule ⟨i⟩).isMain := by
      show (s'.submodule ⟨i⟩).bare.isMain = _
      rw [h.submodule_eq ⟨i⟩ (List.mem_range.1 hi)]
      rfl
    rw [hmain]
  rw [attachedUnits, hsize, List.range_succ, List.map_append, List.filter_append, hold]
  by_cases hmain : (s'.submodule s.nextSubmodule).isMain = true <;>
    simp_all [nextSubmodule]

/-- A body has been lowered into the submodule, main or attached, that `s'` has in addition to
`s`. -/
structure Filled (s s' s₁ : Schema) (body : List Statement) : Prop where
  retains : s'.Retains s₁
  keeps : s.Keeps (fun _ ↦ True) s₁
  attachedUnits_eq : s₁.attachedUnits = s.attachedUnits ++
    if (s'.submodule s.nextSubmodule).isMain = true then [] else [s.nextSubmodule]
  readBody?_eq : ∀ s'', s₁.Keeps (fun _ ↦ True) s'' →
    s''.readBody? (.submodule s.nextSubmodule) = some body

theorem Retains.filled (h : s.Retains s') (hs : s.Tidy) (hs' : s'.Tidy)
    (hnodes : s'.nodes = s.nodes) (hsize : s'.submodules.size = s.submodules.size + 1)
    (body : List Statement) :
    s.Filled s' (s'.addStatements (.submodule s.nextSubmodule) body) body := by
  have hlt : s.nextSubmodule.index < s'.submodules.size := by simp [nextSubmodule, hsize]
  have hp : s'.Collects (.submodule s.nextSubmodule) := hlt
  have hnew : ¬ s.HasParent (.submodule s.nextSubmodule) := Nat.lt_irrefl _
  have hretains := spans_retains.addStatements s' _ body hp
  have hkeeps := h.keeps_addStatements hnodes hnew hp body
  refine ⟨hretains, hkeeps, ?_, fun s'' h'' ↦ hs.readBody?_eq hs' hnodes hnew hp h''⟩
  have hmain := congrArg Submodule.isMain (hretains.submodule_eq s.nextSubmodule hlt)
  rw [Submodule.isMain_bare, Submodule.isMain_bare] at hmain
  rw [hkeeps.attachedUnits_eq (by rw [size_submodules_addStatements, hsize]), hmain]

/-! ### Documents are read as they were written -/

theorem moduleHandles_eq_append (hsize : s'.modules.size = s.modules.size + 1) :
    s'.moduleHandles = s.moduleHandles ++ [s.nextModule] := by
  simp [moduleHandles, hsize, List.range_succ, nextModule]

section

variable (s : Schema) (hs : s.Tidy) (body : List Statement)
include hs

/-- **Step.** What a module and its body leave as it was, and how they are read. -/
theorem pushModule_spec (d : Module) :
    let s₁ := (s.pushModule d).addStatements (.submodule s.nextSubmodule) body
    s.Keeps (fun _ ↦ True) s₁ ∧ s₁.attachedUnits = s.attachedUnits ∧
      ∀ s', s₁.Keeps (fun _ ↦ True) s' →
        s'.readModule? s.nextModule = some (d.describe body) := by
  have hfilled := (Retains.pushModule s d).filled hs (hs.pushModule d) rfl (by simp) body
  refine ⟨hfilled.keeps, ?_, fun s' h ↦ ?_⟩
  · rw [hfilled.attachedUnits_eq, submodule_pushModule, if_pos rfl]
    exact List.append_nil _
  · have hmodule := (hfilled.retains.trans h.toRetains).module_eq s.nextModule
      (by simp [nextModule])
    rw [module_pushModule, if_pos rfl] at hmodule
    have hmain : (s'.module s.nextModule).main = s.nextSubmodule := congrArg (·.main) hmodule
    rw [readModule?, hmain, hfilled.readBody?_eq s' h, Option.map_some, ← Module.describe_bare,
      hmodule]
    rfl

/-- **Step.** What a submodule and its body leave as it was, and how they are read. -/
theorem pushSubmodule_spec {m : ModuleId} (hm : m.index < s.modules.size) (name : String) :
    let s₁ := (s.pushSubmodule m name).addStatements (.submodule s.nextSubmodule) body
    s.Keeps (fun _ ↦ True) s₁ ∧ s₁.attachedUnits = s.attachedUnits ++ [s.nextSubmodule] ∧
      ∀ s', s₁.Keeps (fun _ ↦ True) s' →
        s'.readSubmodule? s.nextSubmodule =
          some { name, owner := (s.module m).name, body } := by
  have hfilled :=
    (Retains.pushSubmodule s m name).filled hs (hs.pushSubmodule m name) rfl (by simp) body
  refine ⟨hfilled.keeps, ?_, fun s' h ↦ ?_⟩
  · rw [hfilled.attachedUnits_eq, submodule_pushSubmodule, if_pos rfl]
    rfl
  · have hunit := (hfilled.retains.trans h.toRetains).submodule_eq s.nextSubmodule
      (by simp [nextSubmodule])
    rw [submodule_pushSubmodule, if_pos rfl] at hunit
    have hname : (s'.submodule s.nextSubmodule).name = name := congrArg (·.name) hunit
    have howner : (s'.submodule s.nextSubmodule).module = m := congrArg (·.module) hunit
    have hmodule : (s'.module m).name = (s.module m).name :=
      congrArg (·.name) ((hfilled.keeps.trans h).module_eq m hm)
    rw [readSubmodule?, hfilled.readBody?_eq s' h, hname, howner, hmodule]
    rfl

end

/-! ### Whole batches -/

/-- **Run.** If each step appends one handle, from which what was entered is read from then on, then
a run appends handles from which all that was entered is read, in order. -/
theorem exists_handles_foldl {α H : Type} (step : Schema → α → Schema) (handles : Schema → List H)
    (read? : Schema → H → Option α) (I : Schema → Prop) (as : List α)
    (hstep : ∀ s, I s → ∀ a ∈ as, I (step s a) ∧ s.Keeps (fun _ ↦ True) (step s a) ∧
      ∃ h, handles (step s a) = handles s ++ [h] ∧
        ∀ s', (step s a).Keeps (fun _ ↦ True) s' → read? s' h = some a) (hs : I s) :
    I (as.foldl step s) ∧ s.Keeps (fun _ ↦ True) (as.foldl step s) ∧
      ∃ hs, handles (as.foldl step s) = handles s ++ hs ∧
        ∀ s', (as.foldl step s).Keeps (fun _ ↦ True) s' → hs.mapM (read? s') = some as := by
  induction as generalizing s with
  | nil => exact ⟨hs, .refl s, [], by simp, fun _ _ ↦ rfl⟩
  | cons a as ih =>
    obtain ⟨hI, hkeeps, h, hhandles, hread⟩ := hstep s hs a (by simp)
    obtain ⟨hI', hkeeps', hs', hhandles', hread'⟩ :=
      ih (fun s hs a ha ↦ hstep s hs a (by simp [ha])) hI
    refine ⟨hI', hkeeps.trans hkeeps', h :: hs', ?_, fun s' hlater ↦ ?_⟩
    · rw [List.foldl_cons, hhandles', hhandles, List.append_assoc, List.singleton_append]
    · rw [List.mapM_cons, hread s' (hkeeps'.trans hlater), hread' s' hlater]
      rfl

theorem moduleHandles_eq_of_headings_eq (h : s'.headings = s.headings) :
    s'.moduleHandles = s.moduleHandles := by
  have hsize := congrArg List.length h
  simp only [headings, Array.length_toList, Array.size_map] at hsize
  rw [moduleHandles, hsize, moduleHandles]

/-- The modules of a batch. -/
theorem foldl_enterModule_spec (docs : List ModuleDescription) :
    let s := docs.foldl enterModule {}
    s.Tidy ∧ s.attachedUnits = [] ∧
      ∀ s', s.Keeps (fun _ ↦ True) s' → s.moduleHandles.mapM s'.readModule? = some docs := by
  obtain ⟨⟨hs, hunits⟩, -, ms, hms, hread⟩ := exists_handles_foldl enterModule moduleHandles
    readModule? (fun s ↦ s.Tidy ∧ s.attachedUnits = []) docs
    (fun s hs doc _ ↦ by
      obtain ⟨hkeeps, hunits, hread⟩ := pushModule_spec s hs.1 doc.body
        { name := doc.name, ownPrefix := doc.ownPrefix, space := doc.space
          description := doc.description, imports := doc.imports, includes := doc.includes
          main := s.nextSubmodule }
      refine ⟨⟨(spans_grows.enterModule s doc).tidy hs.1, hunits.trans hs.2⟩, hkeeps,
        s.nextModule, moduleHandles_eq_append ?_, hread⟩
      rw [enterModule, modules_addStatements, size_modules_pushModule])
    ⟨tidy_empty, rfl⟩
  exact ⟨hs, hunits, fun s' h ↦ hms ▸ hread s' h⟩

/-- The submodules of a batch whose modules are there. -/
theorem foldl_enterSubmodule_spec (docs : List SubmoduleDescription) (hs : s.Tidy)
    (howners : ∀ doc ∈ docs, doc.owner ∈ s.headings.map Heading.name) :
    let s₁ := docs.foldl enterSubmodule s
    s.Keeps (fun _ ↦ True) s₁ ∧ s₁.moduleHandles = s.moduleHandles ∧
      ∃ us, s₁.attachedUnits = s.attachedUnits ++ us ∧
        us.mapM s₁.readSubmodule? = some docs := by
  obtain ⟨⟨-, hheadings⟩, hkeeps, us, hus, hread⟩ := exists_handles_foldl enterSubmodule
    attachedUnits readSubmodule? (fun s' ↦ s'.Tidy ∧ s'.headings = s.headings) docs
    (fun s' hs' doc hdoc ↦ by
      obtain ⟨m, hm, hlt, hname⟩ := exists_moduleNamed? (hs'.2 ▸ howners doc hdoc)
      have hlowered : s'.enterSubmodule doc =
          (s'.pushSubmodule m doc.name).addStatements (.submodule s'.nextSubmodule) doc.body := by
        rw [enterSubmodule, hm]
      obtain ⟨hkeeps, hunits, hread⟩ := pushSubmodule_spec s' hs'.1 doc.body hlt doc.name
      rw [← hlowered] at hkeeps hunits hread
      rw [hname] at hread
      exact ⟨⟨(spans_grows.enterSubmodule s' doc).tidy hs'.1,
        (headings_enterSubmodule s' doc).trans hs'.2⟩, hkeeps, _, hunits, hread⟩)
    ⟨hs, rfl⟩
  exact ⟨hkeeps, moduleHandles_eq_of_headings_eq hheadings, us, hus, hread _ (.refl _)⟩

/-- In a batch without offences the module of every submodule is there. -/
theorem owner_mem_of_offences_eq_nil {docs : List Document} (h : offences docs = []) :
    ∀ doc ∈ submodulesOf docs, doc.owner ∈ (modulesOf docs).map ModuleDescription.name := by
  intro doc hdoc
  have hnone := List.flatMap_eq_nil_iff.1 (List.append_eq_nil_iff.1 h).2 doc hdoc
  by_contra howner
  simp [SubmoduleDescription.offences, howner] at hnone

/-- **Lowering loses nothing.** Reading a lowered schema gives the modules and then the submodules
of the batch, in the order of their documents and with everything that stands in them. -/
theorem documents_of_ofDocuments {docs : List Document} (h : ofDocuments docs = .ok s) :
    s.documents? =
      some ((modulesOf docs).map .module ++ (submodulesOf docs).map .submodule) := by
  obtain ⟨hoffences, rfl⟩ := ofDocuments_eq_ok_iff.1 h
  obtain ⟨hs, hnone, hmodules⟩ := foldl_enterModule_spec (modulesOf docs)
  obtain ⟨hkeeps, hhandles, us, hus, hsubmodules⟩ := foldl_enterSubmodule_spec
    (submodulesOf docs) hs
    (names_foldl_enterModule (modulesOf docs) ▸ owner_mem_of_offences_eq_nil hoffences)
  rw [hnone, List.nil_append] at hus
  rw [documents?, ofBatch, hhandles, hus, hmodules _ hkeeps, hsubmodules]
  rfl

/-- A module with a union inside a union, a body inside a body, and an augment. -/
def whole : ModuleDescription where
  name := "m"
  ownPrefix := "m"
  space := "urn:m"
  description := some "a module"
  imports := [⟨"n", "n"⟩]
  includes := ["part"]
  body := [
    .block .container "box" (some "a box") [
      .block .list "row" none [.uses "size"],
      .typed .leaf "width" none
        { name := "union"
          members := [
            { name := "union", members := [{ name := "int8", range := some "1..9" }] },
            { name := "enumeration", enums := ["wide", "narrow"] }] }],
    .augment "/m:box" (some "more") [.identity "shape" none ["n:form"]]]

/-- A submodule of that module. -/
def part : SubmoduleDescription where
  name := "part"
  owner := "m"
  body := [.block .grouping "size" none [
    .typed .leafList "height" none { name := "leafref", path := some "../width" }]]

/-- The submodule stands before its module in the batch and after it in what is read. -/
theorem documents_of_ofDocuments_whole :
    ∃ s, ofDocuments [.submodule part, .module whole] = .ok s ∧
      s.documents? = some [.module whole, .submodule part] :=
  have hdocs : ofDocuments [.submodule part, .module whole] =
    .ok (ofBatch [.submodule part, .module whole]) := ofDocuments_of_offences_eq_nil rfl
  ⟨_, hdocs, documents_of_ofDocuments hdocs⟩

end Schema

end SchemaLink
