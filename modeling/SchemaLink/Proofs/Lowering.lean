import SchemaLink.Proofs.Building

/-!
# How documents become a schema

The meaning of a batch is built by appending modules, submodules and nodes in an order that follows
the nesting of statements, and lowering leads to it (`Schema.ofDocuments_eq`). `Schema.Grows`
forgets the statements and keeps the steps: what is appended, and what is known about the place
where it is appended. **The recursion over statements is done once**, in `Spans.ofBatch`, for any
relation that holds across each part of a document. Growth is one such relation, so facts about
single steps are inductions over `Grows`.

A typed node and its type are appended in one step, because the handle of the type is written down
before the type is there. Lowering itself enters it afterwards, with the same result.
-/

namespace SchemaLink

/-- The content of a node that has just been declared and owns no type. -/
def Content.Plain : Content → Prop
  | .block _ c | .augment _ c => c = {}
  | .uses _ | .identity _ => True
  | .typed _ _ | .type _ => False

theorem Content.Plain.children_eq {c : Content} (h : c.Plain) : c.children?.getD {} = {} := by
  cases c <;> simp_all [Plain, children?]

theorem Content.Plain.typeHandle?_eq {c : Content} (h : c.Plain) : c.typeHandle? = none := by
  cases c <;> simp_all [Plain, typeHandle?]

namespace Schema

variable {s s' s'' : Schema}

/-- The parent collects children. -/
def Collects (s : Schema) : Parent → Prop
  | .submodule u => u.index < s.submodules.size
  | .node id => (s.node id).content.children?.isSome = true

instance : DecidablePred s.Collects
  | .submodule u => inferInstanceAs (Decidable (u.index < s.submodules.size))
  | .node id => inferInstanceAs (Decidable ((s.node id).content.children?.isSome = true))

/-- The node of a type that belongs to another node. -/
def typeNode (owner : NodeId) (name : String) (spec : TypeBody) : Node :=
  { name, parent := .node owner, content := .type spec }

/-- A schema comes from another by steps of lowering. -/
inductive Grows (s : Schema) : Schema → Prop where
  | refl : Grows s s
  | module {s' : Schema} (d : Module) (h : Grows s s') : Grows s (s'.pushModule d)
  | submodule {s' : Schema} {m : ModuleId} (name : String) (h : Grows s s')
      (hm : m.index < s'.modules.size) : Grows s (s'.pushSubmodule m name)
  | plain {s' : Schema} {n : Node} (h : Grows s s') (hp : s'.Collects n.parent)
      (hn : n.content.Plain) : Grows s (s'.pushNode n)
  | typed {s' : Schema} {n : Node} {k : TypedKind} {name : String} {spec : TypeBody}
      (h : Grows s s') (hp : s'.Collects n.parent)
      (hn : n.content = .typed k ⟨s'.nodes.size + 1⟩) :
      Grows s ((s'.pushNode n).pushNode (typeNode s'.nextNode name spec))
  | member {s' : Schema} {owner : NodeId} {name : String} {spec : TypeBody} (h : Grows s s')
      (ho : s'.kind owner = .type) : Grows s (s'.pushNode (typeNode owner name spec))

theorem Grows.trans (h : s.Grows s') (h' : s'.Grows s'') : s.Grows s'' := by
  induction h' with
  | refl => exact h
  | module d _ ih => exact ih.module d
  | submodule name _ hm ih => exact ih.submodule name hm
  | plain _ hp hn ih => exact ih.plain hp hn
  | typed _ hp hn ih => exact ih.typed hp hn
  | member _ ho ih => exact ih.member ho

/-! ### What steps keep -/

theorem Collects.hasParent {p : Parent} (h : s.Collects p) : s.HasParent p := by
  match p with
  | .submodule u => exact h
  | .node id =>
    refine index_lt_of_kind_ne_uses fun hk ↦ ?_
    have h : (s.node id).content.children?.isSome = true := h
    have hk : (s.node id).content.kind = .uses := hk
    rcases hc : (s.node id).content with ⟨kind, _⟩ | _ | _ | ⟨kind, _⟩ | _ | _ <;>
      simp_all [Content.children?, Content.kind]
    cases kind <;> simp [BlockKind.kind] at hk

theorem ne_nextNode_of_lt {id : NodeId} (h : id.index < s.nodes.size) : id ≠ s.nextNode := by
  rintro rfl
  exact Nat.lt_irrefl _ h

theorem Collects.pushNode {p : Parent} (h : s.Collects p) (n : Node) :
    (s.pushNode n).Collects p := by
  match p with
  | .submodule u => simpa [Collects] using h
  | .node id =>
    have hne := ne_nextNode_of_lt (show id.index < s.nodes.size from h.hasParent)
    have h : (s.node id).content.children?.isSome = true := h
    simp only [Collects, node_pushNode, hne, if_false]
    split <;> simpa using h

/-- What collects children goes on collecting them. -/
theorem Grows.collects (h : s.Grows s') {p : Parent} (hp : s.Collects p) : s'.Collects p := by
  induction h with
  | refl => exact hp
  | module d _ ih =>
    cases p with
    | submodule u => simp only [Collects, size_submodules_pushModule] at ih ⊢; omega
    | node id => exact ih
  | submodule name _ _ ih =>
    cases p with
    | submodule u => simp only [Collects, size_submodules_pushSubmodule] at ih ⊢; omega
    | node id => exact ih
  | plain _ _ _ ih => exact ih.pushNode _
  | typed _ _ _ ih => exact (ih.pushNode _).pushNode _
  | member _ _ ih => exact ih.pushNode _

theorem kind_pushNode_of_lt {id : NodeId} (h : id.index < s.nodes.size) (n : Node) :
    (s.pushNode n).kind id = s.kind id := by
  rw [kind_pushNode, if_neg (ne_nextNode_of_lt h)]

theorem Grows.size_nodes_le (h : s.Grows s') : s.nodes.size ≤ s'.nodes.size := by
  induction h with
  | refl => exact Nat.le_refl _
  | module d _ ih => exact ih
  | submodule name _ _ ih => exact ih
  | plain _ _ _ ih => simp only [size_nodes_pushNode]; omega
  | typed _ _ _ ih => simp only [size_nodes_pushNode]; omega
  | member _ _ ih => simp only [size_nodes_pushNode]; omega

/-- The nodes that are there keep their kinds. -/
theorem Grows.kind_eq (h : s.Grows s') {id : NodeId} (hid : id.index < s.nodes.size) :
    s'.kind id = s.kind id := by
  induction h with
  | refl => rfl
  | module d _ ih => exact ih
  | submodule name _ _ ih => exact ih
  | plain h _ _ ih => rw [kind_pushNode_of_lt (Nat.lt_of_lt_of_le hid h.size_nodes_le), ih]
  | @typed s' n _ _ _ h _ _ ih =>
    have hlt := Nat.lt_of_lt_of_le hid h.size_nodes_le
    rw [kind_pushNode_of_lt (by simp only [size_nodes_pushNode]; omega), kind_pushNode_of_lt hlt,
      ih]
  | member h _ ih => rw [kind_pushNode_of_lt (Nat.lt_of_lt_of_le hid h.size_nodes_le), ih]

/-! ### Lowering takes steps -/

theorem kind_pushNode_nextNode (s : Schema) (n : Node) :
    (s.pushNode n).kind s.nextNode = n.kind := by
  simp [kind_pushNode]

mutual

theorem grows_addType (s : Schema) (owner : NodeId) (t : TypeDescription)
    (h : s.kind owner = .type) : s.Grows (s.addType owner t) := by
  match t with
  | ⟨name, range, length, pattern, path, base, members, enums⟩ =>
    rw [addType]
    exact (Grows.refl.member h).trans
      (grows_addTypes _ s.nextNode members (kind_pushNode_nextNode s _))

theorem grows_addTypes (s : Schema) (owner : NodeId) (ts : List TypeDescription)
    (h : s.kind owner = .type) : s.Grows (s.addTypes owner ts) := by
  match ts with
  | [] =>
    rw [addTypes]
    exact .refl
  | t :: ts =>
    have hfirst := grows_addType s owner t h
    -- the owner is still a type after its first member has been appended
    have howner : owner.index < s.nodes.size := index_lt_of_kind_ne_uses (by simp [h])
    rw [addTypes]
    exact hfirst.trans (grows_addTypes _ owner ts (by rw [hfirst.kind_eq howner, h]))

end

/-- A typed node and its type. -/
theorem grows_addTyped (s : Schema) {n : Node} {k : TypedKind} (t : TypeDescription)
    (hp : s.Collects n.parent) (hn : n.content = .typed k ⟨s.nodes.size + 1⟩) :
    s.Grows ((s.pushNode n).addType s.nextNode t) := by
  match t with
  | ⟨name, range, length, pattern, path, base, members, enums⟩ =>
    rw [addType]
    exact (Grows.refl.typed hp hn).trans (grows_addTypes _ _ members (kind_pushNode_nextNode _ _))

/-- A node with a body collects children as soon as it is there. -/
theorem collects_nextNode {n : Node} (hn : n.content.children? = some {})
    (hp : n.parent ≠ .node s.nextNode) : (s.pushNode n).Collects (.node s.nextNode) := by
  simp [Collects, node_pushNode, hp, hn]

theorem Collects.ne_nextNode {p : Parent} (h : s.Collects p) : p ≠ .node s.nextNode := by
  rintro rfl
  exact ne_nextNode_of_lt h.hasParent rfl

/-- Relations between a schema and a later one that hold across each part of a document, and so
across documents. -/
structure Spans (R : Schema → Schema → Prop) : Prop where
  refl : ∀ s, R s s
  trans : ∀ {s s' s''}, R s s' → R s' s'' → R s s''
  collects : ∀ {s s'} {p : Parent}, R s s' → s.Collects p → s'.Collects p
  module : ∀ s (d : Module), R s (s.pushModule d)
  submodule : ∀ s {m : ModuleId} (name : String), m.index < s.modules.size →
    R s (s.pushSubmodule m name)
  plain : ∀ s {n : Node}, s.Collects n.parent → n.content.Plain → R s (s.pushNode n)
  typed : ∀ s {n : Node} {k : TypedKind} (t : TypeDescription), s.Collects n.parent →
    n.content = .typed k ⟨s.nodes.size + 1⟩ → R s ((s.pushNode n).addType s.nextNode t)

namespace Spans

variable {R : Schema → Schema → Prop} (hR : Spans R)
include hR

mutual

theorem addStatement (s : Schema) (p : Parent) (st : Statement) (h : s.Collects p) :
    R s (s.addStatement p st) := by
  match st with
  | .block kind name description body =>
    rw [Schema.addStatement]
    refine hR.trans (hR.plain s h ?_)
      (addStatements _ _ body (collects_nextNode rfl h.ne_nextNode))
    exact rfl
  | .typed kind name description type =>
    rw [Schema.addStatement]
    exact hR.typed s type h rfl
  | .uses grouping =>
    rw [Schema.addStatement]
    exact hR.plain s h trivial
  | .augment target description body =>
    rw [Schema.addStatement]
    refine hR.trans (hR.plain s h ?_)
      (addStatements _ _ body (collects_nextNode rfl h.ne_nextNode))
    exact rfl
  | .identity name description bases =>
    rw [Schema.addStatement]
    exact hR.plain s h trivial

theorem addStatements (s : Schema) (p : Parent) (sts : List Statement) (h : s.Collects p) :
    R s (s.addStatements p sts) := by
  match sts with
  | [] =>
    rw [Schema.addStatements]
    exact hR.refl s
  | st :: sts =>
    have hfirst := addStatement s p st h
    rw [Schema.addStatements]
    exact hR.trans hfirst (addStatements _ p sts (hR.collects hfirst h))

end

theorem enterModule (s : Schema) (doc : ModuleDescription) : R s (s.enterModule doc) := by
  refine hR.trans (hR.module s _) (hR.addStatements _ _ doc.body ?_)
  simp [Collects, nextSubmodule]

theorem enterSubmodule (s : Schema) (doc : SubmoduleDescription) :
    R s (s.enterSubmodule doc) := by
  unfold Schema.enterSubmodule
  split
  · exact hR.refl s
  · next m hm =>
    refine hR.trans (hR.submodule s doc.name (index_lt_of_moduleNamed? hm))
      (hR.addStatements _ _ doc.body ?_)
    simp [Collects, nextSubmodule]

theorem foldl {α : Type} {step : Schema → α → Schema} (hstep : ∀ s a, R s (step s a))
    (s : Schema) (as : List α) : R s (as.foldl step s) := by
  induction as generalizing s with
  | nil => exact hR.refl s
  | cons a as ih => exact hR.trans (hstep s a) (ih _)

/-- **What spans each part of a document spans a batch.** -/
theorem ofBatch (docs : List Document) : R {} (ofBatch docs) :=
  hR.trans (hR.foldl hR.enterModule {} _) (hR.foldl hR.enterSubmodule _ _)

theorem of_ofDocuments {docs : List Document} (h : ofDocuments docs = .ok s) : R {} s := by
  obtain ⟨-, rfl⟩ := ofDocuments_eq_ok_iff.1 h
  exact hR.ofBatch docs

end Spans

theorem spans_grows : Spans Grows where
  refl := fun _ ↦ .refl
  trans := Grows.trans
  collects := fun h ↦ h.collects
  module := fun _ d ↦ Grows.refl.module d
  submodule := fun _ _ name hm ↦ Grows.refl.submodule name hm
  plain := fun _ _ hp hn ↦ Grows.refl.plain hp hn
  typed := fun s _ _ t hp hn ↦ grows_addTyped s t hp hn

/-- **Lowering is a sequence of steps.** -/
theorem grows_of_ofDocuments {docs : List Document} (h : ofDocuments docs = .ok s) :
    ({} : Schema).Grows s :=
  spans_grows.of_ofDocuments h

end Schema

end SchemaLink
