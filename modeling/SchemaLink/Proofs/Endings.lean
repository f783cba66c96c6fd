import SchemaLink.Proofs.Chains
import SchemaLink.Proofs.Containment
import SchemaLink.Proofs.Sweeps

/-!
# Questions that come to an end

Targets of augments are found by following paths, and following a path can lead through augments, so
a question about a session may never be answered. **Two conditions rule that out**
(`Session.questions_end`): the target path of every augment starts at the top level of a module and
only goes down, and no choice or case contains itself. Nothing is asked of groupings, leaf
references and identities: however they refer to each other, a search opens a grouping once, and a
chain of leaf references passes a leaf once.

The decisive point is the first question inside another. A path that only goes down meets data
children, of which none is an augment, so **the search for a target asks for no other target**. Once
targets are known to be found or not, everything else ends: look-ups by `Session.ends_childAmong`,
walks because they take one segment after the other, and chains because there are only so many
leaves.
-/

namespace SchemaLink

section

variable {α β : Type} {halt : Halt} {cause : Fault}

theorem ends_ok (a : α) : Ends (.ok a) := by
  intro h
  cases h

theorem ends_fault : Ends (.error (.fault cause) : Except Halt α) := by
  intro h
  cases h

/-- An answer that hands on the halt of another. -/
theorem Ends.of_eq_error {answer : Except Halt α} (h : Ends answer) (heq : answer = .error halt) :
    Ends (.error halt : Except Halt β) := by
  rintro ⟨⟩
  exact h heq

theorem Ends.map {answer : Except Halt α} (h : Ends answer) (f : α → β) : Ends (answer.map f) := by
  rcases answer with halt | a
  · exact h.of_eq_error rfl
  · exact ends_ok _

theorem ends_lift (answer : Except Fault α) : Ends (Halt.lift answer) := by
  cases answer
  · exact ends_fault
  · exact ends_ok _

end

/-- The path to the target of an augment. -/
def Content.targetPath? : Content → Option String
  | augment path _ => some path
  | _ => none

namespace Schema

variable {s : Schema}

/-- The target path of every augment starts at the top level of a module and only goes down. -/
def PlainTargets (s : Schema) : Prop :=
  ∀ a, ∀ path ∈ (s.node a).content.targetPath?,
    (Path.ofString path).absolute = true ∧ Segment.parent ∉ (Path.ofString path).segments

theorem plainTargets_iff :
    s.PlainTargets ↔ ∀ a ∈ s.nodeIds, ∀ path ∈ (s.node a).content.targetPath?,
      (Path.ofString path).absolute = true ∧ Segment.parent ∉ (Path.ofString path).segments := by
  refine ⟨fun h a _ ↦ h a, fun h a path hpath ↦ h a (mem_nodeIds.2 ?_) path hpath⟩
  by_contra hlt
  rw [node_of_size_le (Nat.le_of_not_lt hlt)] at hpath
  cases hpath

instance : Decidable s.PlainTargets :=
  decidable_of_iff _ plainTargets_iff.symm

/-- Where no node contains itself, no choice or case does. -/
theorem Acyclic.branchesAcyclic (h : s.Acyclic) : s.BranchesAcyclic :=
  fun b _ hcycle ↦ h b (Relation.TransGen.mono (fun _ _ ⟨k, _, hc⟩ ↦ ⟨k, hc⟩) _ _ hcycle)

/-- Children that come after the nodes that have them make no circles. -/
theorem acyclic_of_entries_lt
    (h : ∀ a ∈ s.nodeIds, ∀ e ∈ (s.node a).children.entries, a.index < e.2.index) : s.Acyclic := by
  refine acyclic_of_contains_lt fun a b ⟨k, hb⟩ ↦ ?_
  have hmem := Children.mem_slot.1 hb
  refine h a (mem_nodeIds.2 ?_) (k, b) hmem
  by_contra hlt
  rw [node_of_size_le (Nat.le_of_not_lt hlt)] at hmem
  cases hmem

end Schema

namespace Session

variable {x : Session} {target : TargetFinder} {link : LinkFinder} {path : Path} {home : ModuleId}
  {index : Nat} {segments : List Segment} {front : List (Option Position)} {c d : Position}
  {id : NodeId} {P : Position → Prop}

/-! ### Walks -/

/-- From positions of a sort, each segment of a path is found to lead somewhere or not, and leads to
positions of the same sort. -/
structure Confines (x : Session) (target : TargetFinder) (path : Path) (home : ModuleId)
    (P : Position → Prop) : Prop where
  ends : ∀ c, P c → ∀ segment ∈ path.segments, ∀ index,
    Ends (x.moves target path home index c segment)
  stays : ∀ c, P c → ∀ segment ∈ path.segments, ∀ index found,
    x.moves target path home index c segment = .ok found → ∀ d ∈ found, P d

namespace Confines

variable (h : x.Confines target path home P)
include h

/-- **Step.** The front keeps to positions of the sort. -/
theorem advance {segment : Segment} (hsegment : segment ∈ path.segments)
    (hfront : ∀ f ∈ front, ∃ c, f = some c ∧ P c) :
    ∀ f ∈ x.advance target path home index segment front, ∃ c, f = some c ∧ P c := by
  intro f hf
  simp only [Session.advance, List.mem_eraseDups, List.mem_flatMap] at hf
  obtain ⟨f', hf', hf⟩ := hf
  obtain ⟨c, rfl, hc⟩ := hfront f' hf'
  rcases hmoves : x.moves target path home index c segment with (cause | -) | found
  · simp [hmoves] at hf
  · exact absurd hmoves (h.ends c hc segment hsegment index)
  · obtain ⟨d, hd, rfl⟩ : ∃ d ∈ found, some d = f := by simpa [hmoves] using hf
    exact ⟨d, rfl, h.stays c hc segment hsegment index found hmoves d hd⟩

/-- **Run.** So does what is left of it at the end of the path. -/
theorem proceed (hsegments : segments ⊆ path.segments)
    (hfront : ∀ f ∈ front, ∃ c, f = some c ∧ P c) :
    ∀ f ∈ x.proceed target path home segments index front, ∃ c, f = some c ∧ P c := by
  induction segments generalizing index front with
  | nil => exact hfront
  | cons segment rest ih =>
    obtain ⟨hsegment, hrest⟩ := List.cons_subset.1 hsegments
    exact ih hrest (h.advance hsegment hfront)

theorem ends_obstacle (hsegments : segments ⊆ path.segments) (hc : P c) :
    Ends (.error (x.obstacle target path home segments index c) : Except Halt Position) := by
  induction segments generalizing index c with
  | nil => exact ends_fault
  | cons segment rest ih =>
    obtain ⟨hsegment, hrest⟩ := List.cons_subset.1 hsegments
    rw [obstacle]
    split
    · next hmoves => exact (h.ends c hc segment hsegment index).of_eq_error hmoves
    · next found hmoves =>
      refine ih hrest ?_
      rcases List.eq_nil_or_concat found with rfl | ⟨others, d, rfl⟩
      · exact hc
      · rw [List.concat_eq_append, List.getLastD_concat]
        exact h.stays c hc segment hsegment index _ hmoves d (by simp)

/-- **A walk comes to an end.** -/
theorem ends_walk (hc : P c) : Ends (x.walk target path home c) := by
  have hfront : ∀ f ∈ x.proceed target path home path.segments 0 [some c],
      ∃ c, f = some c ∧ P c :=
    h.proceed (List.Subset.refl _) (by simpa using hc)
  unfold walk
  split
  · exact ends_ok _
  · next others heq =>
    obtain ⟨c', hnone, -⟩ := hfront none (by rw [heq]; simp)
    cases hnone
  · exact h.ends_obstacle (List.Subset.refl _) hc

end Confines

theorem ends_startOf {origin : Position} : Ends (x.startOf path home origin) := by
  unfold startOf
  split
  · split
    · exact ends_ok _
    · exact ends_fault
  · exact ends_ok _

theorem ends_arrive {needsValue : Bool} : Ends (x.arrive needsValue path home c) := by
  unfold arrive
  split
  · exact ends_fault
  · split
    · exact ends_fault
    · exact ends_ok _

theorem ends_followBy {needsValue : Bool} {origin : Position}
    (hwalk : ∀ start, x.startOf path home origin = .ok start →
      Ends (x.walk target path home start)) :
    Ends (x.followBy target needsValue path home origin) := by
  unfold followBy
  split
  · exact ends_fault
  · split
    · next hstart => exact ends_startOf.of_eq_error hstart
    · next start hstart =>
      split
      · exact ends_arrive
      · next heq => exact (hwalk start hstart).of_eq_error heq

/-! ### One segment -/

section

variable (htarget : ∀ a, Ends (target a))
include htarget

theorem ends_anchorAt (p : Parent) : Ends (x.anchorAt target p) := by
  unfold anchorAt
  split
  · exact ends_ok _
  · split
    · exact ends_ok _
    · exact ends_ok _
    · exact ends_ok _
    · split
      · exact ends_ok _
      · exact ends_ok _
      · next hunending => exact absurd hunending (htarget _)
    · exact ends_ok _

theorem ends_parentsAt : Ends (x.parentsAt target path home index c) := by
  unfold parentsAt
  split
  · exact ends_fault
  · split
    · next id halt hanchors =>
      unfold anchors at hanchors
      split at hanchors
      · cases hanchors
      · next hanswers =>
        cases hanchors
        obtain ⟨p, -, hp⟩ := exists_of_mapM_eq_error hanswers
        exact (ends_anchorAt htarget p).of_eq_error hp
    · exact ends_fault
    · exact ends_ok _

/-- Whether a node has a place in the data is found out. -/
theorem ends_inDataTreeBy (id : NodeId) : Ends (x.inDataTreeBy target id) := by
  rcases x.inDataTreeBy_cases target id with ⟨hno, -⟩ | ⟨p, -, hverdict⟩
  · rw [hno]
    exact ends_ok _
  · intro hunending
    rw [hunending] at hverdict
    unfold placeVerdict at hverdict
    split at hverdict
    · simp at hverdict
    · split at hverdict
      · split at hverdict
        · next htarget' => exact htarget _ htarget'
        · simp at hverdict
      · simp at hverdict

end

section

variable (hs : x.schema.Filed) (hacyclic : x.schema.BranchesAcyclic)
include hs hacyclic

/-- A child is found or not, if the target is when the position is an augment. -/
theorem ends_childAt {name : String}
    (hc : ∀ id, c = .node id → x.schema.kind id = .augment → Ends (target id)) :
    Ends (x.childAt target c name) := by
  unfold childAt
  split
  · next scopes hscopes =>
    exact ends_childAmong hs hacyclic fun _ ↦ exists_childrenOf_of_mem_scopesAt hscopes
  · next halt hscopes =>
    unfold scopesAt at hscopes
    split at hscopes
    · cases hscopes
    · next id =>
      split at hscopes
      · next hkind =>
        split at hscopes
        · cases hscopes
        · cases hscopes
        · next htarget => exact absurd htarget (hc id rfl hkind)
      · cases hscopes

/-- One segment is taken or not, if the targets are found or not that it asks for. -/
theorem ends_moves {segment : Segment}
    (hc : ∀ id, c = .node id → x.schema.kind id = .augment → Ends (target id))
    (hparent : segment = .parent → ∀ a, Ends (target a)) :
    Ends (x.moves target path home index c segment) := by
  match segment with
  | .current => exact ends_ok _
  | .parent => exact ends_parentsAt (hparent rfl)
  | .step q =>
    refine Ends.map ?_ _
    unfold stepTo
    split
    · exact ends_fault
    · split
      · next hchild => exact (ends_childAt hs hacyclic hc).of_eq_error hchild
      · exact ends_ok _
      · exact ends_fault

/-! ### Targets -/

/-- **A path that only goes down asks for no target**: it meets nodes that are found by their names,
and augments are not. -/
theorem confines_of_plain (target : TargetFinder) (home : ModuleId)
    (hpath : Segment.parent ∉ path.segments) :
    x.Confines target path home fun c ↦ ∀ id, c = .node id → x.schema.kind id ≠ .augment where
  ends := by
    intro c hc segment hsegment index
    refine ends_moves hs hacyclic (fun id hid hkind ↦ absurd hkind (hc id hid)) ?_
    rintro rfl
    exact absurd hsegment hpath
  stays := by
    intro c hc segment hsegment index found hmoves d hd id hid
    match segment with
    | .current =>
      obtain rfl : [c] = found := by simpa [moves] using hmoves
      exact hc id (List.mem_singleton.1 hd ▸ hid)
    | .parent => exact absurd hsegment hpath
    | .step q =>
      rcases hstep : x.stepTo target path home index q c with halt | id'
      · simp [moves, hstep, Except.map] at hmoves
      · obtain rfl : [Position.node id'] = found := by simpa [moves, hstep, Except.map] using hmoves
        obtain rfl : id = id' := by simpa [hid] using hd
        -- a node that is found by its name is of a kind that appears in data
        obtain ⟨p, k, hk, hmem⟩ := exists_slot_of_childAt ((stepTo_eq_ok_iff path index).1 hstep).2
        rw [hs p k _ hmem]
        rintro rfl
        simp [Kind.dataKinds] at hk

variable (htargets : x.schema.PlainTargets)
include htargets

/-- The target of an augment is found or not, whatever is asked for targets within. -/
theorem ends_targetWithin (n : Nat) (a : NodeId) : Ends (x.targetWithin (n + 1) a) := by
  rw [targetWithin]
  split
  · exact ends_ok _
  · split
    · next written children hcontent =>
      obtain ⟨habsolute, hparent⟩ := htargets a written (by rw [hcontent]; rfl)
      refine ends_followBy fun start hstart ↦
        (confines_of_plain hs hacyclic _ _ hparent).ends_walk fun id hid ↦ ?_
      simp only [startOf, if_pos habsolute] at hstart
      split at hstart <;> simp [hid] at hstart
    · exact ends_fault

theorem ends_targetOf (a : NodeId) : Ends (x.targetOf a) :=
  ends_targetWithin hs hacyclic htargets _ a

/-! ### Questions -/

/-- A path is followed to an end or not. -/
theorem ends_followByTargetOf {needsValue : Bool} {origin : Position} :
    Ends (x.followBy x.targetOf needsValue path home origin) := by
  have htarget := ends_targetOf hs hacyclic htargets
  have hconfines : x.Confines x.targetOf path home fun _ ↦ True :=
    { ends := fun c _ segment _ index ↦
        ends_moves hs hacyclic (fun id _ _ ↦ htarget id) fun _ ↦ htarget
      stays := fun _ _ _ _ _ _ _ _ _ ↦ trivial }
  exact ends_followBy fun start _ ↦ hconfines.ends_walk trivial

end

/-! ### Chains -/

/-- **A chain comes to an end** if every path on it does. -/
theorem GoodLinks.ends_referentBy (hlink : x.GoodLinks link)
    (hends : ∀ leaf written, Ends (link leaf written)) (written : String) (origin : NodeId) :
    Ends (x.referentBy link written origin) := by
  generalize hanswer : x.referentBy link written origin = answer
  obtain ⟨leaves, last, rest, -, -, hend⟩ := hlink.referentBy_eq_iff.1 hanswer
  cases hend with
  | fails hfails => exact (hends _ _).of_eq_error hfails
  | returns _ _ => exact ends_fault
  | arrives _ _ _ => exact ends_ok _

/-! ### Names of types -/

section

variable (hreferent : ∀ written origin, Ends (x.referentBy link written origin))
include hreferent

theorem ends_typeReferent (ty : NodeId) (spec : TypeBody) :
    Ends (x.typeReferent link ty spec) := by
  unfold typeReferent
  split
  · exact hreferent _ _
  · exact ends_fault

theorem ends_valueTypeNameBy (id : NodeId) : Ends (x.valueTypeNameBy link id) := by
  unfold valueTypeNameBy
  split
  · exact ends_fault
  · split
    · split
      · exact ends_lift _
      · next heq => exact (ends_typeReferent hreferent _ _).of_eq_error heq
    · exact ends_lift _

theorem ends_writtenTypeNameBy (id : NodeId) : Ends (x.writtenTypeNameBy link id) := by
  unfold writtenTypeNameBy
  split
  · exact ends_fault
  · split
    · split
      · exact ends_lift _
      · next heq => exact (ends_typeReferent hreferent _ _).of_eq_error heq
    · split
      · exact ends_lift _
      · exact ends_ok _

end

/-! ### All questions -/

/-- Every question is answered: where any path leads, from any node or module, where any chain of
leaf references ends, whether any node has a place in the data, and what the type of any node is
called. -/
structure Answers (x : Session) : Prop where
  followFrom : ∀ needsValue path origin, Ends (x.followFrom needsValue path origin)
  followIn : ∀ needsValue path m, Ends (x.followIn needsValue path m)
  referent : ∀ path origin, Ends (x.referent path origin)
  inDataTree : ∀ id, Ends (x.inDataTree id)
  valueTypeName : ∀ id, Ends (x.valueTypeName id)
  writtenTypeName : ∀ id, Ends (x.writtenTypeName id)

theorem answers_of_plainTargets (hs : x.schema.Filed) (htargets : x.schema.PlainTargets)
    (hacyclic : x.schema.BranchesAcyclic) : x.Answers :=
  have hfollow (needsValue : Bool) (path : String) (origin : NodeId) :
      Ends (x.followFrom needsValue path origin) :=
    ends_followByTargetOf hs hacyclic htargets
  have hreferent : ∀ path origin, Ends (x.referentBy x.followLink path origin) :=
    goodLinks_followLink.ends_referentBy fun leaf written ↦ hfollow true written leaf
  { followFrom := hfollow
    followIn := fun _ _ _ ↦ ends_followByTargetOf hs hacyclic htargets
    referent := hreferent
    inDataTree := ends_inDataTreeBy (ends_targetOf hs hacyclic htargets)
    valueTypeName := ends_valueTypeNameBy hreferent
    writtenTypeName := ends_writtenTypeNameBy hreferent }

/-- Whatever a session has been asked for, children are in the collections of their kinds. -/
theorem filed_performAll {s : Schema} {docs : List Document}
    (hdocs : Schema.ofDocuments docs = .ok s) {policy : Policy} (hx : start s policy = .ok x)
    (requests : List Request) : (x.performAll requests).schema.Filed := by
  have hs := Schema.tidy_of_ofDocuments hdocs
  exact ((enriched_performAll hs hx requests).coherent hs
    (Schema.framed_of_ofDocuments hdocs)).filed

/-- **So every question about a session that documents and requests lead to is answered** if the
target paths of its augments are absolute and without `..`, and no choice or case contains
itself. -/
theorem answers_performAll {s : Schema} {docs : List Document}
    (hdocs : Schema.ofDocuments docs = .ok s) {policy : Policy} (hx : start s policy = .ok x)
    (requests : List Request) (htargets : (x.performAll requests).schema.PlainTargets)
    (hacyclic : (x.performAll requests).schema.BranchesAcyclic) : (x.performAll requests).Answers :=
  answers_of_plainTargets (filed_performAll hdocs hx requests) htargets hacyclic

/-- **Every question comes to an end.** In a session in which the target paths of augments are
absolute and without `..`, and in which no choice or case contains itself, it is found out where any
path leads, from any node or module, where any chain of leaf references ends, whether any node has
a place in the data, and what the type of any node is called. -/
theorem questions_end (hs : x.schema.Filed) (htargets : x.schema.PlainTargets)
    (hacyclic : x.schema.BranchesAcyclic) :
    (∀ needsValue path origin, Ends (x.followFrom needsValue path origin)) ∧
      (∀ needsValue path m, Ends (x.followIn needsValue path m)) ∧
      (∀ path origin, Ends (x.referent path origin)) ∧
      (∀ id, Ends (x.inDataTree id)) ∧
      ∀ id, Ends (x.valueTypeName id) ∧ Ends (x.writtenTypeName id) := by
  have h := answers_of_plainTargets hs htargets hacyclic
  exact ⟨h.followFrom, h.followIn, h.referent, h.inDataTree,
    fun id ↦ ⟨h.valueTypeName id, h.writtenTypeName id⟩⟩

/-- Groupings that use each other, leaf references and identities that refer to each other, and an
augment. -/
def tangled : List Document :=
  [.module
    { name := "m", ownPrefix := "m", space := "urn:m"
      body := [
        .block .grouping "left" none [
          .uses "right",
          .block .choice "side" none [.block .case "inner" none [
            .typed .leaf "here" none { name := "leafref", path := some "../there" }]]],
        .block .grouping "right" none [
          .uses "left",
          .typed .leaf "there" none { name := "leafref", path := some "../here" }],
        .block .container "box" none [.uses "left"],
        .augment "/m:box" none [
          .typed .leaf "form" none { name := "identityref", base := some "shape" }],
        .identity "shape" none ["outline"],
        .identity "outline" none ["shape"]] }]

theorem questions_end_tangled :
    ∃ s x, Schema.ofDocuments tangled = .ok s ∧ start s .strict = .ok x ∧
      let y := x.performAll [.augments ⟨0⟩]
      y.mergedTarget? ⟨12⟩ = some ⟨10⟩ ∧ y.schema.Filed ∧ y.schema.PlainTargets ∧
        y.schema.BranchesAcyclic ∧ Ends (y.followFrom true "../here" ⟨8⟩) ∧
        Ends (y.referent "../there" ⟨4⟩) ∧ Ends (y.inDataTree ⟨4⟩) ∧
        Ends (y.valueTypeName ⟨13⟩) := by
  obtain ⟨x, hx, hmerged, htargets, hcontains⟩ :
      ∃ x, start (Schema.ofBatch tangled) .strict = .ok x ∧
        (x.performAll [.augments ⟨0⟩]).mergedTarget? ⟨12⟩ = some ⟨10⟩ ∧
        (x.performAll [.augments ⟨0⟩]).schema.PlainTargets ∧
        ∀ a ∈ (x.performAll [.augments ⟨0⟩]).schema.nodeIds,
          ∀ e ∈ ((x.performAll [.augments ⟨0⟩]).schema.node a).children.entries,
            a.index < e.2.index :=
    exists_ok_of_any (by decide +kernel)
  have hdocs : Schema.ofDocuments tangled = .ok (Schema.ofBatch tangled) :=
    Schema.ofDocuments_of_offences_eq_nil rfl
  have hs := filed_performAll hdocs hx [.augments ⟨0⟩]
  have hacyclic := (Schema.acyclic_of_entries_lt hcontains).branchesAcyclic
  obtain ⟨hfollow, -, hreferent, hplace, hname⟩ :=
    questions_end hs htargets hacyclic
  exact ⟨_, x, hdocs, hx, hmerged, hs, htargets, hacyclic, hfollow _ _ _, hreferent _ _, hplace _,
    (hname _).1⟩

/-- An augment whose target path starts at the augment itself: its target is looked for among the
children of its target. -/
def circling : List Document :=
  [.module
    { name := "m", ownPrefix := "m", space := "urn:m"
      body := [.augment "lid" none [.block .container "lid" none []]] }]

example : (start (Schema.ofBatch circling) .strict).toOption.map (·.inDataTree ⟨1⟩) =
    some (.error .unending) := by
  decide +kernel

/-- A grouping holds an augment in which it is used, and is used in a container, too. The target
path of the augment climbs out of the grouping, by way of that same augment. -/
def roundabout : List Document :=
  [.module
    { name := "m", ownPrefix := "m", space := "urn:m"
      body := [
        .block .grouping "g" none
          [.block .container "n" none [], .augment "../x" none [.uses "g"]],
        .block .container "c" none [.uses "g"]] }]

end Session

end SchemaLink
