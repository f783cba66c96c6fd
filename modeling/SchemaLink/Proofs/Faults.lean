import SchemaLink.Resolution
import SchemaLink.Proofs.Anchors
import SchemaLink.Proofs.Contributions

/-!
# The faults that questions end in

Fatal faults concern a whole batch, and a run cannot pass over them. **No question about a node of a
lowered schema ends in a fatal fault** (`Mild`): prefixes and references that denote nothing, paths
that lead nowhere and chains that run in circles are matters of one node.

There are two exceptions in general: a node that is asked for its type and has none, and a node that
is asked for its target and is no augment. The first does not arise where types are where handles
say they are (`Schema.TypesFit`), nor the second for nodes among the augments of a module.

Following a path meets even fewer faults (`Fault.OnPath`): what is wrong is a prefix, or the path
itself. In particular a path is never said to run in a circle; only chains of paths are.
-/

namespace SchemaLink

/-- An answer that is prevented by faults of one sort only. -/
def FailsBy {α : Type} (P : Fault → Prop) (answer : Except Halt α) : Prop :=
  ∀ cause, answer = .error (.fault cause) → P cause

/-- An answer that is prevented by no fatal fault. -/
def Mild {α : Type} (answer : Except Halt α) : Prop :=
  FailsBy (fun cause ↦ cause.fatal = false) answer

/-- The faults that can end a path: a prefix denotes nothing, or the path leads nowhere. -/
def Fault.OnPath : Fault → Prop
  | unknownPrefix .. | unknownModule .. | unresolvedPath .. => True
  | _ => False

section

variable {α β : Type} {P Q : Fault → Prop} {cause : Fault} {halt : Halt}

theorem failsBy_ok (a : α) : FailsBy P (.ok a) := by
  intro cause h
  cases h

theorem failsBy_fault (h : P cause) : FailsBy P (.error (.fault cause) : Except Halt α) := by
  rintro _ ⟨⟩
  exact h

theorem failsBy_unending : FailsBy P (.error .unending : Except Halt α) := by
  intro cause h
  cases h

namespace FailsBy

theorem mono {answer : Except Halt α} (h : FailsBy P answer) (himp : ∀ cause, P cause → Q cause) :
    FailsBy Q answer :=
  fun cause heq ↦ himp cause (h cause heq)

/-- An answer that hands on the halt of another. -/
theorem of_eq_error {answer : Except Halt α} (h : FailsBy P answer) (heq : answer = .error halt) :
    FailsBy P (.error halt : Except Halt β) := by
  rintro cause ⟨⟩
  exact h cause heq

/-- An answer that hands on the fault of another. -/
theorem of_eq_fault {answer : Except Fault α} (h : FailsBy P (Halt.lift answer))
    (heq : answer = .error cause) : FailsBy P (.error (.fault cause) : Except Halt β) :=
  failsBy_fault (h cause (by rw [heq]; rfl))

theorem map {answer : Except Halt α} (h : FailsBy P answer) (f : α → β) :
    FailsBy P (answer.map f) := by
  rcases answer with halt | a
  · exact h.of_eq_error rfl
  · exact failsBy_ok _

theorem map_lift {answer : Except Fault α} (h : FailsBy P (Halt.lift answer)) (f : α → β) :
    FailsBy P (Halt.lift (answer.map f)) := by
  rcases answer with fault | a
  · exact h.of_eq_fault rfl
  · exact failsBy_ok _

end FailsBy

theorem Fault.OnPath.not_fatal (h : cause.OnPath) : cause.fatal = false := by
  cases cause <;> simp_all [OnPath, fatal]

end

variable {r : Registry} {s : Schema} {home : ModuleId} {written : String} {id : NodeId}

namespace Registry

/-! ### References -/

theorem onPath_moduleFor : FailsBy Fault.OnPath (Halt.lift (r.moduleFor s home written)) := by
  simp only [moduleFor]
  split
  · exact failsBy_ok _
  · split
    · exact failsBy_fault trivial
    · split
      · exact failsBy_fault trivial
      · exact failsBy_ok _

theorem mild_moduleFor : Mild (Halt.lift (r.moduleFor s home written)) :=
  onPath_moduleFor.mono fun _ ↦ Fault.OnPath.not_fatal

theorem mild_groupingOf : Mild (Halt.lift (r.groupingOf s id)) := by
  rw [groupingOf, groupingCalled]
  split
  · next hmodule => exact mild_moduleFor.of_eq_fault hmodule
  · split
    · exact failsBy_ok _
    · exact failsBy_fault rfl

/-- Uses that refer to nothing are no reason to stop. -/
theorem fatal_of_mem_failures {children : Children} {f : NodeId × Fault}
    (h : f ∈ (r.contribution s children).failures) : f.2.fatal = false := by
  obtain ⟨u, -, hu⟩ := List.mem_filterMap.1 h
  unfold usesFault? at hu
  split at hu
  · next fault _ hgrouping =>
    obtain rfl := Option.some.inj hu
    exact mild_groupingOf fault (by rw [hgrouping]; rfl)
  · simp at hu

theorem mild_identityNamed? : Mild (Halt.lift (r.identityNamed? s home written)) := by
  simp only [identityNamed?]
  split
  · next hmodule => exact mild_moduleFor.of_eq_fault hmodule
  · exact failsBy_ok _

theorem mild_generatedName : Mild (Halt.lift (r.generatedName s home written)) := by
  simp only [generatedName]
  split
  · exact failsBy_ok _
  · split
    · exact failsBy_ok _
    · next hmodule => exact mild_moduleFor.of_eq_fault hmodule

end Registry

namespace Session

variable {x : Session} {target : TargetFinder} {link : LinkFinder} {path : Path} {index : Nat}

/-! ### Identities -/

theorem mild_baseOf : Mild (Halt.lift (x.baseOf id written)) := by
  unfold baseOf
  split
  · next hnamed => exact Registry.mild_identityNamed?.of_eq_fault hnamed
  · exact failsBy_ok _
  · exact failsBy_fault rfl

theorem mild_nextBase : Mild (Halt.lift (x.nextBase id)) := by
  unfold nextBase
  split
  · exact failsBy_ok _
  · exact mild_baseOf.map_lift some

theorem mild_ancestryFrom (n : Nat) (passed : List NodeId) (current : NodeId) :
    Mild (Halt.lift (x.ancestryFrom id n passed current)) := by
  induction n generalizing passed current with
  | zero => exact failsBy_ok _
  | succ n ih =>
    rw [ancestryFrom]
    split
    · next hbase => exact mild_nextBase.of_eq_fault hbase
    · exact failsBy_ok _
    · split
      · exact failsBy_fault rfl
      · exact ih _ _

theorem mild_ancestry : Mild (Halt.lift (x.ancestry id)) := by
  unfold ancestry
  split
  · exact failsBy_ok _
  · next hfrom => exact (mild_ancestryFrom _ _ _).of_eq_fault hfrom

theorem mild_entryFor (base ancestor : NodeId) :
    Mild (Halt.lift (x.entryFor id base ancestor)) := by
  unfold entryFor
  split
  · next hname => exact Registry.mild_generatedName.of_eq_fault hname
  · exact failsBy_ok _

/-! ### Walks -/

theorem onPath_pathFault {α : Type} {reason : String} :
    FailsBy Fault.OnPath (.error (x.pathFault path home index reason) : Except Halt α) :=
  failsBy_fault trivial

theorem onPath_childAt {c : Position} {name : String} :
    FailsBy Fault.OnPath (x.childAt target c name) := by
  unfold childAt
  split
  · simp only [childAmong]
    split
    · exact failsBy_ok _
    · split
      · exact failsBy_ok _
      · exact failsBy_unending
  · next halt hscopes =>
    -- a target that is not found leaves no scopes, and only an endless search is handed on
    unfold scopesAt at hscopes
    split at hscopes
    · cases hscopes
    · split at hscopes
      · split at hscopes
        · cases hscopes
        · cases hscopes
        · cases hscopes
          exact failsBy_unending
      · cases hscopes

theorem onPath_stepTo {q : QName} {c : Position} :
    FailsBy Fault.OnPath (x.stepTo target path home index q c) := by
  unfold stepTo
  split
  · next hqualifier =>
    rcases hq : q.qualifier with - | written
    · simp [hq] at hqualifier
    · rw [hq] at hqualifier
      exact Registry.onPath_moduleFor.of_eq_fault hqualifier
  · split
    · next hchild => exact onPath_childAt.of_eq_error hchild
    · exact failsBy_ok _
    · exact onPath_pathFault

theorem onPath_parentsAt {c : Position} :
    FailsBy Fault.OnPath (x.parentsAt target path home index c) := by
  unfold parentsAt
  split
  · exact onPath_pathFault
  · split
    · next hanchors =>
      rw [anchors_eq_error hanchors]
      exact failsBy_unending
    · exact onPath_pathFault
    · exact failsBy_ok _

theorem onPath_moves {c : Position} {segment : Segment} :
    FailsBy Fault.OnPath (x.moves target path home index c segment) := by
  match segment with
  | .current => exact failsBy_ok _
  | .parent => exact onPath_parentsAt
  | .step q => exact onPath_stepTo.map _

theorem onPath_obstacle (segments : List Segment) (index : Nat) (c : Position) :
    FailsBy Fault.OnPath
      (.error (x.obstacle target path home segments index c) : Except Halt Position) := by
  induction segments generalizing index c with
  | nil => exact onPath_pathFault
  | cons segment rest ih =>
    rw [obstacle]
    split
    · next hmoves => exact onPath_moves.of_eq_error hmoves
    · exact ih _ _

theorem onPath_walk {start : Position} : FailsBy Fault.OnPath (x.walk target path home start) := by
  unfold walk
  split
  · exact failsBy_ok _
  · exact failsBy_unending
  · exact onPath_obstacle _ _ _

theorem onPath_startOf {origin : Position} : FailsBy Fault.OnPath (x.startOf path home origin) := by
  unfold startOf
  split
  · split
    · exact failsBy_ok _
    · next hmodule => exact Registry.onPath_moduleFor.of_eq_fault hmodule
  · exact failsBy_ok _

theorem onPath_arrive {needsValue : Bool} {c : Position} :
    FailsBy Fault.OnPath (x.arrive needsValue path home c) := by
  unfold arrive
  split
  · exact onPath_pathFault
  · split
    · exact onPath_pathFault
    · exact failsBy_ok _

/-- **What is wrong with a path** is a prefix or the path itself. -/
theorem onPath_followFrom {needsValue : Bool} {origin : NodeId} :
    FailsBy Fault.OnPath (x.followFrom needsValue written origin) := by
  simp only [followFrom, followFromBy, followBy]
  split
  · exact onPath_pathFault
  · split
    · next hstart => exact onPath_startOf.of_eq_error hstart
    · split
      · exact onPath_arrive
      · next hwalk => exact onPath_walk.of_eq_error hwalk

/-- **Paths do not end in fatal faults.** -/
theorem mild_followFrom {needsValue : Bool} {origin : NodeId} :
    Mild (x.followFrom needsValue written origin) :=
  onPath_followFrom.mono fun _ ↦ Fault.OnPath.not_fatal

/-- A path that must lead to a value does. -/
theorem holdsValue_of_followFrom {origin : NodeId} (h : x.followFrom true written origin = .ok id) :
    (x.schema.kind id).holdsValue = true := by
  simp only [followFrom, followFromBy, followBy] at h
  split at h
  · cases h
  · split at h
    · cases h
    · split at h
      · next c hwalk =>
        unfold arrive at h
        split at h
        · cases h
        · split at h
          · cases h
          · next hvalue =>
            cases h
            simpa using hvalue
      · cases h

/-! ### Places -/

/-- Whether a node has a place is only left open by a search that never ends. -/
theorem inDataTree_eq_error {halt : Halt} (h : x.inDataTree id = .error halt) :
    halt = .unending := by
  simp only [inDataTree, inDataTreeBy] at h
  rcases hverdict : (x.schema.searchParents (x.placeStep x.targetOf)
    (x.schema.node (x.schema.carrier id)).parent).findSome? (x.placeVerdict x.targetOf) with
    - | verdict
  · simp [hverdict] at h
  · obtain rfl : verdict = .error halt := by simpa [hverdict] using h
    obtain ⟨p, -, hp⟩ := List.exists_of_findSome?_eq_some hverdict
    unfold placeVerdict at hp
    split at hp
    · cases hp
    · split at hp
      · split at hp
        · cases hp
          rfl
        · cases hp
      · cases hp

theorem selectM_eq_error {question : NodeId → Except Halt Bool} {ids : List NodeId} {halt : Halt}
    (h : selectM question ids = .error halt) : ∃ id ∈ ids, question id = .error halt := by
  induction ids with
  | nil => cases h
  | cons id rest ih =>
    rw [selectM] at h
    split at h
    · next hid =>
      cases h
      exact ⟨id, by simp, hid⟩
    · split at h
      · next hrest =>
        cases h
        obtain ⟨b, hb, hquestion⟩ := ih hrest
        exact ⟨b, by simp [hb], hquestion⟩
      · cases h

theorem placedTypedNodes_eq_error {halt : Halt} (h : x.placedTypedNodes = .error halt) :
    halt = .unending := by
  obtain ⟨id, -, hid⟩ := selectM_eq_error h
  exact inDataTree_eq_error hid

/-! ### Chains -/

/-- Links as paths of leaf references have them: they end in no fatal faults, and lead to values. -/
structure GoodLinks (x : Session) (link : LinkFinder) : Prop where
  mild : ∀ leaf written, Mild (link leaf written)
  holdsValue : ∀ leaf written id, link leaf written = .ok id →
    (x.schema.kind id).holdsValue = true

theorem goodLinks_followLink : x.GoodLinks x.followLink where
  mild := fun _ _ ↦ mild_followFrom
  holdsValue := fun _ _ _ ↦ holdsValue_of_followFrom

namespace GoodLinks

variable (hlink : x.GoodLinks link)
include hlink

theorem mild_chase (n : Nat) (passed : List NodeId) (origin : NodeId) (written : String) :
    Mild (x.chase link n passed origin written) := by
  induction n generalizing passed origin written with
  | zero => exact failsBy_unending
  | succ n ih =>
    rw [chase]
    split
    · next hstep => exact (hlink.mild _ _).of_eq_error hstep
    · split
      · exact failsBy_fault rfl
      · split
        · exact failsBy_ok _
        · exact ih _ _ _

/-- A chain ends at the end of a link. -/
theorem holdsValue_of_chase {n : Nat} {passed : List NodeId} {origin : NodeId} {written : String}
    (h : x.chase link n passed origin written = .ok id) :
    (x.schema.kind id).holdsValue = true := by
  induction n generalizing passed origin written with
  | zero => cases h
  | succ n ih =>
    rw [chase] at h
    split at h
    · cases h
    · next leaf hstep =>
      split at h
      · cases h
      · split at h
        · cases h
          exact hlink.holdsValue _ _ _ hstep
        · exact ih h

end GoodLinks

/-! ### Names of types -/

theorem mild_referenceBase (spec : TypeBody) : Mild (Halt.lift (x.referenceBase id spec)) := by
  simp only [referenceBase]
  split
  · exact failsBy_fault rfl
  · split
    · next hnamed => exact Registry.mild_identityNamed?.of_eq_fault hnamed
    · exact failsBy_fault rfl
    · exact failsBy_ok _

theorem mild_builtinName (spec : TypeBody) : Mild (Halt.lift (x.builtinName id spec)) := by
  unfold builtinName
  split
  · exact Registry.mild_generatedName.map_lift _
  · split
    · exact Registry.mild_generatedName
    · exact failsBy_ok _

theorem mild_directName (spec : TypeBody) : Mild (Halt.lift (x.directName id spec)) := by
  simp only [directName]
  split
  · exact failsBy_fault rfl
  · split
    · split
      · exact Registry.mild_generatedName
      · next hbase => exact (mild_referenceBase spec).of_eq_fault hbase
    · split
      · exact mild_builtinName spec
      · exact Registry.mild_generatedName

theorem isSome_typeHandle?_of_holdsValue {n : Node} (h : n.kind.holdsValue = true) :
    n.content.typeHandle?.isSome = true := by
  rcases hc : n.content with ⟨k, _⟩ | _ | _ | _ | _ | _
  case block => cases k <;> simp [Node.kind, hc, Content.kind, BlockKind.kind, Kind.holdsValue] at h
  all_goals simp_all [Node.kind, Content.kind, Content.typeHandle?, Kind.holdsValue]

/-- A typed node has its type where its handle says. -/
theorem ownType_of_typeHandle? {ty : NodeId} {spec : TypeBody}
    (hty : (x.schema.node id).content.typeHandle? = some ty)
    (hspec : (x.schema.node ty).content.describedType? = some spec) :
    x.ownType id = .ok (ty, spec) := by
  obtain ⟨k, hc⟩ := Content.exists_typed_of_typeHandle? hty
  simp [ownType, hc, Content.typeHandle?, hspec]

theorem exists_ownType (hfit : x.schema.TypesFit)
    (hid : (x.schema.node id).content.typeHandle?.isSome = true) :
    ∃ found, x.ownType id = .ok found := by
  obtain ⟨t, ht⟩ := Option.isSome_iff_exists.1 hid
  obtain ⟨spec, hspec⟩ := Option.isSome_iff_exists.1 (hfit id t ht).1
  exact ⟨(t, spec), ownType_of_typeHandle? ht hspec⟩

theorem mild_ownValueName (hfit : x.schema.TypesFit)
    (hid : (x.schema.node id).content.typeHandle?.isSome = true) :
    Mild (Halt.lift (x.ownValueName id)) := by
  obtain ⟨found, hown⟩ := exists_ownType hfit hid
  rw [ownValueName, hown]
  exact mild_directName _

/-- **Naming a type does not end in a fatal fault.** -/
theorem mild_valueTypeNameBy (hfit : x.schema.TypesFit) (hlink : x.GoodLinks link)
    (hid : (x.schema.node id).content.typeHandle?.isSome = true) :
    Mild (x.valueTypeNameBy link id) := by
  obtain ⟨⟨ty, spec⟩, hown⟩ := exists_ownType hfit hid
  simp only [valueTypeNameBy, hown, typeReferent]
  split
  · rcases hpath : spec.path with - | path
    · exact failsBy_fault rfl
    · simp only
      split
      · next leaf hreferent =>
        -- the referent holds a value, so it has a type of its own
        have hvalue := hlink.holdsValue_of_chase hreferent
        exact mild_ownValueName hfit (isSome_typeHandle?_of_holdsValue hvalue)
      · next hreferent => exact (hlink.mild_chase _ _ _ _).of_eq_error hreferent
  · exact mild_directName spec

/-! ### Plans to merge -/

/-- An augment is asked for its target, and so there is no fatal fault. -/
theorem mild_mergePlan (hkind : x.schema.kind id = .augment) : Mild (x.mergePlan id) := by
  simp only [mergePlan]
  split
  · split
    · next hfollow => exact mild_followFrom.of_eq_error hfollow
    · split
      · exact failsBy_ok _
      · exact failsBy_fault rfl
  · next hcontent =>
    have hkind : (x.schema.node id).content.kind = .augment := hkind
    rcases hc : (x.schema.node id).content with ⟨k, _⟩ | ⟨path, children⟩ | _ | ⟨k, _⟩ | _ | _
    case augment => exact absurd hc (hcontent path children)
    case block => cases k <;> simp [hc, Content.kind, BlockKind.kind] at hkind
    case typed => cases k <;> simp [hc, Content.kind, TypedKind.kind] at hkind
    all_goals simp [hc, Content.kind] at hkind

end Session

end SchemaLink
