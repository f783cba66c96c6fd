import SchemaLink.Resolution

/-!
# Questions do not depend on policy and diagnostics

Whatever is asked of a session is answered by its schema, registry, usages and targets.
`Session.under` exchanges the other two things, policy and diagnostics, and **no answer changes by
that**. So two runs that differ in their policy get the same answers as long as they agree
otherwise, and a table of answers stays good while items are noted.

Of the targets only what is recorded for each augment matters, not in which order it was recorded.
So the part that is about paths is shown of `Session.recast`, which exchanges the whole record of
what a session has done.

Most answers are the same by definition. Where a question recurs, the induction follows its
recursion: on the depth of a sweep, the segments of a path, the number of questions within each
other, and the lengths of chains.
-/

namespace SchemaLink

namespace Session

/-- A session with another policy and other diagnostics. -/
def under (x : Session) (policy : Policy) (ds : Diagnostics) : Session :=
  { x with policy, diagnostics := ds }

/-- A session with another policy and another record of what has been done. -/
def recast (x : Session) (policy : Policy) (ds : Diagnostics) (targets : List (NodeId × NodeId))
    (groupings : List NodeId) : Session :=
  { x with policy, diagnostics := ds, targets, mergedGroupings := groupings }

variable (x : Session) (policy : Policy) (ds : Diagnostics) (target : TargetFinder)
  (targets : List (NodeId × NodeId)) (groupings : List NodeId)

@[simp] theorem schema_under : (x.under policy ds).schema = x.schema :=
  rfl

@[simp] theorem registry_under : (x.under policy ds).registry = x.registry :=
  rfl

/-! ### Children -/

theorem sweep_recast (name : String) (depth : Nat) (trail : List NodeId) (scopes : List Children)
    (w : Sweep) :
    (x.recast policy ds targets groupings).sweep name depth trail scopes w =
      x.sweep name depth trail scopes w := by
  induction depth generalizing trail scopes w with
  | zero => rfl
  | succ depth ih =>
    have hdeeper : (x.recast policy ds targets groupings).sweep name depth =
        x.sweep name depth := by
      funext trail scopes w
      exact ih trail scopes w
    rw [sweep, hdeeper, sweep]
    rfl

theorem childAt_recast (c : Position) (name : String) :
    (x.recast policy ds targets groupings).childAt target c name = x.childAt target c name := by
  have hamong (scopes : List Children) :
      (x.recast policy ds targets groupings).childAmong scopes name =
        x.childAmong scopes name := by
    simp only [childAmong, sweep_recast]
    rfl
  simp only [childAt, hamong]
  rfl

/-! ### Walks -/

theorem moves_recast (path : Path) (home : ModuleId) (index : Nat) (c : Position)
    (segment : Segment) :
    (x.recast policy ds targets groupings).moves target path home index c segment =
      x.moves target path home index c segment := by
  rcases segment with - | - | q
  · rfl
  · rfl
  · simp only [moves, stepTo, childAt_recast]
    rfl

theorem proceed_recast (path : Path) (home : ModuleId) (segments : List Segment) (index : Nat)
    (front : List (Option Position)) :
    (x.recast policy ds targets groupings).proceed target path home segments index front =
      x.proceed target path home segments index front := by
  induction segments generalizing index front with
  | nil => rfl
  | cons segment rest ih => simp only [proceed, ih, advance, moves_recast]

theorem obstacle_recast (path : Path) (home : ModuleId) (segments : List Segment) (index : Nat)
    (c : Position) :
    (x.recast policy ds targets groupings).obstacle target path home segments index c =
      x.obstacle target path home segments index c := by
  induction segments generalizing index c with
  | nil => rfl
  | cons segment rest ih => simp only [obstacle, ih, moves_recast]

theorem walk_recast (path : Path) (home : ModuleId) (start : Position) :
    (x.recast policy ds targets groupings).walk target path home start =
      x.walk target path home start := by
  rw [walk, proceed_recast, obstacle_recast, walk]

theorem pathFault_recast (path : Path) (home : ModuleId) (index : Nat) (reason : String) :
    (x.recast policy ds targets groupings).pathFault path home index reason =
      x.pathFault path home index reason :=
  rfl

theorem startOf_recast (path : Path) (home : ModuleId) (origin : Position) :
    (x.recast policy ds targets groupings).startOf path home origin =
      x.startOf path home origin :=
  rfl

theorem arrive_recast (needsValue : Bool) (path : Path) (home : ModuleId) :
    (x.recast policy ds targets groupings).arrive needsValue path home =
      x.arrive needsValue path home :=
  rfl

theorem followFromBy_recast (needsValue : Bool) (path : String) (origin : NodeId) :
    (x.recast policy ds targets groupings).followFromBy target needsValue path origin =
      x.followFromBy target needsValue path origin := by
  have hschema : (x.recast policy ds targets groupings).schema = x.schema := rfl
  simp only [followFromBy, followBy, pathFault_recast, startOf_recast, walk_recast,
    arrive_recast, hschema]

section

variable {x targets} (h : ∀ a, targets.lookup a = x.mergedTarget? a)
include h

theorem targetWithin_recast (n : Nat) :
    (x.recast policy ds targets groupings).targetWithin n = x.targetWithin n := by
  induction n with
  | zero => rfl
  | succ n ih =>
    funext augment
    have hrecorded : (x.recast policy ds targets groupings).mergedTarget? augment =
        x.mergedTarget? augment := h augment
    simp only [targetWithin, ih, followFromBy_recast, hrecorded]
    rfl

/-- **A path leads where it led** as long as the same targets are recorded. -/
theorem followFrom_recast (needsValue : Bool) (path : String) (origin : NodeId) :
    (x.recast policy ds targets groupings).followFrom needsValue path origin =
      x.followFrom needsValue path origin := by
  have htarget : (x.recast policy ds targets groupings).targetOf = x.targetOf := by
    funext augment
    rw [targetOf, targetWithin_recast policy ds groupings h, targetOf]
    rfl
  rw [followFrom, htarget, followFromBy_recast, followFrom]

end

theorem targetOf_under : (x.under policy ds).targetOf = x.targetOf := by
  funext augment
  exact congrFun (targetWithin_recast policy ds x.mergedGroupings (fun _ ↦ rfl) _) augment

theorem followFrom_under (needsValue : Bool) (path : String) (origin : NodeId) :
    (x.under policy ds).followFrom needsValue path origin =
      x.followFrom needsValue path origin :=
  followFrom_recast policy ds x.mergedGroupings (fun _ ↦ rfl) needsValue path origin

theorem placedTypedNodes_under : (x.under policy ds).placedTypedNodes = x.placedTypedNodes := by
  have hplaced : (x.under policy ds).inDataTree = x.inDataTree := by
    funext id
    rw [inDataTree, targetOf_under, inDataTree]
    rfl
  rw [placedTypedNodes, hplaced]
  rfl

/-! ### Types -/

theorem linkIn_under (table : Array (Option LeafLink)) :
    (x.under policy ds).linkIn table = x.linkIn table := by
  funext leaf path
  simp only [linkIn, followLink, followFrom_under]

theorem links_under : (x.under policy ds).links = x.links := by
  simp only [links, followLink, followFrom_under]
  rfl

theorem valueTypeNameBy_under (link : LinkFinder) (id : NodeId) :
    (x.under policy ds).valueTypeNameBy link id = x.valueTypeNameBy link id := by
  have hchase (n : Nat) (passed : List NodeId) (origin : NodeId) (path : String) :
      (x.under policy ds).chase link n passed origin path = x.chase link n passed origin path := by
    induction n generalizing passed origin path with
    | zero => rfl
    | succ n ih =>
      simp only [chase, ih]
      rfl
  simp only [valueTypeNameBy, typeReferent, referentBy, hchase]
  rfl

/-! ### Identities -/

theorem ancestry_under (id : NodeId) : (x.under policy ds).ancestry id = x.ancestry id := by
  have hfrom (n : Nat) (passed : List NodeId) (current : NodeId) :
      (x.under policy ds).ancestryFrom id n passed current =
        x.ancestryFrom id n passed current := by
    induction n generalizing passed current with
    | zero => rfl
    | succ n ih =>
      simp only [ancestryFrom, ih]
      rfl
  simp only [ancestry, hfrom]
  rfl

theorem entryFor_under (id base ancestor : NodeId) :
    (x.under policy ds).entryFor id base ancestor = x.entryFor id base ancestor :=
  rfl

end Session

end SchemaLink
