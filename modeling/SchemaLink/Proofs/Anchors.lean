import Mathlib.Logic.Relation
import SchemaLink.Proofs.DepthFirst
import SchemaLink.Proofs.Handles

/-!
# What `..` may lead to

`Session.Anchor` says by rules where the data of a declared parent is: at the top level of a module,
where a choice or case stands, wherever a grouping is used, in the target of an augment, and else at
the parent itself. `Session.anchors` computes the same positions by one search in which all places
of use share one record of the parents that have been visited.

**The two agree** (`Session.mem_anchors_iff`), also where groupings use each other in circles: what
is cut off there has been visited on another branch. The only way for the computation not to answer
is an augment whose target is never found (`Session.anchors_eq_error`).
-/

namespace SchemaLink

/-- Answers from a list of questions are the answers to its members. -/
theorem mem_of_mapM_eq_ok {α β ε : Type} {f : α → Except ε β} {as : List α} {bs : List β}
    (h : as.mapM f = .ok bs) {b : β} : b ∈ bs ↔ ∃ a ∈ as, f a = .ok b := by
  induction as generalizing bs with
  | nil =>
    obtain rfl : [] = bs := by simpa [pure, Except.pure] using h
    simp
  | cons a as ih =>
    rw [List.mapM_cons] at h
    rcases ha : f a with e | b₀
    · simp [ha, bind, Except.bind] at h
    · rcases has : as.mapM f with e | bs₀
      · simp [ha, has, bind, Except.bind] at h
      · obtain rfl : b₀ :: bs₀ = bs := by
          simpa [ha, has, bind, Except.bind, pure, Except.pure] using h
        simp [ha, ih has, eq_comm]

/-- A list of questions fails with the failure of one of them. -/
theorem exists_of_mapM_eq_error {α β ε : Type} {f : α → Except ε β} {as : List α} {e : ε}
    (h : as.mapM f = .error e) : ∃ a ∈ as, f a = .error e := by
  induction as with
  | nil => simp [pure, Except.pure] at h
  | cons a as ih =>
    rw [List.mapM_cons] at h
    rcases ha : f a with e' | b
    · obtain rfl : e' = e := by simpa [ha, bind, Except.bind] using h
      exact ⟨a, by simp, ha⟩
    · rcases has : as.mapM f with e' | bs
      · obtain rfl : e' = e := by simpa [ha, has, bind, Except.bind] using h
        obtain ⟨a', ha', h'⟩ := ih has
        exact ⟨a', by simp [ha'], h'⟩
      · simp [ha, has, bind, Except.bind, pure, Except.pure] at h

namespace Session

/-- The positions at which the data of a node declared in a given parent hangs. -/
inductive Anchor (x : Session) (target : TargetFinder) : Parent → Position → Prop where
  /-- The top level of a submodule is that of its module. -/
  | top (u : SubmoduleId) : Anchor x target (.submodule u) (.top (x.schema.submodule u).module)
  /-- A choice or case is passed over. -/
  | transparent {p : NodeId} {c : Position} (hp : (x.schema.kind p).transparent = true)
      (h : Anchor x target (x.schema.node p).parent c) : Anchor x target (.node p) c
  /-- A grouping stands for the parent of any of its uses. -/
  | used {g u : NodeId} {c : Position} (hg : x.schema.kind g = .grouping)
      (hu : (g, u) ∈ x.usages) (h : Anchor x target (x.schema.node u).parent c) :
      Anchor x target (.node g) c
  /-- An augment stands for its target. -/
  | target {a t : NodeId} (ha : x.schema.kind a = .augment) (h : target a = .ok t) :
      Anchor x target (.node a) (.node t)
  /-- Any other node has its data at itself. -/
  | self {p : NodeId} (hp : (x.schema.kind p).transparent = false)
      (hg : x.schema.kind p ≠ .grouping) (ha : x.schema.kind p ≠ .augment) :
      Anchor x target (.node p) (.node p)

variable {x : Session} {target : TargetFinder} {p q : Parent} {c : Position}

theorem mem_occurrencesOf {g u : NodeId} : u ∈ x.occurrencesOf g ↔ (g, u) ∈ x.usages := by
  simp [occurrencesOf]

/-- The steps of the search are the rules that pass a parent over. -/
theorem mem_anchorStep_iff :
    q ∈ x.anchorStep p ↔
      ∃ id, p = .node id ∧
        ((x.schema.kind id).transparent = true ∧ q = (x.schema.node id).parent ∨
          x.schema.kind id = .grouping ∧
            ∃ u, (id, u) ∈ x.usages ∧ (x.schema.node u).parent = q) := by
  match p with
  | .submodule u => simp [anchorStep]
  | .node id =>
    rcases hk : x.schema.kind id <;>
      simp [anchorStep, hk, Kind.transparent, usePlaces, mem_occurrencesOf]

/-- The positions that parents have of their own are the rules that end at a parent. -/
theorem anchorAt_eq_ok_some_iff :
    x.anchorAt target p = .ok (some c) ↔
      (∃ u, p = .submodule u ∧ .top (x.schema.submodule u).module = c) ∨
      (∃ a t, p = .node a ∧ x.schema.kind a = .augment ∧ target a = .ok t ∧ .node t = c) ∨
      ∃ id, p = .node id ∧ (x.schema.kind id).transparent = false ∧
        x.schema.kind id ≠ .grouping ∧ x.schema.kind id ≠ .augment ∧ .node id = c := by
  match p with
  | .submodule u => simp [anchorAt]
  | .node id =>
    by_cases ha : x.schema.kind id = .augment
    · rcases ht : target id with (cause | -) | t <;> simp [anchorAt, ha, ht, Kind.transparent]
    · rcases hk : x.schema.kind id <;> simp_all [anchorAt, Kind.transparent]

/-- Only a search for a target that never ends keeps a parent from having a position or none. -/
theorem anchorAt_eq_error {halt : Halt} (h : x.anchorAt target p = .error halt) :
    halt = .unending := by
  match p with
  | .submodule u => simp [anchorAt] at h
  | .node id =>
    by_cases ha : x.schema.kind id = .augment
    · rcases ht : target id with (cause | -) | t <;> simp_all [anchorAt]
    · rcases hk : x.schema.kind id <;> simp_all [anchorAt]

/-- An anchor is a parent that the search passes, with a position of its own. -/
theorem anchor_iff :
    x.Anchor target p c ↔
      ∃ q, Relation.ReflTransGen (DepthFirst.Leads x.anchorStep) p q ∧
        x.anchorAt target q = .ok (some c) := by
  constructor
  · intro h
    induction h with
    | top u => exact ⟨_, .refl, anchorAt_eq_ok_some_iff.2 (.inl ⟨u, rfl, rfl⟩)⟩
    | @transparent id c hp _ ih =>
      obtain ⟨q, hq, hc⟩ := ih
      exact ⟨q, .head (mem_anchorStep_iff.2 ⟨id, rfl, .inl ⟨hp, rfl⟩⟩) hq, hc⟩
    | @used g u c hg hu _ ih =>
      obtain ⟨q, hq, hc⟩ := ih
      exact ⟨q, .head (mem_anchorStep_iff.2 ⟨g, rfl, .inr ⟨hg, u, hu, rfl⟩⟩) hq, hc⟩
    | @target a t ha ht =>
      exact ⟨_, .refl, anchorAt_eq_ok_some_iff.2 (.inr (.inl ⟨a, t, rfl, ha, ht, rfl⟩))⟩
    | @self id hp hg ha =>
      exact ⟨_, .refl, anchorAt_eq_ok_some_iff.2 (.inr (.inr ⟨id, rfl, hp, hg, ha, rfl⟩))⟩
  · rintro ⟨q, hq, hc⟩
    induction hq using Relation.ReflTransGen.head_induction_on with
    | refl =>
      rcases anchorAt_eq_ok_some_iff.1 hc with ⟨u, rfl, rfl⟩ | ⟨a, t, rfl, ha, ht, rfl⟩ |
        ⟨id, rfl, hp, hg, ha, rfl⟩
      · exact .top u
      · exact .target ha ht
      · exact .self hp hg ha
    | head hstep _ ih =>
      obtain ⟨id, rfl, ⟨hp, rfl⟩ | ⟨hg, u, hu, rfl⟩⟩ := mem_anchorStep_iff.1 hstep
      · exact .transparent hp ih
      · exact .used hg hu ih

section

variable (hx : x.schema.Grounded) (hpos : 0 < x.schema.parentBound)
include hx hpos

theorem number_lt_of_mem_anchorStep (hq : q ∈ x.anchorStep p) :
    q.number < x.schema.parentBound := by
  obtain ⟨id, -, ⟨-, rfl⟩ | ⟨-, u, -, rfl⟩⟩ := mem_anchorStep_iff.1 hq
  · exact hx.number_parent_lt hpos id
  · exact hx.number_parent_lt hpos u

/-- **Anchors are computed as the rules say.** -/
theorem mem_anchors_iff (hp : p.number < x.schema.parentBound) {found : List Position}
    (h : x.anchors target p = .ok found) : c ∈ found ↔ x.Anchor target p c := by
  unfold anchors at h
  split at h
  · next answers hanswers =>
    obtain rfl : _ = found := by simpa using h
    -- no parent that comes up has a number beyond the bound, so the search is complete
    have hsearch (q : Parent) : q ∈ x.schema.searchParents x.anchorStep p ↔
        Relation.ReflTransGen (DepthFirst.Leads x.anchorStep) p q := by
      rw [Schema.searchParents, DepthFirst.mem_search_iff Parent.number_injective
        (by simpa using hp) fun _ _ ↦ number_lt_of_mem_anchorStep hx hpos]
      simp
    rw [List.mem_eraseDups, List.mem_filterMap, anchor_iff]
    constructor
    · rintro ⟨answer, hmem, rfl⟩
      obtain ⟨q, hq, hc⟩ := (mem_of_mapM_eq_ok hanswers).1 hmem
      exact ⟨q, (hsearch q).1 hq, hc⟩
    · rintro ⟨q, hq, hc⟩
      exact ⟨some c, (mem_of_mapM_eq_ok hanswers).2 ⟨q, (hsearch q).2 hq, hc⟩, rfl⟩
  · simp at h

end

theorem anchors_eq_error {halt : Halt} (h : x.anchors target p = .error halt) :
    halt = .unending := by
  unfold anchors at h
  split at h
  · simp at h
  · next halt' hanswers =>
    obtain rfl : halt' = halt := by simpa using h
    obtain ⟨q, -, hq⟩ := exists_of_mapM_eq_error hanswers
    exact anchorAt_eq_error hq

/-! ### Presence in the data -/

/-- **What the answer is**: the first verdict on the way, or no if there is none. -/
theorem inDataTreeBy_cases (x : Session) (target : TargetFinder) (id : NodeId) :
    let line := x.schema.searchParents (x.placeStep target)
      (x.schema.node (x.schema.carrier id)).parent
    (x.inDataTreeBy target id = .ok false ∧ ∀ p ∈ line, x.placeVerdict target p = none) ∨
      ∃ p ∈ line, x.placeVerdict target p = some (x.inDataTreeBy target id) := by
  intro line
  rcases hverdict : line.findSome? (x.placeVerdict target) with - | verdict
  · refine .inl ⟨?_, fun p ↦ List.findSome?_eq_none_iff.1 hverdict p⟩
    rw [inDataTreeBy, hverdict, Option.getD_none]
  · obtain ⟨p, hp, hpverdict⟩ := List.exists_of_findSome?_eq_some hverdict
    refine .inr ⟨p, hp, ?_⟩
    rw [inDataTreeBy, hverdict, Option.getD_some, hpverdict]

end Session

end SchemaLink
