import SchemaLink.Proofs.Steps

/-!
# Sessions that are asked for anything

A session can be asked to record the identities of a module, to merge the augments of a module, or
to merge one augment, in any order and any number of times. **A request that fails leaves its traces
too**: what was merged before the failure stays, so `Session.perform` is the session after a request
whether it succeeded or not.

All changes to a schema go back to one operation, `Session.merge`. A property of sessions that does
not look at identity tables, roots and diagnostics, and that a merge preserves, is *stable*. **What
is stable survives every sequence of requests** (`Stable.performAll`): the case distinction over
requests, faults that are passed over and faults that are not is made here and nowhere else.
-/

namespace SchemaLink

/-- What a session can be asked to do. -/
inductive Request where
  /-- Record the identities of a module. -/
  | identities (m : ModuleId)
  /-- Merge the augments of a module. -/
  | augments (m : ModuleId)
  /-- Merge one augment. -/
  | augment (id : NodeId)
deriving DecidableEq

namespace Session

/-- The session after a request, whether it succeeded or not. -/
def perform (x : Session) : Request → Session
  | .identities m => (Link.indexIdentitiesOf m).after x
  | .augments m => (Link.mergeAugmentsOf m).after x
  | .augment a => (Link.mergeAugment a).after x

/-- The session after several requests, one after the other. -/
def performAll (x : Session) (requests : List Request) : Session :=
  requests.foldl perform x

/-- A property of sessions that is about nodes, targets and what never changes, and that merging an
augment according to plan preserves. -/
structure Stable (P : Session → Prop) : Prop where
  of_untabled_eq : ∀ {x y : Session}, P x → y.untabled = x.untabled → P y
  merge : ∀ {x : Session} {a t : NodeId} {added : Contribution}, P x →
    x.mergePlan a = .ok (t, added) → P (x.merge a t added)

/-- What looks at nodes, targets and what never changes need only be kept by merges. -/
theorem Stable.of_merge {P : Session → Prop} (hview : ∀ x : Session, P x.untabled ↔ P x)
    (hmerge : ∀ {x : Session} {a t : NodeId} {added : Contribution}, P x →
      x.mergePlan a = .ok (t, added) → P (x.merge a t added)) : Stable P where
  of_untabled_eq := by
    intro x y hx heq
    rw [← hview, heq, hview]
    exact hx
  merge := hmerge

namespace Stable

variable {P : Session → Prop} {x y : Session} (hP : Stable P)
include hP

theorem of_silent_eq (hx : P x) (h : y.silent = x.silent) : P y :=
  hP.of_untabled_eq hx (Link.untabled_eq_of_silent_eq h)

theorem mergeAugment (hx : P x) (a : NodeId) : P ((Link.mergeAugment a).after x) := by
  rcases Link.after_mergeAugment a x with h | ⟨t, added, hplan, h⟩
  · rw [h]
    exact hx
  · exact hP.of_silent_eq (hP.merge hx hplan) h

/-- A fault that is passed over adds a diagnostic and nothing else. -/
theorem attempt_mergeAugment (hx : P x) (a : NodeId) (activity : Activity) (subject : NodeId) :
    P ((Link.attempt activity subject (Link.mergeAugment a)).after x) := by
  rcases Link.after_attempt activity subject (Link.mergeAugment a) x with h | ⟨d, h⟩
  · rw [h]
    exact hP.mergeAugment hx a
  · rw [h]
    exact hP.of_silent_eq (hP.mergeAugment hx a) rfl

theorem mergeAll (hx : P x) (augments : List NodeId) : P ((Link.mergeAll augments).after x) := by
  induction augments generalizing x with
  | nil => exact hx
  | cons a rest ih =>
    have hfirst := hP.attempt_mergeAugment hx a .applyAugment a
    rcases Link.after_bind (Link.attempt .applyAugment a (Link.mergeAugment a)) _ x with
      h | ⟨first, h⟩
    · rw [Link.mergeAll, h]
      exact hfirst
    · rw [Link.mergeAll, h, Link.after_bind_pure]
      exact ih hfirst

/-- **Step.** One request preserves what is stable. -/
theorem perform (hx : P x) (request : Request) : P (x.perform request) := by
  cases request with
  | identities m => exact hP.of_untabled_eq hx (Link.keeps_indexIdentitiesOf m x)
  | augments m =>
    rw [Session.perform, Link.mergeAugmentsOf, Link.after_modify_bind, Link.after_get_bind]
    have hnoted : P (x.noteMissingIncludes m) := hP.of_silent_eq hx rfl
    exact hP.mergeAll hnoted _
  | augment a => exact hP.mergeAugment hx a

/-- **Run.** So does every sequence of requests. -/
theorem performAll (hx : P x) (requests : List Request) : P (x.performAll requests) := by
  induction requests generalizing x with
  | nil => exact hx
  | cons request rest ih => exact ih (hP.perform hx request)

end Stable

/-- **Requests leave the setting alone.** -/
theorem setting_performAll (x : Session) (requests : List Request) :
    (x.performAll requests).setting = x.setting := by
  induction requests generalizing x with
  | nil => rfl
  | cons request rest ih =>
    refine (ih (x.perform request)).trans ?_
    cases request with
    | identities m => exact Link.setting_eq_of_untabled_eq (Link.keeps_indexIdentitiesOf m x)
    | augments m => exact Link.keeps_mergeAugmentsOf m x
    | augment a => exact Link.keeps_mergeAugment a x

end Session

end SchemaLink
