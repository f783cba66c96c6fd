import SchemaLink.Resolution
import SchemaLink.Proofs.Contributions

/-!
# Steps of a linking run and what they leave alone

A step keeps the session when it stops, and a fault that is passed over does not undo what was done
before it. So statements about runs speak of `Link.after`, the session after a step whether it
stopped or not. **One lemma opens a sequence of steps** (`after_bind`): either the first one
stopped, or the second one went on from where the first one ended.

What a step leaves alone is a *view*: a function of the session with the same value before and after
(`Link.Keeps`). Three views matter.

* `Session.untabled`: identities leave nodes and targets alone.
* `Session.silent`: naming types leaves everything but the diagnostics alone.
* `Session.setting`: all of linking leaves the outline of the schema alone, and so every question
  that is answered by the outline.

Merging augments comes down to single merges and diagnostics, and so leaves every view alone that
these do (`Link.IgnoresMerges`).
-/

namespace SchemaLink

namespace Session

/-- A session without identity tables, recorded roots and diagnostics. -/
def untabled (x : Session) : Session :=
  { x with schema := { x.schema.outline with nodes := x.schema.nodes }, diagnostics := [] }

/-- A session without diagnostics. -/
def silent (x : Session) : Session :=
  { x with diagnostics := [] }

/-- What a session is about, apart from how far it has come. -/
def setting (x : Session) : Session :=
  { x with schema := x.schema.outline, diagnostics := [], targets := [], mergedGroupings := [] }

theorem schema_of_silent_eq {x y : Session} (h : y.silent = x.silent) : y.schema = x.schema :=
  (congrArg Session.schema h : y.silent.schema = x.silent.schema)

/-- **How a session starts.** -/
theorem exists_registry_of_start {s : Schema} {policy : Policy} {x : Session}
    (h : start s policy = .ok x) :
    ∃ r, Registry.ofSchema s = .ok r ∧
      x = { schema := s, registry := r, policy, usages := r.usages s } := by
  rw [start] at h
  split at h
  · simp at h
  · next r hr => exact ⟨r, hr, (Except.ok.inj h).symm⟩

end Session

namespace Link

variable {α β γ : Type} {view : Session → β} {step : Link α} {x : Session}

/-- The session after a step, whether it stopped or not. -/
def after (step : Link α) (x : Session) : Session :=
  match step x with
  | .ok _ y => y
  | .error _ y => y

/-- A step leaves a view of the session alone. -/
def Keeps (view : Session → β) (step : Link α) : Prop :=
  ∀ x, view (step.after x) = view x

/-! ### Sequences -/

theorem after_of_eq_ok {a : α} {y : Session} (h : step x = .ok a y) : step.after x = y := by
  rw [after, h]

theorem after_of_eq_error {halt : Halt} {y : Session} (h : step x = .error halt y) :
    step.after x = y := by
  rw [after, h]

/-- A step does not stop. -/
def succeeds (step : Link α) (x : Session) : Bool :=
  match step x with
  | .ok _ _ => true
  | .error _ _ => false

theorem exists_ok_of_succeeds (h : step.succeeds x = true) :
    ∃ a, step x = .ok a (step.after x) := by
  rcases hresult : step x with ⟨a, y⟩ | ⟨halt, y⟩
  · exact ⟨a, by rw [after_of_eq_ok hresult]⟩
  · simp [succeeds, hresult] at h

theorem bind_of_eq_ok {f : α → Link γ} {a : α} {y : Session} (h : step x = .ok a y) :
    (step >>= f) x = f a y := by
  show EStateM.bind step f x = _
  rw [EStateM.bind, h]

theorem bind_of_eq_error {f : α → Link γ} {halt : Halt} {y : Session}
    (h : step x = .error halt y) : (step >>= f) x = .error halt y := by
  show EStateM.bind step f x = _
  rw [EStateM.bind, h]

/-- What stops a sequence of steps stops the first one, or what comes after it. -/
theorem bind_eq_error {f : α → Link γ} {halt : Halt} {z : Session}
    (h : (step >>= f) x = .error halt z) :
    step x = .error halt z ∨ ∃ a y, step x = .ok a y ∧ f a y = .error halt z := by
  rcases hstep : step x with ⟨a, y⟩ | ⟨halt', y⟩
  · exact .inr ⟨a, y, rfl, by rwa [bind_of_eq_ok hstep] at h⟩
  · rw [bind_of_eq_error hstep] at h
    obtain ⟨rfl, rfl⟩ := EStateM.Result.error.inj h
    exact .inl rfl

theorem bind_eq_ok {f : α → Link γ} {c : γ} {z : Session} (h : (step >>= f) x = .ok c z) :
    ∃ a y, step x = .ok a y ∧ f a y = .ok c z := by
  rcases hstep : step x with ⟨a, y⟩ | ⟨halt, y⟩
  · exact ⟨a, y, rfl, by rwa [bind_of_eq_ok hstep] at h⟩
  · rw [bind_of_eq_error hstep] at h
    cases h

theorem after_bind_of_eq_ok {f : α → Link γ} {a : α} {y : Session} (h : step x = .ok a y) :
    (step >>= f).after x = (f a).after y := by
  rw [after, bind_of_eq_ok h, after]

/-- **A sequence stops in its first step or goes on from the end of it.** -/
theorem after_bind (step : Link α) (f : α → Link γ) (x : Session) :
    (step >>= f).after x = step.after x ∨
      ∃ a, (step >>= f).after x = (f a).after (step.after x) := by
  rcases h : step x with ⟨a, y⟩ | ⟨halt, y⟩
  · refine .inr ⟨a, ?_⟩
    rw [after_bind_of_eq_ok h, after_of_eq_ok h]
  · refine .inl ?_
    rw [after_of_eq_error (bind_of_eq_error h), after_of_eq_error h]

theorem after_bind_pure (step : Link α) (f : α → γ) (x : Session) :
    (step >>= fun a ↦ pure (f a)).after x = step.after x := by
  rcases after_bind step (fun a ↦ pure (f a)) x with h | ⟨_, h⟩ <;> exact h

theorem after_get_bind (f : Session → Link γ) (x : Session) :
    (get >>= f).after x = (f x).after x :=
  rfl

theorem after_modify_bind (change : Session → Session) (f : PUnit → Link γ) (x : Session) :
    (modify change >>= f : Link γ).after x = (f ⟨⟩).after (change x) :=
  rfl

theorem ask_apply (question : Session → Except Halt α) (x : Session) :
    ask question x =
      match question x with
      | .ok a => .ok a x
      | .error halt => .error halt x := by
  show (match question x with
    | .ok a => (pure a : Link α)
    | .error halt => throw halt) x = _
  rcases question x <;> rfl

theorem ask_of_eq_ok {question : Session → Except Halt α} {a : α} (h : question x = .ok a) :
    ask question x = .ok a x := by
  rw [ask_apply, h]

theorem ask_of_eq_error {question : Session → Except Halt α} {halt : Halt}
    (h : question x = .error halt) : ask question x = .error halt x := by
  rw [ask_apply, h]

theorem after_ask (question : Session → Except Halt α) (x : Session) :
    (ask question).after x = x := by
  rcases h : question x with halt | a
  · exact after_of_eq_error (ask_of_eq_error h)
  · exact after_of_eq_ok (ask_of_eq_ok h)

/-! ### Faults that are passed over -/

theorem tolerate_apply (activity : Activity) (subject : NodeId) (fault : Fault) (x : Session) :
    tolerate activity subject fault x =
      if fault.fatal = true ∨ x.policy = .strict then .error (.fault fault) x
      else .ok ⟨⟩ (x.noteFault activity (x.schema.label subject) fault) := by
  show (if fault.fatal ∨ x.policy = .strict then (throw (.fault fault) : Link PUnit)
    else set (x.noteFault activity (x.schema.label subject) fault)) x = _
  split <;> rfl

theorem tolerate_of_stop {fault : Fault} (h : fault.fatal = true ∨ x.policy = .strict)
    (activity : Activity) (subject : NodeId) :
    tolerate activity subject fault x = .error (.fault fault) x := by
  rw [tolerate_apply, if_pos h]

theorem tolerate_of_not_fatal {fault : Fault} (hfatal : fault.fatal = false)
    (hx : x.policy = .bestEffort) (activity : Activity) (subject : NodeId) :
    tolerate activity subject fault x =
      .ok ⟨⟩ (x.noteFault activity (x.schema.label subject) fault) := by
  rw [tolerate_apply, if_neg (by simp [hfatal, hx])]

theorem after_tolerate (activity : Activity) (subject : NodeId) (fault : Fault) (x : Session) :
    (tolerate activity subject fault).after x = x ∨
      (tolerate activity subject fault).after x =
        x.noteFault activity (x.schema.label subject) fault := by
  by_cases hstop : fault.fatal = true ∨ x.policy = .strict
  · exact .inl (after_of_eq_error (tolerate_of_stop hstop activity subject))
  · refine .inr (after_of_eq_ok (a := ⟨⟩) ?_)
    rw [tolerate_apply, if_neg hstop]

theorem attempt_of_eq_ok {a : α} {y : Session} (h : step x = .ok a y) (activity : Activity)
    (subject : NodeId) : attempt activity subject step x = .ok (some a) y := by
  rw [attempt, h]

theorem attempt_of_eq_unending {y : Session} (h : step x = .error .unending y)
    (activity : Activity) (subject : NodeId) :
    attempt activity subject step x = .error .unending y := by
  rw [attempt, h]

theorem attempt_of_eq_fault {fault : Fault} {y : Session} (h : step x = .error (.fault fault) y)
    (activity : Activity) (subject : NodeId) :
    attempt activity subject step x =
      (tolerate activity subject fault >>= fun _ ↦ pure none) y := by
  rw [attempt, h]

theorem attempt_of_stop {fault : Fault} {y : Session} (h : step x = .error (.fault fault) y)
    (hstop : fault.fatal = true ∨ y.policy = .strict) (activity : Activity) (subject : NodeId) :
    attempt activity subject step x = .error (.fault fault) y := by
  rw [attempt_of_eq_fault h]
  exact bind_of_eq_error (tolerate_of_stop hstop activity subject)

theorem attempt_of_not_fatal {fault : Fault} {y : Session} (h : step x = .error (.fault fault) y)
    (hfatal : fault.fatal = false) (hy : y.policy = .bestEffort) (activity : Activity)
    (subject : NodeId) :
    attempt activity subject step x =
      .ok none (y.noteFault activity (y.schema.label subject) fault) := by
  rw [attempt_of_eq_fault h]
  exact bind_of_eq_ok (tolerate_of_not_fatal hfatal hy activity subject)

/-- After an attempt, the session is that after the step, perhaps with one more fault noted. -/
theorem after_attempt (activity : Activity) (subject : NodeId) (step : Link α) (x : Session) :
    (attempt activity subject step).after x = step.after x ∨
      ∃ fault, (attempt activity subject step).after x =
        (step.after x).noteFault activity ((step.after x).schema.label subject) fault := by
  rcases h : step x with ⟨a, y⟩ | ⟨⟨fault⟩ | -, y⟩
  · rw [after_of_eq_ok (attempt_of_eq_ok h activity subject), after_of_eq_ok h]
    exact .inl rfl
  · have hattempt : (attempt activity subject step).after x =
        (tolerate activity subject fault >>= fun _ ↦ pure (none : Option α)).after y := by
      rw [after, attempt_of_eq_fault h, after]
    rw [hattempt, after_bind_pure, after_of_eq_error h]
    exact (after_tolerate activity subject fault y).imp id fun h ↦ ⟨fault, h⟩
  · rw [after_of_eq_error (attempt_of_eq_unending h activity subject), after_of_eq_error h]
    exact .inl rfl

/-! ### Views -/

theorem keeps_pure (a : α) : Keeps view (pure a : Link α) :=
  fun _ ↦ rfl

theorem keeps_ask (question : Session → Except Halt α) : Keeps view (ask question) :=
  fun x ↦ by rw [after_ask]

theorem keeps_modify {f : Session → Session} (h : ∀ x, view (f x) = view x) :
    Keeps view (modify f : Link PUnit) :=
  h

theorem keeps_get_bind {f : Session → Link γ} (h : ∀ x, Keeps view (f x)) :
    Keeps view (get >>= f) :=
  fun x ↦ h x x

theorem Keeps.bind {f : α → Link γ} (hstep : Keeps view step) (hf : ∀ a, Keeps view (f a)) :
    Keeps view (step >>= f) := by
  intro x
  rcases after_bind step f x with h | ⟨a, h⟩
  · rw [h, hstep]
  · rw [h, hf a, hstep]

/-- A view that does not look at the diagnostics. -/
def Ignores (view : Session → β) : Prop :=
  ∀ x ds, view { x with diagnostics := ds } = view x

theorem keeps_tolerate (hview : Ignores view) (activity : Activity) (subject : NodeId)
    (fault : Fault) : Keeps view (tolerate activity subject fault) := by
  intro x
  rcases after_tolerate activity subject fault x with h | h
  · rw [h]
  · rw [h]
    exact hview x _

theorem keeps_tolerateAll (hview : Ignores view) (activity : Activity)
    (faults : List (NodeId × Fault)) : Keeps view (tolerateAll activity faults) := by
  induction faults with
  | nil => exact keeps_pure _
  | cons f rest ih => exact (keeps_tolerate hview activity f.1 f.2).bind fun _ ↦ ih

theorem Keeps.attempt (hview : Ignores view) (hstep : Keeps view step) (activity : Activity)
    (subject : NodeId) : Keeps view (attempt activity subject step) := by
  intro x
  rcases after_attempt activity subject step x with h | ⟨d, h⟩
  · rw [h, hstep]
  · rw [h, ← hstep x]
    exact hview _ _

/-! ### Recording identities -/

theorem untabled_addRoot (x : Session) (m : ModuleId) (root : NodeId) :
    (x.addRoot m root).untabled = x.untabled := by
  have houtline : (x.addRoot m root).schema.outline = x.schema.outline :=
    Schema.outline_modifyModule fun _ ↦ rfl
  simp only [Session.untabled, houtline]
  rfl

theorem untabled_addEntries (x : Session) (u : SubmoduleId) (identity : String)
    (entries : List IdentityEntry) : (x.addEntries u identity entries).untabled = x.untabled := by
  have houtline : (x.addEntries u identity entries).schema.outline = x.schema.outline :=
    Schema.outline_modifySubmodule fun _ ↦ rfl
  simp only [Session.untabled, houtline]
  rfl

theorem ignores_untabled : Ignores Session.untabled :=
  fun _ _ ↦ rfl

theorem keeps_entriesFor (hview : Ignores view) (id base : NodeId) (ancestors : List NodeId) :
    Keeps view (entriesFor id base ancestors) := by
  induction ancestors with
  | nil => exact keeps_pure _
  | cons a rest ih =>
    exact ((keeps_ask _).attempt hview _ _).bind fun _ ↦ ih.bind fun _ ↦ keeps_pure _

theorem keeps_indexIdentity (m : ModuleId) (u : SubmoduleId) (id : NodeId) :
    Keeps Session.untabled (indexIdentity m u id) := by
  refine ((keeps_ask _).attempt ignores_untabled _ _).bind fun found ↦ ?_
  match found with
  | none => exact keeps_pure _
  | some [] => exact (keeps_modify fun x ↦ untabled_addRoot x m id).bind fun _ ↦ keeps_pure _
  | some (base :: line) =>
    refine (keeps_modify fun x ↦ untabled_addRoot x _ _).bind fun _ ↦ ?_
    refine (keeps_entriesFor ignores_untabled id base (base :: line)).bind fun entries ↦ ?_
    exact (keeps_modify fun x ↦ untabled_addEntries x u _ entries).bind fun _ ↦ keeps_pure _

theorem keeps_indexAll (m : ModuleId) (ids : List (SubmoduleId × NodeId)) :
    Keeps Session.untabled (indexAll m ids) := by
  induction ids with
  | nil => exact keeps_pure _
  | cons e rest ih =>
    exact (keeps_indexIdentity m e.1 e.2).bind fun _ ↦ ih.bind fun _ ↦ keeps_pure _

/-- **Identities leave nodes and targets alone.** -/
theorem keeps_indexIdentitiesOf (m : ModuleId) :
    Keeps Session.untabled (indexIdentitiesOf m) :=
  keeps_get_bind fun _ ↦ keeps_indexAll m _

/-! ### Naming types -/

theorem ignores_silent : Ignores Session.silent :=
  fun _ _ ↦ rfl

theorem silent_attempt (activity : Activity) (subject : NodeId) (step : Link α) (x : Session) :
    ((attempt activity subject step).after x).silent = (step.after x).silent := by
  rcases after_attempt activity subject step x with h | ⟨d, h⟩ <;> rw [h]
  rfl

theorem keeps_checkNames (table : Array (Option LeafLink)) (ids : List NodeId) :
    Keeps Session.silent (checkNames table ids) := by
  induction ids with
  | nil => exact keeps_pure _
  | cons id rest ih => exact ((keeps_ask _).attempt ignores_silent _ _).bind fun _ ↦ ih

/-- **Naming types only adds diagnostics.** -/
theorem keeps_nameAllTypes : Keeps Session.silent nameAllTypes :=
  (keeps_ask _).bind fun ids ↦ keeps_get_bind fun x ↦ keeps_checkNames x.links ids

/-! ### Merging augments -/

theorem mergeAugment_of_halt {a : NodeId} {halt : Halt} (hplan : x.mergePlan a = .error halt) :
    mergeAugment a x = .error halt x := by
  have hask : ask (·.mergePlan a) x = .error halt x := ask_of_eq_error hplan
  exact bind_of_eq_error hask

/-- What is left after a merge is to pass over faults. -/
theorem silent_mergeAugment {a t : NodeId} {added : Contribution}
    (hplan : x.mergePlan a = .ok (t, added)) :
    ((mergeAugment a).after x).silent = (x.merge a t added).silent := by
  have hask : ask (·.mergePlan a) x = .ok (t, added) x := ask_of_eq_ok hplan
  rw [mergeAugment, after_bind_of_eq_ok hask, after_modify_bind]
  exact ((keeps_tolerateAll ignores_silent _ _).bind fun _ ↦ keeps_pure t) _

/-- **What merging an augment does**: nothing, or one merge, perhaps with more diagnostics. -/
theorem after_mergeAugment (a : NodeId) (x : Session) :
    (mergeAugment a).after x = x ∨ ∃ t added, x.mergePlan a = .ok (t, added) ∧
      ((mergeAugment a).after x).silent = (x.merge a t added).silent := by
  rcases hplan : x.mergePlan a with halt | ⟨t, added⟩
  · exact .inl (after_of_eq_error (mergeAugment_of_halt hplan))
  · exact .inr ⟨t, added, rfl, silent_mergeAugment hplan⟩

/-- **A plan to merge**: the path leads to a node that may be augmented. -/
theorem mergePlan_eq_ok {a t : NodeId} {added : Contribution} {x : Session}
    (h : x.mergePlan a = .ok (t, added)) :
    ∃ path children, (x.schema.node a).content = .augment path children ∧
      x.followFrom false path a = .ok t ∧ (x.schema.kind t).augmentable = true ∧
      added = x.registry.contribution x.schema children := by
  simp only [Session.mergePlan] at h
  split at h
  · next path children hcontent =>
    split at h
    · simp at h
    · next t' hfollow =>
      split at h
      · next hkind =>
        obtain ⟨rfl, rfl⟩ := Prod.mk.inj (Except.ok.inj h)
        exact ⟨path, children, hcontent, hfollow, hkind, rfl⟩
      · simp at h
  · simp at h

/-! ### What a whole run leaves alone -/

theorem setting_eq_of_untabled_eq {x y : Session} (h : x.untabled = y.untabled) :
    x.setting = y.setting := by
  have hrest (z : Session) : z.setting =
      { z.untabled with
        schema := { z.untabled.schema with nodes := z.untabled.schema.nodes.map Node.outline }
        targets := [], mergedGroupings := [] } := rfl
  rw [hrest x, hrest y, h]

theorem untabled_eq_of_silent_eq {x y : Session} (h : x.silent = y.silent) :
    x.untabled = y.untabled := by
  show x.silent.untabled = y.silent.untabled
  rw [h]

theorem setting_eq_of_silent_eq {x y : Session} (h : y.silent = x.silent) :
    y.setting = x.setting :=
  setting_eq_of_untabled_eq (untabled_eq_of_silent_eq h)

theorem policy_eq_of_setting_eq {x y : Session} (h : y.setting = x.setting) :
    y.policy = x.policy :=
  (congrArg Session.policy h : y.setting.policy = x.setting.policy)

theorem setting_merge (x : Session) (a t : NodeId) {added : Contribution}
    (h : ∀ f ∈ added.fields, f.1 ∈ contributedKinds) : (x.merge a t added).setting = x.setting := by
  have houtline : (x.merge a t added).schema.outline = x.schema.outline :=
    Schema.outline_modifyChildren fun c ↦
      c.outline_insertAll fun f hf ↦ h f (List.mem_filter.1 hf).1
  simp only [Session.setting, houtline]
  rfl

theorem ignores_setting : Ignores Session.setting :=
  fun _ _ ↦ rfl

/-- Views with the same value when diagnostics are left out. -/
theorem Ignores.eq_of_silent_eq (hview : Ignores view) {y : Session} (h : y.silent = x.silent) :
    view y = view x := by
  rw [← hview y [], ← hview x []]
  exact congrArg view h

/-- Merging augments leaves alone what single merges do. -/
structure IgnoresMerges (view : Session → β) : Prop where
  ignores : Ignores view
  merge : ∀ (x : Session) (a t : NodeId) {added : Contribution},
    (∀ f ∈ added.fields, f.1 ∈ contributedKinds) → view (x.merge a t added) = view x

namespace IgnoresMerges

variable (hview : IgnoresMerges view)
include hview

theorem keeps_mergeAugment (a : NodeId) : Keeps view (mergeAugment a) := by
  intro x
  rcases after_mergeAugment a x with h | ⟨t, added, hplan, h⟩
  · rw [h]
  · obtain ⟨_, _, -, -, -, rfl⟩ := mergePlan_eq_ok hplan
    rw [hview.ignores.eq_of_silent_eq h]
    exact hview.merge x a t fun _ ↦ Registry.kind_mem_of_mem_fields_contribution

theorem keeps_mergeAll (augments : List NodeId) : Keeps view (mergeAll augments) := by
  induction augments with
  | nil => exact keeps_pure _
  | cons a rest ih =>
    exact ((hview.keeps_mergeAugment a).attempt hview.ignores _ _).bind fun _ ↦
      ih.bind fun _ ↦ keeps_pure _

theorem keeps_mergeAugmentsOf (m : ModuleId) : Keeps view (mergeAugmentsOf m) := by
  have hnote (x : Session) : view (x.noteMissingIncludes m) = view x :=
    hview.ignores x _
  exact (keeps_modify hnote).bind fun _ ↦ keeps_get_bind fun x ↦ hview.keeps_mergeAll _

end IgnoresMerges

theorem ignoresMerges_setting : IgnoresMerges Session.setting :=
  ⟨ignores_setting, setting_merge⟩

theorem keeps_mergeAugment (a : NodeId) : Keeps Session.setting (mergeAugment a) :=
  ignoresMerges_setting.keeps_mergeAugment a

theorem keeps_mergeAll (augments : List NodeId) : Keeps Session.setting (mergeAll augments) :=
  ignoresMerges_setting.keeps_mergeAll augments

theorem keeps_mergeAugmentsOf (m : ModuleId) : Keeps Session.setting (mergeAugmentsOf m) :=
  ignoresMerges_setting.keeps_mergeAugmentsOf m

/-- **Linking leaves the setting alone.** -/
theorem keeps_completeModules (ms : List ModuleId) :
    Keeps Session.setting (completeModules ms) := by
  induction ms with
  | nil => exact keeps_pure _
  | cons m rest ih =>
    have hindex : Keeps Session.setting (indexIdentitiesOf m) :=
      fun x ↦ setting_eq_of_untabled_eq (keeps_indexIdentitiesOf m x)
    exact hindex.bind fun _ ↦ (keeps_mergeAugmentsOf m).bind fun _ ↦ ih

end Link

end SchemaLink
