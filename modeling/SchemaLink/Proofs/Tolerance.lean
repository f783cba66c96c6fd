import SchemaLink.Proofs.Faults
import SchemaLink.Proofs.Merging
import SchemaLink.Proofs.Questions

/-!
# Best effort never stops for a fault

Under best effort an attempt passes over every fault that is not fatal. On a lowered schema no
attempted step ends in a fatal fault (`SchemaLink.Proofs.Faults`), and what is not attempted can
only fail to end. **So a run under best effort never stops for a fault** once its modules are in
order (`run_ne_fault`).

Whether a step meets a fatal fault depends on things that the run leaves alone. `Link.MildStep` and
`Link.PassesFaults` therefore speak of all sessions with the same view, and `Link.Keeps` takes them
from one step to the next.
-/

namespace SchemaLink

namespace Link

variable {α β γ : Type} {view : Session → β} {c : β} {step : Link α} {x y : Session} {s : Schema}

/-- Where the view is `c`, a step does not stop for a fatal fault. -/
def MildStep (view : Session → β) (c : β) (step : Link α) : Prop :=
  ∀ x, view x = c → ∀ cause y, step x = .error (.fault cause) y → cause.fatal = false

/-- Where the view is `c`, a step does not stop for a fault. -/
def PassesFaults (view : Session → β) (c : β) (step : Link α) : Prop :=
  ∀ x, view x = c → ∀ cause y, step x ≠ .error (.fault cause) y

/-! ### Combinations -/

theorem passesFaults_pure (a : α) : PassesFaults view c (pure a : Link α) := by
  intro x _ cause y h
  cases h

theorem passesFaults_modify (change : Session → Session) :
    PassesFaults view c (modify change : Link PUnit) := by
  intro x _ cause y h
  cases h

theorem passesFaults_get_bind {f : Session → Link γ}
    (h : ∀ x, view x = c → PassesFaults view c (f x)) : PassesFaults view c (get >>= f) :=
  fun x hx ↦ h x hx x hx

theorem PassesFaults.bind {f : α → Link γ} (hstep : PassesFaults view c step)
    (hkeeps : Keeps view step) (hf : ∀ a, PassesFaults view c (f a)) :
    PassesFaults view c (step >>= f) := by
  intro x hx cause y h
  rcases hresult : step x with ⟨a, z⟩ | ⟨halt, z⟩
  · rw [bind_of_eq_ok hresult] at h
    have hz : view z = c := by rw [← after_of_eq_ok hresult, hkeeps, hx]
    exact hf a z hz cause y h
  · rw [bind_of_eq_error hresult] at h
    cases h
    exact hstep x hx cause y hresult

theorem mildStep_ask {question : Session → Except Halt α}
    (h : ∀ x, view x = c → Mild (question x)) : MildStep view c (ask question) := by
  intro x hx cause y hask
  rcases hquestion : question x with halt | a
  · rw [ask_of_eq_error hquestion] at hask
    cases hask
    exact h x hx cause hquestion
  · rw [ask_of_eq_ok hquestion] at hask
    cases hask

/-- **An attempt passes over what is not fatal.** -/
theorem passesFaults_attempt (hpolicy : ∀ x, view x = c → x.policy = .bestEffort)
    (hkeeps : Keeps view step) (hmild : MildStep view c step) (activity : Activity)
    (subject : NodeId) : PassesFaults view c (attempt activity subject step) := by
  intro x hx cause y h
  rcases hresult : step x with ⟨a, z⟩ | ⟨⟨fault⟩ | -, z⟩
  · rw [attempt_of_eq_ok hresult] at h
    cases h
  · have hz : view z = c := by rw [← after_of_eq_error hresult, hkeeps, hx]
    rw [attempt_of_not_fatal hresult (hmild x hx _ z hresult) (hpolicy z hz)] at h
    cases h
  · rw [attempt_of_eq_unending hresult] at h
    cases h

/-! ### Identities -/

section Identities

variable {c : Session} (hpolicy : c.policy = .bestEffort)
include hpolicy

theorem policy_of_untabled_eq (h : x.untabled = c) : x.policy = .bestEffort := by
  rw [← hpolicy, ← h]
  rfl

theorem passesFaults_entriesFor (id base : NodeId) (ancestors : List NodeId) :
    PassesFaults Session.untabled c (entriesFor id base ancestors) := by
  induction ancestors with
  | nil => exact passesFaults_pure _
  | cons a rest ih =>
    have hmild : MildStep Session.untabled c (ask fun x ↦ Halt.lift (x.entryFor id base a)) :=
      mildStep_ask fun _ _ ↦ Session.mild_entryFor base a
    have hattempt := passesFaults_attempt (fun _ ↦ policy_of_untabled_eq hpolicy) (keeps_ask _)
      hmild .locateBase id
    refine hattempt.bind ((keeps_ask _).attempt ignores_untabled _ _) fun _ ↦ ?_
    exact ih.bind (keeps_entriesFor ignores_untabled id base rest) fun _ ↦ passesFaults_pure _

theorem passesFaults_indexIdentity (m : ModuleId) (u : SubmoduleId) (id : NodeId) :
    PassesFaults Session.untabled c (indexIdentity m u id) := by
  have hmild : MildStep Session.untabled c (ask fun x ↦ Halt.lift (x.ancestry id)) :=
    mildStep_ask fun _ _ ↦ Session.mild_ancestry
  refine (passesFaults_attempt (fun _ ↦ policy_of_untabled_eq hpolicy) (keeps_ask _) hmild _ _).bind
    ((keeps_ask _).attempt ignores_untabled _ _) fun found ↦ ?_
  match found with
  | none => exact passesFaults_pure _
  | some [] =>
    exact (passesFaults_modify _).bind (keeps_modify fun x ↦ untabled_addRoot x m id) fun _ ↦
      passesFaults_pure _
  | some (base :: line) =>
    refine (passesFaults_modify _).bind (keeps_modify fun x ↦ untabled_addRoot x _ _) fun _ ↦ ?_
    refine (passesFaults_entriesFor hpolicy id base (base :: line)).bind
      (keeps_entriesFor ignores_untabled id base (base :: line)) fun entries ↦ ?_
    exact (passesFaults_modify _).bind (keeps_modify fun x ↦ untabled_addEntries x u _ entries)
      fun _ ↦ passesFaults_pure _

theorem passesFaults_indexAll (m : ModuleId) (ids : List (SubmoduleId × NodeId)) :
    PassesFaults Session.untabled c (indexAll m ids) := by
  induction ids with
  | nil => exact passesFaults_pure _
  | cons e rest ih =>
    refine (passesFaults_indexIdentity hpolicy m e.1 e.2).bind (keeps_indexIdentity m e.1 e.2)
      fun _ ↦ ?_
    exact ih.bind (keeps_indexAll m rest) fun _ ↦ passesFaults_pure _

theorem passesFaults_indexIdentitiesOf (m : ModuleId) :
    PassesFaults Session.untabled c (indexIdentitiesOf m) :=
  passesFaults_get_bind fun _ _ ↦ passesFaults_indexAll hpolicy m _

end Identities

/-! ### Augments -/

theorem tolerate_eq_error {activity : Activity} {subject : NodeId} {fault : Fault} {halt : Halt}
    (h : tolerate activity subject fault x = .error halt y) : halt = .fault fault := by
  rw [tolerate_apply] at h
  split at h
  · cases h
    rfl
  · cases h

theorem tolerateAll_eq_error {activity : Activity} {faults : List (NodeId × Fault)} {halt : Halt}
    (h : tolerateAll activity faults x = .error halt y) : ∃ f ∈ faults, halt = .fault f.2 := by
  induction faults generalizing x with
  | nil => cases h
  | cons f rest ih =>
    rcases hfirst : tolerate activity f.1 f.2 x with ⟨_, z⟩ | ⟨halt', z⟩
    · rw [tolerateAll, bind_of_eq_ok hfirst] at h
      obtain ⟨g, hg, rfl⟩ := ih h
      exact ⟨g, by simp [hg], rfl⟩
    · rw [tolerateAll, bind_of_eq_error hfirst] at h
      obtain ⟨rfl, -⟩ := EStateM.Result.error.inj h
      exact ⟨f, by simp, tolerate_eq_error hfirst⟩

theorem fatal_of_mergeAugment {a : NodeId} {cause : Fault} (hkind : x.schema.kind a = .augment)
    (h : mergeAugment a x = .error (.fault cause) y) : cause.fatal = false := by
  rcases hplan : x.mergePlan a with halt | ⟨t, added⟩
  · have hask : ask (·.mergePlan a) x = .error halt x := ask_of_eq_error hplan
    rw [mergeAugment, bind_of_eq_error hask] at h
    cases h
    exact Session.mild_mergePlan hkind cause hplan
  · have hask : ask (·.mergePlan a) x = .ok (t, added) x := ask_of_eq_ok hplan
    rw [mergeAugment, bind_of_eq_ok hask] at h
    -- after the merge only the uses that refer to nothing are left
    have h : (tolerateAll .expandUses added.failures >>= fun _ ↦ pure t) (x.merge a t added) =
        .error (.fault cause) y := h
    rcases htolerate : tolerateAll .expandUses added.failures (x.merge a t added) with
      ⟨_, z⟩ | ⟨halt, z⟩
    · rw [bind_of_eq_ok htolerate] at h
      cases h
    · rw [bind_of_eq_error htolerate] at h
      cases h
      obtain ⟨f, hf, hcause⟩ := tolerateAll_eq_error htolerate
      obtain ⟨_, _, -, -, -, rfl⟩ := mergePlan_eq_ok hplan
      rw [Halt.fault.inj hcause]
      exact Registry.fatal_of_mem_failures hf

section Augments

variable {c : Session} (hpolicy : c.policy = .bestEffort)
include hpolicy

theorem policy_of_setting_eq (h : x.setting = c) : x.policy = .bestEffort := by
  rw [← hpolicy, ← h]
  rfl

theorem passesFaults_mergeAll {augments : List NodeId}
    (hkinds : ∀ a ∈ augments, c.schema.kind a = .augment) :
    PassesFaults Session.setting c (mergeAll augments) := by
  induction augments with
  | nil => exact passesFaults_pure _
  | cons a rest ih =>
    have hmild : MildStep Session.setting c (mergeAugment a) := by
      rintro x rfl cause y h
      exact fatal_of_mergeAugment (by simpa [Session.setting] using hkinds a (by simp)) h
    have hattempt := passesFaults_attempt (fun _ ↦ policy_of_setting_eq hpolicy)
      (keeps_mergeAugment a) hmild .applyAugment a
    refine hattempt.bind ((keeps_mergeAugment a).attempt ignores_setting _ _) fun _ ↦ ?_
    exact (ih fun b hb ↦ hkinds b (by simp [hb])).bind (keeps_mergeAll rest) fun _ ↦
      passesFaults_pure _

theorem passesFaults_mergeAugmentsOf {m : ModuleId}
    (hkinds : ∀ a ∈ c.schema.augmentsOf m, c.schema.kind a = .augment) :
    PassesFaults Session.setting c (mergeAugmentsOf m) := by
  have hnote (x : Session) : (x.noteMissingIncludes m).setting = x.setting := rfl
  refine (passesFaults_modify _).bind (keeps_modify hnote) fun _ ↦ passesFaults_get_bind ?_
  rintro x rfl
  refine passesFaults_mergeAll hpolicy fun a ha ↦ hkinds a ?_
  simpa [Session.setting] using ha

/-- **Completing modules does not stop for a fault.** -/
theorem passesFaults_completeModules
    (hkinds : ∀ m, ∀ a ∈ c.schema.augmentsOf m, c.schema.kind a = .augment) (ms : List ModuleId) :
    PassesFaults Session.setting c (completeModules ms) := by
  induction ms with
  | nil => exact passesFaults_pure _
  | cons m rest ih =>
    -- the steps before have changed more than `untabled` hides, so that view is taken afresh
    have hindex : PassesFaults Session.setting c (indexIdentitiesOf m) := by
      intro x hx
      have hx : x.policy = .bestEffort := policy_of_setting_eq hpolicy hx
      exact passesFaults_indexIdentitiesOf (c := x.untabled) hx m x rfl
    have hkeeps : Keeps Session.setting (indexIdentitiesOf m) :=
      fun x ↦ setting_eq_of_untabled_eq (keeps_indexIdentitiesOf m x)
    refine hindex.bind hkeeps fun _ ↦ ?_
    have hmerge := passesFaults_mergeAugmentsOf hpolicy (hkinds m)
    exact hmerge.bind (keeps_mergeAugmentsOf m) fun _ ↦ ih

end Augments

/-! ### Types -/

/-- A selection that comes to an end has an answer for each node, and keeps those with the answer
yes. -/
theorem selectM_eq_ok {question : NodeId → Except Halt Bool} {ids kept : List NodeId}
    (h : selectM question ids = .ok kept) (id : NodeId) :
    (id ∈ kept ↔ id ∈ ids ∧ question id = .ok true) ∧
      (id ∈ ids → ∃ keep, question id = .ok keep) := by
  induction ids generalizing kept with
  | nil =>
    obtain rfl := Except.ok.inj h
    simp
  | cons i rest ih =>
    rw [selectM] at h
    split at h
    · simp at h
    · next keep hkeep =>
      split at h
      · simp at h
      · next kept' hrest =>
        obtain rfl := Except.ok.inj h
        obtain ⟨hmem, hanswer⟩ := ih hrest
        rcases keep <;> grind

theorem eq_under_of_silent_eq (h : x.silent = y.silent) : x = y.under x.policy x.diagnostics := by
  obtain ⟨⟩ := x
  obtain ⟨⟩ := y
  simp_all [Session.silent, Session.under]

/-- A table of links stays good while items are noted. -/
theorem linkIn_links_of_silent_eq (h : x.silent = y.silent) : x.linkIn y.links = x.followLink := by
  have hlinks : x.links = y.links := by
    rw [eq_under_of_silent_eq h, Session.links_under]
  rw [← hlinks, x.linkIn_links]

theorem passesFaults_checkNames (hpolicy : y.policy = .bestEffort) (hfit : y.schema.TypesFit)
    {ids : List NodeId}
    (hids : ∀ id ∈ ids, (y.schema.node id).content.typeHandle?.isSome = true) :
    PassesFaults Session.silent y.silent (checkNames y.links ids) := by
  induction ids with
  | nil => exact passesFaults_pure _
  | cons id rest ih =>
    have hmild : MildStep Session.silent y.silent
        (ask fun x ↦ x.valueTypeNameBy (x.linkIn y.links) id) := by
      refine mildStep_ask fun x hx ↦ ?_
      have hschema : x.schema = y.schema :=
        (congrArg Session.schema hx : x.silent.schema = y.silent.schema)
      -- the table was made before the last items were noted, but no link has changed since
      rw [linkIn_links_of_silent_eq hx]
      exact Session.mild_valueTypeNameBy (hschema ▸ hfit) Session.goodLinks_followLink
        (hschema ▸ hids id (by simp))
    have hpolicies (x : Session) (hx : x.silent = y.silent) : x.policy = .bestEffort :=
      (congrArg Session.policy hx : x.silent.policy = y.silent.policy).trans hpolicy
    refine (passesFaults_attempt hpolicies (keeps_ask _) hmild _ _).bind
      ((keeps_ask _).attempt ignores_silent _ _) fun _ ↦ ?_
    exact ih fun i hi ↦ hids i (by simp [hi])

/-- **Naming types does not stop for a fault.** -/
theorem nameAllTypes_ne_fault (hpolicy : y.policy = .bestEffort) (hfit : y.schema.TypesFit)
    (cause : Fault) (z : Session) : nameAllTypes y ≠ .error (.fault cause) z := by
  intro h
  rcases hplaced : y.placedTypedNodes with halt | ids
  · have hask : ask (·.placedTypedNodes) y = .error halt y := ask_of_eq_error hplaced
    rw [nameAllTypes, bind_of_eq_error hask] at h
    obtain ⟨rfl, -⟩ := EStateM.Result.error.inj h
    cases Session.placedTypedNodes_eq_error hplaced
  · have hask : ask (·.placedTypedNodes) y = .ok ids y := ask_of_eq_ok hplaced
    rw [nameAllTypes, bind_of_eq_ok hask] at h
    have hids : ∀ id ∈ ids, (y.schema.node id).content.typeHandle?.isSome = true := by
      intro id hid
      simpa using (List.mem_filter.1 ((selectM_eq_ok hplaced id).1.1 hid).1).2
    exact passesFaults_checkNames hpolicy hfit hids y rfl cause z h

/-! ### The run -/

theorem typesFit_of_outline_eq {s' : Schema} (h : s'.outline = s.outline) (hfit : s.TypesFit) :
    s'.TypesFit := by
  have houtline : ∀ s : Schema, s.outline.TypesFit ↔ s.TypesFit := by
    intro s
    simp [Schema.TypesFit]
  rw [← houtline, h, houtline]
  exact hfit

/-- **Under best effort, a run on a lowered schema does not stop for a fault.** -/
theorem run_ne_fault (hs : s.Tidy) (hfit : s.TypesFit)
    (hx : Session.start s .bestEffort = .ok x) (order : List ModuleId) (cause : Fault)
    (z : Session) :
    (do completeModules order; nameAllTypes : Link Unit) x ≠ .error (.fault cause) z := by
  obtain ⟨hschema, hpolicy⟩ : x.schema = s ∧ x.setting.policy = .bestEffort := by
    obtain ⟨r, -, rfl⟩ := Session.exists_registry_of_start hx
    exact ⟨rfl, rfl⟩
  have hkinds : ∀ m, ∀ a ∈ x.setting.schema.augmentsOf m, x.setting.schema.kind a = .augment := by
    intro m a ha
    simp only [Session.setting, hschema, Schema.augmentsOf_outline, Schema.kind_outline] at ha ⊢
    exact hs.filesAugments.kind_of_mem_augmentsOf ha
  intro h
  rcases hcomplete : completeModules order x with ⟨_, y⟩ | ⟨halt, y⟩
  · rw [bind_of_eq_ok hcomplete] at h
    have hsetting : y.setting = x.setting := by
      rw [← after_of_eq_ok hcomplete, keeps_completeModules order x]
    have houtline : y.schema.outline = s.outline := by
      rw [← hschema]
      exact congrArg Session.schema hsetting
    exact nameAllTypes_ne_fault (policy_of_setting_eq hpolicy hsetting)
      (typesFit_of_outline_eq houtline hfit) cause z h
  · rw [bind_of_eq_error hcomplete] at h
    obtain ⟨rfl, rfl⟩ := EStateM.Result.error.inj h
    exact passesFaults_completeModules hpolicy hkinds order x rfl cause y hcomplete

end Link

end SchemaLink
