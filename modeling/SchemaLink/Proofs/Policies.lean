import SchemaLink.Proofs.Tolerance

/-!
# Two policies in step

Under best effort a run notes the faults it passes over; a strict run stops at the first one. **The
strict run is the other one cut off at the first item that is an error** (`Link.Lockstep`): as long
as no such item has been added, both have done the same, and where one is added, the strict run has
stopped with its cause. This holds of every step that is put together by sequence and by attempts
from questions and changes that do not look at the policy. It does not matter that a fault may pass
through several attempts on its way up: the strict run hands it on unchanged.

The other half is that **a run under best effort on a lowered schema never stops for a fault** once
its modules are in order (`Link.PassesFaults`). Only then does an error of the whole run say that
nothing has been noted before it.
-/

namespace SchemaLink

/-- The cause of the first error among some items. -/
def Diagnostics.firstCause? (ds : Diagnostics) : Option Fault :=
  ds.findSome? Diagnostic.cause

/-- Just the errors have causes. -/
def Diagnostics.Caused (ds : Diagnostics) : Prop :=
  ∀ d ∈ ds, d.isError = d.cause.isSome

/-- The strict session that agrees with a session otherwise. -/
def Session.strictly (x : Session) : Session :=
  x.under .strict x.diagnostics

namespace Diagnostics

theorem firstCause?_append (ds es : Diagnostics) :
    firstCause? (ds ++ es) = (firstCause? ds).or (firstCause? es) :=
  List.findSome?_append

theorem Caused.append {ds es : Diagnostics} (hds : Caused ds) (hes : Caused es) :
    Caused (ds ++ es) := by
  intro d hd
  rcases List.mem_append.1 hd with hd | hd
  · exact hds d hd
  · exact hes d hd

theorem caused_nil : Caused [] := by
  intro d hd
  simp at hd

theorem Caused.errors_eq_nil {ds : Diagnostics} (h : Caused ds) (hnone : firstCause? ds = none) :
    errors ds = [] := by
  refine List.filter_eq_nil_iff.2 fun d hd ↦ ?_
  rw [h d hd, List.findSome?_eq_none_iff.1 hnone d hd]
  simp

/-- The first error has the first cause. -/
theorem Caused.exists_errors_eq_cons {ds : Diagnostics} (h : Caused ds) {cause : Fault}
    (hcause : firstCause? ds = some cause) :
    ∃ d rest, errors ds = d :: rest ∧ d.cause = some cause := by
  obtain ⟨before, d, after, rfl, hd, hbefore⟩ := List.findSome?_eq_some_iff.1 hcause
  have hnone : errors before = [] :=
    Caused.errors_eq_nil (fun b hb ↦ h b (by simp [hb])) (List.findSome?_eq_none_iff.2 hbefore)
  have herror : d.isError = true := by
    rw [h d (by simp), hd]
    rfl
  refine ⟨d, errors after, ?_, hd⟩
  rw [errors, List.filter_append, List.filter_cons_of_pos herror]
  rw [errors] at hnone
  rw [hnone, List.nil_append, errors]

end Diagnostics

namespace Link

variable {α γ : Type} {step : Link α} {x : Session} {new : Diagnostics}

/-- The outcome of a strict step when nothing has been passed over. -/
def strictOutcome : EStateM.Result Halt Session α → EStateM.Result Halt Session α
  | .ok a y => .ok a y.strictly
  | .error halt y => .error halt y.strictly

/-- What a step adds to the diagnostics under best effort, and what it does under a strict
policy. -/
structure InStep (step : Link α) (x : Session) (new : Diagnostics) : Prop where
  policy_eq : (step.after x).policy = .bestEffort
  diagnostics_eq : (step.after x).diagnostics = x.diagnostics ++ new
  caused : new.Caused
  same : new.firstCause? = none → step x.strictly = strictOutcome (step x)
  stops : ∀ cause, new.firstCause? = some cause →
    ∃ y, y.policy = .strict ∧ step x.strictly = .error (.fault cause) y

/-- Wherever it starts, a step is taken the same way under both policies up to the first error. -/
def Lockstep (step : Link α) : Prop :=
  ∀ x, x.policy = .bestEffort → ∃ new, InStep step x new

/-! ### Steps that pass over nothing -/

theorem inStep_nil (hpolicy : (step.after x).policy = .bestEffort)
    (hdiagnostics : (step.after x).diagnostics = x.diagnostics)
    (hsame : step x.strictly = strictOutcome (step x)) : InStep step x [] where
  policy_eq := hpolicy
  diagnostics_eq := by rw [hdiagnostics, List.append_nil]
  caused := Diagnostics.caused_nil
  same := fun _ ↦ hsame
  stops := by
    intro cause hcause
    simp [Diagnostics.firstCause?] at hcause

theorem lockstep_pure (a : α) : Lockstep (pure a : Link α) :=
  fun _ hx ↦ ⟨[], inStep_nil hx rfl rfl⟩

theorem lockstep_ask {question : Session → Except Halt α}
    (hquestion : ∀ x : Session, question x.strictly = question x) : Lockstep (ask question) := by
  intro x hx
  refine ⟨[], inStep_nil (by rwa [after_ask]) (by rw [after_ask]) ?_⟩
  rcases h : question x with halt | a
  · rw [ask_of_eq_error h, ask_of_eq_error ((hquestion x).trans h)]
    rfl
  · rw [ask_of_eq_ok h, ask_of_eq_ok ((hquestion x).trans h)]
    rfl

/-- A change that may add warnings. -/
theorem lockstep_modify {change : Session → Session}
    (hstrict : ∀ x : Session, change x.strictly = (change x).strictly)
    (hpolicy : ∀ x, (change x).policy = x.policy)
    (hnew : ∀ x, ∃ new : Diagnostics, (change x).diagnostics = x.diagnostics ++ new ∧
      ∀ d ∈ new, d.isError = false ∧ d.cause = none) :
    Lockstep (modify change : Link PUnit) := by
  intro x hx
  obtain ⟨new, hdiagnostics, hwarnings⟩ := hnew x
  have hnone : new.firstCause? = none := List.findSome?_eq_none_iff.2 fun d hd ↦ (hwarnings d hd).2
  refine ⟨new, (hpolicy x).trans hx, hdiagnostics, ?_, fun _ ↦ ?_, ?_⟩
  · intro d hd
    simp [hwarnings d hd]
  · show EStateM.Result.ok _ (change x.strictly) = .ok _ (change x).strictly
    rw [hstrict]
  · intro cause hcause
    simp [hnone] at hcause

theorem lockstep_get_bind {f : Session → Link γ} (hf : ∀ x : Session, f x.strictly = f x)
    (h : ∀ x, Lockstep (f x)) : Lockstep (get >>= f) := by
  intro x hx
  obtain ⟨new, hpolicy, hdiagnostics, hcaused, hsame, hstops⟩ := h x x hx
  have hstrict : (get >>= f) x.strictly = f x x.strictly := by
    show f x.strictly x.strictly = _
    rw [hf]
  refine ⟨new, hpolicy, hdiagnostics, hcaused, ?_, ?_⟩
  · rw [hstrict]
    exact hsame
  · rw [hstrict]
    exact hstops

/-! ### Sequences -/

section

variable (h : InStep step x new)
include h

theorem InStep.strictly_eq_ok {a : α} {y : Session} (hnone : new.firstCause? = none)
    (hresult : step x = .ok a y) : step x.strictly = .ok a y.strictly := by
  rw [h.same hnone, hresult]
  rfl

theorem InStep.strictly_eq_error {halt : Halt} {y : Session} (hnone : new.firstCause? = none)
    (hresult : step x = .error halt y) : step x.strictly = .error halt y.strictly := by
  rw [h.same hnone, hresult]
  rfl

/-- A step that ends in the same session as another, and hands on what that one stops with. -/
theorem InStep.of_after_eq {other : Link γ} (hafter : other.after x = step.after x)
    (hsame : new.firstCause? = none → other x.strictly = strictOutcome (other x))
    (hstops : ∀ cause y, y.policy = .strict → step x.strictly = .error (.fault cause) y →
      other x.strictly = .error (.fault cause) y) : InStep other x new where
  policy_eq := by rw [hafter, h.policy_eq]
  diagnostics_eq := by rw [hafter, h.diagnostics_eq]
  caused := h.caused
  same := hsame
  stops := by
    intro cause hcause
    obtain ⟨y, hstrict, hy⟩ := h.stops cause hcause
    exact ⟨y, hstrict, hstops cause y hstrict hy⟩

end

theorem Lockstep.bind {f : α → Link γ} (hstep : Lockstep step) (hf : ∀ a, Lockstep (f a)) :
    Lockstep (step >>= f) := by
  intro x hx
  obtain ⟨new, h⟩ := hstep x hx
  rcases hresult : step x with ⟨a, y⟩ | ⟨halt, y⟩
  · have hy := after_of_eq_ok hresult
    obtain ⟨more, h'⟩ := hf a y (by rw [← hy, h.policy_eq])
    have hafter : (step >>= f).after x = (f a).after y := after_bind_of_eq_ok hresult
    refine ⟨new ++ more, by rw [hafter, h'.policy_eq], ?_, h.caused.append h'.caused, ?_, ?_⟩
    · rw [hafter, h'.diagnostics_eq, ← hy, h.diagnostics_eq, List.append_assoc]
    · intro hnone
      rw [Diagnostics.firstCause?_append, Option.or_eq_none_iff] at hnone
      rw [bind_of_eq_ok (h.strictly_eq_ok hnone.1 hresult), bind_of_eq_ok hresult, h'.same hnone.2]
    · -- the strict run stops in whichever of the two steps adds the first error
      intro cause hcause
      rw [Diagnostics.firstCause?_append] at hcause
      rcases hnew : new.firstCause? with - | first
      · rw [bind_of_eq_ok (h.strictly_eq_ok hnew hresult)]
        exact h'.stops cause (by simpa [hnew] using hcause)
      · obtain rfl : first = cause := by simpa [hnew] using hcause
        obtain ⟨z, hstrict, hz⟩ := h.stops first hnew
        exact ⟨z, hstrict, bind_of_eq_error hz⟩
  · refine ⟨new, h.of_after_eq ?_ ?_ fun cause z _ hz ↦ bind_of_eq_error hz⟩
    · rw [after_of_eq_error (bind_of_eq_error hresult), after_of_eq_error hresult]
    · intro hnone
      rw [bind_of_eq_error (h.strictly_eq_error hnone hresult), bind_of_eq_error hresult]
      rfl

/-! ### Faults that are passed over -/

theorem caused_ofFault (activity : Activity) (subject : String) (fault : Fault) :
    Diagnostics.Caused [.ofFault activity (fault.module?.getD "") subject fault] := by
  intro d hd
  obtain rfl := List.mem_singleton.1 hd
  rfl

theorem firstCause?_ofFault (activity : Activity) (subject : String) (fault : Fault) :
    Diagnostics.firstCause? [.ofFault activity (fault.module?.getD "") subject fault] =
      some fault :=
  rfl

theorem lockstep_tolerate (activity : Activity) (subject : NodeId) (fault : Fault) :
    Lockstep (tolerate activity subject fault) := by
  intro x hx
  by_cases hfatal : fault.fatal = true
  · have hstop := tolerate_of_stop (x := x) (.inl hfatal) activity subject
    have hafter := after_of_eq_error hstop
    refine ⟨[], inStep_nil (by rwa [hafter]) (by rw [hafter]) ?_⟩
    rw [tolerate_of_stop (.inl hfatal), hstop]
    rfl
  · have hfatal : fault.fatal = false := by simpa using hfatal
    have hafter := after_of_eq_ok (tolerate_of_not_fatal hfatal hx activity subject)
    refine ⟨_, by rw [hafter]; exact hx, by rw [hafter]; rfl,
      caused_ofFault activity (x.schema.label subject) fault, ?_, ?_⟩
    · intro hnone
      simp [firstCause?_ofFault] at hnone
    · intro cause hcause
      obtain rfl : fault = cause := by simpa [firstCause?_ofFault] using hcause
      exact ⟨x.strictly, rfl, tolerate_of_stop (.inr rfl) activity subject⟩

theorem lockstep_tolerateAll (activity : Activity) (faults : List (NodeId × Fault)) :
    Lockstep (tolerateAll activity faults) := by
  induction faults with
  | nil => exact lockstep_pure _
  | cons f rest ih => exact (lockstep_tolerate activity f.1 f.2).bind fun _ ↦ ih

/-- **An attempt hands on what a strict step stopped with.** -/
theorem lockstep_attempt (hstep : Lockstep step) (activity : Activity) (subject : NodeId) :
    Lockstep (attempt activity subject step) := by
  intro x hx
  obtain ⟨new, h⟩ := hstep x hx
  have hstops : ∀ cause y, y.policy = .strict → step x.strictly = .error (.fault cause) y →
      attempt activity subject step x.strictly = .error (.fault cause) y :=
    fun cause y hy hstop ↦ attempt_of_stop hstop (.inr hy) activity subject
  rcases hresult : step x with ⟨a, y⟩ | ⟨⟨fault⟩ | -, y⟩
  · have hattempt := attempt_of_eq_ok hresult activity subject
    refine ⟨new, h.of_after_eq ?_ (fun hnone ↦ ?_) hstops⟩
    · rw [after_of_eq_ok hattempt, after_of_eq_ok hresult]
    · rw [attempt_of_eq_ok (h.strictly_eq_ok hnone hresult), hattempt]
      rfl
  · have hstrict (hnone : new.firstCause? = none) :
        attempt activity subject step x.strictly = .error (.fault fault) y.strictly :=
      hstops fault y.strictly rfl (h.strictly_eq_error hnone hresult)
    have hy := after_of_eq_error hresult
    by_cases hfatal : fault.fatal = true
    · have hattempt := attempt_of_stop hresult (.inl hfatal) activity subject
      refine ⟨new, h.of_after_eq ?_ (fun hnone ↦ ?_) hstops⟩
      · rw [after_of_eq_error hattempt, hy]
      · rw [hstrict hnone, hattempt]
        rfl
    · -- the fault is passed over here, and it is where the strict run stops
      have hpolicy : y.policy = .bestEffort := by rw [← hy, h.policy_eq]
      have hafter := after_of_eq_ok
        (attempt_of_not_fatal hresult (by simpa using hfatal) hpolicy activity subject)
      have hcause := firstCause?_ofFault activity (y.schema.label subject) fault
      refine ⟨new ++ _, by rw [hafter]; exact hpolicy, ?_,
        h.caused.append (caused_ofFault activity (y.schema.label subject) fault), ?_, ?_⟩
      · rw [hafter, Session.noteFault, Session.note, ← hy, h.diagnostics_eq, List.append_assoc]
      · intro hnone
        rw [Diagnostics.firstCause?_append, hcause] at hnone
        simp at hnone
      · intro cause hfirst
        rw [Diagnostics.firstCause?_append, hcause] at hfirst
        rcases hnew : new.firstCause? with - | first
        · obtain rfl : fault = cause := by simpa [hnew] using hfirst
          exact ⟨y.strictly, rfl, hstrict hnew⟩
        · obtain rfl : first = cause := by simpa [hnew] using hfirst
          obtain ⟨z, hz, hstop⟩ := h.stops first hnew
          exact ⟨z, hz, hstops first z hz hstop⟩
  · have hattempt := attempt_of_eq_unending hresult activity subject
    refine ⟨new, h.of_after_eq ?_ (fun hnone ↦ ?_) hstops⟩
    · rw [after_of_eq_error hattempt, after_of_eq_error hresult]
    · rw [attempt_of_eq_unending (h.strictly_eq_error hnone hresult), hattempt]
      rfl

/-! ### The steps of a run -/

/-- A change that leaves policy and diagnostics alone. -/
theorem lockstep_modify_of_silent {change : Session → Session}
    (hstrict : ∀ x : Session, change x.strictly = (change x).strictly)
    (hpolicy : ∀ x, (change x).policy = x.policy)
    (hdiagnostics : ∀ x, (change x).diagnostics = x.diagnostics) :
    Lockstep (modify change : Link PUnit) :=
  lockstep_modify hstrict hpolicy fun x ↦ ⟨[], by rw [hdiagnostics, List.append_nil], by simp⟩

theorem lockstep_entriesFor (id base : NodeId) (ancestors : List NodeId) :
    Lockstep (entriesFor id base ancestors) := by
  induction ancestors with
  | nil => exact lockstep_pure _
  | cons a rest ih =>
    have hask : Lockstep (ask fun x ↦ Halt.lift (x.entryFor id base a)) :=
      lockstep_ask fun x ↦ congrArg Halt.lift (x.entryFor_under _ _ id base a)
    exact (lockstep_attempt hask _ _).bind fun _ ↦ ih.bind fun _ ↦ lockstep_pure _

theorem lockstep_addRoot (owner : Session → ModuleId) (howner : ∀ x, owner x.strictly = owner x)
    (root : NodeId) : Lockstep (modify fun x ↦ x.addRoot (owner x) root : Link PUnit) :=
  lockstep_modify_of_silent (fun x ↦ by rw [howner]; rfl) (fun _ ↦ rfl) fun _ ↦ rfl

theorem lockstep_indexIdentity (m : ModuleId) (u : SubmoduleId) (id : NodeId) :
    Lockstep (indexIdentity m u id) := by
  have hask : Lockstep (ask fun x ↦ Halt.lift (x.ancestry id)) :=
    lockstep_ask fun x ↦ congrArg Halt.lift (x.ancestry_under _ _ id)
  refine (lockstep_attempt hask _ _).bind fun found ↦ ?_
  match found with
  | none => exact lockstep_pure _
  | some [] =>
    exact (lockstep_addRoot (fun _ ↦ m) (fun _ ↦ rfl) id).bind fun _ ↦ lockstep_pure _
  | some (base :: line) =>
    have hroot := lockstep_addRoot (fun x ↦ x.schema.homeModule (line.getLastD base)) (fun _ ↦ rfl)
      (line.getLastD base)
    refine hroot.bind fun _ ↦ (lockstep_entriesFor id base (base :: line)).bind fun entries ↦ ?_
    have hentries : Lockstep
        (modify fun x ↦ x.addEntries u (x.schema.node id).name entries : Link PUnit) :=
      lockstep_modify_of_silent (fun _ ↦ rfl) (fun _ ↦ rfl) fun _ ↦ rfl
    exact hentries.bind fun _ ↦ lockstep_pure _

theorem lockstep_indexAll (m : ModuleId) (ids : List (SubmoduleId × NodeId)) :
    Lockstep (indexAll m ids) := by
  induction ids with
  | nil => exact lockstep_pure _
  | cons e rest ih =>
    exact (lockstep_indexIdentity m e.1 e.2).bind fun _ ↦ ih.bind fun _ ↦ lockstep_pure _

theorem lockstep_indexIdentitiesOf (m : ModuleId) : Lockstep (indexIdentitiesOf m) :=
  lockstep_get_bind (fun _ ↦ rfl) fun _ ↦ lockstep_indexAll m _

theorem mergePlan_strictly (x : Session) (a : NodeId) : x.strictly.mergePlan a = x.mergePlan a := by
  simp only [Session.mergePlan, Session.strictly, Session.followFrom_under, Session.schema_under,
    Session.registry_under]
  rfl

theorem lockstep_mergeAugment (a : NodeId) : Lockstep (mergeAugment a) := by
  have hask : Lockstep (ask (·.mergePlan a)) := lockstep_ask fun x ↦ mergePlan_strictly x a
  refine hask.bind fun plan ↦ ?_
  have hmerge : Lockstep (modify (·.merge a plan.1 plan.2) : Link PUnit) :=
    lockstep_modify_of_silent (fun _ ↦ rfl) (fun _ ↦ rfl) fun _ ↦ rfl
  exact hmerge.bind fun _ ↦ (lockstep_tolerateAll _ _).bind fun _ ↦ lockstep_pure _

theorem lockstep_mergeAll (augments : List NodeId) : Lockstep (mergeAll augments) := by
  induction augments with
  | nil => exact lockstep_pure _
  | cons a rest ih =>
    exact (lockstep_attempt (lockstep_mergeAugment a) _ _).bind fun _ ↦
      ih.bind fun _ ↦ lockstep_pure _

theorem lockstep_mergeAugmentsOf (m : ModuleId) : Lockstep (mergeAugmentsOf m) := by
  have hnote : Lockstep (modify (·.noteMissingIncludes m) : Link PUnit) := by
    refine lockstep_modify (fun _ ↦ rfl) (fun _ ↦ rfl) fun x ↦ ⟨_, rfl, fun d hd ↦ ?_⟩
    obtain ⟨name, -, rfl⟩ := List.mem_map.1 hd
    exact ⟨rfl, rfl⟩
  exact hnote.bind fun _ ↦ lockstep_get_bind (fun _ ↦ rfl) fun _ ↦ lockstep_mergeAll _

theorem lockstep_completeModules (ms : List ModuleId) : Lockstep (completeModules ms) := by
  induction ms with
  | nil => exact lockstep_pure _
  | cons m rest ih =>
    exact (lockstep_indexIdentitiesOf m).bind fun _ ↦
      (lockstep_mergeAugmentsOf m).bind fun _ ↦ ih

theorem lockstep_checkNames (table : Array (Option LeafLink)) (ids : List NodeId) :
    Lockstep (checkNames table ids) := by
  induction ids with
  | nil => exact lockstep_pure _
  | cons id rest ih =>
    have hask : Lockstep (ask fun x ↦ x.valueTypeNameBy (x.linkIn table) id) :=
      lockstep_ask fun x ↦ by
        rw [Session.strictly, Session.linkIn_under, Session.valueTypeNameBy_under]
    exact (lockstep_attempt hask _ _).bind fun _ ↦ ih

theorem lockstep_nameAllTypes : Lockstep nameAllTypes := by
  have hask : Lockstep (ask (·.placedTypedNodes)) :=
    lockstep_ask fun x ↦ x.placedTypedNodes_under _ _
  refine hask.bind fun ids ↦ lockstep_get_bind (fun x ↦ ?_) fun x ↦ lockstep_checkNames x.links ids
  rw [Session.strictly, Session.links_under]

end Link

/-- The strict result that agrees with a result otherwise: the same order, and a session with the
same schema, targets and diagnostics. -/
def Linked.strictly (l : Linked) : Linked :=
  { l with session := l.session.strictly }

namespace Schema

variable {s : Schema} {x : Session}

theorem start_strict (s : Schema) :
    Session.start s .strict = (Session.start s .bestEffort).map Session.strictly := by
  rw [Session.start, Session.start]
  rcases Registry.ofSchema s with fault | r <;> rfl

section

variable {policy : Policy} {order : List ModuleId} {y : Session}
  (hx : Session.start s policy = .ok x) (horder : x.registry.importOrder s = .ok order)
include hx horder

theorem resolve_of_run_eq_ok
    (hrun : (do Link.completeModules order; Link.nameAllTypes : Link Unit) x = .ok () y) :
    s.resolve policy = .ok { session := y, order } := by
  simp only [resolve, hx, horder, hrun]

theorem resolve_of_run_eq_error {halt : Halt}
    (hrun : (do Link.completeModules order; Link.nameAllTypes : Link Unit) x = .error halt y) :
    s.resolve policy = .error halt := by
  simp only [resolve, hx, horder, hrun]

end

/-- **The outcomes of the two runs.** -/
theorem resolve_cases (hs : s.Tidy) (hfit : s.TypesFit) :
    (∃ e, s.resolve .bestEffort = .error (.fault e) ∧ s.resolve .strict = .error (.fault e)) ∨
      (s.resolve .bestEffort = .error .unending ∧ ∃ halt, s.resolve .strict = .error halt) ∨
      ∃ l, s.resolve .bestEffort = .ok l ∧ l.session.diagnostics.Caused ∧
        (l.session.diagnostics.firstCause? = none ∧ s.resolve .strict = .ok l.strictly ∨
          ∃ e, l.session.diagnostics.firstCause? = some e ∧
            s.resolve .strict = .error (.fault e)) := by
  rcases hx : Session.start s .bestEffort with e | x
  · refine .inl ⟨e, ?_, ?_⟩
    · rw [resolve, hx]
    · rw [resolve, start_strict, hx]
      rfl
  · have hstrict : Session.start s .strict = .ok x.strictly := by
      rw [start_strict, hx]
      rfl
    rcases horder : x.registry.importOrder s with e | order
    · refine .inl ⟨e, ?_, ?_⟩
      · simp only [resolve, hx, horder]
      · simp only [resolve, hstrict]
        rw [show x.strictly.registry = x.registry from rfl, horder]
    · obtain ⟨hpolicy, hempty⟩ : x.policy = .bestEffort ∧ x.diagnostics = [] := by
        obtain ⟨r, -, rfl⟩ := Session.exists_registry_of_start hx
        exact ⟨rfl, rfl⟩
      obtain ⟨new, -, hnew, hcaused, hsame, hstops⟩ :=
        ((Link.lockstep_completeModules order).bind fun _ ↦ Link.lockstep_nameAllTypes) x hpolicy
      rw [hempty, List.nil_append] at hnew
      have hstops' : ∀ e, new.firstCause? = some e → s.resolve .strict = .error (.fault e) := by
        intro e he
        obtain ⟨z, -, hz⟩ := hstops e he
        exact resolve_of_run_eq_error hstrict horder hz
      rcases hrun : (do Link.completeModules order; Link.nameAllTypes : Link Unit) x with
        ⟨⟨⟩, y⟩ | ⟨⟨cause⟩ | -, y⟩
      · obtain rfl : y.diagnostics = new := by rw [← hnew, Link.after_of_eq_ok hrun]
        refine .inr (.inr ⟨_, resolve_of_run_eq_ok hx horder hrun, hcaused, ?_⟩)
        rcases hcause : y.diagnostics.firstCause? with - | e
        · rw [hrun] at hsame
          exact .inl ⟨rfl, resolve_of_run_eq_ok hstrict horder (hsame hcause)⟩
        · exact .inr ⟨e, rfl, hstops' e hcause⟩
      · -- a fault of this run would say nothing about the strict one, which may have stopped before
        exact absurd hrun (Link.run_ne_fault hs hfit hx order cause y)
      · refine .inr (.inl ⟨resolve_of_run_eq_error hx horder hrun, ?_⟩)
        rcases hcause : new.firstCause? with - | e
        · rw [hrun] at hsame
          exact ⟨.unending, resolve_of_run_eq_error hstrict horder (hsame hcause)⟩
        · exact ⟨.fault e, hstops' e hcause⟩

/-- **The strict run is the run under best effort, cut off at the first error.** If that one fails,
the strict one fails alike; if it notes no error, the strict one has the same result; if it notes
errors, the strict one fails with the cause of the first; and a strict run that ends well is the run
under best effort, without errors. -/
theorem resolve_strict_of_bestEffort {docs : List Document} (hdocs : ofDocuments docs = .ok s) :
    (∀ e, s.resolve .bestEffort = .error (.fault e) → s.resolve .strict = .error (.fault e)) ∧
      (∀ l, s.resolve .bestEffort = .ok l → l.session.diagnostics.errors = [] →
        s.resolve .strict = .ok l.strictly) ∧
      (∀ l d rest, s.resolve .bestEffort = .ok l → l.session.diagnostics.errors = d :: rest →
        ∃ e, d.cause = some e ∧ s.resolve .strict = .error (.fault e)) ∧
      ∀ l, s.resolve .strict = .ok l →
        ∃ l', s.resolve .bestEffort = .ok l' ∧ l'.session.diagnostics.errors = [] ∧
          l = l'.strictly := by
  rcases resolve_cases (tidy_of_ofDocuments hdocs) (typesFit_of_ofDocuments hdocs) with
    ⟨e, hbest, hstrict⟩ | ⟨hbest, halt, hstrict⟩ | ⟨l, hbest, hcaused, hcases⟩
  · exact ⟨by simp [hbest, hstrict], by simp [hbest], by simp [hbest], by simp [hstrict]⟩
  · exact ⟨by simp [hbest], by simp [hbest], by simp [hbest], by simp [hstrict]⟩
  · rcases hcases with ⟨hnone, hstrict⟩ | ⟨e, hsome, hstrict⟩
    · have herrors := hcaused.errors_eq_nil hnone
      refine ⟨by simp [hbest], ?_, ?_, ?_⟩
      · intro l₁ hl₁ _
        obtain rfl := Except.ok.inj (hbest.symm.trans hl₁)
        exact hstrict
      · intro l₁ d rest hl₁ hd
        obtain rfl := Except.ok.inj (hbest.symm.trans hl₁)
        simp [herrors] at hd
      · intro l₁ hl₁
        exact ⟨l, hbest, herrors, (Except.ok.inj (hstrict.symm.trans hl₁)).symm⟩
    · obtain ⟨d, rest, herrors, hcause⟩ := hcaused.exists_errors_eq_cons hsome
      refine ⟨by simp [hbest], ?_, ?_, by simp [hstrict]⟩
      · intro l₁ hl₁ hnone
        obtain rfl := Except.ok.inj (hbest.symm.trans hl₁)
        simp [herrors] at hnone
      · intro l₁ d₁ rest₁ hl₁ hd₁
        obtain rfl := Except.ok.inj (hbest.symm.trans hl₁)
        obtain ⟨rfl, -⟩ := List.cons.inj (herrors.symm.trans hd₁)
        exact ⟨e, hcause, hstrict⟩

/-- Of the two augments of the batch, the second leads nowhere. That is noted under best effort, and
it is what the strict run stops for. -/
theorem resolve_strict_furnished :
    ∃ s l d e, ofDocuments furnished = .ok s ∧ s.resolve .bestEffort = .ok l ∧
      l.session.diagnostics.errors = [d] ∧ d.cause = some e ∧
      s.resolve .strict = .error (.fault e) := by
  have hdocs : ofDocuments furnished = .ok (ofBatch furnished) := ofDocuments_of_offences_eq_nil rfl
  have hcount : ((ofBatch furnished).resolve .bestEffort).toOption.map
      (fun l ↦ l.session.diagnostics.errors.length) = some 1 := by
    decide +kernel
  obtain ⟨l, hl, hlength⟩ := Option.map_eq_some_iff.1 hcount
  have hrun := toOption_eq_some_iff.1 hl
  obtain ⟨d, herrors⟩ := List.length_eq_one_iff.1 hlength
  obtain ⟨e, hcause, hstrict⟩ := (resolve_strict_of_bestEffort hdocs).2.2.1 l d [] hrun herrors
  exact ⟨_, l, d, e, hdocs, hrun, herrors, hcause, hstrict⟩

end Schema

end SchemaLink
