import SchemaLink.Proofs.Faults
import SchemaLink.Proofs.Requests

/-!
# What recording an identity does

Recording an identity looks up its ancestry and then writes down two things: a root, in the module
of that root, and table entries, in the submodule of the identity. `Session.recorded` is the session
with both written down. **A step that does not stop has recorded the identity, and a step that stops
has recorded its root at most** (`Link.after_indexIdentity`); all else that it changes are
diagnostics.

What is written down is read off the outline of the schema (`listedRoot?_setting`,
`entriesOf_setting`). So the order of steps does not matter for it, nor what has been recorded or
merged before.

`Session.ledger` is the view of a session that shows what is recorded. Merging augments and naming
types leave the ledger alone, and so a property of ledgers that recording preserves survives every
sequence of requests (`Recordable.performAll`).
-/

namespace SchemaLink

variable {x y : Session} {m : ModuleId} {u : SubmoduleId} {id base : NodeId}
  {line ancestors : List NodeId}

/-! ### Answers read off the outline -/

@[simp] theorem Schema.firstBase?_outline (s : Schema) (id : NodeId) :
    s.outline.firstBase? id = s.firstBase? id := by
  rcases hc : (s.node id).content <;> simp [firstBase?, hc, Content.mapChildren]

@[simp] theorem Schema.homeName_outline (s : Schema) (id : NodeId) :
    s.outline.homeName id = s.homeName id := by
  simp [homeName, Module.outline]

@[simp] theorem Schema.identitiesOf_outline (s : Schema) (m : ModuleId) :
    s.outline.identitiesOf m = s.identitiesOf m := by
  simp [identitiesOf, Submodule.outline]

namespace Registry

@[simp] theorem identityNamed?_outline (r : Registry) (s : Schema) (home : ModuleId)
    (written : String) :
    r.identityNamed? s.outline home written = r.identityNamed? s home written := by
  simp [identityNamed?, moduleFor_outline]

@[simp] theorem generatedName_outline (r : Registry) (s : Schema) (home : ModuleId)
    (written : String) :
    r.generatedName s.outline home written = r.generatedName s home written := by
  simp [generatedName, moduleFor_outline, Module.outline]

@[simp] theorem familyTypeName_outline (r : Registry) (s : Schema) (id : NodeId) :
    r.familyTypeName s.outline id = r.familyTypeName s id := by
  simp [familyTypeName, familyTypeNameOf]

end Registry

namespace Session

theorem nextBase_setting (x : Session) (id : NodeId) : x.setting.nextBase id = x.nextBase id := by
  simp [nextBase, baseOf, setting]

theorem ancestry_setting (x : Session) (id : NodeId) : x.setting.ancestry id = x.ancestry id := by
  have hsize : x.setting.schema.nodes.size = x.schema.nodes.size :=
    x.schema.size_nodes_outline
  have hfault (passed : List NodeId) (again : NodeId) :
      x.setting.cycleFault id passed again = x.cycleFault id passed again := by
    simp [cycleFault, setting]
  have hfrom (n : Nat) (passed : List NodeId) (current : NodeId) :
      x.setting.ancestryFrom id n passed current = x.ancestryFrom id n passed current := by
    induction n generalizing passed current with
    | zero => rfl
    | succ n ih => simp only [ancestryFrom, nextBase_setting, ih, hfault]
  simp only [ancestry, hfrom, hsize]

theorem entryFor_setting (x : Session) (id base ancestor : NodeId) :
    x.setting.entryFor id base ancestor = x.entryFor id base ancestor := by
  simp [entryFor, setting, Module.outline]

/-! ### What there is to record -/

/-- The root of an identity of the module `m`, with the module that lists it. An identity without
bases is listed by `m`. -/
def listedRoot? (x : Session) (m : ModuleId) (id : NodeId) : Option (ModuleId × NodeId) :=
  match x.ancestry id with
  | .error _ => none
  | .ok [] => some (m, id)
  | .ok (base :: line) => some (x.schema.homeModule (line.getLastD base), line.getLastD base)

/-- The table entries of an identity for some of its ancestors, as far as these have names. -/
def entriesFor (x : Session) (id base : NodeId) (ancestors : List NodeId) : List IdentityEntry :=
  ancestors.filterMap fun a ↦ (x.entryFor id base a).toOption

/-- The table entries of an identity. -/
def entriesOf (x : Session) (id : NodeId) : List IdentityEntry :=
  match x.ancestry id with
  | .ok (base :: line) => x.entriesFor id base (base :: line)
  | _ => []

/-- The session once the root of an identity of the module `m` has been recorded. -/
def withRoot (x : Session) (m : ModuleId) (id : NodeId) : Session :=
  match x.listedRoot? m id with
  | none => x
  | some (owner, root) => x.addRoot owner root

/-- The session once an identity of the submodule `u` of the module `m` has been recorded. -/
def recorded (x : Session) (m : ModuleId) (u : SubmoduleId) (id : NodeId) : Session :=
  (x.withRoot m id).addEntries u (x.schema.node id).name (x.entriesOf id)

theorem listedRoot?_setting (x : Session) (m : ModuleId) (id : NodeId) :
    x.setting.listedRoot? m id = x.listedRoot? m id := by
  have hhome (a : NodeId) : x.setting.schema.homeModule a = x.schema.homeModule a :=
    x.schema.homeModule_outline a
  simp only [listedRoot?, ancestry_setting, hhome]

theorem entriesFor_setting (x : Session) (id base : NodeId) (ancestors : List NodeId) :
    x.setting.entriesFor id base ancestors = x.entriesFor id base ancestors := by
  simp only [entriesFor, entryFor_setting]

theorem entriesOf_setting (x : Session) (id : NodeId) :
    x.setting.entriesOf id = x.entriesOf id := by
  simp only [entriesOf, ancestry_setting, entriesFor_setting]

/-- Recording roots changes no answer. -/
theorem setting_addRoot (x : Session) (m : ModuleId) (root : NodeId) :
    (x.addRoot m root).setting = x.setting :=
  Link.setting_eq_of_untabled_eq (Link.untabled_addRoot x m root)

theorem setting_withRoot (x : Session) (m : ModuleId) (id : NodeId) :
    (x.withRoot m id).setting = x.setting := by
  unfold withRoot
  split
  · rfl
  · exact setting_addRoot x _ _

theorem setting_recorded (x : Session) (m : ModuleId) (u : SubmoduleId) (id : NodeId) :
    (x.recorded m u id).setting = x.setting := by
  rw [recorded, Link.setting_eq_of_untabled_eq (Link.untabled_addEntries _ _ _ _),
    setting_withRoot]

@[simp] theorem node_withRoot (x : Session) (m : ModuleId) (id : NodeId) :
    (x.withRoot m id).schema.node = x.schema.node := by
  unfold withRoot
  split <;> rfl

theorem addEntries_nil (x : Session) (u : SubmoduleId) (identity : String) :
    x.addEntries u identity [] = x := by
  have hmodify (us : Array Submodule) (i : Nat) : us.modify i (fun d ↦ d) = us := by
    refine Array.ext (by simp) fun j _ _ ↦ ?_
    simp [Array.getElem_modify]
  simp [addEntries, Schema.modifySubmodule, hmodify]

/-! The three sorts of identities: faulty ones, roots, and those with ancestors. -/

theorem recorded_of_error {fault : Fault} (h : x.ancestry id = .error fault) :
    x.recorded m u id = x := by
  simp [recorded, withRoot, listedRoot?, entriesOf, h, addEntries_nil]

theorem recorded_of_nil (h : x.ancestry id = .ok []) : x.recorded m u id = x.addRoot m id := by
  simp [recorded, withRoot, listedRoot?, entriesOf, h, addEntries_nil]

theorem withRoot_of_cons (h : x.ancestry id = .ok (base :: line)) :
    x.withRoot m id =
      x.addRoot (x.schema.homeModule (line.getLastD base)) (line.getLastD base) := by
  simp [withRoot, listedRoot?, h]

theorem entriesOf_of_cons (h : x.ancestry id = .ok (base :: line)) :
    x.entriesOf id = x.entriesFor id base (base :: line) := by
  simp [entriesOf, h]

end Session

namespace Link

/-! ### What a step records -/

/-- A question that is attempted changes diagnostics only, and a fault is no answer. -/
theorem attempt_lift_eq_ok {α : Type} {question : Session → Except Fault α} {activity : Activity}
    {found : Option α}
    (h : attempt activity id (ask fun x ↦ Halt.lift (question x)) x = .ok found y) :
    found = (question x).toOption ∧ y.silent = x.silent := by
  have hsilent := silent_attempt activity id (ask fun x ↦ Halt.lift (question x)) x
  rw [after_of_eq_ok h, after_ask] at hsilent
  refine ⟨?_, hsilent⟩
  rcases hanswer : question x with fault | a
  · have hask : ask (fun x ↦ Halt.lift (question x)) x = .error (.fault fault) x :=
      ask_of_eq_error (by rw [hanswer]; rfl)
    rw [attempt_of_eq_fault hask] at h
    obtain ⟨-, z, -, hnone⟩ := bind_eq_ok h
    cases hnone
    rfl
  · have hask : ask (fun x ↦ Halt.lift (question x)) x = .ok a x :=
      ask_of_eq_ok (by rw [hanswer]; rfl)
    rw [attempt_of_eq_ok hask] at h
    cases h
    rfl

/-- Only a strict session stops at a question whose faults are not fatal. -/
theorem exists_attempt_lift_eq_ok {α : Type} (question : Session → Except Fault α)
    (hx : x.policy = .bestEffort) (hmild : Mild (Halt.lift (question x))) (activity : Activity)
    (id : NodeId) :
    ∃ found y, attempt activity id (ask fun x ↦ Halt.lift (question x)) x = .ok found y := by
  rcases hanswer : question x with fault | a
  · have hask : ask (fun x ↦ Halt.lift (question x)) x = .error (.fault fault) x :=
      ask_of_eq_error (by rw [hanswer]; rfl)
    have hfatal : fault.fatal = false := hmild fault (by rw [hanswer]; rfl)
    exact ⟨_, _, attempt_of_not_fatal hask hfatal hx activity id⟩
  · have hask : ask (fun x ↦ Halt.lift (question x)) x = .ok a x :=
      ask_of_eq_ok (by rw [hanswer]; rfl)
    exact ⟨_, _, attempt_of_eq_ok hask activity id⟩

theorem silent_entriesFor (id base : NodeId) (ancestors : List NodeId) (x : Session) :
    ((entriesFor id base ancestors).after x).silent = x.silent :=
  keeps_entriesFor ignores_silent id base ancestors x

theorem entriesFor_eq_ok {entries : List IdentityEntry}
    (h : entriesFor id base ancestors x = .ok entries y) :
    entries = x.entriesFor id base ancestors := by
  induction ancestors generalizing x y entries with
  | nil =>
    cases h
    rfl
  | cons a rest ih =>
    obtain ⟨entry, z, hentry, h⟩ := bind_eq_ok h
    obtain ⟨others, w, hothers, h⟩ := bind_eq_ok h
    obtain ⟨rfl, hz⟩ := attempt_lift_eq_ok hentry
    cases h
    rw [ih hothers, ← z.entriesFor_setting, setting_eq_of_silent_eq hz, x.entriesFor_setting]
    rcases hanswer : x.entryFor id base a with fault | e <;>
      simp [Session.entriesFor, hanswer, Except.toOption]

theorem exists_entriesFor_eq_ok (hx : x.policy = .bestEffort) (id base : NodeId)
    (ancestors : List NodeId) :
    ∃ entries y, entriesFor id base ancestors x = .ok entries y := by
  induction ancestors generalizing x with
  | nil => exact ⟨[], x, rfl⟩
  | cons a rest ih =>
    obtain ⟨entry, z, hz⟩ :=
      exists_attempt_lift_eq_ok (·.entryFor id base a) hx (Session.mild_entryFor base a)
        .locateBase id
    have hpolicy := policy_eq_of_setting_eq (setting_eq_of_silent_eq (attempt_lift_eq_ok hz).2)
    obtain ⟨entries, w, hw⟩ := ih (hpolicy.trans hx)
    exact ⟨_, _, (bind_of_eq_ok hz).trans (bind_of_eq_ok hw)⟩

/-- The entries of an identity with ancestors, in a session with nothing but its root recorded. In a
strict session the names of ancestors may not be found, and then there are no entries. -/
theorem addEntriesFor_cases (m : ModuleId) (u : SubmoduleId) {w : Session}
    (hline : x.ancestry id = .ok (base :: line)) (hw : w.silent = (x.withRoot m id).silent) :
    let step : Link Nat := do
      let entries ← entriesFor id base (base :: line)
      modify fun x ↦ x.addEntries u (x.schema.node id).name entries
      pure 1
    (∃ y, step w = .ok 1 y ∧ y.silent = (x.recorded m u id).silent) ∨
      x.policy ≠ .bestEffort ∧ ∃ halt y, step w = .error halt y ∧
        y.silent = (x.withRoot m id).silent := by
  intro step
  have hsetting : w.setting = x.setting :=
    (setting_eq_of_silent_eq hw).trans (x.setting_withRoot m id)
  have hafter := silent_entriesFor id base (base :: line) w
  rcases hentries : entriesFor id base (base :: line) w with ⟨entries, v⟩ | ⟨halt, v⟩
  · rw [after_of_eq_ok hentries, hw] at hafter
    have hanswer : entries = x.entriesOf id := by
      rw [entriesFor_eq_ok hentries, Session.entriesOf_of_cons hline, ← Session.entriesFor_setting,
        hsetting, Session.entriesFor_setting]
    have hnode : v.schema.node = x.schema.node := by
      rw [Session.schema_of_silent_eq hafter, Session.node_withRoot]
    refine .inl ⟨v.addEntries u (v.schema.node id).name entries, bind_of_eq_ok hentries, ?_⟩
    rw [hanswer, hnode, Session.recorded]
    exact congrArg (·.addEntries u (x.schema.node id).name (x.entriesOf id)) hafter
  · rw [after_of_eq_error hentries, hw] at hafter
    refine .inr ⟨fun hpolicy ↦ ?_, halt, v, bind_of_eq_error hentries, hafter⟩
    obtain ⟨_, _, hok⟩ := exists_entriesFor_eq_ok ((policy_eq_of_setting_eq hsetting).trans hpolicy)
      id base (base :: line)
    rw [hok] at hentries
    cases hentries

/-- **What recording an identity does.** If it does not stop, the identity has been recorded. Only
in a strict session does it stop, and then it has recorded the root at most. -/
theorem indexIdentity_cases (m : ModuleId) (u : SubmoduleId) (id : NodeId) (x : Session) :
    (∃ n y, indexIdentity m u id x = .ok n y ∧ y.silent = (x.recorded m u id).silent) ∨
      x.policy ≠ .bestEffort ∧ ∃ halt y, indexIdentity m u id x = .error halt y ∧
        (y.silent = x.silent ∨ y.silent = (x.withRoot m id).silent) := by
  rcases hfound : attempt .locateBase id (ask fun x ↦ Halt.lift (x.ancestry id)) x with
    ⟨found, z⟩ | ⟨halt, z⟩
  · obtain ⟨rfl, hz⟩ := attempt_lift_eq_ok hfound
    have haddRoot (owner : ModuleId) (root : NodeId) :
        (z.addRoot owner root).silent = (x.addRoot owner root).silent :=
      congrArg (·.addRoot owner root) hz
    rw [indexIdentity, bind_of_eq_ok hfound]
    rcases hline : x.ancestry id with fault | - | ⟨base, line⟩
    · rw [Session.recorded_of_error hline]
      exact .inl ⟨0, z, rfl, hz⟩
    · rw [Session.recorded_of_nil hline]
      exact .inl ⟨1, z.addRoot m id, rfl, haddRoot m id⟩
    · -- the root is recorded before the entries are asked for
      have hroot : (z.addRoot (z.schema.homeModule (line.getLastD base))
          (line.getLastD base)).silent = (x.withRoot m id).silent := by
        rw [Session.withRoot_of_cons hline, Session.schema_of_silent_eq hz, haddRoot]
      rcases addEntriesFor_cases m u hline hroot with ⟨y, hrun, hy⟩ | ⟨hstrict, halt, y, hrun, hy⟩
      · exact .inl ⟨1, y, hrun, hy⟩
      · exact .inr ⟨hstrict, halt, y, hrun, .inr hy⟩
  · refine .inr ⟨fun hpolicy ↦ ?_, halt, z, bind_of_eq_error hfound, .inl ?_⟩
    · obtain ⟨_, _, hok⟩ :=
        exists_attempt_lift_eq_ok (·.ancestry id) hpolicy Session.mild_ancestry .locateBase id
      rw [hok] at hfound
      cases hfound
    · rw [← after_of_eq_error hfound, silent_attempt, after_ask]

theorem silent_of_indexIdentity {n : Nat} (h : indexIdentity m u id x = .ok n y) :
    y.silent = (x.recorded m u id).silent := by
  rcases indexIdentity_cases m u id x with ⟨n', y', hrun, hy⟩ | ⟨-, halt, y', hrun, -⟩
  · rw [hrun] at h
    cases h
    exact hy
  · rw [hrun] at h
    cases h

theorem after_indexIdentity (m : ModuleId) (u : SubmoduleId) (id : NodeId) (x : Session) :
    ((indexIdentity m u id).after x).silent = (x.recorded m u id).silent ∨
      ((indexIdentity m u id).after x).silent = x.silent ∨
      ((indexIdentity m u id).after x).silent = (x.withRoot m id).silent := by
  rcases indexIdentity_cases m u id x with ⟨n, y, hrun, hy⟩ | ⟨-, halt, y, hrun, hy⟩
  · rw [after_of_eq_ok hrun]
    exact .inl hy
  · rw [after_of_eq_error hrun]
    exact .inr hy

end Link

/-! ### Several identities -/

namespace Session

theorem silent_recorded (x : Session) (m : ModuleId) (u : SubmoduleId) (id : NodeId) :
    (x.recorded m u id).silent = x.silent.recorded m u id := by
  have hroot : x.silent.listedRoot? m id = x.listedRoot? m id :=
    (x.silent.listedRoot?_setting m id).symm.trans (x.listedRoot?_setting m id)
  have hentries : x.silent.entriesOf id = x.entriesOf id :=
    (x.silent.entriesOf_setting id).symm.trans (x.entriesOf_setting id)
  simp only [recorded, withRoot, hroot, hentries]
  split <;> rfl

/-- The session once several identities of the module `m` have been recorded. -/
def recordedAll (x : Session) (m : ModuleId) (ids : List (SubmoduleId × NodeId)) : Session :=
  ids.foldl (fun y e ↦ y.recorded m e.1 e.2) x

theorem silent_recordedAll (x : Session) (m : ModuleId) (ids : List (SubmoduleId × NodeId)) :
    (x.recordedAll m ids).silent = x.silent.recordedAll m ids := by
  induction ids generalizing x with
  | nil => rfl
  | cons e rest ih =>
    rw [recordedAll, List.foldl_cons, ← recordedAll, ih, silent_recorded]
    rfl

end Session

namespace Link

theorem silent_of_indexAll {ids : List (SubmoduleId × NodeId)} {n : Nat}
    (h : indexAll m ids x = .ok n y) : y.silent = (x.recordedAll m ids).silent := by
  induction ids generalizing x n with
  | nil =>
    cases h
    rfl
  | cons e rest ih =>
    obtain ⟨first, z, hfirst, h⟩ := bind_eq_ok h
    obtain ⟨others, w, hrest, h⟩ := bind_eq_ok h
    cases h
    rw [ih hrest, Session.silent_recordedAll, silent_of_indexIdentity hfirst,
      ← Session.silent_recordedAll]
    rfl

theorem exists_indexAll_eq_ok (hx : x.policy = .bestEffort) (m : ModuleId)
    (ids : List (SubmoduleId × NodeId)) : ∃ n y, indexAll m ids x = .ok n y := by
  induction ids generalizing x with
  | nil => exact ⟨0, x, rfl⟩
  | cons e rest ih =>
    rcases indexIdentity_cases m e.1 e.2 x with ⟨n, z, hz, hsilent⟩ | ⟨hstrict, -⟩
    · have hpolicy : z.policy = x.policy :=
        policy_eq_of_setting_eq ((setting_eq_of_silent_eq hsilent).trans
          (x.setting_recorded m e.1 e.2))
      obtain ⟨others, w, hw⟩ := ih (hpolicy.trans hx)
      exact ⟨_, _, (bind_of_eq_ok hz).trans (bind_of_eq_ok hw)⟩
    · exact absurd hx hstrict

/-- **Recording the identities of a module** records them one after the other. -/
theorem silent_of_indexIdentitiesOf {n : Nat} (h : indexIdentitiesOf m x = .ok n y) :
    y.silent = (x.recordedAll m (x.schema.identitiesOf m)).silent :=
  silent_of_indexAll h

end Link

/-! ### The ledger -/

namespace Session

/-- What is recorded in a session, and what never changes. -/
def ledger (x : Session) : Session :=
  { x with
    schema := { x.schema with nodes := x.schema.outline.nodes }
    diagnostics := [], targets := [], mergedGroupings := [] }

theorem setting_eq_of_ledger_eq (h : y.ledger = x.ledger) : y.setting = x.setting := by
  have hrest (z : Session) : z.setting =
      { z.ledger with
        schema :=
          { nodes := z.ledger.schema.nodes
            modules := z.ledger.schema.modules.map Module.outline
            submodules := z.ledger.schema.submodules.map Submodule.outline } } := rfl
  rw [hrest x, hrest y, h]

theorem ignoresMerges_ledger : Link.IgnoresMerges ledger where
  ignores := fun _ _ ↦ rfl
  merge := by
    intro x a t added h
    have hnodes : (x.merge a t added).schema.outline.nodes = x.schema.outline.nodes :=
      congrArg (fun z ↦ z.schema.nodes) (Link.setting_merge x a t h)
    simp only [ledger, hnodes]
    rfl

/-- A property of ledgers that recording preserves. -/
structure Recordable (P : Session → Prop) : Prop where
  of_ledger_eq : ∀ {x y : Session}, P x → y.ledger = x.ledger → P y
  withRoot : ∀ {x : Session} (m : ModuleId) (id : NodeId), P x → P (x.withRoot m id)
  addEntries : ∀ {x : Session} (u : SubmoduleId) (id : NodeId), P x →
    P (x.addEntries u (x.schema.node id).name (x.entriesOf id))

namespace Recordable

variable {P : Session → Prop} (hP : Recordable P)
include hP

theorem of_silent_eq (hx : P x) (h : y.silent = x.silent) : P y :=
  hP.of_ledger_eq hx (ignoresMerges_ledger.ignores.eq_of_silent_eq h)

theorem recorded (hx : P x) (m : ModuleId) (u : SubmoduleId) (id : NodeId) :
    P (x.recorded m u id) := by
  have hadd := hP.addEntries u id (hP.withRoot m id hx)
  rwa [← entriesOf_setting, setting_withRoot, entriesOf_setting, node_withRoot] at hadd

theorem indexIdentity (hx : P x) (m : ModuleId) (u : SubmoduleId) (id : NodeId) :
    P ((Link.indexIdentity m u id).after x) := by
  rcases Link.after_indexIdentity m u id x with h | h | h
  · exact hP.of_silent_eq (hP.recorded hx m u id) h
  · exact hP.of_silent_eq hx h
  · exact hP.of_silent_eq (hP.withRoot m id hx) h

theorem indexAll (hx : P x) (m : ModuleId) (ids : List (SubmoduleId × NodeId)) :
    P ((Link.indexAll m ids).after x) := by
  induction ids generalizing x with
  | nil => exact hx
  | cons e rest ih =>
    have hfirst := hP.indexIdentity hx m e.1 e.2
    rcases Link.after_bind (Link.indexIdentity m e.1 e.2) _ x with h | ⟨first, h⟩
    · rw [Link.indexAll, h]
      exact hfirst
    · rw [Link.indexAll, h, Link.after_bind_pure]
      exact ih hfirst

/-- **Step.** One request preserves what recording preserves. -/
theorem perform (hx : P x) (request : Request) : P (x.perform request) := by
  cases request with
  | identities m => exact hP.indexAll hx m _
  | augments m => exact hP.of_ledger_eq hx (ignoresMerges_ledger.keeps_mergeAugmentsOf m x)
  | augment a => exact hP.of_ledger_eq hx (ignoresMerges_ledger.keeps_mergeAugment a x)

/-- **Run.** So does every sequence of requests. -/
theorem performAll (hx : P x) (requests : List Request) : P (x.performAll requests) := by
  induction requests generalizing x with
  | nil => exact hx
  | cons request rest ih => exact ih (hP.perform hx request)

end Recordable

end Session

/-! ### The beginning -/

namespace Schema

/-- Nothing has been recorded. -/
structure Unrecorded (s : Schema) : Prop where
  roots_eq : ∀ m, (s.module m).roots = []
  table_eq : ∀ u, (s.submodule u).table = []

variable {s s' : Schema}

theorem Unrecorded.pushNode (hs : s.Unrecorded) (n : Node) : (s.pushNode n).Unrecorded where
  roots_eq := by
    intro m
    rw [module, modules_pushNode, ← module]
    exact hs.roots_eq m
  table_eq := by
    intro u
    rw [submodule_pushNode]
    split <;> exact hs.table_eq u

/-- Lowering records nothing. -/
theorem Grows.unrecorded (h : s.Grows s') (hs : s.Unrecorded) : s'.Unrecorded := by
  induction h with
  | refl => exact hs
  | module d _ ih =>
    refine ⟨fun m ↦ ?_, fun u ↦ ?_⟩
    · rw [module_pushModule]
      split
      · rfl
      · exact ih.roots_eq m
    · rw [submodule_pushModule]
      split
      · rfl
      · exact ih.table_eq u
  | submodule name _ _ ih =>
    refine ⟨fun m ↦ ?_, fun u ↦ ?_⟩
    · rw [module_pushSubmodule]
      split <;> exact ih.roots_eq m
    · rw [submodule_pushSubmodule]
      split
      · rfl
      · exact ih.table_eq u
  | plain _ _ _ ih => exact ih.pushNode _
  | typed _ _ _ ih => exact (ih.pushNode _).pushNode _
  | member _ _ ih => exact ih.pushNode _

theorem unrecorded_of_ofDocuments {docs : List Document} (h : ofDocuments docs = .ok s) :
    s.Unrecorded :=
  (grows_of_ofDocuments h).unrecorded ⟨fun _ ↦ rfl, fun _ ↦ rfl⟩

end Schema

end SchemaLink
