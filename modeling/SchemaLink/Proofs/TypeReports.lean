import SchemaLink.CommandLine.Report
import SchemaLink.Proofs.Placement
import SchemaLink.Proofs.Usages

/-!
# What a run says about types

At the end of a run the types of all typed nodes with a place in the data are named, and the faults
are noted. **These items can be recovered from the result**: they are what one gets by asking the
linked schema for the same names again (`Schema.typeItems_of_resolve`).

Two things have to be shown. What is noted before that stage is about other activities
(`Link.Notes`), so that all items about types come from it. And while names are checked one after
the other, only diagnostics are added, which no answer depends on: each question is answered as at
the end of the run (`Link.diagnostics_of_checkNames`).
-/

namespace SchemaLink

/-- The fault of an answer, if it has one. -/
def faultOf? {α : Type} : Except Halt α → Option Fault
  | .error (.fault fault) => some fault
  | _ => none

theorem faultOf?_eq_some_iff {α : Type} {answer : Except Halt α} {fault : Fault} :
    faultOf? answer = some fault ↔ answer = .error (.fault fault) := by
  rcases answer with (⟨_⟩ | -) | _ <;> simp [faultOf?]

namespace Session

/-- A leaf, leaf-list or typedef that has a place in the data. -/
def TypedInData (x : Session) (id : NodeId) : Prop :=
  x.schema.kind id ∈ [.leaf, .leafList, .typedef] ∧ x.inDataTree id = .ok true

/-- The item for a fault in the type of a node. -/
def typeItem (x : Session) (id : NodeId) (fault : Fault) : Diagnostic :=
  .ofFault .resolveType (fault.module?.getD "") (x.schema.label id) fault

/-- The faults in the types of some nodes. -/
def typeFaults (x : Session) (ids : List NodeId) : List (NodeId × Fault) :=
  ids.filterMap fun id ↦ (faultOf? (x.valueTypeName id)).map (id, ·)

theorem mem_typeFaults {x : Session} {ids : List NodeId} {id : NodeId} {fault : Fault} :
    (id, fault) ∈ x.typeFaults ids ↔ id ∈ ids ∧ x.valueTypeName id = .error (.fault fault) := by
  rw [← faultOf?_eq_some_iff]
  simp only [typeFaults, List.mem_filterMap, Option.map_eq_some_iff, Prod.mk.injEq]
  constructor
  · rintro ⟨_, hid, _, hfault, rfl, rfl⟩
    exact ⟨hid, hfault⟩
  · rintro ⟨hid, hfault⟩
    exact ⟨id, hid, fault, hfault, rfl, rfl⟩

/-- Faults are listed in the order of the nodes. -/
theorem pairwise_typeFaults (x : Session) {ids : List NodeId}
    (h : ids.Pairwise (·.index < ·.index)) :
    (x.typeFaults ids).Pairwise (·.1.index < ·.1.index) := by
  refine h.filterMap _ fun i j hij e he f hf ↦ ?_
  obtain ⟨_, -, rfl⟩ := Option.map_eq_some_iff.1 he
  obtain ⟨_, -, rfl⟩ := Option.map_eq_some_iff.1 hf
  exact hij

end Session

namespace Link

variable {α γ : Type} {P : Diagnostic → Prop} {step : Link α} {x y z : Session}

/-! ### Items about other activities -/

/-- A step adds items of one sort to the diagnostics, and does not change those that are there. -/
def Notes (P : Diagnostic → Prop) (step : Link α) : Prop :=
  ∀ x, ∃ new, (step.after x).diagnostics = x.diagnostics ++ new ∧ ∀ d ∈ new, P d

theorem notes_of_diagnostics_eq (h : ∀ x, (step.after x).diagnostics = x.diagnostics) :
    Notes P step :=
  fun x ↦ ⟨[], by rw [h, List.append_nil], by simp⟩

theorem notes_pure (a : α) : Notes P (pure a : Link α) :=
  notes_of_diagnostics_eq fun _ ↦ rfl

theorem notes_ask (question : Session → Except Halt α) : Notes P (ask question) :=
  notes_of_diagnostics_eq fun x ↦ by rw [after_ask]

theorem notes_get_bind {f : Session → Link γ} (h : ∀ x, Notes P (f x)) : Notes P (get >>= f) :=
  fun x ↦ h x x

theorem Notes.bind {f : α → Link γ} (hstep : Notes P step) (hf : ∀ a, Notes P (f a)) :
    Notes P (step >>= f) := by
  intro x
  obtain ⟨new, hnew, hP⟩ := hstep x
  rcases after_bind step f x with h | ⟨a, h⟩
  · exact ⟨new, by rw [h, hnew], hP⟩
  · obtain ⟨more, hmore, hP'⟩ := hf a (step.after x)
    refine ⟨new ++ more, by rw [h, hmore, hnew, List.append_assoc], fun d hd ↦ ?_⟩
    exact (List.mem_append.1 hd).elim (hP d) (hP' d)

section

variable {activity : Activity}
  (hP : ∀ module subject fault, P (.ofFault activity module subject fault))
include hP

theorem notes_tolerate (subject : NodeId) (fault : Fault) :
    Notes P (tolerate activity subject fault) := by
  intro x
  rcases after_tolerate activity subject fault x with h | h
  · exact ⟨[], by rw [h, List.append_nil], by simp⟩
  · refine ⟨[_], by rw [h]; rfl, fun d hd ↦ ?_⟩
    rw [List.mem_singleton.1 hd]
    exact hP _ _ _

theorem notes_tolerateAll (faults : List (NodeId × Fault)) :
    Notes P (tolerateAll activity faults) := by
  induction faults with
  | nil => exact notes_pure _
  | cons f rest ih => exact (notes_tolerate hP f.1 f.2).bind fun _ ↦ ih

theorem Notes.attempt (hstep : Notes P step) (subject : NodeId) :
    Notes P (attempt activity subject step) := by
  intro x
  obtain ⟨new, hnew, hnewP⟩ := hstep x
  rcases after_attempt activity subject step x with h | ⟨fault, h⟩
  · exact ⟨new, by rw [h, hnew], hnewP⟩
  · refine ⟨new ++ [.ofFault activity (fault.module?.getD "")
      ((step.after x).schema.label subject) fault], ?_, fun d hd ↦ ?_⟩
    · rw [h, Session.noteFault, Session.note, hnew, List.append_assoc]
    · rcases List.mem_append.1 hd with hd | hd
      · exact hnewP d hd
      · rw [List.mem_singleton.1 hd]
        exact hP _ _ _

end

/-- The item is about something else than types. -/
def Untyped (d : Diagnostic) : Prop :=
  d.activity ≠ .resolveType

theorem notes_entriesFor (id base : NodeId) (ancestors : List NodeId) :
    Notes Untyped (entriesFor id base ancestors) := by
  induction ancestors with
  | nil => exact notes_pure _
  | cons a rest ih =>
    exact ((notes_ask _).attempt (by simp [Untyped, Diagnostic.ofFault]) _).bind fun _ ↦
      ih.bind fun _ ↦ notes_pure _

theorem notes_indexIdentity (m : ModuleId) (u : SubmoduleId) (id : NodeId) :
    Notes Untyped (indexIdentity m u id) := by
  have hroot (owner : Session → ModuleId) (root : NodeId) :
      Notes Untyped (modify fun x ↦ x.addRoot (owner x) root : Link PUnit) :=
    notes_of_diagnostics_eq fun _ ↦ rfl
  refine ((notes_ask _).attempt (by simp [Untyped, Diagnostic.ofFault]) _).bind fun found ↦ ?_
  match found with
  | none => exact notes_pure _
  | some [] => exact (hroot (fun _ ↦ m) id).bind fun _ ↦ notes_pure _
  | some (base :: line) =>
    refine (hroot (fun x ↦ x.schema.homeModule (line.getLastD base)) _).bind fun _ ↦ ?_
    refine (notes_entriesFor id base (base :: line)).bind fun entries ↦ ?_
    have hentries : Notes Untyped
        (modify fun x ↦ x.addEntries u (x.schema.node id).name entries : Link PUnit) :=
      notes_of_diagnostics_eq fun _ ↦ rfl
    exact hentries.bind fun _ ↦ notes_pure _

theorem notes_indexAll (m : ModuleId) (ids : List (SubmoduleId × NodeId)) :
    Notes Untyped (indexAll m ids) := by
  induction ids with
  | nil => exact notes_pure _
  | cons e rest ih =>
    exact (notes_indexIdentity m e.1 e.2).bind fun _ ↦ ih.bind fun _ ↦ notes_pure _

theorem notes_mergeAugment (a : NodeId) : Notes Untyped (mergeAugment a) := by
  refine (notes_ask _).bind fun plan ↦ ?_
  have hmerge : Notes Untyped (modify (·.merge a plan.1 plan.2) : Link PUnit) :=
    notes_of_diagnostics_eq fun _ ↦ rfl
  refine hmerge.bind fun _ ↦ (notes_tolerateAll ?_ _).bind fun _ ↦ notes_pure _
  simp [Untyped, Diagnostic.ofFault]

theorem notes_mergeAll (augments : List NodeId) : Notes Untyped (mergeAll augments) := by
  induction augments with
  | nil => exact notes_pure _
  | cons a rest ih =>
    exact ((notes_mergeAugment a).attempt (by simp [Untyped, Diagnostic.ofFault]) _).bind fun _ ↦
      ih.bind fun _ ↦ notes_pure _

theorem notes_mergeAugmentsOf (m : ModuleId) : Notes Untyped (mergeAugmentsOf m) := by
  have hwarnings : Notes Untyped (modify (·.noteMissingIncludes m) : Link PUnit) := by
    refine fun x ↦ ⟨_, rfl, fun d hd ↦ ?_⟩
    obtain ⟨name, -, rfl⟩ := List.mem_map.1 hd
    simp [Untyped, includeWarning, Diagnostic.ofWarning]
  exact hwarnings.bind fun _ ↦ notes_get_bind fun _ ↦ notes_mergeAll _

/-- **Nothing is said about types before all modules are complete.** -/
theorem notes_completeModules (ms : List ModuleId) : Notes Untyped (completeModules ms) := by
  induction ms with
  | nil => exact notes_pure _
  | cons m rest ih =>
    have hindex : Notes Untyped (indexIdentitiesOf m) := notes_get_bind fun _ ↦ notes_indexAll m _
    exact hindex.bind fun _ ↦ (notes_mergeAugmentsOf m).bind fun _ ↦ ih

/-! ### Items about types -/

/-- A question that is tried and does not stop the run has an answer or a fault, and the fault is
noted. -/
theorem attempt_ask_eq_ok {question : Session → Except Halt α} {activity : Activity}
    {subject : NodeId} {found : Option α}
    (h : attempt activity subject (ask question) x = .ok found y) :
    question x ≠ .error .unending ∧ y.silent = x.silent ∧
      y.diagnostics = x.diagnostics ++ ((faultOf? (question x)).map fun fault ↦
        .ofFault activity (fault.module?.getD "") (x.schema.label subject) fault).toList := by
  rcases hanswer : question x with (⟨fault⟩ | -) | a
  · have hask : ask question x = .error (.fault fault) x := ask_of_eq_error hanswer
    by_cases hstop : fault.fatal = true ∨ x.policy = .strict
    · simp [attempt_of_stop hask hstop] at h
    · rw [not_or, Bool.not_eq_true] at hstop
      have hpolicy : x.policy = .bestEffort := by
        rcases hx : x.policy with - | - <;> simp_all
      rw [attempt_of_not_fatal hask hstop.1 hpolicy] at h
      obtain ⟨-, rfl⟩ := EStateM.Result.ok.inj h
      exact ⟨by simp, rfl, rfl⟩
  · simp [attempt_of_eq_unending (ask_of_eq_error hanswer)] at h
  · rw [attempt_of_eq_ok (ask_of_eq_ok hanswer)] at h
    obtain ⟨-, rfl⟩ := EStateM.Result.ok.inj h
    exact ⟨by simp, rfl, by simp [faultOf?]⟩

/-- The name of a type does not depend on the items noted since the links were tabled. -/
theorem valueTypeNameBy_of_silent_eq (h : x.silent = y.silent) (id : NodeId) :
    x.valueTypeNameBy (x.linkIn y.links) id = y.valueTypeName id := by
  rw [eq_under_of_silent_eq h, Session.linkIn_under, Session.valueTypeNameBy_under, y.linkIn_links]
  rfl

/-- **The items of the last stage** are the faults of the names, in order, and all names have an
answer or a fault. -/
theorem diagnostics_of_checkNames {ids : List NodeId} (hsilent : x.silent = y.silent)
    (h : checkNames y.links ids x = .ok () z) :
    z.diagnostics = x.diagnostics ++
        (y.typeFaults ids).map (fun f ↦ y.typeItem f.1 f.2) ∧
      ∀ id ∈ ids, y.valueTypeName id ≠ .error .unending := by
  induction ids generalizing x with
  | nil =>
    obtain ⟨-, rfl⟩ := EStateM.Result.ok.inj h
    simp [Session.typeFaults]
  | cons id rest ih =>
    rw [checkNames] at h
    rcases hfirst : attempt .resolveType id (ask fun x ↦ x.valueTypeNameBy (x.linkIn y.links) id) x
      with ⟨found, x'⟩ | ⟨halt, x'⟩
    · rw [bind_of_eq_ok hfirst] at h
      obtain ⟨hends, hsame, hitem⟩ := attempt_ask_eq_ok hfirst
      rw [valueTypeNameBy_of_silent_eq hsilent] at hends hitem
      obtain ⟨hitems, hrest⟩ := ih (hsame.trans hsilent) h
      have hschema : x.schema = y.schema :=
        (congrArg Session.schema hsilent : x.silent.schema = y.silent.schema)
      refine ⟨?_, ?_⟩
      · rw [hitems, hitem, hschema, List.append_assoc]
        rcases hfault : faultOf? (y.valueTypeName id) with - | fault <;>
          simp [Session.typeFaults, Session.typeItem, hfault]
      · intro i hi
        rcases List.mem_cons.1 hi with rfl | hi
        · exact hends
        · exact hrest i hi
    · rw [bind_of_eq_error hfirst] at h
      simp at h

theorem valueTypeName_of_silent_eq (h : x.silent = y.silent) (id : NodeId) :
    x.valueTypeName id = y.valueTypeName id := by
  rw [Session.valueTypeName, ← linkIn_links_of_silent_eq h, valueTypeNameBy_of_silent_eq h]

/-- A selection keeps the order. -/
theorem sublist_of_selectM {question : NodeId → Except Halt Bool} {ids kept : List NodeId}
    (h : selectM question ids = .ok kept) : kept.Sublist ids := by
  induction ids generalizing kept with
  | nil =>
    obtain rfl := Except.ok.inj h
    exact .slnil
  | cons id rest ih =>
    rw [selectM] at h
    split at h
    · simp at h
    · next keep _ =>
      split at h
      · simp at h
      · next kept' hrest =>
        obtain rfl := Except.ok.inj h
        cases keep
        · exact (ih hrest).cons id
        · exact (ih hrest).cons_cons id

end Link

namespace Schema

open Session

variable {s : Schema} {policy : Policy} {l : Linked} {id : NodeId} {ids : List NodeId}

theorem mem_typedNodes_iff {x : Session} :
    id ∈ x.typedNodes ↔ x.schema.kind id ∈ [.leaf, .leafList, .typedef] := by
  rw [typedNodes, List.mem_filter, mem_nodeIds]
  constructor
  · rintro ⟨-, h⟩
    rw [Schema.kind, Node.kind]
    rcases hc : (x.schema.node id).content with _ | _ | _ | ⟨kind, _⟩ | _ | _ <;>
      simp_all [Content.typeHandle?, Content.kind]
    cases kind <;> simp [TypedKind.kind]
  · intro h
    obtain ⟨t, ht⟩ := exists_typeHandle? h
    refine ⟨index_lt_of_kind_ne_uses fun huses ↦ ?_, by simp [ht]⟩
    simp [huses] at h

theorem ChecksTypesOf.mem_iff (h : s.ChecksTypesOf policy l ids) :
    id ∈ ids ↔ l.session.TypedInData id := by
  rw [(Link.selectM_eq_ok h.placedTypedNodes_eq id).1, mem_typedNodes_iff, TypedInData]

/-- **All items about types come from the last stage**, and they are the faults that the result has
in the types checked there. -/
theorem ChecksTypesOf.typeItems_eq (h : s.ChecksTypesOf policy l ids) :
    l.session.diagnostics.filter (·.activity = .resolveType) =
        (l.session.typeFaults ids).map (fun f ↦ l.session.typeItem f.1 f.2) ∧
      ∀ id ∈ ids, l.session.valueTypeName id ≠ .error .unending := by
  obtain ⟨x, y, hx, hcomplete, -, hcheck⟩ := h
  have hsilent : l.session.silent = y.silent := by
    rw [← Link.after_of_eq_ok hcheck]
    exact Link.keeps_checkNames y.links ids y
  have hschema : l.session.schema = y.schema :=
    (congrArg Session.schema hsilent : l.session.silent.schema = y.silent.schema)
  have hnames : l.session.valueTypeName = y.valueTypeName :=
    funext (Link.valueTypeName_of_silent_eq hsilent)
  obtain ⟨hitems, hends⟩ := Link.diagnostics_of_checkNames rfl hcheck
  have hbefore : y.diagnostics.filter (·.activity = .resolveType) = [] := by
    obtain ⟨new, hnew, huntyped⟩ := Link.notes_completeModules l.order x
    obtain ⟨r, -, rfl⟩ := exists_registry_of_start hx
    rw [Link.after_of_eq_ok hcomplete, List.nil_append] at hnew
    rw [hnew]
    exact List.filter_eq_nil_iff.2 fun d hd ↦ by simpa [Link.Untyped] using huntyped d hd
  rw [hitems, List.filter_append, hbefore, List.nil_append]
  simp only [typeFaults, typeItem, hnames, hschema]
  refine ⟨List.filter_eq_self.2 fun d hd ↦ ?_, hends⟩
  obtain ⟨f, -, rfl⟩ := List.mem_map.1 hd
  simp [Diagnostic.ofFault]

theorem valueTypeName_of_not_hasErrors (h : s.ChecksTypesOf policy l ids)
    (hclean : l.session.diagnostics.hasErrors = false) (hid : l.session.TypedInData id) :
    ∃ name, l.session.valueTypeName id = .ok name := by
  obtain ⟨hitems, hends⟩ := h.typeItems_eq
  rcases hname : l.session.valueTypeName id with (⟨fault⟩ | -) | name
  · -- the fault would have been noted as an error
    have hmem : l.session.typeItem id fault ∈ l.session.diagnostics := by
      refine List.mem_of_mem_filter (p := (·.activity = .resolveType)) ?_
      rw [hitems]
      exact List.mem_map.2 ⟨(id, fault), mem_typeFaults.2 ⟨h.mem_iff.2 hid, hname⟩, rfl⟩
    have hno := List.any_eq_false.1 hclean _ hmem
    simp [typeItem, Diagnostic.ofFault, Diagnostic.isError] at hno
  · exact absurd hname (hends id (h.mem_iff.2 hid))
  · exact ⟨name, rfl⟩

end Schema

namespace CommandLine

open Session Schema

variable {s : Schema} {policy : Policy} {l : Linked} {ids : List NodeId}

theorem hasErrors_of_checkReport {json : Bool} (h : (checkReport json l).exitCode = 0) :
    l.session.diagnostics.hasErrors = false := by
  rcases herrors : l.session.diagnostics.hasErrors
  · rfl
  · simp only [checkReport, herrors, jsonReport] at h
    split at h
    · simp at h
    · split at h <;> simp at h

theorem ValueRow.isError_of {x : Session} {id : NodeId} {name : String}
    (h : x.valueTypeName id = .ok name) : (ValueRow.of x x.links id).isError = false := by
  have hname : x.valueTypeNameBy (x.linkIn x.links) id = .ok name := by rwa [x.linkIn_links]
  simp only [isError, ValueRow.of, hname, Except.mapError]

/-- **If no error was noted, every row of the types has a name.** -/
theorem exitCode_typesReport (h : s.ChecksTypesOf policy l ids)
    (hclean : l.session.diagnostics.hasErrors = false) (json : Bool) :
    (typesReport json l).exitCode = 0 := by
  rcases hselect : selectM l.session.inDataTree
      (l.session.schema.nodeIds.filter fun id ↦ (l.session.schema.kind id).holdsValue) with
    halt | placed
  · -- values are among the typed nodes, whose places have all been found out
    obtain ⟨id, hid, herror⟩ := selectM_eq_error hselect
    have htyped : id ∈ l.session.typedNodes :=
      mem_typedNodes_of_holdsValue (by simpa using (List.mem_filter.1 hid).2)
    obtain ⟨keep, hkeep⟩ := (Link.selectM_eq_ok h.placedTypedNodes_eq id).2 htyped
    simp [hkeep] at herror
  · have hrows : (placed.map (ValueRow.of l.session l.session.links)).any ValueRow.isError =
        false := by
      refine List.any_eq_false.2 fun row hrow ↦ ?_
      obtain ⟨id, hid, rfl⟩ := List.mem_map.1 hrow
      obtain ⟨hholder, hplaced⟩ := (Link.selectM_eq_ok hselect id).1.1 hid
      have htyped : id ∈ l.session.typedNodes :=
        mem_typedNodes_of_holdsValue (by simpa using (List.mem_filter.1 hholder).2)
      obtain ⟨name, hname⟩ :=
        valueTypeName_of_not_hasErrors h hclean ⟨mem_typedNodes_iff.1 htyped, hplaced⟩
      simp [ValueRow.isError_of hname]
    simp only [typesReport, valueRows, hselect, hrows, jsonReport]
    split <;> rfl

/-- If checking the files of a call shows no error, listing their types shows none. -/
theorem Call.exitCode_types_of_check (call : Call) (json : Bool) {settings : Settings}
    {workingDir : String} {files : List SourceFile}
    (h : ({ call with command := .check }.execute settings workingDir files).exitCode = 0) :
    ({ call with command := .types, json }.execute settings workingDir files).exitCode = 0 := by
  simp only [execute] at h ⊢
  split at h
  · simp [failed] at h
  · split at h
    · simp [failed] at h
    · next hrun =>
      obtain ⟨ids, hids⟩ := exists_checksTypesOf hrun
      exact exitCode_typesReport hids (hasErrors_of_checkReport h) json

end CommandLine

namespace Schema

open Session CommandLine

variable {s : Schema} {policy : Policy} {l : Linked}

/-- **The items about types are the faults that the result has in its types.** After every run that
ends well, the leaves, leaf-lists and typedefs with a place in the data whose types cannot be named
are noted, by position and each once, with the fault that the linked schema answers; all of these
questions come to an end. So without errors all types of that sort have names, and if checking a
batch shows no error, listing its types shows none. -/
theorem typeItems_of_resolve (hrun : s.resolve policy = .ok l) :
    (∃ faults : List (NodeId × Fault),
      faults.Pairwise (·.1.index < ·.1.index) ∧
      (∀ id fault, (id, fault) ∈ faults ↔
        l.session.TypedInData id ∧ l.session.valueTypeName id = .error (.fault fault)) ∧
      l.session.diagnostics.filter (·.activity = .resolveType) =
        faults.map fun f ↦ l.session.typeItem f.1 f.2) ∧
    (∀ id, l.session.schema.kind id ∈ [.leaf, .leafList, .typedef] →
      ∃ placed, l.session.inDataTree id = .ok placed) ∧
    (∀ id, l.session.TypedInData id → l.session.valueTypeName id ≠ .error .unending) ∧
    (l.session.diagnostics.hasErrors = false → ∀ id, l.session.TypedInData id →
      ∃ name, l.session.valueTypeName id = .ok name) ∧
    ∀ json json', (report json .check l).exitCode = 0 → (report json' .types l).exitCode = 0 := by
  obtain ⟨ids, hids⟩ := exists_checksTypesOf hrun
  obtain ⟨hitems, hends⟩ := hids.typeItems_eq
  have hselect := hids.placedTypedNodes_eq
  refine ⟨⟨l.session.typeFaults ids, ?_, fun id fault ↦ ?_, hitems⟩, ?_, ?_, ?_, ?_⟩
  · refine l.session.pairwise_typeFaults (.sublist (Link.sublist_of_selectM hselect) ?_)
    exact l.session.schema.pairwise_nodeIds.filter _
  · rw [mem_typeFaults, hids.mem_iff]
  · exact fun id hid ↦ (Link.selectM_eq_ok hselect id).2 (mem_typedNodes_iff.2 hid)
  · exact fun id hid ↦ hends id (hids.mem_iff.2 hid)
  · exact fun hclean id ↦ valueTypeName_of_not_hasErrors hids hclean
  · exact fun json json' hcheck ↦
      exitCode_typesReport hids (hasErrors_of_checkReport hcheck) json'

/-- A leaf reference without a path in a typedef, one to itself, an identity reference without its
base, and a fault in a grouping that is never used. -/
def mistyped : List Document :=
  [.module
    { name := "m", ownPrefix := "m", space := "urn:m"
      body := [
        .typed (.typedef) "size" none { name := "leafref" },
        .block .grouping "spare" none
          [.typed .leaf "lost" none { name := "leafref", path := some "../gone" }],
        .block .container "box" none [
          .typed .leaf "self" none { name := "leafref", path := some "../self" },
          .typed .leafList "label" none { name := "string" },
          .typed .leaf "shape" none { name := "identityref", base := some "gone" }]] }]

/-- Three of the four faults are noted; the nodes are those that have them in the result. -/
theorem typeItems_of_resolve_mistyped :
    ∃ l : Linked, (ofBatch mistyped).resolve .bestEffort = .ok l ∧
      l.session.diagnostics.map Diagnostic.code = ["E005", "E009", "E008"] ∧
      ∀ id ∈ [NodeId.mk 0, ⟨6⟩, ⟨10⟩], ∃ fault,
        l.session.valueTypeName id = .error (.fault fault) ∧
          l.session.typeItem id fault ∈ l.session.diagnostics := by
  obtain ⟨l, hrun, hcodes, hfaults⟩ :
      ∃ l, (ofBatch mistyped).resolve .bestEffort = .ok l ∧
        l.session.diagnostics.map Diagnostic.code = ["E005", "E009", "E008"] ∧
        ∀ id ∈ [NodeId.mk 0, ⟨6⟩, ⟨10⟩],
          (l.session.schema.kind id ∈ [.leaf, .leafList, .typedef] ∧
            l.session.inDataTree id = .ok true) ∧
          (faultOf? (l.session.valueTypeName id)).isSome = true :=
    exists_ok_of_any (by decide +kernel)
  obtain ⟨⟨faults, -, hmem, hitems⟩, -⟩ := typeItems_of_resolve hrun
  refine ⟨l, hrun, hcodes, fun id hid ↦ ?_⟩
  obtain ⟨hplaced, hsome⟩ := hfaults id hid
  obtain ⟨fault, hfault⟩ := Option.isSome_iff_exists.1 hsome
  have hname := faultOf?_eq_some_iff.1 hfault
  refine ⟨fault, hname, List.mem_of_mem_filter (p := (·.activity = .resolveType)) ?_⟩
  rw [hitems]
  exact List.mem_map.2 ⟨(id, fault), (hmem id fault).2 ⟨hplaced, hname⟩, rfl⟩

end Schema

end SchemaLink
