import SchemaLink.Proofs.Policies

/-!
# What decides whether a batch is linked

Under best effort, linking a batch ends well or stops for its modules; nothing that stands inside
them can stop it. **Only the headings of the module documents count**: names, own prefixes and
imports. Lowering keeps them in order (`Schema.headings_of_ofDocuments`), whatever the bodies and
the submodules of the batch add, so what registration and ordering ask of a schema can be asked of
its documents.

The graph of imports is read off the documents by names (`Batch.Imports`), and off the registry by
handles (`Registry.Imports`). Where no name occurs twice, the two have the same cycles: a way along
handles is a way along their names, and a way along names is followed handle by handle.
-/

namespace SchemaLink

namespace Batch

/-- No two modules of a batch have the same name, and no two the same prefix. -/
def DistinctKeys (docs : List Document) : Prop :=
  ((modulesOf docs).map ModuleDescription.name).Nodup ∧
    ((modulesOf docs).map ModuleDescription.ownPrefix).Nodup

/-- Among the modules of a batch, the one named `a` imports the one named `b`. -/
def Imports (docs : List Document) (a b : String) : Prop :=
  (∃ doc ∈ modulesOf docs, doc.name = a ∧ ∃ i ∈ doc.imports, i.module = b) ∧
    ∃ doc ∈ modulesOf docs, doc.name = b

/-- No module of a batch imports itself, directly or through others. -/
def ImportsAcyclic (docs : List Document) : Prop :=
  ∀ a, ¬ Relation.TransGen (Imports docs) a a

end Batch

namespace Schema

variable {s : Schema} {docs : List Document}

/-! ### Headings are kept -/

/-- **Lowering keeps the headings of the modules, in order.** -/
theorem headings_of_ofDocuments (h : ofDocuments docs = .ok s) :
    s.headings = (modulesOf docs).map ModuleDescription.heading := by
  obtain ⟨-, rfl⟩ := ofDocuments_eq_ok_iff.1 h
  rw [ofBatch, headings_foldl_enterSubmodule, headings_foldl_enterModule]
  simp [headings]

section

variable (hdocs : ofDocuments docs = .ok s)
include hdocs

/-- The modules of a lowered schema say what their documents say, one by one. -/
theorem map_moduleHandles_eq {α : Type} (f : Heading → α) :
    (s.moduleHandles.map fun m ↦ f (s.module m).heading) =
      (modulesOf docs).map fun doc ↦ f doc.heading := by
  have hheadings := (map_heading_moduleHandles s).trans (headings_of_ofDocuments hdocs)
  simpa [Function.comp_def] using congrArg (List.map f) hheadings

theorem exists_registry_iff :
    (∃ r, Registry.ofSchema s = .ok r) ↔ Batch.DistinctKeys docs := by
  have hnames := map_moduleHandles_eq hdocs Heading.name
  have hprefixes := map_moduleHandles_eq hdocs Heading.ownPrefix
  rw [Registry.exists_ofSchema_eq_ok_iff, Batch.DistinctKeys]
  exact iff_of_eq (congrArg₂ (·.Nodup ∧ ·.Nodup) hnames hprefixes)

theorem exists_document {m : ModuleId} (hm : m ∈ s.moduleHandles) :
    ∃ doc ∈ modulesOf docs, doc.heading = (s.module m).heading := by
  have hmem : (s.module m).heading ∈ s.moduleHandles.map fun m ↦ (s.module m).heading :=
    List.mem_map_of_mem hm
  rw [map_heading_moduleHandles, headings_of_ofDocuments hdocs] at hmem
  exact List.mem_map.1 hmem

theorem exists_moduleHandle {doc : ModuleDescription} (hdoc : doc ∈ modulesOf docs) :
    ∃ m ∈ s.moduleHandles, (s.module m).heading = doc.heading := by
  have hmem : doc.heading ∈ (modulesOf docs).map ModuleDescription.heading :=
    List.mem_map_of_mem hdoc
  rw [← headings_of_ofDocuments hdocs, ← map_heading_moduleHandles] at hmem
  exact List.mem_map.1 hmem

/-! ### The graph of imports -/

variable {r : Registry} (hr : Registry.ofSchema s = .ok r)
include hr

/-- An import between registered modules is one between their names. -/
theorem imports_names {m d : ModuleId} (h : r.Imports s m d) :
    Batch.Imports docs (s.module m).name (s.module d).name := by
  obtain ⟨hm, hd, i, hi, hname⟩ := h
  rw [Registry.modules_of_ofSchema hr] at hm hd
  obtain ⟨doc, hdoc, hheading⟩ := exists_document hdocs hm
  obtain ⟨target, htarget, htargetHeading⟩ := exists_document hdocs hd
  have himports : doc.imports = (s.module m).imports := congrArg Heading.imports hheading
  exact ⟨⟨doc, hdoc, congrArg Heading.name hheading, i, himports ▸ hi, hname⟩,
    target, htarget, congrArg Heading.name htargetHeading⟩

/-- An import between names is one between the registered modules that have them. -/
theorem exists_imports {m : ModuleId} {b : String} (hm : m ∈ r.modules)
    (h : Batch.Imports docs (s.module m).name b) :
    ∃ d, r.Imports s m d ∧ (s.module d).name = b := by
  obtain ⟨⟨doc, hdoc, hname, i, hi, rfl⟩, target, htarget, htargetName⟩ := h
  have hmodules := Registry.modules_of_ofSchema hr
  have hfaithful := (Registry.built_of_ofSchema hr).faithful
  obtain ⟨m', hm', hheading⟩ := exists_moduleHandle hdocs hdoc
  obtain ⟨d, hd, hdHeading⟩ := exists_moduleHandle hdocs htarget
  have hdname : (s.module d).name = i.module :=
    (congrArg Heading.name hdHeading).trans htargetName
  -- the document with the name is that of the module at hand
  obtain rfl : m' = m :=
    hfaithful.eq_of_name_eq (hmodules ▸ hm') hm ((congrArg Heading.name hheading).trans hname)
  have himports : (s.module m').imports = doc.imports := congrArg Heading.imports hheading
  exact ⟨d, ⟨hm, hmodules ▸ hd, i, himports ▸ hi, hdname.symm⟩, hdname⟩

/-- A way along names is followed module by module. -/
theorem exists_transGen_imports {m : ModuleId} {b : String} (hm : m ∈ r.modules)
    (h : Relation.TransGen (Batch.Imports docs) (s.module m).name b) :
    ∃ d, Relation.TransGen (r.Imports s) m d ∧ d ∈ r.modules ∧ (s.module d).name = b := by
  induction h with
  | single hab =>
    obtain ⟨d, hd, hname⟩ := exists_imports hdocs hr hm hab
    exact ⟨d, .single hd, hd.2.1, hname⟩
  | tail _ hbc ih =>
    obtain ⟨c, hc, hmem, rfl⟩ := ih
    obtain ⟨d, hd, hname⟩ := exists_imports hdocs hr hmem hbc
    exact ⟨d, hc.tail hd, hd.2.1, hname⟩

/-- **The documents and the registry have the same cycles of imports.** -/
theorem importsAcyclic_iff : r.ImportsAcyclic s ↔ Batch.ImportsAcyclic docs := by
  constructor
  · intro hacyclic a hcycle
    obtain ⟨b, ⟨⟨doc, hdoc, rfl, -⟩, -⟩, -⟩ := Relation.TransGen.head'_iff.1 hcycle
    obtain ⟨m, hm, hheading⟩ := exists_moduleHandle hdocs hdoc
    rw [← Registry.modules_of_ofSchema hr] at hm
    have hname : (s.module m).name = doc.name := congrArg Heading.name hheading
    rw [← hname] at hcycle
    obtain ⟨d, hway, hd, hback⟩ := exists_transGen_imports hdocs hr hm hcycle
    have hfaithful := (Registry.built_of_ofSchema hr).faithful
    exact hacyclic m (hfaithful.eq_of_name_eq hd hm hback ▸ hway)
  · intro hacyclic m hcycle
    exact hacyclic _ (hcycle.lift (fun m ↦ (s.module m).name) fun _ _ ↦ imports_names hdocs hr)

end

/-! ### The outcomes of a run -/

/-- A run stops with a fault of registration or of ordering, or it does not stop for a fault. -/
theorem resolve_bestEffort_cases (hs : s.Tidy) (hfit : s.TypesFit) :
    (∃ fault, Registry.ofSchema s = .error fault ∧
        s.resolve .bestEffort = .error (.fault fault)) ∨
      ∃ r, Registry.ofSchema s = .ok r ∧
        ((∃ names, ¬ r.ImportsAcyclic s ∧
            s.resolve .bestEffort = .error (.fault (.cyclicImports names))) ∨
          r.ImportsAcyclic s ∧
            ((∃ l, s.resolve .bestEffort = .ok l) ∨ s.resolve .bestEffort = .error .unending)) := by
  rcases hr : Registry.ofSchema s with fault | r
  · refine .inl ⟨fault, rfl, ?_⟩
    simp only [resolve, Session.start, hr]
  · refine .inr ⟨r, rfl, ?_⟩
    have hfaithful := (Registry.built_of_ofSchema hr).faithful
    let x : Session := { schema := s, registry := r, policy := .bestEffort, usages := r.usages s }
    have hx : Session.start s .bestEffort = .ok x := by simp only [Session.start, hr, x]
    rcases horder : r.importOrder s with fault | order
    · obtain ⟨names, rfl⟩ := Registry.importOrder_eq_error horder
      refine .inl ⟨names, fun hacyclic ↦ ?_, by simp only [resolve, hx, x, horder]⟩
      obtain ⟨order, hok⟩ := hfaithful.importOrder_of_acyclic hacyclic
      simp [hok] at horder
    · refine .inr ⟨hfaithful.acyclic_of_importOrder_eq_ok horder, ?_⟩
      rcases hrun : (do Link.completeModules order; Link.nameAllTypes : Link Unit) x with
        ⟨⟨⟩, y⟩ | ⟨⟨cause⟩ | -, y⟩
      · exact .inl ⟨_, resolve_of_run_eq_ok hx horder hrun⟩
      · exact absurd hrun (Link.run_ne_fault hs hfit hx order cause y)
      · exact .inr (resolve_of_run_eq_error hx horder hrun)

/-- **Whether a batch is linked depends on the headings of its modules alone.** Under best effort a
run that comes to an end ends well exactly if the modules differ in their names and in their
prefixes and their imports form no cycle; else it stops for a key that two modules share or, if they
share none, for the cycles. No other fault ever stops it, so none that concerns a node does. -/
theorem resolve_bestEffort_ok_iff (hdocs : ofDocuments docs = .ok s)
    (hends : s.resolve .bestEffort ≠ .error .unending) :
    ((∃ l, s.resolve .bestEffort = .ok l) ↔
        Batch.DistinctKeys docs ∧ Batch.ImportsAcyclic docs) ∧
      ((∃ key value existing,
          s.resolve .bestEffort = .error (.fault (.duplicateModule key value existing))) ↔
        ¬ Batch.DistinctKeys docs) ∧
      ((∃ names, s.resolve .bestEffort = .error (.fault (.cyclicImports names))) ↔
        Batch.DistinctKeys docs ∧ ¬ Batch.ImportsAcyclic docs) ∧
      ∀ fault, s.resolve .bestEffort = .error (.fault fault) →
        (∃ key value existing, fault = .duplicateModule key value existing) ∨
          ∃ names, fault = .cyclicImports names := by
  rcases resolve_bestEffort_cases (tidy_of_ofDocuments hdocs) (typesFit_of_ofDocuments hdocs) with
    ⟨fault, hr, hrun⟩ | ⟨r, hr, hcases⟩
  · have hkeys : ¬ Batch.DistinctKeys docs := by
      rw [← exists_registry_iff hdocs]
      simp [hr]
    obtain ⟨key, value, existing, rfl⟩ := Registry.exists_duplicate_of_ofSchema_eq_error hr
    simp [hrun, hkeys]
  · have hkeys : Batch.DistinctKeys docs := (exists_registry_iff hdocs).1 ⟨r, hr⟩
    rw [importsAcyclic_iff hdocs hr] at hcases
    rcases hcases with ⟨names, hcyclic, hrun⟩ | ⟨hacyclic, ⟨l, hrun⟩ | hrun⟩
    · simp [hrun, hkeys, hcyclic]
    · simp [hrun, hkeys, hacyclic]
    · exact absurd hrun hends

/-- Two modules, one of which imports the other, and in them a base that is not there, a path that
leads nowhere, a leaf that is to be augmented, a grouping that is not there, and two leaf
references, one to nothing and one to itself. -/
def flawed : List Document :=
  [.module
    { name := "m", ownPrefix := "m", space := "urn:m", imports := [⟨"n", "n"⟩]
      body := [
        .identity "shape" none ["gone"],
        .augment "/n:lid" none [],
        .augment "/n:size" none [],
        .augment "/n:box" none [.uses "gone"],
        .typed .leaf "lost" none { name := "leafref", path := some "../gone" },
        .typed .leaf "self" none { name := "leafref", path := some "../self" }] },
  .module
    { name := "n", ownPrefix := "n", space := "urn:n"
      body := [
        .block .container "box" none [],
        .typed .leaf "size" none { name := "int8" }] }]

/-- Every one of the six flaws is noted, and the run ends well. -/
theorem resolve_bestEffort_ok_flawed :
    ∃ s l, ofDocuments flawed = .ok s ∧ s.resolve .bestEffort = .ok l ∧
      l.session.diagnostics.errors.map Diagnostic.code =
        ["E008", "E005", "E006", "E010", "E005", "E009"] ∧
      Batch.DistinctKeys flawed ∧ Batch.ImportsAcyclic flawed := by
  obtain ⟨l, hrun, hcodes⟩ :
      ∃ l, (ofBatch flawed).resolve .bestEffort = .ok l ∧
        l.session.diagnostics.errors.map Diagnostic.code =
          ["E008", "E005", "E006", "E010", "E005", "E009"] :=
    exists_ok_of_any (by decide +kernel)
  have hdocs : ofDocuments flawed = .ok (ofBatch flawed) := ofDocuments_of_offences_eq_nil rfl
  have hends : (ofBatch flawed).resolve .bestEffort ≠ .error .unending := by simp [hrun]
  exact ⟨_, l, hdocs, hrun, hcodes, (resolve_bestEffort_ok_iff hdocs hends).1.1 ⟨l, hrun⟩⟩

end Schema

end SchemaLink
