import SchemaLink.Proofs.Coherence
import SchemaLink.Proofs.MergeEffects
import SchemaLink.Proofs.Repetition

/-!
# Every augment has its turn

Merging the augments of a module is one pass over the bodies of its submodules. Which order they are
visited in is put together from two lists, the includes of the module and the submodules that have
arrived, and the includes may say anything: a name may come twice, may be the name of the module
itself, or of nothing, and two submodules may have the same name. **Still each submodule is visited
once**, the main one first, then those that are included, by first mention, then the others, by
arrival (`Schema.VisitOrder`).

Under best effort a pass does not stop for a fault, so every augment has one turn: it is merged, or
a fault is noted for it (`Link.Pass`). **Merges and faults balance**
(`Link.mergeAugmentsOf_balance`): an augment that uses groupings that are not there is merged all
the same, and what is noted of its uses is noted for another activity.
-/

namespace SchemaLink

variable {s : Schema} {x x' y : Session} {m : ModuleId} {a t : NodeId}

/-! ### Visits -/

namespace Schema

/-- The submodules that the includes of a module name, one for each include that names any. -/
def mentions (s : Schema) (m : ModuleId) : List SubmoduleId :=
  (s.module m).includes.filterMap (s.submoduleNamed? m)

/-- The submodules of a module besides the main one, in the order in which they are visited. -/
structure VisitOrder (s : Schema) (m : ModuleId) (included others : List SubmoduleId) : Prop where
  /-- First come those that are included. -/
  mem_included : ∀ u, u ∈ included ↔
    u ≠ (s.module m).main ∧ ∃ name ∈ (s.module m).includes, s.submoduleNamed? m name = some u
  /-- They come by first mention. -/
  included_order : included.Pairwise fun u v ↦ (s.mentions m).idxOf u < (s.mentions m).idxOf v
  /-- Then come those that are not. -/
  mem_others : ∀ u, u ∈ others ↔
    u ∈ (s.module m).attached ∧ u ≠ (s.module m).main ∧ u ∉ included
  /-- They come by arrival. -/
  others_order : others.Pairwise fun u v ↦
    (s.module m).attached.idxOf u < (s.module m).attached.idxOf v
  /-- No submodule is left out. -/
  mem_units : ∀ u, u ∈ (s.module m).units ↔ u = (s.module m).main ∨ u ∈ included ∨ u ∈ others

theorem exists_visitOrder (s : Schema) (m : ModuleId) :
    ∃ included others, s.VisitOrder m included others ∧
      s.mergeUnits m = (s.module m).main :: (included ++ others) := by
  have hmentions (u : SubmoduleId) : u ∈ s.mentions m ↔
      ∃ name ∈ (s.module m).includes, s.submoduleNamed? m name = some u := List.mem_filterMap
  have hunits (u : SubmoduleId) (h : u ∈ s.mentions m) : u ∈ (s.module m).units := by
    obtain ⟨name, -, hname⟩ := (hmentions u).1 h
    exact List.mem_of_find?_eq_some hname
  -- each list loses what has been visited before, and then what comes again in it
  refine ⟨((s.mentions m).filter fun u ↦ !u == (s.module m).main).eraseDups,
    ((s.module m).attached.filter fun u ↦
      (!u == (s.module m).main) && !(s.mentions m).elem u).eraseDups, ?_, ?_⟩
  · exact
      { mem_included := by
          intro u
          rw [← hmentions]
          simp [and_comm]
        included_order := Distinct.pairwise_idxOf_eraseDups_filter _ _
        mem_others := by
          intro u
          grind [List.mem_eraseDups]
        others_order := Distinct.pairwise_idxOf_eraseDups_filter _ _
        mem_units := by
          intro u
          grind [Module.units, List.mem_eraseDups] }
  · rw [mergeUnits, List.eraseDups_cons, List.filter_append, List.eraseDups_append,
      List.removeAll, List.filter_filter]
    congr 3
    refine List.filter_congr fun u _ ↦ ?_
    grind [mentions]

end Schema

/-! ### What is noted -/

@[simp] theorem Session.isError_item (x : Session) (activity : Activity) (f : NodeId × Fault) :
    (x.item activity f).isError = true := rfl

@[simp] theorem Session.activity_item (x : Session) (activity : Activity) (f : NodeId × Fault) :
    (x.item activity f).activity = activity := rfl

namespace Diagnostics

/-- The items that say that an augment was not merged. -/
def refusals (ds : Diagnostics) : Diagnostics :=
  ds.errors.filter (·.activity = .applyAugment)

theorem refusals_append (ds es : Diagnostics) :
    refusals (ds ++ es) = refusals ds ++ refusals es := by
  simp [refusals, errors]

theorem warnings_append (ds es : Diagnostics) :
    warnings (ds ++ es) = warnings ds ++ warnings es := by
  simp [warnings]

theorem warnings_map_item (x : Session) (activity : Activity) (misses : List (NodeId × Fault)) :
    warnings (misses.map (x.item activity)) = [] := by
  simp [warnings, List.filter_map, Function.comp_def]

theorem refusals_map_item (x : Session) {activity : Activity} (h : activity ≠ .applyAugment)
    (misses : List (NodeId × Fault)) : refusals (misses.map (x.item activity)) = [] := by
  simp [refusals, errors, List.filter_map, Function.comp_def, h]

theorem refusals_cons_item (x : Session) (f : NodeId × Fault) (ds : Diagnostics) :
    refusals (x.item .applyAugment f :: ds) = x.item .applyAugment f :: refusals ds := by
  simp [refusals, errors]

theorem warnings_includeWarnings (module : String) (names : List String) :
    warnings (names.map (includeWarning module)) = names.map (includeWarning module) := by
  simp [warnings, includeWarning, Diagnostic.ofWarning, Diagnostic.isError]

theorem refusals_includeWarnings (module : String) (names : List String) :
    refusals (names.map (includeWarning module)) = [] := by
  simp [refusals, errors, List.filter_map, Function.comp_def, includeWarning, Diagnostic.ofWarning,
    Diagnostic.isError]

end Diagnostics

/-! ### Passes -/

namespace Link

/-- A pass over augments, each with what comes of it: it is merged into a target, or the fault that
prevents this is noted. -/
inductive Pass : Session → List (NodeId × Except Fault NodeId) → Session → Prop where
  | done (x : Session) : Pass x [] x
  | merged {x x' y : Session} {a t : NodeId} {turns : List (NodeId × Except Fault NodeId)}
      (h : mergeAugment a x = .ok t x') (rest : Pass x' turns y) : Pass x ((a, .ok t) :: turns) y
  | refused {x x' y : Session} {a : NodeId} {fault : Fault}
      {turns : List (NodeId × Except Fault NodeId)}
      (h : mergeAugment a x = .error (.fault fault) x')
      (rest : Pass (x'.noteFault .applyAugment (x'.schema.label a) fault) turns y) :
      Pass x ((a, .error fault) :: turns) y

variable {n : Nat} {augments : List NodeId} {turns : List (NodeId × Except Fault NodeId)}

/-- **Run.** What comes to its end is a pass over all augments, in order, and the result is the
number of those that were merged. -/
theorem exists_pass_of_mergeAll (h : mergeAll augments x = .ok n y) :
    ∃ turns, Pass x turns y ∧ turns.map Prod.fst = augments ∧ n = turns.countP (·.2.isOk) := by
  induction augments generalizing x n with
  | nil =>
    obtain ⟨rfl, rfl⟩ := EStateM.Result.ok.inj h
    exact ⟨[], .done x, rfl, rfl⟩
  | cons a rest ih =>
    obtain ⟨first, x', others, hturn, hrest⟩ := mergeAll_cons_eq_ok h
    have hn : n = first.toList.length + others := by
      rw [mergeAll_cons_of_eq_ok hturn hrest] at h
      exact (EStateM.Result.ok.inj h).1.symm
    obtain ⟨turns, hpass, hturns, hothers⟩ := ih hrest
    rcases hmerge : mergeAugment a x with ⟨t, z⟩ | ⟨⟨fault⟩ | -, z⟩
    · rw [turn, attempt_of_eq_ok hmerge] at hturn
      obtain ⟨rfl, rfl⟩ := EStateM.Result.ok.inj hturn
      refine ⟨(a, .ok t) :: turns, .merged hmerge hpass, by simp [hturns], ?_⟩
      simp [hn, hothers, Except.toBool, Nat.add_comm]
    · by_cases hstop : fault.fatal = true ∨ z.policy = .strict
      · rw [turn, attempt_of_stop hmerge hstop] at hturn
        cases hturn
      · have hfatal : fault.fatal = false := by simpa using fun h ↦ hstop (.inl h)
        have hpolicy : z.policy = .bestEffort := by
          cases h : z.policy <;> simp_all
        rw [turn, attempt_of_not_fatal hmerge hfatal hpolicy] at hturn
        obtain ⟨rfl, rfl⟩ := EStateM.Result.ok.inj hturn
        refine ⟨(a, .error fault) :: turns, .refused hmerge hpass, by simp [hturns], ?_⟩
        simp [hn, hothers, Except.toBool]
    · rw [turn, attempt_of_eq_unending hmerge] at hturn
      cases hturn

theorem mergeAll_cons_eq_error {rest : List NodeId} {halt : Halt}
    (h : mergeAll (a :: rest) x = .error halt y) :
    turn a x = .error halt y ∨
      ∃ first x', turn a x = .ok first x' ∧ mergeAll rest x' = .error halt y := by
  rw [mergeAll] at h
  rcases bind_eq_error h with hturn | ⟨first, x', hturn, hothers⟩
  · exact .inl hturn
  · rcases bind_eq_error hothers with hrest | ⟨others, z, -, hpure⟩
    · exact .inr ⟨first, x', hturn, hrest⟩
    · cases hpure

/-- **Run, cut short.** What never comes to its end is a pass over the first augments, and then one
whose own merge never ends. -/
theorem exists_pass_of_mergeAll_eq_unending (hpolicy : x.policy = .bestEffort)
    (h : mergeAll augments x = .error .unending y) :
    ∃ turns a rest, Pass x turns y ∧ augments = turns.map Prod.fst ++ a :: rest ∧
      mergeAugment a y = .error .unending y := by
  induction augments generalizing x with
  | nil => cases h
  | cons a rest ih =>
    have hcases := mergeAll_cons_eq_error h
    rcases hplan : x.mergePlan a with (fault | -) | ⟨t, added⟩
    · -- a fault either stops the pass for itself or is noted
      have hmerge := mergeAugment_of_halt hplan
      cases hfatal : fault.fatal with
      | true =>
        rw [turn, attempt_of_stop hmerge (.inl hfatal)] at hcases
        obtain hstop | ⟨first, x', hturn, -⟩ := hcases
        · cases hstop
        · cases hturn
      | false =>
        rw [turn, attempt_of_not_fatal hmerge hfatal hpolicy] at hcases
        obtain hstop | ⟨first, x', hturn, hrest⟩ := hcases
        · cases hstop
        · obtain ⟨-, rfl⟩ := EStateM.Result.ok.inj hturn
          obtain ⟨turns, b, later, hpass, rfl, hend⟩ := ih (x := x.noteFault _ _ _) hpolicy hrest
          exact ⟨_, b, later, .refused hmerge hpass, rfl, hend⟩
    · have hmerge := mergeAugment_of_halt hplan
      rw [turn, attempt_of_eq_unending hmerge] at hcases
      obtain hstop | ⟨first, x', hturn, -⟩ := hcases
      · obtain ⟨-, rfl⟩ := EStateM.Result.error.inj hstop
        exact ⟨[], a, rest, .done x, rfl, hmerge⟩
      · cases hturn
    · have hmerge := mergeAugment_of_bestEffort hpolicy hplan
      rw [turn, attempt_of_eq_ok hmerge] at hcases
      obtain hstop | ⟨first, x', hturn, hrest⟩ := hcases
      · cases hstop
      · obtain ⟨-, rfl⟩ := EStateM.Result.ok.inj hturn
        obtain ⟨turns, b, later, hpass, rfl, hend⟩ :=
          ih (x := x.mergeNoting a t added) hpolicy hrest
        exact ⟨_, b, later, .merged hmerge hpass, rfl, hend⟩

/-- What a pass notes under best effort: one refusal for each augment that is not merged, and no
warnings. -/
theorem Pass.diagnostics (h : Pass x turns y) (hpolicy : x.policy = .bestEffort) :
    ∃ new, y.diagnostics = x.diagnostics ++ new ∧ new.warnings = [] ∧
      new.refusals.length = turns.countP (!·.2.isOk) := by
  induction h with
  | done x => exact ⟨[], by simp, rfl, rfl⟩
  | @merged x x' y a t turns h rest ih =>
    obtain ⟨added, hplan⟩ := mergePlan_of_mergeAugment h
    rw [mergeAugment_of_bestEffort hpolicy hplan] at h
    obtain ⟨-, rfl⟩ := EStateM.Result.ok.inj h
    obtain ⟨new, hnew, hwarnings, hrefusals⟩ := ih hpolicy
    refine ⟨added.failures.map (x.item .expandUses) ++ new, ?_, ?_, ?_⟩
    · rw [hnew, ← List.append_assoc]
      rfl
    · rw [Diagnostics.warnings_append, Diagnostics.warnings_map_item, List.nil_append, hwarnings]
    · rw [Diagnostics.refusals_append, Diagnostics.refusals_map_item x (by decide), List.nil_append,
        hrefusals]
      simp [Except.toBool]
  | @refused x x' y a fault turns h rest ih =>
    rcases hplan : x.mergePlan a with halt | ⟨t, added⟩
    · rw [mergeAugment_of_halt hplan] at h
      obtain ⟨rfl, rfl⟩ := EStateM.Result.error.inj h
      obtain ⟨new, hnew, hwarnings, hrefusals⟩ := ih hpolicy
      refine ⟨x.item .applyAugment (a, fault) :: new, ?_, ?_, ?_⟩
      · rw [hnew, List.append_cons]
        rfl
      · rw [← hwarnings]
        exact List.filter_cons_of_neg (by simp)
      · rw [Diagnostics.refusals_cons_item, List.length_cons, hrefusals]
        simp [Except.toBool]
    · rw [mergeAugment_of_bestEffort hpolicy hplan] at h
      cases h

/-- What a module notes of its augments so far, in one pass: its missing includes, and a refusal for
each augment that was not merged. -/
theorem Pass.balance (h : Pass (x.noteMissingIncludes m) turns y)
    (hpolicy : x.policy = .bestEffort) :
    ∃ new, y.diagnostics = x.diagnostics ++ new ∧
      turns.countP (·.2.isOk) + new.refusals.length = turns.length ∧
      new.warnings = ((x.schema.module m).includes.filter fun name ↦
        (x.schema.submoduleNamed? m name).isNone).map
          (includeWarning (x.schema.module m).name) := by
  obtain ⟨new, hnew, hwarnings, hrefusals⟩ := h.diagnostics hpolicy
  let missing := (x.schema.missingIncludes m).map (includeWarning (x.schema.module m).name)
  refine ⟨missing ++ new, ?_, ?_, ?_⟩
  · rw [hnew, ← List.append_assoc]
    rfl
  · rw [Diagnostics.refusals_append, Diagnostics.refusals_includeWarnings, List.nil_append,
      hrefusals, List.length_eq_countP_add_countP (·.2.isOk)]
    simp
  · rw [Diagnostics.warnings_append, Diagnostics.warnings_includeWarnings, hwarnings,
      List.append_nil]
    rfl

/-- **Under best effort each augment of a module has one turn**, in the order of visits. If bodies
collect augments that are declared there, none comes twice, and no fault stops the pass: it ends, or
comes to an augment whose own merge never ends. When it ends, the augments that were merged and
those that were refused make up all augments, and there is one warning for each include that names
no submodule. If it never ends, the same is true of the augments before the one at which it
stays. -/
theorem mergeAugmentsOf_balance (hpolicy : x.policy = .bestEffort) (m : ModuleId) :
    ∃ included others augments, x.schema.VisitOrder m included others ∧
      augments = ((x.schema.module m).main :: (included ++ others)).flatMap
        (fun u ↦ (x.schema.submodule u).body.slot .augment) ∧
      (x.schema.FilesAugments →
        augments.Nodup ∧ ∀ fault y, mergeAugmentsOf m x ≠ .error (.fault fault) y) ∧
      (∀ n y, mergeAugmentsOf m x = .ok n y →
        ∃ turns new, Pass (x.noteMissingIncludes m) turns y ∧ turns.map Prod.fst = augments ∧
          n = turns.countP (·.2.isOk) ∧ y.diagnostics = x.diagnostics ++ new ∧
          n + new.refusals.length = augments.length ∧
          new.warnings = ((x.schema.module m).includes.filter fun name ↦
            (x.schema.submoduleNamed? m name).isNone).map
              (includeWarning (x.schema.module m).name)) ∧
      ∀ y, mergeAugmentsOf m x = .error .unending y →
        ∃ turns new a rest, Pass (x.noteMissingIncludes m) turns y ∧
          augments = turns.map Prod.fst ++ a :: rest ∧
          mergeAugment a y = .error .unending y ∧ y.diagnostics = x.diagnostics ++ new ∧
          turns.countP (·.2.isOk) + new.refusals.length = turns.length ∧
          new.warnings = ((x.schema.module m).includes.filter fun name ↦
            (x.schema.submoduleNamed? m name).isNone).map
              (includeWarning (x.schema.module m).name) := by
  obtain ⟨included, others, horder, hunits⟩ := x.schema.exists_visitOrder m
  refine ⟨included, others, x.schema.augmentsOf m, horder, by rw [Schema.augmentsOf, hunits],
    fun hfiled ↦ ⟨hfiled.nodup_augmentsOf m, fun fault y ↦ ?_⟩, fun n y h ↦ ?_, fun y h ↦ ?_⟩
  · have hkinds : ∀ a ∈ x.setting.schema.augmentsOf m, x.setting.schema.kind a = .augment := by
      intro a ha
      simp only [Session.setting, Schema.augmentsOf_outline, Schema.kind_outline] at ha ⊢
      exact hfiled.kind_of_mem_augmentsOf ha
    have hsetting : x.setting.policy = .bestEffort := hpolicy
    exact passesFaults_mergeAugmentsOf hsetting hkinds x rfl fault y
  · have hall : mergeAll (x.schema.augmentsOf m) (x.noteMissingIncludes m) = .ok n y := h
    obtain ⟨turns, hpass, hturns, hn⟩ := exists_pass_of_mergeAll hall
    obtain ⟨new, hnew, hsum, hwarnings⟩ := hpass.balance hpolicy
    refine ⟨turns, new, hpass, hturns, hn, hnew, ?_, hwarnings⟩
    rw [hn, hsum, ← hturns, List.length_map]
  · have hall : mergeAll (x.schema.augmentsOf m) (x.noteMissingIncludes m) =
      .error .unending y := h
    obtain ⟨turns, a, rest, hpass, haugments, hend⟩ :=
      exists_pass_of_mergeAll_eq_unending (x := x.noteMissingIncludes m) hpolicy hall
    obtain ⟨new, hnew, hsum, hwarnings⟩ := hpass.balance hpolicy
    exact ⟨turns, new, a, rest, hpass, haugments, hend, hnew, hsum, hwarnings⟩

end Link

namespace Session

/-- What documents and requests lead to files its augments. -/
theorem filesAugments_performAll {docs : List Document} (hdocs : Schema.ofDocuments docs = .ok s)
    {policy : Policy} (hx : start s policy = .ok x) (requests : List Request) :
    (x.performAll requests).schema.FilesAugments := by
  have hs := Schema.tidy_of_ofDocuments hdocs
  have henriched := enriched_performAll hs hx requests
  have hnode (a : NodeId) : (x.performAll requests).schema.kind a = s.kind a ∧
      ((x.performAll requests).schema.node a).parent = (s.node a).parent :=
    ⟨(henriched.keepsDeclarations hs).kind_eq a,
      by simpa using congrArg (fun z ↦ (z.node a).parent) henriched.outline_eq⟩
  exact
    { nodup_slot := by
        intro u
        rw [henriched.body_eq]
        exact hs.filesAugments.nodup_slot u
      kind_eq := by
        intro u a ha
        rw [henriched.body_eq] at ha
        rw [(hnode a).1, hs.filesAugments.kind_eq u a ha]
      parent_eq := by
        intro u a ha
        rw [henriched.body_eq] at ha
        rw [(hnode a).2, hs.filesAugments.parent_eq u a ha] }

end Session

/-- A module that includes a submodule, itself and a name that means nothing, more than once; there
are three submodules, two of them with the name that is included. The second augment of the module
has no target. -/
def muddled : List Document :=
  [.module
    { name := "sys", ownPrefix := "s", space := "urn:sys"
      includes := ["part", "gone", "sys", "part", "gone"]
      body := [
        .block .container "system" none [],
        .augment "/s:system" none [.typed .leaf "zone" none { name := "string" }],
        .augment "/s:nowhere" none []] },
  .submodule
    { name := "other", owner := "sys"
      body := [.augment "/s:system/s:clock" none [.typed .leaf "rate" none { name := "string" }]] },
  .submodule
    { name := "part", owner := "sys"
      body := [.augment "/s:system" none [.block .container "clock" none []]] },
  .submodule
    { name := "part", owner := "sys"
      body := [.augment "/s:system" none [.uses "missing"]] }]

/-- The augment of `other` is merged, since what it goes into comes from the first `part`, which is
visited before; so is that of the other `part`, although it uses a grouping that is not there. -/
theorem Link.mergeAugmentsOf_balance_muddled :
    ∃ s x n y turns, Schema.ofDocuments muddled = .ok s ∧ Session.start s .bestEffort = .ok x ∧
      mergeAugmentsOf ⟨0⟩ x = .ok n y ∧ Pass (x.noteMissingIncludes ⟨0⟩) turns y ∧
      (turns.map Prod.fst).Nodup ∧ turns.length = 5 ∧ turns.countP (·.2.isOk) = 4 ∧
      y.diagnostics.errors.length = 2 ∧
      y.diagnostics.warnings = [includeWarning "sys" "gone", includeWarning "sys" "gone"] := by
  have hdocs : Schema.ofDocuments muddled = .ok (Schema.ofBatch muddled) :=
    Schema.ofDocuments_of_offences_eq_nil rfl
  obtain ⟨x, hx, hresult⟩ : ∃ x, Session.start (Schema.ofBatch muddled) .bestEffort = .ok x ∧
      (match mergeAugmentsOf ⟨0⟩ x with
        | .ok n y => n = 4 && y.diagnostics.errors.length = 2 && y.diagnostics.refusals.length = 1
        | .error _ _ => false) = true :=
    exists_ok_of_any (by decide +kernel)
  have hfiled := Session.filesAugments_performAll hdocs hx []
  obtain ⟨hschema, hpolicy, hdiagnostics⟩ : x.schema = Schema.ofBatch muddled ∧
      x.policy = .bestEffort ∧ x.diagnostics = [] := by
    obtain ⟨r, -, rfl⟩ := Session.exists_registry_of_start hx
    exact ⟨rfl, rfl, rfl⟩
  rcases hmerge : mergeAugmentsOf ⟨0⟩ x with ⟨n, y⟩ | ⟨halt, y⟩
  · obtain ⟨_, _, augments, _, _, hfine, hends, -⟩ := mergeAugmentsOf_balance hpolicy ⟨0⟩
    obtain ⟨turns, new, hpass, hturns, hn, hnew, hsum, hwarnings⟩ := hends n y hmerge
    obtain rfl : y.diagnostics = new := by rw [hnew, hdiagnostics, List.nil_append]
    obtain ⟨⟨hfour, herrors⟩, hrefusals⟩ :
        (n = 4 ∧ y.diagnostics.errors.length = 2) ∧ y.diagnostics.refusals.length = 1 := by
      simpa [hmerge] using hresult
    have hlength : turns.length = 5 := by
      rw [← hturns, List.length_map, hfour, hrefusals] at hsum
      exact hsum.symm
    have hmissing : ((Schema.ofBatch muddled).module ⟨0⟩).name = "sys" ∧
        ((Schema.ofBatch muddled).module ⟨0⟩).includes.filter (fun name ↦
          ((Schema.ofBatch muddled).submoduleNamed? ⟨0⟩ name).isNone) = ["gone", "gone"] := by
      decide +kernel
    refine ⟨_, x, n, y, turns, hdocs, hx, hmerge, hpass, hturns ▸ (hfine hfiled).1, hlength,
      hn ▸ hfour, herrors, ?_⟩
    rw [hwarnings, hschema, hmissing.1, hmissing.2]
    rfl
  · simp [hmerge] at hresult

end SchemaLink
