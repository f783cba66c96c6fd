import SchemaLink.Proofs.Policies

/-!
# Merging the augments of a module again

A merge enters only what is not there yet, so one may expect a second pass over the augments of a
module to change nothing. **That depends on where the paths lead by then**: the target of an augment
is looked for again, in a schema that the augments after it have changed, and a child that one of
them has brought in may come before the node that the path led to at first.

* What is recorded has been done: in every session, the target recorded for an augment holds all
  that it admits of the contribution of the augment (`Session.Supplied`).
* A pass that notes no error is one that a strict session would make too, so that afterwards a
  target is recorded for each augment of the module (`Link.exists_mergedTarget?_of_clean`).
* So an augment that is led back to its recorded target adds nothing, and the pass adds something
  exactly if an augment, when its turn comes, is led elsewhere, to a node that lacks a part of its
  contribution (`Supplied.children_mergeAll_iff`).
-/

namespace SchemaLink

variable {s : Schema} {x y : Session} {a t id : NodeId} {k : Kind} {added : Contribution}

/-! ### Merges that add nothing -/

theorem Children.insertAll_eq_self {c : Children} {fields : List (Kind × NodeId)}
    (h : ∀ f ∈ fields, f ∈ c.entries) : c.insertAll fields = c := by
  induction fields with
  | nil => rfl
  | cons f fields ih =>
    have hinsert : c.insert f.1 f.2 = c := by simp [insert, takes, h f (by simp)]
    rw [insertAll, List.foldl_cons, hinsert]
    exact ih fun g hg ↦ h g (by simp [hg])

theorem Content.mapChildren_congr {f f' : Children → Children} {c : Content}
    (h : f (c.children?.getD {}) = f' (c.children?.getD {})) :
    c.mapChildren f = c.mapChildren f' := by
  cases c <;> simp_all [mapChildren, children?]

/-- A change of children is known by what becomes of the children that are there. -/
theorem Schema.modifyChildren_congr {f f' : Children → Children}
    (h : f (s.node id).children = f' (s.node id).children) :
    s.modifyChildren id f = s.modifyChildren id f' := by
  have hnodes : (s.nodes.modify id.index fun n ↦ { n with content := n.content.mapChildren f }) =
      s.nodes.modify id.index fun n ↦ { n with content := n.content.mapChildren f' } := by
    refine Array.ext (by simp) fun i hi _ ↦ ?_
    have hi : i < s.nodes.size := by simpa using hi
    by_cases hid : id.index = i
    · subst hid
      have hnode : s.node id = s.nodes[id.index] := by simp [node, hi]
      rw [hnode] at h
      simp [Array.getElem_modify, Content.mapChildren_congr h]
    · simp [Array.getElem_modify, hid]
  rw [modifyChildren, hnodes, modifyChildren]

theorem Schema.modifyChildren_eq_self {f : Children → Children}
    (h : f (s.node id).children = (s.node id).children) : s.modifyChildren id f = s := by
  have hself : ∀ c : Content, c.mapChildren (fun c ↦ c) = c := by
    rintro (_ | _ | _ | _ | _ | _) <;> rfl
  have hnodes : (s.nodes.modify id.index fun n ↦ n) = s.nodes :=
    Array.ext (by simp) (by simp [Array.getElem_modify])
  calc s.modifyChildren id f
      = s.modifyChildren id fun c ↦ c := modifyChildren_congr h
    _ = s := by simp only [modifyChildren, hself, hnodes]

namespace Session

/-- A node holds all that it admits of a contribution. -/
def HoldsAll (x : Session) (t : NodeId) (added : Contribution) : Prop :=
  ∀ f ∈ added.fields, admits (x.schema.kind t) f.1 = true → f ∈ (x.schema.node t).children.entries

/-- The path of an augment leads to the target that is recorded for it. -/
def Returns (x : Session) (a : NodeId) : Prop :=
  ∃ t added, x.mergePlan a = .ok (t, added) ∧ x.mergedTarget? a = some t

instance (x : Session) (a : NodeId) : Decidable (x.Returns a) :=
  decidable_of_iff
    ((x.mergePlan a).toOption.any (fun plan ↦ x.mergedTarget? a = some plan.1) = true)
    (by rcases hplan : x.mergePlan a with _ | ⟨t, added⟩ <;> simp [Returns, Except.toOption, hplan])

/-- An augment that is led to another node than the one recorded for it finds its contribution
there. -/
def FindsElsewhere (x : Session) (a : NodeId) : Prop :=
  ∀ t added, x.mergePlan a = .ok (t, added) → x.mergedTarget? a ≠ some t → x.HoldsAll t added

theorem HoldsAll.schema_merge (h : x.HoldsAll t added) (a : NodeId) :
    (x.merge a t added).schema = x.schema := by
  refine Schema.modifyChildren_eq_self (Children.insertAll_eq_self fun f hf ↦ ?_)
  obtain ⟨hmem, hadmits⟩ := List.mem_filter.1 hf
  exact h f hmem hadmits

/-- After a merge the target holds the contribution. -/
theorem mem_entries_merge (hplan : x.mergePlan a = .ok (t, added)) {f : Kind × NodeId}
    (hf : f ∈ added.fields) (hadmits : admits (x.schema.kind t) f.1 = true) :
    f ∈ ((x.merge a t added).schema.node t).children.entries := by
  obtain ⟨path, children, -, -, ht, rfl⟩ := Link.mergePlan_eq_ok hplan
  rw [children_merge _ ht, if_pos rfl, Children.mem_entries_insertAll collected_of_mem_admitted]
  exact .inr (List.mem_filter.2 ⟨hf, hadmits⟩)

/-- A merge keeps what is there. -/
theorem entries_merge_extends (hplan : x.mergePlan a = .ok (t, added)) (j : NodeId) :
    (x.schema.node j).children.entries <+:
      ((x.merge a t added).schema.node j).children.entries := by
  obtain ⟨_, _, -, -, ht, rfl⟩ := Link.mergePlan_eq_ok hplan
  rw [children_merge _ ht]
  split
  · exact Children.entries_insertAll_extends
  · exact List.prefix_rfl

/-- Collections only grow. -/
theorem stable_extends (x : Session) :
    Stable fun y ↦ ∀ j, (x.schema.node j).children.entries <+:
      (y.schema.node j).children.entries :=
  .of_merge (fun _ ↦ .rfl) fun hy hplan j ↦ (hy j).trans (entries_merge_extends hplan j)

theorem mergedTarget?_of_silent_eq (h : y.silent = x.silent) (a : NodeId) :
    y.mergedTarget? a = x.mergedTarget? a :=
  (congrArg (mergedTarget? · a) h : y.silent.mergedTarget? a = x.silent.mergedTarget? a)

/-! ### Recorded targets are supplied -/

/-- A session started from a schema in which each recorded target holds what it admits of the
contribution of its augment. -/
structure Supplied (s : Schema) (x : Session) : Prop extends Enriched s x where
  mem_entries : ∀ a t, x.mergedTarget? a = some t → ∀ k id, x.registry.Contributes s a k id →
    admits (s.kind t) k = true → (k, id) ∈ (x.schema.node t).children.entries

namespace Supplied

/-- **Step.** A merge supplies its target, and takes nothing from the others. -/
theorem stable (hs : s.Tidy) : Stable (Supplied s) where
  of_untabled_eq := by
    intro x y hx heq
    have transport (P : Session → Prop) (hP : P x.untabled) : P y.untabled := heq ▸ hP
    exact
      { toEnriched := hx.toEnriched.of_untabled_eq heq
        mem_entries := transport
          (fun z ↦ ∀ a t, z.mergedTarget? a = some t → ∀ k id, z.registry.Contributes s a k id →
            admits (s.kind t) k = true → (k, id) ∈ (z.schema.node t).children.entries)
          hx.mem_entries }
  merge := by
    intro x a t added hx hplan
    have hkeeps := hx.keepsDeclarations hs
    refine ⟨(Enriched.stable hs).merge hx.toEnriched hplan, fun b j hb k id hid hadmits ↦ ?_⟩
    rw [mergedTarget?_merge] at hb
    split at hb
    · next hba =>
      obtain rfl : t = j := by simpa using hb
      obtain ⟨path, children, hcontent, -, ht, rfl⟩ := Link.mergePlan_eq_ok hplan
      refine mem_entries_merge hplan ((hx.mem_fields_iff hs hcontent).2 (hba ▸ hid)) ?_
      rwa [hkeeps.kind_eq]
    · exact (entries_merge_extends hplan j).subset (hx.mem_entries b j hb k id hid hadmits)

/-- **An augment that is led back to its target has nothing to add.** -/
theorem holds (hs : s.Tidy) (h : Supplied s x) (hplan : x.mergePlan a = .ok (t, added))
    (ht : x.mergedTarget? a = some t) : x.HoldsAll t added := by
  obtain ⟨path, children, hcontent, -, -, rfl⟩ := Link.mergePlan_eq_ok hplan
  intro f hf hadmits
  rw [(h.keepsDeclarations hs).kind_eq] at hadmits
  exact h.mem_entries a t ht f.1 f.2 ((h.mem_fields_iff hs hcontent).1 hf) hadmits

end Supplied

theorem supplied_start (hs : s.Tidy) {policy : Policy} (h : start s policy = .ok x) :
    Supplied s x := by
  have henriched := enriched_start hs h
  obtain ⟨r, -, rfl⟩ := exists_registry_of_start h
  exact { toEnriched := henriched, mem_entries := by simp [mergedTarget?] }

end Session

/-! ### Passes -/

namespace Link

variable {n : Nat} {augments rest : List NodeId}

/-- The turn of an augment in a pass. -/
abbrev turn (a : NodeId) : Link (Option NodeId) :=
  attempt .applyAugment a (mergeAugment a)

/-- A pass that is completed gives the first augment its turn, and then the others theirs. -/
theorem mergeAll_cons_eq_ok (h : mergeAll (a :: rest) x = .ok n y) :
    ∃ first x' others, turn a x = .ok first x' ∧
      mergeAll rest x' = .ok others y := by
  rw [mergeAll] at h
  rcases hfirst : turn a x with ⟨first, x'⟩ | ⟨halt, x'⟩
  · rw [bind_of_eq_ok hfirst] at h
    rcases hrest : mergeAll rest x' with ⟨others, z⟩ | ⟨halt, z⟩
    · rw [bind_of_eq_ok hrest] at h
      obtain ⟨-, rfl⟩ := EStateM.Result.ok.inj h
      exact ⟨first, x', others, rfl, hrest⟩
    · simp [bind_of_eq_error hrest] at h
  · simp [bind_of_eq_error hfirst] at h

theorem mergeAll_cons_of_eq_ok {first : Option NodeId} {x' : Session} {others : Nat}
    (hfirst : turn a x = .ok first x')
    (hrest : mergeAll rest x' = .ok others y) :
    mergeAll (a :: rest) x = .ok (first.toList.length + others) y := by
  rw [mergeAll, bind_of_eq_ok hfirst, bind_of_eq_ok hrest]
  rfl

theorem after_mergeAll_cons {first : Option NodeId} {x' : Session}
    (h : turn a x = .ok first x') :
    (mergeAll (a :: rest)).after x = (mergeAll rest).after x' := by
  rw [mergeAll, after_bind_of_eq_ok h, after_bind_pure]

/-- Whenever an augment of a pass has its turn, something is true of it and of the session. -/
def EachTurn (P : Session → NodeId → Prop) (augments : List NodeId) (x : Session) : Prop :=
  ∀ before a rest n w, augments = before ++ a :: rest → mergeAll before x = .ok n w → P w a

theorem eachTurn_cons {P : Session → NodeId → Prop} :
    EachTurn P (a :: rest) x ↔ P x a ∧
      ∀ first x', turn a x = .ok first x' →
        EachTurn P rest x' := by
  constructor
  · intro h
    refine ⟨h [] a rest 0 x rfl rfl, fun first x' hfirst before b later n w hsplit hw ↦ ?_⟩
    exact h (a :: before) b later _ w (by rw [hsplit]; rfl) (mergeAll_cons_of_eq_ok hfirst hw)
  · rintro ⟨hhead, htail⟩ (- | ⟨c, before⟩) b later n w hsplit hw
    · obtain ⟨rfl, -⟩ := List.cons.inj hsplit
      obtain ⟨-, rfl⟩ := EStateM.Result.ok.inj hw
      exact hhead
    · obtain ⟨rfl, hrest⟩ := List.cons.inj hsplit
      obtain ⟨first, x', others, hfirst, hw⟩ := mergeAll_cons_eq_ok hw
      exact htail first x' hfirst before b later others w hrest hw

theorem silent_turn (hplan : x.mergePlan a = .ok (t, added)) :
    ((turn a).after x).silent = (x.merge a t added).silent := by
  rw [silent_attempt, silent_mergeAugment hplan]

theorem silent_turn_of_halt {halt : Halt} (hplan : x.mergePlan a = .error halt) :
    ((turn a).after x).silent = x.silent := by
  rw [silent_attempt, after_of_eq_error (mergeAugment_of_halt hplan)]

/-! ### Passes without errors -/

/-- Recorded targets may be replaced, but not taken back. -/
theorem stable_recorded (a : NodeId) :
    Session.Stable fun y ↦ (y.mergedTarget? a).isSome = true := by
  refine .of_merge (fun _ ↦ .rfl) fun {y b t added} hy _ ↦ ?_
  rw [Session.mergedTarget?_merge]
  split
  · rfl
  · exact hy

/-- In a strict session a turn that does not stop is a merge. -/
theorem exists_mergedTarget?_of_turn {first : Option NodeId} (hpolicy : x.policy = .strict)
    (h : turn a x = .ok first y) :
    y.policy = .strict ∧ (y.mergedTarget? a).isSome = true := by
  have hafter := after_of_eq_ok h
  have hsetting : y.setting = x.setting := by
    rw [← hafter]
    exact (keeps_mergeAugment a).attempt ignores_setting _ _ x
  refine ⟨(congrArg Session.policy hsetting).trans hpolicy, ?_⟩
  rcases hplan : x.mergePlan a with (⟨fault⟩ | -) | ⟨t, added⟩
  · simp [attempt_of_stop (mergeAugment_of_halt hplan) (.inr hpolicy)] at h
  · simp [attempt_of_eq_unending (mergeAugment_of_halt hplan)] at h
  · have hsilent := silent_turn hplan
    rw [hafter] at hsilent
    simp [Session.mergedTarget?_of_silent_eq hsilent, Session.mergedTarget?_merge]

theorem exists_mergedTarget?_of_strict (hpolicy : x.policy = .strict)
    (h : mergeAll augments x = .ok n y) : ∀ a ∈ augments, (y.mergedTarget? a).isSome = true := by
  induction augments generalizing x n with
  | nil => simp
  | cons a rest ih =>
    obtain ⟨first, x', others, hfirst, hrest⟩ := mergeAll_cons_eq_ok h
    obtain ⟨hpolicy', hrecorded⟩ := exists_mergedTarget?_of_turn hpolicy hfirst
    have hlater := (stable_recorded a).mergeAll hrecorded rest
    rw [after_of_eq_ok hrest] at hlater
    intro b hb
    rcases List.mem_cons.1 hb with rfl | hb
    · exact hlater
    · exact ih hpolicy' hrest b hb

/-- **After a pass without errors every augment has a target**: a strict session would have made
the same pass. -/
theorem exists_mergedTarget?_of_clean {m : ModuleId} (hpolicy : x.policy = .bestEffort)
    (h : mergeAugmentsOf m x = .ok n y) (hclean : y.diagnostics.errors = x.diagnostics.errors) :
    ∀ a ∈ x.schema.augmentsOf m, ∃ t, y.mergedTarget? a = some t := by
  obtain ⟨new, hstep⟩ := lockstep_mergeAugmentsOf m x hpolicy
  have hnew : y.diagnostics = x.diagnostics ++ new := by
    rw [← after_of_eq_ok h, hstep.diagnostics_eq]
  have hnone : new.firstCause? = none := by
    have herrors : new.errors = [] := by
      rw [hnew, Diagnostics.errors, List.filter_append] at hclean
      exact List.append_right_eq_self.1 hclean
    refine List.findSome?_eq_none_iff.2 fun d hd ↦ ?_
    have hd' := List.filter_eq_nil_iff.1 herrors d hd
    rw [hstep.caused d hd] at hd'
    simpa using hd'
  have hstrict : mergeAll (x.schema.augmentsOf m) (x.strictly.noteMissingIncludes m) =
      .ok n y.strictly := hstep.strictly_eq_ok hnone h
  intro a ha
  exact Option.isSome_iff_exists.1 (exists_mergedTarget?_of_strict rfl hstrict a ha)

end Link

/-! ### A pass over targets that are supplied -/

namespace Session

variable {n : Nat} {augments : List NodeId}

namespace Supplied

/-- The turn of an augment adds nothing if it is led to a node that has its contribution. -/
theorem schema_turn (hs : s.Tidy) (h : Supplied s x) (ha : x.FindsElsewhere a) :
    ((Link.turn a).after x).schema = x.schema := by
  rcases hplan : x.mergePlan a with halt | ⟨t, added⟩
  · exact schema_of_silent_eq (Link.silent_turn_of_halt hplan)
  · rw [schema_of_silent_eq (Link.silent_turn hplan)]
    by_cases ht : x.mergedTarget? a = some t
    · exact (h.holds hs hplan ht).schema_merge a
    · exact (ha t added hplan ht).schema_merge a

/-- What a pass has not added, the turn of its first augment has not added either. -/
theorem findsElsewhere_of_mergeAll
    (hsame : ∀ j, (((Link.mergeAll (a :: augments)).after x).schema.node j).children =
      (x.schema.node j).children) : x.FindsElsewhere a := by
  intro t added hplan _ f hf hadmits
  have hmem := mem_entries_merge hplan hf hadmits
  rw [← schema_of_silent_eq (Link.silent_turn hplan)] at hmem
  rw [← hsame]
  rcases Link.after_bind (Link.turn a) _ x with
    hpass | ⟨first, hpass⟩
  · rwa [Link.mergeAll, hpass]
  · rw [Link.mergeAll, hpass, Link.after_bind_pure]
    exact ((stable_extends _).mergeAll (fun j ↦ List.prefix_rfl) augments t).subset hmem

/-- **A pass adds nothing exactly if no augment adds anything elsewhere**: one that is led, when its
turn comes, to another node than the one recorded for it must find its contribution there. -/
theorem children_mergeAll_iff (hs : s.Tidy) (h : Supplied s x) :
    (∀ j, (((Link.mergeAll augments).after x).schema.node j).children =
        (x.schema.node j).children) ↔ Link.EachTurn FindsElsewhere augments x := by
  induction augments generalizing x with
  | nil =>
    refine iff_of_true (fun _ ↦ rfl) fun before a rest n w hsplit _ ↦ ?_
    simp at hsplit
  | cons a augments ih =>
    have hnext := (stable hs).attempt_mergeAugment h a .applyAugment a
    rw [Link.eachTurn_cons]
    constructor
    · intro hsame
      have ha := findsElsewhere_of_mergeAll hsame
      have hturn := h.schema_turn hs ha
      refine ⟨ha, fun first x' hfirst ↦ ?_⟩
      rw [Link.after_of_eq_ok hfirst] at hnext hturn
      rw [← ih hnext, ← Link.after_mergeAll_cons hfirst, hturn]
      exact hsame
    · rintro ⟨ha, hrest⟩ j
      have hturn := h.schema_turn hs ha
      rcases hfirst : Link.turn a x with
        ⟨first, x'⟩ | ⟨halt, x'⟩
      · rw [Link.after_of_eq_ok hfirst] at hnext hturn
        rw [Link.after_mergeAll_cons hfirst, (ih hnext).2 (hrest first x' hfirst), hturn]
      · rw [Link.mergeAll, Link.after_of_eq_error (Link.bind_of_eq_error hfirst),
          ← Link.after_of_eq_error hfirst, hturn]

end Supplied

/-! ### Paths that lead back -/

theorem eq_recast (hschema : y.schema = x.schema) (hsetting : y.setting = x.setting) :
    y = x.recast y.policy y.diagnostics y.targets y.mergedGroupings := by
  have hregistry : y.registry = x.registry :=
    (congrArg Session.registry hsetting : y.setting.registry = x.setting.registry)
  have husages : y.usages = x.usages :=
    (congrArg Session.usages hsetting : y.setting.usages = x.setting.usages)
  obtain ⟨⟩ := x
  obtain ⟨⟩ := y
  simp_all [recast]

/-- Plans are the same as long as schema and targets are. -/
theorem mergePlan_eq (hschema : y.schema = x.schema) (hsetting : y.setting = x.setting)
    (htargets : ∀ a, y.mergedTarget? a = x.mergedTarget? a) (a : NodeId) :
    y.mergePlan a = x.mergePlan a := by
  rw [eq_recast hschema hsetting]
  simp only [mergePlan, followFrom_recast _ _ _ htargets]
  rfl

theorem Returns.of_eq (h : x.Returns a) (hschema : y.schema = x.schema)
    (hsetting : y.setting = x.setting) (htargets : ∀ a, y.mergedTarget? a = x.mergedTarget? a) :
    y.Returns a := by
  obtain ⟨t, added, hplan, ht⟩ := h
  exact ⟨t, added, by rw [mergePlan_eq hschema hsetting htargets, hplan], by rw [htargets, ht]⟩

/-- **If every path leads back to its target, a pass changes neither schema nor targets.** No turn
changes what the next path leads to. -/
theorem Supplied.mergeAll_of_returns (hs : s.Tidy) (h : Supplied s x)
    (hreturns : ∀ a ∈ augments, x.Returns a) :
    ((Link.mergeAll augments).after x).schema = x.schema ∧
      ∀ b, ((Link.mergeAll augments).after x).mergedTarget? b = x.mergedTarget? b := by
  induction augments generalizing x with
  | nil => exact ⟨rfl, fun _ ↦ rfl⟩
  | cons a augments ih =>
    obtain ⟨t, added, hplan, ht⟩ := hreturns a (by simp)
    have hsilent := Link.silent_turn hplan
    have hsetting := (Link.keeps_mergeAugment a).attempt Link.ignores_setting .applyAugment a x
    have hnext := (Supplied.stable hs).attempt_mergeAugment h a .applyAugment a
    rw [Link.mergeAll]
    set x' := (Link.turn a).after x with hx'
    have hschema : x'.schema = x.schema := by
      rw [schema_of_silent_eq hsilent, (h.holds hs hplan ht).schema_merge a]
    have htargets (b : NodeId) : x'.mergedTarget? b = x.mergedTarget? b := by
      rw [mergedTarget?_of_silent_eq hsilent, mergedTarget?_merge]
      split
      · next hb => rw [hb, ht]
      · rfl
    rcases Link.after_bind (Link.turn a) _ x with
      hpass | ⟨first, hpass⟩
    · rw [hpass, ← hx']
      exact ⟨hschema, htargets⟩
    · rw [hpass, Link.after_bind_pure, ← hx']
      obtain ⟨hschema', htargets'⟩ := ih hnext fun b hb ↦
        (hreturns b (by simp [hb])).of_eq hschema hsetting htargets
      exact ⟨hschema'.trans hschema, fun b ↦ (htargets' b).trans (htargets b)⟩

/-! ### A second pass -/

theorem stable_policy (policy : Policy) : Stable fun y ↦ y.policy = policy :=
  .of_merge (fun _ ↦ .rfl) fun hy _ ↦ hy

/-- **What merging the augments of a module again does**, after a pass that has noted no error, in
any session under best effort. Every augment of the module has a recorded target, which holds what
it admits of the contribution. If all paths still lead to these targets, a second pass changes
neither the schema nor the targets. In general, it leaves all collections as they are exactly if
each augment that is led to another node, when its turn comes, finds its contribution there. -/
theorem children_mergeAugmentsOf_again {docs : List Document}
    (hdocs : Schema.ofDocuments docs = .ok s) (hx : start s .bestEffort = .ok x)
    (requests : List Request) {m : ModuleId}
    (hfirst : Link.mergeAugmentsOf m (x.performAll requests) = .ok n y)
    (hclean : y.diagnostics.errors = (x.performAll requests).diagnostics.errors) :
    let z := (Link.mergeAugmentsOf m).after y
    (∀ a ∈ s.augmentsOf m, ∃ t, y.mergedTarget? a = some t ∧
      ∀ k id, y.registry.Contributes s a k id → admits (s.kind t) k = true →
        id ∈ (y.schema.node t).children.slot k) ∧
    ((∀ a ∈ s.augmentsOf m, y.Returns a) →
      z.schema = y.schema ∧ ∀ a, z.mergedTarget? a = y.mergedTarget? a) ∧
    ((∀ j, (z.schema.node j).children = (y.schema.node j).children) ↔
      Link.EachTurn FindsElsewhere (s.augmentsOf m) (y.noteMissingIncludes m)) := by
  intro z
  have hs := Schema.tidy_of_ofDocuments hdocs
  have hpolicy : (x.performAll requests).policy = .bestEffort := by
    refine (stable_policy .bestEffort).performAll ?_ requests
    obtain ⟨r, -, rfl⟩ := exists_registry_of_start hx
    rfl
  have hbefore := (Supplied.stable hs).performAll (supplied_start hs hx) requests
  have haugments {w : Session} (hw : Supplied s w) :
      w.schema.augmentsOf m = s.augmentsOf m := by
    rw [← Schema.augmentsOf_outline, hw.outline_eq, Schema.augmentsOf_outline]
  have hy : Supplied s y := by
    rw [← Link.after_of_eq_ok hfirst]
    exact (Supplied.stable hs).perform hbefore (.augments m)
  have hnoted : Supplied s (y.noteMissingIncludes m) := (Supplied.stable hs).of_silent_eq hy rfl
  have hz : z = (Link.mergeAll (s.augmentsOf m)).after (y.noteMissingIncludes m) := by
    rw [← haugments hy]
    rfl
  refine ⟨fun a ha ↦ ?_, fun hreturns ↦ ?_, ?_⟩
  · obtain ⟨t, ht⟩ := Link.exists_mergedTarget?_of_clean hpolicy hfirst hclean a
      (by rwa [haugments hbefore])
    refine ⟨t, ht, fun k id hid hadmits ↦ Children.mem_slot.2 ?_⟩
    exact hy.mem_entries a t ht k id hid hadmits
  · rw [hz]
    exact hnoted.mergeAll_of_returns hs fun a ha ↦ (hreturns a ha).of_eq rfl rfl fun _ ↦ rfl
  · rw [hz]
    exact hnoted.children_mergeAll_iff hs

/-- A container and a box inside it that comes from a grouping get a leaf each. -/
def refilled : List Document :=
  [.module
    { name := "m", ownPrefix := "m", space := "urn:m"
      body := [
        .block .grouping "part" none [.block .container "box" none []],
        .block .container "top" none [.uses "part"],
        .augment "/m:top/m:box" none [.typed .leaf "size" none { name := "string" }],
        .augment "/m:top" none [.typed .leaf "label" none { name := "string" }]] }]

/-- Both paths still lead to the nodes that have been filled, and the second pass adds nothing. -/
theorem children_mergeAugmentsOf_again_refilled :
    ∃ s x n y, Schema.ofDocuments refilled = .ok s ∧ start s .bestEffort = .ok x ∧
      Link.mergeAugmentsOf ⟨0⟩ (x.performAll [.augment ⟨7⟩]) = .ok n y ∧
      (y.schema.node ⟨1⟩).children.slot .leaf = [⟨5⟩] ∧
      ((Link.mergeAugmentsOf ⟨0⟩).after y).schema = y.schema := by
  obtain ⟨x, hx, hok, hclean, hslot, hreturns⟩ :
      ∃ x, start (Schema.ofBatch refilled) .bestEffort = .ok x ∧
        let w := x.performAll [.augment ⟨7⟩]
        let y := (Link.mergeAugmentsOf ⟨0⟩).after w
        (Link.mergeAugmentsOf ⟨0⟩).succeeds w = true ∧
          y.diagnostics.errors = w.diagnostics.errors ∧
          (y.schema.node ⟨1⟩).children.slot .leaf = [⟨5⟩] ∧
          ∀ a ∈ (Schema.ofBatch refilled).augmentsOf ⟨0⟩, y.Returns a :=
    exists_ok_of_any (by decide +kernel)
  obtain ⟨n, hfirst⟩ := Link.exists_ok_of_succeeds hok
  have hdocs : Schema.ofDocuments refilled = .ok (Schema.ofBatch refilled) :=
    Schema.ofDocuments_of_offences_eq_nil rfl
  have hagain := children_mergeAugmentsOf_again hdocs hx _ hfirst hclean
  exact ⟨_, x, n, _, hdocs, hx, hfirst, hslot, (hagain.2.1 hreturns).1⟩

/-- A box comes from a grouping of one module; another module augments it, and then adds a box of
its own beside it. -/
def overshadowed : List Document :=
  [.module
    { name := "m", ownPrefix := "m", space := "urn:m"
      body := [
        .block .grouping "part" none [.block .container "box" none []],
        .block .container "top" none [.uses "part"]] },
  .module
    { name := "n", ownPrefix := "n", space := "urn:n", imports := [⟨"m", "m"⟩]
      body := [
        .augment "/m:top/m:box" none [.typed .leaf "size" none { name := "string" }],
        .augment "/m:top" none [.block .container "box" none []]] }]

/-- The first pass merges both augments and notes nothing; in the second one the path of the first
augment leads to the other box, which gets the leaf as well. -/
theorem children_mergeAugmentsOf_overshadowed :
    ∃ s x n y, Schema.ofDocuments overshadowed = .ok s ∧ start s .bestEffort = .ok x ∧
      Link.mergeAugmentsOf ⟨1⟩ x = .ok n y ∧ y.diagnostics = [] ∧
      (y.schema.node ⟨8⟩).children.slot .leaf = [] ∧
      (((Link.mergeAugmentsOf ⟨1⟩).after y).schema.node ⟨8⟩).children.slot .leaf = [⟨5⟩] := by
  obtain ⟨x, hx, hok, hresult⟩ :
      ∃ x, start (Schema.ofBatch overshadowed) .bestEffort = .ok x ∧
        let y := (Link.mergeAugmentsOf ⟨1⟩).after x
        (Link.mergeAugmentsOf ⟨1⟩).succeeds x = true ∧ y.diagnostics = [] ∧
          (y.schema.node ⟨8⟩).children.slot .leaf = [] ∧
          (((Link.mergeAugmentsOf ⟨1⟩).after y).schema.node ⟨8⟩).children.slot .leaf = [⟨5⟩] :=
    exists_ok_of_any (by decide +kernel)
  obtain ⟨n, hfirst⟩ := Link.exists_ok_of_succeeds hok
  exact ⟨_, x, n, _, rfl, hx, hfirst, hresult⟩

end Session

end SchemaLink
