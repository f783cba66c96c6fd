import SchemaLink.Proofs.Endings

/-!
# The closure of a scope

The closure of some scopes holds their data children, the closures of the groupings that their uses
refer to, and those of their choices and cases. **A look-up finds a node of the closure if there is
one of the name** (`Session.childAt_closure`): the first among the children of the scopes, or else
one that uses bring in, or else one inside a choice or case.

A sweep passes by a grouping that has been opened, even while it is still inside of it. **Nothing is
missed by that, because everything that has been opened is gone through in the end.** So
`Session.Cleared` does not ask that the groupings used in a scope are cleared themselves, only that
they have been opened. This is kept as the sweep goes on, and all that a sweep opens or finishes is
cleared when it is done (`Session.Clears`). A look-up starts with nothing opened, so at its end
`Opens` leads from cleared scopes to cleared scopes only.
-/

namespace SchemaLink

namespace Session

variable {x : Session} {name : String} {depth : Nat} {trail us : List NodeId}
  {scopes : List Children} {c : Children} {w w' w'' : Sweep} {b u g id : NodeId}

/-- A node is in the closure of some scopes. -/
def InClosure (x : Session) (scopes : List Children) (id : NodeId) : Prop :=
  ∃ c, x.Opens scopes c ∧ id ∈ c.data

/-- The children of the groupings that are used in some scopes. -/
def usedScopes (x : Session) (scopes : List Children) : List Children :=
  ((scopes.flatMap (·.slot .uses)).filterMap (x.registry.groupingOf? x.schema)).flatMap x.scopeOf

/-- The scopes of a module, and those of a node that has its own children in the data. -/
def ownScopes (x : Session) : Position → List Children
  | .top m => x.schema.bodies m
  | .node id => x.scopeOf id

theorem scopesAt_eq_ok (target : TargetFinder) {p : Position}
    (hp : ∀ id, p = .node id → x.schema.kind id ≠ .augment) :
    x.scopesAt target p = .ok (x.ownScopes p) := by
  match p with
  | .top m => rfl
  | .node id => rw [scopesAt, if_neg (hp id rfl), ownScopes]

/-- What can be opened from a scope that can be opened can be opened. -/
theorem Opens.trans {d : Children} (hc : x.Opens scopes c) (hd : x.Opens [c] d) :
    x.Opens scopes d := by
  induction hd with
  | scope h => exact List.mem_singleton.1 h ▸ hc
  | use _ hu hg ih => exact .use ih hu hg
  | block _ hk hb ih => exact .block ih hk hb

theorem mem_usedScopes_iff :
    c ∈ x.usedScopes scopes ↔ ∃ u ∈ scopes.flatMap (·.slot .uses), ∃ g,
      x.registry.groupingOf? x.schema u = some g ∧ (x.schema.node g).children = c := by
  simp only [usedScopes, scopeOf, List.mem_flatMap, List.mem_filterMap, List.mem_singleton]
  constructor
  · rintro ⟨g, ⟨u, hu, hg⟩, rfl⟩
    exact ⟨u, hu, g, hg, rfl⟩
  · rintro ⟨u, hu, g, hg, rfl⟩
    exact ⟨g, ⟨u, hu, hg⟩, rfl⟩

/-! ### Names -/

theorem findSome?_dataNamed? :
    scopes.findSome? (x.schema.dataNamed? name) =
      x.schema.firstNamed? name (scopes.flatMap Children.data) := by
  have hdata : x.schema.dataNamed? name = fun c ↦ x.schema.firstNamed? name c.data :=
    funext (x.schema.dataNamed?_eq name)
  simp [hdata, Schema.firstNamed?, List.find?_flatMap]

theorem inClosure_of_dataNamed? (hc : x.Opens scopes c)
    (h : x.schema.dataNamed? name c = some id) :
    x.InClosure scopes id ∧ (x.schema.node id).name = name := by
  rw [Schema.dataNamed?_eq] at h
  exact ⟨⟨c, hc, List.mem_of_find?_eq_some h⟩, by simpa using List.find?_some h⟩

/-- No node in a closure has a name if no scope that can be opened has a child of it. -/
theorem name_ne_of_unnamed (h : ∀ c, x.Opens scopes c → x.schema.dataNamed? name c = none)
    (hid : x.InClosure scopes id) : (x.schema.node id).name ≠ name := by
  obtain ⟨c, hc, hmem⟩ := hid
  have hnone := h c hc
  rw [Schema.dataNamed?_eq] at hnone
  simpa using List.find?_eq_none.1 hnone id hmem

/-! ### What has been gone through -/

/-- The grouping of a `uses` has been opened, if it refers to one. -/
def Used (x : Session) (w : Sweep) (u : NodeId) : Prop :=
  ∀ g, x.registry.groupingOf? x.schema u = some g → g ∈ w.opened

theorem Used.mono (h : x.Used w u) (hopened : w.opened ⊆ w'.opened) : x.Used w' u :=
  fun g hg ↦ hopened (h g hg)

/-- Nothing is left to be done in a scope. -/
structure Cleared (x : Session) (name : String) (w : Sweep) (c : Children) : Prop where
  unnamed : x.schema.dataNamed? name c = none
  used : ∀ u ∈ c.slot .uses, x.Used w u
  finished : ∀ b ∈ c.slots [.choice, .case], b ∈ w.finished

/-- A sweep goes on from one state to another, and has cleared all that it has come to since. -/
structure Clears (x : Session) (name : String) (w w' : Sweep) : Prop where
  goesOn : w.goesOn = true
  opened_subset : w.opened ⊆ w'.opened
  finished_subset : w.finished ⊆ w'.finished
  cleared_opened : ∀ g ∈ w'.opened, g ∉ w.opened → x.Cleared name w' (x.schema.node g).children
  cleared_finished : ∀ b ∈ w'.finished, b ∉ w.finished →
    x.Cleared name w' (x.schema.node b).children

theorem Cleared.mono (h : x.Cleared name w c) (hopened : w.opened ⊆ w'.opened)
    (hfinished : w.finished ⊆ w'.finished) : x.Cleared name w' c where
  unnamed := h.unnamed
  used := fun u hu ↦ (h.used u hu).mono hopened
  finished := fun b hb ↦ hfinished (h.finished b hb)

namespace Clears

theorem refl (h : w.goesOn = true) : x.Clears name w w where
  goesOn := h
  opened_subset := List.Subset.refl _
  finished_subset := List.Subset.refl _
  cleared_opened := fun _ hg hnew ↦ absurd hg hnew
  cleared_finished := fun _ hb hnew ↦ absurd hb hnew

/-- What has been cleared stays so. -/
theorem cleared (h : x.Clears name w w') (hc : x.Cleared name w c) : x.Cleared name w' c :=
  hc.mono h.opened_subset h.finished_subset

theorem trans (h : x.Clears name w w') (h' : x.Clears name w' w'') : x.Clears name w w'' where
  goesOn := h.goesOn
  opened_subset := List.Subset.trans h.opened_subset h'.opened_subset
  finished_subset := List.Subset.trans h.finished_subset h'.finished_subset
  cleared_opened := by
    intro g hg hnew
    by_cases hg' : g ∈ w'.opened
    · exact h'.cleared (h.cleared_opened g hg' hnew)
    · exact h'.cleared_opened g hg hg'
  cleared_finished := by
    intro b hb hnew
    by_cases hb' : b ∈ w'.finished
    · exact h'.cleared (h.cleared_finished b hb' hnew)
    · exact h'.cleared_finished b hb hb'

/-- A grouping is opened, and then cleared. -/
theorem of_open (h : x.Clears name { w with opened := g :: w.opened } w')
    (hg : x.Cleared name w' (x.schema.node g).children) : x.Clears name w w' where
  goesOn := h.goesOn
  opened_subset := List.Subset.trans (List.subset_cons_self g w.opened) h.opened_subset
  finished_subset := h.finished_subset
  cleared_opened := by
    intro g' hg' hnew
    by_cases heq : g' = g
    · exact heq ▸ hg
    · exact h.cleared_opened g' hg' (by simp [heq, hnew])
  cleared_finished := h.cleared_finished

/-- A choice or case is cleared, and then finished. -/
theorem finish (h : x.Clears name w w') (hb : x.Cleared name w' (x.schema.node b).children) :
    x.Clears name w { w' with finished := b :: w'.finished } := by
  have hmono {c : Children} (hc : x.Cleared name w' c) :
      x.Cleared name { w' with finished := b :: w'.finished } c :=
    hc.mono (List.Subset.refl _) (List.subset_cons_self b w'.finished)
  exact
    { goesOn := h.goesOn
      opened_subset := h.opened_subset
      finished_subset := List.Subset.trans h.finished_subset (List.subset_cons_self b w'.finished)
      cleared_opened := fun g hg hnew ↦ hmono (h.cleared_opened g hg hnew)
      cleared_finished := by
        intro b' hb' hnew
        rcases List.mem_cons.1 hb' with rfl | hb'
        · exact hmono hb
        · exact hmono (h.cleared_finished b' hb' hnew) }

/-- Members of a list are gone on with one after the other, each of which leaves something done. -/
theorem foldl {f : Sweep → NodeId → Sweep} (Done : Sweep → NodeId → Prop)
    (hmono : ∀ w w' u, x.Clears name w w' → Done w u → Done w' u)
    (hstep : ∀ w, ∀ u ∈ us, (f w u).goesOn = true → x.Clears name w (f w u) ∧ Done (f w u) u)
    (hon : (us.foldl f w).goesOn = true) :
    x.Clears name w (us.foldl f w) ∧ ∀ u ∈ us, Done (us.foldl f w) u := by
  induction us generalizing w with
  | nil => exact ⟨.refl hon, by simp⟩
  | cons u us ih =>
    obtain ⟨hrest, hdone⟩ := ih (fun w v hv ↦ hstep w v (by simp [hv])) hon
    obtain ⟨hfirst, hu⟩ := hstep w u (by simp) hrest.goesOn
    exact ⟨hfirst.trans hrest, List.forall_mem_cons.2 ⟨hmono _ _ _ hrest hu, hdone⟩⟩

end Clears

/-- Sweeping deeper scopes clears them, if it goes on after that. -/
def ClearsScopes (x : Session) (name : String)
    (enter : List NodeId → List Children → Sweep → Sweep) : Prop :=
  ∀ trail scopes w, (enter trail scopes w).goesOn = true →
    x.Clears name w (enter trail scopes w) ∧
      ∀ c ∈ scopes, x.Cleared name (enter trail scopes w) c

section

variable {enter : List NodeId → List Children → Sweep → Sweep} (henter : x.ClearsScopes name enter)
include henter

/-- **Step.** After a `uses` its grouping has been opened. -/
theorem ClearsScopes.sweepUse (hon : (x.sweepUse enter w u).goesOn = true) :
    x.Clears name w (x.sweepUse enter w u) ∧ x.Used (x.sweepUse enter w u) u := by
  unfold Session.sweepUse at hon ⊢
  split at hon
  · next hw =>
    simp only [if_pos hw]
    rcases hu : x.registry.groupingOf? x.schema u with - | g
    · exact ⟨.refl hw, by simp [Used, hu]⟩
    · by_cases hg : g ∈ w.opened
      · simp only [if_pos hg]
        exact ⟨.refl hw, by simpa [Used, hu] using hg⟩
      · simp only [hu, if_neg hg] at hon ⊢
        obtain ⟨hinner, hscope⟩ := henter _ _ _ hon
        have hopened := hinner.opened_subset (List.mem_cons_self (a := g))
        exact ⟨hinner.of_open (hscope _ (by simp [scopeOf])), by simpa [Used, hu] using hopened⟩
  · next hw => exact absurd hon hw

/-- **Step.** After a choice or case it has been finished. -/
theorem ClearsScopes.sweepBlock (hon : (x.sweepBlock enter trail w b).goesOn = true) :
    x.Clears name w (x.sweepBlock enter trail w b) ∧
      b ∈ (x.sweepBlock enter trail w b).finished := by
  unfold Session.sweepBlock at hon ⊢
  split at hon
  · next hskip =>
    have hb : b ∈ w.finished := by simpa [hon] using hskip
    rw [if_pos hskip]
    exact ⟨.refl hon, hb⟩
  · next hskip =>
    rw [if_neg hskip]
    split at hon
    · simp [Sweep.goesOn] at hon
    · next htrail =>
      simp only [if_neg htrail] at hon ⊢
      split at hon
      · next hinner =>
        rw [if_pos hinner]
        obtain ⟨hinside, hscope⟩ := henter _ _ _ hinner
        exact ⟨hinside.finish (hscope _ (by simp [scopeOf])), List.mem_cons_self⟩
      · next hinner => exact absurd hon hinner

theorem ClearsScopes.foldl_sweepUse (hon : (us.foldl (x.sweepUse enter) w).goesOn = true) :
    x.Clears name w (us.foldl (x.sweepUse enter) w) ∧
      ∀ u ∈ us, x.Used (us.foldl (x.sweepUse enter) w) u :=
  Clears.foldl x.Used (fun _ _ _ h hu ↦ hu.mono h.opened_subset) (fun _ _ _ ↦ henter.sweepUse) hon

theorem ClearsScopes.foldl_sweepBlock
    (hon : (us.foldl (x.sweepBlock enter trail) w).goesOn = true) :
    x.Clears name w (us.foldl (x.sweepBlock enter trail) w) ∧
      ∀ b ∈ us, b ∈ (us.foldl (x.sweepBlock enter trail) w).finished :=
  Clears.foldl (fun w b ↦ b ∈ w.finished) (fun _ _ _ h hb ↦ h.finished_subset hb)
    (fun _ _ _ ↦ henter.sweepBlock) hon

end

/-- **Run.** A sweep that goes on after all has cleared its scopes. -/
theorem clearsScopes_sweep (x : Session) (name : String) (depth : Nat) :
    x.ClearsScopes name (x.sweep name depth) := by
  induction depth with
  | zero =>
    intro trail scopes w hon
    simp [sweep, Sweep.goesOn] at hon
  | succ depth ih =>
    intro trail scopes w hon
    rw [sweep] at hon ⊢
    split at hon
    · simp [Sweep.goesOn] at hon
    · next hnamed =>
      obtain ⟨hblocks, hfinished⟩ := ih.foldl_sweepBlock hon
      obtain ⟨huses, hused⟩ := ih.foldl_sweepUse hblocks.goesOn
      refine ⟨huses.trans hblocks, fun c hc ↦ ⟨?_, fun u hu ↦ ?_, fun b hb ↦ ?_⟩⟩
      · exact List.findSome?_eq_none_iff.1 hnamed c hc
      · exact (hused u (List.mem_flatMap.2 ⟨c, hc, hu⟩)).mono hblocks.opened_subset
      · exact hfinished b (List.mem_flatMap.2 ⟨c, hc, hb⟩)

/-- **The closure of cleared scopes is without the name**, if all that has been come to is
cleared. -/
theorem Clears.cleared_of_opens (h : x.Clears name {} w)
    (hscopes : ∀ c ∈ scopes, x.Cleared name w c) (hc : x.Opens scopes c) : x.Cleared name w c := by
  induction hc with
  | scope hc => exact hscopes _ hc
  | use _ hu hg ih =>
    exact h.cleared_opened _ (ih.used _ hu _ (Registry.groupingOf?_eq_some_iff.2 hg)) (by simp)
  | @block c k b _ hk hb ih =>
    refine h.cleared_finished _ (ih.finished _ (List.mem_flatMap.2 ⟨k, ?_, hb⟩)) (by simp)
    cases k <;> simp_all [Kind.transparent]

/-! ### Look-ups -/

/-- A sweep that does not go on passes by choices and cases. -/
theorem foldl_sweepBlock_of_not_goesOn {enter : List NodeId → List Children → Sweep → Sweep}
    (hw : w.goesOn = false) (us : List NodeId) : us.foldl (x.sweepBlock enter trail) w = w := by
  induction us with
  | nil => rfl
  | cons u us ih =>
    have hskip : x.sweepBlock enter trail w u = w := by simp [sweepBlock, hw]
    rw [List.foldl_cons, hskip, ih]

/-- **A sweep that goes on after all has missed nothing.** -/
theorem name_ne_of_sweep (hon : (x.sweep name depth trail scopes {}).goesOn = true)
    (hid : x.InClosure scopes id) : (x.schema.node id).name ≠ name := by
  obtain ⟨hclears, hscopes⟩ := clearsScopes_sweep x name depth trail scopes {} hon
  exact name_ne_of_unnamed (fun c hc ↦ (hclears.cleared_of_opens hscopes hc).unnamed) hid

/-- **What uses bring in comes before what stands inside choices and cases.** -/
theorem exists_used_of_sweep
    (hcomplete : (x.sweep name (depth + 1) trail scopes {}).complete = true)
    (hnamed : scopes.findSome? (x.schema.dataNamed? name) = none)
    (hid : x.InClosure (x.usedScopes scopes) id) (hname : (x.schema.node id).name = name) :
    ∃ id', (x.sweep name (depth + 1) trail scopes {}).found = some id' ∧
      x.InClosure (x.usedScopes scopes) id' := by
  rw [sweep] at hcomplete ⊢
  simp only [hnamed] at hcomplete ⊢
  set used := (scopes.flatMap (·.slot .uses)).foldl (x.sweepUse (x.sweep name depth)) {}
  -- if the sweep had gone on after the uses, it would have missed the node that is given
  have hstop : used.goesOn = false := by
    by_contra hon
    rw [Bool.not_eq_false] at hon
    obtain ⟨hclears, hopened⟩ := (clearsScopes_sweep x name depth).foldl_sweepUse hon
    have hscopes : ∀ c ∈ x.usedScopes scopes, x.Cleared name used c := by
      intro c hc
      obtain ⟨u, hu, g, hg, rfl⟩ := mem_usedScopes_iff.1 hc
      exact hclears.cleared_opened g (hopened u hu g hg) (by simp)
    exact name_ne_of_unnamed (fun c hc ↦ (hclears.cleared_of_opens hscopes hc).unnamed) hid hname
  rw [foldl_sweepBlock_of_not_goesOn hstop] at hcomplete ⊢
  have hfound : x.FoundIn (x.usedScopes scopes) name used := by
    refine List.foldlRecOn _ _ (fun id hid ↦ by simp at hid) fun w hw u hu ↦ ?_
    exact (x.staysIn_sweep _ name depth).sweepUse
      (fun g hg ↦ .scope (mem_usedScopes_iff.2 ⟨u, hu, g, hg, rfl⟩)) hw
  rcases hw : used.found with - | id'
  · simp [Sweep.goesOn, hw, hcomplete] at hstop
  · obtain ⟨c, hc, hc'⟩ := hfound id' hw
    exact ⟨id', rfl, (inClosure_of_dataNamed? hc hc').1⟩

/-- What a look-up in some scopes answers. -/
structure Finds (x : Session) (scopes : List Children) (name : String) (answer : Option NodeId) :
    Prop where
  /-- What is found is in the closure and has the name. -/
  sound : ∀ id, answer = some id → x.InClosure scopes id ∧ (x.schema.node id).name = name
  /-- If nothing is found, no node of the closure has the name. -/
  complete : answer = none → ∀ id, x.InClosure scopes id → (x.schema.node id).name ≠ name
  /-- The first child of the name in the scopes themselves comes before all others. -/
  direct : ∀ id, x.schema.firstNamed? name (scopes.flatMap Children.data) = some id →
    answer = some id
  /-- If there is none, what uses bring in comes before what stands inside choices and cases. -/
  used : x.schema.firstNamed? name (scopes.flatMap Children.data) = none →
    ∀ id, x.InClosure (x.usedScopes scopes) id → (x.schema.node id).name = name →
      ∃ id', answer = some id' ∧ x.InClosure (x.usedScopes scopes) id'

theorem finds_sweep (hcomplete : (x.sweep name (depth + 1) [] scopes {}).complete = true) :
    x.Finds scopes name (x.sweep name (depth + 1) [] scopes {}).found where
  sound := by
    intro id hid
    obtain ⟨c, hc, hnamed⟩ := x.staysIn_sweep scopes name (depth + 1) [] scopes {}
      (fun _ ↦ .scope) (fun id hid ↦ by simp at hid) id hid
    exact inClosure_of_dataNamed? hc hnamed
  complete := by
    intro hnone id
    have hon : (x.sweep name (depth + 1) [] scopes {}).goesOn = true := by
      simp [Sweep.goesOn, hnone, hcomplete]
    exact name_ne_of_sweep hon
  direct := by
    intro id hid
    rw [sweep, findSome?_dataNamed?, hid]
  used := fun hnone _ ↦ exists_used_of_sweep hcomplete (findSome?_dataNamed?.trans hnone)

/-- **A look-up finds what the closure holds.** Whatever a session has been asked for, if no choice
or case contains itself, the look-up of a child comes to an end at every module and at every node
that is no augment, and answers as it should. -/
theorem childAt_closure {s : Schema} {docs : List Document}
    (hdocs : Schema.ofDocuments docs = .ok s) {policy : Policy} (hx : start s policy = .ok x)
    (requests : List Request) (target : TargetFinder) {p : Position} :
    let y := x.performAll requests
    y.schema.BranchesAcyclic → (∀ id, p = .node id → y.schema.kind id ≠ .augment) →
      ∀ name : String, ∃ answer, y.childAt target p name = .ok answer ∧
        y.Finds (y.ownScopes p) name answer := by
  intro y hacyclic hp name
  have hs : y.schema.Filed := filed_performAll hdocs hx requests
  have hscopes := scopesAt_eq_ok target hp
  have hcollected : ∀ c ∈ y.ownScopes p, ∃ q, y.schema.childrenOf q = c :=
    fun c ↦ exists_childrenOf_of_mem_scopesAt hscopes
  have hcomplete := complete_sweep hs hacyclic hcollected name
  obtain ⟨depth, hdepth⟩ : ∃ depth, y.sweepDepth = depth + 1 :=
    Nat.exists_eq_add_one.2 (Nat.mul_pos (Nat.succ_pos _) (Nat.succ_pos _))
  rw [hdepth] at hcomplete
  refine ⟨_, ?_, finds_sweep hcomplete⟩
  rw [childAt, hscopes, ← hdepth]
  exact childAmong_eq_ok hs hacyclic hcollected name

/-- Two groupings use each other. Beside a use of one of them, a container has a choice in which all
that they bring in is declared once more. -/
def ranked : List Document :=
  [.module
    { name := "m", ownPrefix := "m", space := "urn:m"
      body := [
        .block .grouping "near" none
          [.uses "far", .typed .leaf "size" none { name := "int8" }],
        .block .grouping "far" none [.uses "near", .block .container "box" none []],
        .block .container "top" none [
          .block .choice "side" none [.block .case "inner" none [
            .typed .leaf "size" none { name := "string" }, .block .container "lid" none [],
            .block .container "box" none []]],
          .uses "near"],
        .augment "/m:top" none [.block .container "lid" none []]] }]

/-- The container that the augment adds and the one that the second grouping brings in are found
before those in the choice. -/
theorem childAt_closure_ranked :
    ∃ s x, Schema.ofDocuments ranked = .ok s ∧ start s .strict = .ok x ∧
      let y := x.performAll [.augments ⟨0⟩]
      y.schema.BranchesAcyclic ∧ y.schema.kind ⟨7⟩ ≠ .augment ∧
        y.childAt y.targetOf (.node ⟨7⟩) "lid" = .ok (some ⟨16⟩) ∧
        y.childAt y.targetOf (.node ⟨7⟩) "box" = .ok (some ⟨6⟩) ∧
        y.Finds (y.scopeOf ⟨7⟩) "box" (some ⟨6⟩) := by
  obtain ⟨x, hx, hkind, hlid, hbox, hcontains⟩ :
      ∃ x, start (Schema.ofBatch ranked) .strict = .ok x ∧
        let y := x.performAll [.augments ⟨0⟩]
        y.schema.kind ⟨7⟩ ≠ .augment ∧
          (y.childAt y.targetOf (.node ⟨7⟩) "lid").toOption = some (some ⟨16⟩) ∧
          (y.childAt y.targetOf (.node ⟨7⟩) "box").toOption = some (some ⟨6⟩) ∧
          ∀ a ∈ y.schema.nodeIds, ∀ e ∈ (y.schema.node a).children.entries, a.index < e.2.index :=
    exists_ok_of_any (by decide +kernel)
  have hdocs : Schema.ofDocuments ranked = .ok (Schema.ofBatch ranked) :=
    Schema.ofDocuments_of_offences_eq_nil rfl
  have hacyclic := (Schema.acyclic_of_entries_lt hcontains).branchesAcyclic
  have htop : ∀ id, Position.node ⟨7⟩ = .node id →
      (x.performAll [.augments ⟨0⟩]).schema.kind id ≠ .augment := by
    rintro id ⟨⟩
    exact hkind
  obtain ⟨answer, hanswer, hfinds⟩ :=
    childAt_closure hdocs hx [.augments ⟨0⟩] _ hacyclic htop "box"
  have hbox := toOption_eq_some_iff.1 hbox
  obtain rfl : answer = some ⟨6⟩ := Except.ok.inj (hanswer.symm.trans hbox)
  exact ⟨_, x, hdocs, hx, hacyclic, hkind, toOption_eq_some_iff.1 hlid, hbox, hfinds⟩

end Session

end SchemaLink
