import SchemaLink.Proofs.Closures
import SchemaLink.Proofs.MergeEffects
import SchemaLink.Proofs.ParallelSweeps

/-!
# Merging under fresh names

A merge lengthens collections, and these are searched before what uses bring in and what stands
inside choices and cases. So it can redirect a path, or make one lead somewhere that led nowhere;
but only a path with a name that the merge has brought along. **A path that has none of these names
leads where it led** (`Session.followIn_mergeAugment`), or fails with the same fault.
-/

namespace SchemaLink

namespace Session

variable {y z : Session} {a t id b : NodeId} {k : Kind} {name : String} {c : Position}
  {needsValue : Bool} {path : Path} {home m : ModuleId} {target target' : TargetFinder}
  {P : Position → Prop}

/-! ### What a merge keeps -/

/-- A session leads to one with the same outline in which collections have grown at their ends. -/
structure Lengthens (y z : Session) : Prop where
  outline_eq : z.schema.outline = y.schema.outline
  registry_eq : z.registry = y.registry
  slot_extends : ∀ p k, ∃ more,
    (z.schema.childrenOf p).slot k = (y.schema.childrenOf p).slot k ++ more ∧
      ∀ id ∈ more, id ∉ (y.schema.childrenOf p).slot k ∧ k ∈ contributedKinds ∧
        y.schema.kind id = k

/-- Contributions are filed under their kinds. -/
theorem kind_of_mem_fields_contribution {s : Schema} (hs : s.Filed) {r : Registry}
    {f : Kind × NodeId} (hf : f ∈ (r.contribution s (s.node a).children).fields) :
    s.kind f.2 = f.1 := by
  rcases List.mem_append.1 hf with hf | hf
  · exact hs (.node a) _ _ (Children.mem_fields.1 hf).2
  · obtain ⟨g, -, hf⟩ := List.mem_flatMap.1 hf
    exact hs (.node g) _ _ (Children.mem_fields.1 hf).2

theorem lengthens_merge {added : Contribution} (hs : y.schema.Filed)
    (hplan : y.mergePlan a = .ok (t, added)) : y.Lengthens (y.merge a t added) := by
  obtain ⟨path, children, hcontent, -, ht, rfl⟩ := Link.mergePlan_eq_ok hplan
  obtain rfl : (y.schema.node a).children = children := by
    rw [Node.children, Node.children?, hcontent]
    rfl
  exact
    { outline_eq := congrArg Session.schema
        (Link.setting_merge y a t fun _ ↦ Registry.kind_mem_of_mem_fields_contribution)
      registry_eq := rfl
      slot_extends := by
        intro p k
        have hnone : ∃ more, (y.schema.childrenOf p).slot k =
            (y.schema.childrenOf p).slot k ++ more ∧ ∀ id ∈ more,
              id ∉ (y.schema.childrenOf p).slot k ∧ k ∈ contributedKinds ∧
                y.schema.kind id = k := ⟨[], by simp, by simp⟩
        cases p with
        | submodule u => exact hnone
        | node j =>
          rw [Schema.childrenOf, children_merge _ ht]
          split
          · rw [Children.slot_insertAll collected_of_mem_admitted]
            refine ⟨_, rfl, fun id hid ↦ ?_⟩
            simp only [List.mem_eraseDups, List.mem_filter, List.mem_map, decide_eq_true_eq] at hid
            obtain ⟨⟨f, ⟨⟨hf, -⟩, rfl⟩, rfl⟩, hnew⟩ := hid
            exact ⟨hnew, Registry.kind_mem_of_mem_fields_contribution hf,
              kind_of_mem_fields_contribution hs hf⟩
          · exact hnone }

theorem lengthens_mergeAugment (hs : y.schema.Filed) (h : Link.mergeAugment a y = .ok t z) :
    y.Lengthens z := by
  obtain ⟨added, hplan⟩ := Link.mergePlan_of_mergeAugment h
  have hsilent : z.silent = (y.merge a t added).silent := by
    rw [← Link.after_of_eq_ok h]
    exact Link.silent_mergeAugment hplan
  have hmerge := lengthens_merge hs hplan
  have hschema := schema_of_silent_eq hsilent
  exact
    { outline_eq := hschema ▸ hmerge.outline_eq
      registry_eq := (congrArg Session.registry hsilent : _)
      slot_extends := hschema ▸ hmerge.slot_extends }

namespace Lengthens

variable (h : y.Lengthens z)
include h

theorem kind_eq (id : NodeId) : z.schema.kind id = y.schema.kind id :=
  Schema.kind_eq_of_outline_eq h.outline_eq id

theorem moduleFor_eq (home : ModuleId) (written : String) :
    z.registry.moduleFor z.schema home written = y.registry.moduleFor y.schema home written := by
  rw [h.registry_eq, Registry.moduleFor_eq_of_outline_eq h.outline_eq]

theorem groupingOf?_eq (u : NodeId) :
    z.registry.groupingOf? z.schema u = y.registry.groupingOf? y.schema u := by
  rw [h.registry_eq, Registry.groupingOf?, Registry.groupingOf_eq_of_outline_eq h.outline_eq,
    Registry.groupingOf?]

theorem uses_eq (p : Parent) :
    (z.schema.childrenOf p).slot .uses = (y.schema.childrenOf p).slot .uses := by
  obtain ⟨more, hmore, hnew⟩ := h.slot_extends p .uses
  have hnil : more = [] := by
    refine List.eq_nil_iff_forall_not_mem.2 fun id hid ↦ ?_
    exact absurd (hnew id hid).2.1 (by decide)
  rw [hmore, hnil, List.append_nil]

theorem filed (hs : y.schema.Filed) : z.schema.Filed := by
  intro p k id hid
  obtain ⟨more, hmore, hnew⟩ := h.slot_extends p k
  rw [h.kind_eq]
  rw [hmore] at hid
  rcases List.mem_append.1 hid with hid | hid
  · exact hs p k id hid
  · exact (hnew id hid).2.2

end Lengthens

/-! ### Fresh names -/

/-- A node stands in a collection in which it did not stand before. -/
def Gained (y z : Session) (k : Kind) (id : NodeId) : Prop :=
  ∃ p, id ∈ (z.schema.childrenOf p).slot k ∧ id ∉ (y.schema.childrenOf p).slot k

/-- A name is not brought along: neither by the nodes that have been entered nor, if these are
choices or cases, by what can be found inside of them. -/
structure Fresh (y z : Session) (name : String) : Prop where
  gained : ∀ k id, y.Gained z k id → (y.schema.node id).name ≠ name
  inside : ∀ k b, y.Gained z k b → k.transparent = true →
    ∀ id, y.InClosure (y.scopeOf b) id → (y.schema.node id).name ≠ name

/-- Whether a name is fresh is found out by comparing collections, and by sweeping the choices and
cases that have been entered. -/
theorem fresh_of_sweeps (hsubmodules : z.schema.submodules = y.schema.submodules)
    (h : ∀ j ∈ z.schema.nodeIds, ∀ e ∈ (z.schema.node j).children.entries,
      e ∉ (y.schema.node j).children.entries → (y.schema.node e.2).name ≠ name ∧
        (e.1.transparent = true →
          (y.sweep name y.sweepDepth [] (y.scopeOf e.2) {}).goesOn = true)) : y.Fresh z name := by
  have hgained {k : Kind} {id : NodeId} (hid : y.Gained z k id) : ∃ j ∈ z.schema.nodeIds,
      (k, id) ∈ (z.schema.node j).children.entries ∧
        (k, id) ∉ (y.schema.node j).children.entries := by
    obtain ⟨p, hp, hp'⟩ := hid
    match p with
    | .submodule u =>
      refine absurd ?_ hp'
      rwa [Schema.childrenOf, Schema.submodule, ← hsubmodules]
    | .node j =>
      rw [Schema.childrenOf, Children.mem_slot] at hp hp'
      refine ⟨j, Schema.mem_nodeIds.2 ?_, hp, hp'⟩
      by_contra hlt
      rw [Schema.node_of_size_le (Nat.le_of_not_lt hlt)] at hp
      cases hp
  constructor
  · intro k id hid
    obtain ⟨j, hj, hz, hy⟩ := hgained hid
    exact (h j hj (k, id) hz hy).1
  · intro k b hb hk id hid
    obtain ⟨j, hj, hz, hy⟩ := hgained hb
    exact name_ne_of_sweep ((h j hj (k, b) hz hy).2 hk) hid

/-- A name is not to be found in the closure of a parent. -/
def Lacks (x : Session) (name : String) (p : Parent) : Prop :=
  ∀ id, x.InClosure [x.schema.childrenOf p] id → (x.schema.node id).name ≠ name

/-- Where a name is lacking, it is lacking in what is used and inside of choices and cases. -/
theorem barren_lacks (x : Session) (name : String) : x.Barren name (x.Lacks name) := by
  have hinner {p q : Parent} (hp : x.Lacks name p)
      (hq : x.Opens [x.schema.childrenOf p] (x.schema.childrenOf q)) : x.Lacks name q :=
    fun id ⟨c, hc, hid⟩ ↦ hp id ⟨c, hq.trans hc, hid⟩
  have hself (p : Parent) : x.Opens [x.schema.childrenOf p] (x.schema.childrenOf p) :=
    .scope (List.mem_singleton_self _)
  exact
    { unnamed := by
        intro p hp
        by_contra hsome
        obtain ⟨id, hid⟩ := Option.ne_none_iff_exists'.1 hsome
        obtain ⟨hclosure, hname⟩ := inClosure_of_dataNamed? (hself p) hid
        exact hp id hclosure hname
      used := fun p hp u hu g hg ↦
        hinner hp (.use (hself p) hu (Registry.groupingOf?_eq_some_iff.1 hg))
      inside := by
        intro p hp b hb
        obtain ⟨k, hk, hb⟩ := List.mem_flatMap.1 hb
        refine hinner hp (.block (hself p) (k := k) ?_ hb)
        rcases List.mem_pair.1 hk with rfl | rfl <;> rfl }

section

variable (h : y.Lengthens z) (hfresh : y.Fresh z name)
include h hfresh

/-- The first child of a fresh name stays the same. -/
theorem Lengthens.dataNamed?_eq (p : Parent) :
    z.schema.dataNamed? name (z.schema.childrenOf p) =
      y.schema.dataNamed? name (y.schema.childrenOf p) := by
  have hkind (k : Kind) : z.schema.childNamed? name (z.schema.childrenOf p) k =
      y.schema.childNamed? name (y.schema.childrenOf p) k := by
    obtain ⟨more, hmore, hnew⟩ := h.slot_extends p k
    have hnone : more.find? (fun id ↦ (y.schema.node id).name = name) = none := by
      simp only [List.find?_eq_none, decide_eq_true_eq]
      exact fun id hid ↦ hfresh.gained k id ⟨p, by simp [hmore, hid], (hnew id hid).1⟩
    simp only [Schema.childNamed?_eq, Schema.firstNamed?,
      Schema.name_eq_of_outline_eq h.outline_eq, hmore, List.find?_append, hnone, Option.or_none]
  rw [Schema.dataNamed?, Schema.dataNamed?, funext hkind]

/-- **The two sessions differ in barren choices and cases only.** -/
theorem Lengthens.mirrors : Mirrors y z name (y.Lacks name) := by
  have hbarren := y.barren_lacks name
  have hpadded (p : Parent) : Padded (fun b ↦ y.Lacks name (.node b))
      ((y.schema.childrenOf p).slots [.choice, .case])
      ((z.schema.childrenOf p).slots [.choice, .case]) := by
    refine .flatMap _ fun k hk ↦ ?_
    obtain ⟨more, hmore, hnew⟩ := h.slot_extends p k
    have htransparent : k.transparent = true := by
      rcases List.mem_pair.1 hk with rfl | rfl <;> rfl
    rw [hmore]
    exact .append_right _ fun b hb ↦
      hfresh.inside k b ⟨p, by simp [hmore, hb], (hnew b hb).1⟩ htransparent
  exact
    { barren_left := hbarren
      barren_right :=
        { unnamed := fun p hp ↦ (h.dataNamed?_eq hfresh p).trans (hbarren.unnamed p hp)
          used := by
            intro p hp u hu g hg
            rw [h.uses_eq] at hu
            rw [h.groupingOf?_eq] at hg
            exact hbarren.used p hp u hu g hg
          inside := by
            intro p hp b hb
            rcases (hpadded p).mem_cases hb with hb | hb
            · exact hbarren.inside p hp b hb
            · exact hb }
      groupingOf?_eq := h.groupingOf?_eq
      dataNamed?_eq := h.dataNamed?_eq hfresh
      uses_eq := h.uses_eq
      padded := hpadded }

end

/-! ### Look-ups -/

/-- The parents whose children are the scopes of a position. -/
def parentsOf (x : Session) : Position → List Parent
  | .top m => (x.schema.module m).units.map .submodule
  | .node id => [.node id]

theorem map_parentsOf (x : Session) (c : Position) :
    (x.parentsOf c).map x.schema.childrenOf = x.ownScopes c := by
  match c with
  | .top m => simp [parentsOf, ownScopes, Schema.bodies, Schema.childrenOf]
  | .node id => rfl

section

variable (h : y.Lengthens z) (hs : y.schema.Filed) (hbefore : y.schema.BranchesAcyclic)
  (hafter : z.schema.BranchesAcyclic)
include h hs hbefore hafter

/-- **A look-up of a fresh name answers as before.** -/
theorem Lengthens.childAt_eq (hfresh : y.Fresh z name)
    (hc : ∀ id, c = .node id → y.schema.kind id ≠ .augment) :
    z.childAt target' c name = y.childAt target c name := by
  have hc' : ∀ id, c = .node id → z.schema.kind id ≠ .augment := by simpa only [h.kind_eq] using hc
  have hparents : z.parentsOf c = y.parentsOf c := by
    cases c with
    | top m => rw [parentsOf, Schema.units_eq_of_outline_eq h.outline_eq, parentsOf]
    | node id => rfl
  have hcollected (x : Session) : ∀ d ∈ (x.parentsOf c).map x.schema.childrenOf,
      ∃ p, x.schema.childrenOf p = d := by
    intro d hd
    obtain ⟨p, -, hp⟩ := List.mem_map.1 hd
    exact ⟨p, hp⟩
  have hright := complete_sweep (h.filed hs) hafter (hcollected z) name
  rw [hparents] at hright
  rw [childAt, childAt, scopesAt_eq_ok target hc, scopesAt_eq_ok target' hc', ← map_parentsOf,
    ← map_parentsOf, hparents]
  exact (h.mirrors hfresh).childAmong_eq _ (Schema.size_eq_of_outline_eq h.outline_eq)
    (complete_sweep hs hbefore (hcollected y) name) hright

end

/-! ### Walks -/

/-- Two walks over positions of a sort from which each segment leads to the same positions. -/
structure SameWalks (y z : Session) (target target' : TargetFinder) (path : Path)
    (home : ModuleId) (P : Position → Prop) : Prop where
  confines : y.Confines target path home P
  moves_eq : ∀ c, P c → ∀ segment ∈ path.segments, ∀ index,
    z.moves target' path home index c segment = y.moves target path home index c segment
  pathFault_eq : ∀ index reason,
    z.pathFault path home index reason = y.pathFault path home index reason

namespace SameWalks

variable (h : SameWalks y z target target' path home P)
include h

/-- **Step.** The fronts stay the same. -/
theorem advance_eq {segment : Segment} (hsegment : segment ∈ path.segments)
    {front : List (Option Position)} (hfront : ∀ f ∈ front, ∃ c, f = some c ∧ P c) (index : Nat) :
    z.advance target' path home index segment front =
      y.advance target path home index segment front := by
  rw [advance, advance]
  congr 1
  refine List.flatMap_congr fun f hf ↦ ?_
  obtain ⟨c, rfl, hc⟩ := hfront f hf
  simp only [h.moves_eq c hc segment hsegment index]

/-- **Run.** So they are at the end of the path. -/
theorem proceed_eq {segments : List Segment} (hsegments : segments ⊆ path.segments)
    {front : List (Option Position)} (hfront : ∀ f ∈ front, ∃ c, f = some c ∧ P c) (index : Nat) :
    z.proceed target' path home segments index front =
      y.proceed target path home segments index front := by
  induction segments generalizing index front with
  | nil => rfl
  | cons segment rest ih =>
    obtain ⟨hsegment, hrest⟩ := List.cons_subset.1 hsegments
    rw [proceed, proceed, h.advance_eq hsegment hfront]
    exact ih hrest (h.confines.advance hsegment hfront) _

/-- And if nothing is left there, the same is in the way. -/
theorem obstacle_eq {segments : List Segment} (hsegments : segments ⊆ path.segments) (hc : P c)
    (index : Nat) : z.obstacle target' path home segments index c =
      y.obstacle target path home segments index c := by
  induction segments generalizing index c with
  | nil => exact h.pathFault_eq index ""
  | cons segment rest ih =>
    obtain ⟨hsegment, hrest⟩ := List.cons_subset.1 hsegments
    rw [obstacle, obstacle, h.moves_eq c hc segment hsegment index]
    split
    · rfl
    · next found hmoves =>
      refine ih hrest ?_ _
      rcases List.eq_nil_or_concat found with rfl | ⟨others, d, rfl⟩
      · exact hc
      · rw [List.concat_eq_append, List.getLastD_concat]
        exact h.confines.stays c hc segment hsegment index _ hmoves d (by simp)

theorem walk_eq (hc : P c) : z.walk target' path home c = y.walk target path home c := by
  rw [walk, h.proceed_eq (List.Subset.refl _) (by simpa using hc),
    h.obstacle_eq (List.Subset.refl _) hc, walk]

end SameWalks

namespace Lengthens

variable (h : y.Lengthens z)
include h

theorem moduleName_eq (m : ModuleId) : (z.schema.module m).name = (y.schema.module m).name :=
  Schema.moduleName_eq_of_outline_eq h.outline_eq m

theorem positionLabel_eq (c : Position) : z.positionLabel c = y.positionLabel c := by
  cases c with
  | top m => rw [positionLabel, h.moduleName_eq, positionLabel]
  | node id => exact Schema.label_eq_of_outline_eq h.outline_eq id

theorem pathFault_eq (path : Path) (home : ModuleId) (index : Nat) (reason : String) :
    z.pathFault path home index reason = y.pathFault path home index reason := by
  rw [pathFault, h.moduleName_eq, pathFault]

theorem stepTo_eq {q : QName} (hchild : z.childAt target' c q.name = y.childAt target c q.name)
    (index : Nat) :
    z.stepTo target' path home index q c = y.stepTo target path home index q c := by
  have hmodule : z.registry.moduleFor z.schema home = y.registry.moduleFor y.schema home :=
    funext (h.moduleFor_eq home)
  simp only [stepTo, hmodule, hchild, h.pathFault_eq, h.positionLabel_eq]

theorem startOf_eq (origin : Position) :
    z.startOf path home origin = y.startOf path home origin := by
  simp only [startOf, h.moduleFor_eq]

theorem arrive_eq (c : Position) :
    z.arrive needsValue path home c = y.arrive needsValue path home c := by
  cases c <;> simp only [arrive, h.pathFault_eq, h.moduleName_eq, h.kind_eq]

/-- A path that only goes down by fresh names leads to the same positions, segment by segment. -/
theorem same_of_fresh (hs : y.schema.Filed) (hbefore : y.schema.BranchesAcyclic)
    (hafter : z.schema.BranchesAcyclic) (hparent : Segment.parent ∉ path.segments)
    (hfresh : ∀ q, Segment.step q ∈ path.segments → y.Fresh z q.name)
    (target target' : TargetFinder) (home : ModuleId) :
    SameWalks y z target target' path home
      fun c ↦ ∀ id, c = .node id → y.schema.kind id ≠ .augment where
  confines := confines_of_plain hs hbefore target home hparent
  moves_eq := by
    intro c hc segment hsegment index
    match segment with
    | .current => rfl
    | .parent => exact absurd hsegment hparent
    | .step q =>
      have hchild : z.childAt target' c q.name = y.childAt target c q.name :=
        h.childAt_eq hs hbefore hafter (hfresh q hsegment) hc
      rw [moves, moves, h.stepTo_eq hchild]
  pathFault_eq := h.pathFault_eq path home

/-- An absolute path that only goes down by fresh names is followed to the same end. -/
theorem followIn_eq (hs : y.schema.Filed) (hbefore : y.schema.BranchesAcyclic)
    (hafter : z.schema.BranchesAcyclic) {path : String}
    (habsolute : (Path.ofString path).absolute = true)
    (hparent : Segment.parent ∉ (Path.ofString path).segments)
    (hfresh : ∀ q, Segment.step q ∈ (Path.ofString path).segments → y.Fresh z q.name)
    (needsValue : Bool) (m : ModuleId) :
    z.followIn needsValue path m = y.followIn needsValue path m := by
  rw [followIn, followIn, followBy, followBy, h.startOf_eq, h.pathFault_eq]
  split
  · rfl
  · rcases hstart : y.startOf (Path.ofString path) m (.top m) with halt | start
    · rfl
    · have hc : ∀ id, start = .node id → y.schema.kind id ≠ .augment := by
        rintro id rfl
        simp only [startOf, if_pos habsolute] at hstart
        split at hstart <;> cases hstart
      have hwalk := (h.same_of_fresh hs hbefore hafter hparent hfresh y.targetOf z.targetOf
        m).walk_eq hc
      simp only [hwalk, h.arrive_eq]

end Lengthens

/-- **A merge does not touch paths with fresh names.** Let an augment be merged, and let no choice
or case contain itself, neither before nor after that. Then an absolute path that only goes down,
and none of whose names has been brought along, leads from every module where it led, or fails with
the same fault. -/
theorem followIn_mergeAugment (hs : y.schema.Filed) (hmerge : Link.mergeAugment a y = .ok t z)
    (hbefore : y.schema.BranchesAcyclic) (hafter : z.schema.BranchesAcyclic) {path : String}
    (habsolute : (Path.ofString path).absolute = true)
    (hparent : Segment.parent ∉ (Path.ofString path).segments)
    (hfresh : ∀ q, Segment.step q ∈ (Path.ofString path).segments → y.Fresh z q.name)
    (needsValue : Bool) (m : ModuleId) :
    z.followIn needsValue path m = y.followIn needsValue path m :=
  (lengthens_mergeAugment hs hmerge).followIn_eq hs hbefore hafter habsolute hparent hfresh
    needsValue m

/-- A case that is added uses two groupings that use each other. One of them is used once more in a
choice that comes later. -/
def roomy : List Document :=
  [.module
    { name := "m", ownPrefix := "m", space := "urn:m"
      body := [
        .block .grouping "part" none [.uses "rest", .block .container "box" none []],
        .block .grouping "rest" none [.uses "part"],
        .block .container "top" none [
          .block .choice "form" none [],
          .block .choice "late" none [.block .case "last" none [
            .uses "rest", .block .container "lid" none [
              .typed .leaf "edge" none { name := "string" }]]]],
        .augment "/m:top/m:form" none [.block .case "extra" none [.uses "rest"]]] }]

/-- The sweeps for the leaf come to the groupings in the new case first, and pass by them later. -/
theorem followIn_mergeAugment_roomy :
    ∃ s x t z, Schema.ofDocuments roomy = .ok s ∧ start s .strict = .ok x ∧
      Link.mergeAugment ⟨13⟩ x = .ok t z ∧ x.Gained z .case ⟨14⟩ ∧
      x.schema.Filed ∧ x.schema.BranchesAcyclic ∧ z.schema.BranchesAcyclic ∧
      (∀ q, Segment.step q ∈ (Path.ofString "/m:top/m:lid/m:edge").segments → x.Fresh z q.name) ∧
      x.followIn true "/m:top/m:lid/m:edge" ⟨0⟩ = .ok ⟨11⟩ ∧
      z.followIn true "/m:top/m:lid/m:edge" ⟨0⟩ = .ok ⟨11⟩ := by
  obtain ⟨x, hx, hok, hfollow, hsubmodules, hcase, hbefore, hafter, hnew⟩ :
      ∃ x, start (Schema.ofBatch roomy) .strict = .ok x ∧
        let z := (Link.mergeAugment ⟨13⟩).after x
        (Link.mergeAugment ⟨13⟩).succeeds x = true ∧
          x.followIn true "/m:top/m:lid/m:edge" ⟨0⟩ = .ok ⟨11⟩ ∧
          z.schema.submodules = x.schema.submodules ∧
          (⟨14⟩ ∈ (z.schema.node ⟨6⟩).children.slot .case ∧
            ⟨14⟩ ∉ (x.schema.node ⟨6⟩).children.slot .case) ∧
          (∀ a ∈ x.schema.nodeIds, ∀ e ∈ (x.schema.node a).children.entries,
            a.index < e.2.index) ∧
          (∀ a ∈ z.schema.nodeIds, ∀ e ∈ (z.schema.node a).children.entries,
            a.index < e.2.index) ∧
          ∀ name ∈ ["top", "lid", "edge"], ∀ j ∈ z.schema.nodeIds,
            ∀ e ∈ (z.schema.node j).children.entries, e ∉ (x.schema.node j).children.entries →
              (x.schema.node e.2).name ≠ name ∧
                (e.1.transparent = true →
                  (x.sweep name x.sweepDepth [] (x.scopeOf e.2) {}).goesOn = true) :=
    exists_ok_of_any (by decide +kernel)
  have hdocs : Schema.ofDocuments roomy = .ok (Schema.ofBatch roomy) :=
    Schema.ofDocuments_of_offences_eq_nil rfl
  have hs := filed_performAll hdocs hx []
  have hpath : Path.ofString "/m:top/m:lid/m:edge" = ⟨"/m:top/m:lid/m:edge", true,
      [.step ⟨some "m", "top"⟩, .step ⟨some "m", "lid"⟩, .step ⟨some "m", "edge"⟩]⟩ := by
    decide +kernel
  have hfresh : ∀ q, Segment.step q ∈ (Path.ofString "/m:top/m:lid/m:edge").segments →
      x.Fresh ((Link.mergeAugment ⟨13⟩).after x) q.name := by
    intro q hq
    refine fresh_of_sweeps hsubmodules (hnew q.name ?_)
    rw [hpath] at hq
    rcases (by simpa using hq) with rfl | rfl | rfl <;> simp
  have hbefore := (Schema.acyclic_of_entries_lt hbefore).branchesAcyclic
  have hafter := (Schema.acyclic_of_entries_lt hafter).branchesAcyclic
  obtain ⟨t, hmerge⟩ := Link.exists_ok_of_succeeds hok
  refine ⟨_, x, t, _, hdocs, hx, hmerge, ⟨.node ⟨6⟩, hcase⟩, hs, hbefore, hafter, hfresh, hfollow,
    ?_⟩
  rw [← hfollow]
  exact followIn_mergeAugment hs hmerge hbefore hafter (by rw [hpath]) (by simp [hpath]) hfresh true
    ⟨0⟩

/-- **In a session that documents and requests lead to, no merge touches paths with fresh names**,
since there all children are in the collections of their kinds. -/
theorem followIn_mergeAugment_performAll {s : Schema} {docs : List Document}
    (hdocs : Schema.ofDocuments docs = .ok s) {policy : Policy} {x : Session}
    (hx : start s policy = .ok x) (requests : List Request) :
    let y := x.performAll requests
    Link.mergeAugment a y = .ok t z → y.schema.BranchesAcyclic → z.schema.BranchesAcyclic →
      ∀ path : String, (Path.ofString path).absolute = true →
        Segment.parent ∉ (Path.ofString path).segments →
        (∀ q, Segment.step q ∈ (Path.ofString path).segments → y.Fresh z q.name) →
        ∀ needsValue m, z.followIn needsValue path m = y.followIn needsValue path m := by
  intro y hmerge hbefore hafter path habsolute hparent hfresh
  have hs : y.schema.Filed := filed_performAll hdocs hx requests
  exact (lengthens_mergeAugment hs hmerge).followIn_eq hs hbefore hafter habsolute hparent hfresh

end Session

end SchemaLink
