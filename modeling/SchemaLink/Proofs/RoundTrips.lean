import SchemaLink.Proofs.Endings

/-!
# Down by a name and up again

A name leads down to a child, through uses, choices, cases and merged children; `..` leads up from
it, over choices, cases and groupings to wherever these are used, and from an augment to its target.
The two are computed apart from each other. **Whatever a name leads down to, `..` leads back from**
(`Session.Settled.anchor_of_childAt`), from every node that encloses data and from every module, as
long as no augment has been merged into a choice or case.

The invariant of the way down: every child of a scope that has been opened has the start among its
anchors (`Session.Surrounds`). Opening a grouping or entering a choice or case keeps it, since the
way up passes these over.

Anchors are what the rules for `..` lead to. The search for them gives all of them if it comes to an
end, which is not said by the rules: the target path of an augment may climb by way of that same
augment.
-/

namespace SchemaLink

namespace Session

variable {x : Session} {target : TargetFinder} {id i b g u : NodeId} {p : Parent} {c : Position}
  {k : Kind} {name : String} {scope : Children} {scopes : List Children}

/-- A position is an anchor of every child of a parent. -/
def Surrounds (x : Session) (target : TargetFinder) (c : Position) (p : Parent) : Prop :=
  ∀ k id, id ∈ (x.schema.childrenOf p).slot k → x.Anchor target (x.schema.node id).parent c

namespace Settled

variable (hx : x.Settled)
include hx

/-- A module surrounds its submodules. -/
theorem surrounds_submodule {m : ModuleId} (hm : m.index < x.schema.modules.size) {u : SubmoduleId}
    (hu : u ∈ (x.schema.module m).units) : x.Surrounds target (.top m) (.submodule u) := by
  intro k id hid
  have hparent : (x.schema.node id).parent = .submodule u :=
    hx.parent_eq_of_mem_slot (by simp) hid
  rw [hparent, ← (hx.framed.unit_module m hm u hu).2]
  exact .top u

/-- A node that encloses data surrounds itself: its children are declared in it, or hang in an
augment of which it is the target. -/
theorem surrounds_self (hi : (x.schema.kind i).enclosesData = true) :
    x.Surrounds x.targetOf (.node i) (.node i) := by
  intro k id hid
  rcases hx.origin (.node i) k id hid with hparent | ⟨-, a, t, ht, hmerged, hhangs⟩
  · rw [hparent]
    refine .self ?_ ?_ ?_ <;> rcases hk : x.schema.kind i <;>
      simp_all [Kind.enclosesData, Kind.transparent]
  · obtain rfl : i = t := by simpa using ht
    have ha := (hx.kinds_of_mergedTarget? a i hmerged).1
    exact hhangs.anchor (.target ha (targetOf_of_mergedTarget? hmerged))

/-- What surrounds the place of a `uses` surrounds the grouping. -/
theorem surrounds_grouping (hp : x.Surrounds target c p)
    (hu : u ∈ (x.schema.childrenOf p).slot .uses)
    (hg : x.registry.groupingOf x.schema u = .ok g) : x.Surrounds target c (.node g) := by
  obtain ⟨-, hgrouping, husage⟩ := hx.usage_of_mem_slot hu hg
  intro k id hid
  rw [hx.parent_eq_of_mem_slot_grouping hgrouping hid]
  exact .used hgrouping husage (hp .uses u hu)

/-- What surrounds the place of a choice or case surrounds it, if nothing was merged into it. -/
theorem surrounds_block (hp : x.Surrounds target c p) (hk : k.transparent = true)
    (hb : b ∈ (x.schema.childrenOf p).slot k) (hplain : ∀ a, x.mergedTarget? a ≠ some b) :
    x.Surrounds target c (.node b) := by
  have hkind : x.schema.kind b = k := hx.filed p k b hb
  intro j id hid
  have hparent : (x.schema.node id).parent = .node b := by
    refine hx.parent_eq_of_mem_slot (fun a t ht ↦ ?_) hid
    obtain rfl : b = t := by simpa using ht
    exact hplain a
  rw [hparent]
  exact .transparent (by rw [hkind, hk]) (hp k b hb)

/-- The scopes in which a look-up starts are surrounded by where it starts. -/
theorem exists_surrounds_of_scopesAt (hc : x.schema.HasPosition c)
    (hdata : x.schema.EnclosesData c) (h : x.scopesAt x.targetOf c = .ok scopes)
    (hscope : scope ∈ scopes) :
    ∃ p, x.schema.childrenOf p = scope ∧ x.Surrounds x.targetOf c p := by
  match c with
  | .top m =>
    obtain rfl : x.schema.bodies m = scopes := by simpa [scopesAt] using h
    obtain ⟨u, hu, rfl⟩ := List.mem_map.1 hscope
    exact ⟨.submodule u, rfl, hx.surrounds_submodule hc hu⟩
  | .node i =>
    have hdata : (x.schema.kind i).enclosesData = true := hdata
    have hi : x.schema.kind i ≠ .augment := by
      intro hk
      simp [hk, Kind.enclosesData] at hdata
    obtain rfl : x.scopeOf i = scopes := by simpa [scopesAt, hi] using h
    obtain rfl : scope = (x.schema.node i).children := List.mem_singleton.1 hscope
    exact ⟨.node i, rfl, hx.surrounds_self hdata⟩

variable (hplain : ∀ a t, x.mergedTarget? a = some t → (x.schema.kind t).transparent = false)
include hplain

/-- **The way down.** The start surrounds every scope that can be opened from it. -/
theorem exists_surrounds_of_opens
    (hscopes : ∀ scope ∈ scopes, ∃ p, x.schema.childrenOf p = scope ∧ x.Surrounds target c p)
    (h : x.Opens scopes scope) :
    ∃ p, x.schema.childrenOf p = scope ∧ x.Surrounds target c p := by
  induction h with
  | scope hscope => exact hscopes _ hscope
  | @use _ u g _ hu hg ih =>
    obtain ⟨p, rfl, hp⟩ := ih
    exact ⟨.node g, rfl, hx.surrounds_grouping hp hu hg⟩
  | @block _ k b _ hk hb ih =>
    obtain ⟨p, rfl, hp⟩ := ih
    refine ⟨.node b, rfl, hx.surrounds_block hp hk hb fun a ha ↦ ?_⟩
    have htarget := hplain a b ha
    rw [hx.filed p k b hb, hk] at htarget
    simp at htarget

/-- Where nothing was merged into choices and cases, what is in one was declared there, and so comes
after it. -/
theorem index_lt_of_branches (hi : (x.schema.kind i).transparent = true)
    (h : x.schema.Branches i b) : (x.schema.kind b).transparent = true ∧ i.index < b.index := by
  obtain ⟨k, hk, hb⟩ := h
  have hparent : (x.schema.node b).parent = .node i := by
    refine hx.parent_eq_of_mem_slot (fun a t ht hmerged ↦ ?_) hb
    obtain rfl : i = t := by simpa using ht
    simp [hplain a i hmerged] at hi
  exact ⟨by rwa [hx.filed (.node i) k b hb], hx.framed.parent_lt b i hparent⟩

/-- **So no choice or case contains itself.** -/
theorem branchesAcyclic : x.schema.BranchesAcyclic := by
  intro i hi hcycle
  have hbelow {b : NodeId} (h : Relation.TransGen x.schema.Branches i b) :
      (x.schema.kind b).transparent = true ∧ i.index < b.index := by
    induction h with
    | single hbranch => exact hx.index_lt_of_branches hplain hi hbranch
    | tail _ hbranch ih =>
      obtain ⟨hkind, hlt⟩ := hx.index_lt_of_branches hplain ih.1 hbranch
      exact ⟨hkind, Nat.lt_trans ih.2 hlt⟩
  exact Nat.lt_irrefl _ (hbelow hcycle).2

/-- **`..` leads back to where a name was looked up.** -/
theorem anchor_of_childAt (hc : x.schema.HasPosition c) (hdata : x.schema.EnclosesData c)
    (h : x.childAt x.targetOf c name = .ok (some id)) :
    x.schema.kind id ∈ Kind.dataKinds ∧ x.Anchor x.targetOf (x.schema.node id).parent c := by
  obtain ⟨scopes, scope, k, hscopes, hopens, hk, hid⟩ := exists_opens_of_childAt h
  obtain ⟨p, rfl, hp⟩ := hx.exists_surrounds_of_opens hplain
    (fun _ ↦ hx.exists_surrounds_of_scopesAt hc hdata hscopes) hopens
  refine ⟨?_, hp k id hid⟩
  rwa [hx.filed p k id hid]

end Settled

/-! ### Following `..` -/

/-- The positions that `..` tries are the anchors, unless some search never ends. -/
theorem parentsAt_node_cases (hx : x.schema.Grounded) (hpos : 0 < x.schema.parentBound)
    (hc : x.Anchor target (x.schema.node id).parent c) (path : Path) (home : ModuleId)
    (index : Nat) :
    x.parentsAt target path home index (.node id) = .error .unending ∨
      ∃ found, x.parentsAt target path home index (.node id) = .ok found ∧ c ∈ found := by
  rcases hanchors : x.anchors target (x.schema.node id).parent with halt | found
  · obtain rfl := anchors_eq_error hanchors
    exact .inl (by rw [parentsAt, hanchors])
  · have hmem := (mem_anchors_iff hx hpos (hx.number_parent_lt hpos id) hanchors).2 hc
    refine .inr ⟨found, ?_, hmem⟩
    cases found with
    | nil => simp at hmem
    | cons first rest => rw [parentsAt, hanchors]

/-- If `..` tries one node only, following `..` leads to it. -/
theorem followFrom_parent {path : Path} {home : ModuleId} {index : Nat}
    (hid : x.schema.kind id ≠ .type)
    (h : x.parentsAt x.targetOf path home index (.node id) = .ok [.node i]) :
    x.followFrom false ".." id = .ok i := by
  have hpath : (Path.ofString "..").segments = [.parent] ∧
      (Path.ofString "..").absolute = false := by
    decide +kernel
  have hanchors : x.anchors x.targetOf (x.schema.node id).parent = .ok [.node i] := by
    rw [parentsAt] at h
    split at h
    · simp at h
    · simp at h
    · next found _ hfound =>
      obtain rfl : found = [.node i] := by simpa using h
      exact hfound
  have hmoves (path : Path) (home : ModuleId) :
      x.moves x.targetOf path home 0 (.node id) .parent = .ok [.node i] := by
    rw [moves, parentsAt, hanchors]
  have hwalk (home : ModuleId) :
      x.walk x.targetOf (Path.ofString "..") home (.node id) = .ok (.node i) := by
    simp [walk, hpath, proceed, advance, hmoves, List.eraseDups_cons]
  simp [followFrom, followFromBy, followBy, Schema.carrier_eq_self hid, hpath, startOf, hwalk,
    arrive]

end Session

namespace Schema

open Session

variable {s : Schema} {policy : Policy} {l : Linked}

/-- **Down by a name and up again.** After every run that ends well and has merged nothing into a
choice or case: if a name leads from a module, container, list or notification to a node, then `..`
may move from the node back to where the name was looked up. Whenever the search for what `..` leads
to comes to an end, this is among the positions that it tries, and if it is a node and no other
position is tried, following `..` from the child leads to it. The search does come to an end if the
target paths of augments are absolute and without `..`. -/
theorem ascent_of_descent {docs : List Document} (hdocs : ofDocuments docs = .ok s)
    (hrun : s.resolve policy = .ok l)
    (hplain : ∀ a t, l.session.mergedTarget? a = some t →
      (l.session.schema.kind t).transparent = false)
    {c : Position} (hc : l.session.schema.HasPosition c) (hdata : l.session.schema.EnclosesData c)
    {name : String} {id : NodeId}
    (hchild : l.session.childAt l.session.targetOf c name = .ok (some id)) :
    (∀ home, l.session.Moves l.session.targetOf home .parent (.node id) c) ∧
    ∀ path home index,
      (Ends (l.session.parentsAt l.session.targetOf path home index (.node id)) →
        ∃ found, l.session.parentsAt l.session.targetOf path home index (.node id) = .ok found ∧
          c ∈ found) ∧
      (∀ i d, c = .node i →
        l.session.parentsAt l.session.targetOf path home index (.node id) = .ok [d] →
        l.session.followFrom false ".." id = .ok i) ∧
      (l.session.schema.PlainTargets →
        Ends (l.session.parentsAt l.session.targetOf path home index (.node id))) := by
  have hx := settled_of_resolve hdocs hrun
  obtain ⟨hkind, hanchor⟩ := hx.anchor_of_childAt hplain hc hdata hchild
  have hpos := hx.grounded.parentBound_pos hc
  refine ⟨fun home ↦ moves_parent_iff.2 hanchor, fun path home index ↦ ?_⟩
  have hcases := parentsAt_node_cases hx.grounded hpos hanchor path home index
  refine ⟨hcases.resolve_left, ?_, fun htargets ↦
    ends_parentsAt (ends_targetOf hx.filed (hx.branchesAcyclic hplain) htargets)⟩
  rintro i d rfl hone
  obtain ⟨found, hfound, hmem⟩ := hcases.resolve_left (by rw [hone]; simp)
  obtain rfl : found = [d] := by simpa [hone] using hfound.symm
  obtain rfl : .node i = d := List.mem_singleton.1 hmem
  refine followFrom_parent (fun htype ↦ ?_) hone
  simp [htype, Kind.dataKinds] at hkind

/-- A grouping is used in a case of another grouping, which an augment brings into a container. -/
def enclosed : List Document :=
  [.module
    { name := "m", ownPrefix := "m", space := "urn:m"
      body := [
        .block .grouping "inner" none [.typed .leaf "size" none { name := "string" }],
        .block .grouping "outer" none
          [.block .choice "form" none [.block .case "open" none [.uses "inner"]]],
        .block .container "box" none [],
        .augment "/m:box" none [.uses "outer"]] }]

/-- The leaf is found from the container, through a merged choice, a case and a `uses`, and `..`
leads back from it. -/
theorem ascent_of_descent_enclosed :
    ∃ s l, ofDocuments enclosed = .ok s ∧ s.resolve .strict = .ok l ∧
      l.session.schema.PlainTargets ∧
      l.session.childAt l.session.targetOf (.node ⟨7⟩) "size" = .ok (some ⟨1⟩) ∧
      (∃ found, l.session.parentsAt l.session.targetOf (Path.ofString "..") ⟨0⟩ 0 (.node ⟨1⟩) =
        .ok found ∧ .node ⟨7⟩ ∈ found) ∧
      l.session.followFrom false ".." ⟨1⟩ = .ok ⟨7⟩ := by
  obtain ⟨l, hrun, htargets, hchild, hparents, hmerged, hbox⟩ :
      ∃ l, (ofBatch enclosed).resolve .strict = .ok l ∧ l.session.schema.PlainTargets ∧
        l.session.childAt l.session.targetOf (.node ⟨7⟩) "size" = .ok (some ⟨1⟩) ∧
        l.session.parentsAt l.session.targetOf (Path.ofString "..") ⟨0⟩ 0 (.node ⟨1⟩)
          = .ok [.node ⟨7⟩] ∧
        l.session.targets = [(⟨8⟩, ⟨7⟩)] ∧ l.session.schema.kind ⟨7⟩ = .container :=
    exists_ok_of_any (by decide +kernel)
  have hdocs : ofDocuments enclosed = .ok (ofBatch enclosed) := ofDocuments_of_offences_eq_nil rfl
  have hplain : ∀ a t, l.session.mergedTarget? a = some t →
      (l.session.schema.kind t).transparent = false := by
    intro a t ht
    rw [mergedTarget?, hmerged, List.lookup_cons] at ht
    obtain rfl : ⟨7⟩ = t := by
      split at ht
      · simpa using ht
      · simp at ht
    rw [hbox]
    rfl
  have hc : l.session.schema.HasPosition (.node ⟨7⟩) :=
    index_lt_of_kind_ne_uses (by rw [hbox]; decide)
  have hdata : l.session.schema.EnclosesData (.node ⟨7⟩) := by
    show (l.session.schema.kind ⟨7⟩).enclosesData = true
    rw [hbox]
    rfl
  obtain ⟨htried, hback, hends⟩ :=
    (ascent_of_descent hdocs hrun hplain hc hdata hchild).2 (Path.ofString "..") ⟨0⟩ 0
  exact ⟨_, l, hdocs, hrun, htargets, hchild, htried (hends htargets), hback ⟨7⟩ _ rfl hparents⟩

/-- **The search need not end**, although the batch is accepted without a word and nothing is merged
in it: the container in the grouping is found from outside, but `..` from it asks where the augment
in the grouping leads, and goes round. -/
theorem ascent_unending_roundabout :
    ∃ s l, ofDocuments roundabout = .ok s ∧ s.resolve .bestEffort = .ok l ∧
      l.session.diagnostics = [] ∧ (∀ a, l.session.mergedTarget? a = none) ∧
      l.session.schema.EnclosesData (.node ⟨4⟩) ∧
      l.session.childAt l.session.targetOf (.node ⟨4⟩) "n" = .ok (some ⟨1⟩) ∧
      (∀ path home index, l.session.parentsAt l.session.targetOf path home index (.node ⟨1⟩) =
        .error .unending) ∧
      l.session.followFrom false ".." ⟨1⟩ = .error .unending := by
  obtain ⟨l, hrun, hnone, hmerged, hkind, hchild, hanchors, hfollow⟩ :
      ∃ l, (ofBatch roundabout).resolve .bestEffort = .ok l ∧ l.session.diagnostics = [] ∧
        l.session.targets = [] ∧ (l.session.schema.kind ⟨4⟩).enclosesData = true ∧
        l.session.childAt l.session.targetOf (.node ⟨4⟩) "n" = .ok (some ⟨1⟩) ∧
        l.session.anchors l.session.targetOf (l.session.schema.node ⟨1⟩).parent =
          .error .unending ∧
        l.session.followFrom false ".." ⟨1⟩ = .error .unending :=
    exists_ok_of_any (by decide +kernel)
  refine ⟨_, l, ofDocuments_of_offences_eq_nil rfl, hrun, hnone, fun a ↦ ?_, hkind, hchild,
    fun path home index ↦ ?_, hfollow⟩
  · rw [mergedTarget?, hmerged, List.lookup_nil]
  · rw [parentsAt, hanchors]

end Schema

end SchemaLink
