import SchemaLink.Proofs.Endings
import SchemaLink.Proofs.Tolerance

/-!
# Places from above and from below

Whether a node has a place in the data can be asked in two ways. **From above**: one enters modules,
the children of what has been entered, merged ones included, and the groupings that are used there
(`Session.Entered`); a node has a place if it is found on the way (`Session.Placed`). **From
below**: one climbs from a node over parents, from a grouping to where it is used, from an augment
to its target, until a module is reached (`Session.Ascends`). The search `Session.inDataTree`
climbs.

**Whatever is found from above is found from below** (`Schema.inDataTree_of_descent`), also where
groupings use each other in circles. The search may fail to come to an end, since it has to find the
targets of augments on its way; but for nodes that hold a value it has come to its end when a run
ends well, and so no type of a node in the data is left unchecked.

The converse fails, since the search climbs from an augment to its target without asking whether the
target holds what hangs in the augment. **With that question the two agree**
(`Session.Settled.placed_iff_ascends`), so it is the only thing that the search leaves out.
-/

namespace SchemaLink

namespace Schema

variable {s : Schema} {id : NodeId}

/-- A node that appears in data is there and is no type. -/
theorem index_lt_of_mem_dataKinds (hk : s.kind id ∈ Kind.dataKinds) :
    id.index < s.nodes.size ∧ s.kind id ≠ .type := by
  constructor
  · exact index_lt_of_kind_ne_uses fun h ↦ by simp [h, Kind.dataKinds] at hk
  · exact fun h ↦ by simp [h, Kind.dataKinds] at hk

/-- What collects nodes and is neither a grouping nor an augment appears in data. -/
theorem mem_dataKinds_of_collects (h : s.Collects (.node id)) (hgrouping : s.kind id ≠ .grouping)
    (haugment : s.kind id ≠ .augment) : s.kind id ∈ Kind.dataKinds := by
  by_cases htransparent : (s.kind id).transparent = true
  · rcases hk : s.kind id <;> simp_all [Kind.transparent, Kind.dataKinds]
  · have hdata := enclosesData_of_collects h (by simpa using htransparent) hgrouping haugment
    rcases hk : s.kind id <;> simp_all [Kind.enclosesData, Kind.dataKinds]

end Schema

namespace Session

variable {x : Session} {target : TargetFinder} {takes : NodeId → NodeId → Prop}
  {id a b t : NodeId} {p q : Parent} {k : Kind}

/-! ### From above -/

/-- What can be entered from the top level of a module: its submodules, the data children of what
has been entered, merged ones included, and the groupings that are used there. -/
inductive Entered (x : Session) : Parent → Prop where
  | top {m : ModuleId} {u : SubmoduleId} (hm : m.index < x.schema.modules.size)
      (hu : u ∈ (x.schema.module m).units) : Entered x (.submodule u)
  | child {p : Parent} {k : Kind} {id : NodeId} (h : Entered x p) (hk : k ∈ Kind.dataKinds)
      (hid : id ∈ (x.schema.childrenOf p).slot k) : Entered x (.node id)
  | use {p : Parent} {u g : NodeId} (h : Entered x p)
      (hu : u ∈ (x.schema.childrenOf p).slot .uses)
      (hg : x.registry.groupingOf x.schema u = .ok g) : Entered x (.node g)

/-- The node is a data child of something that can be entered. -/
def Placed (x : Session) (id : NodeId) : Prop :=
  ∃ p k, x.Entered p ∧ k ∈ Kind.dataKinds ∧ id ∈ (x.schema.childrenOf p).slot k

theorem Entered.placed (h : x.Entered p) (hk : x.schema.kind id ∈ Kind.dataKinds)
    (hid : id ∈ (x.schema.childrenOf p).slot (x.schema.kind id)) : x.Placed id :=
  ⟨p, x.schema.kind id, h, hk, hid⟩

theorem Placed.entered (h : x.Placed id) : x.Entered (.node id) := by
  obtain ⟨p, k, hp, hk, hid⟩ := h
  exact hp.child hk hid

/-! ### From below -/

/-- From a node that hangs in a parent one can climb to the top level of a module: from inside a
node on to its own parent, from a grouping to where it is used, and from an augment to its target,
if this takes the node. -/
inductive Ascends (x : Session) (target : TargetFinder) (takes : NodeId → NodeId → Prop) :
    NodeId → Parent → Prop where
  | top (id : NodeId) (u : SubmoduleId) : Ascends x target takes id (.submodule u)
  | inside {id p : NodeId} (hg : x.schema.kind p ≠ .grouping) (ha : x.schema.kind p ≠ .augment)
      (h : Ascends x target takes p (x.schema.node p).parent) : Ascends x target takes id (.node p)
  | used {id g u : NodeId} (hg : x.schema.kind g = .grouping) (hu : (g, u) ∈ x.usages)
      (h : Ascends x target takes id (x.schema.node u).parent) : Ascends x target takes id (.node g)
  | target {id a t : NodeId} (ha : x.schema.kind a = .augment) (ht : target a = .ok t)
      (htakes : takes t id) (h : Ascends x target takes id (.node t)) :
      Ascends x target takes id (.node a)

/-- Any target will do. -/
def Anything (_ _ : NodeId) : Prop :=
  True

/-- The node is among the children of the target. -/
def Holds (x : Session) (t id : NodeId) : Prop :=
  id ∈ (x.schema.node t).children.slot (x.schema.kind id)

theorem collects_of_holds (h : x.Holds t id) : x.schema.Collects (.node t) := by
  show (x.schema.node t).content.children?.isSome = true
  rcases hc : (x.schema.node t).content.children? with - | children
  · simp [Holds, Node.children, Node.children?, hc, Children.slot] at h
  · rfl

/-- From inside a node that appears in data the way leads on from the node. -/
theorem Ascends.of_inside (h : x.Ascends target takes id (.node b))
    (hk : x.schema.kind b ∈ Kind.dataKinds) :
    x.Ascends target takes b (x.schema.node b).parent := by
  cases h with
  | inside _ _ h => exact h
  | used hg => simp [hg, Kind.dataKinds] at hk
  | target ha => simp [ha, Kind.dataKinds] at hk

/-- From an augment the way leads on only if its target takes the node. -/
theorem Ascends.takes_of_target (h : x.Ascends target takes id (.node a))
    (ha : x.schema.kind a = .augment) (ht : target a = .ok t) : takes t id := by
  cases h with
  | inside _ hna => exact absurd ha hna
  | used hg => simp [ha] at hg
  | target _ ht' htakes =>
    obtain rfl : t = _ := by simpa [ht] using ht'
    exact htakes

theorem Ascends.anything (h : x.Ascends target takes id p) : x.Ascends target Anything id p := by
  induction h with
  | top id u => exact .top id u
  | inside hg ha _ ih => exact .inside hg ha ih
  | used hg hu _ ih => exact .used hg hu ih
  | target ha ht _ _ ih => exact .target ha ht trivial ih

/-- Climbing from where a node hangs is climbing from the node. -/
theorem Hangs.ascends (h : x.Hangs id p) (hp : x.Ascends target takes id p) :
    x.Ascends target takes id (x.schema.node id).parent := by
  induction h with
  | declared => exact hp
  | used _ hg hu ih => exact ih (.used hg hu hp)

/-! ### The search -/

/-- The steps of the search are the rules for climbing. -/
theorem mem_placeStep_iff :
    q ∈ x.placeStep target p ↔
      ∃ id, p = .node id ∧
        (x.schema.kind id ≠ .grouping ∧ x.schema.kind id ≠ .augment ∧
            q = (x.schema.node id).parent ∨
          (x.schema.kind id = .grouping ∧ ∃ u, (id, u) ∈ x.usages ∧ (x.schema.node u).parent = q) ∨
          x.schema.kind id = .augment ∧ ∃ t, target id = .ok t ∧ q = .node t) := by
  match p with
  | .submodule u => simp [placeStep]
  | .node id =>
    by_cases ha : x.schema.kind id = .augment
    · rcases ht : target id with halt | t <;> simp [placeStep, ha, ht]
    · rcases hk : x.schema.kind id <;>
        simp_all [placeStep, usePlaces, mem_occurrencesOf]

theorem ascends_anything_iff :
    x.Ascends target Anything id p ↔
      ∃ u, Relation.ReflTransGen (DepthFirst.Leads (x.placeStep target)) p (.submodule u) := by
  constructor
  · intro h
    induction h with
    | top id u => exact ⟨u, .refl⟩
    | @inside id p hg ha _ ih =>
      obtain ⟨u, hu⟩ := ih
      exact ⟨u, .head (mem_placeStep_iff.2 ⟨p, rfl, .inl ⟨hg, ha, rfl⟩⟩) hu⟩
    | @used id g v hg hv _ ih =>
      obtain ⟨u, hu⟩ := ih
      exact ⟨u, .head (mem_placeStep_iff.2 ⟨g, rfl, .inr (.inl ⟨hg, v, hv, rfl⟩)⟩) hu⟩
    | @target id a t ha ht _ _ ih =>
      obtain ⟨u, hu⟩ := ih
      exact ⟨u, .head (mem_placeStep_iff.2 ⟨a, rfl, .inr (.inr ⟨ha, t, ht, rfl⟩)⟩) hu⟩
  · rintro ⟨u, hu⟩
    induction hu using Relation.ReflTransGen.head_induction_on generalizing id with
    | refl => exact .top id u
    | head hstep _ ih =>
      obtain ⟨p, rfl, ⟨hg, ha, rfl⟩ | ⟨hg, v, hv, rfl⟩ | ⟨ha, t, ht, rfl⟩⟩ :=
        mem_placeStep_iff.1 hstep
      · exact .inside hg ha ih
      · exact .used hg hv ih
      · exact .target ha ht trivial ih

theorem placeVerdict_cases {verdict : Except Halt Bool}
    (h : x.placeVerdict target p = some verdict) :
    verdict = .error .unending ∨ verdict = .ok true ∧ ∃ u, p = .submodule u := by
  unfold placeVerdict at h
  split at h
  · next u => exact .inr ⟨(Option.some.inj h).symm, u, rfl⟩
  · split at h
    · split at h
      · exact .inl (Option.some.inj h).symm
      · simp at h
    · simp at h

/-- The answer yes is right. -/
theorem ascends_of_inDataTreeBy (h : x.inDataTreeBy target id = .ok true) :
    x.Ascends target Anything id (x.schema.node (x.schema.carrier id)).parent := by
  rcases x.inDataTreeBy_cases target id with ⟨hno, -⟩ | ⟨p, hp, hverdict⟩
  · simp [h] at hno
  · obtain hunending | ⟨-, u, rfl⟩ := placeVerdict_cases hverdict
    · simp [h] at hunending
    · obtain ⟨q, hq, hreach⟩ := DepthFirst.reachable_of_mem_visits hp
      obtain rfl := List.mem_singleton.1 hq
      exact ascends_anything_iff.2 ⟨u, hreach⟩

/-- **One record of visited parents cuts off no way up**: if there is one, the answer is yes, unless
the search for some target never ends. -/
theorem inDataTreeBy_of_ascends (hx : x.schema.Grounded) (hpos : 0 < x.schema.parentBound)
    (htarget : ∀ a t, target a = .ok t → t.index < x.schema.nodes.size)
    (h : x.Ascends target Anything id (x.schema.node (x.schema.carrier id)).parent) :
    x.inDataTreeBy target id = .error .unending ∨ x.inDataTreeBy target id = .ok true := by
  obtain ⟨u, hreach⟩ := ascends_anything_iff.1 h
  have hbound : ∀ p, ∀ q ∈ x.placeStep target p, q.number < x.schema.parentBound := by
    intro p q hq
    obtain ⟨id, -, ⟨-, -, rfl⟩ | ⟨-, v, -, rfl⟩ | ⟨-, t, ht, rfl⟩⟩ := mem_placeStep_iff.1 hq
    · exact hx.number_parent_lt hpos id
    · exact hx.number_parent_lt hpos v
    · have ht : x.schema.HasParent (.node t) := htarget id t ht
      exact ht.number_lt
  have hmem : .submodule u ∈ x.schema.searchParents (x.placeStep target)
      (x.schema.node (x.schema.carrier id)).parent := by
    rw [Schema.searchParents, DepthFirst.mem_search_iff Parent.number_injective
      (by simpa using hx.number_parent_lt hpos _) hbound]
    exact ⟨_, List.mem_singleton.2 rfl, hreach⟩
  rcases x.inDataTreeBy_cases target id with ⟨-, hnone⟩ | ⟨p, -, hverdict⟩
  · simpa [placeVerdict] using hnone _ hmem
  · exact (placeVerdict_cases hverdict).imp_right And.left

namespace Settled

variable (hx : x.Settled)
include hx

/-! ### The two ways agree -/

/-- From the children of a parent that can be climbed from one can climb, too. -/
theorem ascends_of_mem_slot (hp : ∀ b, x.Ascends x.targetOf x.Holds b p)
    (hid : id ∈ (x.schema.childrenOf p).slot k) :
    x.Ascends x.targetOf x.Holds id (x.schema.node id).parent := by
  rcases hx.origin p k id hid with hparent | ⟨-, a, t, rfl, hmerged, hhangs⟩
  · rw [hparent]
    exact hp id
  · have hholds : x.Holds t id := by
      rw [Holds, hx.filed (.node t) k id hid]
      exact hid
    have ha := (hx.kinds_of_mergedTarget? a t hmerged).1
    exact hhangs.ascends (.target ha (targetOf_of_mergedTarget? hmerged) hholds (hp id))

/-- **From whatever can be entered one can climb**, with anything that hangs there. -/
theorem ascends_of_entered (h : x.Entered p) (b : NodeId) : x.Ascends x.targetOf x.Holds b p := by
  -- no augment is ever entered, so which node climbs makes no difference on the way
  induction h generalizing b with
  | @top m u _ _ => exact .top b u
  | @child p k id _ hk hid ih =>
    have hkind := hx.filed p k id hid
    refine .inside ?_ ?_ (hx.ascends_of_mem_slot ih hid) <;> rw [hkind] <;> rintro rfl <;>
      simp [Kind.dataKinds] at hk
  | @use p u g _ hu hg ih =>
    obtain ⟨hparent, hgrouping, husage⟩ := hx.usage_of_mem_slot hu hg
    exact .used hgrouping husage (hparent ▸ ih b)

theorem ascends_of_placed (h : x.Placed id) :
    x.Ascends x.targetOf x.Holds id (x.schema.node id).parent := by
  obtain ⟨p, k, hp, -, hid⟩ := h
  exact hx.ascends_of_mem_slot (hx.ascends_of_entered hp) hid

/-- A data node is placed if it is found where it is declared, or where it is held. -/
theorem placed_of_entered_or_held (hk : x.schema.kind id ∈ Kind.dataKinds)
    (h : x.Entered (x.schema.node id).parent ∨ ∃ t, x.Entered (.node t) ∧ x.Holds t id) :
    x.Placed id := by
  rcases h with hp | ⟨t, ht, hholds⟩
  · obtain ⟨hindex, htype⟩ := Schema.index_lt_of_mem_dataKinds hk
    exact hp.placed hk (hx.coherent.mem_slot_parent id hindex htype)
  · exact ht.placed hk hholds

theorem collects_parent (hk : x.schema.kind id ∈ Kind.dataKinds) :
    x.schema.Collects (x.schema.node id).parent := by
  obtain ⟨hindex, htype⟩ := Schema.index_lt_of_mem_dataKinds hk
  exact hx.framed.roomy.collects_parent hindex htype

/-- **Whatever one climbs over can be entered**, or the node with which one climbs is held by
something that can. -/
theorem entered_or_held_of_ascends (h : x.Ascends x.targetOf x.Holds b p)
    (hp : x.schema.Collects p) : x.Entered p ∨ ∃ t, x.Entered (.node t) ∧ x.Holds t b := by
  -- the second case is that of an augment: it is not entered, but its target is, which holds `b`
  induction h with
  | top b u =>
    obtain ⟨hm, hu⟩ := hx.framed.listed u hp
    exact .inl (.top hm hu)
  | @inside b p hg ha _ ih =>
    have hk := Schema.mem_dataKinds_of_collects hp hg ha
    exact .inl (hx.placed_of_entered_or_held hk (ih (hx.collects_parent hk))).entered
  | @used b g u hg hu _ ih =>
    obtain ⟨hindex, hkind, hgroup⟩ := (hx.mem_usages_iff g u).1 hu
    have htype : x.schema.kind u ≠ .type := by simp [hkind]
    refine (ih (hx.framed.roomy.collects_parent hindex htype)).imp_left fun hplace ↦ ?_
    have hmem := hx.coherent.mem_slot_parent u hindex htype
    rw [hkind] at hmem
    exact hplace.use hmem hgroup
  | @target b a t ha ht hholds _ ih =>
    exact .inr ((ih (collects_of_holds hholds)).elim (fun ht ↦ ⟨t, ht, hholds⟩) id)

/-- **A node has a place exactly if one can climb from it by way of targets that hold what hangs in
the augment.** -/
theorem placed_iff_ascends (hk : x.schema.kind id ∈ Kind.dataKinds) :
    x.Placed id ↔ x.Ascends x.targetOf x.Holds id (x.schema.node id).parent :=
  ⟨hx.ascends_of_placed, fun h ↦ hx.placed_of_entered_or_held hk
    (hx.entered_or_held_of_ascends h (hx.collects_parent hk))⟩

theorem parentBound_pos (hk : x.schema.kind id ∈ Kind.dataKinds) : 0 < x.schema.parentBound := by
  have hid : x.schema.HasPosition (.node id) := (Schema.index_lt_of_mem_dataKinds hk).1
  exact hx.grounded.parentBound_pos hid

/-- **What the answer to the question for a place says**: whether one can climb from the node at
all, unless the search for some target never ends. -/
theorem inDataTree_eq_true_iff (hk : x.schema.kind id ∈ Kind.dataKinds)
    (hends : x.inDataTree id ≠ .error .unending) :
    x.inDataTree id = .ok true ↔
      x.Ascends x.targetOf Anything id (x.schema.node id).parent := by
  have hself : x.schema.carrier id = id :=
    Schema.carrier_eq_self (Schema.index_lt_of_mem_dataKinds hk).2
  constructor
  · intro h
    simpa only [hself] using ascends_of_inDataTreeBy h
  · intro h
    have hcases := inDataTreeBy_of_ascends hx.grounded (hx.parentBound_pos hk)
      (fun _ _ ↦ hx.index_lt_of_targetOf) (by rwa [hself])
    exact hcases.resolve_left hends

theorem kind_of_placed (h : x.Placed id) : x.schema.kind id ∈ Kind.dataKinds := by
  obtain ⟨p, k, -, hk, hid⟩ := h
  rwa [hx.filed p k id hid]

/-- Of a node with a place the answer is yes, unless the search for some target never ends. -/
theorem inDataTree_of_placed (h : x.Placed id) :
    x.inDataTree id = .error .unending ∨ x.inDataTree id = .ok true := by
  by_cases hends : x.inDataTree id = .error .unending
  · exact .inl hends
  · exact .inr ((hx.inDataTree_eq_true_iff (hx.kind_of_placed h) hends).2
      (hx.ascends_of_placed h).anything)

end Settled

end Session

namespace Schema

open Session

variable {s : Schema} {policy : Policy} {l : Linked} {id : NodeId} {ids : List NodeId}

/-! ### The check of types -/

/-- The nodes whose types are named at the end of a run, after all modules have been completed. -/
def ChecksTypesOf (s : Schema) (policy : Policy) (l : Linked) (ids : List NodeId) : Prop :=
  ∃ x y, Session.start s policy = .ok x ∧ Link.completeModules l.order x = .ok () y ∧
    y.placedTypedNodes = .ok ids ∧ Link.checkNames y.links ids y = .ok () l.session

theorem exists_checksTypesOf (h : s.resolve policy = .ok l) :
    ∃ ids, s.ChecksTypesOf policy l ids := by
  obtain ⟨x, hx, -, hrun⟩ := exists_start_of_resolve h
  rcases hcomplete : Link.completeModules l.order x with ⟨⟨⟩, y⟩ | ⟨halt, y⟩
  · rw [Link.bind_of_eq_ok hcomplete] at hrun
    rcases hplaced : y.placedTypedNodes with halt | ids
    · have hask : Link.ask (·.placedTypedNodes) y = .error halt y := Link.ask_of_eq_error hplaced
      rw [Link.nameAllTypes, Link.bind_of_eq_error hask] at hrun
      simp at hrun
    · have hask : Link.ask (·.placedTypedNodes) y = .ok ids y := Link.ask_of_eq_ok hplaced
      rw [Link.nameAllTypes, Link.bind_of_eq_ok hask] at hrun
      exact ⟨ids, x, y, hx, hcomplete, hplaced, hrun⟩
  · rw [Link.bind_of_eq_error hcomplete] at hrun
    simp at hrun

/-- Naming types changes nothing about places. -/
theorem ChecksTypesOf.placedTypedNodes_eq (h : s.ChecksTypesOf policy l ids) :
    l.session.placedTypedNodes = .ok ids := by
  obtain ⟨x, y, -, -, hplaced, hcheck⟩ := h
  have hsilent : l.session.silent = y.silent := by
    rw [← Link.after_of_eq_ok hcheck]
    exact Link.keeps_checkNames y.links ids y
  rw [Link.eq_under_of_silent_eq hsilent, placedTypedNodes_under, hplaced]

theorem mem_dataKinds_of_holdsValue (h : (s.kind id).holdsValue = true) :
    s.kind id ∈ Kind.dataKinds := by
  rcases hk : s.kind id <;> simp_all [Kind.holdsValue, Kind.dataKinds]

/-- Nodes that hold a value own a type. -/
theorem mem_typedNodes_of_holdsValue {x : Session} (h : (x.schema.kind id).holdsValue = true) :
    id ∈ x.typedNodes := by
  have hindex := (index_lt_of_mem_dataKinds (mem_dataKinds_of_holdsValue h)).1
  exact List.mem_filter.2 ⟨mem_nodeIds.2 hindex, isSome_typeHandle?_of_holdsValue h⟩

/-- After a run that ends well, the search for a place of a node that holds a value ends. -/
theorem inDataTree_ne_unending (hrun : s.resolve policy = .ok l)
    (hid : (l.session.schema.kind id).holdsValue = true) :
    l.session.inDataTree id ≠ .error .unending := by
  obtain ⟨ids, hids⟩ := exists_checksTypesOf hrun
  obtain ⟨keep, hkeep⟩ :=
    (Link.selectM_eq_ok hids.placedTypedNodes_eq id).2 (mem_typedNodes_of_holdsValue hid)
  simp [hkeep]

/-- **What has a place is found to have one.** After every run that ends well: of every data node
that can be reached from the top level of a module, down through children, merged ones included,
through choices and cases and into groupings that are used, the search finds a place in the data,
whenever it comes to an end. It does if the target paths of augments are absolute and without `..`
and no choice or case contains itself, and of nodes that hold a value it always does, so that none
that can be reached is left out when types are checked. -/
theorem inDataTree_of_descent {docs : List Document} (hdocs : ofDocuments docs = .ok s)
    (hrun : s.resolve policy = .ok l) :
    (∀ id, l.session.Placed id → Ends (l.session.inDataTree id) →
      l.session.inDataTree id = .ok true) ∧
    (l.session.schema.PlainTargets → l.session.schema.BranchesAcyclic →
      ∀ id, l.session.Placed id → l.session.inDataTree id = .ok true) ∧
    ∃ ids, s.ChecksTypesOf policy l ids ∧
      ∀ id, l.session.Placed id → (l.session.schema.kind id).holdsValue = true →
        l.session.inDataTree id = .ok true ∧ id ∈ ids := by
  have hx := settled_of_resolve hdocs hrun
  have hyes : ∀ id, l.session.Placed id → Ends (l.session.inDataTree id) →
      l.session.inDataTree id = .ok true :=
    fun id hplaced hends ↦ (hx.inDataTree_of_placed hplaced).resolve_left hends
  obtain ⟨ids, hids⟩ := exists_checksTypesOf hrun
  refine ⟨hyes, fun htargets hacyclic id hplaced ↦ ?_, ids, hids, fun id hplaced hvalue ↦ ?_⟩
  · exact hyes id hplaced (ends_inDataTreeBy (ends_targetOf hx.filed hacyclic htargets) id)
  · have hplace := hyes id hplaced (inDataTree_ne_unending hrun hvalue)
    exact ⟨hplace, (Link.selectM_eq_ok hids.placedTypedNodes_eq id).1.2
      ⟨mem_typedNodes_of_holdsValue hvalue, hplace⟩⟩

/-- Two groupings use each other, and one of them is used in a container. -/
def circular : List Document :=
  [.module
    { name := "m", ownPrefix := "m", space := "urn:m"
      body := [
        .block .grouping "sized" none
          [.typed .leaf "size" none { name := "string" }, .uses "boxed"],
        .block .grouping "boxed" none [.uses "sized"],
        .block .container "box" none [.uses "boxed"]] }]

/-- The leaf is reached by way of both groupings; its type is checked. -/
theorem inDataTree_of_descent_circular :
    ∃ s l ids, ofDocuments circular = .ok s ∧ s.resolve .strict = .ok l ∧
      l.session.schema.PlainTargets ∧ l.session.schema.BranchesAcyclic ∧
      s.ChecksTypesOf .strict l ids ∧ l.session.Placed ⟨6⟩ ∧ l.session.inDataTree ⟨6⟩ = .ok true ∧
      l.session.Placed ⟨1⟩ ∧ l.session.inDataTree ⟨1⟩ = .ok true ∧ ⟨1⟩ ∈ ids := by
  obtain ⟨l, hrun, hmodules, hunits, htop, hbox, hboxed, hsized, hoften, hleaf, hkind, htargets,
      hcontains⟩ :
      ∃ l, (ofBatch circular).resolve .strict = .ok l ∧
        0 < l.session.schema.modules.size ∧ (l.session.schema.module ⟨0⟩).units = [⟨0⟩] ∧
        ⟨6⟩ ∈ (l.session.schema.childrenOf (.submodule ⟨0⟩)).slot .container ∧
        ⟨7⟩ ∈ (l.session.schema.childrenOf (.node ⟨6⟩)).slot .uses ∧
        l.session.registry.groupingOf l.session.schema ⟨7⟩ = .ok ⟨4⟩ ∧
        ⟨5⟩ ∈ (l.session.schema.childrenOf (.node ⟨4⟩)).slot .uses ∧
        l.session.registry.groupingOf l.session.schema ⟨5⟩ = .ok ⟨0⟩ ∧
        ⟨1⟩ ∈ (l.session.schema.childrenOf (.node ⟨0⟩)).slot .leaf ∧
        l.session.schema.kind ⟨1⟩ = .leaf ∧ l.session.schema.PlainTargets ∧
        ∀ a ∈ l.session.schema.nodeIds, ∀ e ∈ (l.session.schema.node a).children.entries,
          a.index < e.2.index :=
    exists_ok_of_any (by decide +kernel)
  have hdocs : ofDocuments circular = .ok (ofBatch circular) := ofDocuments_of_offences_eq_nil rfl
  have hacyclic := (acyclic_of_entries_lt hcontains).branchesAcyclic
  have hmodule : l.session.Entered (.submodule ⟨0⟩) := .top hmodules (by rw [hunits]; simp)
  have hcontainer : l.session.Entered (.node ⟨6⟩) := hmodule.child (by decide) htop
  have hgrouping : l.session.Entered (.node ⟨0⟩) := (hcontainer.use hbox hboxed).use hsized hoften
  have hbox : l.session.Placed ⟨6⟩ := ⟨_, .container, hmodule, by decide, htop⟩
  have hplaced : l.session.Placed ⟨1⟩ := ⟨_, .leaf, hgrouping, by decide, hleaf⟩
  obtain ⟨-, hplain, ids, hids, hvalues⟩ := inDataTree_of_descent hdocs hrun
  exact ⟨_, l, ids, hdocs, hrun, htargets, hacyclic, hids, hbox, hplain htargets hacyclic _ hbox,
    hplaced, hvalues ⟨1⟩ hplaced (by rw [hkind]; rfl)⟩

/-- **The search need not end**, although the batch is accepted without a word: the container has a
place, but the search for it asks where the augment in the grouping leads, and goes round. -/
theorem placed_unending_roundabout :
    ∃ s l, ofDocuments roundabout = .ok s ∧ s.resolve .bestEffort = .ok l ∧
      l.session.diagnostics = [] ∧ l.session.Placed ⟨1⟩ ∧
      l.session.inDataTree ⟨1⟩ = .error .unending := by
  obtain ⟨l, hrun, hnone, hmodules, hunits, htop, hbox, huse, hinner, hplace⟩ :
      ∃ l, (ofBatch roundabout).resolve .bestEffort = .ok l ∧ l.session.diagnostics = [] ∧
        0 < l.session.schema.modules.size ∧ (l.session.schema.module ⟨0⟩).units = [⟨0⟩] ∧
        ⟨4⟩ ∈ (l.session.schema.childrenOf (.submodule ⟨0⟩)).slot .container ∧
        ⟨5⟩ ∈ (l.session.schema.childrenOf (.node ⟨4⟩)).slot .uses ∧
        l.session.registry.groupingOf l.session.schema ⟨5⟩ = .ok ⟨0⟩ ∧
        ⟨1⟩ ∈ (l.session.schema.childrenOf (.node ⟨0⟩)).slot .container ∧
        l.session.inDataTree ⟨1⟩ = .error .unending :=
    exists_ok_of_any (by decide +kernel)
  have hmodule : l.session.Entered (.submodule ⟨0⟩) := .top hmodules (by rw [hunits]; simp)
  have hgrouping : l.session.Entered (.node ⟨0⟩) := (hmodule.child (by decide) htop).use hbox huse
  exact ⟨_, l, ofDocuments_of_offences_eq_nil rfl, hrun, hnone,
    ⟨_, .container, hgrouping, by decide, hinner⟩, hplace⟩

/-- **What the search for a place finds out.** After every run that ends well, of every node that
holds a value: the search finds a place exactly if one can climb from the node to the top level of a
module, by way of any targets of augments; the node can be reached from above exactly if one can
climb by way of targets that hold what hangs in the augment. -/
theorem inDataTree_iff_ascends {docs : List Document} (hdocs : ofDocuments docs = .ok s)
    (hrun : s.resolve policy = .ok l) (hid : (l.session.schema.kind id).holdsValue = true) :
    (l.session.inDataTree id = .ok true ↔
      l.session.Ascends l.session.targetOf Anything id (l.session.schema.node id).parent) ∧
    (l.session.Placed id ↔
      l.session.Ascends l.session.targetOf l.session.Holds id
        (l.session.schema.node id).parent) := by
  have hx := settled_of_resolve hdocs hrun
  have hk := mem_dataKinds_of_holdsValue hid
  exact ⟨hx.inDataTree_eq_true_iff hk (inDataTree_ne_unending hrun hid), hx.placed_iff_ascends hk⟩

/-- An augment brings a leaf into a container, and a case, which the container does not take; an
augment that stands inside another container is never merged. -/
def misplaced : List Document :=
  [.module
    { name := "m", ownPrefix := "m", space := "urn:m"
      body := [
        .block .container "box" none [],
        .augment "/m:box" none
          [.typed .leaf "size" none { name := "string" },
           .block .case "open" none [.typed .leaf "depth" none { name := "string" }]],
        .block .container "lid" none
          [.augment "/m:box" none [.typed .leaf "weight" none { name := "string" }]]] }]

/-- Of the leaf that the container has taken the search finds the place that it has. -/
theorem inDataTree_iff_ascends_misplaced :
    ∃ s l, ofDocuments misplaced = .ok s ∧ s.resolve .bestEffort = .ok l ∧
      l.session.inDataTree ⟨2⟩ = .ok true ∧ l.session.Placed ⟨2⟩ := by
  obtain ⟨l, hrun, hleaf, hparent, haugment, htarget, hholds, hbox, htop⟩ :
      ∃ l, (ofBatch misplaced).resolve .bestEffort = .ok l ∧
        l.session.schema.kind ⟨2⟩ = .leaf ∧ (l.session.schema.node ⟨2⟩).parent = .node ⟨1⟩ ∧
        l.session.schema.kind ⟨1⟩ = .augment ∧ l.session.targetOf ⟨1⟩ = .ok ⟨0⟩ ∧
        ⟨2⟩ ∈ (l.session.schema.node ⟨0⟩).children.slot (l.session.schema.kind ⟨2⟩) ∧
        l.session.schema.kind ⟨0⟩ = .container ∧
        (l.session.schema.node ⟨0⟩).parent = .submodule ⟨0⟩ :=
    exists_ok_of_any (by decide +kernel)
  have hdocs : ofDocuments misplaced = .ok (ofBatch misplaced) := ofDocuments_of_offences_eq_nil rfl
  have hascends : l.session.Ascends l.session.targetOf l.session.Holds ⟨2⟩
      (l.session.schema.node ⟨2⟩).parent := by
    rw [hparent]
    refine .target haugment htarget hholds (.inside (by simp [hbox]) (by simp [hbox]) ?_)
    rw [htop]
    exact .top _ _
  obtain ⟨hsearch, hplaced⟩ := inDataTree_iff_ascends hdocs hrun (by rw [hleaf]; rfl)
  exact ⟨_, l, hdocs, hrun, hsearch.2 hascends.anything, hplaced.2 hascends⟩

/-- **The search finds places that are not there**: for the leaf in the case that the container does
not take, and for the leaf of the augment that is never merged. -/
theorem inDataTree_not_placed_misplaced :
    ∃ s l, ofDocuments misplaced = .ok s ∧ s.resolve .bestEffort = .ok l ∧
      ∀ id ∈ [NodeId.mk 5, ⟨9⟩], l.session.schema.kind id = .leaf ∧
        l.session.inDataTree id = .ok true ∧ ¬ l.session.Placed id := by
  obtain ⟨l, hrun, hdepth, hopen, hweight, hslots⟩ :
      ∃ l, (ofBatch misplaced).resolve .bestEffort = .ok l ∧
        (l.session.schema.kind ⟨5⟩ = .leaf ∧ l.session.inDataTree ⟨5⟩ = .ok true ∧
          (l.session.schema.node ⟨5⟩).parent = .node ⟨4⟩) ∧
        (l.session.schema.kind ⟨4⟩ = .case ∧ (l.session.schema.node ⟨4⟩).parent = .node ⟨1⟩ ∧
          l.session.schema.kind ⟨1⟩ = .augment ∧ l.session.targetOf ⟨1⟩ = .ok ⟨0⟩) ∧
        (l.session.schema.kind ⟨9⟩ = .leaf ∧ l.session.inDataTree ⟨9⟩ = .ok true ∧
          (l.session.schema.node ⟨9⟩).parent = .node ⟨8⟩ ∧
          l.session.schema.kind ⟨8⟩ = .augment ∧ l.session.targetOf ⟨8⟩ = .ok ⟨0⟩) ∧
        ∀ id ∈ [NodeId.mk 4, ⟨9⟩],
          id ∉ (l.session.schema.node ⟨0⟩).children.slot (l.session.schema.kind id) :=
    exists_ok_of_any (by decide +kernel)
  have hdocs : ofDocuments misplaced = .ok (ofBatch misplaced) := ofDocuments_of_offences_eq_nil rfl
  have hx := settled_of_resolve hdocs hrun
  refine ⟨_, l, hdocs, hrun, fun id hid ↦ ?_⟩
  rcases List.mem_pair.1 hid with rfl | rfl
  · refine ⟨hdepth.1, hdepth.2.1, fun hplaced ↦ ?_⟩
    have hascends := hx.ascends_of_placed hplaced
    rw [hdepth.2.2] at hascends
    have hcase := hascends.of_inside (by rw [hopen.1]; decide)
    rw [hopen.2.1] at hcase
    exact hslots ⟨4⟩ (by simp) (hcase.takes_of_target hopen.2.2.1 hopen.2.2.2)
  · obtain ⟨hleaf, hyes, hparent, haugment, htarget⟩ := hweight
    refine ⟨hleaf, hyes, fun hplaced ↦ ?_⟩
    have hascends := hx.ascends_of_placed hplaced
    rw [hparent] at hascends
    exact hslots ⟨9⟩ (by simp) (hascends.takes_of_target haugment htarget)

end Schema

end SchemaLink
