import SchemaLink.Proofs.FirstEnds
import SchemaLink.Proofs.Lookups
import SchemaLink.Proofs.Origins

/-!
# Paths stay in the schema

Look-up is total, so a handle that is found somewhere might denote nothing. After a run none does:
**a segment leads from nodes of the schema to nodes of the schema** (`Settled.index_lt_of_moves`),
and so does a path, and **every target that is found is there** (`Settled.index_lt_of_targetOf`),
whether it was recorded or a path leads to it. Since a path may pass over other augments on its way,
the latter goes by induction on how many targets are asked for within each other.
-/

namespace SchemaLink

namespace Session

variable {x : Session} {target : TargetFinder} {id a t : NodeId} {p : Parent} {c : Position}

/-- The scopes that a look-up starts with are collections of children. -/
theorem exists_childrenOf_of_mem_scopesAt {scopes : List Children} {scope : Children}
    (h : x.scopesAt target c = .ok scopes) (hscope : scope ∈ scopes) :
    ∃ p, x.schema.childrenOf p = scope := by
  have hnode (i : NodeId) (hscope : scope ∈ x.scopeOf i) : ∃ p, x.schema.childrenOf p = scope :=
    ⟨.node i, (List.mem_singleton.1 hscope).symm⟩
  match c with
  | .top m =>
    obtain rfl : x.schema.bodies m = scopes := by simpa [scopesAt] using h
    obtain ⟨u, -, rfl⟩ := List.mem_map.1 hscope
    exact ⟨.submodule u, rfl⟩
  | .node i =>
    by_cases hi : x.schema.kind i = .augment
    · rcases ht : target i with (fault | -) | t
      · obtain rfl : [] = scopes := by simpa [scopesAt, hi, ht] using h
        simp at hscope
      · simp [scopesAt, hi, ht] at h
      · obtain rfl : x.scopeOf t = scopes := by simpa [scopesAt, hi, ht] using h
        exact hnode t hscope
    · obtain rfl : x.scopeOf i = scopes := by simpa [scopesAt, hi] using h
      exact hnode i hscope

/-- A child that is found is in a collection of children that appear in data. -/
theorem exists_slot_of_childAt {name : String} (h : x.childAt target c name = .ok (some id)) :
    ∃ p, ∃ k ∈ Kind.dataKinds, id ∈ (x.schema.childrenOf p).slot k := by
  obtain ⟨scopes, scope, k, hscopes, hopens, hk, hid⟩ := exists_opens_of_childAt h
  obtain ⟨p, rfl⟩ : ∃ p, x.schema.childrenOf p = scope := by
    cases hopens with
    | scope hscope => exact exists_childrenOf_of_mem_scopesAt hscopes hscope
    | @use _ _ g => exact ⟨.node g, rfl⟩
    | @block _ _ b => exact ⟨.node b, rfl⟩
  exact ⟨p, k, hk, hid⟩

namespace Settled

variable (hx : x.Settled)
include hx

/-- A child that is found is there. -/
theorem index_lt_of_childAt {name : String} (h : x.childAt target c name = .ok (some id)) :
    id.index < x.schema.nodes.size := by
  obtain ⟨p, k, -, hid⟩ := exists_slot_of_childAt h
  exact (hx.coherent.kind_of_mem_slot p k id hid).1

variable (htarget : ∀ a t, target a = .ok t → t.index < x.schema.nodes.size)
include htarget

/-- An anchor is there. -/
theorem index_lt_of_anchor (hp : x.schema.HasParent p) (h : x.Anchor target p (.node id)) :
    id.index < x.schema.nodes.size := by
  generalize hc : Position.node id = c at h
  induction h with
  | top u => simp at hc
  | @transparent q c hq _ ih => exact ih (hx.framed.hasParent hp) hc
  | @used g u c hg hu _ ih =>
    exact ih (hx.framed.hasParent ((hx.mem_usages_iff g u).1 hu).1) hc
  | @target a t ha ht =>
    obtain rfl : id = t := by simpa using hc
    exact htarget a id ht
  | @self q _ _ _ =>
    obtain rfl : id = q := by simpa using hc
    exact hp

/-- **Step.** A segment leads from what is there to what is there. -/
theorem index_lt_of_moves {home : ModuleId} {segment : Segment}
    (hc : ∀ i, c = .node i → i.index < x.schema.nodes.size)
    (h : x.Moves target home segment c (.node id)) : id.index < x.schema.nodes.size := by
  cases h with
  | current => exact hc id rfl
  | @parent i _ hanchor =>
    exact hx.index_lt_of_anchor htarget (hx.framed.hasParent (hc i rfl)) hanchor
  | step _ hchild => exact hx.index_lt_of_childAt hchild

/-- **Run.** So does a path. -/
theorem index_lt_of_follows {home : ModuleId} {segments : List Segment}
    (hc : ∀ i, c = .node i → i.index < x.schema.nodes.size)
    (h : x.Follows target home segments c (.node id)) : id.index < x.schema.nodes.size := by
  generalize hd : Position.node id = d at h
  induction h with
  | nil c => exact hc id hd.symm
  | cons first _ ih =>
    refine ih (fun i hi ↦ ?_) hd
    subst hi
    exact hx.index_lt_of_moves htarget hc first

/-- What a path leads to is there. -/
theorem index_lt_of_followBy (hpos : 0 < x.schema.parentBound) {needsValue : Bool} {path : Path}
    {home : ModuleId} {origin : Position}
    (horigin : ∀ i, origin = .node i → i.index < x.schema.nodes.size)
    (h : x.followBy target needsValue path home origin = .ok id) :
    id.index < x.schema.nodes.size := by
  unfold followBy at h
  split at h
  · simp at h
  · split at h
    · simp at h
    · next start hstart =>
      split at h
      · next e hwalk =>
        obtain ⟨rfl, -⟩ := arrive_eq_ok_iff.1 h
        have hend := List.mem_of_head? (walk_eq_ok_iff.1 hwalk)
        refine hx.index_lt_of_follows htarget (fun i hi ↦ ?_)
          (follows_of_mem_proceed hx.grounded hpos hend)
        unfold startOf at hstart
        split at hstart
        · split at hstart <;> simp [hi] at hstart
        · obtain rfl := Except.ok.inj hstart
          exact horigin i hi
      · simp at h

omit htarget

/-- **A target that is found is there**, whether it was recorded or a path leads to it. -/
theorem index_lt_of_targetWithin (n : Nat) (h : x.targetWithin n a = .ok t) :
    t.index < x.schema.nodes.size := by
  induction n generalizing a t with
  | zero => simp [targetWithin] at h
  | succ n ih =>
    rw [targetWithin] at h
    split at h
    · next t' hmerged =>
      obtain rfl := Except.ok.inj h
      refine Schema.index_lt_of_kind_ne_uses fun hk ↦ ?_
      simpa [hk, Kind.augmentable] using (hx.kinds_of_mergedTarget? a t' hmerged).2
    · split at h
      · next path children hcontent =>
        have hkind : x.schema.kind a = .augment := congrArg Content.kind hcontent
        have ha : a.index < x.schema.nodes.size :=
          Schema.index_lt_of_kind_ne_uses (by rw [hkind]; decide)
        have hpos := hx.grounded.parentBound_pos (c := .node a) ha
        rw [followFromBy, Schema.carrier_eq_self (by rw [hkind]; decide)] at h
        refine hx.index_lt_of_followBy (fun _ _ ↦ ih) hpos (fun i hi ↦ ?_) h
        obtain rfl : a = i := by simpa using hi
        exact ha
      · simp at h

theorem index_lt_of_targetOf (h : x.targetOf a = .ok t) : t.index < x.schema.nodes.size :=
  hx.index_lt_of_targetWithin _ h

end Settled

end Session

end SchemaLink
