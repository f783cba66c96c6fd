import SchemaLink.Session.Lookup
import SchemaLink.Proofs.Contributions

/-!
# What a look-up finds

A look-up sweeps scopes: the ones it starts with, those of the groupings that are used in them,
those of their choices and cases, and so on. `Session.Opens` says by rules which scopes these are,
with nothing of the order, of what has been opened before and of how deep a sweep may go. **What a
look-up finds is a data child of one of them** (`Session.exists_opens_of_childAmong`).

A sweep only ever carries on what it has found, so this is an invariant of the state that it hands
from scope to scope.
-/

namespace SchemaLink

namespace Schema

variable {s : Schema} {id : NodeId} {name : String} {c : Children}

/-- A data child that is found by its name is among the data children. -/
theorem exists_slot_of_dataNamed? (h : s.dataNamed? name c = some id) :
    ∃ k ∈ Kind.dataKinds, id ∈ c.slot k := by
  rw [dataNamed?_eq] at h
  exact List.mem_flatMap.1 (mem_of_firstNamed? h)

end Schema

namespace Session

variable {x : Session} {id : NodeId} {name : String} {scopes : List Children} {w : Sweep}

/-- The scopes that a look-up can come to. -/
inductive Opens (x : Session) (scopes : List Children) : Children → Prop where
  | scope {c : Children} (hc : c ∈ scopes) : Opens x scopes c
  | use {c : Children} {u g : NodeId} (h : Opens x scopes c) (hu : u ∈ c.slot .uses)
      (hg : x.registry.groupingOf x.schema u = .ok g) : Opens x scopes (x.schema.node g).children
  | block {c : Children} {k : Kind} {b : NodeId} (h : Opens x scopes c)
      (hk : k.transparent = true) (hb : b ∈ c.slot k) : Opens x scopes (x.schema.node b).children

/-- Whatever a sweep has found is a data child of a scope that can be opened. -/
def FoundIn (x : Session) (scopes : List Children) (name : String) (w : Sweep) : Prop :=
  ∀ id, w.found = some id → ∃ c, x.Opens scopes c ∧ x.schema.dataNamed? name c = some id

/-- Sweeping deeper scopes keeps to what can be opened. -/
def StaysIn (x : Session) (scopes : List Children) (name : String)
    (enter : List NodeId → List Children → Sweep → Sweep) : Prop :=
  ∀ trail inner w, (∀ c ∈ inner, x.Opens scopes c) → x.FoundIn scopes name w →
    x.FoundIn scopes name (enter trail inner w)

section

variable {enter : List NodeId → List Children → Sweep → Sweep}
  (henter : x.StaysIn scopes name enter)
include henter

/-- **Step.** A `uses` leads to its grouping. -/
theorem StaysIn.sweepUse {u : NodeId}
    (hu : ∀ g, x.registry.groupingOf? x.schema u = some g →
      x.Opens scopes (x.schema.node g).children)
    (hw : x.FoundIn scopes name w) : x.FoundIn scopes name (x.sweepUse enter w u) := by
  unfold Session.sweepUse
  split
  · split
    · exact hw
    · next g hg =>
      split
      · exact hw
      · refine henter _ _ _ (fun c' hc' ↦ ?_) hw
        rw [List.mem_singleton.1 hc']
        exact hu g hg
  · exact hw

/-- **Step.** A choice or case leads inside. -/
theorem StaysIn.sweepBlock {c : Children} {b : NodeId} {k : Kind} (hc : x.Opens scopes c)
    (hk : k.transparent = true) (hb : b ∈ c.slot k) (trail : List NodeId)
    (hw : x.FoundIn scopes name w) : x.FoundIn scopes name (x.sweepBlock enter trail w b) := by
  have hinner : x.FoundIn scopes name (enter (b :: trail) (x.scopeOf b) w) := by
    refine henter _ _ _ (fun c' hc' ↦ ?_) hw
    rw [List.mem_singleton.1 hc']
    exact .block hc hk hb
  unfold Session.sweepBlock
  split
  · exact hw
  · split
    · exact hw
    · simp only
      split
      · exact hinner
      · exact hinner

end

/-- **Run.** A sweep keeps to what can be opened, however deep it goes. -/
theorem staysIn_sweep (x : Session) (scopes : List Children) (name : String) (depth : Nat) :
    x.StaysIn scopes name (x.sweep name depth) := by
  induction depth with
  | zero => exact fun _ _ _ _ hw ↦ hw
  | succ depth ih =>
    intro trail inner w hinner hw
    rw [sweep]
    split
    · next id hid =>
      intro id' hid'
      obtain rfl : id = id' := by simpa using hid'
      obtain ⟨c, hc, hnamed⟩ := List.exists_of_findSome?_eq_some hid
      exact ⟨c, hinner c hc, hnamed⟩
    · have hused : x.FoundIn scopes name
          ((inner.flatMap (·.slot .uses)).foldl (x.sweepUse (x.sweep name depth)) w) := by
        refine List.foldlRecOn _ _ hw fun w hw u hu ↦ ?_
        obtain ⟨c, hc, hu⟩ := List.mem_flatMap.1 hu
        refine ih.sweepUse (fun g hg ↦ ?_) hw
        exact .use (hinner c hc) hu (Registry.groupingOf?_eq_some_iff.1 hg)
      refine List.foldlRecOn _ _ hused fun w hw b hb ↦ ?_
      obtain ⟨c, hc, hb⟩ := List.mem_flatMap.1 hb
      obtain ⟨k, hk, hb⟩ := List.mem_flatMap.1 hb
      refine ih.sweepBlock (hinner c hc) ?_ hb trail hw
      rcases List.mem_pair.1 hk with rfl | rfl <;> rfl

/-- **A look-up finds a data child of a scope that can be opened.** -/
theorem exists_opens_of_childAmong (h : x.childAmong scopes name = .ok (some id)) :
    ∃ c, x.Opens scopes c ∧ x.schema.dataNamed? name c = some id := by
  have hfound := x.staysIn_sweep scopes name x.sweepDepth [] scopes {} (fun _ ↦ .scope)
    (fun id hid ↦ by simp at hid)
  refine hfound id ?_
  rcases hsweep : (x.sweep name x.sweepDepth [] scopes {}).found with - | id'
  · simp only [childAmong, hsweep] at h
    split at h <;> simp at h
  · simpa [childAmong, hsweep] using h

/-- What is found at a position is a data child of a scope that can be opened from there. -/
theorem exists_opens_of_childAt {target : TargetFinder} {c : Position}
    (h : x.childAt target c name = .ok (some id)) :
    ∃ scopes scope k, x.scopesAt target c = .ok scopes ∧ x.Opens scopes scope ∧
      k ∈ Kind.dataKinds ∧ id ∈ scope.slot k := by
  rcases hscopes : x.scopesAt target c with halt | scopes
  · simp [childAt, hscopes] at h
  · have hchild : x.childAmong scopes name = .ok (some id) := by simpa [childAt, hscopes] using h
    obtain ⟨scope, hopens, hnamed⟩ := exists_opens_of_childAmong hchild
    obtain ⟨k, hk, hid⟩ := Schema.exists_slot_of_dataNamed? hnamed
    exact ⟨scopes, scope, k, rfl, hopens, hk, hid⟩

end Session

end SchemaLink
