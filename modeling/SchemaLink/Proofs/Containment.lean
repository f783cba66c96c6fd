import Mathlib.Logic.Relation
import SchemaLink.Proofs.Enrichment

/-!
# When containment is acyclic

As declared, nodes form a forest: a node comes after its parent, so nothing contains itself. Merging
enters nodes among the children of targets without copying them, and asks nothing about where the
target is. **A node can come to contain itself**: an augment is merged into a node of a grouping and
uses that same grouping.

Whether this happens is decided by the targets alone. A target *feeds* another node if something
contributed to it is that node or, as declared, has it inside. **Containment is acyclic exactly if
no node feeds itself, directly or through others** (`Session.Enriched.acyclic_iff`). Any circle of
containment passes through merged children, and between two of them it runs along declarations.
-/

namespace SchemaLink

namespace Schema

variable {s s' : Schema} {a b : NodeId}

/-- A node contains another: it has it in one of its collections. -/
def Contains (s : Schema) (a b : NodeId) : Prop :=
  ∃ k, b ∈ (s.node a).children.slot k

/-- No node contains itself, directly or through others. -/
def Acyclic (s : Schema) : Prop :=
  ∀ id, ¬ Relation.TransGen s.Contains id id

theorem acyclic_of_contains_lt (h : ∀ a b, s.Contains a b → a.index < b.index) : s.Acyclic := by
  have hlt {a b : NodeId} (hab : Relation.TransGen s.Contains a b) : a.index < b.index := by
    induction hab with
    | single hstep => exact h _ _ hstep
    | tail _ hstep ih => exact Nat.lt_trans ih (h _ _ hstep)
  exact fun id hid ↦ Nat.lt_irrefl _ (hlt hid)

namespace Tidy

variable (hs : s.Tidy)
include hs

theorem contains_iff : s.Contains a b ↔ ∃ k, (k, b) ∈ s.declared (.node a) := by
  refine exists_congr fun k ↦ ?_
  rw [Children.mem_slot, ← hs.entries_eq]
  rfl

/-- **Declarations contain nothing in circles.** -/
theorem acyclic : s.Acyclic := by
  refine acyclic_of_contains_lt fun a b hab ↦ ?_
  obtain ⟨k, hk⟩ := hs.contains_iff.1 hab
  exact hs.parent_lt b a (mem_declaredUnder.1 (mem_declared.1 hk).1).2.1

end Tidy

end Schema

namespace Session

open Relation

variable {s : Schema} {x : Session} {a b c t : NodeId}

/-- A node holds a contribution of an augment. -/
def Adopts (x : Session) (s : Schema) (t c : NodeId) : Prop :=
  ∃ a k, s.kind a = .augment ∧ x.registry.Contributes s a k c ∧
    c ∈ (x.schema.node t).children.slot k

/-- A node holds a contribution of an augment that is another node or has it inside, as the schema
was declared. -/
def Feeds (x : Session) (s : Schema) (t b : NodeId) : Prop :=
  ∃ c, x.Adopts s t c ∧ ReflTransGen s.Contains c b

theorem Adopts.contains (h : x.Adopts s t c) : x.schema.Contains t c := by
  obtain ⟨-, k, -, -, hc⟩ := h
  exact ⟨k, hc⟩

namespace Enriched

/-- What a node contains was declared in it or contributed to it. -/
theorem contains_or_adopts (hs : s.Tidy) (h : Enriched s x) (hab : x.schema.Contains a b) :
    s.Contains a b ∨ x.Adopts s a b := by
  obtain ⟨k, hk⟩ := hab
  rcases h.mem_entries_cases a k b (Children.mem_slot.1 hk) with hdeclared | ⟨-, a', ha', hb⟩
  · exact .inl (hs.contains_iff.2 ⟨k, hdeclared⟩)
  · exact .inr ⟨a', k, ha', hb, hk⟩

theorem contains_of_declared (hs : s.Tidy) (h : Enriched s x) (hab : s.Contains a b) :
    x.schema.Contains a b := by
  obtain ⟨k, hk⟩ := hs.contains_iff.1 hab
  exact ⟨k, Children.mem_slot.2 ((h.declared_extends a).subset hk)⟩

theorem transGen_of_feeds (hs : s.Tidy) (h : Enriched s x) (hfeeds : x.Feeds s t b) :
    TransGen x.schema.Contains t b := by
  obtain ⟨c, hadopts, hinside⟩ := hfeeds
  have hcontained : ReflTransGen x.schema.Contains c b :=
    ReflTransGen.mono (fun _ _ ↦ h.contains_of_declared hs) _ _ hinside
  exact .head' hadopts.contains hcontained

/-- **The shape of containment.** From a node to what it contains, a way either runs along
declarations or leads by declarations to a node that feeds others, on to a last one of these, and
from something contributed to that one by declarations to the end. -/
theorem contains_cases (hs : s.Tidy) (h : Enriched s x)
    (hab : TransGen x.schema.Contains a b) :
    TransGen s.Contains a b ∨
      ∃ t t' c, ReflTransGen s.Contains a t ∧ ReflTransGen (x.Feeds s) t t' ∧ x.Adopts s t' c ∧
        ReflTransGen s.Contains c b := by
  induction hab with
  | single hstep =>
    rcases h.contains_or_adopts hs hstep with hdeclared | hadopts
    · exact .inl (.single hdeclared)
    · exact .inr ⟨a, a, _, .refl, .refl, hadopts, .refl⟩
  | @tail b b' _ hstep ih =>
    rcases h.contains_or_adopts hs hstep with hdeclared | hadopts
    · rcases ih with ih | ⟨t, t', c, hat, hfeeds, hc, hcb⟩
      · exact .inl (ih.tail hdeclared)
      · exact .inr ⟨t, t', c, hat, hfeeds, hc, hcb.tail hdeclared⟩
    · rcases ih with ih | ⟨t, t', c, hat, hfeeds, hc, hcb⟩
      · exact .inr ⟨b, b, b', ih.to_reflTransGen, .refl, hadopts, .refl⟩
      · -- the node reached so far adopts the next one, so it is fed itself
        exact .inr ⟨t, b, b', hat, hfeeds.tail ⟨c, hc, hcb⟩, hadopts, .refl⟩

/-- **Containment is acyclic exactly if nothing feeds itself.** -/
theorem acyclic_iff (hs : s.Tidy) (h : Enriched s x) :
    x.schema.Acyclic ↔ ∀ t, ¬ TransGen (x.Feeds s) t t := by
  constructor
  · intro hacyclic t hfeeds
    exact hacyclic t (TransGen.closed (fun _ _ ↦ h.transGen_of_feeds hs) _ _ hfeeds)
  · intro hfeeds id hid
    rcases h.contains_cases hs hid with hdeclared | ⟨t, t', c, hat, htt', hc, hcb⟩
    · exact hs.acyclic id hdeclared
    · -- the way closes: what the last node adopts leads by declarations to the first one
      exact hfeeds t (.tail' htt' ⟨c, hc, hcb.trans hat⟩)

end Enriched

/-- **When containment is acyclic**, for whatever documents and whatever a session has been asked
for: exactly if no node feeds itself, directly or through others. -/
theorem acyclic_performAll_iff {docs : List Document} (hdocs : Schema.ofDocuments docs = .ok s)
    {policy : Policy} (hx : start s policy = .ok x) (requests : List Request) :
    (x.performAll requests).schema.Acyclic ↔
      ∀ t, ¬ TransGen ((x.performAll requests).Feeds s) t t := by
  have hs := Schema.tidy_of_ofDocuments hdocs
  exact (enriched_performAll hs hx requests).acyclic_iff hs

/-- An augment is merged into what another augment has contributed. -/
def chained : List Document :=
  [.module
    { name := "m", ownPrefix := "m", space := "urn:m"
      body := [
        .block .container "top" none [],
        .augment "/m:top" none [.block .container "box" none []],
        .augment "/m:top/m:box" none [.block .container "lid" none []]] }]

theorem acyclic_performAll_chained :
    ∃ s x, Schema.ofDocuments chained = .ok s ∧ start s .strict = .ok x ∧
      let y := x.performAll [.augments ⟨0⟩, .augment ⟨1⟩]
      (y.schema.node ⟨2⟩).children.slot .container = [⟨4⟩] ∧ ∀ t, ¬ TransGen (y.Feeds s) t t := by
  have hchildren : (start (Schema.ofBatch chained) .strict).toOption.map
      (fun x ↦
        let y := x.performAll [.augments ⟨0⟩, .augment ⟨1⟩]
        (decide ((y.schema.node ⟨2⟩).children.slot .container = [⟨4⟩]),
          decide (∀ id ∈ y.schema.nodeIds,
            ∀ e ∈ (y.schema.node id).children.entries, id.index < e.2.index)))
      = some (true, true) := by
    decide +kernel
  obtain ⟨x, hx, hchecks⟩ := Option.map_eq_some_iff.1 hchildren
  obtain ⟨hslot, hlt⟩ := Prod.mk.inj hchecks
  have hstart := toOption_eq_some_iff.1 hx
  have hdocs : Schema.ofDocuments chained = .ok (Schema.ofBatch chained) :=
    Schema.ofDocuments_of_offences_eq_nil rfl
  refine ⟨_, x, hdocs, hstart, of_decide_eq_true hslot, ?_⟩
  refine (acyclic_performAll_iff hdocs hstart _).1 (Schema.acyclic_of_contains_lt ?_)
  rintro a b ⟨k, hk⟩
  have hmem := Children.mem_slot.1 hk
  by_cases ha : a.index < (x.performAll [.augments ⟨0⟩, .augment ⟨1⟩]).schema.nodes.size
  · exact of_decide_eq_true hlt a (Schema.mem_nodeIds.2 ha) _ hmem
  · rw [Schema.node_of_size_le (Nat.le_of_not_lt ha)] at hmem
    simp [Schema.blankNode, Node.children, Node.children?, Content.children?] at hmem

/-- An augment into a node of a grouping uses that grouping. -/
def looped : List Document :=
  [.module
    { name := "m", ownPrefix := "m", space := "urn:m"
      body := [
        .block .grouping "part" none [.block .container "box" none []],
        .block .container "top" none [.uses "part"],
        .augment "/m:top/m:box" none [.uses "part"]] }]

/-- **A node may come to contain itself.** -/
theorem not_acyclic_looped :
    ∃ s x, Schema.ofDocuments looped = .ok s ∧ start s .strict = .ok x ∧
      ¬ (x.performAll [.augments ⟨0⟩]).schema.Acyclic := by
  have hslots : (start (Schema.ofBatch looped) .strict).toOption.map
      (fun x ↦ ((x.performAll [.augments ⟨0⟩]).schema.node ⟨1⟩).children.slot .container) =
        some [⟨1⟩] := by
    decide +kernel
  obtain ⟨x, hx, hslot⟩ := Option.map_eq_some_iff.1 hslots
  refine ⟨_, x, Schema.ofDocuments_of_offences_eq_nil rfl, toOption_eq_some_iff.1 hx,
    fun hacyclic ↦ ?_⟩
  exact hacyclic ⟨1⟩ (.single ⟨.container, by rw [hslot]; simp⟩)

end Session

end SchemaLink
