import Mathlib.Data.List.Perm.Subperm
import Mathlib.Tactic.Ring
import SchemaLink.Proofs.Targets

/-!
# Sweeps that come to an end

A sweep is cut off where it comes to a choice or case that it is just inside of, and where it has
gone down as many levels as it may. **If no choice or case contains itself, neither ever happens**
(`Session.ends_childAmong`), however the groupings use each other.

On the way down a sweep either opens a grouping, which it has not opened before, or enters a choice
or case, which is not on its trail. Both lists are without repetition, so neither grows longer than
there are nodes. Opening a grouping starts the trail afresh, but that happens only once for each of
them: **the levels that are left fall from one scope to the next** if a grouping counts for as many
levels as the longest trail (`Session.levelsLeft`).
-/

namespace SchemaLink

/-- The search for the answer comes to an end. -/
def Ends {α : Type} (answer : Except Halt α) : Prop :=
  answer ≠ .error .unending

namespace Schema

open Relation

variable {s : Schema} {ids : List NodeId} {id : NodeId}

/-- A node has another among its choices and cases. -/
def Branches (s : Schema) (a b : NodeId) : Prop :=
  ∃ k : Kind, k.transparent = true ∧ b ∈ (s.node a).children.slot k

/-- No choice or case contains itself through choices and cases. -/
def BranchesAcyclic (s : Schema) : Prop :=
  ∀ b, (s.kind b).transparent = true → ¬ TransGen s.Branches b b

/-- What is among the choices and cases of a node does not lead back to itself. -/
theorem BranchesAcyclic.not_transGen (h : s.BranchesAcyclic) (hs : s.Filed) (b : NodeId) :
    ¬ TransGen s.Branches b b := by
  intro hcycle
  obtain ⟨a, -, k, hk, hb⟩ := TransGen.tail'_iff.1 hcycle
  exact h b (by rwa [hs (.node a) k b hb]) hcycle

/-! ### Lists without repetition -/

/-- Handles of nodes that are there, each once. -/
structure Distinct (s : Schema) (ids : List NodeId) : Prop where
  nodup : ids.Nodup
  index_lt : ∀ id ∈ ids, id.index < s.nodes.size

namespace Distinct

theorem nil : s.Distinct [] :=
  ⟨List.nodup_nil, by simp⟩

theorem cons (h : s.Distinct ids) (hnew : id ∉ ids) (hid : id.index < s.nodes.size) :
    s.Distinct (id :: ids) :=
  ⟨List.nodup_cons.2 ⟨hnew, h.nodup⟩, by simpa using ⟨hid, h.index_lt⟩⟩

theorem length_le (h : s.Distinct ids) : ids.length ≤ s.nodes.size := by
  have hsub : ids ⊆ s.nodeIds := fun id hid ↦ mem_nodeIds.2 (h.index_lt id hid)
  simpa [nodeIds] using (List.subperm_of_subset h.nodup hsub).length_le

end Distinct

end Schema

namespace Session

open Relation

variable {x : Session} {name : String} {depth : Nat} {opened trail : List NodeId}
  {scopes : List Children} {w w' w'' : Sweep} {b g : NodeId}

/-! ### Levels -/

/-- How many levels a sweep can still go down: what is left of the trail, and a whole trail for each
grouping that has not been opened. -/
def levelsLeft (x : Session) (opened trail : List NodeId) : Nat :=
  (x.schema.nodes.size - opened.length) * (x.schema.nodes.size + 1)
    + (x.schema.nodes.size - trail.length) + 1

theorem levelsLeft_nil (x : Session) : x.levelsLeft [] [] = x.sweepDepth := by
  simp only [levelsLeft, sweepDepth, List.length_nil, Nat.sub_zero]
  ring

theorem levelsLeft_le (x : Session) (h : w.opened.length ≤ w'.opened.length) (trail : List NodeId) :
    x.levelsLeft w'.opened trail ≤ x.levelsLeft w.opened trail := by
  have hmul := Nat.mul_le_mul_right (x.schema.nodes.size + 1)
    (show x.schema.nodes.size - w'.opened.length ≤ x.schema.nodes.size - w.opened.length by omega)
  simp only [levelsLeft]
  omega

theorem levelsLeft_enter (h : x.schema.Distinct (b :: trail)) (opened : List NodeId) :
    x.levelsLeft opened (b :: trail) < x.levelsLeft opened trail := by
  have hlength := h.length_le
  simp only [levelsLeft, List.length_cons] at hlength ⊢
  omega

theorem levelsLeft_open (h : x.schema.Distinct (g :: opened)) (trail : List NodeId) :
    x.levelsLeft (g :: opened) [] < x.levelsLeft opened trail := by
  have hlength := h.length_le
  rw [List.length_cons] at hlength
  -- the groupings that are left are one more than after this one
  obtain ⟨m, hm⟩ : ∃ m, x.schema.nodes.size - opened.length = m + 1 :=
    ⟨x.schema.nodes.size - opened.length - 1, by omega⟩
  have hm' : x.schema.nodes.size - (opened.length + 1) = m := by omega
  simp only [levelsLeft, List.length_cons, List.length_nil, hm, hm', Nat.succ_mul]
  omega

/-! ### One scope -/

/-- A sweep that has not been cut off. -/
structure Uncut (x : Session) (w : Sweep) : Prop where
  complete : w.complete = true
  opened : x.schema.Distinct w.opened

/-- A sweep has gone on without being cut off, and has forgotten no grouping. -/
structure GoesOnTo (x : Session) (w w' : Sweep) : Prop where
  uncut : x.Uncut w'
  length_le : w.opened.length ≤ w'.opened.length

theorem Uncut.goesOnTo (h : x.Uncut w) : x.GoesOnTo w w :=
  ⟨h, Nat.le_refl _⟩

theorem GoesOnTo.trans (h : x.GoesOnTo w w') (h' : x.GoesOnTo w' w'') : x.GoesOnTo w w'' :=
  ⟨h'.uncut, Nat.le_trans h.length_le h'.length_le⟩

/-- A trail of choices and cases that lead to some scopes of the schema. -/
structure TrailTo (x : Session) (trail : List NodeId) (scopes : List Children) : Prop where
  distinct : x.schema.Distinct trail
  collected : ∀ c ∈ scopes, ∃ p, x.schema.childrenOf p = c
  branches : ∀ a ∈ trail, ∀ c ∈ scopes, ∀ k : Kind, k.transparent = true → ∀ b ∈ c.slot k,
    TransGen x.schema.Branches a b

/-- Sweeping deeper scopes goes on without being cut off, if enough levels are left. -/
def Completes (x : Session) (depth : Nat)
    (enter : List NodeId → List Children → Sweep → Sweep) : Prop :=
  ∀ trail scopes w, x.TrailTo trail scopes → x.Uncut w → x.levelsLeft w.opened trail ≤ depth →
    x.GoesOnTo w (enter trail scopes w)

section

variable (hs : x.schema.Filed)
include hs

/-- A choice or case in the scopes is not on the trail, and can be put in front of it. -/
theorem TrailTo.enter (h : x.TrailTo trail scopes) (hacyclic : x.schema.BranchesAcyclic)
    {c : Children} {k : Kind} (hc : c ∈ scopes) (hk : k.transparent = true) (hb : b ∈ c.slot k) :
    b ∉ trail ∧ x.TrailTo (b :: trail) (x.scopeOf b) := by
  have hnew : b ∉ trail := fun hmem ↦
    hacyclic.not_transGen hs b (h.branches b hmem c hc k hk b hb)
  obtain ⟨p, rfl⟩ := h.collected c hc
  have hkind : x.schema.kind b ≠ .uses := by
    rw [hs p k b hb]
    rintro rfl
    cases hk
  refine ⟨hnew, h.distinct.cons hnew (Schema.index_lt_of_kind_ne_uses hkind), ?_, ?_⟩
  · intro c' hc'
    exact ⟨.node b, (List.mem_singleton.1 hc').symm⟩
  · intro a ha c' hc' k' hk' b' hb'
    have hstep : x.schema.Branches b b' := ⟨k', hk', List.mem_singleton.1 hc' ▸ hb'⟩
    rcases List.mem_cons.1 ha with rfl | ha
    · exact .single hstep
    · exact (h.branches a ha _ hc k hk b hb).tail hstep

variable {enter : List NodeId → List Children → Sweep → Sweep} (henter : x.Completes depth enter)
include henter

/-- **Step.** A `uses` is gone on with. -/
theorem Completes.sweepUse (hw : x.Uncut w) (hdepth : x.levelsLeft w.opened trail ≤ depth + 1)
    (u : NodeId) : x.GoesOnTo w (x.sweepUse enter w u) := by
  unfold Session.sweepUse
  split
  · split
    · exact hw.goesOnTo
    · next g hg =>
      split
      · exact hw.goesOnTo
      · next hnew =>
        have hkind := hs.kind_of_groupingOf (Registry.groupingOf?_eq_some_iff.1 hg)
        have hopened : x.schema.Distinct (g :: w.opened) :=
          hw.opened.cons hnew (Schema.index_lt_of_kind_ne_uses (by simp [hkind]))
        have hlevels := levelsLeft_open hopened trail
        have hinner := henter [] (x.scopeOf g) { w with opened := g :: w.opened }
          ⟨.nil, fun c hc ↦ ⟨.node g, (List.mem_singleton.1 hc).symm⟩, by simp⟩
          ⟨hw.complete, hopened⟩ (show x.levelsLeft (g :: w.opened) [] ≤ depth by omega)
        exact ⟨hinner.uncut, Nat.le_of_succ_le hinner.length_le⟩
  · exact hw.goesOnTo

/-- **Step.** So is a choice or case. -/
theorem Completes.sweepBlock (hacyclic : x.schema.BranchesAcyclic) (htrail : x.TrailTo trail scopes)
    (hw : x.Uncut w) (hdepth : x.levelsLeft w.opened trail ≤ depth + 1) {c : Children} {k : Kind}
    (hc : c ∈ scopes) (hk : k.transparent = true) (hb : b ∈ c.slot k) :
    x.GoesOnTo w (x.sweepBlock enter trail w b) := by
  obtain ⟨hnew, hinside⟩ := htrail.enter hs hacyclic hc hk hb
  have hlevels := levelsLeft_enter hinside.distinct w.opened
  have hinner := henter _ _ w hinside hw (show _ ≤ depth by omega)
  unfold Session.sweepBlock
  split
  · exact hw.goesOnTo
  · simp only
    split
    · exact ⟨⟨hinner.uncut.complete, hinner.uncut.opened⟩, hinner.length_le⟩
    · exact hinner

end

section

variable (hs : x.schema.Filed) (hacyclic : x.schema.BranchesAcyclic)
include hs hacyclic

/-- **Run.** No sweep is cut off that has enough levels left. -/
theorem completes_sweep (name : String) (depth : Nat) : x.Completes depth (x.sweep name depth) := by
  induction depth with
  | zero =>
    intro trail scopes w _ _ hdepth
    simp [levelsLeft] at hdepth
  | succ depth ih =>
    intro trail scopes w htrail hw hdepth
    rw [sweep]
    split
    · exact ⟨⟨hw.complete, hw.opened⟩, Nat.le_refl _⟩
    · have hused : x.GoesOnTo w
          ((scopes.flatMap (·.slot .uses)).foldl (x.sweepUse (x.sweep name depth)) w) := by
        refine List.foldlRecOn _ _ hw.goesOnTo fun w' hw' u _ ↦ ?_
        have hlevels := x.levelsLeft_le hw'.length_le trail
        exact hw'.trans (ih.sweepUse hs hw'.uncut (Nat.le_trans hlevels hdepth) u)
      refine List.foldlRecOn _ _ hused fun w' hw' b hb ↦ ?_
      obtain ⟨c, hc, hb⟩ := List.mem_flatMap.1 hb
      obtain ⟨k, hk, hb⟩ := List.mem_flatMap.1 hb
      have htransparent : k.transparent = true := by
        rcases List.mem_pair.1 hk with rfl | rfl <;> rfl
      have hlevels := x.levelsLeft_le hw'.length_le trail
      exact hw'.trans (ih.sweepBlock hs hacyclic htrail hw'.uncut (Nat.le_trans hlevels hdepth) hc
        htransparent hb)

/-- No look-up is cut off. -/
theorem complete_sweep (hscopes : ∀ c ∈ scopes, ∃ p, x.schema.childrenOf p = c) (name : String) :
    (x.sweep name x.sweepDepth [] scopes {}).complete = true :=
  (completes_sweep hs hacyclic name x.sweepDepth [] scopes {} ⟨.nil, hscopes, by simp⟩ ⟨rfl, .nil⟩
    (Nat.le_of_eq x.levelsLeft_nil)).uncut.complete

/-- **The look-up of a child comes to an end**, with what its sweep has found. -/
theorem childAmong_eq_ok (hscopes : ∀ c ∈ scopes, ∃ p, x.schema.childrenOf p = c) (name : String) :
    x.childAmong scopes name = .ok (x.sweep name x.sweepDepth [] scopes {}).found := by
  have hcomplete := complete_sweep hs hacyclic hscopes name
  rcases hfound : (x.sweep name x.sweepDepth [] scopes {}).found with - | id <;>
    simp [childAmong, hfound, hcomplete]

theorem ends_childAmong (hscopes : ∀ c ∈ scopes, ∃ p, x.schema.childrenOf p = c) :
    Ends (x.childAmong scopes name) := by
  rw [childAmong_eq_ok hs hacyclic hscopes]
  simp [Ends]

end

end Session

end SchemaLink
