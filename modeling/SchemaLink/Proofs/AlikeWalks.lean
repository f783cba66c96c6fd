import Mathlib.Data.List.Forall2
import Mathlib.Tactic.MkIffOfInductiveProp
import SchemaLink.Proofs.Walks

/-!
# Walks that run alike

A walk asks little of the path that it takes. The text and the home of the path are quoted in
faults; of a step it uses the plain name, and of the prefix only whether it denotes a module. So two
paths whose segments agree in these points, one by one (`Session.SameStep`), lead to the same place,
or both to a fault, or both into a search that never ends (`Alike`).

**The walks run in lock step**: at every segment they have the same positions to go on from, from
the first front to the last. Each may count its segments from a number of its own, so that a walk
along a whole path can be compared with one along a part of it.
-/

namespace SchemaLink

/-! ### Answers that differ in the wording of faults only -/

/-- Two searches find the same, or both end in a fault, or both never end. -/
@[mk_iff]
inductive Alike {α : Type} : Except Halt α → Except Halt α → Prop where
  | ok (a : α) : Alike (.ok a) (.ok a)
  | fault (f g : Fault) : Alike (.error (.fault f)) (.error (.fault g))
  | unending : Alike (.error .unending) (.error .unending)

namespace Alike

variable {α β : Type} {r₁ r₂ : Except Halt α}

theorem refl : ∀ r : Except Halt α, Alike r r
  | .ok a => .ok a
  | .error (.fault f) => .fault f f
  | .error .unending => .unending

theorem map (f : α → β) (h : Alike r₁ r₂) : Alike (r₁.map f) (r₂.map f) := by
  cases h with
  | ok a => exact .ok (f a)
  | fault f g => exact .fault f g
  | unending => exact .unending

/-- Searches that are alike may be gone on with alike. -/
theorem bind {f g : α → Except Halt β} (h : Alike r₁ r₂) (hfg : ∀ a, Alike (f a) (g a)) :
    Alike (r₁.bind f) (r₂.bind g) := by
  cases h with
  | ok a => exact hfg a
  | fault f g => exact .fault f g
  | unending => exact .unending

/-- What the one search finds the other one finds. -/
theorem eq_ok_iff (h : Alike r₁ r₂) {a : α} : r₁ = .ok a ↔ r₂ = .ok a := by
  cases h <;> simp

end Alike

namespace Segment

/-- A segment without its prefix. -/
def bare : Segment → Segment
  | step q => step ⟨none, q.name⟩
  | segment => segment

/-- Segments that are the same without their prefixes are of one form, and name the same child. -/
theorem bare_eq_cases {a b : Segment} (h : a.bare = b.bare) :
    a = b ∨ ∃ q₁ q₂, a = .step q₁ ∧ b = .step q₂ ∧ q₁.name = q₂.name := by
  cases a <;> cases b <;> simp_all [bare]

end Segment

namespace Session

variable {x : Session} {home₁ home₂ : ModuleId} {segment₁ segment₂ : Segment}
  {segments₁ segments₂ : List Segment}

/-- The prefix of a segment, if it has one, denotes a module. -/
def Reads (x : Session) (home : ModuleId) : Segment → Prop
  | .step q => ∀ p ∈ q.qualifier, ∃ m, x.registry.moduleFor x.schema home p = .ok m
  | _ => True

/-- Two segments, each read in a home of its own, are the same step: they are the same without their
prefixes, and the prefix of the one denotes a module if that of the other does. -/
structure SameStep (x : Session) (home₁ home₂ : ModuleId) (a b : Segment) : Prop where
  bare_eq : a.bare = b.bare
  reads_iff : x.Reads home₁ a ↔ x.Reads home₂ b

theorem SameStep.refl (home : ModuleId) (a : Segment) : x.SameStep home home a a :=
  ⟨rfl, Iff.rfl⟩

/-- Segments whose prefixes denote modules need only be the same without their prefixes. -/
theorem forall₂_sameStep_of_reads (h₁ : ∀ a ∈ segments₁, x.Reads home₁ a)
    (h₂ : ∀ a ∈ segments₂, x.Reads home₂ a)
    (hbare : segments₁.map Segment.bare = segments₂.map Segment.bare) :
    List.Forall₂ (x.SameStep home₁ home₂) segments₁ segments₂ := by
  induction segments₁ generalizing segments₂ with
  | nil =>
    obtain rfl : segments₂ = [] := by simpa using hbare.symm
    exact .nil
  | cons a rest₁ ih =>
    obtain ⟨b, rest₂, rfl, hb, hrest⟩ := List.map_eq_cons_iff.1 hbare.symm
    rw [List.forall_mem_cons] at h₁ h₂
    exact .cons ⟨hb.symm, iff_of_true h₁.1 h₂.1⟩ (ih h₁.2 h₂.2 hrest.symm)

/-- Where the walk along some segments ends, the first of which has number `index` in a path. -/
def walkAlong (x : Session) (target : TargetFinder) (path : Path) (home : ModuleId)
    (segments : List Segment) (index : Nat) (start : Position) : Except Halt Position :=
  match x.proceed target path home segments index [some start] with
  | some c :: _ => .ok c
  | none :: _ => .error .unending
  | [] => .error (x.obstacle target path home segments index start)

section

variable (target : TargetFinder) (path₁ path₂ : Path)

theorem walk_eq_walkAlong (home : ModuleId) (start : Position) :
    x.walk target path₁ home start = x.walkAlong target path₁ home path₁.segments 0 start :=
  rfl

/-- A step is decided by its name, and by whether its prefix denotes a module. -/
theorem stepTo_alike {q₁ q₂ : QName}
    (hreads : x.Reads home₁ (.step q₁) ↔ x.Reads home₂ (.step q₂)) (hname : q₁.name = q₂.name)
    (index₁ index₂ : Nat) (c : Position) :
    Alike (x.stepTo target path₁ home₁ index₁ q₁ c) (x.stepTo target path₂ home₂ index₂ q₂ c) := by
  have hdenotes := (qualifier_elim_eq_ok_iff.trans hreads).trans qualifier_elim_eq_ok_iff.symm
  rw [stepTo, stepTo, hname]
  rcases h₁ : q₁.qualifier.elim (.ok home₁) (x.registry.moduleFor x.schema home₁) with f₁ | m₁ <;>
    rcases h₂ : q₂.qualifier.elim (.ok home₂) (x.registry.moduleFor x.schema home₂) with f₂ | m₂ <;>
    simp only [h₁, h₂] at hdenotes ⊢
  · exact .fault f₁ f₂
  · simp at hdenotes
  · simp at hdenotes
  · rcases x.childAt target c q₂.name with halt | _ | id
    · exact .refl _
    · exact .fault _ _
    · exact .ok id

theorem parentsAt_alike (index₁ index₂ : Nat) (c : Position) :
    Alike (x.parentsAt target path₁ home₁ index₁ c)
      (x.parentsAt target path₂ home₂ index₂ c) := by
  cases c with
  | top m => exact .fault _ _
  | node id =>
    rw [parentsAt, parentsAt]
    rcases x.anchors target (x.schema.node id).parent with halt | _ | ⟨first, rest⟩
    · exact .refl _
    · exact .fault _ _
    · exact .ok _

/-- One segment leads from a position to the same positions. -/
theorem moves_alike (h : x.SameStep home₁ home₂ segment₁ segment₂) (index₁ index₂ : Nat)
    (c : Position) :
    Alike (x.moves target path₁ home₁ index₁ c segment₁)
      (x.moves target path₂ home₂ index₂ c segment₂) := by
  rcases Segment.bare_eq_cases h.bare_eq with rfl | ⟨q₁, q₂, rfl, rfl, hname⟩
  · cases segment₁ with
    | current => exact .refl _
    | parent => exact parentsAt_alike target path₁ path₂ index₁ index₂ c
    | step q => exact (stepTo_alike target path₁ path₂ h.reads_iff rfl index₁ index₂ c).map _
  · exact (stepTo_alike target path₁ path₂ h.reads_iff hname index₁ index₂ c).map _

/-- **Step.** The fronts stay the same. -/
theorem advance_eq_of_sameStep (h : x.SameStep home₁ home₂ segment₁ segment₂)
    (index₁ index₂ : Nat) (front : List (Option Position)) :
    x.advance target path₁ home₁ index₁ segment₁ front
      = x.advance target path₂ home₂ index₂ segment₂ front := by
  rw [advance, advance]
  congr 2
  funext place
  cases place with
  | none => rfl
  | some c =>
    rcases (alike_iff _ _).1 (moves_alike target path₁ path₂ h index₁ index₂ c) with
      ⟨found, hm₁, hm₂⟩ | ⟨f, g, hm₁, hm₂⟩ | ⟨hm₁, hm₂⟩ <;> simp only [hm₁, hm₂]

section

variable (h : List.Forall₂ (x.SameStep home₁ home₂) segments₁ segments₂)
include h

/-- **Run.** Both walks have the same front at their end. -/
theorem proceed_eq_of_sameSteps (index₁ index₂ : Nat) (front : List (Option Position)) :
    x.proceed target path₁ home₁ segments₁ index₁ front
      = x.proceed target path₂ home₂ segments₂ index₂ front := by
  induction h generalizing index₁ index₂ front with
  | nil => rfl
  | cons hstep _ ih =>
    rw [proceed, proceed, advance_eq_of_sameStep target path₁ path₂ hstep index₁ index₂]
    exact ih _ _ _

/-- If nothing is left, both walks met a fault, or both came upon a search that never ends. -/
theorem obstacle_alike (index₁ index₂ : Nat) (c : Position) :
    Alike (.error (x.obstacle target path₁ home₁ segments₁ index₁ c) : Except Halt Position)
      (.error (x.obstacle target path₂ home₂ segments₂ index₂ c)) := by
  induction h generalizing index₁ index₂ c with
  | nil => exact .fault _ _
  | cons hstep _ ih =>
    rw [obstacle, obstacle]
    rcases (alike_iff _ _).1 (moves_alike target path₁ path₂ hstep index₁ index₂ c) with
      ⟨found, hm₁, hm₂⟩ | ⟨f, g, hm₁, hm₂⟩ | ⟨hm₁, hm₂⟩ <;> rw [hm₁, hm₂]
    · exact ih _ _ _
    · exact .fault f g
    · exact .unending

/-- **Walks along the same steps end alike.** -/
theorem walkAlong_alike (index₁ index₂ : Nat) (start : Position) :
    Alike (x.walkAlong target path₁ home₁ segments₁ index₁ start)
      (x.walkAlong target path₂ home₂ segments₂ index₂ start) := by
  rw [walkAlong, walkAlong, proceed_eq_of_sameSteps target path₁ path₂ h index₁ index₂]
  rcases x.proceed target path₂ home₂ segments₂ index₂ [some start] with _ | ⟨_ | c, rest⟩
  · exact obstacle_alike target path₁ path₂ h index₁ index₂ start
  · exact .unending
  · exact .ok c

end

/-- Whether the end of a path is accepted is a matter of the end alone. -/
theorem arrive_alike (needsValue : Bool) (c : Position) :
    Alike (x.arrive needsValue path₁ home₁ c) (x.arrive needsValue path₂ home₂ c) := by
  cases c with
  | top m => exact .fault _ _
  | node id =>
    rw [arrive, arrive]
    split
    · exact .fault _ _
    · exact .ok id

end

variable {target : TargetFinder} {path path₁ path₂ : Path} {home : ModuleId}
  {origin origin₁ origin₂ : Position} {needsValue : Bool}

/-- A path that is written at a node starts at its carrier. -/
theorem followFrom_eq (x : Session) (needsValue : Bool) (written : String) (origin : NodeId) :
    x.followFrom needsValue written origin =
      x.followBy x.targetOf needsValue (Path.ofString written)
        (x.schema.homeModule (x.schema.carrier origin)) (.node (x.schema.carrier origin)) :=
  rfl

/-- A path is followed from its start along its segments, and must arrive somewhere. -/
theorem followBy_eq (h : path.segments ≠ []) :
    x.followBy target needsValue path home origin =
      ((x.startOf path home origin).bind (x.walk target path home)).bind
        (x.arrive needsValue path home) := by
  rw [followBy, if_neg h]
  rcases x.startOf path home origin with halt | start
  · rfl
  · show _ = (x.walk target path home start).bind _
    rcases hwalk : x.walk target path home start with halt | c <;> simp only [hwalk] <;> rfl

/-- Paths that start alike and take the same steps lead to the same node. -/
theorem followBy_alike
    (h : List.Forall₂ (x.SameStep home₁ home₂) path₁.segments path₂.segments)
    (hstart : Alike (x.startOf path₁ home₁ origin₁) (x.startOf path₂ home₂ origin₂))
    (needsValue : Bool) :
    Alike (x.followBy target needsValue path₁ home₁ origin₁)
      (x.followBy target needsValue path₂ home₂ origin₂) := by
  by_cases hnil : path₁.segments = []
  · have hnil₂ : path₂.segments = [] := by
      rw [hnil] at h
      exact List.forall₂_nil_left_iff.1 h
    rw [followBy, followBy, if_pos hnil, if_pos hnil₂]
    exact .fault _ _
  · have hnil₂ : path₂.segments ≠ [] := by
      intro hnil₂
      rw [hnil₂] at h
      exact hnil (List.forall₂_nil_right_iff.1 h)
    rw [followBy_eq hnil, followBy_eq hnil₂]
    exact (hstart.bind (walkAlong_alike target path₁ path₂ h 0 0)).bind
      (arrive_alike path₁ path₂ needsValue)

end Session

end SchemaLink
