import SchemaLink.Session.Follow
import SchemaLink.Proofs.Anchors
import SchemaLink.Proofs.Steps

/-!
# Walks and what paths mean

What a path means is said by rules: `.` stays, `..` moves to some anchor, and a name whose qualifier
denotes a module moves to the child that is looked up. `Session.Follows` relates the two ends of
such a journey; since a position may have many anchors, one start may be related to many ends.

`Session.walk` keeps all journeys in one front and drops positions that come up twice. **It finds an
end exactly if there is one**, unless some search on the way never ends. In the front, `none` stands
for such a search: it stays in its place, so the end of a journey that is tried earlier still
counts.
-/

namespace SchemaLink

namespace Session

/-- One segment moves from one position to another. -/
inductive Moves (x : Session) (target : TargetFinder) (home : ModuleId) :
    Segment → Position → Position → Prop where
  | current (c : Position) : Moves x target home .current c c
  | parent {id : NodeId} {c : Position} (h : x.Anchor target (x.schema.node id).parent c) :
      Moves x target home .parent (.node id) c
  | step {q : QName} {c : Position} {id : NodeId}
      (hq : ∀ p ∈ q.qualifier, ∃ m, x.registry.moduleFor x.schema home p = .ok m)
      (h : x.childAt target c q.name = .ok (some id)) :
      Moves x target home (.step q) c (.node id)

/-- The segments of a path lead from one position to another. -/
inductive Follows (x : Session) (target : TargetFinder) (home : ModuleId) :
    List Segment → Position → Position → Prop where
  | nil (c : Position) : Follows x target home [] c c
  | cons {segment : Segment} {rest : List Segment} {c d e : Position}
      (first : Moves x target home segment c d) (others : Follows x target home rest d e) :
      Follows x target home (segment :: rest) c e

variable {x : Session} {target : TargetFinder} {path : Path} {home : ModuleId} {index : Nat}
  {segment : Segment} {segments : List Segment} {front : List (Option Position)}
  {c d : Position}

/-! ### One segment -/

theorem qualifier_elim_eq_ok_iff {q : QName} :
    (∃ m, q.qualifier.elim (.ok home) (x.registry.moduleFor x.schema home) = .ok m) ↔
      ∀ p ∈ q.qualifier, ∃ m, x.registry.moduleFor x.schema home p = .ok m := by
  rcases q.qualifier with - | p <;> simp

/-- The child that a name leads to, if its qualifier denotes a module. -/
theorem stepTo_eq_ok_iff (path : Path) (index : Nat) {q : QName} {id : NodeId} :
    x.stepTo target path home index q c = .ok id ↔
      (∀ p ∈ q.qualifier, ∃ m, x.registry.moduleFor x.schema home p = .ok m) ∧
        x.childAt target c q.name = .ok (some id) := by
  rw [← qualifier_elim_eq_ok_iff]
  rcases hq : q.qualifier.elim (.ok home) (x.registry.moduleFor x.schema home) with fault | m
  · simp [stepTo, hq]
  · rcases hchild : x.childAt target c q.name with halt | (- | id') <;> simp [stepTo, hq, hchild]

section

variable (hx : x.schema.Grounded) (hpos : 0 < x.schema.parentBound)
include hx hpos

/-- **One segment is taken as the rules say.** -/
theorem mem_moves_iff {found : List Position}
    (h : x.moves target path home index c segment = .ok found) :
    d ∈ found ↔ x.Moves target home segment c d := by
  cases segment with
  | current =>
    obtain rfl : [c] = found := by simpa [moves] using h
    constructor
    · intro hd
      rw [List.mem_singleton.1 hd]
      exact .current c
    · rintro ⟨⟩
      simp
  | parent =>
    cases c with
    | top m => simp [moves, parentsAt] at h
    | node id =>
      simp only [moves, parentsAt] at h
      split at h
      · simp at h
      · simp at h
      · next found' _ hanchors =>
        obtain rfl : found' = found := by simpa using h
        rw [mem_anchors_iff hx hpos (hx.number_parent_lt hpos id) hanchors]
        constructor
        · exact .parent
        · rintro ⟨⟩
          assumption
  | step q =>
    simp only [moves] at h
    rcases hstep : x.stepTo target path home index q c with halt | id
    · simp [hstep, Except.map] at h
    · obtain rfl : [Position.node id] = found := by simpa [hstep, Except.map] using h
      obtain ⟨hq, hchild⟩ := (stepTo_eq_ok_iff path index).1 hstep
      constructor
      · intro hd
        rw [List.mem_singleton.1 hd]
        exact .step hq hchild
      · rintro ⟨⟩
        simp_all

/-- A segment that cannot be taken leads nowhere. -/
theorem not_moves_of_eq_fault {cause : Fault}
    (h : x.moves target path home index c segment = .error (.fault cause)) :
    ¬ x.Moves target home segment c d := by
  intro hmoves
  cases hmoves with
  | current => simp [moves] at h
  | @parent id _ hanchor =>
    simp only [moves, parentsAt] at h
    split at h
    · next halt hanchors =>
      obtain rfl := anchors_eq_error hanchors
      simp at h
    · next hanchors =>
      have := (mem_anchors_iff hx hpos (hx.number_parent_lt hpos id) hanchors).2 hanchor
      simp at this
    · simp at h
  | @step q _ id hq hchild =>
    simp [moves, (stepTo_eq_ok_iff path index).2 ⟨hq, hchild⟩, Except.map] at h

/-! ### The front -/

/-- **Step, soundness.** Each position of the next front was moved to from the present one. -/
theorem exists_moves_of_mem_advance
    (h : some d ∈ x.advance target path home index segment front) :
    ∃ c, some c ∈ front ∧ x.Moves target home segment c d := by
  simp only [advance, List.mem_eraseDups, List.mem_flatMap] at h
  obtain ⟨- | c, hc, hd⟩ := h
  · simp at hd
  · refine ⟨c, hc, ?_⟩
    rcases hmoves : x.moves target path home index c segment with (cause | -) | found
    · simp [hmoves] at hd
    · simp [hmoves] at hd
    · simp only [hmoves, List.mem_map, Option.some.injEq, exists_eq_right] at hd
      exact (mem_moves_iff hx hpos hmoves).1 hd

/-- **Step, completeness.** Each move from the present front is in the next one, or a search that
never ends is. -/
theorem mem_advance_of_moves (path : Path) (index : Nat) (hc : some c ∈ front)
    (h : x.Moves target home segment c d) :
    some d ∈ x.advance target path home index segment front ∨
      none ∈ x.advance target path home index segment front := by
  simp only [advance, List.mem_eraseDups, List.mem_flatMap]
  rcases hmoves : x.moves target path home index c segment with (cause | -) | found
  · exact absurd h (not_moves_of_eq_fault hx hpos hmoves)
  · exact Or.inr ⟨some c, hc, by simp [hmoves]⟩
  · refine Or.inl ⟨some c, hc, ?_⟩
    simpa [hmoves] using (mem_moves_iff hx hpos hmoves).2 h

end

theorem none_mem_advance (h : none ∈ front) :
    none ∈ x.advance target path home index segment front := by
  simp only [advance, List.mem_eraseDups, List.mem_flatMap]
  exact ⟨none, h, by simp⟩

theorem none_mem_proceed (h : none ∈ front) :
    none ∈ x.proceed target path home segments index front := by
  induction segments generalizing index front with
  | nil => exact h
  | cons segment rest ih => exact ih (none_mem_advance h)

section

variable (hx : x.schema.Grounded) (hpos : 0 < x.schema.parentBound)
include hx hpos

/-- **Run, soundness.** What is left of the front at the end of a path are ends of journeys. -/
theorem exists_follows_of_mem_proceed
    (h : some d ∈ x.proceed target path home segments index front) :
    ∃ c, some c ∈ front ∧ x.Follows target home segments c d := by
  induction segments generalizing index front with
  | nil => exact ⟨d, h, .nil d⟩
  | cons segment rest ih =>
    obtain ⟨b, hb, hfollows⟩ := ih h
    obtain ⟨c, hc, hmoves⟩ := exists_moves_of_mem_advance hx hpos hb
    exact ⟨c, hc, .cons hmoves hfollows⟩

/-- **Run, completeness.** The end of each journey is left, or a search that never ends is. -/
theorem mem_proceed_of_follows (path : Path) (index : Nat) (hc : some c ∈ front)
    (h : x.Follows target home segments c d) :
    some d ∈ x.proceed target path home segments index front ∨
      none ∈ x.proceed target path home segments index front := by
  induction h generalizing index front with
  | nil => exact Or.inl hc
  | @cons segment rest c b e hmoves _ ih =>
    rw [proceed]
    rcases mem_advance_of_moves hx hpos path index hc hmoves with hb | hnone
    · exact ih (index + 1) hb
    · exact Or.inr (none_mem_proceed hnone)

end

/-- **A walk ends where its path leads.** In a session whose handles denote something, from a
position of the schema: an end that the walk finds is related to the start by the segments of the
path, and if the walk comes to an answer at all and some position is related to the start, the walk
finds an end. -/
theorem walk_iff_follows (hx : x.schema.Grounded) {start : Position}
    (hstart : x.schema.HasPosition start) :
    (∀ c, x.walk x.targetOf path home start = .ok c →
      x.Follows x.targetOf home path.segments start c) ∧
    (x.walk x.targetOf path home start ≠ .error .unending →
      (∃ c, x.Follows x.targetOf home path.segments start c) →
      ∃ c, x.walk x.targetOf path home start = .ok c) := by
  have hpos := hx.parentBound_pos hstart
  constructor
  · intro c hc
    unfold walk at hc
    split at hc
    · next c' others hfront =>
      obtain rfl : c' = c := by simpa using hc
      have hmem : some c' ∈ x.proceed x.targetOf path home path.segments 0 [some start] := by
        rw [hfront]
        simp
      obtain ⟨c₀, hc₀, hfollows⟩ := exists_follows_of_mem_proceed hx hpos hmem
      obtain rfl : c₀ = start := by simpa using hc₀
      exact hfollows
    · simp at hc
    · simp at hc
  · rintro hends ⟨c, hfollows⟩
    unfold walk at hends ⊢
    split
    · next c' others hfront => exact ⟨c', rfl⟩
    · next others hfront => simp [hfront] at hends
    · next hfront =>
      have := mem_proceed_of_follows hx hpos path 0 (List.mem_singleton.2 rfl) hfollows
      simp [hfront] at this

/-- A grouping with a leaf is used in a second grouping, and that one in a container. -/
def nestedUse : List Document :=
  [.module
    { name := "m", ownPrefix := "m", space := "urn:m"
      body := [
        .block .grouping "inner" none [.typed .leaf "name" none { name := "string" }],
        .block .grouping "outer" none [.uses "inner"],
        .block .container "box" none [.uses "outer"]] }]

/-- From the leaf, `..` leads through both groupings to the container. -/
theorem walk_nestedUse :
    ∃ s x, Schema.ofDocuments nestedUse = .ok s ∧ start s .strict = .ok x ∧
      x.schema.Grounded ∧ x.schema.HasPosition (.node ⟨1⟩) ∧
      x.walk x.targetOf (Path.ofString "./..") ⟨0⟩ (.node ⟨1⟩) = .ok (.node ⟨5⟩) ∧
      x.Follows x.targetOf ⟨0⟩ (Path.ofString "./..").segments (.node ⟨1⟩) (.node ⟨5⟩) := by
  have hanswer : (start (Schema.ofBatch nestedUse) .strict).toOption.map
      (fun x ↦ x.walk x.targetOf (Path.ofString "./..") ⟨0⟩ (.node ⟨1⟩)) =
      some (.ok (.node ⟨5⟩)) := by
    decide +kernel
  obtain ⟨x, hx, hwalk⟩ := Option.map_eq_some_iff.1 hanswer
  have hdocs : Schema.ofDocuments nestedUse = .ok (Schema.ofBatch nestedUse) :=
    Schema.ofDocuments_of_offences_eq_nil rfl
  have hstart := toOption_eq_some_iff.1 hx
  obtain ⟨r, -, rfl⟩ := exists_registry_of_start hstart
  have hground := (Schema.tidy_of_ofDocuments hdocs).grounded
  have horigin : (Schema.ofBatch nestedUse).HasPosition (.node ⟨1⟩) := by
    show 1 < (Schema.ofBatch nestedUse).nodes.size
    decide +kernel
  exact ⟨_, _, hdocs, hstart, hground, horigin, hwalk,
    (walk_iff_follows hground horigin).1 _ hwalk⟩

end Session

end SchemaLink
