import Mathlib.Data.List.Perm.Subperm
import SchemaLink.Proofs.Faults

/-!
# Chains of leaf references

A leaf reference is followed from leaf to leaf, with the path of each leaf read at that leaf, until
one is no reference, or has been passed before, or a path leads nowhere. Here the chain is described
without the search (`Session.Passes`, `Session.ChainEnd`), and **the search finds exactly the end of
the chain** (`Session.referent_chain`).

**The bound of the search is never felt.** Until a leaf comes twice the leaves passed are all
different, so there are no more of them than leaves in the schema, and one question more than that
settles the matter. What is asked in between does not depend on the bound, nor on how links are
found: any search that answers these questions alike comes to the same end.

The three ends exclude each other. A chain that returns ends in a fault of its own, which no path
ends in (`Session.onPath_followFrom`).
-/

namespace SchemaLink

namespace Session

variable {x : Session} {link link' : LinkFinder} {origin start last leaf id : NodeId}
  {path written next : String} {leaves passed passed' values : List NodeId}
  {answer : Except Halt NodeId}

/-! ### Chains -/

/-- A path is followed from a node, and then the path of each leaf that is reached from that leaf.
This leads over some leaves in turn, all of them references, and up to the question where the path
`written` leads from the node `last`. -/
inductive Passes (x : Session) (link : LinkFinder) :
    NodeId → String → List NodeId → NodeId → String → Prop where
  | here {origin : NodeId} {path : String} : Passes x link origin path [] origin path
  | on {origin leaf last : NodeId} {path next written : String} {leaves : List NodeId}
      (hlink : link origin path = .ok leaf) (hpath : x.referencePath? leaf = some next)
      (hrest : Passes x link leaf next leaves last written) :
      Passes x link origin path (leaf :: leaves) last written

/-- How a chain ends that has come over the nodes `passed` to the question where a path leads from
the last of them. -/
inductive ChainEnd (x : Session) (link : LinkFinder) (passed : List NodeId) (last : NodeId)
    (written : String) : Except Halt NodeId → Prop where
  /-- The path leads nowhere. -/
  | fails {halt : Halt} (hlink : link last written = .error halt) :
      ChainEnd x link passed last written (.error halt)
  /-- The path leads back to a node that has been passed. -/
  | returns {leaf : NodeId} (hlink : link last written = .ok leaf) (hleaf : leaf ∈ passed) :
      ChainEnd x link passed last written
        (.error (.fault (.cyclicTypeReference (x.schema.label leaf) written
          (x.schema.homeName last))))
  /-- The path leads to a leaf that is no reference. -/
  | arrives {leaf : NodeId} (hlink : link last written = .ok leaf) (hleaf : leaf ∉ passed)
      (hpath : x.referencePath? leaf = none) : ChainEnd x link passed last written (.ok leaf)

/-- The order in which nodes have been passed does not matter. -/
theorem ChainEnd.congr (h : x.ChainEnd link passed last written answer)
    (hmem : ∀ a, a ∈ passed ↔ a ∈ passed') : x.ChainEnd link passed' last written answer := by
  cases h with
  | fails hlink => exact .fails hlink
  | returns hlink hleaf => exact .returns hlink ((hmem _).1 hleaf)
  | arrives hlink hleaf hpath => exact .arrives hlink (fun h ↦ hleaf ((hmem _).2 h)) hpath

/-! ### The search along a chain -/

/-- **Run.** The search goes past the leaves of a chain, one step for each. -/
theorem Passes.chase_eq (h : x.Passes link origin path leaves last written)
    (hnodup : (leaves.reverse ++ passed).Nodup) (n : Nat) :
    x.chase link (n + leaves.length) passed origin path =
      x.chase link n (leaves.reverse ++ passed) last written := by
  induction h generalizing passed with
  | here => rfl
  | @on origin leaf last path next written leaves hlink hpath _ ih =>
    rw [List.reverse_cons, List.append_assoc] at hnodup ⊢
    have hnew : leaf ∉ passed := (List.nodup_cons.1 hnodup.of_append_right).1
    rw [List.length_cons, ← Nat.add_assoc, chase, hlink]
    simp only [hnew, if_false, hpath]
    exact ih hnodup

/-- The search sees how a chain ends. -/
theorem ChainEnd.chase_eq (h : x.ChainEnd link passed last written answer) (n : Nat) :
    x.chase link (n + 1) passed last written = answer := by
  rw [chase]
  cases h with
  | fails hlink => rw [hlink]
  | returns hlink hleaf => simp [hlink, hleaf]
  | arrives hlink hleaf hpath => simp [hlink, hleaf, hpath]

/-- A search with enough steps ends where the chain does. -/
theorem Passes.chase_eq_of_chainEnd (h : x.Passes link start path leaves last written)
    (hnodup : (start :: leaves).Nodup)
    (hend : x.ChainEnd link (start :: leaves) last written answer) {n : Nat}
    (hn : leaves.length < n) : x.chase link n [start] start path = answer := by
  obtain ⟨m, rfl⟩ : ∃ m, n = m + 1 + leaves.length := ⟨n - leaves.length - 1, by omega⟩
  have hreverse : leaves.reverse ++ [start] = (start :: leaves).reverse := by simp
  rw [h.chase_eq (by rwa [hreverse, List.nodup_reverse]), hreverse]
  exact (hend.congr fun a ↦ List.mem_reverse.symm).chase_eq m

/-! ### Every chain ends -/

/-- Different nodes that hold values are no more than there are. -/
theorem length_le_valueCount (hnodup : values.Nodup)
    (hvalues : ∀ v ∈ values, (x.schema.kind v).holdsValue = true) :
    values.length ≤ x.valueCount := by
  refine (List.subperm_of_subset hnodup fun v hv ↦ ?_).length_le
  refine List.mem_filter.2 ⟨Schema.mem_nodeIds.2 (Schema.index_lt_of_kind_ne_uses fun hk ↦ ?_),
    hvalues v hv⟩
  simpa [hk, Kind.holdsValue] using hvalues v hv

namespace GoodLinks

variable (hgood : x.GoodLinks link)
include hgood

theorem holdsValue_of_passes (h : x.Passes link origin path leaves last written) :
    ∀ v ∈ leaves, (x.schema.kind v).holdsValue = true := by
  induction h with
  | here => simp
  | on hlink _ _ ih => exact List.forall_mem_cons.2 ⟨hgood.holdsValue _ _ _ hlink, ih⟩

/-- A chain that repeats no leaf passes no more leaves than there are. -/
theorem length_le_of_passes (h : x.Passes link origin path leaves last written)
    (hnodup : (start :: leaves).Nodup) : leaves.length ≤ x.valueCount :=
  length_le_valueCount hnodup.of_cons (hgood.holdsValue_of_passes h)

/-- A chain that has come over some leaves without passing one twice goes on to an end in the same
manner: there are only so many leaves to come. -/
theorem exists_chainEnd_from {n : Nat} (hnodup : (start :: values).Nodup)
    (hvalues : ∀ v ∈ values, (x.schema.kind v).holdsValue = true)
    (hn : x.valueCount < n + values.length) (origin : NodeId) (path : String) :
    ∃ leaves last written answer, x.Passes link origin path leaves last written ∧
      (start :: (values ++ leaves)).Nodup ∧
      x.ChainEnd link (start :: (values ++ leaves)) last written answer := by
  induction n generalizing values origin path with
  | zero =>
    have hlength := length_le_valueCount hnodup.of_cons hvalues
    omega
  | succ n ih =>
    have hnodup' : (start :: (values ++ [])).Nodup := by simpa using hnodup
    rcases hlink : link origin path with halt | leaf
    · exact ⟨[], _, _, _, .here, hnodup', .fails hlink⟩
    · by_cases hleaf : leaf ∈ start :: values
      · exact ⟨[], _, _, _, .here, hnodup', .returns hlink (by simpa using hleaf)⟩
      · rcases hpath : x.referencePath? leaf with - | next
        · exact ⟨[], _, _, _, .here, hnodup', .arrives hlink (by simpa using hleaf) hpath⟩
        · have hlonger : (start :: (values ++ [leaf])).Nodup := by
            rw [← List.cons_append, ← List.concat_eq_append]
            exact hnodup.concat hleaf
          have hmore : ∀ v ∈ values ++ [leaf], (x.schema.kind v).holdsValue = true := by
            intro v hv
            rcases List.mem_append.1 hv with hv | hv
            · exact hvalues v hv
            · rw [List.mem_singleton.1 hv]
              exact hgood.holdsValue _ _ _ hlink
          have hn' : x.valueCount < n + (values ++ [leaf]).length := by
            rw [List.length_append, List.length_singleton]
            omega
          obtain ⟨leaves, last, written, answer, hpasses, hrest⟩ := ih hlonger hmore hn' leaf next
          rw [List.append_assoc, List.singleton_append] at hrest
          exact ⟨leaf :: leaves, last, written, answer, .on hlink hpath hpasses, hrest⟩

/-- **Every chain comes to an end** without passing a leaf twice. -/
theorem exists_chainEnd (start : NodeId) (path : String) :
    ∃ leaves last written answer, x.Passes link start path leaves last written ∧
      (start :: leaves).Nodup ∧ x.ChainEnd link (start :: leaves) last written answer :=
  hgood.exists_chainEnd_from (List.nodup_singleton start) (by simp) (Nat.lt_succ_self _) start path

/-- **The search finds the end of the chain**, whatever that is. -/
theorem referentBy_eq_iff :
    x.referentBy link path origin = answer ↔
      ∃ leaves last written, x.Passes link (x.schema.carrier origin) path leaves last written ∧
        (x.schema.carrier origin :: leaves).Nodup ∧
        x.ChainEnd link (x.schema.carrier origin :: leaves) last written answer := by
  have hfound {leaves : List NodeId} {last : NodeId} {written : String}
      {answer : Except Halt NodeId}
      (h : x.Passes link (x.schema.carrier origin) path leaves last written)
      (hnodup : (x.schema.carrier origin :: leaves).Nodup)
      (hend : x.ChainEnd link (x.schema.carrier origin :: leaves) last written answer) :
      x.referentBy link path origin = answer :=
    h.chase_eq_of_chainEnd hnodup hend
      (Nat.lt_succ_of_le (hgood.length_le_of_passes h hnodup))
  constructor
  · rintro rfl
    obtain ⟨leaves, last, written, answer, hpasses, hnodup, hend⟩ :=
      hgood.exists_chainEnd (x.schema.carrier origin) path
    rw [hfound hpasses hnodup hend]
    exact ⟨leaves, last, written, hpasses, hnodup, hend⟩
  · rintro ⟨leaves, last, written, hpasses, hnodup, hend⟩
    exact hfound hpasses hnodup hend

end GoodLinks

/-! ### The questions of a chain -/

/-- What is asked along a chain over some leaves: where the path leads from the start, and where the
path of each leaf leads from that leaf. -/
def questions (x : Session) (origin : NodeId) (path : String) (leaves : List NodeId) :
    List (NodeId × String) :=
  (origin, path) :: leaves.filterMap fun leaf ↦ (x.referencePath? leaf).map (leaf, ·)

theorem questions_cons (hpath : x.referencePath? leaf = some next) :
    x.questions origin path (leaf :: leaves) = (origin, path) :: x.questions leaf next leaves := by
  simp [questions, hpath]

namespace Passes

variable (h : x.Passes link origin path leaves last written)
include h

theorem length_questions : (x.questions origin path leaves).length = leaves.length + 1 := by
  induction h with
  | here => rfl
  | on _ hpath _ ih => rw [questions_cons hpath, List.length_cons, ih, List.length_cons]

/-- Links that answer the questions of a chain alike make the same chain, up to its last
question. -/
theorem congr (hsame : ∀ q ∈ x.questions origin path leaves, link' q.1 q.2 = link q.1 q.2) :
    x.Passes link' origin path leaves last written ∧ link' last written = link last written := by
  induction h with
  | here => exact ⟨.here, hsame _ (List.mem_singleton.2 rfl)⟩
  | on hlink hpath _ ih =>
    rw [questions_cons hpath, List.forall_mem_cons] at hsame
    obtain ⟨hrest, hlast⟩ := ih hsame.2
    exact ⟨.on (hsame.1.trans hlink) hpath hrest, hlast⟩

end Passes

/-- An end depends on the answer to the last question only. -/
theorem ChainEnd.of_link_eq (h : x.ChainEnd link passed last written answer)
    (hlast : link' last written = link last written) :
    x.ChainEnd link' passed last written answer := by
  cases h with
  | fails hlink => exact .fails (hlast.trans hlink)
  | returns hlink hleaf => exact .returns (hlast.trans hlink) hleaf
  | arrives hlink hleaf hpath => exact .arrives (hlast.trans hlink) hleaf hpath

/-! ### Paths of leaf references -/

/-- A path is never said to be a chain that returns. -/
theorem followFrom_ne_cyclic {label home : String} :
    x.followFrom true path id ≠ .error (.fault (.cyclicTypeReference label written home)) :=
  fun h ↦ onPath_followFrom _ h

theorem chainEnd_ok_iff :
    x.ChainEnd link passed last written (.ok id) ↔
      link last written = .ok id ∧ id ∉ passed ∧ x.referencePath? id = none := by
  constructor
  · rintro (_ | _ | ⟨hlink, hleaf, hpath⟩)
    exact ⟨hlink, hleaf, hpath⟩
  · rintro ⟨hlink, hleaf, hpath⟩
    exact .arrives hlink hleaf hpath

theorem chainEnd_cyclic_iff {label home : String} :
    x.ChainEnd x.followLink passed last written
        (.error (.fault (.cyclicTypeReference label path home))) ↔
      ∃ id, x.followFrom true written last = .ok id ∧ id ∈ passed ∧
        label = x.schema.label id ∧ path = written ∧ home = x.schema.homeName last := by
  constructor
  · rintro (hlink | ⟨hlink, hleaf⟩)
    · exact absurd hlink followFrom_ne_cyclic
    · exact ⟨_, hlink, hleaf, rfl, rfl, rfl⟩
  · rintro ⟨id, hlink, hleaf, rfl, rfl, rfl⟩
    exact .returns hlink hleaf

theorem chainEnd_halt_iff {halt : Halt}
    (hhalt : ∀ label path home, halt ≠ .fault (.cyclicTypeReference label path home)) :
    x.ChainEnd link passed last written (.error halt) ↔ link last written = .error halt := by
  constructor
  · rintro (hlink | _)
    · exact hlink
    · exact absurd rfl (hhalt _ _ _)
  · exact .fails

theorem referent_eq_iff :
    x.referent path origin = answer ↔
      ∃ leaves last written,
        x.Passes x.followLink (x.schema.carrier origin) path leaves last written ∧
        (x.schema.carrier origin :: leaves).Nodup ∧
        x.ChainEnd x.followLink (x.schema.carrier origin :: leaves) last written answer :=
  goodLinks_followLink.referentBy_eq_iff

/-- **A chain of leaf references is settled by few questions.** They are no more than there are
leaves and leaf-lists, and one, and their answers decide where any search for the end arrives. -/
theorem exists_questions (x : Session) (path : String) (origin : NodeId) :
    ∃ asked : List (NodeId × String), asked.length ≤ x.valueCount + 1 ∧
      ∀ link n, (∀ q ∈ asked, link q.1 q.2 = x.followFrom true q.2 q.1) → asked.length ≤ n →
        x.chase link n [x.schema.carrier origin] (x.schema.carrier origin) path =
          x.referent path origin := by
  obtain ⟨leaves, last, written, hpasses, hnodup, hend⟩ :=
    referent_eq_iff.1 (rfl : x.referent path origin = x.referent path origin)
  refine ⟨x.questions (x.schema.carrier origin) path leaves, ?_, fun link n hsame hn ↦ ?_⟩
  · rw [hpasses.length_questions]
    exact Nat.succ_le_succ (goodLinks_followLink.length_le_of_passes hpasses hnodup)
  · rw [hpasses.length_questions] at hn
    obtain ⟨hpasses', hlast⟩ := hpasses.congr hsame
    exact hpasses'.chase_eq_of_chainEnd hnodup (hend.of_link_eq hlast) hn

/-- **A chain of leaf references is followed exactly.** Let a path be followed from the node that
carries the origin, and the path of each leaf from that leaf.

* The referent is a leaf exactly if the chain leads to it over leaves that are references, it is
  none itself, and no node of the chain comes twice.
* The chain is said to be cyclic exactly if it first comes back to its start or to a leaf that it
  has passed.
* Any other halt is that of the first path that leads nowhere.
* No more paths are followed than there are leaves and leaf-lists, and one: where these lead decides
  the answer, for any bound on the number of steps that is not smaller. -/
theorem referent_chain (x : Session) (path : String) (origin : NodeId) :
    let start := x.schema.carrier origin
    (∀ id, x.referent path origin = .ok id ↔
      ∃ leaves last written, x.Passes x.followLink start path leaves last written ∧
        (start :: (leaves ++ [id])).Nodup ∧ x.followFrom true written last = .ok id ∧
        x.referencePath? id = none) ∧
    (∀ label written home,
      x.referent path origin = .error (.fault (.cyclicTypeReference label written home)) ↔
        ∃ leaves last id, x.Passes x.followLink start path leaves last written ∧
          (start :: leaves).Nodup ∧ x.followFrom true written last = .ok id ∧
          id ∈ start :: leaves ∧ label = x.schema.label id ∧ home = x.schema.homeName last) ∧
    (∀ halt, (x.referent path origin = .error halt ∧
        ∀ label written home, halt ≠ .fault (.cyclicTypeReference label written home)) ↔
      ∃ leaves last written, x.Passes x.followLink start path leaves last written ∧
        (start :: leaves).Nodup ∧ x.followFrom true written last = .error halt) ∧
    ∃ asked : List (NodeId × String), asked.length ≤ x.valueCount + 1 ∧
      ∀ link n, (∀ q ∈ asked, link q.1 q.2 = x.followFrom true q.2 q.1) → asked.length ≤ n →
        x.chase link n [start] start path = x.referent path origin := by
  intro start
  have happend {leaves : List NodeId} {id : NodeId} :
      (start :: (leaves ++ [id])).Nodup ↔ (start :: leaves).Nodup ∧ id ∉ start :: leaves := by
    rw [← List.cons_append, ← List.concat_eq_append, List.nodup_concat, and_comm]
  refine ⟨fun id ↦ ?_, fun label written home ↦ ?_, fun halt ↦ ⟨?_, ?_⟩, x.exists_questions path _⟩
  · simp only [referent_eq_iff, chainEnd_ok_iff, happend]
    constructor
    · rintro ⟨leaves, last, written, hpasses, hnodup, hlink, hleaf, hpath⟩
      exact ⟨leaves, last, written, hpasses, ⟨hnodup, hleaf⟩, hlink, hpath⟩
    · rintro ⟨leaves, last, written, hpasses, ⟨hnodup, hleaf⟩, hlink, hpath⟩
      exact ⟨leaves, last, written, hpasses, hnodup, hlink, hleaf, hpath⟩
  · simp only [referent_eq_iff, chainEnd_cyclic_iff]
    constructor
    · rintro ⟨leaves, last, written, hpasses, hnodup, id, hlink, hleaf, rfl, rfl, rfl⟩
      exact ⟨leaves, last, id, hpasses, hnodup, hlink, hleaf, rfl, rfl⟩
    · rintro ⟨leaves, last, id, hpasses, hnodup, hlink, hleaf, rfl, rfl⟩
      exact ⟨leaves, last, written, hpasses, hnodup, id, hlink, hleaf, rfl, rfl, rfl⟩
  · rintro ⟨hhalt, hother⟩
    obtain ⟨leaves, last, written, hpasses, hnodup, hend⟩ := referent_eq_iff.1 hhalt
    have hlink : x.followLink last written = .error halt := (chainEnd_halt_iff hother).1 hend
    exact ⟨leaves, last, written, hpasses, hnodup, hlink⟩
  · rintro ⟨leaves, last, written, hpasses, hnodup, hlink⟩
    have hend : x.ChainEnd x.followLink (start :: leaves) last written (.error halt) := .fails hlink
    refine ⟨referent_eq_iff.2 ⟨leaves, last, written, hpasses, hnodup, hend⟩, ?_⟩
    rintro label written' home rfl
    exact followFrom_ne_cyclic hlink

/-- A leaf reference into a circle that it is not on itself. -/
def winding : List Document :=
  [.module
    { name := "m", ownPrefix := "m", space := "urn:m"
      body := [
        .typed .leaf "way" none { name := "leafref", path := some "../left" },
        .typed .leaf "left" none { name := "leafref", path := some "../right" },
        .typed .leaf "right" none { name := "leafref", path := some "../left" }] }]

example : (Session.start (Schema.ofBatch winding) .strict).toOption.map (·.referent "../left" ⟨0⟩) =
    some (.error (.fault (.cyclicTypeReference "leaf:left" "../left" "m"))) := by
  decide +kernel

end Session

end SchemaLink
