import SchemaLink.Proofs.AlikeWalks
import SchemaLink.Proofs.Coherence
import SchemaLink.Proofs.FirstEnds
import SchemaLink.Proofs.PathTexts
import SchemaLink.Proofs.Targets

/-!
# Following a path in two stages

A path may be followed in one go or in two stages, the second from the node at which the first one
arrives. **Both lead to the same node, or both nowhere** (`Session.followFrom_append`), if the first
stage does not climb and the second is relative and without prefixes.

**A stage that does not climb has one journey only.** Each of its segments has one position to go
on from (`Session.moves_cases`), so what comes after it starts where it ended
(`Session.walkAlong_append`), and all choices are made in the second stage. Were there a `..` in the
first stage, following it alone would settle on a place of use at which the second stage might be
missing.

Followed by itself, the second stage has the home of the node from which it starts. Without prefixes
the home is only quoted in faults.
-/

namespace SchemaLink

/-! ### Carriers -/

namespace Schema

variable {s : Schema} {id q : NodeId} {u : SubmoduleId}

/-- A node that stands nowhere inside another is its own carrier. -/
theorem carrier_of_parent_submodule (hp : (s.node id).parent = .submodule u) :
    s.carrier id = id := by
  by_cases hk : s.kind id = .type
  · simp [carrier, lineage, ancestors_of_parent_submodule hp, hk]
  · exact carrier_eq_self hk

/-- A type describes the values of the node that its parent describes or is. -/
theorem carrier_of_kind_eq_type
    (hlt : ∀ id q, (s.node id).parent = .node q → q.index < id.index) (hk : s.kind id = .type)
    (hp : (s.node id).parent = .node q) : s.carrier id = s.carrier q := by
  simp [carrier, lineage, ancestors_of_parent_node hlt hp, hk]

/-- **A carrier is its own carrier.** -/
theorem carrier_carrier (hlt : ∀ id q, (s.node id).parent = .node q → q.index < id.index)
    (id : NodeId) : s.carrier (s.carrier id) = s.carrier id := by
  induction hn : id.index using Nat.strongRecOn generalizing id with
  | _ n ih =>
    by_cases hk : s.kind id = .type
    · rcases hp : (s.node id).parent with u | q
      · rw [carrier_of_parent_submodule hp, carrier_of_parent_submodule hp]
      · rw [carrier_of_kind_eq_type hlt hk hp]
        exact ih q.index (hn ▸ hlt id q hp) q rfl
    · rw [carrier_eq_self hk, carrier_eq_self hk]

end Schema

/-! ### Texts that are joined -/

namespace Path

open Text

/-- Where a segment is read there is more than blanks. -/
theorem trimStart_ne_nil {cs : List Char} (h : (ofChars cs).segments ≠ []) : trimStart cs ≠ [] := by
  intro hnil
  rw [segments_ofChars, segmentsOf_eq, ← words_bare_trimStart, hnil] at h
  exact h rfl

/-- **Joining two texts by a slash joins their segments**, and the first text says whether the path
is absolute. -/
theorem ofString_join {p q : String} (hp : '[' ∉ p.toList) (hq : '[' ∉ q.toList)
    (h : (ofString p).segments ≠ []) :
    (ofString (p ++ "/" ++ q)).absolute = (ofString p).absolute ∧
      (ofString (p ++ "/" ++ q)).segments =
        (ofString p).segments ++ (ofString q).segments := by
  have htext : (p ++ "/" ++ q).toList = p.toList ++ '/' :: q.toList := by simp
  have hopen : '[' ∉ p.toList ++ '/' :: q.toList := by simp [hp, hq]
  constructor
  · have hstart : trimStart (p.toList ++ '/' :: q.toList) =
        trimStart p.toList ++ '/' :: q.toList := by
      rw [trimStart, List.dropWhile_append, if_neg]
      · rfl
      · simpa [trimStart] using trimStart_ne_nil h
    have hopenStart : '[' ∉ trimStart p.toList := fun hmem ↦
      hp ((List.dropWhile_sublist _).subset hmem)
    rw [Bool.eq_iff_iff, absolute_ofString, absolute_ofString, absolute_ofChars_iff,
      absolute_ofChars_iff, htext, hstart, bare_of_opening_not_mem (by simp [hopenStart, hq]),
      bare_of_opening_not_mem hopenStart, List.head?_append_of_ne_nil _ (trimStart_ne_nil h)]
  · rw [segments_ofString, segments_ofString, segments_ofString, segments_ofChars,
      segments_ofChars, segments_ofChars, htext, bare_of_opening_not_mem hopen,
      bare_of_opening_not_mem hp, bare_of_opening_not_mem hq, segmentsOf_eq, segmentsOf_eq,
      segmentsOf_eq, words_append_slash, List.map_append]

end Path

namespace Session

variable {x : Session} {target : TargetFinder} {path : Path} {home : ModuleId} {index : Nat}
  {segment : Segment} {segments rest : List Segment} {c d : Position} {id : NodeId} {halt : Halt}

/-! ### Stages that do not climb -/

/-- Whatever is not `..` goes to one position at most: it stays, or goes to a child. -/
theorem moves_cases (x : Session) (target : TargetFinder) (path : Path) (home : ModuleId)
    (index : Nat) (c : Position) (hsegment : segment ≠ .parent) :
    (∃ halt, x.moves target path home index c segment = .error halt) ∨
      x.moves target path home index c segment = .ok [c] ∨
        ∃ id name, x.childAt target c name = .ok (some id) ∧
          x.moves target path home index c segment = .ok [.node id] := by
  cases segment with
  | current => exact .inr (.inl rfl)
  | parent => exact absurd rfl hsegment
  | step q =>
    rcases hstep : x.stepTo target path home index q c with halt | id
    · exact .inl ⟨halt, by rw [moves, hstep]; rfl⟩
    · exact .inr (.inr ⟨id, q.name, ((stepTo_eq_ok_iff path index).1 hstep).2, by
        rw [moves, hstep]; rfl⟩)

theorem proceed_nil : x.proceed target path home segments index [] = [] := by
  induction segments generalizing index with
  | nil => rfl
  | cons segment rest ih => exact ih

theorem walkAlong_cons_of_ok (h : x.moves target path home index c segment = .ok [d]) :
    x.walkAlong target path home (segment :: rest) index c =
      x.walkAlong target path home rest (index + 1) d := by
  have hfront : x.advance target path home index segment [some c] = [some d] := by
    simp [advance, h, List.eraseDups_cons]
  simp only [walkAlong, proceed, hfront, obstacle, h, List.getLastD_cons, List.getLastD_nil]

theorem walkAlong_cons_of_error (h : x.moves target path home index c segment = .error halt) :
    x.walkAlong target path home (segment :: rest) index c = .error halt := by
  cases halt with
  | fault cause =>
    have hfront : x.advance target path home index segment [some c] = [] := by
      simp [advance, h]
    simp only [walkAlong, proceed, hfront, proceed_nil, obstacle, h]
  | unending =>
    have hfront : x.advance target path home index segment [some c] = [none] := by
      simp [advance, h, List.eraseDups_cons]
    simp only [walkAlong, proceed, hfront, proceed_none]

/-- **What comes after a stage starts where the stage ended**, if it has no `..`. -/
theorem walkAlong_append (h : .parent ∉ segments) (rest : List Segment) :
    x.walkAlong target path home (segments ++ rest) index c =
      (x.walkAlong target path home segments index c).bind
        (x.walkAlong target path home rest (index + segments.length)) := by
  induction segments generalizing index c with
  | nil => rfl
  | cons segment segments ih =>
    obtain ⟨hsegment, hsegments⟩ : segment ≠ .parent ∧ .parent ∉ segments := by
      simpa [eq_comm] using h
    have hlength : index + (segment :: segments).length = index + 1 + segments.length := by
      rw [List.length_cons]
      omega
    rw [List.cons_append, hlength]
    -- one position goes in and one at most comes out, so the front never branches
    rcases moves_cases x target path home index c hsegment with
      ⟨halt, hmoves⟩ | hmoves | ⟨id, -, -, hmoves⟩
    · rw [walkAlong_cons_of_error hmoves, walkAlong_cons_of_error hmoves]
      rfl
    · rw [walkAlong_cons_of_ok hmoves, walkAlong_cons_of_ok hmoves, ih hsegments]
    · rw [walkAlong_cons_of_ok hmoves, walkAlong_cons_of_ok hmoves, ih hsegments]

/-- A stage without `..` ends where it began or at a node that appears in data. -/
theorem mem_dataKinds_of_walkAlong (hx : x.schema.Coherent) (h : .parent ∉ segments)
    (hwalk : x.walkAlong target path home segments index c = .ok d) :
    d = c ∨ ∃ id, d = .node id ∧ x.schema.kind id ∈ Kind.dataKinds := by
  induction segments generalizing index c with
  | nil =>
    obtain rfl : c = d := by simpa [walkAlong, proceed] using hwalk
    exact .inl rfl
  | cons segment segments ih =>
    obtain ⟨hsegment, hsegments⟩ : segment ≠ .parent ∧ .parent ∉ segments := by
      simpa [eq_comm] using h
    rcases moves_cases x target path home index c hsegment with
      ⟨halt, hmoves⟩ | hmoves | ⟨id, name, hchild, hmoves⟩
    · simp [walkAlong_cons_of_error hmoves] at hwalk
    · rw [walkAlong_cons_of_ok hmoves] at hwalk
      exact ih hsegments hwalk
    · rw [walkAlong_cons_of_ok hmoves] at hwalk
      rcases ih hsegments hwalk with rfl | hkind
      · obtain ⟨p, k, hk, hslot⟩ := exists_slot_of_childAt hchild
        exact .inr ⟨id, rfl, (hx.kind_of_mem_slot p k id hslot).2 ▸ hk⟩
      · exact .inr hkind

/-! ### Two stages -/

theorem bind_eq_ok_iff {α β : Type} {r : Except Halt α} {f : α → Except Halt β} {b : β} :
    r.bind f = .ok b ↔ ∃ a, r = .ok a ∧ f a = .ok b := by
  rcases r with halt | a <;> simp [Except.bind]

/-- A path that is followed to a node has segments, a start, and a walk that ends at the node. -/
theorem exists_walk_of_followBy {origin : Position} {needsValue : Bool}
    (h : x.followBy target needsValue path home origin = .ok id) :
    path.segments ≠ [] ∧ ∃ start, x.startOf path home origin = .ok start ∧
      x.walk target path home start = .ok (.node id) := by
  have hsegments : path.segments ≠ [] := fun hnil ↦ by simp [followBy, hnil] at h
  rw [followBy_eq hsegments] at h
  obtain ⟨e, hwalk, harrive⟩ := bind_eq_ok_iff.1 h
  obtain ⟨start, hstart, hwalk⟩ := bind_eq_ok_iff.1 hwalk
  obtain ⟨rfl, -⟩ := arrive_eq_ok_iff.1 harrive
  exact ⟨hsegments, start, hstart, hwalk⟩

/-- The end of a stage that starts at a carrier or at a module is its own carrier. -/
theorem carrier_eq_self_of_followBy (hx : x.schema.Coherent) {origin : NodeId} {needsValue : Bool}
    (hup : .parent ∉ path.segments)
    (h : x.followBy target needsValue path home (.node (x.schema.carrier origin)) = .ok id) :
    x.schema.carrier id = id := by
  obtain ⟨-, start, hstart, hwalk⟩ := exists_walk_of_followBy h
  rcases mem_dataKinds_of_walkAlong hx hup hwalk with rfl | ⟨id', hid, hkind⟩
  · -- the stage has stayed where it started, which then is no module
    rw [startOf] at hstart
    split at hstart
    · split at hstart <;> simp at hstart
    · obtain rfl : x.schema.carrier origin = id := by simpa using hstart
      exact Schema.carrier_carrier hx.parent_lt origin
  · obtain rfl : id = id' := by simpa using hid
    refine Schema.carrier_eq_self fun htype ↦ ?_
    simp [htype, Kind.dataKinds] at hkind

section

variable {path₁ path₂ joined : Path} {home₁ home₂ : ModuleId} {origin : Position}
  {middle : NodeId}

/-- A path starts where its first stage starts. -/
theorem startOf_append (habsolute : joined.absolute = path₁.absolute)
    (happend : joined.segments = path₁.segments ++ path₂.segments) (hne : path₁.segments ≠ []) :
    x.startOf joined home origin = x.startOf path₁ home origin := by
  rw [startOf, startOf, habsolute, Path.leadingQualifier, Path.leadingQualifier, happend,
    List.head?_append_of_ne_nil _ hne]

/-- A walk that arrives does so whatever the path is called and from whatever number its segments
are counted. -/
theorem walkAlong_eq_ok (h : x.walkAlong target path₁ home segments index c = .ok d)
    (path₂ : Path) (index₂ : Nat) : x.walkAlong target path₂ home segments index₂ c = .ok d := by
  have hsame : List.Forall₂ (x.SameStep home home) segments segments :=
    List.forall₂_same.2 fun a _ ↦ SameStep.refl home a
  exact (walkAlong_alike target path₁ path₂ hsame index index₂ c).eq_ok_iff.1 h

/-- **Two stages.** A path whose first stage leads to a node leads on from there as its second stage
does when it is followed by itself. -/
theorem followBy_append (habsolute : joined.absolute = path₁.absolute)
    (happend : joined.segments = path₁.segments ++ path₂.segments)
    (hup : .parent ∉ path₁.segments)
    (hfirst : x.followBy target false path₁ home₁ origin = .ok middle)
    (hrelative : path₂.absolute = false) (hne : path₂.segments ≠ [])
    (hsame : List.Forall₂ (x.SameStep home₁ home₂) path₂.segments path₂.segments)
    (needsValue : Bool) :
    Alike (x.followBy target needsValue joined home₁ origin)
      (x.followBy target needsValue path₂ home₂ (.node middle)) := by
  obtain ⟨hne₁, start, hstart, hwalk⟩ := exists_walk_of_followBy hfirst
  have hjoined : joined.segments ≠ [] := by simp [happend, hne]
  have hmiddle : x.walkAlong target joined home₁ path₁.segments 0 start = .ok (.node middle) :=
    walkAlong_eq_ok hwalk joined 0
  have hstart₂ : x.startOf path₂ home₂ (.node middle) = .ok (.node middle) := by
    simp [startOf, hrelative]
  rw [followBy_eq hjoined, followBy_eq hne, startOf_append habsolute happend hne₁, hstart, hstart₂]
  simp only [Except.bind, walk_eq_walkAlong, happend]
  rw [walkAlong_append hup, hmiddle]
  exact (walkAlong_alike target joined path₂ hsame _ 0 (.node middle)).bind
    (arrive_alike joined path₂ needsValue)

end

/-- Steps without prefixes are the same whatever module the prefixes are looked up in. -/
theorem forall₂_sameStep_of_plain (home₁ home₂ : ModuleId)
    (h : ∀ name, .step name ∈ segments → name.qualifier = none) :
    List.Forall₂ (x.SameStep home₁ home₂) segments segments := by
  refine List.forall₂_same.2 fun a ha ↦ ⟨rfl, ?_⟩
  cases a with
  | current => exact Iff.rfl
  | parent => exact Iff.rfl
  | step name => simp [Reads, h name ha]

/-- **A path may be followed in two stages.** In every session that documents and requests lead to:
take two texts without opening brackets, the first without `..`, the second relative, with some
segment and without prefixes, and follow the first one from a node to another. Then the two texts
joined by a slash lead from the first node where the second text leads from the other one: to the
same node, or to a fault, or into a search that never ends, with or without a value being needed at
the end. -/
theorem followFrom_append {s : Schema} {docs : List Document}
    (hdocs : Schema.ofDocuments docs = .ok s) {policy : Policy} (hx : start s policy = .ok x)
    (requests : List Request) {p q : String} {origin middle : NodeId} (hp : '[' ∉ p.toList)
    (hq : '[' ∉ q.toList) (hup : .parent ∉ (Path.ofString p).segments)
    (hrelative : (Path.ofString q).absolute = false) (hsome : (Path.ofString q).segments ≠ [])
    (hplain : ∀ name, .step name ∈ (Path.ofString q).segments → name.qualifier = none)
    (hfirst : (x.performAll requests).followFrom false p origin = .ok middle)
    (needsValue : Bool) :
    Alike ((x.performAll requests).followFrom needsValue (p ++ "/" ++ q) origin)
      ((x.performAll requests).followFrom needsValue q middle) := by
  have hcoherent := coherent_performAll hdocs hx requests
  generalize x.performAll requests = y at hfirst hcoherent ⊢
  rw [followFrom_eq] at hfirst
  have hsegments : (Path.ofString p).segments ≠ [] := (exists_walk_of_followBy hfirst).1
  obtain ⟨habsolute, happend⟩ := Path.ofString_join hp hq hsegments
  -- by itself the second stage starts at a carrier, which is just the node in the middle
  have hcarrier : y.schema.carrier middle = middle :=
    carrier_eq_self_of_followBy hcoherent hup hfirst
  rw [followFrom_eq, followFrom_eq, hcarrier]
  exact followBy_append habsolute happend hup hfirst hrelative hsome
    (forall₂_sameStep_of_plain _ _ hplain) needsValue

/-- A box that is used in two places, of which an augment makes the second one wider. -/
def crated : List Document :=
  [.module
    { name := "shapes", ownPrefix := "s", space := "urn:s"
      body := [.block .grouping "crate" none [.block .container "box" none
        [.typed .leaf "size" none { name := "int8" }]]] },
   .module
    { name := "m", ownPrefix := "m", space := "urn:m", imports := [⟨"shapes", "s"⟩]
      body := [.block .container "left" none [.uses "s:crate"],
        .block .container "right" none [.uses "s:crate"],
        .augment "/m:right" none [.typed .leaf "width" none { name := "int8" }]] }]

/-- From the container on the right into the box, and out of it again to what the augment has
brought. The box stands in another module, and the container on the left is tried first. -/
theorem followFrom_append_crated :
    ∃ s x, Schema.ofDocuments crated = .ok s ∧ start s .strict = .ok x ∧
      (x.performAll [.augments ⟨1⟩]).followFrom false "box" ⟨6⟩ = .ok ⟨1⟩ ∧
      (x.performAll [.augments ⟨1⟩]).followFrom true "../width" ⟨1⟩ = .ok ⟨9⟩ ∧
      (x.performAll [.augments ⟨1⟩]).followFrom true "box/../width" ⟨6⟩ = .ok ⟨9⟩ := by
  obtain ⟨x, hx, hfirst, hsecond⟩ : ∃ x, start (Schema.ofBatch crated) .strict = .ok x ∧
      (x.performAll [.augments ⟨1⟩]).followFrom false "box" ⟨6⟩ = .ok ⟨1⟩ ∧
      (x.performAll [.augments ⟨1⟩]).followFrom true "../width" ⟨1⟩ = .ok ⟨9⟩ :=
    exists_ok_of_any (by decide +kernel)
  have hdocs : Schema.ofDocuments crated = .ok (Schema.ofBatch crated) :=
    Schema.ofDocuments_of_offences_eq_nil rfl
  have hbox : Path.ofString "box" = ⟨"box", false, [.step ⟨none, "box"⟩]⟩ := by decide +kernel
  have hwidth : Path.ofString "../width" =
      ⟨"../width", false, [.parent, .step ⟨none, "width"⟩]⟩ := by
    decide +kernel
  have halike := followFrom_append hdocs hx [.augments ⟨1⟩] (p := "box") (q := "../width")
    (by decide) (by decide) (by simp [hbox]) (by rw [hwidth]) (by simp [hwidth])
    (by simp [hwidth]) hfirst true
  exact ⟨_, x, hdocs, hx, hfirst, hsecond, halike.eq_ok_iff.2 hsecond⟩

end Session

end SchemaLink
