import SchemaLink.Proofs.Distinct
import SchemaLink.Proofs.Enrichment
import SchemaLink.Proofs.Walks

/-!
# Which end counts

A path may lead to many ends: `..` has an anchor for every place of use. A walk settles on one of
them. `Session.FirstEnd` says by rules which: `..` moves to the **first** anchor, in the order in
which they are found, from which the rest of the path leads anywhere. What it leads to does not
matter at that point.

Whether an end is any good, a node and not a module and, if a value is asked for, a node that holds
one, is asked about that one end only. **A path that leads somewhere is followed exactly if its
first end is acceptable.** An acceptable end at a later place of use is masked by an earlier one
that is not.

The walk advances all journeys in one front. The first member of the front at the end comes from the
first member of the front at the beginning from which anything is left (`head?_proceed`);
repetitions that are dropped on the way do not change which one that is.
-/

namespace SchemaLink

theorem findSome?_flatMap {α β γ : Type} (f : β → Option γ) (g : α → List β) (as : List α) :
    (as.flatMap g).findSome? f = as.findSome? fun a ↦ (g a).findSome? f := by
  induction as with
  | nil => rfl
  | cons a as ih =>
    rw [List.flatMap_cons, List.findSome?_append, ih, List.findSome?_cons]
    cases (g a).findSome? f <;> rfl

namespace Session

/-- The first of the ends to which the segments of a path lead from a position. -/
inductive FirstEnd (x : Session) (target : TargetFinder) (home : ModuleId) :
    List Segment → Position → Position → Prop where
  | nil (c : Position) : FirstEnd x target home [] c c
  | current {rest : List Segment} {c e : Position} (others : FirstEnd x target home rest c e) :
      FirstEnd x target home (.current :: rest) c e
  | step {q : QName} {rest : List Segment} {c d e : Position}
      (first : x.Moves target home (.step q) c d) (others : FirstEnd x target home rest d e) :
      FirstEnd x target home (.step q :: rest) c e
  /-- Nothing is at the end of the path for the anchors that are found before. -/
  | parent {id : NodeId} {before after : List Position} {rest : List Segment} {d e : Position}
      (first : x.anchors target (x.schema.node id).parent = .ok (before ++ d :: after))
      (idle : ∀ b ∈ before, ∀ e', ¬ x.Follows target home rest b e')
      (others : FirstEnd x target home rest d e) :
      FirstEnd x target home (.parent :: rest) (.node id) e

/-- The end of a path is a node and, if a value is asked for, holds one. -/
def Acceptable (x : Session) (needsValue : Bool) : Position → Prop
  | .top _ => False
  | .node id => needsValue = true → (x.schema.kind id).holdsValue = true

variable {x : Session} {target : TargetFinder} {path : Path} {home : ModuleId} {index : Nat}
  {segment : Segment} {segments rest : List Segment} {front : List (Option Position)}
  {c d e : Position}

theorem arrive_eq_ok_iff {needsValue : Bool} {id : NodeId} :
    x.arrive needsValue path home c = .ok id ↔ c = .node id ∧ x.Acceptable needsValue c := by
  cases c with
  | top m => simp [arrive]
  | node id' =>
    simp only [arrive, Acceptable]
    split <;> grind

/-! ### The front, member by member -/

theorem findSome?_advance {β : Type} (f : Option Position → Option β) :
    (x.advance target path home index segment front).findSome? f =
      front.findSome? fun c ↦ (x.advance target path home index segment [c]).findSome? f := by
  simp only [advance, Distinct.findSome?_eraseDups, findSome?_flatMap, List.flatMap_cons,
    List.flatMap_nil, List.append_nil]

/-- **What is left first** comes from the first member of the front from which anything is left. -/
theorem head?_proceed :
    (x.proceed target path home segments index front).head? =
      front.findSome? fun c ↦ (x.proceed target path home segments index [c]).head? := by
  induction segments generalizing index front with
  | nil => cases front <;> rfl
  | cons segment rest ih =>
    simp only [proceed]
    rw [ih, findSome?_advance]
    simp only [← ih]

theorem proceed_none : x.proceed target path home segments index [none] = [none] := by
  induction segments generalizing index with
  | nil => rfl
  | cons segment rest ih => simpa [proceed, advance, List.eraseDups_cons] using ih

theorem head?_proceed_cons :
    (x.proceed target path home (segment :: rest) index [some c]).head? =
      match x.moves target path home index c segment with
      | .ok found =>
        found.findSome? fun d ↦ (x.proceed target path home rest (index + 1) [some d]).head?
      | .error (.fault _) => none
      | .error .unending => some none := by
  rw [proceed, head?_proceed]
  simp only [advance, Distinct.findSome?_eraseDups, List.flatMap_cons, List.flatMap_nil,
    List.append_nil]
  rcases x.moves target path home index c segment with (cause | -) | found
  · rfl
  · simp [proceed_none]
  · simp [List.findSome?_map, Function.comp_def]

/-! ### First ends -/

section

variable (hx : x.schema.Grounded) (hpos : 0 < x.schema.parentBound)
include hx hpos

theorem follows_of_mem_proceed
    (h : some d ∈ x.proceed target path home segments index [some c]) :
    x.Follows target home segments c d := by
  obtain ⟨b, hb, hfollows⟩ := exists_follows_of_mem_proceed hx hpos h
  obtain rfl : b = c := by simpa using hb
  exact hfollows

/-- The first end is one of the ends. -/
theorem FirstEnd.follows (h : x.FirstEnd target home segments c e) :
    x.Follows target home segments c e := by
  induction h with
  | nil c => exact .nil c
  | current _ ih => exact .cons (.current _) ih
  | step first _ ih => exact .cons first ih
  | @parent id before after rest d e first _ _ ih =>
    have hd : x.Anchor target (x.schema.node id).parent d :=
      (mem_anchors_iff hx hpos (hx.number_parent_lt hpos id) first).1 (by simp)
    exact .cons (.parent hd) ih

/-- There is no more than one first end. -/
theorem FirstEnd.unique {e' : Position} (h : x.FirstEnd target home segments c e)
    (h' : x.FirstEnd target home segments c e') : e = e' := by
  induction h with
  | nil c =>
    cases h'
    rfl
  | current _ ih =>
    cases h' with
    | current others => exact ih others
  | step first _ ih =>
    cases h' with
    | step first' others =>
      cases first with
      | step _ hchild =>
        cases first' with
        | step _ hchild' =>
          obtain rfl : _ = _ := by simpa using hchild.symm.trans hchild'
          exact ih others
  | @parent id before after rest d e first idle others ih =>
    cases h' with
    | @parent _ before' after' _ d' _ first' idle' others' =>
      have hfound : before ++ d :: after = before' ++ d' :: after' := by
        simpa using first.symm.trans first'
      -- each of the two ends rules out that its anchor comes before the other one
      have hd : d ∉ before' := fun hmem ↦ idle' d hmem e (others.follows hx hpos)
      have hd' : d' ∉ before := fun hmem ↦ idle d' hmem e' (others'.follows hx hpos)
      rcases List.append_eq_append_iff.1 hfound with ⟨between, rfl, htail⟩ | ⟨between, rfl, htail⟩
      · cases between with
        | nil =>
          obtain ⟨rfl, -⟩ : d = d' ∧ after = after' := by simpa using htail
          exact ih others'
        | cons b between =>
          obtain ⟨rfl, -⟩ : d = b ∧ after = between ++ d' :: after' := by simpa using htail
          simp at hd
      · cases between with
        | nil =>
          obtain ⟨rfl, -⟩ : d' = d ∧ after' = after := by simpa using htail
          exact ih others'
        | cons b between =>
          obtain ⟨rfl, -⟩ : d' = b ∧ after' = between ++ d :: after := by simpa using htail
          simp at hd'

/-- **Step.** The first of the positions a segment leads to from which the rest leads anywhere. -/
theorem FirstEnd.cons {before after : List Position}
    (h : x.moves target path home index c segment = .ok (before ++ d :: after))
    (idle : ∀ b ∈ before, ∀ e', ¬ x.Follows target home rest b e')
    (others : x.FirstEnd target home rest d e) :
    x.FirstEnd target home (segment :: rest) c e := by
  cases segment with
  | current =>
    have hd := (mem_moves_iff hx hpos h (d := d)).1 (by simp)
    cases hd
    exact .current others
  | step q => exact .step ((mem_moves_iff hx hpos h).1 (by simp)) others
  | parent =>
    cases c with
    | top m => simp [moves, parentsAt] at h
    | node id =>
      simp only [moves, parentsAt] at h
      split at h
      · simp at h
      · simp at h
      · next found _ hanchors =>
        obtain rfl : found = _ := by simpa using h
        exact .parent hanchors idle others

/-- **Run.** What is left first of a journey is its first end. -/
theorem firstEnd_of_head?_proceed
    (h : (x.proceed target path home segments index [some c]).head? = some (some e)) :
    x.FirstEnd target home segments c e := by
  induction segments generalizing index c with
  | nil =>
    obtain rfl : c = e := by simpa [proceed] using h
    exact .nil c
  | cons segment rest ih =>
    rw [head?_proceed_cons] at h
    rcases hmoves : x.moves target path home index c segment with (cause | -) | found
    · simp [hmoves] at h
    · simp [hmoves] at h
    · simp only [hmoves] at h
      obtain ⟨before, d, after, rfl, hd, hbefore⟩ := List.findSome?_eq_some_iff.1 h
      refine .cons hx hpos hmoves (fun b hb e' hfollows ↦ ?_) (ih hd)
      have hempty := List.head?_eq_none_iff.1 (hbefore b hb)
      have := mem_proceed_of_follows hx hpos path (index + 1) (List.mem_singleton.2 rfl) hfollows
      simp [hempty] at this

end

theorem walk_eq_ok_iff :
    x.walk target path home c = .ok e ↔
      (x.proceed target path home path.segments 0 [some c]).head? = some (some e) := by
  unfold walk
  split <;> simp_all

/-- **Which end counts.** In a session whose handles denote something, along a path that leads
somewhere: there is a first end, and the path is followed exactly if that end is acceptable, and
then to that end. Other ends have no say. -/
theorem followBy_ok_iff_firstEnd (hx : x.schema.Grounded) {origin : Position}
    (horigin : x.schema.HasPosition origin) {needsValue : Bool}
    (hends : x.followBy x.targetOf needsValue path home origin ≠ .error .unending)
    (hsegments : path.segments ≠ []) {start : Position}
    (hstart : x.startOf path home origin = .ok start)
    (hleads : ∃ e, x.Follows x.targetOf home path.segments start e) :
    (∃ first, x.FirstEnd x.targetOf home path.segments start first) ∧
      ∀ first, x.FirstEnd x.targetOf home path.segments start first →
        ∀ id, x.followBy x.targetOf needsValue path home origin = .ok id ↔
          first = .node id ∧ x.Acceptable needsValue first := by
  have hpos := hx.parentBound_pos horigin
  -- the walk comes to an answer, and since the path leads somewhere that is an end
  obtain ⟨e, hwalk⟩ : ∃ e, x.walk x.targetOf path home start = .ok e := by
    obtain ⟨e, hfollows⟩ := hleads
    have hmem := mem_proceed_of_follows hx hpos path 0 (List.mem_singleton.2 rfl) hfollows
    rcases hfront : x.proceed x.targetOf path home path.segments 0 [some start] with
      - | ⟨- | e', others⟩
    · simp [hfront] at hmem
    · simp [followBy, hsegments, hstart, walk, hfront] at hends
    · exact ⟨e', walk_eq_ok_iff.2 (by rw [hfront]; rfl)⟩
  have hfirst := firstEnd_of_head?_proceed hx hpos (walk_eq_ok_iff.1 hwalk)
  refine ⟨⟨e, hfirst⟩, fun first hfirst' id ↦ ?_⟩
  obtain rfl := hfirst.unique hx hpos hfirst'
  simp [followBy, hsegments, hstart, hwalk, arrive_eq_ok_iff]

/-- A grouping is used in a container without a node `size`, in one in which that is a container,
and in one in which it is a leaf. -/
def masked : List Document :=
  [.module
    { name := "m", ownPrefix := "m", space := "urn:m"
      body := [
        .block .grouping "part" none
          [.typed .leaf "ref" none { name := "leafref", path := some "../size" }],
        .block .container "bare" none [.uses "part"],
        .block .container "broad" none [.block .container "size" none [], .uses "part"],
        .block .container "fine" none
          [.typed .leaf "size" none { name := "string" }, .uses "part"]] }]

theorem grounded_masked {policy : Policy}
    (hx : start (Schema.ofBatch masked) policy = .ok x) :
    x.schema.Grounded ∧ x.schema.HasPosition (.node ⟨1⟩) := by
  have hdocs : Schema.ofDocuments masked = .ok (Schema.ofBatch masked) :=
    Schema.ofDocuments_of_offences_eq_nil rfl
  have hs := Schema.tidy_of_ofDocuments hdocs
  have henriched := enriched_start hs hx
  refine ⟨henriched.grounded hs, ?_⟩
  show 1 < x.schema.nodes.size
  rw [(henriched.keepsDeclarations hs).size_eq]
  decide +kernel

/-- The first place of use leads nowhere, and whatever is found at the second one counts. -/
theorem followBy_ok_iff_firstEnd_masked :
    ∃ s x, Schema.ofDocuments masked = .ok s ∧ start s .strict = .ok x ∧
      x.followBy x.targetOf false (Path.ofString "../size") ⟨0⟩ (.node ⟨1⟩) = .ok ⟨6⟩ ∧
      x.FirstEnd x.targetOf ⟨0⟩ (Path.ofString "../size").segments (.node ⟨1⟩) (.node ⟨6⟩) := by
  have hanswers : (start (Schema.ofBatch masked) .strict).toOption.map
      (fun x ↦
        (decide (some (.node ⟨6⟩) ∈ x.proceed x.targetOf (Path.ofString "../size") ⟨0⟩
            (Path.ofString "../size").segments 0 [some (.node ⟨1⟩)]),
          x.followBy x.targetOf false (Path.ofString "../size") ⟨0⟩ (.node ⟨1⟩))) =
      some (true, .ok ⟨6⟩) := by
    decide +kernel
  obtain ⟨x, hx, hanswers⟩ := Option.map_eq_some_iff.1 hanswers
  obtain ⟨hend, hfollowed⟩ := Prod.mk.inj hanswers
  have hstart := toOption_eq_some_iff.1 hx
  obtain ⟨hground, horigin⟩ := grounded_masked hstart
  have hleads := follows_of_mem_proceed hground (hground.parentBound_pos horigin)
    (of_decide_eq_true hend)
  obtain ⟨⟨first, hfirst⟩, hcounts⟩ := followBy_ok_iff_firstEnd hground horigin
    (by rw [hfollowed]; simp) (by decide +kernel) rfl ⟨_, hleads⟩
  obtain ⟨rfl, -⟩ := (hcounts first hfirst ⟨6⟩).1 hfollowed
  exact ⟨_, x, Schema.ofDocuments_of_offences_eq_nil rfl, hstart, hfollowed, hfirst⟩

/-- **An acceptable end may be masked** by an end at an earlier place of use that is not acceptable:
the path leads to the leaf, but is not followed. -/
theorem not_followed_masked :
    ∃ s x, Schema.ofDocuments masked = .ok s ∧ start s .strict = .ok x ∧
      x.Follows x.targetOf ⟨0⟩ (Path.ofString "../size").segments (.node ⟨1⟩) (.node ⟨9⟩) ∧
      x.Acceptable true (.node ⟨9⟩) ∧
      x.followFrom true "../size" ⟨1⟩ =
        .error (.fault (.unresolvedPath "../size" 1 "size" ".." "m"
          "resolves to a container, not a leaf")) := by
  have hanswers : (start (Schema.ofBatch masked) .strict).toOption.map
      (fun x ↦
        (decide (some (.node ⟨9⟩) ∈ x.proceed x.targetOf (Path.ofString "../size") ⟨0⟩
            (Path.ofString "../size").segments 0 [some (.node ⟨1⟩)]),
          (x.schema.kind ⟨9⟩).holdsValue, x.followFrom true "../size" ⟨1⟩)) =
      some (true, true, .error (.fault (.unresolvedPath "../size" 1 "size" ".." "m"
        "resolves to a container, not a leaf"))) := by
    decide +kernel
  obtain ⟨x, hx, hanswers⟩ := Option.map_eq_some_iff.1 hanswers
  obtain ⟨hend, hchecks⟩ := Prod.mk.inj hanswers
  obtain ⟨hvalue, hfault⟩ := Prod.mk.inj hchecks
  have hstart := toOption_eq_some_iff.1 hx
  obtain ⟨hground, horigin⟩ := grounded_masked hstart
  have hleads := follows_of_mem_proceed hground (hground.parentBound_pos horigin)
    (of_decide_eq_true hend)
  exact ⟨_, x, Schema.ofDocuments_of_offences_eq_nil rfl, hstart, hleads, fun _ ↦ hvalue, hfault⟩

end Session

end SchemaLink
