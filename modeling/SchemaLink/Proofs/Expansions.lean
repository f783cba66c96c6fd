import SchemaLink.Proofs.Contributions

/-!
# Expanding uses one after the other

To expand a list of uses is to take them in turn and to go all the way down from each: a `uses` that
refers to nothing fails, a grouping that has been opened is passed by, and any other one is opened,
which brings in its fields, and the uses in it are expanded before the next `uses` has its turn.
`Registry.Expands` says this by rules, with the groupings opened so far handed on from one `uses` to
the next.

**Expanding comes to an end, however groupings use each other**, since each is opened once, and what
comes out is what `Registry.expand` finds by a search over uses and groupings together
(`Registry.expands_iff`). The search tells uses apart as well, and passes by those that it has seen;
the rules do not. So what has to be shown is that no `uses` comes up twice: one that has not come up
is in the list at hand or in a grouping that has not been opened (`Registry.Ready`).
-/

namespace SchemaLink

open DepthFirst

variable {r : Registry} {s : Schema} {a g u id : NodeId} {us ids opened : List NodeId}
  {seen : List Nat} {n : Nat} {c d : Contribution}

/-! ### The rules -/

namespace Contribution

/-- What is brought in by one contribution and then by another. -/
protected def append (c d : Contribution) : Contribution :=
  ⟨c.groupings ++ d.groupings, c.fields ++ d.fields, c.failures ++ d.failures⟩

instance : Append Contribution := ⟨Contribution.append⟩

theorem append_assoc (c d e : Contribution) : c ++ d ++ e = c ++ (d ++ e) := by
  show Contribution.mk _ _ _ = Contribution.mk _ _ _
  congr 1 <;> exact List.append_assoc ..

end Contribution

/-- What opening a grouping brings in: the grouping and its fields. -/
def Schema.opening (s : Schema) (g : NodeId) : Contribution :=
  ⟨[g], (s.node g).children.fields Schema.fieldKinds, []⟩

namespace Registry

/-- Some uses are expanded in turn, where some groupings have been opened before. -/
inductive Expands (r : Registry) (s : Schema) :
    List NodeId → List NodeId → Contribution → Prop where
  | done {opened : List NodeId} : Expands r s opened [] ⟨[], [], []⟩
  /-- The first `uses` refers to nothing. -/
  | missed {opened us : List NodeId} {u : NodeId} {fault : Fault} {rest : Contribution}
      (hu : r.groupingOf s u = .error fault) (hrest : Expands r s opened us rest) :
      Expands r s opened (u :: us) (⟨[], [], [(u, fault)]⟩ ++ rest)
  /-- The grouping of the first `uses` has been opened. -/
  | passed {opened us : List NodeId} {u g : NodeId} {rest : Contribution}
      (hu : r.groupingOf s u = .ok g) (hg : g ∈ opened) (hrest : Expands r s opened us rest) :
      Expands r s opened (u :: us) rest
  /-- The grouping of the first `uses` is opened, and the uses in it come before the others. -/
  | entered {opened us : List NodeId} {u g : NodeId} {inner rest : Contribution}
      (hu : r.groupingOf s u = .ok g) (hg : g ∉ opened)
      (hinner : Expands r s (g :: opened) ((s.node g).children.slot .uses) inner)
      (hrest : Expands r s (inner.groupings ++ g :: opened) us rest) :
      Expands r s opened (u :: us) (s.opening g ++ inner ++ rest)

/-- **There is one way to expand uses.** -/
theorem Expands.unique (hc : r.Expands s opened us c) (hd : r.Expands s opened us d) : c = d := by
  induction hc generalizing d with
  | done => cases hd; rfl
  | missed hu _ ih =>
    cases hd with
    | missed hu' hrest' =>
      obtain rfl := Except.error.inj (hu.symm.trans hu')
      rw [ih hrest']
    | passed hu' | entered hu' => cases hu.symm.trans hu'
  | passed hu hg _ ih =>
    cases hd with
    | missed hu' => cases hu.symm.trans hu'
    | passed _ _ hrest' => exact ih hrest'
    | entered hu' hg' =>
      obtain rfl := Except.ok.inj (hu.symm.trans hu')
      exact absurd hg hg'
  | entered hu hg _ _ ihinner ihrest =>
    cases hd with
    | missed hu' => cases hu.symm.trans hu'
    | passed hu' hg' =>
      obtain rfl := Except.ok.inj (hu.symm.trans hu')
      exact absurd hg' hg
    | entered hu' _ hinner' hrest' =>
      obtain rfl := Except.ok.inj (hu.symm.trans hu')
      obtain rfl := ihinner hinner'
      rw [ihrest hrest']

/-! ### What the search gathers -/

/-- What the uses and groupings that a search comes to bring in. -/
def gathered (r : Registry) (s : Schema) (ids : List NodeId) : Contribution :=
  let groupings := ids.filter fun id ↦ s.kind id = .grouping
  { groupings
    fields := groupings.flatMap fun g ↦ (s.node g).children.fields Schema.fieldKinds
    failures := ids.filterMap (r.usesFault? s) }

theorem gathered_append (ids others : List NodeId) :
    r.gathered s (ids ++ others) = r.gathered s ids ++ r.gathered s others := by
  show Contribution.mk _ _ _ = Contribution.mk _ _ _
  simp [gathered]

theorem mem_groupings_gathered :
    g ∈ (r.gathered s ids).groupings ↔ g ∈ ids ∧ s.kind g = .grouping := by
  simp [gathered]

theorem gathered_cons_of_error (hu : s.kind u = .uses) {fault : Fault}
    (h : r.groupingOf s u = .error fault) :
    r.gathered s (u :: ids) = ⟨[], [], [(u, fault)]⟩ ++ r.gathered s ids := by
  show Contribution.mk _ _ _ = Contribution.mk _ _ _
  simp [gathered, hu, usesFault?, h]

theorem gathered_cons_of_ok (hu : s.kind u = .uses) (h : r.groupingOf s u = .ok g) :
    r.gathered s (u :: ids) = r.gathered s ids := by
  simp [gathered, hu, usesFault?, h]

theorem gathered_cons_of_grouping (hg : s.kind g = .grouping) :
    r.gathered s (g :: ids) = s.opening g ++ r.gathered s ids := by
  show Contribution.mk _ _ _ = Contribution.mk _ _ _
  simp [gathered, hg, usesFault?, Schema.opening]

theorem expansionStep_of_error (hu : s.kind u = .uses) {fault : Fault}
    (h : r.groupingOf s u = .error fault) : r.expansionStep s u = [] := by
  simp [expansionStep, hu, groupingOf?, h, Except.toOption]

theorem expansionStep_of_ok (hu : s.kind u = .uses) (h : r.groupingOf s u = .ok g) :
    r.expansionStep s u = [g] := by
  simp [expansionStep, hu, groupingOf?, h, Except.toOption]

theorem expansionStep_of_grouping (hg : s.kind g = .grouping) :
    r.expansionStep s g = (s.node g).children.slot .uses := by
  simp [expansionStep, hg]

/-! ### No use comes up twice -/

/-- How things stand when some uses are to be expanded. -/
structure Ready (s : Schema) (seen : List Nat) (opened us : List NodeId) : Prop where
  /-- The groupings that have been seen are those that have been opened. -/
  mem_opened_iff : ∀ g, s.kind g = .grouping → (g ∈ opened ↔ g.index ∈ seen)
  nodup : us.Nodup
  uses : ∀ u ∈ us, u.index < s.nodes.size ∧ s.kind u = .uses
  /-- None of the uses has been seen. -/
  fresh : ∀ u ∈ us, u.index ∉ seen
  /-- Nor has any in a grouping that has not been opened. -/
  untouched : ∀ g, s.kind g = .grouping → g ∉ opened →
    ∀ u ∈ s.declaredUnder (.node g) .uses, u.index ∉ seen ∧ u ∉ us

/-- Everything that is declared has one parent. -/
theorem eq_of_mem_declaredUnder {o o' : NodeId} {k k' : Kind}
    (h : id ∈ s.declaredUnder (.node o) k) (h' : id ∈ s.declaredUnder (.node o') k') : o = o' := by
  obtain ⟨-, hp, -⟩ := Schema.mem_declaredUnder.1 h
  obtain ⟨-, hp', -⟩ := Schema.mem_declaredUnder.1 h'
  exact Parent.node.inj (hp.symm.trans hp')

namespace Ready

theorem index_ne {u g : NodeId} (hu : s.kind u = .uses) (hg : s.kind g = .grouping) :
    u.index ≠ g.index := by
  intro h
  rw [nodeId_index_injective h, hg] at hu
  cases hu

/-- **The first use is done with.** -/
theorem tail (h : Ready s seen opened (u :: us)) : Ready s (u.index :: seen) opened us where
  mem_opened_iff := by
    intro g hg
    have hne := index_ne (h.uses u (by simp)).2 hg
    rw [h.mem_opened_iff g hg, List.mem_cons]
    exact ⟨.inr, fun hmem ↦ hmem.resolve_left hne.symm⟩
  nodup := (List.nodup_cons.1 h.nodup).2
  uses := fun v hv ↦ h.uses v (List.mem_cons_of_mem _ hv)
  fresh := by
    intro v hv hmem
    rcases List.mem_cons.1 hmem with heq | hmem
    · rw [nodeId_index_injective heq] at hv
      exact (List.nodup_cons.1 h.nodup).1 hv
    · exact h.fresh v (List.mem_cons_of_mem _ hv) hmem
  untouched := by
    intro g hg hopened v hv
    obtain ⟨hseen, hus⟩ := h.untouched g hg hopened v hv
    refine ⟨fun hmem ↦ ?_, fun hmem ↦ hus (List.mem_cons_of_mem _ hmem)⟩
    rcases List.mem_cons.1 hmem with heq | hmem
    · exact hus (by rw [nodeId_index_injective heq]; exact List.mem_cons_self)
    · exact hseen hmem

/-- **A grouping is opened**, and the uses in it are to be expanded. -/
theorem enter (h : Ready s seen opened us) (hs : s.Tidy) (hg : s.kind g = .grouping)
    (hopened : g ∉ opened) :
    Ready s (g.index :: seen) (g :: opened) ((s.node g).children.slot .uses) := by
  rw [hs.slot_eq rfl]
  have hne {u o : NodeId} (hu : u ∈ s.declaredUnder (.node o) .uses) : u.index ≠ g.index :=
    index_ne (Schema.mem_declaredUnder.1 hu).2.2 hg
  refine ⟨fun o ho ↦ ?_, s.nodup_declaredUnder _ _, fun u hu ↦ ?_, fun u hu hmem ↦ ?_,
    fun o ho hnot u hu ↦ ?_⟩
  · rw [List.mem_cons, List.mem_cons, h.mem_opened_iff o ho, nodeId_index_injective.eq_iff]
  · exact ⟨(Schema.mem_declaredUnder.1 hu).1, (Schema.mem_declaredUnder.1 hu).2.2⟩
  · exact (h.untouched g hg hopened u hu).1 ((List.mem_cons.1 hmem).resolve_left (hne hu))
  · obtain ⟨hog, ho'⟩ : o ≠ g ∧ o ∉ opened := by simpa using hnot
    refine ⟨fun hmem ↦ ?_, fun hmem ↦ hog (eq_of_mem_declaredUnder hu hmem)⟩
    exact (h.untouched o ho ho' u hu).1 ((List.mem_cons.1 hmem).resolve_left (hne hu))

end Ready

/-- A `uses` that is visited in the course of opening a grouping is in it or in another one that is
visited. -/
theorem exists_grouping_of_mem_visits (hs : s.Tidy) (hg : s.kind g = .grouping)
    (hu : s.kind u = .uses)
    (h : u ∈ visits NodeId.index s.nodes.size (r.expansionStep s) n seen
      ((s.node g).children.slot .uses)) :
    ∃ o, s.kind o = .grouping ∧ u ∈ s.declaredUnder (.node o) .uses ∧ (o = g ∨
      o ∈ visits NodeId.index s.nodes.size (r.expansionStep s) n seen
        ((s.node g).children.slot .uses)) := by
  rcases pending_or_next_of_mem_visits h with hmem | ⟨o, ho, hstep⟩
  · rw [hs.slot_eq rfl] at hmem
    exact ⟨g, hg, hmem, .inl rfl⟩
  · rcases (mem_expansionStep_iff hs).1 hstep with ⟨-, hgrouping⟩ | ⟨ho', hdeclared⟩
    · rw [hs.kind_of_groupingOf hgrouping] at hu
      cases hu
    · exact ⟨o, ho', hdeclared, .inr ho⟩

/-- **A grouping has been opened and everything in it has been expanded**, and it is the turn of the
other uses again. -/
theorem Ready.leave (h : Ready s seen opened us) (hs : s.Tidy) (hg : s.kind g = .grouping)
    (hopened : g ∉ opened) :
    let found := visits NodeId.index s.nodes.size (r.expansionStep s) n (g.index :: seen)
      ((s.node g).children.slot .uses)
    Ready s ((found.map NodeId.index).reverse ++ g.index :: seen)
      ((r.gathered s found).groupings ++ g :: opened) us := by
  intro found
  have hindex {id : NodeId} : id.index ∈ (found.map NodeId.index).reverse ++ g.index :: seen ↔
      id ∈ found ∨ id = g ∨ id.index ∈ seen := by
    simp [nodeId_index_injective.eq_iff]
  -- the grouping of a use that has been found had not been opened before
  have howner {u : NodeId} (hu : s.kind u = .uses) (hmem : u ∈ found) :
      ∃ o, s.kind o = .grouping ∧ o ∉ opened ∧ u ∈ s.declaredUnder (.node o) .uses ∧
        (o = g ∨ o ∈ found) := by
    obtain ⟨o, ho, hdeclared, rfl | hfound⟩ := exists_grouping_of_mem_visits hs hg hu hmem
    · exact ⟨o, ho, hopened, hdeclared, .inl rfl⟩
    · refine ⟨o, ho, fun hmem ↦ ?_, hdeclared, .inr hfound⟩
      exact number_not_mem_of_mem_visits hfound
        (List.mem_cons_of_mem _ ((h.mem_opened_iff o ho).1 hmem))
  refine ⟨fun o ho ↦ ?_, h.nodup, h.uses, fun u hu hmem ↦ ?_, fun o ho hnot u hu ↦ ?_⟩
  · rw [hindex, List.mem_append, mem_groupings_gathered, List.mem_cons, h.mem_opened_iff o ho]
    simp [ho]
  · rcases hindex.1 hmem with hfound | rfl | hseen
    · obtain ⟨o, ho, hnot, hdeclared, -⟩ := howner (h.uses u hu).2 hfound
      exact (h.untouched o ho hnot u hdeclared).2 hu
    · exact index_ne (h.uses u hu).2 hg rfl
    · exact h.fresh u hu hseen
  · obtain ⟨hfound, hog, hopened'⟩ : o ∉ found ∧ o ≠ g ∧ o ∉ opened := by
      simpa [mem_groupings_gathered, ho] using hnot
    obtain ⟨hseen, hus⟩ := h.untouched o ho hopened' u hu
    refine ⟨fun hmem ↦ ?_, hus⟩
    have hkind := (Schema.mem_declaredUnder.1 hu).2.2
    rcases hindex.1 hmem with hmem | rfl | hmem
    · obtain ⟨o', -, -, hdeclared, hor⟩ := howner hkind hmem
      obtain rfl := eq_of_mem_declaredUnder hu hdeclared
      exact hor.elim hog hfound
    · exact index_ne hkind hg rfl
    · exact hseen hmem

/-! ### The search is the recursion -/

theorem expand_eq_gathered (r : Registry) (s : Schema) (uses : List NodeId) :
    r.expand s uses =
      r.gathered s (search NodeId.index s.nodes.size (r.expansionStep s) uses) := rfl

/-- **The search does what the rules say.** The induction is on the number of nodes that have not
been seen, since every `uses` that has its turn is seen then. -/
theorem Ready.expands (hs : s.Tidy) (h : Ready s seen opened us)
    (hn : unseenCount s.nodes.size seen ≤ n) :
    r.Expands s opened us
      (r.gathered s (visits NodeId.index s.nodes.size (r.expansionStep s) n seen us)) := by
  induction hcount : unseenCount s.nodes.size seen using Nat.strongRecOn
    generalizing seen opened us with
  | _ count ih =>
    subst hcount
    cases us with
    | nil =>
      have hnone : visits NodeId.index s.nodes.size (r.expansionStep s) n seen [] = [] := by
        cases n <;> rfl
      rw [hnone]
      exact .done
    | cons u us =>
      obtain ⟨husize, hkind⟩ := h.uses u List.mem_cons_self
      have hufresh := h.fresh u List.mem_cons_self
      have hlt := unseenCount_cons_lt husize hufresh
      have htail := h.tail
      rw [visits_cons hn husize hufresh]
      rcases hu : r.groupingOf s u with fault | g
      · rw [expansionStep_of_error hkind hu, List.nil_append, gathered_cons_of_error hkind hu]
        exact .missed hu (ih _ hlt htail (by omega) rfl)
      · have hg := hs.kind_of_groupingOf hu
        rw [expansionStep_of_ok hkind hu, List.singleton_append, gathered_cons_of_ok hkind hu]
        by_cases hopened : g ∈ opened
        · have hstale : stale NodeId.index s.nodes.size (u.index :: seen) g = true := by
            simp [stale, (htail.mem_opened_iff g hg).1 hopened]
          rw [visits_cons_of_stale hstale]
          exact .passed hu hopened (ih _ hlt htail (by omega) rfl)
        · have hgsize : g.index < s.nodes.size := Schema.index_lt_of_kind_ne_uses (by simp [hg])
          have hgfresh : g.index ∉ u.index :: seen := fun hmem ↦
            hopened ((htail.mem_opened_iff g hg).2 hmem)
          have hglt := unseenCount_cons_lt hgsize hgfresh
          -- first what is in the grouping, and then, with all that has been seen, the other uses
          rw [visits_cons (by omega) hgsize hgfresh, expansionStep_of_grouping hg,
            visits_append (by omega), gathered_cons_of_grouping hg, gathered_append,
            ← Contribution.append_assoc]
          have hinner := ih _ (by omega) (htail.enter hs hg hopened) (by omega) rfl
          have hleave : unseenCount s.nodes.size
              (((visits NodeId.index s.nodes.size (r.expansionStep s) n
                (g.index :: u.index :: seen) ((s.node g).children.slot .uses)).map
                  NodeId.index).reverse ++ g.index :: u.index :: seen) ≤
                unseenCount s.nodes.size (g.index :: u.index :: seen) :=
            unseenCount_append_le _ _
          exact .entered hu hopened hinner
            (ih _ (by omega) (htail.leave hs hg hopened) (by omega) rfl)

/-- At the start nothing has been opened. An augment is no grouping, so its uses are in none. -/
theorem ready_of_augment (hs : s.Tidy) (ha : s.kind a = .augment) :
    Ready s [] [] ((s.node a).children.slot .uses) := by
  rw [hs.slot_eq rfl]
  refine ⟨by simp, s.nodup_declaredUnder _ _, fun u hu ↦ ?_, by simp, fun g hg _ u hu ↦ ?_⟩
  · exact ⟨(Schema.mem_declaredUnder.1 hu).1, (Schema.mem_declaredUnder.1 hu).2.2⟩
  · refine ⟨List.not_mem_nil, fun hmem ↦ ?_⟩
    rw [eq_of_mem_declaredUnder hu hmem, ha] at hg
    cases hg

/-- **Expanding the uses of an augment comes to an end**, in one way. -/
theorem expands_iff (hs : s.Tidy) (ha : s.kind a = .augment) :
    r.Expands s [] ((s.node a).children.slot .uses) c ↔
      c = r.expand s ((s.node a).children.slot .uses) := by
  have hexpands : r.Expands s [] ((s.node a).children.slot .uses)
      (r.expand s ((s.node a).children.slot .uses)) := by
    rw [expand_eq_gathered, search]
    exact (ready_of_augment hs ha).expands hs (unseenCount_le _ _)
  exact ⟨fun h ↦ h.unique hexpands, fun h ↦ h ▸ hexpands⟩

theorem fields_expand (hs : s.Tidy) (uses : List NodeId) :
    (r.expand s uses).fields = (r.expand s uses).groupings.flatMap fun g ↦
      Schema.fieldKinds.flatMap fun k ↦ (s.declaredUnder (.node g) k).map (k, ·) := by
  refine List.flatMap_congr fun g _ ↦ List.flatMap_congr fun k hk ↦ ?_
  rw [hs.slot_eq (collected_of_mem_fieldKinds hk)]

theorem nodup_groupings_expand (r : Registry) (s : Schema) (uses : List NodeId) :
    (r.expand s uses).groupings.Nodup :=
  nodup_search.filter _

/-- **No field is brought in twice**: a grouping has each of its fields once, and no field stands in
two groupings. -/
theorem nodup_fields_expand (hs : s.Tidy) (uses : List NodeId) :
    (r.expand s uses).fields.Nodup := by
  have hone (g : NodeId) : (Schema.fieldKinds.flatMap fun k ↦
      (s.declaredUnder (.node g) k).map (k, ·)).Nodup := by
    refine List.nodup_flatMap.2 ⟨fun k _ ↦ ?_, ?_⟩
    · exact (s.nodup_declaredUnder _ _).map fun _ _ h ↦ (Prod.mk.inj h).2
    · have hkinds : Schema.fieldKinds.Nodup := by decide
      refine hkinds.imp fun {k k'} hne f hf hf' ↦ ?_
      obtain ⟨id, -, rfl⟩ := List.mem_map.1 hf
      obtain ⟨id', -, h⟩ := List.mem_map.1 hf'
      exact hne (Prod.mk.inj h).1.symm
  rw [fields_expand hs]
  refine List.nodup_flatMap.2 ⟨fun g _ ↦ hone g, ?_⟩
  refine (nodup_groupings_expand r s uses).imp fun {g g'} hne f hf hf' ↦ ?_
  obtain ⟨k, -, hk⟩ := List.mem_flatMap.1 hf
  obtain ⟨k', -, hk'⟩ := List.mem_flatMap.1 hf'
  obtain ⟨id, hid, rfl⟩ := List.mem_map.1 hk
  obtain ⟨id', hid', h⟩ := List.mem_map.1 hk'
  obtain ⟨rfl, rfl⟩ := Prod.mk.inj h
  exact hne (eq_of_mem_declaredUnder hid hid')

/-- **Expanding the uses of an augment misses nothing and repeats nothing.** In a lowered schema,
whatever is registered and however groupings use each other: expanding them in turn comes to an end,
in one way. It opens the groupings that the augment brings in, each once; it brings in the fields
declared in these, grouping by grouping, each once; and it fails once for each `uses` in the augment
or in such a grouping that refers to nothing, with the fault of that reference. -/
theorem expand_exhaustive {docs : List Document} (hdocs : Schema.ofDocuments docs = .ok s)
    (r : Registry) (ha : s.kind a = .augment) :
    let uses := (s.node a).children.slot .uses
    let added := r.expand s uses
    (∀ c, r.Expands s [] uses c ↔ c = added) ∧
    (added.groupings.Nodup ∧ ∀ g, g ∈ added.groupings ↔ r.Brings s a g) ∧
    (added.fields = added.groupings.flatMap (fun g ↦
        Schema.fieldKinds.flatMap fun k ↦ (s.declaredUnder (.node g) k).map (k, ·)) ∧
      added.fields.Nodup ∧ ∀ k id, (k, id) ∈ added.fields ↔
        k ∈ Schema.fieldKinds ∧ ∃ g, r.Brings s a g ∧ id ∈ s.declaredUnder (.node g) k) ∧
    (added.failures.map Prod.fst).Nodup ∧
      ∀ u fault, (u, fault) ∈ added.failures ↔ r.Misses s a u fault := by
  intro uses added
  have hs := Schema.tidy_of_ofDocuments hdocs
  refine ⟨fun c ↦ expands_iff hs ha, ⟨nodup_groupings_expand r s uses, fun g ↦ ?_⟩,
    ⟨fields_expand hs uses, nodup_fields_expand hs uses, fun k id ↦ ?_⟩, ?_, fun u fault ↦ ?_⟩
  · exact mem_groupings_expand_iff hs
  · exact mem_fields_expand_iff hs
  · exact nodup_failures_expand r s a
  · exact mem_failures_expand_iff hs

/-- Three groupings that use each other in a circle through two modules, one of them itself as well.
An augment uses two of them, one of these twice, and a prefix that is not bound. -/
def knotted : List Document :=
  [.module
    { name := "m", ownPrefix := "m", space := "urn:m"
      imports := [{ module := "n", localPrefix := "far" }]
      body := [
        .block .grouping "loop" none
          [.uses "loop", .typed .leaf "size" none { name := "string" }, .uses "far:lid"],
        .block .grouping "rest" none
          [.uses "m:loop", .uses "gone", .block .notification "alarm" none [],
            .block .choice "form" none [.uses "gone"]],
        .block .container "top" none [],
        .augment "/m:top" none
          [.uses "rest", .uses "loop", .block .container "box" none [], .uses "rest",
            .uses "k:lid"]] },
   .module
    { name := "n", ownPrefix := "n", space := "urn:n"
      imports := [{ module := "m", localPrefix := "near" }]
      body := [
        .block .grouping "lid" none
          [.uses "near:rest", .block .list "line" none [], .block .container "case" none []]] }]

/-- Each of the three groupings is opened once, `rest` first. Its own missing grouping is noted, but
not the one that a choice in it uses. -/
theorem expand_exhaustive_knotted :
    ∃ s r, Schema.ofDocuments knotted = .ok s ∧ ofSchema s = .ok r ∧ s.kind ⟨12⟩ = .augment ∧
      r.Expands s [] [⟨13⟩, ⟨14⟩, ⟨16⟩, ⟨17⟩]
        { groupings := [⟨5⟩, ⟨0⟩, ⟨18⟩]
          fields := [(.choice, ⟨9⟩), (.leaf, ⟨2⟩), (.container, ⟨21⟩), (.list, ⟨20⟩)]
          failures := [(⟨7⟩, .unresolvedGrouping "gone" "m"), (⟨17⟩, .unknownPrefix "k" "m")] } ∧
      r.Brings s ⟨12⟩ ⟨18⟩ := by
  obtain ⟨r, hr, hgroupings, hfields, hfailures⟩ :
      ∃ r, ofSchema (Schema.ofBatch knotted) = .ok r ∧
        let added := r.expand (Schema.ofBatch knotted) [⟨13⟩, ⟨14⟩, ⟨16⟩, ⟨17⟩]
        added.groupings = [⟨5⟩, ⟨0⟩, ⟨18⟩] ∧
          added.fields = [(.choice, ⟨9⟩), (.leaf, ⟨2⟩), (.container, ⟨21⟩), (.list, ⟨20⟩)] ∧
          added.failures =
            [(⟨7⟩, .unresolvedGrouping "gone" "m"), (⟨17⟩, .unknownPrefix "k" "m")] :=
    exists_ok_of_any (by decide +kernel)
  have hdocs : Schema.ofDocuments knotted = .ok (Schema.ofBatch knotted) :=
    Schema.ofDocuments_of_offences_eq_nil rfl
  have ha : (Schema.ofBatch knotted).kind ⟨12⟩ = .augment := rfl
  obtain ⟨hexpands, ⟨-, hbrings⟩, -⟩ := expand_exhaustive hdocs r ha
  refine ⟨_, r, hdocs, hr, ha, ?_, (hbrings ⟨18⟩).1 ?_⟩
  · rw [← hgroupings, ← hfields, ← hfailures]
    exact (hexpands _).2 rfl
  · exact hgroupings ▸ by decide

end Registry

end SchemaLink
