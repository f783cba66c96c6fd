import SchemaLink.Proofs.Coherence
import SchemaLink.Proofs.Contributions

/-!
# The grouping that a reference denotes

A `uses` refers to a grouping by a name, which may have a prefix. The prefix decides which module is
looked into: the own one, if there is none or it is the own prefix, and else the registered module
that the first import with that prefix names (`Registry.Denotes`). In its own module a `uses` sees
the grouping of the name that comes first in the innermost node around it that declares any
(`Schema.Nearest`), before or behind the `uses`. **The nodes around it count for the own module
only.** There they come before the top level; in any other module the top level is all there is
(`Schema.Sees`).

`Registry.groupingOf` climbs from node to node and takes the first that it finds. In a lowered
schema this is the grouping that is seen, and there is a fault exactly if the prefix denotes nothing
or no grouping is seen (`Registry.groupingOf_seen`).
-/

namespace SchemaLink

variable {r : Registry} {s : Schema} {home m : ModuleId} {id g p q u : NodeId}
  {name written : String} {fault : Fault}

/-- An element is the first of a list that has a property. -/
def IsFirst {α : Type} (P : α → Prop) (as : List α) (a : α) : Prop :=
  ∃ before after, as = before ++ a :: after ∧ P a ∧ ∀ b ∈ before, ¬ P b

theorem find?_eq_some_iff_isFirst {α : Type} {P : α → Prop} [DecidablePred P] {as : List α}
    {a : α} : as.find? (fun a ↦ decide (P a)) = some a ↔ IsFirst P as a := by
  simp only [List.find?_eq_some_iff_append, IsFirst, decide_eq_true_eq, Bool.not_eq_true',
    decide_eq_false_iff_not]
  constructor
  · rintro ⟨ha, before, after, has, hbefore⟩
    exact ⟨before, after, has, ha, hbefore⟩
  · rintro ⟨before, after, has, ha, hbefore⟩
    exact ⟨ha, before, after, has, hbefore⟩

/-- What an answer is can be read off two descriptions, one of results and one of faults, if each
says what it is and one of them always applies. -/
theorem eq_iff_of_exhaustive {ε α : Type} {answer : Except ε α} {P : α → Prop} {Q : ε → Prop}
    (hok : ∀ a, P a → answer = .ok a) (herror : ∀ e, Q e → answer = .error e)
    (htotal : (∃ a, P a) ∨ ∃ e, Q e) :
    (∀ a, answer = .ok a ↔ P a) ∧ ∀ e, answer = .error e ↔ Q e := by
  rcases htotal with ⟨a, ha⟩ | ⟨e, he⟩
  · refine ⟨fun a' ↦ ⟨fun h ↦ ?_, hok a'⟩, fun e ↦ ⟨fun h ↦ ?_, herror e⟩⟩
    · rwa [← Except.ok.inj ((hok a ha).symm.trans h)]
    · cases (hok a ha).symm.trans h
  · refine ⟨fun a ↦ ⟨fun h ↦ ?_, hok a⟩, fun e' ↦ ⟨fun h ↦ ?_, herror e'⟩⟩
    · cases (herror e he).symm.trans h
    · rwa [← Except.error.inj ((herror e he).symm.trans h)]

/-! ### Prefixes -/

namespace Registry

/-- A prefix denotes the module in which it is written, or a registered one that is imported. -/
inductive Denotes (r : Registry) (s : Schema) (home : ModuleId) (written : String) :
    ModuleId → Prop where
  | own (hown : written = "" ∨ written = (s.module home).ownPrefix) : Denotes r s home written home
  | imported {i : Import} {m : ModuleId}
      (hother : ¬ (written = "" ∨ written = (s.module home).ownPrefix))
      (hi : IsFirst (fun i : Import ↦ i.localPrefix = written) (s.module home).imports i)
      (hm : r.byName? i.module = some m) : Denotes r s home written m

/-- A prefix denotes no module, and this is the fault. -/
inductive Unbound (r : Registry) (s : Schema) (home : ModuleId) (written : String) :
    Fault → Prop where
  /-- No import has the prefix. -/
  | unknown (hother : ¬ (written = "" ∨ written = (s.module home).ownPrefix))
      (hnone : ∀ i ∈ (s.module home).imports, i.localPrefix ≠ written) :
      Unbound r s home written (.unknownPrefix written (s.module home).name)
  /-- The module that is imported is not registered. -/
  | absent {i : Import} (hother : ¬ (written = "" ∨ written = (s.module home).ownPrefix))
      (hi : IsFirst (fun i : Import ↦ i.localPrefix = written) (s.module home).imports i)
      (hm : r.byName? i.module = none) :
      Unbound r s home written (.unknownModule i.module (s.module home).name)

theorem denotes_or_unbound (r : Registry) (s : Schema) (home : ModuleId) (written : String) :
    (∃ m, r.Denotes s home written m) ∨ ∃ fault, r.Unbound s home written fault := by
  by_cases hown : written = "" ∨ written = (s.module home).ownPrefix
  · exact .inl ⟨home, .own hown⟩
  · rcases hfind : (s.module home).imports.find? (·.localPrefix = written) with - | i
    · exact .inr ⟨_, .unknown hown (by simpa using hfind)⟩
    · have hi := find?_eq_some_iff_isFirst.1 hfind
      rcases hm : r.byName? i.module with - | m
      · exact .inr ⟨_, .absent hown hi hm⟩
      · exact .inl ⟨m, .imported hown hi hm⟩

theorem Denotes.moduleFor_eq (h : r.Denotes s home written m) :
    r.moduleFor s home written = .ok m := by
  cases h with
  | own hown => rw [moduleFor, if_pos hown]
  | imported hother hi hm =>
    rw [moduleFor, if_neg hother, find?_eq_some_iff_isFirst.2 hi]
    simp [hm]

theorem Unbound.moduleFor_eq (h : r.Unbound s home written fault) :
    r.moduleFor s home written = .error fault := by
  cases h with
  | unknown hother hnone =>
    have hfind : (s.module home).imports.find? (·.localPrefix = written) = none := by
      simpa using hnone
    rw [moduleFor, if_neg hother, hfind]
  | absent hother hi hm =>
    rw [moduleFor, if_neg hother, find?_eq_some_iff_isFirst.2 hi]
    simp [hm]

end Registry

/-! ### Scopes -/

namespace Schema

/-- A node is declared inside another one, at any depth. -/
inductive Encloses (s : Schema) : NodeId → NodeId → Prop where
  | directly {p id : NodeId} (hp : (s.node id).parent = .node p) : Encloses s p id
  | further {p q id : NodeId} (hq : (s.node id).parent = .node q) (h : Encloses s p q) :
      Encloses s p id

/-- A node declares a grouping of a name. -/
def Declares (s : Schema) (name : String) (p : NodeId) : Prop :=
  ∃ g ∈ s.declaredUnder (.node p) .grouping, (s.node g).name = name

/-- The innermost node around a node that declares a grouping of a name. -/
structure Nearest (s : Schema) (name : String) (id p : NodeId) : Prop where
  encloses : s.Encloses p id
  declares : s.Declares name p
  /-- Any other one is around this one. -/
  innermost : ∀ q, s.Encloses q id → s.Declares name q → q = p ∨ s.Encloses q p

/-- The groupings at the top level of a module, submodule after submodule. -/
def topGroupings (s : Schema) (m : ModuleId) : List NodeId :=
  (s.module m).units.flatMap fun v ↦ s.declaredUnder (.submodule v) .grouping

/-- The grouping of a name that a node sees in a module. -/
inductive Sees (s : Schema) (name : String) (id : NodeId) (m : ModuleId) (g : NodeId) : Prop where
  /-- It is the first in the innermost node around it that declares any. -/
  | around {p : NodeId} (hown : s.StandsIn id m) (hp : s.Nearest name id p)
      (hg : IsFirst (fun g ↦ (s.node g).name = name) (s.declaredUnder (.node p) .grouping) g)
  /-- It is the first at the top level, where no node around it in that module declares any. -/
  | atTop (hnone : s.StandsIn id m → ∀ p, s.Encloses p id → ¬ s.Declares name p)
      (hg : IsFirst (fun g ↦ (s.node g).name = name) (s.topGroupings m) g)

theorem encloses_iff_of_parent_node (hq : (s.node id).parent = .node q) :
    s.Encloses p id ↔ p = q ∨ s.Encloses p q := by
  constructor
  · rintro (hp | ⟨hq', h⟩)
    · exact .inl (Parent.node.inj (hp.symm.trans hq))
    · obtain rfl := Parent.node.inj (hq'.symm.trans hq)
      exact .inr h
  · rintro (rfl | h)
    · exact .directly hq
    · exact .further hq h

theorem not_encloses_of_parent_submodule {v : SubmoduleId}
    (hv : (s.node id).parent = .submodule v) : ¬ s.Encloses p id := by
  rintro (hp | ⟨hq, -⟩)
  · cases hp.symm.trans hv
  · cases hq.symm.trans hv

theorem Encloses.index_lt (hlt : ∀ id q, (s.node id).parent = .node q → q.index < id.index)
    (h : s.Encloses p id) : p.index < id.index := by
  induction h with
  | directly hp => exact hlt _ _ hp
  | further hq _ ih => exact Nat.lt_trans ih (hlt _ _ hq)

/-- The parent is the innermost node, if it declares any. -/
theorem nearest_iff_of_declares
    (hlt : ∀ id q, (s.node id).parent = .node q → q.index < id.index)
    (hq : (s.node id).parent = .node q) (hdeclares : s.Declares name q) :
    s.Nearest name id p ↔ p = q := by
  constructor
  · intro h
    rcases (encloses_iff_of_parent_node hq).1 h.encloses with hpq | hpq
    · exact hpq
    · rcases h.innermost q (.directly hq) hdeclares with hqp | hqp
      · exact hqp.symm
      · have hup := hpq.index_lt hlt
        have hdown := hqp.index_lt hlt
        omega
  · rintro rfl
    exact ⟨.directly hq, hdeclares, fun o ho _ ↦ (encloses_iff_of_parent_node hq).1 ho⟩

/-- Else it is the innermost one around the parent. -/
theorem nearest_iff_of_not_declares (hq : (s.node id).parent = .node q)
    (hnone : ¬ s.Declares name q) : s.Nearest name id p ↔ s.Nearest name q p := by
  constructor
  · intro h
    refine ⟨?_, h.declares, fun o ho ↦ h.innermost o (.further hq ho)⟩
    rcases (encloses_iff_of_parent_node hq).1 h.encloses with rfl | hp
    · exact absurd h.declares hnone
    · exact hp
  · intro h
    refine ⟨.further hq h.encloses, h.declares, fun o ho hdeclares ↦ ?_⟩
    rcases (encloses_iff_of_parent_node hq).1 ho with rfl | ho
    · exact absurd hdeclares hnone
    · exact h.innermost o ho hdeclares

namespace Tidy

variable (hs : s.Tidy)
include hs

theorem groupingIn?_eq_some_iff : s.groupingIn? name p = some g ↔
    IsFirst (fun g ↦ (s.node g).name = name) (s.declaredUnder (.node p) .grouping) g := by
  rw [groupingIn?, firstNamed?, hs.slot_eq rfl]
  exact find?_eq_some_iff_isFirst

theorem groupingIn?_eq_none_iff : s.groupingIn? name p = none ↔ ¬ s.Declares name p := by
  rw [groupingIn?, firstNamed?, hs.slot_eq rfl]
  simp [Declares]

/-- **Climbing finds the innermost declaration.** The induction goes up from the node; at each
parent it is decided whether to go on. -/
theorem enclosingGrouping?_eq_some_iff : s.enclosingGrouping? name id = some g ↔
    ∃ p, s.Nearest name id p ∧
      IsFirst (fun g ↦ (s.node g).name = name) (s.declaredUnder (.node p) .grouping) g := by
  induction hn : id.index using Nat.strongRecOn generalizing id with
  | _ n ih =>
    subst hn
    rcases hp : (s.node id).parent with v | q
    · rw [enclosingGrouping?, ancestors_of_parent_submodule hp]
      constructor
      · intro h
        cases h
      · rintro ⟨p, hnearest, -⟩
        exact absurd hnearest.encloses (not_encloses_of_parent_submodule hp)
    · rw [enclosingGrouping?, ancestors_of_parent_node hs.parent_lt hp, List.findSome?_cons]
      rcases hin : s.groupingIn? name q with - | found
      · have hnone := hs.groupingIn?_eq_none_iff.1 hin
        simp only [nearest_iff_of_not_declares hp hnone]
        exact ih q.index (hs.parent_lt id q hp) rfl
      · have hdeclares : s.Declares name q := by
          by_contra hnone
          rw [hs.groupingIn?_eq_none_iff.2 hnone] at hin
          cases hin
        simp only [nearest_iff_of_declares hs.parent_lt hp hdeclares, exists_eq_left,
          ← hs.groupingIn?_eq_some_iff, hin]

theorem mem_ancestors_iff : p ∈ s.ancestors id ↔ s.Encloses p id := by
  induction hn : id.index using Nat.strongRecOn generalizing id with
  | _ n ih =>
    subst hn
    rcases hp : (s.node id).parent with v | q
    · rw [ancestors_of_parent_submodule hp]
      exact ⟨fun h ↦ absurd h List.not_mem_nil,
        fun h ↦ absurd h (not_encloses_of_parent_submodule hp)⟩
    · rw [ancestors_of_parent_node hs.parent_lt hp, List.mem_cons, encloses_iff_of_parent_node hp,
        ih q.index (hs.parent_lt id q hp) rfl]

theorem enclosingGrouping?_eq_none_iff :
    s.enclosingGrouping? name id = none ↔ ∀ p, s.Encloses p id → ¬ s.Declares name p := by
  simp only [enclosingGrouping?, List.findSome?_eq_none_iff, hs.mem_ancestors_iff,
    hs.groupingIn?_eq_none_iff]

theorem topGrouping?_eq_some_iff : s.topGrouping? name m = some g ↔
    IsFirst (fun g ↦ (s.node g).name = name) (s.topGroupings m) g := by
  have htop : s.topLevel m .grouping = s.topGroupings m := by
    rw [topLevel, bodies, List.flatMap_map]
    exact List.flatMap_congr fun v _ ↦ hs.slot_body_eq rfl
  rw [topGrouping?, firstNamed?, htop]
  exact find?_eq_some_iff_isFirst

/-- **What is found is what is seen.** -/
theorem groupingSeen?_eq_some_iff (hm : s.StandsIn id m ↔ m = s.homeModule id) :
    s.groupingSeen? name m id = some g ↔ s.Sees name id m g := by
  rw [groupingSeen?, Option.or_eq_some_iff, hs.topGrouping?_eq_some_iff]
  by_cases hown : m = s.homeModule id
  · rw [if_pos hown, hs.enclosingGrouping?_eq_some_iff, hs.enclosingGrouping?_eq_none_iff]
    constructor
    · rintro (⟨p, hp, hg⟩ | ⟨hnone, hg⟩)
      · exact .around (hm.2 hown) hp hg
      · exact .atTop (fun _ ↦ hnone) hg
    · rintro (⟨-, hp, hg⟩ | ⟨hnone, hg⟩)
      · exact .inl ⟨_, hp, hg⟩
      · exact .inr ⟨hnone (hm.2 hown), hg⟩
  · rw [if_neg hown]
    constructor
    · rintro (h | ⟨-, hg⟩)
      · cases h
      · exact .atTop (fun h ↦ absurd (hm.1 h) hown) hg
    · rintro (⟨hin, -, -⟩ | ⟨-, hg⟩)
      · exact absurd (hm.1 hin) hown
      · exact .inr ⟨rfl, hg⟩

end Tidy

end Schema

namespace Registry

/-- The reference of a node is read and looked up. -/
theorem groupingOf_of_denotes {reference : String} (href : s.groupingReference u = reference)
    (hm : r.Denotes s (s.homeModule u) ((QName.ofString reference).qualifier.getD "") m) :
    r.groupingOf s u =
      (s.groupingSeen? (QName.ofString reference).name m u).elim
        (.error (.unresolvedGrouping reference (s.module (s.homeModule u)).name)) .ok := by
  simp only [groupingOf, groupingCalled, href, hm.moduleFor_eq]
  cases s.groupingSeen? (QName.ofString reference).name m u <;> rfl

theorem groupingOf_of_unbound {reference : String} (href : s.groupingReference u = reference)
    (hfault : r.Unbound s (s.homeModule u) ((QName.ofString reference).qualifier.getD "") fault) :
    r.groupingOf s u = .error fault := by
  simp only [groupingOf, groupingCalled, href, hfault.moduleFor_eq]

/-- **A reference denotes the grouping that is seen.** In a lowered schema, whatever is registered,
a `uses` stands in one module. It refers to the grouping of the name in its reference that is seen
in the module that the prefix denotes there. It refers to nothing exactly if the prefix denotes no
module, with the fault of the prefix, or if no such grouping is seen, with a fault of its own. -/
theorem groupingOf_seen {docs : List Document} (hdocs : Schema.ofDocuments docs = .ok s)
    (r : Registry) {reference : String} (hu : u.index < s.nodes.size)
    (huses : (s.node u).content = .uses reference) :
    let written := (QName.ofString reference).qualifier.getD ""
    let name := (QName.ofString reference).name
    ∃ home, s.StandsIn u home ∧
      (∀ g, r.groupingOf s u = .ok g ↔
        ∃ m, r.Denotes s home written m ∧ s.Sees name u m g) ∧
      ∀ fault, r.groupingOf s u = .error fault ↔
        r.Unbound s home written fault ∨
          ∃ m, r.Denotes s home written m ∧ (∀ g, ¬ s.Sees name u m g) ∧
            fault = .unresolvedGrouping reference (s.module home).name := by
  intro written name
  have hs := Schema.tidy_of_ofDocuments hdocs
  have hstands {m : ModuleId} : s.StandsIn u m ↔ m = s.homeModule u :=
    (Schema.framed_of_ofDocuments hdocs).standsIn_iff hu
  have hseen {m : ModuleId} {g : NodeId} :
      s.groupingSeen? name m u = some g ↔ s.Sees name u m g :=
    hs.groupingSeen?_eq_some_iff hstands
  have href : s.groupingReference u = reference := by
    rw [Schema.groupingReference, huses]
  refine ⟨s.homeModule u, hstands.2 rfl, eq_iff_of_exhaustive ?_ ?_ ?_⟩
  · rintro g ⟨m, hm, hg⟩
    rw [groupingOf_of_denotes href hm, hseen.2 hg]
    rfl
  · rintro fault (hfault | ⟨m, hm, hnone, rfl⟩)
    · exact groupingOf_of_unbound href hfault
    · have hnone' : s.groupingSeen? name m u = none :=
        Option.eq_none_iff_forall_ne_some.2 fun g hg ↦ hnone g (hseen.1 hg)
      rw [groupingOf_of_denotes href hm, hnone']
      rfl
  · rcases r.denotes_or_unbound s (s.homeModule u) written with ⟨m, hm⟩ | ⟨fault, hfault⟩
    · by_cases hsome : ∃ g, s.Sees name u m g
      · obtain ⟨g, hg⟩ := hsome
        exact .inl ⟨g, m, hm, hg⟩
      · exact .inr ⟨_, .inr ⟨m, hm, fun g hg ↦ hsome ⟨g, hg⟩, rfl⟩⟩
    · exact .inr ⟨fault, .inl hfault⟩

/-- Groupings of one name stand at the top level of a module, twice in a container, and in a
submodule of another module. The uses are in an inner container with a grouping of another name. -/
def eclipsed : List Document :=
  [.submodule
    { name := "more", owner := "n"
      body := [.block .grouping "part" none []] },
   .module
    { name := "m", ownPrefix := "m", space := "urn:m"
      imports := [{ module := "n", localPrefix := "far" }]
      body := [
        .block .grouping "part" none [],
        .block .container "outer" none
          [.block .container "inner" none
            [.block .grouping "other" none [], .uses "part", .uses "far:part", .uses "far:other"],
            .block .grouping "part" none [], .block .grouping "part" none []]] },
   .module { name := "n", ownPrefix := "n", space := "urn:n", body := [] }]

/-- The first of the two in the container is seen. With the prefix it is the one in the submodule,
and a grouping beside the uses is not seen. -/
theorem groupingOf_seen_eclipsed :
    ∃ s r, Schema.ofDocuments eclipsed = .ok s ∧ ofSchema s = .ok r ∧ 6 < s.nodes.size ∧
      (s.node ⟨4⟩).content = .uses "part" ∧ (s.node ⟨5⟩).content = .uses "far:part" ∧
      (s.node ⟨6⟩).content = .uses "far:other" ∧
      (∃ home m, s.StandsIn ⟨4⟩ home ∧ r.Denotes s home "" m ∧ s.Sees "part" ⟨4⟩ m ⟨7⟩) ∧
      (∃ home m, s.StandsIn ⟨5⟩ home ∧ r.Denotes s home "far" m ∧ s.Sees "part" ⟨5⟩ m ⟨9⟩) ∧
      ∃ home m, s.StandsIn ⟨6⟩ home ∧ r.Denotes s home "far" m ∧ ∀ g, ¬ s.Sees "other" ⟨6⟩ m g := by
  obtain ⟨r, hr, hpart, hfar, hother⟩ :
      ∃ r, ofSchema (Schema.ofBatch eclipsed) = .ok r ∧
        let s := Schema.ofBatch eclipsed
        r.groupingOf s ⟨4⟩ = .ok ⟨7⟩ ∧ r.groupingOf s ⟨5⟩ = .ok ⟨9⟩ ∧
          r.groupingOf s ⟨6⟩ = .error (.unresolvedGrouping "far:other" "m") :=
    exists_ok_of_any (by decide +kernel)
  have hdocs : Schema.ofDocuments eclipsed = .ok (Schema.ofBatch eclipsed) :=
    Schema.ofDocuments_of_offences_eq_nil rfl
  obtain ⟨home₄, hin₄, hok₄, -⟩ := groupingOf_seen (u := ⟨4⟩) hdocs r (by decide) rfl
  obtain ⟨home₅, hin₅, hok₅, -⟩ := groupingOf_seen (u := ⟨5⟩) hdocs r (by decide) rfl
  obtain ⟨home₆, hin₆, -, herror₆⟩ := groupingOf_seen (u := ⟨6⟩) hdocs r (by decide) rfl
  obtain ⟨m₄, hm₄, hsees₄⟩ := (hok₄ _).1 hpart
  obtain ⟨m₅, hm₅, hsees₅⟩ := (hok₅ _).1 hfar
  refine ⟨_, r, hdocs, hr, by decide, rfl, rfl, rfl, ⟨home₄, m₄, hin₄, hm₄, hsees₄⟩,
    ⟨home₅, m₅, hin₅, hm₅, hsees₅⟩, ?_⟩
  rcases (herror₆ _).1 hother with hunbound | ⟨m₆, hm₆, hnone, -⟩
  · cases hunbound
  · exact ⟨home₆, m₆, hin₆, hm₆, hnone⟩

end Registry

end SchemaLink
