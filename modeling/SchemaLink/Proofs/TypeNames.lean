import Mathlib.Logic.Relation
import SchemaLink.Proofs.Chains
import SchemaLink.Proofs.Coherence

/-!
# The names of types along chains

A leaf reference has the value name of the leaf at the end of its chain. Each question about a name
follows a chain of its own, with its own start and its own leaves passed, so that leaves on one
chain share a name is a statement about different searches. **What these have in common is the
end**: references lead from leaf to leaf in one way only (`Session.Refers`), and what leads to an
end does not come back to itself, so the end found from a leaf is the one found from any leaf
further on (`Session.referent_eq_ok_iff`).

**Written names are not handed on in the same manner.** A leaf reference has the name that is
written at its referent. If that is an identity reference, its own written name is another, that of
its base, and if it is a leaf reference without a path it has none
(`Session.writtenTypeName_of_referent`).
-/

namespace SchemaLink

namespace Session

variable {x : Session} {leaf target id : NodeId} {path name : String} {last : NodeId}
  {written : String} {leaves : List NodeId}

/-! ### References -/

theorem kind_ne_type_of_holdsValue {k : Kind} (h : k.holdsValue = true) : k ≠ .type := by
  rintro rfl
  simp [Kind.holdsValue] at h

theorem kind_ne_type_of_referencePath? (h : x.referencePath? leaf = some path) :
    x.schema.kind leaf ≠ .type := by
  obtain ⟨ty, hty, -⟩ := Option.bind_eq_some_iff.1 h
  obtain ⟨k, hc⟩ := Content.exists_typed_of_typeHandle? hty
  exact Content.kind_ne_type_of_typed hc

/-- A leaf is a reference, and its path leads to another leaf. -/
def Refers (x : Session) (leaf target : NodeId) : Prop :=
  ∃ path, x.referencePath? leaf = some path ∧ x.followFrom true path leaf = .ok target

theorem Refers.unique (h : x.Refers leaf target) (h' : x.Refers leaf id) : target = id := by
  obtain ⟨path, hpath, hlink⟩ := h
  obtain ⟨path', hpath', hlink'⟩ := h'
  obtain rfl := Option.some.inj (hpath.symm.trans hpath')
  exact Except.ok.inj (hlink.symm.trans hlink')

/-- A leaf that is no reference leads nowhere. -/
theorem not_refers (h : x.referencePath? leaf = none) : ¬ x.Refers leaf target := by
  rintro ⟨path, hpath, -⟩
  simp [h] at hpath

instance (x : Session) (leaf target : NodeId) : Decidable (x.Refers leaf target) :=
  match h : x.referencePath? leaf with
  | none => .isFalse (not_refers h)
  | some path => decidable_of_iff (x.followFrom true path leaf = .ok target) (by simp [Refers, h])

/-- **A leaf from which references lead to an end is on no circle.** -/
theorem not_transGen_refers_self (h : Relation.ReflTransGen x.Refers leaf id)
    (hid : x.referencePath? id = none) : ¬ Relation.TransGen x.Refers leaf leaf := by
  induction h using Relation.ReflTransGen.head_induction_on with
  | refl =>
    intro hcycle
    obtain ⟨next, hnext, -⟩ := Relation.TransGen.head'_iff.1 hcycle
    exact not_refers hid hnext
  | head hstep _ ih =>
    intro hcycle
    obtain ⟨next, hnext, hrest⟩ := Relation.TransGen.head'_iff.1 hcycle
    obtain rfl := hstep.unique hnext
    exact ih (Relation.TransGen.tail' hrest hstep)

/-! ### References and chains -/

namespace Passes

variable (h : x.Passes x.followLink leaf path leaves last written)
include h

theorem referencePath?_ne_none : ∀ a ∈ leaves, x.referencePath? a ≠ none := by
  induction h with
  | here => simp
  | on _ hpath _ ih => exact List.forall_mem_cons.2 ⟨by simp [hpath], ih⟩

/-- References lead over the leaves of a chain. -/
theorem refers (hleaf : x.referencePath? leaf = some path) :
    Relation.ReflTransGen x.Refers leaf last ∧ x.referencePath? last = some written := by
  induction h with
  | here => exact ⟨.refl, hleaf⟩
  | on hlink hpath _ ih =>
    obtain ⟨hrest, hlast⟩ := ih hpath
    exact ⟨.head ⟨_, hleaf, hlink⟩ hrest, hlast⟩

theorem transGen_refers (hleaf : x.referencePath? leaf = some path) :
    ∀ a ∈ leaves, Relation.TransGen x.Refers leaf a := by
  induction h with
  | here => simp
  | on hlink hpath _ ih =>
    have hstep : x.Refers _ _ := ⟨_, hleaf, hlink⟩
    exact List.forall_mem_cons.2 ⟨.single hstep, fun a ha ↦ .head hstep (ih hpath a ha)⟩

end Passes

/-- Where references lead to an end, so does a chain, and it passes no leaf twice. -/
theorem exists_passes_of_refers (h : Relation.ReflTransGen x.Refers leaf id)
    (hid : x.referencePath? id = none) (hleaf : x.referencePath? leaf = some path) :
    ∃ leaves last written, x.Passes x.followLink leaf path leaves last written ∧
      (leaf :: leaves).Nodup ∧ x.followLink last written = .ok id := by
  induction h using Relation.ReflTransGen.head_induction_on generalizing path with
  | refl => simp [hid] at hleaf
  | @head leaf next hstep hrest ih =>
    have ⟨path', hpath', hlink⟩ := hstep
    obtain rfl := Option.some.inj (hpath'.symm.trans hleaf)
    rcases hnext : x.referencePath? next with - | further
    · -- the next leaf is no reference, so it is the end itself
      obtain rfl | ⟨_, hlonger, -⟩ := hrest.cases_head
      · exact ⟨[], leaf, _, .here, by simp, hlink⟩
      · exact absurd hlonger (not_refers hnext)
    · obtain ⟨leaves, last, written, hpasses, hnodup, hend⟩ := ih hnext
      have hpasses' : x.Passes x.followLink leaf _ (next :: leaves) last written :=
        .on hlink hnext hpasses
      refine ⟨next :: leaves, last, written, hpasses', List.nodup_cons.2 ⟨fun hmem ↦ ?_, hnodup⟩,
        hend⟩
      exact not_transGen_refers_self (.head hstep hrest) hid
        (hpasses'.transGen_refers hleaf leaf hmem)

/-- **The referent of a leaf is the end to which references lead from it.** -/
theorem referent_eq_ok_iff (hleaf : x.referencePath? leaf = some path) :
    x.referent path leaf = .ok id ↔
      Relation.ReflTransGen x.Refers leaf id ∧ x.referencePath? id = none := by
  rw [referent_eq_iff, Schema.carrier_eq_self (kind_ne_type_of_referencePath? hleaf)]
  simp only [chainEnd_ok_iff]
  constructor
  · rintro ⟨leaves, last, written, hpasses, -, hlink, -, hid⟩
    obtain ⟨hrefers, hlast⟩ := hpasses.refers hleaf
    exact ⟨hrefers.tail ⟨written, hlast, hlink⟩, hid⟩
  · rintro ⟨hrefers, hid⟩
    obtain ⟨leaves, last, written, hpasses, hnodup, hlink⟩ :=
      exists_passes_of_refers hrefers hid hleaf
    refine ⟨leaves, last, written, hpasses, hnodup, hlink, fun hmem ↦ ?_, hid⟩
    -- the leaves that have been passed are references, and the end is none
    rcases List.mem_cons.1 hmem with rfl | hmem
    · simp [hid] at hleaf
    · exact hpasses.referencePath?_ne_none id hmem hid

/-! ### Types of leaves -/

theorem ownType_eq_ok_iff {ty : NodeId} {spec : TypeBody} (hid : x.schema.kind id ≠ .type) :
    x.ownType id = .ok (ty, spec) ↔ (x.schema.node id).content.typeHandle? = some ty ∧
      (x.schema.node ty).content.describedType? = some spec := by
  refine ⟨fun hown ↦ ?_, fun ⟨hty, hspec⟩ ↦ ownType_of_typeHandle? hty hspec⟩
  replace hid : (x.schema.node id).content.kind ≠ .type := hid
  rcases hc : (x.schema.node id).content with _ | _ | _ | ⟨k, t⟩ | _ | spec'
  case type => simp [hc, Content.kind] at hid
  case typed =>
    rcases hspec : (x.schema.node t).content.describedType? with - | spec'
    · simp [ownType, hc, Content.typeHandle?, hspec] at hown
    · obtain ⟨rfl, rfl⟩ : t = ty ∧ spec' = spec := by
        simpa [ownType, hc, Content.typeHandle?, hspec] using hown
      exact ⟨rfl, hspec⟩
  all_goals simp [ownType, hc, Content.typeHandle?] at hown

/-- A leaf reference with a path has a type of its own, whose referent is that of the path. -/
theorem ownType_of_referencePath? (hs : x.schema.Framed)
    (hleaf : x.referencePath? leaf = some path) :
    ∃ ty spec, x.ownType leaf = .ok (ty, spec) ∧ spec.name = "leafref" ∧
      x.typeReferent x.followLink ty spec = x.referent path leaf := by
  obtain ⟨ty, hty, hpath⟩ := Option.bind_eq_some_iff.1 hleaf
  obtain ⟨spec, hspec, hname⟩ := Option.bind_eq_some_iff.1 hpath
  have hleafref : spec.name = "leafref" := by
    by_contra h
    simp [h] at hname
  have hpath : spec.path = some path := by simpa [hleafref] using hname
  have hkind := kind_ne_type_of_referencePath? hleaf
  -- the type describes the values of the leaf, so both are followed from the leaf
  have hcarrier : x.schema.carrier ty = x.schema.carrier leaf := by
    rw [Schema.carrier_eq_self hkind]
    exact Schema.carrier_of_parent_node hs.parent_lt
      (Schema.kind_of_describedType? (by simp [hspec])) (hs.typesFit leaf ty hty).2 hkind
  refine ⟨ty, spec, ownType_of_typeHandle? hty hspec, hleafref, ?_⟩
  simp only [typeReferent, hpath, referent, referentBy, hcarrier]

/-- Of the leaf references, only those without a path have none to follow. -/
theorem path_eq_none_of_referencePath? {ty : NodeId} {spec : TypeBody}
    (hid : x.schema.kind id ≠ .type) (hown : x.ownType id = .ok (ty, spec))
    (hpath : x.referencePath? id = none) (hname : spec.name = "leafref") : spec.path = none := by
  obtain ⟨hty, hspec⟩ := (ownType_eq_ok_iff hid).1 hown
  simpa [referencePath?, hty, hspec, hname] using hpath

/-! ### Value names along chains -/

/-- A leaf that is no reference has the name of its own type. -/
theorem valueTypeName_of_referencePath?_eq_none (hid : x.schema.kind id ≠ .type)
    (hpath : x.referencePath? id = none) : x.valueTypeName id = Halt.lift (x.ownValueName id) := by
  rw [valueTypeName, valueTypeNameBy, ownValueName]
  rcases hown : x.ownType id with fault | ⟨ty, spec⟩
  · rfl
  · by_cases hname : spec.name = "leafref"
    · have hnone := path_eq_none_of_referencePath? hid hown hpath hname
      simp [directName, typeReferent, hname, hnone, Halt.lift]
    · simp [hname]

theorem lift_eq_ok_iff {α : Type} {answer : Except Fault α} {a : α} :
    Halt.lift answer = .ok a ↔ answer = .ok a := by
  rcases answer with fault | a' <;> simp [Halt.lift]

/-- A leaf reference has the own name of its referent. -/
theorem valueTypeName_eq_ok_iff_of_referencePath? (hs : x.schema.Framed)
    (hleaf : x.referencePath? leaf = some path) :
    x.valueTypeName leaf = .ok name ↔
      ∃ id, x.referent path leaf = .ok id ∧ x.ownValueName id = .ok name := by
  obtain ⟨ty, spec, hown, hname, hreferent⟩ := ownType_of_referencePath? hs hleaf
  simp only [valueTypeName, valueTypeNameBy, hown, hname, if_true, hreferent]
  rcases x.referent path leaf with halt | id <;> simp [lift_eq_ok_iff]

/-- **A leaf has the own name of the leaf to which references lead from it.** -/
theorem valueTypeName_eq_ok_iff (hs : x.schema.Framed) (hid : x.schema.kind leaf ≠ .type) :
    x.valueTypeName leaf = .ok name ↔
      ∃ id, Relation.ReflTransGen x.Refers leaf id ∧ x.referencePath? id = none ∧
        x.ownValueName id = .ok name := by
  rcases hleaf : x.referencePath? leaf with - | path
  · rw [valueTypeName_of_referencePath?_eq_none hid hleaf, lift_eq_ok_iff]
    constructor
    · exact fun h ↦ ⟨leaf, .refl, hleaf, h⟩
    · rintro ⟨id, hrefers, -, h⟩
      obtain rfl | ⟨next, hstep, -⟩ := hrefers.cases_head
      · exact h
      · exact absurd hstep (not_refers hleaf)
  · simp only [valueTypeName_eq_ok_iff_of_referencePath? hs hleaf, referent_eq_ok_iff hleaf,
      and_assoc]

theorem Refers.kind_ne_type (h : x.Refers leaf target) :
    x.schema.kind leaf ≠ .type ∧ x.schema.kind target ≠ .type := by
  obtain ⟨path, hleaf, hlink⟩ := h
  have htarget : (x.schema.kind target).holdsValue = true :=
    goodLinks_followLink.holdsValue _ _ _ hlink
  exact ⟨kind_ne_type_of_referencePath? hleaf, kind_ne_type_of_holdsValue htarget⟩

/-- References from a leaf lead to the same end as those from the leaf that it refers to. -/
theorem Refers.reflTransGen_iff (h : x.Refers leaf target) (hid : x.referencePath? id = none) :
    Relation.ReflTransGen x.Refers leaf id ↔ Relation.ReflTransGen x.Refers target id := by
  constructor
  · intro hrefers
    obtain rfl | ⟨next, hstep, hrest⟩ := hrefers.cases_head
    · exact absurd h (not_refers hid)
    · rwa [h.unique hstep]
  · exact .head h

/-- A reference has the value name of the leaf that it leads to. -/
theorem Refers.valueTypeName_eq_ok_iff (hs : x.schema.Framed) (h : x.Refers leaf target) :
    x.valueTypeName leaf = .ok name ↔ x.valueTypeName target = .ok name := by
  obtain ⟨hleaf, htarget⟩ := h.kind_ne_type
  rw [Session.valueTypeName_eq_ok_iff hs hleaf, Session.valueTypeName_eq_ok_iff hs htarget]
  refine exists_congr fun id ↦ ?_
  constructor
  · rintro ⟨hrefers, hid, hname⟩
    exact ⟨(h.reflTransGen_iff hid).1 hrefers, hid, hname⟩
  · rintro ⟨hrefers, hid, hname⟩
    exact ⟨(h.reflTransGen_iff hid).2 hrefers, hid, hname⟩

/-- **All leaves along a chain share one value name**, the own name of the leaf at its end. Either
all of them have it or none has any, whichever modules the references lead through, and also where
they lead into a circle. -/
theorem valueTypeName_of_refers {s : Schema} {docs : List Document}
    (hdocs : Schema.ofDocuments docs = .ok s) {policy : Policy} (hx : start s policy = .ok x)
    (requests : List Request) {leaf target : NodeId}
    (hrefers : Relation.TransGen (x.performAll requests).Refers leaf target) (name : String) :
    let y := x.performAll requests
    (y.valueTypeName leaf = .ok name ↔ y.valueTypeName target = .ok name) ∧
      (y.valueTypeName target = .ok name ↔
        ∃ id, Relation.ReflTransGen y.Refers target id ∧ y.referencePath? id = none ∧
          y.ownValueName id = .ok name) := by
  intro y
  have hs : y.schema.Framed := framed_performAll hdocs hx requests
  constructor
  · induction hrefers with
    | single hstep => exact hstep.valueTypeName_eq_ok_iff hs
    | tail _ hstep ih => exact ih.trans (hstep.valueTypeName_eq_ok_iff hs)
  · obtain ⟨last, -, hlast⟩ := Relation.TransGen.tail'_iff.1 hrefers
    exact valueTypeName_eq_ok_iff hs hlast.kind_ne_type.2

/-- A leaf reference to a leaf reference of another module, under a name of its own. -/
def borrowed : List Document :=
  [.module
    { name := "m", ownPrefix := "m", space := "urn:m"
      body := [
        .typed .leaf "goal" none { name := "string", length := some "1..8" },
        .typed .leaf "near" none { name := "leafref", path := some "../goal" }] },
   .module
    { name := "n", ownPrefix := "n", space := "urn:n"
      imports := [{ module := "m", localPrefix := "k" }]
      body := [.typed .leaf "far" none { name := "leafref", path := some "/k:near" }] }]

theorem valueTypeName_of_refers_borrowed :
    ∃ s x, Schema.ofDocuments borrowed = .ok s ∧ start s .strict = .ok x ∧
      let y := x.performAll [.augments ⟨1⟩]
      y.Refers ⟨4⟩ ⟨2⟩ ∧ y.Refers ⟨2⟩ ⟨0⟩ ∧ y.valueTypeName ⟨0⟩ = .ok "M_goal" ∧
        y.valueTypeName ⟨4⟩ = .ok "M_goal" := by
  obtain ⟨x, hx, hfar, hnear, hgoal⟩ : ∃ x, start (Schema.ofBatch borrowed) .strict = .ok x ∧
      (x.performAll [.augments ⟨1⟩]).Refers ⟨4⟩ ⟨2⟩ ∧
      (x.performAll [.augments ⟨1⟩]).Refers ⟨2⟩ ⟨0⟩ ∧
      (x.performAll [.augments ⟨1⟩]).valueTypeName ⟨0⟩ = .ok "M_goal" :=
    exists_ok_of_any (by decide +kernel)
  have hdocs : Schema.ofDocuments borrowed = .ok (Schema.ofBatch borrowed) :=
    Schema.ofDocuments_of_offences_eq_nil rfl
  exact ⟨_, x, hdocs, hx, hfar, hnear, hgoal,
    (valueTypeName_of_refers hdocs hx [.augments ⟨1⟩] (.head hfar (.single hnear)) _).1.2 hgoal⟩

/-! ### Written names of references -/

/-- **A leaf reference has the name that is written at its referent.** This is the written name of
the referent itself unless that is a leaf reference, which then has no path and no written name, or
an identity reference, whose written name is that of its base. -/
theorem writtenTypeName_of_referent {s : Schema} {docs : List Document}
    (hdocs : Schema.ofDocuments docs = .ok s) {policy : Policy} (hx : start s policy = .ok x)
    (requests : List Request) {leaf id : NodeId} {path : String}
    (hleaf : (x.performAll requests).referencePath? leaf = some path)
    (hid : (x.performAll requests).referent path leaf = .ok id) :
    let y := x.performAll requests
    ∃ ty spec, y.ownType id = .ok (ty, spec) ∧ y.writtenTypeName leaf = .ok spec.name ∧
      (y.writtenTypeName leaf = y.writtenTypeName id ↔
        spec.name ≠ "leafref" ∧
          (spec.name = "identityref" → y.referenceBase ty spec = .ok "identityref")) := by
  intro y
  have hs : y.schema.Framed := framed_performAll hdocs hx requests
  have hvalue : (y.schema.kind id).holdsValue = true :=
    goodLinks_followLink.holdsValue_of_chase hid
  obtain ⟨⟨ty, spec⟩, hown⟩ :=
    exists_ownType hs.typesFit (isSome_typeHandle?_of_holdsValue hvalue)
  have hname : y.writtenTypeName leaf = .ok spec.name := by
    obtain ⟨ty', spec', hown', hleafref, hreferent⟩ := ownType_of_referencePath? hs hleaf
    rw [hid] at hreferent
    simp only [writtenTypeName, writtenTypeNameBy, hown', hleafref, if_true, hreferent, hown]
    rfl
  refine ⟨ty, spec, hown, hname, ?_⟩
  rw [hname]
  by_cases hleafref : spec.name = "leafref"
  · -- there is no path to follow any further, so there is no written name
    have hnone := path_eq_none_of_referencePath? (kind_ne_type_of_holdsValue hvalue) hown
      ((referent_eq_ok_iff hleaf).1 hid).2 hleafref
    simp [writtenTypeName, writtenTypeNameBy, hown, hleafref, typeReferent, hnone]
  · by_cases hidentityref : spec.name = "identityref"
    · simp only [writtenTypeName, writtenTypeNameBy, hown, hidentityref]
      simp [eq_comm (a := (Except.ok "identityref" : Except Halt String)), lift_eq_ok_iff]
    · simp [writtenTypeName, writtenTypeNameBy, hown, hleafref, hidentityref]

/-- An identity reference and a leaf reference without a path, and a leaf reference to each. -/
def aliased : List Document :=
  [.module
    { name := "m", ownPrefix := "m", space := "urn:m"
      body := [
        .identity "shape" none [],
        .typed .leaf "form" none { name := "identityref", base := some "shape" },
        .typed .leaf "copy" none { name := "leafref", path := some "../form" },
        .typed .leaf "stub" none { name := "leafref" },
        .typed .leaf "echo" none { name := "leafref", path := some "../stub" }] }]

theorem writtenTypeName_of_referent_aliased :
    ∃ s x, Schema.ofDocuments aliased = .ok s ∧ start s .strict = .ok x ∧
      (x.performAll []).referencePath? ⟨3⟩ = some "../form" ∧
      (x.performAll []).referent "../form" ⟨3⟩ = .ok ⟨1⟩ ∧
      ∃ ty spec, (x.performAll []).ownType ⟨1⟩ = .ok (ty, spec) ∧
        (x.performAll []).writtenTypeName ⟨3⟩ = .ok spec.name := by
  obtain ⟨x, hx, hleaf, hid⟩ : ∃ x, start (Schema.ofBatch aliased) .strict = .ok x ∧
      (x.performAll []).referencePath? ⟨3⟩ = some "../form" ∧
      (x.performAll []).referent "../form" ⟨3⟩ = .ok ⟨1⟩ :=
    exists_ok_of_any (by decide +kernel)
  have hdocs : Schema.ofDocuments aliased = .ok (Schema.ofBatch aliased) :=
    Schema.ofDocuments_of_offences_eq_nil rfl
  obtain ⟨ty, spec, hown, hname, -⟩ := writtenTypeName_of_referent hdocs hx [] hleaf hid
  exact ⟨_, x, hdocs, hx, hleaf, hid, ty, spec, hown, hname⟩

/-- The written name of a leaf reference need not be that of its referent. -/
theorem writtenTypeName_ne_of_referent_aliased :
    ∃ s x, Schema.ofDocuments aliased = .ok s ∧ start s .strict = .ok x ∧
      (x.referencePath? ⟨3⟩ = some "../form" ∧ x.referent "../form" ⟨3⟩ = .ok ⟨1⟩ ∧
        x.writtenTypeName ⟨3⟩ = .ok "identityref" ∧ x.writtenTypeName ⟨1⟩ = .ok "shape") ∧
      x.referencePath? ⟨7⟩ = some "../stub" ∧ x.referent "../stub" ⟨7⟩ = .ok ⟨5⟩ ∧
        x.writtenTypeName ⟨7⟩ = .ok "leafref" ∧
        x.writtenTypeName ⟨5⟩ = .error (.fault (x.pathlessFault ⟨6⟩)) := by
  obtain ⟨x, hx, hfacts⟩ : ∃ x, start (Schema.ofBatch aliased) .strict = .ok x ∧
      (x.referencePath? ⟨3⟩ = some "../form" ∧ x.referent "../form" ⟨3⟩ = .ok ⟨1⟩ ∧
        x.writtenTypeName ⟨3⟩ = .ok "identityref" ∧ x.writtenTypeName ⟨1⟩ = .ok "shape") ∧
      x.referencePath? ⟨7⟩ = some "../stub" ∧ x.referent "../stub" ⟨7⟩ = .ok ⟨5⟩ ∧
        x.writtenTypeName ⟨7⟩ = .ok "leafref" ∧
        x.writtenTypeName ⟨5⟩ = .error (.fault (x.pathlessFault ⟨6⟩)) :=
    exists_ok_of_any (by decide +kernel)
  exact ⟨_, x, Schema.ofDocuments_of_offences_eq_nil rfl, hx, hfacts⟩

end Session

end SchemaLink
