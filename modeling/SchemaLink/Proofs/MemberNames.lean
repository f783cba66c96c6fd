import Mathlib.Data.List.DropRight
import Mathlib.Data.List.TakeDrop
import SchemaLink.Proofs.TypeNames

/-!
# The names of union members

The members of a union have no names of their own. A member whose values need a name gets one from
the place of its union, its type and its position in the union.

**The place of a union says how deep it is nested, and not in which of the unions around it.** The
nodes of types are called after their types, so on the way down to a union at some depth the same
name `union` is passed so many times, whichever members are passed. From a name one can read back
the place, the type and the position (`memberName_inj`), and two members inside the type of one node
share a name exactly if they agree in depth, type and position (`Session.memberNames_eq_iff`).

So members of the same union always differ in their names, and members of unions that are members of
the same union may not.
-/

namespace SchemaLink

/-! ### Reading names back -/

/-- What stands after the last underscore of a text. -/
def lastWord (s : String) : List Char :=
  s.toList.rtakeWhile (· != '_')

theorem lastWord_append (s t : String) : lastWord (s ++ "_" ++ t) = lastWord t := by
  have hcut (as bs : List Char) :
      (as ++ '_' :: bs).rtakeWhile (· != '_') = bs.rtakeWhile (· != '_') := by
    induction bs using List.reverseRecOn with
    | nil => simp
    | append_singleton bs c ih =>
      rw [← List.cons_append, ← List.append_assoc, List.rtakeWhile_concat, List.rtakeWhile_concat,
        ih]
  simp [lastWord, hcut]

theorem lastWord_repr (n : Nat) : lastWord (Nat.repr n) = Nat.toDigits 10 n := by
  rw [lastWord, Nat.toList_repr, List.rtakeWhile_eq_self_iff]
  intro c hc
  have hdigit := Nat.isDigit_of_mem_toDigits (by decide) (by decide) hc
  have hne : c ≠ '_' := by
    rintro rfl
    exact absurd hdigit (by decide)
  simpa using hne

/-- The built-in types with values of their own. -/
def builtinTypes : List String :=
  definedTypes ++ primitiveTypes

/-- Built-in types differ in the last words of their names. -/
theorem eq_of_lastWord_underscored_eq : ∀ a ∈ builtinTypes, ∀ b ∈ builtinTypes,
    lastWord (underscored a) = lastWord (underscored b) → a = b := by
  decide +kernel

/-- **The name of a member can be read back** into a place, a type and a position. -/
theorem memberName_inj {place place' a b : String} {i j : Nat}
    (ha : a ∈ builtinTypes) (hb : b ∈ builtinTypes) :
    place ++ "_" ++ underscored a ++ "_" ++ Nat.repr i =
        place' ++ "_" ++ underscored b ++ "_" ++ Nat.repr j ↔
      place = place' ∧ a = b ∧ i = j := by
  constructor
  · intro h
    have hlast := congrArg lastWord h
    rw [lastWord_append, lastWord_append, lastWord_repr, lastWord_repr] at hlast
    have hij := congrArg (Nat.ofDigitChars 10 · 0) hlast
    obtain rfl : i = j := by simpa [Nat.ofDigitChars_toDigits] using hij
    have hfront := (String.append_left_inj _).1 ((String.append_left_inj _).1 h)
    have htype := congrArg lastWord hfront
    rw [lastWord_append, lastWord_append] at htype
    obtain rfl := eq_of_lastWord_underscored_eq a ha b hb htype
    exact ⟨(String.append_left_inj _).1 ((String.append_left_inj _).1 hfront), rfl, rfl⟩
  · rintro ⟨rfl, rfl, rfl⟩
    rfl

/-! ### Names with something appended -/

/-- A text that can stand in an identifier as it is. -/
def Name.Plain (t : String) : Prop :=
  ∀ c ∈ t.toList, Name.plainChar c = c

theorem Name.Plain.append {s t : String} (hs : Name.Plain s) (ht : Name.Plain t) :
    Name.Plain (s ++ t) := by
  intro c hc
  rw [String.toList_append] at hc
  exact (List.mem_append.1 hc).elim (hs c) (ht c)

theorem Name.identifier_append {s t : String} (hs : s ≠ "") (ht : Name.Plain t) :
    Name.identifier (s ++ t) = Name.identifier s ++ t := by
  have hplain : t.toList.map Name.plainChar = t.toList :=
    (List.map_congr_left ht).trans (List.map_id _)
  rcases hcs : s.toList with - | ⟨c, cs⟩
  · exact absurd (String.toList_eq_nil_iff.1 hcs) hs
  · simp [Name.identifier, hcs, hplain, Name.capitalize, String.append_assoc]

/-- What is appended to a qualified name is appended to its local name. -/
theorem QName.ofString_append {s t : String} (ht : ':' ∉ t.toList) :
    QName.ofString (s ++ t) =
      { QName.ofString s with name := (QName.ofString s).name ++ t } := by
  simp only [ofString, ofChars, String.toList_append, List.span_eq_takeWhile_dropWhile]
  rcases hrest : s.toList.dropWhile (· != ':') with - | ⟨c, cs⟩
  · -- no colon at all
    have hnone : (s.toList ++ t.toList).dropWhile (· != ':') = [] := by
      rw [List.dropWhile_append, hrest]
      simpa [List.dropWhile_eq_nil_iff] using fun c hc (h : c = ':') ↦ ht (h ▸ hc)
    simp [hnone]
  · -- the first colon stands in the front part
    have hshorter : (s.toList.takeWhile (· != ':')).length ≠ s.toList.length := by
      have hsplit := s.toList.takeWhile_append_dropWhile (p := (· != ':'))
      rw [hrest] at hsplit
      have hlength := congrArg List.length hsplit
      rw [List.length_append, List.length_cons] at hlength
      omega
    rw [List.dropWhile_append, List.takeWhile_append, hrest, if_neg hshorter]
    simp

theorem Registry.generatedName_append (r : Registry) (s : Schema) (home : ModuleId)
    (written : String) {t : String} (ht : Name.Plain t) :
    r.generatedName s home (written ++ t) = (r.generatedName s home written).map (· ++ t) := by
  have hcolon : ':' ∉ t.toList := fun h ↦ absurd (ht ':' h) (by decide)
  have hname (p w : String) :
      Name.identifier (p ++ ":" ++ (w ++ t)) = Name.identifier (p ++ ":" ++ w) ++ t := by
    rw [← String.append_assoc]
    exact Name.identifier_append (by simp) ht
  simp only [generatedName, QName.ofString_append hcolon, hname]
  split
  · rfl
  · split <;> rfl

namespace Schema

variable {s s' : Schema} {id q u t : NodeId} {n m i j : Nat} {union spec : TypeBody}

/-! ### Unions inside unions -/

/-- A union stands inside `n` others, the outermost of which is the type of a node. -/
inductive UnionIn (s : Schema) (id : NodeId) : Nat → NodeId → TypeBody → Prop where
  | type {u : NodeId} {union : TypeBody} (hu : (s.node id).content.typeHandle? = some u)
      (hunion : (s.node u).content.describedType? = some union) (hname : union.name = "union") :
      UnionIn s id 0 u union
  | member {n : Nat} {t u : NodeId} {outer union : TypeBody} (h : UnionIn s id n t outer)
      (hu : u ∈ outer.members) (hunion : (s.node u).content.describedType? = some union)
      (hname : union.name = "union") : UnionIn s id (n + 1) u union

/-- A type stands at position `i` of a union that stands inside `n` others, the outermost of which
is the type of a node. -/
structure MemberIn (s : Schema) (id : NodeId) (n i : Nat) (t : NodeId) (spec : TypeBody) :
    Prop where
  exists_union : ∃ u union, s.UnionIn id n u union ∧ union.members.idxOf? t = some i
  described : (s.node t).content.describedType? = some spec

/-- What `n` unions add to the name of the node around them. -/
def unionLabels : Nat → String
  | 0 => ""
  | n + 1 => unionLabels n ++ "_" ++ "union"

theorem plain_unionLabels (n : Nat) : Name.Plain (unionLabels n) := by
  have hseparator : Name.Plain "_" := by simp [Name.Plain, Name.plainChar]
  have hunion : Name.Plain "union" := by simp [Name.Plain, Name.plainChar]
  induction n with
  | zero => simp [Name.Plain, unionLabels]
  | succ n ih => exact (ih.append hseparator).append hunion

theorem length_unionLabels (n : Nat) : (unionLabels n).length = 6 * n := by
  induction n with
  | zero => rfl
  | succ n ih =>
    rw [unionLabels, String.length_append, String.length_append, ih]
    rfl

theorem unionLabels_inj : unionLabels n = unionLabels m ↔ n = m := by
  refine ⟨fun h ↦ ?_, fun h ↦ by rw [h]⟩
  have hlength := congrArg String.length h
  rw [length_unionLabels, length_unionLabels] at hlength
  omega

@[simp] theorem typesNamed_outline (s : Schema) : s.outline.TypesNamed ↔ s.TypesNamed := by
  simp [TypesNamed]

theorem TypesNamed.of_outline_eq (hs : s.TypesNamed) (h : s'.outline = s.outline) :
    s'.TypesNamed :=
  (typesNamed_outline s').1 (h ▸ (typesNamed_outline s).2 hs)

/-! ### The places of unions -/

theorem scopedLabel_of_parent_node
    (hlt : ∀ id q, (s.node id).parent = .node q → q.index < id.index)
    (hp : (s.node id).parent = .node q) :
    s.scopedLabel id = s.scopedLabel q ++ "_" ++ s.nameLabel id := by
  have hne : (s.lineage q).reverse.map s.nameLabel ≠ [] := by simp [lineage]
  have hlineage : s.lineage id = id :: s.lineage q := by
    rw [lineage, ancestors_of_parent_node hlt hp, lineage]
  rw [scopedLabel, hlineage, List.reverse_cons, List.map_append,
    String.intercalate_append_of_ne_nil hne (by simp)]
  rfl

namespace UnionIn

theorem described (h : s.UnionIn id n u union) :
    (s.node u).content.describedType? = some union := by
  cases h <;> assumption

theorem name_eq (h : s.UnionIn id n u union) : union.name = "union" := by
  cases h <;> assumption

/-- Every union on the way to a member is called `union`. -/
theorem nameLabel_eq (hnamed : s.TypesNamed) (h : s.UnionIn id n u union) :
    s.nameLabel u = "union" := by
  have htype := h.described
  have hname := hnamed u union htype
  rcases hc : (s.node u).content with _ | _ | _ | _ | _ | spec
  case type => simp [nameLabel, hc, hname, h.name_eq]
  all_goals simp [hc, Content.describedType?] at htype

variable (hs : s.Framed)
include hs

theorem homeModule_eq (h : s.UnionIn id n u union) : s.homeModule u = s.homeModule id := by
  induction h with
  | type hu => exact homeModule_of_parent_node hs.parent_lt (hs.typesFit _ _ hu).2
  | member h hu _ _ ih =>
    rw [homeModule_of_parent_node hs.parent_lt (hs.membersFit _ _ h.described _ hu).2, ih]

theorem scopedLabel_eq (hnamed : s.TypesNamed) (h : s.UnionIn id n u union) :
    s.scopedLabel u = s.scopedLabel id ++ unionLabels (n + 1) := by
  induction h with
  | type hu hunion hname =>
    rw [scopedLabel_of_parent_node hs.parent_lt (hs.typesFit _ _ hu).2,
      nameLabel_eq hnamed (.type hu hunion hname)]
    simp [unionLabels, String.append_assoc]
  | @member n _ u _ _ h hu hunion hname ih =>
    have hlabels : unionLabels (n + 2) = unionLabels (n + 1) ++ "_" ++ "union" := rfl
    rw [scopedLabel_of_parent_node hs.parent_lt (hs.membersFit _ _ h.described _ hu).2,
      nameLabel_eq hnamed (.member h hu hunion hname), ih, hlabels]
    simp only [String.append_assoc]

end UnionIn

end Schema

namespace Session

variable {x : Session} {id a b t : NodeId} {m n i j : Nat} {spec spec' : TypeBody}
  {name name' : String}

/-! ### The names of members -/

/-- A type describes itself. -/
theorem ownType_of_described (h : (x.schema.node t).content.describedType? = some spec) :
    x.ownType t = .ok (t, spec) := by
  rcases hc : (x.schema.node t).content with _ | _ | _ | _ | _ | spec'
  case type =>
    obtain rfl : spec' = spec := by simpa [hc, Content.describedType?] using h
    simp [ownType, hc, Content.describedType?]
  all_goals simp [hc, Content.describedType?] at h

theorem valueTypeName_of_builtin (hown : x.ownType id = .ok (t, spec))
    (hbuiltin : spec.name ∈ builtinTypes) :
    x.valueTypeName id = Halt.lift (x.builtinName t spec) := by
  have hleafref : spec.name ≠ "leafref" := fun h ↦ absurd (h ▸ hbuiltin) (by decide)
  have hidentityref : spec.name ≠ "identityref" := fun h ↦ absurd (h ▸ hbuiltin) (by decide)
  have hmem := List.mem_append.1 hbuiltin
  simp only [valueTypeName, valueTypeNameBy, hown, directName, hleafref, hidentityref, hmem,
    if_false, if_true]

/-- **A member is named after the node around its union, the unions in between, its type and its
position.** -/
theorem valueTypeName_eq_ok_iff_of_memberIn (hs : x.schema.Framed) (hnamed : x.schema.TypesNamed)
    (h : x.schema.MemberIn id n i t spec) (hbuiltin : spec.name ∈ builtinTypes) :
    x.valueTypeName t = .ok name ↔
      ∃ place, x.registry.generatedName x.schema (x.schema.homeModule id)
          (x.schema.scopedLabel id) = .ok place ∧
        name = place ++ Schema.unionLabels (n + 1) ++ "_" ++ underscored spec.name ++ "_"
          ++ Nat.repr i := by
  obtain ⟨⟨u, union, hunion, hposition⟩, hspec⟩ := h
  obtain ⟨hi, ht, -⟩ := List.idxOf?_eq_some_iff.1 hposition
  have hparent := (hs.membersFit _ _ hunion.described t (ht ▸ List.getElem_mem hi)).2
  have hnaming : x.namingNode t = u := by simp [namingNode, Schema.enclosingNode?, hparent]
  have hindex : x.memberIndex? t = some i := by
    simp [memberIndex?, hnaming, hunion.described, hposition]
  have hplace : x.placeName t = (x.registry.generatedName x.schema (x.schema.homeModule id)
      (x.schema.scopedLabel id)).map (· ++ Schema.unionLabels (n + 1)) := by
    rw [placeName, hnaming, Schema.homeModule_of_parent_node hs.parent_lt hparent,
      hunion.homeModule_eq hs, hunion.scopedLabel_eq hs hnamed,
      Registry.generatedName_append _ _ _ _ (Schema.plain_unionLabels _)]
  rw [valueTypeName_of_builtin (ownType_of_described hspec) hbuiltin, lift_eq_ok_iff, builtinName,
    hindex]
  simp only [hplace]
  rcases x.registry.generatedName x.schema (x.schema.homeModule id) (x.schema.scopedLabel id) with
    fault | place
  · simp [Except.map]
  · simp [Except.map, eq_comm]

/-- **Two members inside the type of one node share a name exactly if they agree in depth, type and
position.** -/
theorem names_eq_iff_of_memberIn (hs : x.schema.Framed) (hnamed : x.schema.TypesNamed)
    (ha : x.schema.MemberIn id m i a spec) (hb : x.schema.MemberIn id n j b spec')
    (hspec : spec.name ∈ builtinTypes) (hspec' : spec'.name ∈ builtinTypes)
    (hname : x.valueTypeName a = .ok name) (hname' : x.valueTypeName b = .ok name') :
    name = name' ↔ m = n ∧ spec.name = spec'.name ∧ i = j := by
  obtain ⟨place, hplace, rfl⟩ :=
    (valueTypeName_eq_ok_iff_of_memberIn hs hnamed ha hspec).1 hname
  obtain ⟨place', hplace', rfl⟩ :=
    (valueTypeName_eq_ok_iff_of_memberIn hs hnamed hb hspec').1 hname'
  obtain rfl := Except.ok.inj (hplace.symm.trans hplace')
  rw [memberName_inj hspec hspec', String.append_right_inj, Schema.unionLabels_inj,
    Nat.succ_inj]

/-- Members of one union differ in their names. -/
theorem names_ne_of_mem_members (hs : x.schema.Framed) (hnamed : x.schema.TypesNamed)
    {u : NodeId} {union : TypeBody} (hunion : x.schema.UnionIn id n u union)
    (ha : a ∈ union.members) (hb : b ∈ union.members) (hab : a ≠ b)
    (hspec : (x.schema.node a).content.describedType? = some spec)
    (hspec' : (x.schema.node b).content.describedType? = some spec')
    (hbuiltin : spec.name ∈ builtinTypes) (hbuiltin' : spec'.name ∈ builtinTypes)
    (hname : x.valueTypeName a = .ok name) : x.valueTypeName b ≠ .ok name := by
  intro hname'
  obtain ⟨i, hi⟩ := Option.isSome_iff_exists.1 (List.isSome_idxOf?.2 ha)
  obtain ⟨j, hj⟩ := Option.isSome_iff_exists.1 (List.isSome_idxOf?.2 hb)
  obtain ⟨-, -, rfl⟩ := (names_eq_iff_of_memberIn hs hnamed ⟨⟨u, union, hunion, hi⟩, hspec⟩
    ⟨⟨u, union, hunion, hj⟩, hspec'⟩ hbuiltin hbuiltin' hname hname').1 rfl
  obtain ⟨_, rfl, -⟩ := List.idxOf?_eq_some_iff.1 hi
  obtain ⟨_, rfl, -⟩ := List.idxOf?_eq_some_iff.1 hj
  exact hab rfl

/-- **Members of unions inside the type of one node share a name exactly if they agree in depth,
type and position.** So members of unions that are members of the same union may share one. -/
theorem memberNames_eq_iff {s : Schema} {docs : List Document}
    (hdocs : Schema.ofDocuments docs = .ok s) {policy : Policy} (hx : start s policy = .ok x)
    (requests : List Request)
    (ha : (x.performAll requests).schema.MemberIn id m i a spec)
    (hb : (x.performAll requests).schema.MemberIn id n j b spec')
    (hspec : spec.name ∈ definedTypes ∨ spec.name ∈ primitiveTypes)
    (hspec' : spec'.name ∈ definedTypes ∨ spec'.name ∈ primitiveTypes)
    (hname : (x.performAll requests).valueTypeName a = .ok name)
    (hname' : (x.performAll requests).valueTypeName b = .ok name') :
    name = name' ↔ m = n ∧ spec.name = spec'.name ∧ i = j := by
  have houtline := (enriched_performAll (Schema.tidy_of_ofDocuments hdocs) hx requests).outline_eq
  have hnamed := (Schema.typesNamed_of_ofDocuments hdocs).of_outline_eq houtline
  exact names_eq_iff_of_memberIn (framed_performAll hdocs hx requests) hnamed ha hb
    (List.mem_append.2 hspec) (List.mem_append.2 hspec') hname hname'

/-- A union of two unions with members of one type. -/
def doubled : List Document :=
  [.module
    { name := "m", ownPrefix := "m", space := "urn:m"
      body := [
        .typed .leaf "a" none
          { name := "union"
            members := [
              { name := "union", members := [{ name := "string" }] },
              { name := "union", members := [{ name := "string" }] }] }] }]

/-- The inner unions, and the member of each. -/
theorem exists_start_doubled :
    ∃ x, start (Schema.ofBatch doubled) .strict = .ok x ∧
      (x.schema.MemberIn ⟨0⟩ 0 0 ⟨2⟩ { name := "union", members := [⟨3⟩] } ∧
        x.schema.MemberIn ⟨0⟩ 0 1 ⟨4⟩ { name := "union", members := [⟨5⟩] } ∧
        x.schema.MemberIn ⟨0⟩ 1 0 ⟨3⟩ { name := "string" } ∧
        x.schema.MemberIn ⟨0⟩ 1 0 ⟨5⟩ { name := "string" }) ∧
      x.valueTypeName ⟨2⟩ = .ok "M_a_union_union_0" ∧
      x.valueTypeName ⟨4⟩ = .ok "M_a_union_union_1" ∧
      x.valueTypeName ⟨3⟩ = .ok "M_a_union_union_string_0" ∧
      x.valueTypeName ⟨5⟩ = .ok "M_a_union_union_string_0" := by
  obtain ⟨x, hx, ⟨htype, houter, hfirst, hsecond, hleft, hright⟩, hnames⟩ :
      ∃ x, start (Schema.ofBatch doubled) .strict = .ok x ∧
        ((x.schema.node ⟨0⟩).content.typeHandle? = some ⟨1⟩ ∧
          (x.schema.node ⟨1⟩).content = .type { name := "union", members := [⟨2⟩, ⟨4⟩] } ∧
          (x.schema.node ⟨2⟩).content = .type { name := "union", members := [⟨3⟩] } ∧
          (x.schema.node ⟨4⟩).content = .type { name := "union", members := [⟨5⟩] } ∧
          (x.schema.node ⟨3⟩).content = .type { name := "string" } ∧
          (x.schema.node ⟨5⟩).content = .type { name := "string" }) ∧
        x.valueTypeName ⟨2⟩ = .ok "M_a_union_union_0" ∧
        x.valueTypeName ⟨4⟩ = .ok "M_a_union_union_1" ∧
        x.valueTypeName ⟨3⟩ = .ok "M_a_union_union_string_0" ∧
        x.valueTypeName ⟨5⟩ = .ok "M_a_union_union_string_0" :=
    exists_ok_of_any (by decide +kernel)
  have hunion : x.schema.UnionIn ⟨0⟩ 0 ⟨1⟩ _ := .type htype (congrArg _ houter) rfl
  have hunion₁ : x.schema.UnionIn ⟨0⟩ 1 ⟨2⟩ _ :=
    .member hunion (by decide) (congrArg _ hfirst) rfl
  have hunion₂ : x.schema.UnionIn ⟨0⟩ 1 ⟨4⟩ _ :=
    .member hunion (by decide) (congrArg _ hsecond) rfl
  refine ⟨x, hx, ⟨?_, ?_, ?_, ?_⟩, hnames⟩
  · exact ⟨⟨_, _, hunion, by decide⟩, congrArg _ hfirst⟩
  · exact ⟨⟨_, _, hunion, by decide⟩, congrArg _ hsecond⟩
  · exact ⟨⟨_, _, hunion₁, by decide⟩, congrArg _ hleft⟩
  · exact ⟨⟨_, _, hunion₂, by decide⟩, congrArg _ hright⟩

theorem memberNames_eq_iff_doubled :
    ∃ s x, Schema.ofDocuments doubled = .ok s ∧ start s .strict = .ok x ∧
      (x.schema.MemberIn ⟨0⟩ 0 0 ⟨2⟩ { name := "union", members := [⟨3⟩] } ∧
        x.schema.MemberIn ⟨0⟩ 0 1 ⟨4⟩ { name := "union", members := [⟨5⟩] } ∧
        ∃ name name', x.valueTypeName ⟨2⟩ = .ok name ∧ x.valueTypeName ⟨4⟩ = .ok name' ∧
          name ≠ name') ∧
      x.schema.MemberIn ⟨0⟩ 1 0 ⟨3⟩ { name := "string" } ∧
        x.schema.MemberIn ⟨0⟩ 1 0 ⟨5⟩ { name := "string" } ∧
        ∃ name name', x.valueTypeName ⟨3⟩ = .ok name ∧ x.valueTypeName ⟨5⟩ = .ok name' ∧
          name = name' := by
  obtain ⟨x, hx, ⟨h₂, h₄, h₃, h₅⟩, hname₂, hname₄, hname₃, hname₅⟩ := exists_start_doubled
  have hdocs : Schema.ofDocuments doubled = .ok (Schema.ofBatch doubled) :=
    Schema.ofDocuments_of_offences_eq_nil rfl
  have hunions := memberNames_eq_iff hdocs hx [] h₂ h₄ (by decide) (by decide) hname₂ hname₄
  have hstrings := memberNames_eq_iff hdocs hx [] h₃ h₅ (by decide) (by decide) hname₃ hname₅
  exact ⟨_, x, hdocs, hx,
    ⟨h₂, h₄, _, _, hname₂, hname₄, fun h ↦ absurd (hunions.1 h).2.2 (by decide)⟩,
    h₃, h₅, _, _, hname₃, hname₅, hstrings.2 ⟨rfl, rfl, rfl⟩⟩

/-- Two members inside the type of one leaf, of two unions that differ in their position only. -/
theorem exists_memberNames_eq_doubled :
    ∃ s x, Schema.ofDocuments doubled = .ok s ∧ start s .strict = .ok x ∧
      x.schema.MemberIn ⟨0⟩ 1 0 ⟨3⟩ { name := "string" } ∧
      x.schema.MemberIn ⟨0⟩ 1 0 ⟨5⟩ { name := "string" } ∧ (⟨3⟩ : NodeId) ≠ ⟨5⟩ ∧
      x.valueTypeName ⟨3⟩ = .ok "M_a_union_union_string_0" ∧
      x.valueTypeName ⟨5⟩ = .ok "M_a_union_union_string_0" := by
  obtain ⟨x, hx, ⟨-, -, h₃, h₅⟩, -, -, hname₃, hname₅⟩ := exists_start_doubled
  exact ⟨_, x, Schema.ofDocuments_of_offences_eq_nil rfl, hx, h₃, h₅, by decide, hname₃, hname₅⟩

end Session

end SchemaLink
