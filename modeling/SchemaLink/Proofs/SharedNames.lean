import SchemaLink.Proofs.IdentityTables
import SchemaLink.Proofs.MemberNames
import SchemaLink.Proofs.TopLevel

/-!
# Names that definitions and references share

The name of a generated type is computed twice: where the type is declared, from its place and the
own prefix of its module, and where it is referred to, from the text of the reference and the
imports of another module. **Both are the own prefix of one module, put in front of one name**
(`generatedName_of_moduleFor`, `generatedName_of_not_mem`), so they agree, whatever prefix the
reference uses for that module.

On the side of declarations this takes a declared name that can be read as a plain name: one
without a colon, and of a node at the top level, which is called by its name alone
(`scopedLabel_of_parent_submodule`). Identity tables hold a third copy of such names, made when the
identity was recorded. It stays right because nothing that a name depends on ever changes
(`NamesFamilies.recordable`).
-/

namespace SchemaLink

variable {s : Schema} {x y : Session} {r : Registry} {home owner : ModuleId} {id d t : NodeId}
  {written name : String} {spec : TypeBody}

/-! ### Two ways to the same name -/

/-- A text without a colon is a plain name. -/
theorem QName.ofString_of_not_mem (h : ':' ∉ written.toList) :
    QName.ofString written = ⟨none, written⟩ := by
  have hspan : written.toList.span (· != ':') = (written.toList, []) := by
    rw [List.span_eq_takeWhile_dropWhile]
    have hall : ∀ c ∈ written.toList, (c != ':') = true := by
      intro c hc
      simpa using fun hcolon : c = ':' ↦ h (hcolon ▸ hc)
    rw [List.takeWhile_eq_self_iff.2 hall, List.dropWhile_eq_nil_iff.2 hall]
  rw [ofString, ofChars, hspan, String.ofList_toList]

namespace Registry

/-- **The generated name for a reference** has the own prefix of the module that the qualifier
denotes. -/
theorem generatedName_of_moduleFor
    (h : r.moduleFor s home ((QName.ofString written).qualifier.getD "") = .ok owner) :
    r.generatedName s home written =
      .ok (Name.identifier
        ((s.module owner).ownPrefix ++ ":" ++ (QName.ofString written).name)) := by
  rcases hq : (QName.ofString written).qualifier with - | p
  · have hhome : r.moduleFor s home "" = .ok home := by simp [moduleFor]
    rw [hq, Option.getD_none, hhome] at h
    cases h
    simp [generatedName, hq]
  · rw [hq, Option.getD_some] at h
    simp [generatedName, hq, h]

/-- **The generated name for a declaration** has the own prefix of its module. -/
theorem generatedName_of_not_mem (h : ':' ∉ name.toList) :
    r.generatedName s home name =
      .ok (Name.identifier ((s.module home).ownPrefix ++ ":" ++ name)) := by
  simp [generatedName, QName.ofString_of_not_mem h]

end Registry

/-! ### Names of declarations -/

/-- Below the top level names are joined; at the top level there is one only. -/
theorem Schema.scopedLabel_of_parent_submodule {u : SubmoduleId}
    (hp : (s.node id).parent = .submodule u) : s.scopedLabel id = s.nameLabel id := by
  simp [scopedLabel, lineage, ancestors_of_parent_submodule hp]

theorem Schema.nameLabel_eq (hk : s.kind id ≠ .augment) : s.nameLabel id = (s.node id).name := by
  have hk : (s.node id).content.kind ≠ .augment := hk
  rcases hc : (s.node id).content with _ | _ | _ | _ | _ | _
  case augment => simp [hc, Content.kind] at hk
  all_goals simp [nameLabel, hc]

namespace Session

/-- An identity without a colon in its name, at the top level of a module, names its family after
the module and itself. -/
theorem IsAbout.familyTypeName_eq (hx : x.IsAbout s) (howner : owner.index < x.schema.modules.size)
    (hid : id ∈ x.schema.topLevel owner .identity) (hname : ':' ∉ (x.schema.node id).name.toList) :
    x.registry.familyTypeName x.schema id =
      .ok (Name.identifier ((x.schema.module owner).ownPrefix ++ ":" ++
        ((x.schema.node id).name ++ "_id"))) := by
  rw [Registry.familyTypeName, Registry.familyTypeNameOf,
    hx.homeModule_of_mem_topLevel howner rfl hid]
  refine Registry.generatedName_of_not_mem ?_
  rw [String.toList_append, List.mem_append, not_or]
  exact ⟨hname, by decide⟩

/-- A type definition without a colon in its name, at the top level of a module, is named after the
module and itself if its type gets its name from its place. -/
theorem IsAbout.valueTypeName_eq (hx : x.IsAbout s) (howner : owner.index < x.schema.modules.size)
    (hid : id ∈ x.schema.topLevel owner .typedef) (hname : ':' ∉ (x.schema.node id).name.toList)
    (hown : x.ownType id = .ok (t, spec))
    (hspec : spec.name ∈ definedTypes ∨ spec.name ∈ primitiveTypes ∧ spec.constrained = true) :
    x.valueTypeName id =
      .ok (Name.identifier
        ((x.schema.module owner).ownPrefix ++ ":" ++ (x.schema.node id).name)) := by
  have hkind : x.schema.kind id = .typedef := hx.kind_of_mem_topLevel rfl hid
  obtain ⟨u, -, hp⟩ := hx.exists_unit_of_mem_topLevel rfl hid
  obtain ⟨hty, hdescribed⟩ := (ownType_eq_ok_iff (by simp [hkind])).1 hown
  have hparent := (hx.framed_schema.typesFit id t hty).2
  have hnaming : x.namingNode t = id := by simp [namingNode, Schema.enclosingNode?, hparent]
  -- what carries the type is no union, so the type has no position
  have hindex : x.memberIndex? t = none := by
    obtain ⟨k, hc⟩ := Content.exists_typed_of_typeHandle? hty
    simp [memberIndex?, hnaming, hc, Content.describedType?]
  have hhome : x.schema.homeModule t = owner := by
    rw [Schema.homeModule_of_parent_node hx.framed_schema.parent_lt hparent,
      hx.homeModule_of_mem_topLevel howner rfl hid]
  have hplace : x.placeName t = .ok (Name.identifier
      ((x.schema.module owner).ownPrefix ++ ":" ++ (x.schema.node id).name)) := by
    rw [placeName, hnaming, hhome, Schema.scopedLabel_of_parent_submodule hp,
      Schema.nameLabel_eq (by simp [hkind]), Registry.generatedName_of_not_mem hname]
  have hbuiltin : spec.name ∈ builtinTypes :=
    List.mem_append.2 (hspec.imp_right And.left)
  have hgenerated : spec.name ∈ definedTypes ∨ spec.constrained = true :=
    hspec.imp_right And.right
  rw [valueTypeName_of_builtin hown hbuiltin, builtinName, hindex]
  simp only [if_pos hgenerated, hplace, Halt.lift]

/-! ### Names of references -/

theorem describedType?_of_ownType (hown : x.ownType id = .ok (t, spec)) :
    (x.schema.node t).content.describedType? = some spec := by
  rw [ownType] at hown
  split at hown
  · next found hfound =>
    cases hown
    obtain ⟨t', -, hspec⟩ := Option.bind_eq_some_iff.1 hfound
    obtain ⟨spec', hspec, heq⟩ := Option.map_eq_some_iff.1 hspec
    cases heq
    exact hspec
  · cases hown

/-- References are read in modules that are there. -/
theorem IsAbout.index_homeModule_of_ownType (hx : x.IsAbout s)
    (hown : x.ownType id = .ok (t, spec)) :
    (x.schema.homeModule t).index < x.schema.modules.size := by
  refine hx.index_homeModule_lt (Schema.index_lt_of_kind_ne_uses ?_)
  simp [Schema.kind_of_describedType?, describedType?_of_ownType hown]

/-- An identity reference is named after the identity that its base denotes. -/
theorem valueTypeName_of_identityref {base : String} (hown : x.ownType id = .ok (t, spec))
    (hspec : spec.name = "identityref") (hbase : spec.base = some base)
    (hnamed : x.registry.identityNamed? x.schema (x.schema.homeModule t) base = .ok (some d)) :
    ∃ owner, x.registry.moduleFor x.schema (x.schema.homeModule t)
        ((QName.ofString base).qualifier.getD "") = .ok owner ∧
      d ∈ x.schema.topLevel owner .identity ∧
      x.valueTypeName id =
        .ok (Name.identifier ((x.schema.module owner).ownPrefix ++ ":" ++
          ((x.schema.node d).name ++ "_id"))) := by
  have hreference : x.referenceBase t spec = .ok base := by
    simp [referenceBase, hbase, hnamed]
  simp only [Registry.identityNamed?] at hnamed
  split at hnamed
  · cases hnamed
  · next owner howner =>
    have hfound := Except.ok.inj hnamed
    have hname : (x.schema.node d).name = (QName.ofString base).name := by
      simpa using List.find?_some hfound
    refine ⟨owner, howner, Schema.mem_of_firstNamed? hfound, ?_⟩
    have happend : QName.ofString (base ++ "_id") =
        { QName.ofString base with name := (QName.ofString base).name ++ "_id" } :=
      QName.ofString_append (by decide)
    have hgenerated : x.registry.generatedName x.schema (x.schema.homeModule t) (base ++ "_id") =
        .ok (Name.identifier ((x.schema.module owner).ownPrefix ++ ":" ++
          ((x.schema.node d).name ++ "_id"))) := by
      rw [Registry.generatedName_of_moduleFor (by rw [happend]; exact howner), happend, hname]
    simp [valueTypeName, valueTypeNameBy, hown, hspec, directName, hreference,
      Registry.familyTypeNameOf, hgenerated, Halt.lift]

/-- A reference to a declared type is named after the module and the name that it denotes. -/
theorem valueTypeName_of_reference (hown : x.ownType id = .ok (t, spec))
    (hspec : spec.name ∉ "leafref" :: "identityref" :: builtinTypes)
    (howner : x.registry.moduleFor x.schema (x.schema.homeModule t)
      ((QName.ofString spec.name).qualifier.getD "") = .ok owner) :
    x.valueTypeName id =
      .ok (Name.identifier ((x.schema.module owner).ownPrefix ++ ":" ++
        (QName.ofString spec.name).name)) := by
  obtain ⟨hleafref, hidentityref, hbuiltin⟩ :
      spec.name ≠ "leafref" ∧ spec.name ≠ "identityref" ∧ spec.name ∉ builtinTypes := by
    simpa using hspec
  have hdeclared : ¬ (spec.name ∈ definedTypes ∨ spec.name ∈ primitiveTypes) :=
    fun h ↦ hbuiltin (List.mem_append.2 h)
  simp only [valueTypeName, valueTypeNameBy, hown, hleafref, directName, hidentityref, hdeclared,
    if_false, Registry.generatedName_of_moduleFor howner, Halt.lift]

/-! ### Names in tables -/

/-- Every table entry has the name of the family of its base. -/
def NamesFamilies (x : Session) : Prop :=
  ∀ u, ∀ entry ∈ (x.schema.submodule u).table,
    x.registry.familyTypeName x.schema entry.base = .ok entry.baseType

theorem familyTypeName_eq_of_setting_eq (h : y.setting = x.setting) (id : NodeId) :
    y.registry.familyTypeName y.schema id = x.registry.familyTypeName x.schema id := by
  have hregistry : y.setting.registry = x.setting.registry := by rw [h]
  have houtline : y.schema.outline = x.schema.outline := congrArg Session.schema h
  rw [← Registry.familyTypeName_outline, houtline, Registry.familyTypeName_outline,
    show y.registry = x.registry from hregistry]

theorem NamesFamilies.recordable : Recordable NamesFamilies where
  of_ledger_eq := by
    intro x y hx h u entry hentry
    have hsubmodules : y.ledger.schema.submodules = x.ledger.schema.submodules := by rw [h]
    rw [familyTypeName_eq_of_setting_eq (setting_eq_of_ledger_eq h)]
    refine hx u entry ?_
    rwa [Schema.submodule,
      show y.schema.submodules = x.schema.submodules from hsubmodules] at hentry
  withRoot := by
    intro x m id hx u entry hentry
    rw [familyTypeName_eq_of_setting_eq (setting_withRoot x m id)]
    refine hx u entry ?_
    rwa [Schema.submodule, submodules_withRoot] at hentry
  addEntries := by
    intro x u id hx v entry hentry
    have hsetting : (x.addEntries u (x.schema.node id).name (x.entriesOf id)).setting = x.setting :=
      Link.setting_eq_of_untabled_eq (Link.untabled_addEntries _ _ _ _)
    rw [familyTypeName_eq_of_setting_eq hsetting]
    rw [submodule_addEntries] at hentry
    split at hentry
    · rcases Submodule.mem_extendTable.1 hentry with hold | hnew
      · exact hx v entry hold
      · obtain ⟨_, _, -, ancestor, -, -, rfl, hname, -⟩ := mem_entriesOf_iff.1 hnew
        exact hname
    · exact hx v entry hentry

theorem namesFamilies_performAll {docs : List Document} (hdocs : Schema.ofDocuments docs = .ok s)
    {policy : Policy} (hx : start s policy = .ok x) (requests : List Request) :
    (x.performAll requests).NamesFamilies := by
  refine NamesFamilies.recordable.performAll (fun u entry hentry ↦ ?_) requests
  obtain ⟨r, -, rfl⟩ := exists_registry_of_start hx
  simp [(Schema.unrecorded_of_ofDocuments hdocs).table_eq u] at hentry

/-! ### Agreement -/

/-- **Definitions and references share their names**, in every session about a lowered schema, where
declared names have no colons. An identity reference, wherever it stands, has the name of the family
of the identity that its base denotes, and all table entries for that identity have the same name. A
reference to a declared type has the name of any type definition that stands under this name at the
top level of the module that its prefix denotes, if the definition gets its own name from its
place. -/
theorem names_shared {s : Schema} {docs : List Document} (hdocs : Schema.ofDocuments docs = .ok s)
    {policy : Policy} (hx : start s policy = .ok x) (requests : List Request) :
    let y := x.performAll requests
    (∀ id ty spec base identity, y.ownType id = .ok (ty, spec) → spec.name = "identityref" →
      spec.base = some base →
      y.registry.identityNamed? y.schema (y.schema.homeModule ty) base = .ok (some identity) →
      ':' ∉ (y.schema.node identity).name.toList →
        ∃ name, y.valueTypeName id = .ok name ∧
          y.registry.familyTypeName y.schema identity = .ok name ∧
          ∀ u, ∀ entry ∈ (y.schema.submodule u).table,
            entry.base = identity → entry.baseType = name) ∧
    ∀ id ty spec owner d dty dspec, y.ownType id = .ok (ty, spec) →
      spec.name ∉ "leafref" :: "identityref" :: builtinTypes →
      y.registry.moduleFor y.schema (y.schema.homeModule ty)
        ((QName.ofString spec.name).qualifier.getD "") = .ok owner →
      d ∈ y.schema.topLevel owner .typedef →
      (y.schema.node d).name = (QName.ofString spec.name).name →
      ':' ∉ (y.schema.node d).name.toList →
      y.ownType d = .ok (dty, dspec) →
      dspec.name ∈ definedTypes ∨ dspec.name ∈ primitiveTypes ∧ dspec.constrained = true →
        ∃ name, y.valueTypeName id = .ok name ∧ y.valueTypeName d = .ok name := by
  intro y
  have hy : y.IsAbout s := (isAbout_start hdocs hx).performAll requests
  refine ⟨?_, ?_⟩
  · intro id ty spec base identity hown hspec hbase hnamed hcolon
    obtain ⟨owner, howner, hmem, hname⟩ := valueTypeName_of_identityref hown hspec hbase hnamed
    have hmodule := hy.index_lt_of_moduleFor (hy.index_homeModule_of_ownType hown) howner
    have hfamily := hy.familyTypeName_eq hmodule hmem hcolon
    refine ⟨_, hname, hfamily, fun u entry hentry hentryBase ↦ ?_⟩
    have hentryName := namesFamilies_performAll hdocs hx requests u entry hentry
    rw [hentryBase, hfamily] at hentryName
    exact (Except.ok.inj hentryName).symm
  · intro id ty spec owner d dty dspec hown hspec howner hmem hname hcolon hdown hdspec
    have hmodule := hy.index_lt_of_moduleFor (hy.index_homeModule_of_ownType hown) howner
    refine ⟨_, valueTypeName_of_reference hown hspec howner, ?_⟩
    rw [hy.valueTypeName_eq hmodule hmem hcolon hdown hdspec, hname]

/-- A union in a submodule, whose members refer to an identity and a type definition of another
module, under a prefix that is not the one of that module. -/
def commissioned : List Document :=
  [.module
    { name := "m", ownPrefix := "m", space := "urn:m"
      body := [
        .identity "tool" none [],
        .typed (.typedef) "percent" none { name := "uint8", range := some "0..100" }] },
   .module
    { name := "n", ownPrefix := "n", space := "urn:n"
      imports := [{ module := "m", localPrefix := "k" }]
      body := [.identity "saw" none ["k:tool"]] },
   .submodule
    { name := "n-extra", owner := "n"
      body := [
        .typed .leaf "order" none
          { name := "union"
            members := [{ name := "identityref", base := some "k:tool" },
              { name := "k:percent" }] }] }]

theorem names_shared_commissioned :
    ∃ s x, Schema.ofDocuments commissioned = .ok s ∧ start s .strict = .ok x ∧
      let y := x.performAll [.identities ⟨1⟩]
      (y.ownType ⟨6⟩ = .ok (⟨6⟩, { name := "identityref", base := some "k:tool" }) ∧
        y.registry.familyTypeName y.schema ⟨0⟩ = .ok "M_tool_id" ∧
        y.valueTypeName ⟨6⟩ = .ok "M_tool_id" ∧
        ∃ entry ∈ (y.schema.submodule ⟨1⟩).table, entry.base = ⟨0⟩ ∧
          entry.baseType = "M_tool_id") ∧
      y.ownType ⟨7⟩ = .ok (⟨7⟩, { name := "k:percent" }) ∧
        y.valueTypeName ⟨1⟩ = .ok "M_percent" ∧ y.valueTypeName ⟨7⟩ = .ok "M_percent" := by
  have hdocs : Schema.ofDocuments commissioned = .ok (Schema.ofBatch commissioned) :=
    Schema.ofDocuments_of_offences_eq_nil rfl
  obtain ⟨x, hx, ⟨hreference, hnamed, hidentity, hfamily, hentry⟩, hreference', howner, hmem,
      htypedef, hown, hplace⟩ :
      ∃ x, start (Schema.ofBatch commissioned) .strict = .ok x ∧
        let y := x.performAll [.identities ⟨1⟩]
        (y.ownType ⟨6⟩ = .ok (⟨6⟩, { name := "identityref", base := some "k:tool" }) ∧
          y.registry.identityNamed? y.schema (y.schema.homeModule ⟨6⟩) "k:tool" =
            .ok (some ⟨0⟩) ∧
          (y.schema.node ⟨0⟩).name = "tool" ∧
          y.registry.familyTypeName y.schema ⟨0⟩ = .ok "M_tool_id" ∧
          ∃ entry ∈ (y.schema.submodule ⟨1⟩).table, entry.base = ⟨0⟩) ∧
        y.ownType ⟨7⟩ = .ok (⟨7⟩, { name := "k:percent" }) ∧
        y.registry.moduleFor y.schema (y.schema.homeModule ⟨7⟩) "k" = .ok ⟨0⟩ ∧
        ⟨1⟩ ∈ y.schema.topLevel ⟨0⟩ .typedef ∧ (y.schema.node ⟨1⟩).name = "percent" ∧
        y.ownType ⟨1⟩ = .ok (⟨2⟩, { name := "uint8", range := some "0..100" }) ∧
        y.valueTypeName ⟨1⟩ = .ok "M_percent" :=
    exists_ok_of_any (by decide +kernel)
  obtain ⟨hidentities, htypes⟩ := names_shared hdocs hx [.identities ⟨1⟩]
  obtain ⟨name, hname, hname', htable⟩ :=
    hidentities _ _ _ _ _ hreference rfl rfl hnamed (by rw [hidentity]; decide)
  obtain rfl : name = "M_tool_id" := Except.ok.inj (hname'.symm.trans hfamily)
  obtain ⟨entry, hentry, hbase⟩ := hentry
  obtain ⟨name, htype, htype'⟩ :=
    htypes _ _ _ _ _ _ _ hreference' (by decide) howner hmem htypedef (by rw [htypedef]; decide)
      hown (by decide)
  obtain rfl : name = "M_percent" := Except.ok.inj (htype'.symm.trans hplace)
  exact ⟨_, x, hdocs, hx,
    ⟨hreference, hfamily, hname, entry, hentry, hbase, htable _ entry hentry hbase⟩,
    hreference', hplace, htype⟩

end Session

end SchemaLink
