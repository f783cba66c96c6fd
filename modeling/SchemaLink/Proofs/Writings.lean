import Mathlib.Data.List.Forall2
import SchemaLink.Proofs.Records

/-!
# The writings of a document

A document can be written as a JSON value in many ways. Each record on its own is an object or an
array; an object has its members in any order and may have further ones, an array may end early; and
the kind of a statement is given by its keyword or by its number. `Document.WrittenAs` collects all
of these. **Every writing of a document is read as that document**
(`Document.reads_every_writing`).

The slots of a record are the values that it gives (`Form.Gives.slots`), however it is written. What
remains to be shown of each record is that its parts are read.
-/

namespace SchemaLink

/-! ### Writings -/

namespace Json

/-- A text is written as a string. -/
def IsText (text : String) (v : Option Json) : Prop :=
  v = some (.string text)

/-- A value that must be there. -/
def IsPresent (written : Json → Prop) (v : Option Json) : Prop :=
  ∃ j, v = some j ∧ written j

/-- A text that is not there is left out or written as `null`. -/
def IsOptionalText : Option String → Option Json → Prop
  | none, v => v = none ∨ v = some .null
  | some text, v => IsText text v

/-- A list may be left out if it is empty. -/
def IsList {α : Type} (items : List α) (written : List Json → Prop) (v : Option Json) : Prop :=
  items = [] ∧ v = none ∨ ∃ js, v = some (.array js) ∧ written js

/-- A list of texts may be left out if it is empty. -/
def IsTexts (texts : List String) : Option Json → Prop :=
  IsList texts fun js ↦ js = texts.map string

/-- A record is an object or an array, and for each field there is what its value may be. -/
def IsRecord (fields : List String) (allowed : List (Option Json → Prop)) (j : Json) : Prop :=
  ∃ form values, j.form? = some form ∧ form.Gives fields values ∧
    List.Forall₂ (fun v p ↦ p v) values allowed

end Json

mutual

/-- A type is written as a JSON value. -/
def TypeDescription.WrittenAs : TypeDescription → Json → Prop
  | ⟨name, range, length, pattern, path, base, members, enums⟩ =>
    Json.IsRecord TypeDescription.fields
      [Json.IsText name, Json.IsOptionalText range, Json.IsOptionalText length,
        Json.IsOptionalText pattern, Json.IsOptionalText path, Json.IsOptionalText base,
        Json.IsList members (TypeDescription.ListWrittenAs members), Json.IsTexts enums]

/-- Types are written one by one. -/
def TypeDescription.ListWrittenAs : List TypeDescription → List Json → Prop
  | [], js => js = []
  | t :: ts, js => ∃ j rest, js = j :: rest ∧ t.WrittenAs j ∧ TypeDescription.ListWrittenAs ts rest

end

/-- The kind of a statement is written as its keyword or as its number. -/
def StatementKind.WrittenAs (kind : StatementKind) (j : Json) : Prop :=
  j = .string kind.kind.keyword ∨ ∃ n, numbered[n]? = some kind ∧ j = .natural n

namespace Statement

/-- A statement is a record that gives its kind before its other fields. -/
def IsRecord (kind : StatementKind) (allowed : List (Option Json → Prop)) : Json → Prop :=
  Json.IsRecord (tag :: fields kind) (Json.IsPresent kind.WrittenAs :: allowed)

end Statement

mutual

/-- A statement is written as a JSON value. -/
def Statement.WrittenAs : Statement → Json → Prop
  | .block kind name description body =>
    Statement.IsRecord (.block kind) [Json.IsText name, Json.IsOptionalText description,
      Json.IsList body (Statement.ListWrittenAs body)]
  | .typed kind name description type =>
    Statement.IsRecord (.typed kind) [Json.IsText name, Json.IsOptionalText description,
      Json.IsPresent type.WrittenAs]
  | .uses grouping => Statement.IsRecord .uses [Json.IsText grouping]
  | .augment target description body =>
    Statement.IsRecord .augment [Json.IsText target, Json.IsOptionalText description,
      Json.IsList body (Statement.ListWrittenAs body)]
  | .identity name description bases =>
    Statement.IsRecord .identity
      [Json.IsText name, Json.IsOptionalText description, Json.IsTexts bases]

/-- Statements are written one by one. -/
def Statement.ListWrittenAs : List Statement → List Json → Prop
  | [], js => js = []
  | st :: sts, js => ∃ j rest, js = j :: rest ∧ st.WrittenAs j ∧ Statement.ListWrittenAs sts rest

end

/-- An import is written as a JSON value. -/
def Import.WrittenAs (i : Import) : Json → Prop :=
  Json.IsRecord fields [Json.IsText i.module, Json.IsText i.localPrefix]

/-- A document is written as a JSON value. -/
def Document.WrittenAs : Document → Json → Prop
  | module doc =>
    Json.IsRecord ModuleDescription.fields
      [Json.IsText doc.name, Json.IsText doc.ownPrefix, Json.IsText doc.space,
        Json.IsOptionalText doc.description,
        Json.IsList doc.imports (List.Forall₂ Import.WrittenAs doc.imports),
        Json.IsTexts doc.includes, Json.IsList doc.body (Statement.ListWrittenAs doc.body)]
  | submodule doc =>
    Json.IsRecord SubmoduleDescription.fields
      [Json.IsText doc.name, Json.IsText doc.owner,
        Json.IsList doc.body (Statement.ListWrittenAs doc.body)]

/-! ### Readings -/

namespace Reading

theorem ofMembers_eq (members : List (String × Json)) :
    ofMembers members = members.map fun e ↦ (e.1, of e.2) := by
  induction members with
  | nil => rfl
  | cons e members ih => rw [ofMembers, ih, List.map_cons]

theorem ofItems_eq (items : List Json) : ofItems items = items.map of := by
  induction items with
  | nil => rfl
  | cons j items ih => rw [ofItems, ih, List.map_cons]

theorem json_of (j : Json) : (of j).json = j := by
  cases j <;> simp [of]

/-- A record is read by the readings of its parts. -/
theorem of_form {j : Json} {form : Form Json} (h : j.form? = some form) :
    (of j).type = TypeDescription.ofForm? (form.map of) ∧
      (of j).statement = Statement.ofForm? (form.map of) := by
  cases j with
  | array items =>
    obtain rfl := Option.some.inj h
    simp [of, Form.map, ofItems_eq]
  | object members =>
    obtain rfl := Option.some.inj h
    simp [of, Form.map, ofMembers_eq]
  | null | bool | natural | number | string => cases h

end Reading

/-! ### Parts of records -/

namespace Json

variable {text : String} {optional : Option String} {texts : List String} {v : Option Json}

/-- A text is read, from the value that is written and from its reading. -/
theorem IsText.required (h : IsText text v) :
    Form.required text? v = some text ∧
      Form.required Reading.text? (v.map Reading.of) = some text := by
  rw [show v = _ from h]
  refine ⟨rfl, ?_⟩
  show (Reading.of (.string text)).json.text? = some text
  rw [Reading.json_of]
  rfl

theorem IsPresent.required {β : Type} {b : β} {written : Json → Prop} {read : Reading → Option β}
    (h : IsPresent written v) (hread : ∀ j, written j → read (.of j) = some b) :
    Form.required read (v.map Reading.of) = some b := by
  obtain ⟨j, rfl, hwritten⟩ := h
  exact hread j hwritten

theorem IsOptionalText.optionalText (h : IsOptionalText optional v) :
    optionalText v = some optional ∧
      Reading.optionalText (v.map Reading.of) = some optional := by
  have hread : Json.optionalText v = some optional := by
    cases optional with
    | none => obtain rfl | rfl := h <;> rfl
    | some text => rw [show v = _ from h]; rfl
  have hjson : (v.map Reading.of).map Reading.json = v := by
    cases v <;> simp [Reading.json_of]
  exact ⟨hread, by rw [Reading.optionalText, hjson, hread]⟩

/-- A list is read whether it is written or left out. -/
theorem IsList.listed_map {α β : Type} {items : List α} {written : List Json → Prop} (f : Json → β)
    {read : β → Option (List α)} (h : IsList items written v)
    (hread : ∀ js, written js → read (f (.array js)) = some items) :
    Form.listed read (v.map f) = some items := by
  obtain ⟨rfl, rfl⟩ | ⟨js, rfl, hwritten⟩ := h
  · rfl
  · exact hread js hwritten

theorem IsList.listed {α : Type} {items : List α} {written : List Json → Prop}
    {read : Json → Option (List α)} (h : IsList items written v)
    (hread : ∀ js, written js → read (.array js) = some items) :
    Form.listed read v = some items := by
  simpa using h.listed_map id hread

theorem texts?_map_string (texts : List String) :
    (array (texts.map string)).texts? = some texts := by
  show (texts.map string).mapM text? = some texts
  induction texts with
  | nil => rfl
  | cons text texts ih => rw [List.map_cons, List.mapM_cons, ih]; rfl

theorem IsTexts.listed (h : IsTexts texts v) :
    Form.listed texts? v = some texts ∧
      Form.listed Reading.texts? (v.map Reading.of) = some texts := by
  constructor
  · exact IsList.listed h fun js hwritten ↦ hwritten ▸ texts?_map_string texts
  · refine IsList.listed_map Reading.of h fun js hwritten ↦ ?_
    rw [Reading.texts?, Reading.json_of, hwritten, texts?_map_string]

/-- The values of a record are the slots of the form in which it is written. -/
theorem IsRecord.slots {fields : List String} {allowed : List (Option Json → Prop)} {j : Json}
    (h : j.IsRecord fields allowed) (hfields : fields.Nodup)
    (hlength : allowed.length = fields.length) (hkeys : fields ⊆ Document.keys) :
    ∃ form values, j.form? = some form ∧ List.Forall₂ (fun v p ↦ p v) values allowed ∧
      form.slots fields = some values ∧
      (form.map Reading.of).slots fields = some (values.map (·.map Reading.of)) := by
  obtain ⟨form, values, hform, hgives, hvalues⟩ := h
  have hvaluesLength := hvalues.length_eq.trans hlength
  exact ⟨form, values, hform, hvalues, hgives.slots hfields hvaluesLength hkeys,
    (hgives.map Reading.of).slots hfields (by simpa using hvaluesLength) hkeys⟩

end Json

/-! ### Types -/

namespace TypeDescription

/-- A type is read if the members of the union are. -/
theorem type_of_isRecord {name : String} {range length pattern path base : Option String}
    {members : List TypeDescription} {enums : List String} {written : List Json → Prop} {j : Json}
    (h : j.IsRecord fields
      [Json.IsText name, Json.IsOptionalText range, Json.IsOptionalText length,
        Json.IsOptionalText pattern, Json.IsOptionalText path, Json.IsOptionalText base,
        Json.IsList members written, Json.IsTexts enums])
    (hmembers : ∀ js, written js → (Reading.of (.array js)).types = some members) :
    (Reading.of j).type = some ⟨name, range, length, pattern, path, base, members, enums⟩ := by
  obtain ⟨form, values, hform, hvalues, -, hslots⟩ := h.slots (by decide) rfl (by decide)
  match values, hvalues with
  | [_, _, _, _, _, _, _, _],
    .cons hname (.cons hrange (.cons hlength (.cons hpattern (.cons hpath (.cons hbase
      (.cons hlist (.cons henums .nil))))))) =>
    rw [(Reading.of_form hform).1, ofForm?, hslots]
    simp [hname.required, hrange.optionalText, hlength.optionalText, hpattern.optionalText,
      hpath.optionalText, hbase.optionalText, hlist.listed_map Reading.of hmembers, henums.listed]

mutual

theorem type_of_writtenAs {j : Json} (t : TypeDescription) (h : t.WrittenAs j) :
    (Reading.of j).type = some t := by
  match t with
  | ⟨name, range, length, pattern, path, base, members, enums⟩ =>
    rw [WrittenAs] at h
    exact type_of_isRecord h fun js hjs ↦ types_of_listWrittenAs members hjs

theorem types_of_listWrittenAs {js : List Json} (ts : List TypeDescription)
    (h : ListWrittenAs ts js) : (Reading.of (.array js)).types = some ts := by
  rw [Reading.of, Reading.ofItems_eq]
  match ts with
  | [] =>
    rw [ListWrittenAs] at h
    rw [h]
    rfl
  | t :: ts =>
    rw [ListWrittenAs] at h
    obtain ⟨j, rest, rfl, ht, hts⟩ := h
    have hrest := types_of_listWrittenAs ts hts
    rw [Reading.of, Reading.ofItems_eq] at hrest
    simp only at hrest ⊢
    rw [List.map_cons, List.mapM_cons, type_of_writtenAs t ht, hrest]
    rfl

end

end TypeDescription

/-! ### Statements -/

namespace StatementKind

/-- The kind of a statement is read off its keyword. -/
theorem ofJson?_keyword (k : StatementKind) : ofJson? (.string k.kind.keyword) = some k := by
  rcases k with k | k | _ | _ | _
  all_goals first | decide | (cases k <;> decide)

theorem ofJson?_of_writtenAs {k : StatementKind} {j : Json} (h : k.WrittenAs j) :
    ofJson? j = some k := by
  obtain rfl | ⟨n, hn, rfl⟩ := h
  · exact ofJson?_keyword k
  · exact hn

end StatementKind

namespace Statement

/-- A statement is read by its kind. -/
theorem IsRecord.statement {kind : StatementKind} {allowed : List (Option Json → Prop)} {j : Json}
    (h : IsRecord kind allowed j) (hlength : allowed.length = (fields kind).length) :
    ∃ form values, (Reading.of j).statement = ofFields? kind form ∧
      List.Forall₂ (fun v p ↦ p v) values allowed ∧
      form.slots (fields kind) = some (values.map (·.map Reading.of)) := by
  obtain ⟨form, _, hform, hgives, hall⟩ := h
  obtain ⟨_, values, ⟨jkind, rfl, hkind⟩, hvalues, rfl⟩ := List.forall₂_cons_right_iff.1 hall
  obtain ⟨rest, huntag, hrest⟩ :=
    (hgives.map Reading.of).untag (tag_notMem_fields kind) (by decide)
  refine ⟨rest, _, ?_, hvalues, hrest.slots (nodup_fields kind) ?_ (fields_subset_keys kind)⟩
  · rw [(Reading.of_form hform).2, ofForm?, huntag]
    simp only [Reading.json_of, StatementKind.ofJson?_of_writtenAs hkind, Option.bind_some]
  · rw [List.length_map, hvalues.length_eq, hlength]

mutual

theorem statement_of_writtenAs {j : Json} (st : Statement) (h : st.WrittenAs j) :
    (Reading.of j).statement = some st := by
  match st with
  | .block kind name description body =>
    rw [WrittenAs] at h
    obtain ⟨form, values, hread, hvalues, hslots⟩ := h.statement rfl
    match values, hvalues with
    | [_, _, _], .cons hname (.cons hdescription (.cons hlist .nil)) =>
      have hbody := hlist.listed_map Reading.of fun js hjs ↦ statements_of_listWrittenAs body hjs
      simp only [fields] at hslots
      simp [hread, ofFields?, hslots, hname.required, hdescription.optionalText, hbody]
  | .typed kind name description type =>
    rw [WrittenAs] at h
    obtain ⟨form, values, hread, hvalues, hslots⟩ := h.statement rfl
    match values, hvalues with
    | [_, _, _], .cons hname (.cons hdescription (.cons hpresent .nil)) =>
      have htype := hpresent.required fun j hj ↦ TypeDescription.type_of_writtenAs type hj
      simp only [fields] at hslots
      simp [hread, ofFields?, hslots, hname.required, hdescription.optionalText, htype]
  | .uses grouping =>
    rw [WrittenAs] at h
    obtain ⟨form, values, hread, hvalues, hslots⟩ := h.statement rfl
    match values, hvalues with
    | [_], .cons hname .nil =>
      simp only [fields] at hslots
      simp [hread, ofFields?, hslots, hname.required]
  | .augment target description body =>
    rw [WrittenAs] at h
    obtain ⟨form, values, hread, hvalues, hslots⟩ := h.statement rfl
    match values, hvalues with
    | [_, _, _], .cons htarget (.cons hdescription (.cons hlist .nil)) =>
      have hbody := hlist.listed_map Reading.of fun js hjs ↦ statements_of_listWrittenAs body hjs
      simp only [fields] at hslots
      simp [hread, ofFields?, hslots, htarget.required, hdescription.optionalText, hbody]
  | .identity name description bases =>
    rw [WrittenAs] at h
    obtain ⟨form, values, hread, hvalues, hslots⟩ := h.statement rfl
    match values, hvalues with
    | [_, _, _], .cons hname (.cons hdescription (.cons hbases .nil)) =>
      simp only [fields] at hslots
      simp [hread, ofFields?, hslots, hname.required, hdescription.optionalText, hbases.listed]

theorem statements_of_listWrittenAs {js : List Json} (sts : List Statement)
    (h : ListWrittenAs sts js) : (Reading.of (.array js)).statements = some sts := by
  rw [Reading.of, Reading.ofItems_eq]
  match sts with
  | [] =>
    rw [ListWrittenAs] at h
    rw [h]
    rfl
  | st :: sts =>
    rw [ListWrittenAs] at h
    obtain ⟨j, rest, rfl, hst, hsts⟩ := h
    have hrest := statements_of_listWrittenAs sts hsts
    rw [Reading.of, Reading.ofItems_eq] at hrest
    simp only at hrest ⊢
    rw [List.map_cons, List.mapM_cons, statement_of_writtenAs st hst, hrest]
    rfl

end

theorem listOfJson?_of_writtenAs {sts : List Statement} {js : List Json}
    (h : ListWrittenAs sts js) : listOfJson? (.array js) = some sts :=
  statements_of_listWrittenAs sts h

end Statement

/-! ### Documents -/

namespace Import

theorem ofJson?_of_writtenAs {i : Import} {j : Json} (h : i.WrittenAs j) : ofJson? j = some i := by
  obtain ⟨form, values, hform, hvalues, hslots, -⟩ :=
    Json.IsRecord.slots h (by decide) rfl (by decide)
  match values, hvalues with
  | [_, _], .cons hmodule (.cons hprefix .nil) =>
    simp only [fields] at hslots
    simp [ofJson?, hform, hslots, hmodule.required, hprefix.required]

theorem listOfJson?_of_writtenAs {imports : List Import} {js : List Json}
    (h : List.Forall₂ WrittenAs imports js) : listOfJson? (.array js) = some imports := by
  show js.mapM ofJson? = some imports
  induction h with
  | nil => rfl
  | cons hj _ ih => rw [List.mapM_cons, ofJson?_of_writtenAs hj, ih]; rfl

end Import

namespace Document

theorem ofJson?_of_writtenAs_module {doc : ModuleDescription} {j : Json}
    (h : (module doc).WrittenAs j) : ModuleDescription.ofJson? j = some doc := by
  obtain ⟨form, values, hform, hvalues, hslots, -⟩ :=
    Json.IsRecord.slots h (by decide) rfl (by decide)
  match values, hvalues with
  | [_, _, _, _, _, _, _],
    .cons hname (.cons hprefix (.cons hspace (.cons hdescription (.cons hlist (.cons hincludes
      (.cons hbody .nil)))))) =>
    have himports := hlist.listed fun js hjs ↦ Import.listOfJson?_of_writtenAs hjs
    have hstatements := hbody.listed fun js hjs ↦ Statement.listOfJson?_of_writtenAs hjs
    simp [ModuleDescription.ofJson?, hform, hslots, hname.required, hprefix.required,
      hspace.required, hdescription.optionalText, himports, hincludes.listed, hstatements]

theorem ofJson?_of_writtenAs_submodule {doc : SubmoduleDescription} {j : Json}
    (h : (submodule doc).WrittenAs j) : SubmoduleDescription.ofJson? j = some doc := by
  obtain ⟨form, values, hform, hvalues, hslots, -⟩ :=
    Json.IsRecord.slots h (by decide) rfl (by decide)
  match values, hvalues with
  | [_, _, _], .cons hname (.cons howner (.cons hbody .nil)) =>
    have hstatements := hbody.listed fun js hjs ↦ Statement.listOfJson?_of_writtenAs hjs
    simp [SubmoduleDescription.ofJson?, hform, hslots, hname.required, howner.required,
      hstatements]

/-- A record without a text for the name or the name space of a module is no module. -/
theorem ofJson?_module_eq_none {j : Json} {form : Form Json} (hform : j.form? = some form)
    (h : ∀ name ownPrefix space rest,
      form.slots ModuleDescription.fields = some (name :: ownPrefix :: space :: rest) →
        Form.required Json.text? name = none ∨ Form.required Json.text? space = none) :
    ModuleDescription.ofJson? j = none := by
  rw [ModuleDescription.ofJson?, hform, Option.bind_some]
  split
  · next name ownPrefix space description imports includes body hslots =>
    rcases h _ _ _ _ hslots with hname | hspace
    · simp [hname]
    · simp [hspace]
  · rfl

/-- A writing of a submodule is not one of a module: as an object it has no member for the name of
one, and as an array it has its statements where a module has its name space. -/
theorem ofJson?_of_writtenAs_submodule_eq_none {doc : SubmoduleDescription} {j : Json}
    (h : (submodule doc).WrittenAs j) : ModuleDescription.ofJson? j = none := by
  obtain ⟨form, values, hform, hgives, hvalues⟩ := h
  refine ofJson?_module_eq_none hform fun name ownPrefix space rest hslots ↦ ?_
  cases form with
  | named members =>
    left
    obtain ⟨further, hmembers, hforeign⟩ := hgives
    have hothers : ∀ e ∈ Form.present SubmoduleDescription.fields values ++ further,
        e.1 ≠ "module" := by
      intro e he heq
      rcases List.mem_append.1 he with he | he
      · exact absurd (heq ▸ Form.fst_mem_of_mem_present he) (by decide)
      · exact hforeign e he (heq ▸ by decide)
    have hnone : Form.valuesOf members "module" = [] :=
      ((Form.valuesOf_perm hmembers _).trans (.of_eq (Form.valuesOf_eq_nil hothers))).eq_nil
    have hname := Form.atMostOne_of_slots_cons hslots
    rw [hnone] at hname
    obtain rfl : none = name := Option.some.inj hname
    rfl
  | positional items =>
    right
    obtain ⟨n, rfl⟩ := hgives
    obtain rfl : space = items[2]? :=
      Option.some.inj (Form.getElem?_of_slots_positional hslots (by decide : 2 < 7))
    match items, hvalues with
    | [], _ | [_], _ | [_, _], _ => rfl
    | [_, _, third], .cons _ (.cons _ (.cons hbody _)) =>
      obtain ⟨-, hthird⟩ | ⟨js, hthird, -⟩ := hbody
      · cases hthird
      · obtain rfl := Option.some.inj hthird
        rfl
    | _ :: _ :: _ :: _ :: _, .cons _ (.cons _ (.cons _ hnil)) => cases hnil

/-- **Every writing of a document is read as that document.** -/
theorem reads_every_writing {doc : Document} {j : Json} (h : doc.WrittenAs j) :
    ofJson? j = some doc := by
  match doc with
  | module doc => rw [ofJson?, ofJson?_of_writtenAs_module h]
  | submodule doc =>
    rw [ofJson?, ofJson?_of_writtenAs_submodule_eq_none h, ofJson?_of_writtenAs_submodule h]
    rfl

/-- A union of one type. -/
def soleUnion : TypeDescription where
  name := "union"
  members := [{ name := "string" }]

/-- The union as an array that ends with its members, around an object with a member that means
nothing. -/
def soleUnionWriting : Json :=
  .array [.string "union", .null, .null, .null, .null, .null,
    .array [.object [("name", .string "string"), ("revision", .natural 2)]]]

theorem writtenAs_soleUnion : soleUnion.WrittenAs soleUnionWriting := by
  have hmember : TypeDescription.WrittenAs { name := "string" }
      (.object [("name", .string "string"), ("revision", .natural 2)]) := by
    rw [TypeDescription.WrittenAs]
    exact ⟨_, [some (.string "string"), none, none, none, none, none, none, none], rfl,
      ⟨[("revision", .natural 2)], .refl _, by decide⟩,
      .cons rfl (.cons (.inl rfl) (.cons (.inl rfl) (.cons (.inl rfl) (.cons (.inl rfl)
        (.cons (.inl rfl) (.cons (.inl ⟨rfl, rfl⟩) (.cons (.inl ⟨rfl, rfl⟩) .nil)))))))⟩
  rw [soleUnion, TypeDescription.WrittenAs]
  exact ⟨_, _, rfl, ⟨1, rfl⟩,
    .cons rfl (.cons (.inr rfl) (.cons (.inr rfl) (.cons (.inr rfl) (.cons (.inr rfl)
      (.cons (.inr rfl) (.cons (.inr ⟨_, rfl, _, _, rfl, hmember, rfl⟩)
      (.cons (.inl ⟨rfl, rfl⟩) .nil)))))))⟩

/-- A module with an import, a leaf and a use. -/
def mixed : Document :=
  .module
    { name := "m", ownPrefix := "p", space := "urn:m", imports := [⟨"a", "b"⟩]
      body := [.typed .leaf "l" none soleUnion, .uses "g"] }

/-- The module as an object with its description, a `null`, in front, and without includes. The leaf
is an array that gives its kind by number, and the use an object that gives its kind at the end. -/
def mixedWriting : Json :=
  .object
    [("description", .null), ("module", .string "m"), ("prefix", .string "p"),
      ("namespace", .string "urn:m"), ("imports", .array [.array [.string "a", .string "b"]]),
      ("body", .array
        [.array [.natural 6, .string "l", .null, soleUnionWriting],
          .object [("name", .string "g"), ("kind", .string "uses")]]),
      ("note", .bool true)]

theorem writtenAs_mixed : mixed.WrittenAs mixedWriting := by
  have hleaf : Statement.WrittenAs (.typed .leaf "l" none soleUnion)
      (.array [.natural 6, .string "l", .null, soleUnionWriting]) := by
    rw [Statement.WrittenAs]
    exact ⟨_, _, rfl, ⟨0, rfl⟩, .cons ⟨_, rfl, .inr ⟨6, rfl, rfl⟩⟩
      (.cons rfl (.cons (.inr rfl) (.cons ⟨_, rfl, writtenAs_soleUnion⟩ .nil)))⟩
  have huse : Statement.WrittenAs (.uses "g")
      (.object [("name", .string "g"), ("kind", .string "uses")]) := by
    rw [Statement.WrittenAs]
    exact ⟨_, [some (.string "uses"), some (.string "g")], rfl, ⟨[], .swap _ _ _, by simp⟩,
      .cons ⟨_, rfl, .inl rfl⟩ (.cons rfl .nil)⟩
  have himport : Import.WrittenAs ⟨"a", "b"⟩ (.array [.string "a", .string "b"]) :=
    ⟨_, _, rfl, ⟨0, rfl⟩, .cons rfl (.cons rfl .nil)⟩
  -- the description is moved back to its place, behind the first three fields
  have hmoved (members : List (String × Json)) := @List.perm_middle _ ("description", Json.null)
    [("module", .string "m"), ("prefix", .string "p"), ("namespace", .string "urn:m")] members
  exact ⟨_, [some (.string "m"), some (.string "p"), some (.string "urn:m"), some .null,
      some _, none, some _], rfl, ⟨[("note", .bool true)], (hmoved _).symm, by decide⟩,
    .cons rfl (.cons rfl (.cons rfl (.cons (.inr rfl) (.cons (.inr ⟨_, rfl, .cons himport .nil⟩)
      (.cons (.inl ⟨rfl, rfl⟩) (.cons (.inr ⟨_, rfl, _, _, rfl, hleaf, _, _, rfl, huse, rfl⟩)
      .nil))))))⟩

/-- A document whose records are written in different ways. -/
theorem reads_every_writing_mixed :
    mixed.WrittenAs mixedWriting ∧ ofJson? mixedWriting = some mixed :=
  ⟨writtenAs_mixed, reads_every_writing writtenAs_mixed⟩

end Document

end SchemaLink
