import SchemaLink.Document.ToJson
import SchemaLink.Proofs.Writings

/-!
# Documents are read as they are written

A document is written as JSON in one way and read from many. What is written is one of the writings
of the document (`Document.writtenAs_toJson`), so **it is read back as it was**
(`Document.ofJson?_toJson`), at any nesting of statements and of union members, and a value that has
been read and written once does not change any more (`Document.reads_as_written`).

All records are written alike: each field that has a value is a member of an object, in declared
order, and fields without a value are left out.
-/

namespace SchemaLink

/-! ### Records -/

namespace Json

/-- A text that may be absent, as the value of a field. -/
def ofOptionalText (text : Option String) : Option Json :=
  text.map .string

/-- A list that is written only if there is anything in it. -/
def ofListed {α : Type} (items : List α) (js : List Json) : Option Json :=
  if items.isEmpty then none else some (.array js)

theorem optionalMember_eq (key : String) (text : Option String) :
    optionalMember key text = ((ofOptionalText text).map (key, ·)).toList := by
  cases text <;> rfl

theorem listedMember_eq {α : Type} (key : String) (items : List α) (js : List Json) :
    (if items.isEmpty then [] else [(key, array js)]) =
      ((ofListed items js).map (key, ·)).toList := by
  unfold ofListed
  split <;> rfl

theorem isOptionalText_ofOptionalText (text : Option String) :
    IsOptionalText text (ofOptionalText text) := by
  cases text with
  | none => exact .inl rfl
  | some text => rfl

theorem isList_ofListed {α : Type} {items : List α} {written : List Json → Prop} {js : List Json}
    (h : written js) : IsList items written (ofListed items js) := by
  unfold ofListed
  split
  · next hempty => exact .inl ⟨List.isEmpty_iff.1 hempty, rfl⟩
  · exact .inr ⟨js, rfl, h⟩

theorem isList_array {α : Type} {items : List α} {written : List Json → Prop} {js : List Json}
    (h : written js) : IsList items written (some (.array js)) :=
  .inr ⟨js, rfl, h⟩

theorem isTexts_ofTexts (texts : List String) : IsTexts texts (some (ofTexts texts)) :=
  isList_array rfl

/-- An object with the fields that have a value is a record. -/
theorem isRecord_object {fields : List String} {values : List (Option Json)}
    {allowed : List (Option Json → Prop)} {members : List (String × Json)}
    (hmembers : members = Form.present fields values)
    (hvalues : List.Forall₂ (fun v p ↦ p v) values allowed) :
    (object members).IsRecord fields allowed :=
  ⟨_, values, rfl, ⟨[], by rw [hmembers, List.append_nil], by simp⟩, hvalues⟩

end Json

open Json

/-! ### Types and statements -/

mutual

theorem TypeDescription.writtenAs_toJson (t : TypeDescription) : t.WrittenAs t.toJson := by
  match t with
  | ⟨name, range, length, pattern, path, base, members, enums⟩ =>
    rw [WrittenAs, toJson]
    refine isRecord_object ?_ (.cons rfl (.cons (isOptionalText_ofOptionalText range)
      (.cons (isOptionalText_ofOptionalText length) (.cons (isOptionalText_ofOptionalText pattern)
      (.cons (isOptionalText_ofOptionalText path) (.cons (isOptionalText_ofOptionalText base)
      (.cons (isList_ofListed (listWrittenAs_listToJson members))
      (.cons (isList_ofListed rfl) .nil))))))))
    simp only [fields, optionalMember_eq, listedMember_eq, ofTexts]
    simp

theorem TypeDescription.listWrittenAs_listToJson (ts : List TypeDescription) :
    ListWrittenAs ts (listToJson ts) := by
  match ts with
  | [] => rw [ListWrittenAs, listToJson]
  | t :: ts =>
    rw [ListWrittenAs, listToJson]
    exact ⟨_, _, rfl, writtenAs_toJson t, listWrittenAs_listToJson ts⟩

end

namespace Statement

/-- An object that gives the kind of a statement first is a record. -/
theorem isRecord_object {kind : StatementKind} {values : List (Option Json)}
    {allowed : List (Option Json → Prop)} {members : List (String × Json)}
    (hmembers : members =
      (tag, .string kind.kind.keyword) :: Form.present (fields kind) values)
    (hvalues : List.Forall₂ (fun v p ↦ p v) values allowed) :
    IsRecord kind allowed (.object members) :=
  Json.isRecord_object (by simp [hmembers])
    (.cons ⟨.string kind.kind.keyword, rfl, .inl rfl⟩ hvalues)

mutual

theorem writtenAs_toJson (st : Statement) : st.WrittenAs st.toJson := by
  match st with
  | .block kind name description body =>
    rw [WrittenAs, toJson]
    refine isRecord_object ?_ (.cons rfl (.cons (isOptionalText_ofOptionalText description)
      (.cons (isList_array (listWrittenAs_listToJson body)) .nil)))
    simp [StatementKind.kind, tag, fields, optionalMember_eq]
  | .typed kind name description type =>
    rw [WrittenAs, toJson]
    refine isRecord_object ?_ (.cons rfl (.cons (isOptionalText_ofOptionalText description)
      (.cons ⟨_, rfl, type.writtenAs_toJson⟩ .nil)))
    simp [StatementKind.kind, tag, fields, optionalMember_eq]
  | .uses grouping =>
    rw [WrittenAs, toJson]
    exact isRecord_object rfl (.cons rfl .nil)
  | .augment target description body =>
    rw [WrittenAs, toJson]
    refine isRecord_object ?_ (.cons rfl (.cons (isOptionalText_ofOptionalText description)
      (.cons (isList_array (listWrittenAs_listToJson body)) .nil)))
    simp [StatementKind.kind, Kind.keyword, tag, fields, optionalMember_eq]
  | .identity name description bases =>
    rw [WrittenAs, toJson]
    refine isRecord_object ?_ (.cons rfl (.cons (isOptionalText_ofOptionalText description)
      (.cons (isTexts_ofTexts bases) .nil)))
    simp [StatementKind.kind, Kind.keyword, tag, fields, optionalMember_eq]

theorem listWrittenAs_listToJson (sts : List Statement) :
    ListWrittenAs sts (listToJson sts) := by
  match sts with
  | [] => rw [ListWrittenAs, listToJson]
  | st :: sts =>
    rw [ListWrittenAs, listToJson]
    exact ⟨_, _, rfl, writtenAs_toJson st, listWrittenAs_listToJson sts⟩

end

end Statement

/-! ### Documents -/

theorem Import.writtenAs_toJson (i : Import) : i.WrittenAs i.toJson :=
  isRecord_object rfl (.cons rfl (.cons rfl .nil))

theorem Import.forall₂_writtenAs_map (imports : List Import) :
    List.Forall₂ Import.WrittenAs imports (imports.map Import.toJson) := by
  rw [List.forall₂_map_right_iff, List.forall₂_same]
  exact fun i _ ↦ i.writtenAs_toJson

namespace Document

/-- What is written for a document is one of its writings. -/
theorem writtenAs_toJson (doc : Document) : doc.WrittenAs doc.toJson := by
  match doc with
  | module doc =>
    refine isRecord_object ?_ (.cons rfl (.cons rfl (.cons rfl
      (.cons (isOptionalText_ofOptionalText doc.description)
      (.cons (isList_array (Import.forall₂_writtenAs_map doc.imports))
      (.cons (isTexts_ofTexts doc.includes)
      (.cons (isList_array (Statement.listWrittenAs_listToJson doc.body)) .nil)))))))
    simp [ModuleDescription.fields, optionalMember_eq]
  | submodule doc =>
    exact isRecord_object rfl (.cons rfl (.cons rfl
      (.cons (isList_array (Statement.listWrittenAs_listToJson doc.body)) .nil)))

/-- **A document is read as it was written**, and as what it was. -/
theorem ofJson?_toJson (doc : Document) : ofJson? doc.toJson = some doc := by
  have hwritten := doc.writtenAs_toJson
  match doc with
  | module doc => rw [ofJson?, ofJson?_of_writtenAs_module hwritten]
  | submodule doc =>
    rw [ofJson?, ofJson?_of_writtenAs_submodule_eq_none hwritten,
      ofJson?_of_writtenAs_submodule hwritten]
    rfl

/-- What a value becomes when it is read as a document and written again. -/
def normalized? (j : Json) : Option Json :=
  (ofJson? j).map toJson

/-- **Every document is read as it was written, and one reading makes a value canonical**: a value
that has been read and written is not changed by reading and writing it again. -/
theorem reads_as_written :
    (∀ doc : Document, ofJson? doc.toJson = some doc) ∧
      ∀ j, (normalized? j).bind normalized? = normalized? j := by
  refine ⟨ofJson?_toJson, fun j ↦ ?_⟩
  rcases hdoc : ofJson? j with - | doc
  · simp [normalized?, hdoc]
  · simp [normalized?, hdoc, ofJson?_toJson]

/-- A submodule whose record is an array, with its body left out. -/
example : normalized? (.array [.string "part", .string "whole"]) =
    some (.object [("submodule", .string "part"), ("belongs_to", .string "whole"),
      ("body", .array [])]) := by
  rfl

end Document

end SchemaLink
