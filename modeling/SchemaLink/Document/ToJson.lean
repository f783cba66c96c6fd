import SchemaLink.Document.Basic
import SchemaLink.Json.Basic

/-!
# Documents to JSON

The canonical JSON of a document: every record as an object, absent descriptions and type fields
left out, lists of imports, includes, statements and bases always written, union members and labels
only when there are any.
-/

namespace SchemaLink

/-- A member that is written only if there is a value. -/
def Json.optionalMember (key : String) : Option String → List (String × Json)
  | none => []
  | some s => [(key, .string s)]

/-- An array of strings. -/
def Json.ofTexts (texts : List String) : Json :=
  .array (texts.map .string)

mutual

/-- The JSON of a type. -/
def TypeDescription.toJson : TypeDescription → Json
  | ⟨name, range, length, pattern, path, base, members, enums⟩ =>
    .object
      (("name", .string name) :: Json.optionalMember "range" range
        ++ Json.optionalMember "length" length ++ Json.optionalMember "pattern" pattern
        ++ Json.optionalMember "path" path ++ Json.optionalMember "base" base
        ++ (if members.isEmpty then []
          else [("members", .array (TypeDescription.listToJson members))])
        ++ (if enums.isEmpty then [] else [("enums", Json.ofTexts enums)]))

/-- The JSON of several types. -/
def TypeDescription.listToJson : List TypeDescription → List Json
  | [] => []
  | t :: ts => t.toJson :: TypeDescription.listToJson ts

end

mutual

/-- The JSON of a statement. -/
def Statement.toJson : Statement → Json
  | .block kind name description body =>
    .object
      (("kind", .string kind.kind.keyword) :: ("name", .string name)
        :: Json.optionalMember "description" description
        ++ [("body", .array (Statement.listToJson body))])
  | .typed kind name description type =>
    .object
      (("kind", .string kind.kind.keyword) :: ("name", .string name)
        :: Json.optionalMember "description" description ++ [("type", type.toJson)])
  | .uses grouping => .object [("kind", .string "uses"), ("name", .string grouping)]
  | .augment target description body =>
    .object
      (("kind", .string "augment") :: ("target", .string target)
        :: Json.optionalMember "description" description
        ++ [("body", .array (Statement.listToJson body))])
  | .identity name description bases =>
    .object
      (("kind", .string "identity") :: ("name", .string name)
        :: Json.optionalMember "description" description ++ [("bases", Json.ofTexts bases)])

/-- The JSON of several statements. -/
def Statement.listToJson : List Statement → List Json
  | [] => []
  | s :: ss => s.toJson :: Statement.listToJson ss

end

/-- The JSON of an import. -/
def Import.toJson (i : Import) : Json :=
  .object [("module", .string i.module), ("prefix", .string i.localPrefix)]

/-- The JSON of a document. -/
def Document.toJson : Document → Json
  | module doc =>
    .object
      (("module", .string doc.name) :: ("prefix", .string doc.ownPrefix)
        :: ("namespace", .string doc.space) :: Json.optionalMember "description" doc.description
        ++ [("imports", .array (doc.imports.map Import.toJson)),
          ("includes", Json.ofTexts doc.includes),
          ("body", .array (Statement.listToJson doc.body))])
  | submodule doc =>
    .object
      [("submodule", .string doc.name), ("belongs_to", .string doc.owner),
        ("body", .array (Statement.listToJson doc.body))]

end SchemaLink
