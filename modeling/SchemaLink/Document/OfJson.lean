import SchemaLink.Document.Basic
import SchemaLink.Document.Form
import SchemaLink.Fault
import SchemaLink.Json.Reader

/-!
# Documents from JSON

**A value is read from the inside out.** Its `Reading` records everything that it can stand for at a
place of a document: a type, a list of types, a statement, a list of statements. The reading of an
array or object is computed from the readings of its parts, so reading is plain recursion on the
JSON tree and each level has one equation.

A document is a module if it can be read as one, else a submodule, else nothing.
-/

namespace SchemaLink

/-- What a JSON value can stand for. -/
structure Reading where
  /-- The value itself. -/
  json : Json
  type : Option TypeDescription
  types : Option (List TypeDescription)
  statement : Option Statement
  statements : Option (List Statement)

namespace Reading

/-- The text of a string value. -/
def text? (r : Reading) : Option String :=
  r.json.text?

/-- The texts of an array of strings. -/
def texts? (r : Reading) : Option (List String) :=
  r.json.texts?

/-- A text that may be absent or `null`. -/
def optionalText (slot : Option Reading) : Option (Option String) :=
  Json.optionalText (slot.map Reading.json)

end Reading

namespace TypeDescription

/-- The fields of a type, in declared order. -/
def fields : List String :=
  ["name", "range", "length", "pattern", "path", "base", "members", "enums"]

/-- The type that a record denotes. -/
def ofForm? (form : Form Reading) : Option TypeDescription :=
  match form.slots fields with
  | some [name, range, length, pattern, path, base, members, enums] => do
    some {
      name := ← Form.required Reading.text? name
      range := ← Reading.optionalText range
      length := ← Reading.optionalText length
      pattern := ← Reading.optionalText pattern
      path := ← Reading.optionalText path
      base := ← Reading.optionalText base
      members := ← Form.listed Reading.types members
      enums := ← Form.listed Reading.texts? enums }
  | _ => none

end TypeDescription

namespace StatementKind

/-- The kind of a statement, given by keyword or by number. -/
def ofJson? : Json → Option StatementKind
  | .string s => ofKeyword? s
  | .natural n => numbered[n]?
  | _ => none

end StatementKind

namespace Statement

/-- The key under which an object gives the kind of a statement. -/
def tag : String := "kind"

/-- The statement of a known kind that the other fields denote. -/
def ofFields? (kind : StatementKind) (form : Form Reading) : Option Statement :=
  match kind with
  | .block k =>
    match form.slots ["name", "description", "body"] with
    | some [name, description, body] => do
      some (.block k (← Form.required Reading.text? name) (← Reading.optionalText description)
        (← Form.listed Reading.statements body))
    | _ => none
  | .typed k =>
    match form.slots ["name", "description", "type"] with
    | some [name, description, type] => do
      some (.typed k (← Form.required Reading.text? name) (← Reading.optionalText description)
        (← Form.required Reading.type type))
    | _ => none
  | .uses =>
    match form.slots ["name"] with
    | some [name] => (Form.required Reading.text? name).map .uses
    | _ => none
  | .augment =>
    match form.slots ["target", "description", "body"] with
    | some [target, description, body] => do
      some (.augment (← Form.required Reading.text? target) (← Reading.optionalText description)
        (← Form.listed Reading.statements body))
    | _ => none
  | .identity =>
    match form.slots ["name", "description", "bases"] with
    | some [name, description, bases] => do
      some (.identity (← Form.required Reading.text? name) (← Reading.optionalText description)
        (← Form.listed Reading.texts? bases))
    | _ => none

/-- The statement that a record denotes. -/
def ofForm? (form : Form Reading) : Option Statement :=
  match form.untag tag with
  | some (kind, rest) => (StatementKind.ofJson? kind.json).bind fun k ↦ ofFields? k rest
  | none => none

end Statement

mutual

/-- Reads a JSON value. -/
def Reading.of (j : Json) : Reading :=
  match j with
  | .array items =>
    let parts := Reading.ofItems items
    { json := .array items
      type := TypeDescription.ofForm? (.positional parts)
      types := parts.mapM Reading.type
      statement := Statement.ofForm? (.positional parts)
      statements := parts.mapM Reading.statement }
  | .object members =>
    let parts := Reading.ofMembers members
    { json := .object members
      type := TypeDescription.ofForm? (.named parts)
      types := none
      statement := Statement.ofForm? (.named parts)
      statements := none }
  | j => { json := j, type := none, types := none, statement := none, statements := none }

/-- Reads the items of an array. -/
def Reading.ofItems (items : List Json) : List Reading :=
  match items with
  | [] => []
  | j :: js => Reading.of j :: Reading.ofItems js

/-- Reads the members of an object. -/
def Reading.ofMembers (members : List (String × Json)) : List (String × Reading) :=
  match members with
  | [] => []
  | (k, j) :: ms => (k, Reading.of j) :: Reading.ofMembers ms

end

/-- The statements that an array denotes. -/
def Statement.listOfJson? (j : Json) : Option (List Statement) :=
  (Reading.of j).statements

namespace Import

/-- The import that a JSON value denotes. -/
def ofJson? (j : Json) : Option Import :=
  match j.form?.bind (Form.slots ["module", "prefix"]) with
  | some [module, localPrefix] => do
    some ⟨← Form.required Json.text? module, ← Form.required Json.text? localPrefix⟩
  | _ => none

/-- The imports that an array denotes. -/
def listOfJson? (j : Json) : Option (List Import) :=
  j.items?.bind (·.mapM ofJson?)

end Import

namespace ModuleDescription

/-- The fields of a module, in declared order. -/
def fields : List String :=
  ["module", "prefix", "namespace", "description", "imports", "includes", "body"]

/-- The module that a JSON value denotes. -/
def ofJson? (j : Json) : Option ModuleDescription :=
  match j.form?.bind (Form.slots fields) with
  | some [name, ownPrefix, space, description, imports, includes, body] => do
    some {
      name := ← Form.required Json.text? name
      ownPrefix := ← Form.required Json.text? ownPrefix
      space := ← Form.required Json.text? space
      description := ← Json.optionalText description
      imports := ← Form.listed Import.listOfJson? imports
      includes := ← Form.listed Json.texts? includes
      body := ← Form.listed Statement.listOfJson? body }
  | _ => none

end ModuleDescription

namespace SubmoduleDescription

/-- The fields of a submodule, in declared order. -/
def fields : List String :=
  ["submodule", "belongs_to", "body"]

/-- The submodule that a JSON value denotes. -/
def ofJson? (j : Json) : Option SubmoduleDescription :=
  match j.form?.bind (Form.slots fields) with
  | some [name, owner, body] => do
    some {
      name := ← Form.required Json.text? name
      owner := ← Form.required Json.text? owner
      body := ← Form.listed Statement.listOfJson? body }
  | _ => none

end SubmoduleDescription

namespace Document

/-- The document that a JSON value denotes. -/
def ofJson? (j : Json) : Option Document :=
  match ModuleDescription.ofJson? j with
  | some doc => some (module doc)
  | none => (SubmoduleDescription.ofJson? j).map submodule

/-- The complaint about a value that is neither a module nor a submodule. -/
def mismatch : String :=
  "data did not match any variant of untagged enum Document"

/-- The complaint about a text that is not JSON. -/
def malformed : String :=
  "JSON syntax error"

/-- Reads a document from a text. What follows the value is looked at only when the value is a
document. -/
def parse (source text : String) : Except Fault Document :=
  match Json.read? text.toList with
  | none => .error (.invalidDocument source malformed)
  | some (j, rest) =>
    match ofJson? j with
    | none => .error (.invalidDocument source mismatch)
    | some doc =>
      if Json.skipBlanks rest = [] then .ok doc else .error (.invalidDocument source malformed)

end Document

end SchemaLink
