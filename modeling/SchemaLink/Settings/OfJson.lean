import SchemaLink.Json.Reader
import SchemaLink.Settings.Scalar
import SchemaLink.Settings.Value

/-!
# Settings files in JSON

A settings file may be a JSON object. Of repeated keys the last one counts. Truth values and numbers
are taken as texts, in their normal form.
-/

namespace SchemaLink.Settings

namespace Value

mutual

/-- The value that a JSON value stands for. -/
def ofJson : Json → Value
  | .null => nothing
  | .bool b => text (if b then "true" else "false")
  | .natural n => text (scalar (Nat.repr n))
  | .number literal => text (scalar literal)
  | .string s => text s
  | .array items => list (ofItems items)
  | .object members => ofMembers (table []) members

/-- The values of the items of an array. -/
def ofItems : List Json → List Value
  | [] => []
  | j :: js => ofJson j :: ofItems js

/-- Adds the members of an object to a table. -/
def ofMembers (v : Value) : List (String × Json) → Value
  | [] => v
  | (key, j) :: ms => ofMembers (v.put key (ofJson j)) ms

end

end Value

/-- Reads a settings file in JSON. -/
def readJson (text : String) : Option Value :=
  match Json.parse? text with
  | some (.object members) => some (Value.ofJson (.object members))
  | _ => none

end SchemaLink.Settings
