import SchemaLink.Text.Case

/-!
# Layers of settings

Settings come in layers: trees of named values. A layer is laid over another one key by key, so that
a later layer changes only what it mentions; a list is replaced as a whole. Keys count without
regard to case: they are put into lower case when a layer is laid, and stay as they are before.
-/

namespace SchemaLink.Settings

/-- A value in a layer. -/
inductive Value where
  /-- No value, which takes the place of missing items of a list. -/
  | nothing
  | text (s : String)
  | list (items : List Value)
  | table (entries : List (String × Value))

namespace Value

/-- The text of a text. -/
def text? : Value → Option String
  | text s => some s
  | _ => none

/-- The items of a list; any other value has none. -/
def items : Value → List Value
  | list vs => vs
  | _ => []

/-- The entries of a table; any other value has none. -/
def entries : Value → List (String × Value)
  | table es => es
  | _ => []

/-- The value under a key. -/
def get? (v : Value) (key : String) : Option Value :=
  v.entries.lookup key

/-- A table with one key changed. A value that is no table gives way to one. -/
def put (v : Value) (key : String) (new : Value) : Value :=
  table ((key, new) :: v.entries.filter (·.1 ≠ key))

mutual

/-- Lays a value over an old one. A table is laid over entry by entry; an old value that is no table
gives way to the first entry. -/
def lay (old : Option Value) : Value → Value
  | table es => layAll (old.getD (table [])) es
  | new => new

/-- Lays entries over a value. -/
def layAll (old : Value) : List (String × Value) → Value
  | [] => old
  | (key, new) :: es =>
    layAll (old.put (Text.lowerCase key) (lay (old.get? (Text.lowerCase key)) new)) es

end

end Value

end SchemaLink.Settings
