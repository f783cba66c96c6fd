import SchemaLink.Json.Basic

/-!
# Records in JSON

A record can be written in two ways: as an object with a member for each field, or as an array with
the values of the fields in their declared order. `Form.slots` brings both to one shape: for each
declared field the value it has, if it is present.

**Unknown members are ignored, repeated known ones are not**: an object that gives a declared field
twice is no record. An array may leave out fields at its end, but not have more items than there are
fields.
-/

namespace SchemaLink

/-- A record as it is written, over values of type `α`. -/
inductive Form (α : Type) where
  | named (members : List (String × α))
  | positional (items : List α)

namespace Form

variable {α β : Type}

/-- The values that an object gives for a field. -/
def valuesOf (members : List (String × α)) (field : String) : List α :=
  (members.filter (·.1 = field)).map Prod.snd

/-- One optional value, unless there are several. -/
def atMostOne : List α → Option (Option α)
  | [] => some none
  | [a] => some (some a)
  | _ => none

/-- For each declared field its value, if present. -/
def slots (fields : List String) : Form α → Option (List (Option α))
  | named members => fields.mapM fun f ↦ atMostOne (valuesOf members f)
  | positional items =>
    if items.length ≤ fields.length then
      some (items.map some ++ List.replicate (fields.length - items.length) none)
    else none

/-- Separates the value that says of what kind a record is: the member with the key `tag`, which
must occur once, or the first item. -/
def untag (tag : String) : Form α → Option (α × Form α)
  | named members =>
    match valuesOf members tag with
    | [a] => some (a, named (members.filter (·.1 ≠ tag)))
    | _ => none
  | positional [] => none
  | positional (a :: items) => some (a, positional items)

/-- A field that must be present. -/
def required (read : α → Option β) (slot : Option α) : Option β :=
  slot.bind read

/-- A field that is an empty list when it is absent. -/
def listed (read : α → Option (List β)) : Option α → Option (List β)
  | none => some []
  | some a => read a

end Form

/-- The record form of a JSON value. -/
def Json.form? : Json → Option (Form Json)
  | .array items => some (.positional items)
  | .object members => some (.named members)
  | _ => none

/-- A field that may be absent or `null`. -/
def Json.optionalText : Option Json → Option (Option String)
  | none => some none
  | some .null => some none
  | some (.string s) => some (some s)
  | some _ => none

end SchemaLink
