/-!
# JSON values

The tree that a JSON text denotes. **Objects keep their members as written**: in order and with
repeated keys, because a repeated key can make a record unreadable. **Numbers keep their spelling**;
the ones written with digits only are natural numbers if they are below `2 ^ 64`, which is all that
documents use.
-/

namespace SchemaLink

/-- A JSON value. -/
inductive Json where
  | null
  | bool (value : Bool)
  /-- A number below `2 ^ 64`, written with decimal digits only. -/
  | natural (value : Nat)
  /-- Any other number, as it is written. -/
  | number (literal : String)
  | string (text : String)
  | array (items : List Json)
  | object (members : List (String × Json))

namespace Json

/-- The text of a string. -/
def text? : Json → Option String
  | string s => some s
  | _ => none

/-- The value of a number written with digits only. -/
def natural? : Json → Option Nat
  | natural n => some n
  | _ => none

/-- The items of an array. -/
def items? : Json → Option (List Json)
  | array xs => some xs
  | _ => none

/-- The texts of an array of strings. -/
def texts? (j : Json) : Option (List String) :=
  j.items?.bind (·.mapM text?)

/-- The member with a given key; of repeated ones, the last. -/
def get? : Json → String → Option Json
  | object ms, key => (ms.reverse.find? (·.1 = key)).map Prod.snd
  | _, _ => none

end Json

end SchemaLink
