/-!
# Qualified names

A reference to something declared elsewhere is written `qualifier:name`; without a colon it is a
plain name of the surrounding module. The qualifier is a prefix that the module binds to another
module (or its own prefix), and may be the empty text.

`identifier` turns any name into one that generated code can use.
-/

namespace SchemaLink

/-- A name with an optional qualifier. -/
structure QName where
  /-- What stands before the first colon, if there is one. -/
  qualifier : Option String
  /-- The local name. -/
  name : String
deriving DecidableEq

namespace QName

/-- Reads a qualified name: the first colon separates, later colons belong to the name. -/
def ofChars (cs : List Char) : QName :=
  match cs.span (· != ':') with
  | (_, []) => ⟨none, String.ofList cs⟩
  | (q, _ :: n) => ⟨some (String.ofList q), String.ofList n⟩

/-- Reads a qualified name from a text. -/
def ofString (s : String) : QName :=
  ofChars s.toList

/-- The written form. -/
def toString (q : QName) : String :=
  match q.qualifier with
  | some p => p ++ ":" ++ q.name
  | none => q.name

end QName

namespace Name

/-- Separators that cannot stand in an identifier become underscores. -/
def plainChar (c : Char) : Char :=
  if c = ':' ∨ c = '.' ∨ c = '-' then '_' else c

/-- Upper-cases a leading ASCII letter. -/
def capitalize : List Char → List Char
  | [] => []
  | c :: cs => c.toUpper :: cs

/-- The identifier for a name: separators become `_` and the first letter is a capital. -/
def identifier (s : String) : String :=
  String.ofList (capitalize (s.toList.map plainChar))

end Name

end SchemaLink
