import SchemaLink.Json.Number
import SchemaLink.Json.Quoted

/-!
# Reading JSON

A strict reader for JSON texts. It takes one value from the front of a text and gives back what
follows, so that the caller decides whether anything may follow.

**Nesting is limited** to `maxDepth` arrays and objects within each other. **The fuel** of the
mutual recursion is never the reason for a failure: every two calls use up a character, and
`Json.read?` starts with twice the length of the text.
-/

namespace SchemaLink.Json

/-- The blanks that may stand between tokens. -/
def isJsonBlank (c : Char) : Bool :=
  c = ' ' || c = '\n' || c = '\t' || c = '\r'

/-- Skips blanks between tokens. -/
def skipBlanks (cs : List Char) : List Char :=
  cs.dropWhile isJsonBlank

/-- How deep arrays and objects may be nested. -/
def maxDepth : Nat := 127

/-- The rest of a text after a given word. -/
def afterWord? : List Char → List Char → Option (List Char)
  | [], cs => some cs
  | w :: ws, c :: cs => if w = c then afterWord? ws cs else none
  | _ :: _, [] => none

mutual

/-- Reads one value; `depth` more levels of nesting are allowed. -/
def readValue (fuel depth : Nat) (cs : List Char) : Option (Json × List Char) :=
  match fuel with
  | 0 => none
  | fuel + 1 =>
    match skipBlanks cs with
    | [] => none
    | '"' :: cs => (readQuoted .plain cs).map fun r ↦ (string (String.ofList r.1), r.2)
    | '[' :: cs =>
      match depth with
      | 0 => none
      | depth + 1 =>
        match skipBlanks cs with
        | ']' :: cs => some (array [], cs)
        | cs => (readItems fuel depth cs).map fun r ↦ (array r.1, r.2)
    | '{' :: cs =>
      match depth with
      | 0 => none
      | depth + 1 =>
        match skipBlanks cs with
        | '}' :: cs => some (object [], cs)
        | cs => (readMembers fuel depth cs).map fun r ↦ (object r.1, r.2)
    | 'n' :: cs => (afterWord? ['u', 'l', 'l'] cs).map fun r ↦ (null, r)
    | 't' :: cs => (afterWord? ['r', 'u', 'e'] cs).map fun r ↦ (bool true, r)
    | 'f' :: cs => (afterWord? ['a', 'l', 's', 'e'] cs).map fun r ↦ (bool false, r)
    | c :: cs => readNumber (c :: cs)

/-- Reads the items of an array up to its closing bracket. -/
def readItems (fuel depth : Nat) (cs : List Char) : Option (List Json × List Char) :=
  match fuel with
  | 0 => none
  | fuel + 1 =>
    match readValue fuel depth cs with
    | none => none
    | some (v, cs) =>
      match skipBlanks cs with
      | ',' :: cs => (readItems fuel depth cs).map fun r ↦ (v :: r.1, r.2)
      | ']' :: cs => some ([v], cs)
      | _ => none

/-- Reads the members of an object up to its closing brace. -/
def readMembers (fuel depth : Nat) (cs : List Char) : Option (List (String × Json) × List Char) :=
  match fuel with
  | 0 => none
  | fuel + 1 =>
    match skipBlanks cs with
    | '"' :: cs =>
      match readQuoted .plain cs with
      | none => none
      | some (key, cs) =>
        match skipBlanks cs with
        | ':' :: cs =>
          match readValue fuel depth cs with
          | none => none
          | some (v, cs) =>
            match skipBlanks cs with
            | ',' :: cs =>
              (readMembers fuel depth cs).map fun r ↦ ((String.ofList key, v) :: r.1, r.2)
            | '}' :: cs => some ([(String.ofList key, v)], cs)
            | _ => none
        | _ => none
    | _ => none

end

/-- Reads one value from the front of a text. -/
def read? (cs : List Char) : Option (Json × List Char) :=
  readValue (2 * cs.length + 2) maxDepth cs

/-- Reads a text that holds one value and nothing else. -/
def parse? (s : String) : Option Json :=
  match read? s.toList with
  | some (v, rest) => if skipBlanks rest = [] then some v else none
  | none => none

end SchemaLink.Json
