import SchemaLink.Json.Basic
import SchemaLink.Json.Quoted

/-!
# Writing JSON

Two layouts of one value: `compact` without any blanks, and `pretty` with one item or member on a
line, indented by two blanks for each level. Empty arrays and objects stay on one line in both.
-/

namespace SchemaLink.Json

mutual

/-- The value without blanks. -/
def compact : Json → String
  | null => "null"
  | bool b => if b then "true" else "false"
  | natural n => Nat.repr n
  | number literal => literal
  | string s => quote s
  | array xs => "[" ++ ",".intercalate (compactItems xs) ++ "]"
  | object ms => "\x7b" ++ ",".intercalate (compactMembers ms) ++ "\x7d"

/-- The items of an array without blanks. -/
def compactItems : List Json → List String
  | [] => []
  | x :: xs => compact x :: compactItems xs

/-- The members of an object without blanks. -/
def compactMembers : List (String × Json) → List String
  | [] => []
  | (k, v) :: ms => (quote k ++ ":" ++ compact v) :: compactMembers ms

end

/-- A line break followed by the indentation of a level. -/
def lineBreak (level : Nat) : String :=
  "\n" ++ String.ofList (List.replicate (2 * level) ' ')

/-- Lines inside a pair of brackets that stand at a level. -/
def bracketed (opening closing : String) (level : Nat) (lines : List String) : String :=
  if lines.isEmpty then opening ++ closing
  else
    opening ++ lineBreak (level + 1) ++ ("," ++ lineBreak (level + 1)).intercalate lines
      ++ lineBreak level ++ closing

mutual

/-- The value in lines, starting at an indentation level. -/
def prettyAt (level : Nat) : Json → String
  | null => "null"
  | bool b => if b then "true" else "false"
  | natural n => Nat.repr n
  | number literal => literal
  | string s => quote s
  | array xs => bracketed "[" "]" level (prettyItems (level + 1) xs)
  | object ms => bracketed "\x7b" "\x7d" level (prettyMembers (level + 1) ms)

/-- The items of an array, each in lines. -/
def prettyItems (level : Nat) : List Json → List String
  | [] => []
  | x :: xs => prettyAt level x :: prettyItems level xs

/-- The members of an object, each in lines. -/
def prettyMembers (level : Nat) : List (String × Json) → List String
  | [] => []
  | (k, v) :: ms => (quote k ++ ": " ++ prettyAt level v) :: prettyMembers level ms

end

/-- The value in lines. -/
def pretty (j : Json) : String :=
  prettyAt 0 j

end SchemaLink.Json
