import SchemaLink.Json.Quoted

/-!
# Writing texts and lists into settings files

TOML has four ways to write a text: between double quotes, where backslashes introduce escapes, or
between single quotes, where everything stands for itself; and with one quote at each end for one
line, or three for several lines. **The first way that needs no escape is taken**, double quotes
before single quotes and one line before several. If there is none, the text is written with
escapes.
-/

namespace SchemaLink.Settings

/-- The longest run of a character. `run` is the length of the run that has just been read. -/
def longestRun (q : Char) (run : Nat) : List Char → Nat
  | [] => run
  | c :: cs => if c = q then longestRun q (run + 1) cs else max run (longestRun q 0 cs)

/-- How a text can be delimited. -/
structure Delimiter where
  /-- The quote. -/
  quote : Char
  /-- The text may have several lines. -/
  manyLines : Bool

namespace Delimiter

/-- The delimiters in the order in which they are tried. -/
def all : List Delimiter :=
  [⟨'"', false⟩, ⟨'\'', false⟩, ⟨'"', true⟩, ⟨'\'', true⟩]

/-- The quotes at one end of a text. -/
def marks (d : Delimiter) : List Char :=
  List.replicate (if d.manyLines then 3 else 1) d.quote

/-- How many quotes may follow each other inside a text: a text of several lines ends at three. -/
def maxRun (d : Delimiter) : Nat :=
  if d.manyLines then 2 else 0

/-- A character that only an escape can express. -/
def needsEscape (c : Char) : Bool :=
  (c.toNat < 0x20 && c ≠ '\t' && c ≠ '\n') || c.toNat = 0x7F

/-- The text can stand between these delimiters without an escape. A tab counts as none. -/
def suits (d : Delimiter) (cs : List Char) : Bool :=
  !cs.any needsEscape && (d.manyLines || !cs.contains '\n')
    && (d.quote ≠ '"' || !cs.contains '\\') && longestRun d.quote 0 cs ≤ d.maxRun

/-- A text between its delimiters. A text of several lines starts on a line of its own. -/
def wrap (d : Delimiter) (lines : Bool) (cs : List Char) : String :=
  String.ofList (d.marks ++ (if d.manyLines && lines then ['\n'] else []) ++ cs ++ d.marks)

end Delimiter

/-- The escape of a character between double quotes, if it has one. -/
def escape? (manyLines : Bool) (c : Char) : Option (List Char) :=
  if c = '\\' then some ['\\', '\\']
  else if c = '\x08' then some ['\\', 'b']
  else if c = '\t' then some ['\\', 't']
  else if c = '\n' then (if manyLines then none else some ['\\', 'n'])
  else if c = '\x0c' then some ['\\', 'f']
  else if c = '\r' then some ['\\', 'r']
  else if c.toNat < 0x20 ∨ c.toNat = 0x7F then
    let digit (n : Nat) : Char := (Json.hexChar n).toUpper
    some ['\\', 'u', '0', '0', digit (c.toNat / 16), digit (c.toNat % 16)]
  else none

/-- The characters of a text between double quotes. A quote is escaped where it would be one too
many in a row; `run` counts the quotes since the last other character or escape. -/
def escaped (d : Delimiter) (run : Nat) : List Char → List Char
  | [] => []
  | c :: cs =>
    if c = '"' then
      if run < d.maxRun then c :: escaped d (run + 1) cs else '\\' :: '"' :: escaped d 0 cs
    else ((escape? d.manyLines c).getD [c]) ++ escaped d 0 cs

/-- The written form of a text. -/
def writeText (s : String) : String :=
  let cs := s.toList
  let lines := cs.contains '\n'
  let d := (Delimiter.all.find? (·.suits cs)).getD ⟨'"', lines⟩
  d.wrap lines (if d.quote = '"' then escaped d 0 cs else cs)

/-- The written form of a list: one item is written on the line, several on lines of their own. -/
def writeList : List String → String
  | [] => "[]"
  | [item] => "[" ++ writeText item ++ "]"
  | items => "[\n" ++ String.join (items.map fun i ↦ "    " ++ writeText i ++ ",\n") ++ "]"

end SchemaLink.Settings
