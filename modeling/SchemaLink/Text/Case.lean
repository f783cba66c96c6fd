/-!
# Lower case

Names and keywords that count without regard to case are compared in lower case.
-/

namespace SchemaLink.Text

/-- A character in lower case. Besides the ASCII capitals only the Kelvin sign has a lower case in
ASCII; every other character stays as it is, and so remains different from all names and keywords,
which are ASCII. -/
def lowerChar (c : Char) : Char :=
  if c.toNat = 0x212A then 'k' else c.toLower

/-- A text in lower case. -/
def lowerCase (s : String) : String :=
  String.ofList (s.toList.map lowerChar)

end SchemaLink.Text
