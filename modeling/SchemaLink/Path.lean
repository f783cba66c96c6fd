import SchemaLink.Name
import SchemaLink.Text.Blank
import SchemaLink.Text.Pieces

/-!
# Schema paths

A path is a sequence of segments between slashes. A leading slash makes it absolute. A segment is
`..` (the parent), `.` (the same place) or the possibly qualified name of a child.

**Predicates are removed first.** A bracketed key selector `[...]` never changes which schema node a
path reaches, so each one is cut out before the path is divided. An opening bracket that nothing
closes stays.

**Rendering** the first segments of a path gives the canonical text of that part of it: no blanks,
no empty segments, no predicates.
-/

namespace SchemaLink

/-- One segment of a path. -/
inductive Segment where
  /-- `..` -/
  | parent
  /-- `.` -/
  | current
  /-- The name of a child. -/
  | step (target : QName)
deriving DecidableEq

namespace Segment

/-- Reads a segment that is neither empty nor surrounded by blanks. -/
def ofChars (cs : List Char) : Segment :=
  if cs = ['.', '.'] then .parent
  else if cs = ['.'] then .current
  else .step (QName.ofChars cs)

/-- The written form. -/
def toString : Segment → String
  | parent => ".."
  | current => "."
  | step q => q.toString

/-- The local name of a child step. -/
def name? : Segment → Option String
  | step q => some q.name
  | _ => none

end Segment

/-- A path that has been read. -/
structure Path where
  /-- The text as it was written, kept for reports. -/
  text : String
  /-- The path starts at the top level of a module. -/
  absolute : Bool
  /-- The segments in order. -/
  segments : List Segment
deriving DecidableEq

namespace Path

/-- Removes every predicate. With `inside` set, a predicate is open and everything up to its closing
bracket is dropped; a bracket opens one only if a closing bracket follows somewhere, and `closing`
counts those that do. -/
def dropPredicates (inside : Bool) (closing : Nat) : List Char → List Char
  | [] => []
  | c :: cs =>
    let left := if c = ']' then closing - 1 else closing
    if inside then dropPredicates (c != ']') left cs
    else if c = '[' ∧ 0 < left then dropPredicates true left cs
    else c :: dropPredicates false left cs

/-- A bracket that closes in the rest of the text opens a predicate. -/
theorem dropPredicates_cons_open {cs : List Char} (h : ']' ∈ cs) :
    dropPredicates false (('[' :: cs).count ']') ('[' :: cs)
      = dropPredicates true (cs.count ']') cs := by
  have : 0 < cs.count ']' := List.count_pos_iff.2 h
  simp [dropPredicates, this]

/-- A bracket that nothing closes stays. -/
theorem dropPredicates_cons_unclosed {cs : List Char} (h : ']' ∉ cs) :
    dropPredicates false (('[' :: cs).count ']') ('[' :: cs)
      = '[' :: dropPredicates false (cs.count ']') cs := by
  simp [dropPredicates, List.count_eq_zero_of_not_mem h]

/-- The segments of a text without predicates: empty ones do not count. -/
def segmentsOf (cs : List Char) : List Segment :=
  (((Text.pieces '/' cs).map Text.trim).filter (· ≠ [])).map Segment.ofChars

/-- Reads a path from characters. -/
def ofChars (cs : List Char) : Path :=
  let trimmed := Text.trim cs
  let bare := dropPredicates false (trimmed.count ']') trimmed
  { text := String.ofList cs
    absolute := bare.head? = some '/'
    segments := segmentsOf bare }

/-- Reads a path. Every text is a path. -/
def ofString (s : String) : Path :=
  { ofChars s.toList with text := s }

/-- The qualifier of the first segment, which selects where an absolute path starts. -/
def leadingQualifier (p : Path) : Option String :=
  match p.segments.head? with
  | some (.step q) => q.qualifier
  | _ => none

/-- The canonical text of the first `n` segments. -/
def rendering (p : Path) (n : Nat) : String :=
  let body := String.intercalate "/" ((p.segments.take n).map Segment.toString)
  if p.absolute then "/" ++ body else body

end Path

end SchemaLink
