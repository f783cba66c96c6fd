import SchemaLink.Decimal.Digits
import SchemaLink.Settings.Value

/-!
# Addresses of values

The keys at the top of a layer are addresses: `input.dir` is the key `dir` in the table `input`, and
`input.skip[0]` is the first item of a list. What an address runs through is made to fit: a value
that is no table gives way to a table where a key follows, and a value that is no list to a list
where an index follows.

**A negative index counts from the end** of a list. A list is filled up with `nothing` at the side
where an index lies outside. **A key that is no address** is an entry of the layer as it stands.
-/

namespace SchemaLink.Settings

/-- A step from a value to one of its parts. -/
inductive Step where
  | key (name : String)
  | index (i : Int)

namespace Step

/-- The characters of a name in an address. -/
def isNameChar (c : Char) : Bool :=
  c.isAlphanum || c = ' ' || c = '_' || c = '-'

/-- Reads a name; there must be one. -/
def readName? (cs : List Char) : Option (Step × List Char) :=
  match cs.span isNameChar with
  | ([], _) => none
  | (name, rest) => some (key (String.ofList name), rest)

/-- Drops blanks at the front. -/
def skipBlanks (cs : List Char) : List Char :=
  cs.dropWhile fun c ↦ c = ' ' || c = '\t'

/-- The integer of the given sign and digits, if it has 64 bits. -/
def integer? (negative : Bool) (digits : List Char) : Option Int :=
  let n := Decimal.valueOf digits
  if digits = [] then none
  else if negative then (if n ≤ Nat.pow 2 63 then some (-(n : Int)) else none)
  else if n < Nat.pow 2 63 then some n
  else none

/-- Reads an index up to its closing bracket. -/
def readIndex? (cs : List Char) : Option (Step × List Char) :=
  let cs := skipBlanks cs
  let negative := cs.head? = some '-'
  let (digits, rest) := (if negative then cs.tail else cs).span Char.isDigit
  match integer? negative digits, skipBlanks rest with
  | some i, ']' :: rest => some (index i, rest)
  | _, _ => none

/-- Reads the steps after the first one; each takes a character at least, and `fuel` is no less than
their number. -/
def readMore? : Nat → List Char → Option (List Step)
  | _, [] => some []
  | 0, _ => none
  | fuel + 1, c :: cs =>
    match if c = '.' then readName? cs else if c = '[' then readIndex? cs else none with
    | none => none
    | some (step, rest) => (readMore? fuel rest).map (step :: ·)

/-- Reads an address: a name, and then names after dots and indices in brackets. -/
def readAll? (s : String) : Option (List Step) :=
  match readName? s.toList with
  | none => none
  | some (first, rest) => (readMore? rest.length rest).map (first :: ·)

end Step

namespace Value

/-- A list with room for an index, and the position of the index in it. -/
def room (i : Int) (vs : List Value) : List Value × Nat :=
  let n := i.natAbs
  if 0 ≤ i then (vs ++ List.replicate (n + 1 - vs.length) nothing, n)
  else if n ≤ vs.length then (vs, vs.length - n)
  else (List.replicate (n - vs.length) nothing ++ vs, 0)

/-- Puts a new value at the end of some steps. Under a key it is laid over the old value, in a list
it replaces the item. -/
def assign (new : Value) : List Step → Value → Value
  | [], _ => new
  | [.key name], old =>
    old.put (Text.lowerCase name) (lay (old.get? (Text.lowerCase name)) new)
  | .key name :: steps, old =>
    old.put (Text.lowerCase name)
      (assign new steps ((old.get? (Text.lowerCase name)).getD nothing))
  | .index i :: steps, old =>
    match room i old.items with
    | (vs, n) => list (vs.modify n (assign new steps))

/-- Lays an entry at the top of a layer over a value. -/
def enter (old : Value) (key : String) (new : Value) : Value :=
  assign new ((Step.readAll? key).getD [.key key]) old

/-- Lays a layer over a value. -/
def enterAll (old layer : Value) : Value :=
  layer.entries.foldl (fun v e ↦ v.enter e.1 e.2) old

end Value

end SchemaLink.Settings
