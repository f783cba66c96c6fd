import SchemaLink.Decimal.Digits
import SchemaLink.Decimal.Double
import SchemaLink.Json.Basic

/-!
# JSON number literals

The grammar of number literals, and the one condition on their value: a number that becomes infinite
as a double is refused.

**A number is a significand below `2 ^ 64` and a power of ten.** Digits go into the significand as
long as it stays below that limit, first those before the point and then those after it. What does
not fit before the point raises the exponent, and what does not fit after it is dropped. The double
is the product of the two, each rounded on its own; so a literal close to the largest double can be
on the wrong side of it.
-/

namespace SchemaLink.Json

/-! ### Grammar -/

/-- The digits at the front and what follows them; there must be at least one. -/
def digitRun (cs : List Char) : Option (List Char × List Char) :=
  match cs.span Char.isDigit with
  | ([], _) => none
  | run => some run

/-- The integer part: a zero stands alone. -/
def integerPart (cs : List Char) : Option (List Char × List Char) :=
  match digitRun cs with
  | some ('0' :: _ :: _, _) => none
  | run => run

/-- The digits after a point, if there is one. -/
def fractionPart : List Char → Option (List Char × List Char)
  | '.' :: cs => digitRun cs
  | cs => some ([], cs)

/-- The sign of an exponent and what follows it. -/
def exponentSign : List Char → List Char × List Char
  | '-' :: cs => (['-'], cs)
  | '+' :: cs => (['+'], cs)
  | cs => ([], cs)

/-- An exponent as it is written and its value. -/
structure Exponent where
  text : List Char := []
  value : Int := 0

/-- The exponent, if there is one. -/
def exponentPart : List Char → Option (Exponent × List Char)
  | c :: cs =>
    if c = 'e' ∨ c = 'E' then
      match exponentSign cs with
      | (sign, cs) =>
        (digitRun cs).map fun run ↦
          let value : Int := Decimal.valueOf run.1
          ({ text := c :: (sign ++ run.1), value := if sign = ['-'] then -value else value }, run.2)
    else some ({}, c :: cs)
  | [] => some ({}, [])

/-! ### Value -/

/-- The magnitude `significand * 10 ^ exponent`. -/
structure Magnitude where
  significand : Nat
  exponent : Int

/-- Significands are smaller than this. -/
def significandLimit : Nat := Nat.pow 2 64

/-- Takes digits into a significand as long as it stays below the limit: the significand, and how
many digits are left out. -/
def takeDigits (significand : Nat) : List Char → Nat × Nat
  | [] => (significand, 0)
  | c :: cs =>
    let next := 10 * significand + Decimal.digitValue c
    if next < significandLimit then takeDigits next cs else (significand, cs.length + 1)

/-- The magnitude of a number with the given digits before and after the point. -/
def Magnitude.ofDigits (whole fraction : List Char) (exponent : Int) : Magnitude :=
  let (front, above) := takeDigits 0 whole
  let (significand, dropped) := takeDigits front fraction
  { significand, exponent := exponent + above - (fraction.length - dropped : Nat) }

/-- The magnitude is infinite as a double. No power of ten above `10 ^ 308` is finite itself, and
dividing by a power of ten never leads to infinity. -/
def Magnitude.overflows (m : Magnitude) : Bool :=
  if m.significand = 0 ∨ m.exponent < 0 then false
  else if 308 < m.exponent then true
  else
    let power := Decimal.Double.ofNat (Nat.pow 10 m.exponent.toNat)
    ((Decimal.Double.ofNat m.significand).times power).infinite

/-! ### Reading -/

/-- Reads a number without its minus sign. Digits that all go into the significand make a natural
number. -/
def readUnsigned (cs : List Char) : Option (Json × List Char) := do
  let (whole, rest) ← integerPart cs
  let (fraction, rest) ← fractionPart rest
  let (exponent, rest) ← exponentPart rest
  let value := Magnitude.ofDigits whole fraction exponent.value
  if value.overflows then none
  else if fraction = [] ∧ exponent.text = [] ∧ value.exponent = 0 then
    some (natural value.significand, rest)
  else
    let point := if fraction = [] then [] else '.' :: fraction
    some (number (String.ofList (whole ++ point ++ exponent.text)), rest)

/-- The literal of a number below zero. -/
def negated : Json → Json
  | natural n => number ("-" ++ Nat.repr n)
  | number literal => number ("-" ++ literal)
  | j => j

/-- Reads a number. -/
def readNumber : List Char → Option (Json × List Char)
  | '-' :: cs => (readUnsigned cs).map fun r ↦ (negated r.1, r.2)
  | cs => readUnsigned cs

end SchemaLink.Json
