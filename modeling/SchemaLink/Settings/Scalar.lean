import SchemaLink.Decimal.Digits
import SchemaLink.Decimal.Shortest
import SchemaLink.Text.Case

/-!
# Scalar texts of the environment

A value from the environment is taken for a truth value, an integer or a number if it looks like
one, and for a text otherwise. Settings are texts in the end, so what remains of this is a normal
form: `TRUE` is `true`, `007` is `7` and `1e3` is `1000`.
-/

namespace SchemaLink.Settings

/-- Whether there is a minus sign, and what follows the sign. -/
def takeSign : List Char → Bool × List Char
  | '-' :: cs => (true, cs)
  | '+' :: cs => (false, cs)
  | cs => (false, cs)

/-- The normal form of a 64-bit integer. -/
def integer? (cs : List Char) : Option String :=
  match takeSign cs with
  | (negative, ds) =>
    if ds = [] ∨ !ds.all Char.isDigit then none
    else
      let n := Decimal.valueOf ds
      if n < Nat.pow 2 63 ∨ (negative ∧ n = Nat.pow 2 63) then
        some ((if negative ∧ n ≠ 0 then "-" else "") ++ Nat.repr n)
      else none

/-- The value of an exponent after its mark. -/
def exponent? (cs : List Char) : Option Int :=
  match takeSign cs with
  | (negative, ds) =>
    if ds = [] ∨ !ds.all Char.isDigit then none
    else some (if negative then -(Decimal.valueOf ds : Int) else (Decimal.valueOf ds : Int))

/-- The shortest text of an unsigned number. -/
def magnitude? (cs : List Char) : Option String :=
  let (whole, rest) := cs.span Char.isDigit
  let (fraction, rest) :=
    match rest with
    | '.' :: rest => rest.span Char.isDigit
    | rest => ([], rest)
  if whole ++ fraction = [] then none
  else
    let number (e : Int) :=
      Decimal.shortest (Decimal.valueOf (whole ++ fraction)) (e - fraction.length)
    match rest with
    | [] => some (number 0)
    | c :: ds => if c = 'e' ∨ c = 'E' then (exponent? ds).map number else none

/-- The normal form of a number. -/
def number? (cs : List Char) : Option String :=
  match takeSign cs with
  | (negative, rest) =>
    let sign := if negative then "-" else ""
    match Text.lowerCase (String.ofList rest) with
    | "nan" => some "NaN"
    | "inf" | "infinity" => some (sign ++ "inf")
    | _ => (magnitude? rest).map (sign ++ ·)

/-- The normal form of a value from the environment. -/
def scalar (s : String) : String :=
  if Text.lowerCase s = "true" ∨ Text.lowerCase s = "false" then Text.lowerCase s
  else ((integer? s.toList).or (number? s.toList)).getD s

end SchemaLink.Settings
