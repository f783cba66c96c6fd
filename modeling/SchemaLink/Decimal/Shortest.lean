import SchemaLink.Decimal.Double

/-!
# Shortest decimals of doubles

The number that a decimal stands for as a double, written with the fewest digits that still denote
that double.

**Writing** looks for the coarsest decimal grid with a point that is read back as the double, and
takes the point nearest to it, the upper one if there are two. Digits are written out in full,
without an exponent.
-/

namespace SchemaLink.Decimal

/-- A rational is read as the double: it lies between the middles to the two neighbours, which count
themselves if the mantissa is even. -/
def Double.reads (d : Double) (r : Ratio) : Bool :=
  let below : Ratio :=
    if d.mantissa = Nat.pow 2 52 ∧ leastExponent < d.exponent then
      Ratio.scale ⟨4 * d.mantissa - 1, 4⟩ 2 d.exponent
    else Ratio.scale ⟨2 * d.mantissa - 1, 2⟩ 2 d.exponent
  let above := Ratio.scale ⟨2 * d.mantissa + 1, 2⟩ 2 d.exponent
  if d.mantissa % 2 = 0 then !r.less below && !above.less r else below.less r && r.less above

/-- The point of the grid of multiples of `10 ^ place` that is read as the double, the nearer one if
there are two, and the upper one of two that are equally near. -/
def Double.onGrid (d : Double) (place : Int) : Option Nat :=
  let low := (d.ratio.scale 10 (-place)).floor
  let point (n : Nat) : Ratio := Ratio.scale ⟨n, 1⟩ 10 place
  match d.reads (point low), d.reads (point (low + 1)) with
  | true, true =>
    let middle : Ratio := Ratio.scale ⟨2 * low + 1, 2⟩ 10 place
    some (if d.ratio.less middle then low else low + 1)
  | true, false => some low
  | false, true => some (low + 1)
  | false, false => none

/-- The coarsest of the next `n` grids with a point for the double. -/
def Double.search (d : Double) : Nat → Int → Nat × Int
  | 0, place => (0, place)
  | n + 1, place =>
    match d.onGrid place with
    | some digits => (digits, place)
    | none => d.search n (place - 1)

/-- The digits `n * 10 ^ place` written out in full. -/
def positional (n : Nat) (place : Int) : String :=
  let digits := Nat.toDigits 10 n
  if 0 ≤ place then String.ofList (digits ++ List.replicate place.toNat '0')
  else
    let fraction := (-place).toNat
    let padded := List.replicate (fraction + 1 - digits.length) '0' ++ digits
    let whole := padded.take (padded.length - fraction)
    String.ofList (whole ++ '.' :: padded.drop (padded.length - fraction))

/-- The shortest text of the double nearest to `digits * 10 ^ exponent`. -/
def shortest (digits : Nat) (exponent : Int) : String :=
  let place := ((Nat.toDigits 10 digits).length : Int) + exponent
  if digits = 0 ∨ place < -330 then "0"
  else if 310 < place then "inf"
  else
    let d := Double.ofRatio (Ratio.scale ⟨digits, 1⟩ 10 exponent)
    if d.mantissa = 0 then "0"
    else if d.infinite then "inf"
    else
      let (n, p) := d.search 700 310
      positional n p

end SchemaLink.Decimal
