/-!
# Doubles

Floating-point numbers with 53 bits, in exact arithmetic on natural numbers: a positive rational is
a pair of numerator and denominator, and a double is `mantissa * 2 ^ exponent`.

**Rounding** goes to the nearest double, and a tie goes to the even mantissa. Exponents are not
bounded above here; a double whose exponent is too large for the format is `infinite`.
-/

namespace SchemaLink.Decimal

/-- A positive rational number. -/
structure Ratio where
  num : Nat
  den : Nat

namespace Ratio

/-- Multiplies by a power of a base. -/
def scale (r : Ratio) (base : Nat) (e : Int) : Ratio :=
  if 0 ≤ e then ⟨r.num * base.pow e.toNat, r.den⟩ else ⟨r.num, r.den * base.pow (-e).toNat⟩

/-- The product of two rationals. -/
def times (r s : Ratio) : Ratio :=
  ⟨r.num * s.num, r.den * s.den⟩

/-- The rational is smaller than another. -/
def less (r s : Ratio) : Bool :=
  r.num * s.den < s.num * r.den

/-- The whole part. -/
def floor (r : Ratio) : Nat :=
  r.num / r.den

/-- The nearest natural number; a half goes to the even neighbour. -/
def nearest (r : Ratio) : Nat :=
  let q := r.num / r.den
  let rest := 2 * (r.num % r.den)
  if rest < r.den ∨ (rest = r.den ∧ q % 2 = 0) then q else q + 1

end Ratio

/-- The double `mantissa * 2 ^ exponent`. -/
structure Double where
  mantissa : Nat
  exponent : Int

/-- The least exponent of a double. -/
def leastExponent : Int := -1074

/-- The exponent at which the mantissa of a rational has 53 bits, if it is not too small. -/
def exponentFor (r : Ratio) : Int :=
  let guess : Int := (Nat.log2 r.num : Int) - Nat.log2 r.den - 53
  let exact := if (r.scale 2 (-guess)).floor < Nat.pow 2 53 then guess else guess + 1
  max exact leastExponent

namespace Double

/-- The nearest double to a positive rational. -/
def ofRatio (r : Ratio) : Double :=
  let e := exponentFor r
  let m := (r.scale 2 (-e)).nearest
  if m = Nat.pow 2 53 then ⟨Nat.pow 2 52, e + 1⟩ else ⟨m, e⟩

/-- The nearest double to a natural number. -/
def ofNat (n : Nat) : Double :=
  ofRatio ⟨n, 1⟩

/-- The value of a double. -/
def ratio (d : Double) : Ratio :=
  Ratio.scale ⟨d.mantissa, 1⟩ 2 d.exponent

/-- The product of two doubles, rounded. -/
def times (d e : Double) : Double :=
  ofRatio (d.ratio.times e.ratio)

/-- The double exceeds the largest one of the format. -/
def infinite (d : Double) : Bool :=
  d.mantissa ≠ 0 && 971 < d.exponent

end Double

end SchemaLink.Decimal
