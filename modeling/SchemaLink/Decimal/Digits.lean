/-!
# Runs of decimal digits

A run of digits stands for a natural number, the first digit counting most.
-/

namespace SchemaLink.Decimal

/-- The value of a decimal digit. -/
def digitValue (c : Char) : Nat :=
  c.toNat - '0'.toNat

/-- The value of a run of decimal digits. -/
def valueOf (ds : List Char) : Nat :=
  ds.foldl (fun n c ↦ 10 * n + digitValue c) 0

end SchemaLink.Decimal
