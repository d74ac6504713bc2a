import Lox.Text

/-!
# Lox.Decimal

Reading number literals.

A literal is digits with an optional point and more digits.  It stands for
the binary64 number nearest to the decimal fraction it spells, a tie going to
the even neighbour.
-/

namespace Lox.Decimal

/-- The number that a digit stands for. -/
def digitValue (u : CodeUnit) : Nat := u.toNat - (unit '0').toNat

/-- The natural number that a run of digits spells. -/
def natural (digits : Text) : Nat := digits.foldl (fun n u => 10 * n + digitValue u) 0

/-- The number that a literal stands for: the digits on both sides of the
point, scaled down by one ten for each digit after it. -/
def read (literal : Text) : Float :=
  let whole := literal.takeWhile (· != unit '.')
  let fraction := (literal.dropWhile (· != unit '.')).drop 1
  Float.ofScientific (natural (whole ++ fraction)) true fraction.length

end Lox.Decimal
