/-!
# Lox.Decimal.Shortest

The shortest decimal that identifies a binary number.

A positive binary number is `mantissa * 2 ^ exponent`.  The decimals that
read back as it are those of an interval around it: from halfway to the
number below to halfway to the number above, ends included exactly when the
mantissa is even.  `Binary.shortest` takes the coarsest decimal grid with a
point in that interval, and on it the point nearest to the number, the even
one of two that are equally near.

All comparisons are made in exact natural arithmetic.
-/

namespace Lox.Decimal

/-- A positive binary number, `mantissa * 2 ^ exponent`.  Just above a power
of two the gap to the number below is half as wide as the gap above. -/
structure Binary where
  mantissa : Nat
  exponent : Int
  narrowBelow : Bool
  deriving DecidableEq, Repr

/-- A decimal number, `digits * 10 ^ exponent`. -/
structure Scaled where
  digits : Nat
  exponent : Int
  deriving DecidableEq, Repr

/-! ## comparison by cross-multiplication -/

/-- The fraction `n * base ^ e`, as numerator and denominator. -/
def power (n base : Nat) (e : Int) : Nat × Nat :=
  (n * Nat.pow base e.toNat, Nat.pow base (-e).toNat)

/-- Compare `digits * 10 ^ e` with `quarters * 2 ^ q / 4`. -/
def compareQuarters (d : Scaled) (quarters : Nat) (q : Int) : Ordering :=
  let (a, b) := power d.digits 10 d.exponent
  let (c, e) := power quarters 2 (q - 2)
  compare (a * e) (c * b)

namespace Binary

/-- Does a decimal lie in the interval of the numbers that round to `x`? -/
def identifiedBy (x : Binary) (d : Scaled) : Bool :=
  let below := if x.narrowBelow then 4 * x.mantissa - 1 else 4 * x.mantissa - 2
  let closed := x.mantissa % 2 == 0
  let low := compareQuarters d below x.exponent
  let high := compareQuarters d (4 * x.mantissa + 2) x.exponent
  (low == .gt || (closed && low == .eq)) && (high == .lt || (closed && high == .eq))

/-- The whole number of grid steps `10 ^ e` in `x`. -/
def stepsBelow (x : Binary) (e : Int) : Nat :=
  let (a, b) := power x.mantissa 2 x.exponent
  let (c, d) := power 1 10 e
  (a * d) / (b * c)

/-- The number of digits before the point; not above zero for a number below
one.  The position of the leading bit, times the logarithm of two, is at most
two below it, so four powers of ten are tried in turn. -/
def magnitude (x : Binary) : Int :=
  let leadingBit := x.mantissa.log2 + x.exponent
  let first := leadingBit * 30103 / 100000 - 1
  let powers := (List.range 4).map fun (n : Nat) => first + n
  (powers.find? fun power => x.stepsBelow power == 0).getD first

/-- The point of the grid `10 ^ e` that identifies `x`, if there is one: the
nearer of the two neighbours of `x`, or the even one. -/
def onGrid? (x : Binary) (e : Int) : Option Scaled :=
  let steps := x.stepsBelow e
  let lower : Scaled := ⟨steps, e⟩
  let upper : Scaled := ⟨steps + 1, e⟩
  match x.identifiedBy lower, x.identifiedBy upper with
  | false, false => none
  | true, false => some lower
  | false, true => some upper
  | true, true =>
    match compareQuarters ⟨2 * steps + 1, e⟩ (8 * x.mantissa) x.exponent with
    | .lt => some upper
    | .gt => some lower
    | .eq => if steps % 2 == 0 then some lower else some upper

/-- The number itself as a decimal. -/
def exact (x : Binary) : Scaled :=
  if 0 ≤ x.exponent then ⟨(power x.mantissa 2 x.exponent).1, 0⟩
  else ⟨(power x.mantissa 5 (-x.exponent)).1, x.exponent⟩

end Binary

/-- Move trailing zeros of the digits into the exponent. -/
def Scaled.normalize (d : Scaled) : Scaled :=
  if h : 0 < d.digits ∧ d.digits % 10 = 0 then
    normalize ⟨d.digits / 10, d.exponent + 1⟩
  else
    d
termination_by d.digits
decreasing_by exact Nat.div_lt_self h.1 (by decide)

/-- The shortest decimal that identifies a number, nearest to it.  Seventeen
digits identify every number of the format. -/
def Binary.shortest (x : Binary) : Scaled :=
  let grids := (List.range 17).map fun (n : Nat) => x.magnitude - 1 - n
  ((grids.findSome? x.onGrid?).getD x.exact).normalize

end Lox.Decimal
