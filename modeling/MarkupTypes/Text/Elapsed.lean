/-!
# Elapsed times

How a number of nanoseconds is shown : whole microseconds below a millisecond, then
milliseconds, and seconds from one second on, both with three decimals.

Milliseconds and seconds go through binary fractions with 53 significant bits. The
number of nanoseconds is rounded to such a fraction, the quotient by the unit is
rounded once more (`Fraction.nearestBinary`), and the decimals are those of this last fraction.
Every rounding takes the nearest neighbour, and the even one when the two are equally
near (`roundDiv`).
-/

namespace MarkupTypes.Text.Elapsed

/-- The integer nearest to a fraction, the even one of two that are equally near. -/
def roundDiv (num den : Nat) : Nat :=
  let q := num / den
  let r := num % den
  if 2 * r < den then q
  else if den < 2 * r then q + 1
  else if q % 2 = 0 then q else q + 1

/-- A fraction of two natural numbers. -/
structure Fraction where
  num : Nat
  den : Nat
  deriving DecidableEq, Repr

namespace Fraction

/-- A fraction times a power of two. -/
def scale (x : Fraction) (k : Int) : Fraction :=
  ⟨x.num * Nat.pow 2 k.toNat, x.den * Nat.pow 2 (-k).toNat⟩

/-- The fraction with 53 significant bits that is nearest to a positive fraction. -/
def nearestBinary (x : Fraction) : Fraction :=
  -- scaled by this power of two, the fraction lies between `2 ^ 51` and `2 ^ 53`
  let k : Int := 52 + x.den.log2 - x.num.log2
  let k := if (x.scale k).num < (x.scale k).den * Nat.pow 2 52 then k + 1 else k
  let y := x.scale k
  (Fraction.mk (roundDiv y.num y.den) 1).scale (-k)

end Fraction

/-- A number of thousandths with three decimals. -/
def threeDecimals (thousandths : Nat) : String :=
  let digits := toString (thousandths % 1000)
  toString (thousandths / 1000) ++ "." ++
    String.ofList (List.replicate (3 - digits.length) '0') ++ digits

/-- A number of nanoseconds in a larger unit, with three decimals. -/
def inUnit (ns unit : Nat) : String :=
  let whole := (Fraction.mk ns 1).nearestBinary
  let scaled := (Fraction.mk whole.num (whole.den * unit)).nearestBinary
  threeDecimals (roundDiv (scaled.num * 1000) scaled.den)

/-- A number of nanoseconds as it is shown. -/
def text (ns : Nat) : String :=
  if ns < 1000000 then toString (ns / 1000) ++ "us"
  else if ns < 1000000000 then inUnit ns 1000000 ++ "ms"
  else inUnit ns 1000000000 ++ "s"

end MarkupTypes.Text.Elapsed
