import Stencil.Binary64.Basic

/-!
# Shortest decimals

The decimal with the fewest digits that rounds to a given binary64 number, and of those the nearest
one. All comparisons are between natural numbers, after the number, the interval that rounds to it
and the decimal grid are brought to a common denominator.
-/

namespace Stencil

/-- The decimal `digits * 10 ^ exponent`. -/
structure Decimal where
  digits : Nat
  exponent : Int
  deriving DecidableEq, Repr

namespace Decimal

/-- How many decimal digits a number has; zero has none. -/
def length (n : Nat) : Nat := if n = 0 then 0 else length (n / 10) + 1
termination_by n
decreasing_by omega

/-- Move the zeros at the end of the digits into the exponent. -/
def trim (d : Decimal) : Decimal :=
  if d.digits ≠ 0 ∧ d.digits % 10 = 0 then trim ⟨d.digits / 10, d.exponent + 1⟩ else d
termination_by d.digits
decreasing_by omega

/-- The decimal exponent of the leading digit. -/
def magnitude (d : Decimal) : Int := d.exponent + length d.digits - 1

end Decimal

namespace Binary64

/-- The numbers that round to a positive `x`, four times over: in units of a quarter of the last
place they reach from `low` to `high` around `4 * x.mantissa`, ends included where `closed`. Below a
power of two the neighbours stand twice as close. -/
structure Interval where
  low : Nat
  middle : Nat
  high : Nat
  den : Nat
  closed : Bool

def interval (x : Binary64) : Interval :=
  let below := if x.mantissa = Nat.pow 2 52 ∧ x.exponent ≠ leastExponent then 1 else 2
  let up := Nat.pow 2 (x.exponent - 2).toNat
  { low := (4 * x.mantissa - below) * up
    middle := 4 * x.mantissa * up
    high := (4 * x.mantissa + 2) * up
    den := Nat.pow 2 (2 - x.exponent).toNat
    closed := x.mantissa % 2 == 0 }

namespace Interval

/-- The decimal exponent of the leading digit of the middle. -/
def magnitude (i : Interval) : Int :=
  if i.den ≤ i.middle then (Decimal.length (i.middle / i.den) : Int) - 1
  else -(Decimal.length ((i.den - 1) / i.middle) : Int)

/-- Whether a fraction `num / den` of the common denominator lies in the interval. -/
def holds (i : Interval) (num scale : Nat) : Bool :=
  if i.closed then i.low * scale ≤ num && num ≤ i.high * scale
  else i.low * scale < num && num < i.high * scale

/-- The better of the two grid points around the middle, on the grid of `10 ^ unit`: one that lies
in the interval, and the nearer where both do; a tie goes to the even one. -/
def pick? (i : Interval) (unit : Int) : Option Nat :=
  let grid := i.den * Nat.pow 10 unit.toNat
  let scale := Nat.pow 10 (-unit).toNat
  let middle := i.middle * scale
  let c := middle / grid
  match i.holds (c * grid) scale, i.holds ((c + 1) * grid) scale with
  | true, true =>
      let r := middle % grid
      if 2 * r < grid ∨ (2 * r = grid ∧ c % 2 = 0) then some c else some (c + 1)
  | true, false => some c
  | false, true => some (c + 1)
  | false, false => none

/-- Try grids of one digit, two digits and so on. -/
def search (i : Interval) (magnitude : Int) : Nat → Int → Decimal
  | 0, unit => ⟨i.middle / i.den, unit⟩
  | tries + 1, unit =>
      match i.pick? unit with
      | some c => ⟨c, unit⟩
      | none => search i magnitude tries (unit - 1)

end Interval

/-- The shortest decimal of a positive number; seventeen digits always suffice. -/
def shortest (x : Binary64) : Decimal :=
  let i := x.interval
  (i.search i.magnitude 17 i.magnitude).trim

end Binary64

end Stencil
