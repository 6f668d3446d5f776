/-!
# Binary64 numbers

Finite binary64 numbers as exact integers: a sign, a mantissa and a power of two. Rounding is done
on exact quotients of natural numbers, to the nearest number and on a tie to the even mantissa, so
no machine arithmetic takes part.
-/

namespace Stencil

/-- The number `± mantissa * 2 ^ exponent`. The mantissa stays below `2 ^ 53`, and below `2 ^ 52`
only at the least exponent. -/
structure Binary64 where
  negative : Bool
  mantissa : Nat
  exponent : Int
  deriving DecidableEq, Repr, Inhabited

namespace Binary64

def leastExponent : Int := -1074

def greatestExponent : Int := 971

def zero : Binary64 := ⟨false, 0, leastExponent⟩

/-- The quotient rounded to the nearest integer, a half to the even one. -/
def roundQuotient (num den : Nat) : Nat :=
  let q := num / den
  let r := num % den
  if 2 * r < den then q
  else if den < 2 * r then q + 1
  else q + q % 2

/-- The quotient `num / den / 2 ^ e` as numerator and denominator. -/
def divPow (num den : Nat) : Int → Nat × Nat
  | .ofNat n => (num, den * Nat.pow 2 n)
  | .negSucc n => (num * Nat.pow 2 (n + 1), den)

/-- The exponent at which the quotient has a mantissa of 53 bits, or the least exponent. -/
def exponentFor (num den : Nat) : Int :=
  let low : Int := (num.log2 : Int) - den.log2 - 53
  let scaled := divPow num den low
  max leastExponent (if scaled.1 / scaled.2 < Nat.pow 2 53 then low else low + 1)

/-- The number nearest to a quotient, `none` where it lies beyond the greatest number. -/
def ofRatio? (num den : Nat) : Option Binary64 :=
  if num = 0 then some zero
  else
    let e := exponentFor num den
    let scaled := divPow num den e
    let m := roundQuotient scaled.1 scaled.2
    let rounded : Binary64 :=
      if m = Nat.pow 2 53 then ⟨false, Nat.pow 2 52, e + 1⟩ else ⟨false, m, e⟩
    if greatestExponent < rounded.exponent then none else some rounded

/-- The magnitude as numerator and denominator. -/
def ratio (x : Binary64) : Nat × Nat :=
  match x.exponent with
  | .ofNat n => (x.mantissa * Nat.pow 2 n, 1)
  | .negSucc n => (x.mantissa, Nat.pow 2 (n + 1))

def isZero (x : Binary64) : Bool := x.mantissa == 0

/-- The rounded product of two magnitudes. -/
def mul? (x y : Binary64) : Option Binary64 :=
  ofRatio? (x.ratio.1 * y.ratio.1) (x.ratio.2 * y.ratio.2)

/-- The rounded quotient of two magnitudes. -/
def div? (x y : Binary64) : Option Binary64 :=
  ofRatio? (x.ratio.1 * y.ratio.2) (x.ratio.2 * y.ratio.1)

/-- The greatest power of ten that is a binary64 number is the 308th. -/
def greatestTen : Nat := 308

def powerOfTen? (n : Nat) : Option Binary64 := ofRatio? (Nat.pow 10 n) 1

/-- Divide a magnitude by ten `n` times over: one rounded division for each whole 308 powers and one
for the rest. A zero stays a zero. -/
def divTens? (x : Binary64) (n : Nat) : Option Binary64 :=
  if x.isZero then some x
  else if n ≤ greatestTen then do x.div? (← powerOfTen? n)
  else do divTens? (← x.div? (← powerOfTen? greatestTen)) (n - greatestTen)
termination_by n
decreasing_by unfold greatestTen at *; omega

/-- Multiply a magnitude by ten `n` times over, with one rounding. -/
def mulTens? (x : Binary64) (n : Nat) : Option Binary64 :=
  if n ≤ greatestTen then do x.mul? (← powerOfTen? n)
  else if x.isZero then some x
  else none

/-- The number read from a decimal `± significand * 10 ^ exponent`. The significand is rounded
first and then scaled by a rounded power of ten; `none` where the result is too large. -/
def ofDecimal? (negative : Bool) (significand : Nat) (exponent : Int) : Option Binary64 := do
  let x ← ofRatio? significand 1
  let scaled ← match exponent with
    | .ofNat n => mulTens? x n
    | .negSucc n => divTens? x (n + 1)
  some ⟨negative, scaled.mantissa, scaled.exponent⟩

end Binary64

end Stencil
