import Stencil.CharClass
import Stencil.Json.Fault

/-!
# Reading numbers

A number is an optional minus sign, an integer part without a leading zero, and optional decimals
and exponent. Without decimals and exponent it is an integer where it fits 64 bits, signed or
unsigned. Every other number is binary64; its significand is what 64 bits hold of its digits, and
the digits beyond that count as zeros. The negative zero is no integer.
-/

namespace Stencil.Json

/-- The parts of a number as they are written. -/
structure Numeral where
  negative : Bool
  whole : List Char
  decimals : List Char
  /-- the written exponent, `none` where there is none -/
  power : Option Int
  deriving Repr

namespace Numeral

/-- The greatest unsigned integer of 64 bits. -/
def greatest : Nat := 18446744073709551615

def digitValue (c : Char) : Nat := c.toNat - 48

def natOf (digits : List Char) : Nat := digits.foldl (fun n c => 10 * n + digitValue c) 0

/-- Take in the digits of the integer part; from the first that does not fit on, each counts as a
further power of ten. -/
def takeWhole (significand power : Nat) : List Char → Nat × Nat
  | [] => (significand, power)
  | c :: rest =>
      if power = 0 ∧ 10 * significand + digitValue c ≤ greatest then
        takeWhole (10 * significand + digitValue c) 0 rest
      else takeWhole significand (power + 1) rest

/-- Take in decimals as far as they fit. -/
def takeDecimals (significand : Nat) (power : Int) : List Char → Nat × Int
  | [] => (significand, power)
  | c :: rest =>
      if 10 * significand + digitValue c ≤ greatest then
        takeDecimals (10 * significand + digitValue c) (power - 1) rest
      else (significand, power)

/-- The number that is meant, `none` where it is too large for binary64. -/
def value? (n : Numeral) : Option Number :=
  let whole := takeWhole 0 0 n.whole
  let plain := n.decimals.isEmpty && n.power.isNone && whole.2 == 0
  if plain && !n.negative then some (.int whole.1)
  else if plain && whole.1 != 0 && whole.1 ≤ 9223372036854775808 then some (.int (-whole.1))
  else
    let all := takeDecimals whole.1 whole.2 n.decimals
    (Binary64.ofDecimal? n.negative all.1 (all.2 + n.power.getD 0)).map .float

/-- One digit or more; a text that ends before the first is cut off. -/
def digits1 (cs : List Char) : Except Fault (List Char × List Char) :=
  match cs with
  | [] => .error .truncated
  | c :: _ =>
      if isDigit c then .ok (cs.takeWhile isDigit, cs.dropWhile isDigit) else .error .malformed

/-- The integer part: a lone zero, or digits that start with another. -/
def readWhole (cs : List Char) : Except Fault (List Char × List Char) :=
  match cs with
  | '0' :: c :: rest => if isDigit c then .error .malformed else .ok (['0'], c :: rest)
  | cs => digits1 cs

def readDecimals : List Char → Except Fault (List Char × List Char)
  | '.' :: cs => digits1 cs
  | cs => .ok ([], cs)

def readPower : List Char → Except Fault (Option Int × List Char)
  | c :: cs =>
      if c = 'e' ∨ c = 'E' then
        match cs with
        | '-' :: cs => (digits1 cs).map fun r => (some (-(natOf r.1 : Int)), r.2)
        | '+' :: cs => (digits1 cs).map fun r => (some (natOf r.1 : Int), r.2)
        | cs => (digits1 cs).map fun r => (some (natOf r.1 : Int), r.2)
      else .ok (none, c :: cs)
  | [] => .ok (none, [])

/-- Read a number after its sign. -/
def read (negative : Bool) (cs : List Char) : Except Fault (Numeral × List Char) := do
  let (whole, cs) ← readWhole cs
  let (decimals, cs) ← readDecimals cs
  let (power, cs) ← readPower cs
  .ok (⟨negative, whole, decimals, power⟩, cs)

end Numeral

end Stencil.Json
