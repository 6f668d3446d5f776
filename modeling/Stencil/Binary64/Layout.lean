import Stencil.Binary64.Shortest

/-!
# Layout of decimals

How a decimal is written out: which magnitudes are positional, what ends a whole number, and how an
exponent is marked. The choices are one record, so that the writer itself has none.
-/

namespace Stencil

structure DecimalLayout where
  /-- least and greatest magnitude written without an exponent -/
  positionalFrom : Int
  positionalTo : Int
  wholeEnd : String
  exponentMark : String
  positiveSign : String

namespace DecimalLayout

/-- Digits with the point behind the digit of the zeroth power. -/
def positional (layout : DecimalLayout) (digits : List Char) (magnitude : Int) : String :=
  match magnitude with
  | .ofNat n =>
      let whole := digits.take (n + 1) ++ List.replicate (n + 1 - digits.length) '0'
      let part := digits.drop (n + 1)
      String.ofList whole ++ (if part.isEmpty then layout.wholeEnd else "." ++ String.ofList part)
  | .negSucc n => "0." ++ String.ofList (List.replicate n '0' ++ digits)

/-- One digit, the point where more follow, and the exponent. -/
def scientific (layout : DecimalLayout) (digits : List Char) (magnitude : Int) : String :=
  let part := digits.drop 1
  String.ofList (digits.take 1) ++ (if part.isEmpty then "" else "." ++ String.ofList part)
    ++ layout.exponentMark ++ (if 0 ≤ magnitude then layout.positiveSign else "")
    ++ toString magnitude

def write (layout : DecimalLayout) (x : Binary64) : String :=
  let sign := if x.negative then "-" else ""
  if x.isZero then sign ++ "0" ++ layout.wholeEnd
  else
    let decimal := x.shortest
    let digits := (toString decimal.digits).toList
    let magnitude := decimal.magnitude
    if layout.positionalFrom ≤ magnitude ∧ magnitude ≤ layout.positionalTo then
      sign ++ layout.positional digits magnitude
    else sign ++ layout.scientific digits magnitude

end DecimalLayout

end Stencil
