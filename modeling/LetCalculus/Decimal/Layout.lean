import LetCalculus.Decimal.Shortest

/-!
# Layout of decimals

How a decimal is written out: positionally when its leading digit is near the point, and with an
exponent otherwise.
-/

namespace LetCalculus

/-- The places of the leading digit for which a decimal is written positionally. -/
structure Decimal.Layout where
  positionalFrom : Int
  positionalBelow : Int
  deriving DecidableEq, Repr

namespace Decimal

def digitList (d : Decimal) : List Char := Nat.toDigits 10 d.digits

/-- How many digits stand before the point; zeros follow or precede if it is out of range. -/
def point (d : Decimal) : Int := d.digitList.length + d.exponent

/-- The decimal with all its digits in place and at least one digit on each side of the point. -/
def positional (d : Decimal) : List Char :=
  let ds := d.digitList
  if d.point ≤ 0 then '0' :: '.' :: (List.replicate (-d.point).toNat '0' ++ ds)
  else if ds.length ≤ d.point then
    ds ++ List.replicate (d.point - ds.length).toNat '0' ++ ['.', '0']
  else ds.take d.point.toNat ++ '.' :: ds.drop d.point.toNat

/-- The decimal with one digit before the point and a power of ten; no point without a fraction. -/
def scientific (d : Decimal) : List Char :=
  let power := 'e' :: (toString (d.point - 1)).toList
  match d.digitList with
  | [] => power
  | [c] => c :: power
  | c :: cs => c :: '.' :: (cs ++ power)

def write (l : Layout) (d : Decimal) : List Char :=
  if l.positionalFrom ≤ d.point - 1 ∧ d.point - 1 < l.positionalBelow then d.positional
  else d.scientific

end Decimal

end LetCalculus
