import LetCalculus.Decimal.Layout
import LetCalculus.Double

/-!
# Float literals

A finite float is written by its shortest decimal, always with a point or an exponent, so that no
float is written as an integer. Zero keeps its sign, and a pattern that is not a number shows
neither its sign nor whether it signals.
-/

namespace LetCalculus

namespace Double

/-- What a bit pattern denotes, its sign apart. -/
inductive Magnitude where
  | zero
  | finite (v : Binary)
  | infinite
  | undefined
  deriving DecidableEq, Repr

/--
The magnitude of a pattern. A nonzero exponent field stands for a leading bit that is not stored.
Where the fraction is zero the exponent changes, so the lower neighbour is nearer, except at the
least exponent, which the numbers without a leading bit share.
-/
def magnitude (a : Double) : Magnitude :=
  let e := a.exponentField
  let f := a.fractionField
  if e = 2047 then (if f = 0 then .infinite else .undefined)
  else if e = 0 then (if f = 0 then .zero else .finite ⟨f, -1074, false, f % 2 == 0⟩)
  else .finite ⟨Nat.pow 2 52 + f, (e : Int) - 1075, f == 0 && decide (1 < e), f % 2 == 0⟩

/-- Floats from `10 ^ -4` up to but not including `10 ^ 16` are written positionally. -/
def layout : Decimal.Layout := ⟨-4, 16⟩

def characters (a : Double) : List Char :=
  let sign := if a.isNegative then ['-'] else []
  match a.magnitude with
  | .zero => sign ++ "0.0".toList
  | .finite v => sign ++ v.shortest.write layout
  | .infinite => sign ++ "inf".toList
  | .undefined => "NaN".toList

def render (a : Double) : String := String.ofList a.characters

-- An integral float has a point in the positional form and none in the other.
example : characters ⟨0xbff0000000000000⟩ = "-1.0".toList := by decide +kernel

example : characters ⟨0x4341c37937e08000⟩ = "1e16".toList := by decide +kernel

-- The fewest digits that read back, not the exact value.
example : characters ⟨0x3fb999999999999a⟩ = "0.1".toList := by decide +kernel

-- The least positive float, and a power of two, whose interval is not symmetric.
example : characters ⟨1⟩ = "5e-324".toList := by decide +kernel

example : characters ⟨0x3e60000000000000⟩ = "2.9802322387695313e-8".toList := by decide +kernel

-- Zero with its sign, and a signalling pattern without.
example : characters ⟨0x8000000000000000⟩ = "-0.0".toList := by decide +kernel

example : characters ⟨0xfff0000000000001⟩ = "NaN".toList := by decide +kernel

end Double

end LetCalculus
