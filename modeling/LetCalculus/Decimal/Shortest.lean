/-!
# Shortest decimals

A positive binary number stands for an interval of reals, namely those that round to it. Its
shortest decimal is the decimal of fewest digits in that interval; of two such decimals it is the
nearer one, and of two equally near the larger. Fewest digits means the coarsest grid of
multiples of a power of ten that meets the interval, so the search goes through the powers of
ten downwards, in exact arithmetic on natural numbers.
-/

namespace LetCalculus

/-- The number `digits * 10 ^ exponent`. -/
structure Decimal where
  digits : Nat
  exponent : Int
  deriving DecidableEq, Repr

/--
The positive number `mantissa * 2 ^ exponent`, with what decides which reals round to it: whether
its lower neighbour is only half as far away as its upper one, and whether the two midpoints
round to it.
-/
structure Binary where
  mantissa : Nat
  exponent : Int
  narrowBelow : Bool
  closed : Bool
  deriving DecidableEq, Repr

namespace Binary

/-- The lower end of the interval, in quarters of `2 ^ exponent`. -/
def lower (v : Binary) : Nat := 4 * v.mantissa - if v.narrowBelow then 1 else 2

def centre (v : Binary) : Nat := 4 * v.mantissa

def upper (v : Binary) : Nat := 4 * v.mantissa + 2

/-- A quarter of `2 ^ exponent` is `scale / step` times `10 ^ e`; this is the numerator. -/
def scale (v : Binary) (e : Int) : Nat := Nat.pow 2 (v.exponent - 2).toNat * Nat.pow 10 (-e).toNat

/-- A quarter of `2 ^ exponent` is `scale / step` times `10 ^ e`; this is the denominator. -/
def step (v : Binary) (e : Int) : Nat := Nat.pow 2 (2 - v.exponent).toNat * Nat.pow 10 e.toNat

def contains (v : Binary) (c : Nat) (e : Int) : Bool :=
  if v.closed then
    decide (v.lower * v.scale e ≤ c * v.step e ∧ c * v.step e ≤ v.upper * v.scale e)
  else
    decide (v.lower * v.scale e < c * v.step e ∧ c * v.step e < v.upper * v.scale e)

def below (v : Binary) (e : Int) : Nat := v.centre * v.scale e / v.step e

/-- Whether the number is nearer to the multiple of `10 ^ e` below it than to the next one. -/
def nearerBelow (v : Binary) (e : Int) : Bool :=
  decide (2 * (v.centre * v.scale e) < (2 * v.below e + 1) * v.step e)

/-- The multiple of `10 ^ e` that is nearest to the number among those that round to it. -/
def onGrid? (v : Binary) (e : Int) : Option Decimal :=
  let c := v.below e
  match v.contains c e, v.contains (c + 1) e with
  | true, true => some ⟨if v.nearerBelow e then c else c + 1, e⟩
  | true, false => some ⟨c, e⟩
  | false, true => some ⟨c + 1, e⟩
  | false, false => none

/-- The number itself as a decimal: a negative power of two is a power of five over one of ten. -/
def exact (v : Binary) : Decimal :=
  if 0 ≤ v.exponent then ⟨v.mantissa * Nat.pow 2 v.exponent.toNat, 0⟩
  else ⟨v.mantissa * Nat.pow 5 (-v.exponent).toNat, v.exponent⟩

/--
A power of ten that is above the interval: the number lies under `2 ^ b`, where `b` counts the
binary digits before the point, and `0.30103` is just above the logarithm of two.
-/
def coarsest (v : Binary) : Int := ((Nat.log2 v.mantissa + 1 + v.exponent) * 30103) / 100000 + 1

/-- The decimal of fewest digits that rounds to the number. -/
def shortest (v : Binary) : Decimal :=
  ((List.range 24).findSome? fun i : Nat => v.onGrid? (v.coarsest - i)).getD v.exact

end Binary

end LetCalculus
