/-!
# Floats of double precision

A float is held as its bit pattern: a sign, eleven bits of exponent and fifty-two bits of
fraction. Patterns say more than the numbers that they stand for, because one that is not a number
is either quiet or signalling. An operation that computes a number gives no signalling pattern
(`isSignalling_ofFloat`), so these only come from literals and their negations
(`isSignalling_neg`). The one operation that can tell is the power: it may forget an operand that
is quiet and not a number, and never one that is signalling.
-/

namespace LetCalculus

structure Double where
  bits : UInt64
  deriving DecidableEq, Repr

namespace Double

def toFloat (a : Double) : Float := Float.ofBits a.bits

/-- The pattern of a number; what is not a number has one pattern, which is quiet. -/
def ofFloat (a : Float) : Double := ⟨a.toBits⟩

def ofInt (n : Int) : Double := ofFloat (Float.ofInt n)

def nan : Double := ⟨0x7ff8000000000000⟩

/-! ### The parts of a pattern -/

def isNegative (a : Double) : Bool := a.bits.toNat / Nat.pow 2 63 % 2 == 1

def exponentField (a : Double) : Nat := a.bits.toNat / Nat.pow 2 52 % Nat.pow 2 11

def fractionField (a : Double) : Nat := a.bits.toNat % Nat.pow 2 52

def isNaN (a : Double) : Bool := a.exponentField == 2047 && a.fractionField != 0

/-- Among the patterns that are not numbers, the signalling ones have a clear first fraction bit. -/
def isSignalling (a : Double) : Bool := a.isNaN && decide (a.fractionField < Nat.pow 2 51)

/-! ### Operations -/

def neg (a : Double) : Double := ⟨a.bits ^^^ 0x8000000000000000⟩

def add (a b : Double) : Double := ofFloat (a.toFloat + b.toFloat)

def sub (a b : Double) : Double := ofFloat (a.toFloat - b.toFloat)

def mul (a b : Double) : Double := ofFloat (a.toFloat * b.toFloat)

def div (a b : Double) : Double := ofFloat (a.toFloat / b.toFloat)

/--
The power. Where the exponent is zero or the base is one, the result is one even if the other
operand is quiet and not a number; a signalling operand leaves no number.
-/
def pow (a b : Double) : Double :=
  if a.isSignalling || b.isSignalling then nan else ofFloat (Float.pow a.toFloat b.toFloat)

def same (a b : Double) : Bool := a.toFloat == b.toFloat

def isZero (a : Double) : Bool := a.toFloat == 0

def order? (a b : Double) : Option Ordering :=
  if a.toFloat < b.toFloat then some .lt
  else if a.toFloat > b.toFloat then some .gt
  else if a.same b then some .eq
  else none

/-! ### Where signalling patterns come from -/

-- Either sign, and the bounds of the signalling patterns.
example : isSignalling ⟨0x7ff0000000000001⟩ = true := by decide

example : isSignalling ⟨0xfff7ffffffffffff⟩ = true := by decide

example : isSignalling ⟨0x7ff0000000000000⟩ = false := by decide

example : isSignalling nan = false := by decide

theorem exponentField_neg (a : Double) : a.neg.exponentField = a.exponentField := by
  change (a.bits.toNat ^^^ 2 ^ 63) / 2 ^ 52 % 2 ^ 11 = a.bits.toNat / 2 ^ 52 % 2 ^ 11
  rw [Nat.xor_div_two_pow, Nat.xor_mod_two_pow]
  exact Nat.xor_zero _

theorem fractionField_neg (a : Double) : a.neg.fractionField = a.fractionField := by
  change (a.bits.toNat ^^^ 2 ^ 63) % 2 ^ 52 = a.bits.toNat % 2 ^ 52
  rw [Nat.xor_mod_two_pow]
  exact Nat.xor_zero _

theorem isSignalling_neg (a : Double) : a.neg.isSignalling = a.isSignalling := by
  simp only [isSignalling, isNaN, exponentField_neg, fractionField_neg]

theorem ofFloat_eq_nan {a : Float} (h : (ofFloat a).isNaN = true) : ofFloat a = nan := by
  obtain ⟨bits, valid⟩ := a
  obtain ⟨he, hf⟩ := Bool.and_eq_true_iff.1 h
  have he : bits.toNat / 2 ^ 52 % 2 ^ 11 = 2047 := eq_of_beq he
  have hf : bits.toNat % 2 ^ 52 ≠ 0 := bne_iff_ne.1 hf
  have he : @Float.Model.UnpackedFloat.unpackExponent .binary64 bits.toBitVec = -1#11 := by
    apply BitVec.eq_of_toNat_eq
    simpa [Float.Model.UnpackedFloat.unpackExponent, Nat.shiftRight_eq_div_pow] using he
  have hf : @Float.Model.UnpackedFloat.unpackMantissa .binary64 bits.toBitVec ≠ 0#52 := by
    intro hz
    apply hf
    simpa [Float.Model.UnpackedFloat.unpackMantissa] using congrArg BitVec.toNat hz
  exact congrArg Double.mk (UInt64.toBitVec_inj.1 (valid.eq_packedNaN he hf))

theorem isSignalling_ofFloat (a : Float) : (ofFloat a).isSignalling = false := by
  cases h : (ofFloat a).isNaN with
  | true => rw [ofFloat_eq_nan h]; rfl
  | false => rw [isSignalling, h]; rfl

end Double

end LetCalculus
