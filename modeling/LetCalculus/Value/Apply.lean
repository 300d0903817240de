import LetCalculus.Value.Basic
import LetCalculus.EvalError

/-!
# Operators on values

Both operands of a binary operator must have one type. Integers and floats have arithmetic and
comparisons, truth values comparisons alone. Integer results are exact: one that does not fit into
64 bits is an error, and division truncates toward zero. A power is always a float. A float that
is not a number compares as different from everything.
-/

namespace LetCalculus

/-- The integer `n` as a literal, if it fits into 64 bits. -/
def intResult (operation : String) (n : Int) : Except EvalError Value :=
  if Int64.minValue.toInt ≤ n ∧ n ≤ Int64.maxValue.toInt then .ok (.plain (.int (Int64.ofInt n)))
  else .error (.integerOverflow operation)

def operatorContext (symbol : String) : String := "operator `" ++ symbol ++ "`"

namespace BinaryOp

/-- What a comparison says of two operands in the given order; `none` means unordered. -/
def holds (op : BinaryOp) (o : Option Ordering) : Bool :=
  match op with
  | .eq => o == some .eq
  | .ne => o != some .eq
  | .lt => o == some .lt
  | .le => o == some .lt || o == some .eq
  | .gt => o == some .gt
  | .ge => o == some .gt || o == some .eq
  | .add | .sub | .mul | .div | .pow => false

def onInts (op : BinaryOp) (a b : Int64) : Except EvalError Value :=
  match op with
  | .add => intResult "addition" (a.toInt + b.toInt)
  | .sub => intResult "subtraction" (a.toInt - b.toInt)
  | .mul => intResult "multiplication" (a.toInt * b.toInt)
  | .div =>
    if b.toInt = 0 then .error .divisionByZero else intResult "division" (a.toInt.tdiv b.toInt)
  | .pow => .ok (.plain (.float ((Double.ofInt a.toInt).pow (Double.ofInt b.toInt))))
  | .eq | .ne | .lt | .le | .gt | .ge =>
    .ok (.plain (.bool (op.holds (some (compare a.toInt b.toInt)))))

def onFloats (op : BinaryOp) (a b : Double) : Except EvalError Value :=
  match op with
  | .add => .ok (.plain (.float (a.add b)))
  | .sub => .ok (.plain (.float (a.sub b)))
  | .mul => .ok (.plain (.float (a.mul b)))
  | .div => if b.isZero then .error .divisionByZero else .ok (.plain (.float (a.div b)))
  | .pow => .ok (.plain (.float (a.pow b)))
  | .eq | .ne | .lt | .le | .gt | .ge => .ok (.plain (.bool (op.holds (a.order? b))))

/-- A binary operator on truth values, `false` being less than `true`. -/
def onBools (op : BinaryOp) (a b : Bool) : Except EvalError Value :=
  if op.isArithmetic then .error (.typeMismatch (operatorContext op.symbol) "bool and bool")
  else .ok (.plain (.bool (op.holds (some (compare a.toNat b.toNat)))))

def apply (op : BinaryOp) : Value → Value → Except EvalError Value
  | .plain (.int a), .plain (.int b) => op.onInts a b
  | .plain (.float a), .plain (.float b) => op.onFloats a b
  | .plain (.bool a), .plain (.bool b) => op.onBools a b
  | l, r => .error (.typeMismatch (operatorContext op.symbol) (l.typeName ++ " and " ++ r.typeName))

end BinaryOp

def UnaryOp.apply : UnaryOp → Value → Except EvalError Value
  | .neg, .plain (.int n) => intResult "negation" (-n.toInt)
  | .negFloat, .plain (.float a) => .ok (.plain (.float a.neg))
  | .not, .plain (.bool b) => .ok (.plain (.bool (!b)))
  | op, v => .error (.typeMismatch (operatorContext op.symbol) v.typeName)

end LetCalculus
