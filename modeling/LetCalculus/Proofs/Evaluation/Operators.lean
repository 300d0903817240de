import LetCalculus.Proofs.Evaluation.Literals

/-!
# What operators give

An operator gives a literal or one of three kinds of error, whatever its operands are.
-/

namespace LetCalculus

/-- Whether an operator can fail with an error. -/
def EvalError.ofOperator : EvalError → Bool
  | typeMismatch .. | divisionByZero | integerOverflow _ => true
  | _ => false

def OperatorResult : Except EvalError Value → Prop
  | .ok v => ∃ l : Expr, l.isLiteral = true ∧ v = .plain l
  | .error x => x.ofOperator = true

theorem operatorResult_intResult (operation : String) (n : Int) :
    OperatorResult (intResult operation n) := by
  unfold intResult
  split
  · exact ⟨_, rfl, rfl⟩
  · rfl

namespace BinaryOp

theorem operatorResult_onInts (op : BinaryOp) (a b : Int64) : OperatorResult (op.onInts a b) := by
  cases op with
  | add | sub | mul => exact operatorResult_intResult _ _
  | div =>
    simp only [onInts]
    split
    · rfl
    · exact operatorResult_intResult _ _
  | pow | eq | ne | lt | le | gt | ge => exact ⟨_, rfl, rfl⟩

theorem operatorResult_onFloats (op : BinaryOp) (a b : Double) :
    OperatorResult (op.onFloats a b) := by
  cases op with
  | div =>
    simp only [onFloats]
    split
    · rfl
    · exact ⟨_, rfl, rfl⟩
  | _ => exact ⟨_, rfl, rfl⟩

theorem operatorResult_onBools (op : BinaryOp) (a b : Bool) : OperatorResult (op.onBools a b) := by
  unfold onBools
  split
  · rfl
  · exact ⟨_, rfl, rfl⟩

theorem operatorResult_apply (op : BinaryOp) (a b : Value) : OperatorResult (op.apply a b) := by
  unfold apply
  split
  · exact op.operatorResult_onInts _ _
  · exact op.operatorResult_onFloats _ _
  · exact op.operatorResult_onBools _ _
  · rfl

end BinaryOp

theorem UnaryOp.operatorResult_apply (op : UnaryOp) (v : Value) : OperatorResult (op.apply v) := by
  unfold apply
  split
  · exact operatorResult_intResult _ _
  · exact ⟨_, rfl, rfl⟩
  · exact ⟨_, rfl, rfl⟩
  · rfl

end LetCalculus
