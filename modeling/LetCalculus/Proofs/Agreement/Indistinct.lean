import LetCalculus.Proofs.Evaluation.Operators

/-!
# Values that the rules cannot tell apart

Operators, conditionals and look-ups read literals and see of a function no more than of which
kind it is. So they do the same with values that are the same or both functions of one kind. What
a rule may assume of the values of two runs is said by a `Likeness`: which values count as alike,
which errors do, and that no rule of this sort comes to anything else on alike values.
-/

namespace LetCalculus

/-- How an operator answers in two runs: with the same literal, or with errors that are alike. -/
inductive AlikeResult (error : EvalError → EvalError → Prop) :
    Except EvalError Value → Except EvalError Value → Prop
  | literal {l : Expr} : l.isLiteral = true → AlikeResult error (.ok (.plain l)) (.ok (.plain l))
  | error {x y : EvalError} : error x y → AlikeResult error (.error x) (.error y)

/-- Values and errors that count as alike, such that no rule tells alike values apart. -/
structure Likeness where
  value : Value → Value → Prop
  error : EvalError → EvalError → Prop
  refl : ∀ x, error x x
  isUnassigned : ∀ {v w}, value v w → v.isUnassigned = w.isUnassigned
  truth? : ∀ {v w}, value v w → v.truth? = w.truth?
  mismatch : ∀ {v w}, value v w → ∀ context,
    error (.typeMismatch context v.typeName) (.typeMismatch context w.typeName)
  unary : ∀ {v w}, value v w → ∀ op : UnaryOp, AlikeResult error (op.apply v) (op.apply w)
  binary : ∀ {v w v' w'}, value v w → value v' w' → ∀ op : BinaryOp,
    AlikeResult error (op.apply v v') (op.apply w w')

inductive Value.Indistinct : Value → Value → Prop
  | same (v : Value) : Indistinct v v
  | function {x y : Name} {b c : Expr} : Indistinct (.plain (.fn x b)) (.plain (.fn y c))
  | closure {f g : Lambda} {scope scope' : Environment} :
    Indistinct (.closure f scope) (.closure g scope')

theorem OperatorResult.alikeResult {r : Except EvalError Value} (h : OperatorResult r) :
    AlikeResult Eq r r := by
  cases r with
  | ok v =>
    obtain ⟨l, hl, rfl⟩ := h
    exact .literal hl
  | error x => exact .error rfl

namespace Value.Indistinct

variable {u v v' w w' : Value}

theorem trans (h : u.Indistinct v) (h' : v.Indistinct w) : u.Indistinct w := by
  cases h with
  | same => exact h'
  | function =>
    cases h' with
    | same => exact .function
    | function => exact .function
  | closure =>
    cases h' with
    | same => exact .closure
    | closure => exact .closure

theorem isUnassigned_eq (h : v.Indistinct w) : v.isUnassigned = w.isUnassigned := by
  cases h <;> rfl

theorem truth?_eq (h : v.Indistinct w) : v.truth? = w.truth? := by
  cases h <;> rfl

theorem typeName_eq (h : v.Indistinct w) : v.typeName = w.typeName := by
  cases h <;> rfl

theorem unaryApply_eq (h : v.Indistinct w) (op : UnaryOp) : op.apply v = op.apply w := by
  cases h with
  | same => rfl
  | function | closure => cases op <;> rfl

theorem binaryApply_left_eq (h : v.Indistinct w) (op : BinaryOp) (a : Value) :
    op.apply v a = op.apply w a := by
  cases h <;> rfl

theorem binaryApply_right_eq (h : v.Indistinct w) (op : BinaryOp) (a : Value) :
    op.apply a v = op.apply a w := by
  cases h with
  | same => rfl
  | function | closure =>
    cases a with
    | plain e => cases e <;> rfl
    | closure f scope => rfl

end Value.Indistinct

def Likeness.indistinct : Likeness where
  value := Value.Indistinct
  error := Eq
  refl _ := rfl
  isUnassigned h := h.isUnassigned_eq
  truth? h := h.truth?_eq
  mismatch h context := by rw [h.typeName_eq]
  unary {v w} h op := by
    rw [h.unaryApply_eq op]
    exact (op.operatorResult_apply w).alikeResult
  binary {v w v' w'} h h' op := by
    rw [h.binaryApply_left_eq op v', h'.binaryApply_right_eq op w]
    exact (op.operatorResult_apply w w').alikeResult

end LetCalculus
