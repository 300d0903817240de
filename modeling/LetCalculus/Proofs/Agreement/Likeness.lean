import LetCalculus.Eval.Machine
import LetCalculus.Proofs.Evaluation.Operators

/-!
# What disciplines can agree on

Two disciplines cannot come to the same functions, since only one of them makes closures. Their
values are alike if they are the same literal or both functions. A diagnosis names the types of
operands, so it may say `function` for the one and `closure` for the other, and apart from this
alike errors are the same.

Rules that do not look into functions cannot tell alike values apart: operators
(`BinaryOp.likeResult_apply`), conditionals and calls of what is not a function.
-/

namespace LetCalculus

/-- The same literal, or a plain function and a closure. -/
inductive Value.Like : Value → Value → Prop
  | literal {l : Expr} : l.isLiteral = true → Like (.plain l) (.plain l)
  | function {x : Name} {b : Expr} {f : Lambda} {scope : Environment} :
    Like (.plain (.fn x b)) (.closure f scope)

inductive LikeWord : String → String → Prop
  | same (w : String) : LikeWord w w
  | function : LikeWord "function" "closure"

inductive LikeOperand : String → String → Prop
  | one {w w' : String} : LikeWord w w' → LikeOperand w w'
  | two {a a' b b' : String} : LikeWord a a' → LikeWord b b' →
    LikeOperand (a ++ " and " ++ b) (a' ++ " and " ++ b')

/-- The same error, up to the word for functions in the description of operands. -/
inductive EvalError.Like : EvalError → EvalError → Prop
  | same (x : EvalError) : Like x x
  | operand (context : String) {o o' : String} : LikeOperand o o' →
    Like (.typeMismatch context o) (.typeMismatch context o')

inductive LikeResult : Except EvalError Value → Except EvalError Value → Prop
  | literal {l : Expr} : l.isLiteral = true → LikeResult (.ok (.plain l)) (.ok (.plain l))
  | error {x y : EvalError} : x.Like y → LikeResult (.error x) (.error y)

inductive LikeOutcome : Machine.Final → Machine.Final → Prop
  | value {v w : Value} {σ τ : State} : v.Like w → LikeOutcome (.ok v σ) (.ok w τ)
  | error {x y : EvalError} {σ τ : State} : x.Like y →
    LikeOutcome (.error (.failed x) σ) (.error (.failed y) τ)

theorem OperatorResult.likeResult {r : Except EvalError Value} (h : OperatorResult r) :
    LikeResult r r := by
  cases r with
  | ok v =>
    obtain ⟨l, hl, rfl⟩ := h
    exact .literal hl
  | error x => exact .error (.same x)

variable {v v' w w' : Value}

namespace Value.Like

theorem likeWord (h : v.Like v') : LikeWord v.typeName v'.typeName := by
  cases h with
  | literal _ => exact .same _
  | function => exact .function

theorem likeError (h : v.Like v') (context : String) :
    EvalError.Like (.typeMismatch context v.typeName) (.typeMismatch context v'.typeName) :=
  .operand context (.one h.likeWord)

theorem truth? (h : v.Like v') : v.truth? = v'.truth? := by
  cases h <;> rfl

end Value.Like

theorem UnaryOp.likeResult_apply (op : UnaryOp) (h : v.Like v') :
    LikeResult (op.apply v) (op.apply v') := by
  cases h with
  | literal _ => exact (op.operatorResult_apply _).likeResult
  | function => cases op <;> exact .error (.operand _ (.one .function))

theorem BinaryOp.apply_function (op : BinaryOp) (h : v.Like v') (h' : w.Like w')
    (hf : (∃ f scope, v' = .closure f scope) ∨ ∃ f scope, w' = .closure f scope) :
    op.apply v w = .error (.typeMismatch (operatorContext op.symbol)
        (v.typeName ++ " and " ++ w.typeName)) ∧
      op.apply v' w' = .error (.typeMismatch (operatorContext op.symbol)
        (v'.typeName ++ " and " ++ w'.typeName)) := by
  cases h with
  | function =>
    cases h' with
    | function => exact ⟨rfl, rfl⟩
    | @literal l hl =>
      cases l with
      | int n | float a | bool b => exact ⟨rfl, rfl⟩
      | _ => cases hl
  | @literal l hl =>
    cases h' with
    | literal _ => simp at hf
    | function =>
      cases l with
      | int n | float a | bool b => exact ⟨rfl, rfl⟩
      | _ => cases hl

theorem BinaryOp.likeResult_apply (op : BinaryOp) (h : v.Like v') (h' : w.Like w') :
    LikeResult (op.apply v w) (op.apply v' w') := by
  by_cases hf : (∃ f scope, v' = .closure f scope) ∨ ∃ f scope, w' = .closure f scope
  · obtain ⟨hv, hw⟩ := op.apply_function h h' hf
    rw [hv, hw]
    exact .error (.operand _ (.two h.likeWord h'.likeWord))
  · cases h with
    | function => exact absurd (.inl ⟨_, _, rfl⟩) hf
    | literal _ =>
      cases h' with
      | function => exact absurd (.inr ⟨_, _, rfl⟩) hf
      | literal _ => exact (op.operatorResult_apply _ _).likeResult

end LetCalculus
