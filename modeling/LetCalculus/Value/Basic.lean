import LetCalculus.Expr.Basic
import LetCalculus.Environment

/-!
# Values

A value is a finished expression or a closure, a function literal with the environment in which it
was made. The placeholder stands for the value of a recursive definition that is not known yet.
-/

namespace LetCalculus

inductive Value where
  | plain (e : Expr)
  | closure (f : Lambda) (env : Environment)
  deriving DecidableEq

namespace Value

/-- The placeholder for the value of a recursive definition that is not known yet. -/
def unassigned : Value := .plain .unassigned

instance : Inhabited Value := ⟨unassigned⟩

def isUnassigned : Value → Bool
  | .plain .unassigned => true
  | _ => false

/-- The expression of a value; a closure loses its environment. -/
def toExpr : Value → Expr
  | .plain e => e
  | .closure f _ => f.toExpr

def typeName : Value → String
  | .plain (.int _) => "int"
  | .plain (.float _) => "float"
  | .plain (.bool _) => "bool"
  | .plain (.fn ..) => "function"
  | .plain .unassigned => "unassigned"
  | .plain _ => "expression"
  | .closure .. => "closure"

/-- Equality in the sense of the language; closures must share their environment. -/
def same : Value → Value → Bool
  | .plain e, .plain e' => e.same e'
  | .closure f env, .closure f' env' => f.toExpr.same f'.toExpr && env.same env'
  | _, _ => false

end Value

end LetCalculus
