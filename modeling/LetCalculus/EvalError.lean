/-!
# Evaluation errors

Why an evaluation failed. An error carries the texts of its diagnosis, rendered at the point of
failure, so that it can be reported without the name table.
-/

namespace LetCalculus

inductive EvalError where
  | unboundVariable (name : String)
  | typeMismatch (context operand : String)
  | notAFunction (value : String)
  | divisionByZero
  | integerOverflow (operation : String)
  | depthExceeded (depth : Nat)
  /-- A recursive definition was used before its value was known. -/
  | unassigned
  | raised
  deriving DecidableEq, Repr

inductive FailureClass where
  | fault
  | raise
  deriving DecidableEq, Repr

namespace EvalError

def message : EvalError → String
  | unboundVariable name => "unbound variable: " ++ name
  | typeMismatch context operand => "type mismatch in " ++ context ++ ": got " ++ operand
  | notAFunction value => "not a function: " ++ value
  | divisionByZero => "division by zero"
  | integerOverflow operation => "integer overflow in " ++ operation
  | depthExceeded depth => "evaluation exceeded the maximum depth of " ++ toString depth
  | unassigned => "internal error: unassigned let rec placeholder was evaluated"
  | raised => "exception raised"

def failureClass : EvalError → FailureClass
  | raised => .raise
  | _ => .fault

def isRaise (e : EvalError) : Bool := e.failureClass == .raise

end EvalError

end LetCalculus
