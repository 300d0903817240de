import LetCalculus.Eval.Basic

/-!
# Evaluation with a counter

An interpreter does not hand the depth down from level to level. It keeps it in a counter, which
goes up before an expression is evaluated and down again afterwards, with or without a value, and
compares the counter with its limit. Its name table refuses a new text when all indices are taken,
and then everything ends where it stands. Beyond that the rules are the same.
-/

namespace LetCalculus

/-- What an interpreter changes in the course of an evaluation. -/
structure Progress where
  depth : Nat
  state : State

inductive Stop where
  | halted (h : Halt)
  /-- The name table had no room for a new text. -/
  | full (e : InternError)
  deriving DecidableEq, Repr

/-- Computations that change the counter as well, and end where the name table is full. -/
abbrev CountM := EStateM Stop Progress

instance : Evaluation CountM where
  lift p := fun c =>
    match p c.state with
    | .ok a σ => .ok a { c with state := σ }
    | .error h σ => .error (.halted h) { c with state := σ }
  substitute x r e := fun c =>
    match Expr.substitute? x r e c.state.names with
    | .ok (e', names) => .ok e' { c with state := { c.state with names } }
    | .error err => .error (.full err) c

namespace CountM

/-- The counter is 64 bits wide, and does not go beyond its greatest value. -/
def maxDepth : Nat := Nat.pow 2 64 - 1

/--
Do a computation one level further down, unless this is beyond the limit. Whether it has a value or
fails, the counter goes back to the level above.
-/
def below {α : Type} (limit : Option Nat) (p : CountM α) : CountM α := fun c =>
  let depth := min (c.depth + 1) maxDepth
  match limit.filter (· < depth) with
  | some m => .error (.halted (.failed (.depthExceeded m))) c
  | none =>
    match p { c with depth } with
    | .ok a c => .ok a { c with depth := depth - 1 }
    | .error (.halted h) c => .error (.halted h) { c with depth := depth - 1 }
    | .error (.full err) c => .error (.full err) c

end CountM

/-- Evaluation under a limit, if there is one. The recursion is cut off at the given number. -/
def Discipline.evalCounting (s : Discipline) (limit : Option Nat) :
    Nat → Expr → Environment → CountM Value
  | 0, _, _ => throw (.halted .exhausted)
  | n + 1, e, env => CountM.below limit (s.evalNode (s.evalCounting limit n) e env)

end LetCalculus
