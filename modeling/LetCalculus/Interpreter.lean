import LetCalculus.Eval.Counter
import LetCalculus.Eval.Machine

/-!
# Interpreters

An interpreter is a strategy and an optional limit on the depth of evaluation. With a limit every
evaluation ends. Without one it is given an allowance of depth, and an evaluation that the
allowance does not suffice for is reported as unfinished, never as a failure of the program.

The depth is handed down here. An interpreter that keeps it in a counter, and whose name table can
be full, does the same as long as the table has room (`Interpreter.evalCounting`).
-/

namespace LetCalculus

/-- A strategy and the depth beyond which evaluation fails. -/
structure Interpreter where
  strategy : Strategy := default
  maxDepth : Option Nat := none
  deriving DecidableEq, Repr

inductive Outcome where
  | value (v : Value)
  | error (e : EvalError)
  /-- The allowance did not suffice. -/
  | unfinished
  deriving DecidableEq

namespace Outcome

/-- Without a limit, exhaustion says nothing about the program. -/
def ofUnlimited : Machine.Final → Outcome × State
  | .ok v σ => (.value v, σ)
  | .error (.failed e) σ => (.error e, σ)
  | .error .exhausted σ => (.unfinished, σ)

/-- Under a limit, exhaustion is a failure of the program. -/
def ofLimited (limit : Nat) : Machine.Final → Outcome × State
  | .ok v σ => (.value v, σ)
  | .error (.failed e) σ => (.error e, σ)
  | .error .exhausted σ => (.error (.depthExceeded limit), σ)

end Outcome

/-- Evaluate an expression. The allowance is the depth granted where the interpreter sets none. -/
def Interpreter.eval (i : Interpreter) (allowance : Nat) (e : Expr) (env : Environment)
    (σ : State) : Outcome × State :=
  match i.strategy with
  | .trivial => (.value (.plain e), σ)
  | .reducing s =>
    match i.maxDepth with
    | none => Outcome.ofUnlimited (Machine.run s allowance e env σ)
    | some limit => Outcome.ofLimited limit (Machine.run s limit e env σ)

/--
The same by an interpreter that counts, and that starts again from zero with each expression. Where
it sets a limit, the recursion is cut off behind it.
-/
def Interpreter.evalCounting (i : Interpreter) (allowance : Nat) (e : Expr) (env : Environment)
    (c : Progress) : Except InternError Outcome × Progress :=
  match i.strategy with
  | .trivial => (.ok (.value (.plain e)), c)
  | .reducing s =>
    let cutoff := i.maxDepth.elim allowance (· + 1)
    match s.evalCounting i.maxDepth cutoff e env { c with depth := 0 } with
    | .ok v c => (.ok (.value v), c)
    | .error (.halted (.failed x)) c => (.ok (.error x), c)
    | .error (.halted .exhausted) c => (.ok .unfinished, c)
    | .error (.full err) c => (.error err, c)

namespace Interpreter

theorem eval_limited (s : Discipline) (m a : Nat) (e : Expr) (env : Environment) (σ : State) :
    eval ⟨.reducing s, some m⟩ a e env σ = Outcome.ofLimited m (s.eval m e env σ) := by
  simp only [eval, Machine.run_eq_eval]

theorem eval_unlimited (s : Discipline) (a : Nat) (e : Expr) (env : Environment) (σ : State) :
    eval ⟨.reducing s, none⟩ a e env σ = Outcome.ofUnlimited (s.eval a e env σ) := by
  simp only [eval, Machine.run_eq_eval]

theorem eval_eq_value_iff {s : Discipline} {limit : Option Nat} {a : Nat} {e : Expr}
    {env : Environment} {σ σ' : State} {v : Value} :
    eval ⟨.reducing s, limit⟩ a e env σ = (.value v, σ') ↔
      s.eval (limit.getD a) e env σ = .ok v σ' := by
  cases limit with
  | none =>
    rw [eval_unlimited, Option.getD_none]
    rcases s.eval a e env σ with ⟨w, τ⟩ | ⟨x | _, τ⟩ <;> simp [Outcome.ofUnlimited]
  | some m =>
    rw [eval_limited, Option.getD_some]
    rcases s.eval m e env σ with ⟨w, τ⟩ | ⟨x | _, τ⟩ <;> simp [Outcome.ofLimited]

/-- Errors are how evaluation fails, apart from the one for exceeding the limit. -/
theorem exists_failed_of_eval {s : Discipline} {limit : Option Nat} {a : Nat} {e : Expr}
    {env : Environment} {σ : State} {x : EvalError}
    (h : (eval ⟨.reducing s, limit⟩ a e env σ).1 = .error x) (hx : ∀ n, x ≠ .depthExceeded n) :
    ∃ σ', s.eval (limit.getD a) e env σ = .error (.failed x) σ' := by
  cases limit with
  | none =>
    rw [eval_unlimited] at h
    rw [Option.getD_none]
    generalize s.eval a e env σ = r at h ⊢
    rcases r with ⟨w, τ⟩ | ⟨y | _, τ⟩
    · cases h
    · cases h
      exact ⟨τ, rfl⟩
    · cases h
  | some m =>
    rw [eval_limited] at h
    rw [Option.getD_some]
    generalize s.eval m e env σ = r at h ⊢
    rcases r with ⟨w, τ⟩ | ⟨y | _, τ⟩
    · cases h
    · cases h
      exact ⟨τ, rfl⟩
    · cases h
      exact absurd rfl (hx m)

end Interpreter

end LetCalculus
