import LetCalculus.Eval.State

/-!
# Evaluation

Evaluation by recursion on the allowed depth: an expression is evaluated one level below the
expression, or the call, that needs its value, and at depth zero the evaluation is exhausted. The
rules for one node are given over an arbitrary evaluator for the level below, in computations of
any kind, so that what holds of every node passes to evaluations of every depth.

Under substitution the environment is never extended: a bound value replaces its name in the
text, and the name of a recursive definition is replaced by the definition itself. Under the
other two disciplines a definition extends the environment, and a recursive one enters the new
environment before its own value is known.
-/

namespace LetCalculus

def Value.truth? : Value → Option Bool
  | .plain (.bool b) => some b
  | _ => none

namespace Discipline

def closeOver (s : Discipline) (f : Lambda) (env : Environment) : Value :=
  match s with
  | .lexical => .closure f env
  | .substitution | .dynamic => .plain f.toExpr

/-- The function to call and the environment for its body, if a callee in `env` is a function. -/
def callee? (s : Discipline) (v : Value) (env : Environment) : Option (Lambda × Environment) :=
  match s, v with
  | .lexical, .closure f scope => some (f, scope)
  | .substitution, .plain (.fn x b) => some (⟨x, b⟩, env)
  | .dynamic, .plain (.fn x b) => some (⟨x, b⟩, env)
  | _, _ => none

/-- Only a closure has a body that is evaluated elsewhere than at the call. -/
theorem scope_eq_of_callee? {s : Discipline} {v : Value} {env scope : Environment} {f : Lambda}
    (hs : s ≠ .lexical) (h : s.callee? v env = some (f, scope)) : scope = env := by
  unfold callee? at h
  split at h
  · exact absurd rfl hs
  · exact (Prod.mk.inj (Option.some.inj h)).2.symm
  · exact (Prod.mk.inj (Option.some.inj h)).2.symm
  · cases h

theorem holds_of_callee? {s : Discipline} {v : Value} {env scope : Environment} {f : Lambda}
    {P : Environment → Prop} (he : P env) (hv : ∀ g outer, v = .closure g outer → P outer)
    (h : s.callee? v env = some (f, scope)) : P scope := by
  by_cases hs : s = .lexical
  · subst hs
    cases v with
    | plain e => cases h
    | closure g outer =>
      cases h
      exact hv f scope rfl
  · rw [scope_eq_of_callee? hs h]
    exact he

theorem callee?_closeOver (s : Discipline) (f : Lambda) (scope env : Environment) :
    s.callee? (s.closeOver f scope) env = some (f, if s = .lexical then scope else env) := by
  cases s <;> rfl

/-- A recursive definition with one level of its recursion laid open. -/
def unroll (σ : State) (x : Name) (v : Expr) : Expr × State :=
  σ.substitute x (.letRec x v (.var x)) v

end Discipline

namespace Discipline

open EvalM Evaluation

section

variable {m : Type → Type} [Evaluation m]

def enter (s : Discipline) (recur : Expr → Environment → m Value)
    (x : Name) (v : Value) (body : Expr) (env : Environment) : m Value :=
  match s with
  | .substitution => do
    let body ← substitute x v.toExpr body
    recur body env
  | .dynamic | .lexical => do
    let env ← lift (modifyGet fun σ => σ.define env x v)
    recur body env

/-- The rules of evaluation for one node, over an evaluator for the level below. -/
def evalNode (s : Discipline) (recur : Expr → Environment → m Value) :
    Expr → Environment → m Value
  | .var x, env => lift do ofExcept ((← get).fetch env x)
  | .int n, _ => pure (.plain (.int n))
  | .float a, _ => pure (.plain (.float a))
  | .bool b, _ => pure (.plain (.bool b))
  | .unary op e, env => do
    let v ← recur e env
    lift (ofExcept (op.apply v))
  | .binary op l r, env => do
    let a ← recur l env
    let b ← recur r env
    lift (ofExcept (op.apply a b))
  | .cond c y n, env => do
    let v ← recur c env
    match v.truth? with
    | some b => recur (if b then y else n) env
    | none => lift (fail (.typeMismatch "conditional guard" v.typeName))
  | .fn x b, env => pure (s.closeOver ⟨x, b⟩ env)
  | .letIn x v b, env => do
    let a ← recur v env
    s.enter recur x a b env
  | .letRec x v b, env =>
    match s with
    | .substitution => do
      let v ← substitute x (.letRec x v (.var x)) v
      let a ← recur v env
      s.enter recur x a b env
    | .dynamic | .lexical => do
      let (c, env) ← lift (modifyGet fun σ => σ.declare env x)
      let a ← recur v env
      lift (modify fun σ => σ.assign c a)
      recur b env
  | .raise, _ => lift (fail .raised)
  | .unassigned, _ => lift (fail .unassigned)
  | .app f a, env => do
    let v ← recur f env
    match s.callee? v env with
    | some (g, scope) => do
      let arg ← recur a env
      s.enter recur g.param arg g.body scope
    | none => lift do fail (.notAFunction (v.render (← get).names))

end

section

variable {s : Discipline} {recur : Expr → Environment → EvalM Value} {env : Environment}
  {σ : State}

theorem enter_of_ne (hs : s ≠ .substitution) (x : Name) (v : Value) (b : Expr) :
    s.enter recur x v b env σ = recur b (σ.define env x v).1 (σ.define env x v).2 := by
  cases s with
  | substitution => exact absurd rfl hs
  | dynamic | lexical => rfl

theorem evalNode_letRec_of_ne (hs : s ≠ .substitution) (x : Name) (v b : Expr) :
    s.evalNode recur (.letRec x v b) env σ =
      let p := σ.declare env x
      (recur v p.1.2 >>= fun a => do
        modify fun σ => σ.assign p.1.1 a
        recur b p.1.2) p.2 := by
  cases s with
  | substitution => exact absurd rfl hs
  | dynamic | lexical => rfl

end

def eval (s : Discipline) : Nat → Expr → Environment → EvalM Value
  | 0, _, _ => throw .exhausted
  | d + 1, e, env => s.evalNode (s.eval d) e env

end Discipline

end LetCalculus
