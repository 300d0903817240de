import LetCalculus.Eval.Machine

/-!
# Evaluation and depth

The allowed depth only cuts an evaluation off: one that is not exhausted has the same result and
leaves the same state at every greater depth (`eval_of_le`). So an expression has at most one
outcome without regard to depth (`Finishes.unique`), and an evaluation that is exhausted at every
depth is one that does not end.
-/

namespace LetCalculus

namespace EvalM

variable {α β ι : Type}

/-- Computations that change the heap alone, or fail at once. -/
def Primitive (p : EvalM α) : Prop :=
  ∀ σ, (∃ a heap, p σ = .ok a ⟨σ.names, heap⟩) ∨ ∃ e, p σ = .error (.failed e) σ

theorem primitive_ofExcept (r : Except EvalError α) : Primitive (ofExcept r) := by
  intro σ
  cases r with
  | ok a => exact .inl ⟨a, σ.heap, rfl⟩
  | error e => exact .inr ⟨e, rfl⟩

/--
A relation between a computation and a family of computations, of the same kind or of another one,
that the rules of evaluation keep.
-/
structure Congruence (ι : Type) (m m' : Type → Type) [Evaluation m] [Evaluation m'] where
  rel : {α : Type} → m α → (ι → m' α) → Prop
  pure : ∀ {α : Type} (a : α), rel (pure a) fun _ => pure a
  lift : ∀ {α : Type} {p : EvalM α}, p.Primitive →
    rel (Evaluation.lift p) fun _ => Evaluation.lift p
  substitute : ∀ x r e, rel (Evaluation.substitute x r e) fun _ => Evaluation.substitute x r e
  bind : ∀ {α β : Type} {p : m α} {p' : ι → m' α} {f : α → m β} {f' : ι → α → m' β},
    rel p p' → (∀ a, rel (f a) fun i => f' i a) → rel (p >>= f) fun i => p' i >>= f' i

/-- Wherever `m` is not exhausted, `m'` does the same. -/
def Refines (m m' : EvalM α) : Prop :=
  ∀ σ, (∃ σ', m σ = .error .exhausted σ') ∨ m' σ = m σ

theorem Refines.refl (m : EvalM α) : Refines m m := fun _ => .inr rfl

theorem Refines.bind {m m' : EvalM α} {f f' : α → EvalM β} (h : Refines m m')
    (hf : ∀ a, Refines (f a) (f' a)) : Refines (m >>= f) (m' >>= f') := by
  intro σ
  simp only [Bind.bind, EStateM.bind]
  rcases h σ with ⟨σ', h⟩ | h
  · exact .inl ⟨σ', by rw [h]⟩
  · rw [h]
    cases m σ with
    | ok a σ => exact hf a σ
    | error e σ => exact .inr rfl

def Refines.congruence : Congruence Unit EvalM EvalM where
  rel m m' := Refines m (m' ())
  pure _ := .refl _
  lift _ := .refl _
  substitute _ _ _ := .refl _
  bind := .bind

end EvalM

namespace Discipline

open EvalM

section

variable {s : Discipline} {ι : Type} {m m' : Type → Type} [Evaluation m] [Evaluation m']
  {recur : Expr → Environment → m Value} {recur' : ι → Expr → Environment → m' Value}

theorem enter_congr (R : Congruence ι m m')
    (h : ∀ e env, R.rel (recur e env) fun i => recur' i e env) (x : Name) (v : Value)
    (body : Expr) (env : Environment) :
    R.rel (s.enter recur x v body env) fun i => s.enter (recur' i) x v body env := by
  cases s with
  | substitution => exact R.bind (R.substitute _ _ _) fun _ => h _ _
  | dynamic | lexical => exact R.bind (R.lift fun σ => .inl ⟨_, _, rfl⟩) fun _ => h _ _

/-- What holds between the evaluators for the level below holds between the rules over them. -/
theorem evalNode_congr (R : Congruence ι m m')
    (h : ∀ e env, R.rel (recur e env) fun i => recur' i e env) (e : Expr) (env : Environment) :
    R.rel (s.evalNode recur e env) fun i => s.evalNode (recur' i) e env := by
  cases e with
  | var x => exact R.lift fun σ => primitive_ofExcept (σ.fetch env x) σ
  | unary op e => exact R.bind (h e env) fun _ => R.lift (primitive_ofExcept _)
  | binary op l r =>
    exact R.bind (h l env) fun _ => R.bind (h r env) fun _ => R.lift (primitive_ofExcept _)
  | cond c y n =>
    refine R.bind (h c env) fun v => ?_
    cases v.truth? with
    | some b => exact h _ env
    | none => exact R.lift fun σ => .inr ⟨_, rfl⟩
  | letIn x v b => exact R.bind (h v env) fun _ => enter_congr R h _ _ _ _
  | letRec x v b =>
    cases s with
    | substitution =>
      exact R.bind (R.substitute _ _ _) fun _ => R.bind (h _ env) fun _ => enter_congr R h _ _ _ _
    | dynamic | lexical =>
      exact R.bind (R.lift fun σ => .inl ⟨_, _, rfl⟩) fun p => R.bind (h v p.2) fun _ =>
        R.bind (R.lift fun σ => .inl ⟨_, _, rfl⟩) fun _ => h b p.2
  | app f a =>
    refine R.bind (h f env) fun v => ?_
    cases s.callee? v env with
    | some g => exact R.bind (h a env) fun _ => enter_congr R h _ _ _ _
    | none => exact R.lift fun σ => .inr ⟨_, rfl⟩
  | raise | unassigned => exact R.lift fun σ => .inr ⟨_, rfl⟩
  | int n | float a | bool b | fn x b => exact R.pure _

end

variable {s : Discipline} {recur : Expr → Environment → EvalM Value}

theorem evalNode_refines {recur' : Expr → Environment → EvalM Value}
    (h : ∀ e env, Refines (recur e env) (recur' e env)) (e : Expr) (env : Environment) :
    Refines (s.evalNode recur e env) (s.evalNode recur' e env) :=
  @evalNode_congr s Unit EvalM EvalM _ _ recur (fun _ => recur') Refines.congruence h e env

theorem eval_refines_succ (s : Discipline) (d : Nat) (e : Expr) (env : Environment) :
    Refines (s.eval d e env) (s.eval (d + 1) e env) := by
  induction d generalizing e env with
  | zero => exact fun σ => .inl ⟨σ, rfl⟩
  | succ d ih => exact evalNode_refines ih e env

/-- Whether an evaluation came to an end within its depth. -/
def Ended : Machine.Final → Prop
  | .error .exhausted _ => False
  | _ => True

theorem eval_of_le {d d' : Nat} {e : Expr} {env : Environment} {σ : State} (hd : d ≤ d')
    (h : Ended (s.eval d e env σ)) : s.eval d' e env σ = s.eval d e env σ := by
  induction hd with
  | refl => rfl
  | step _ ih =>
    rcases s.eval_refines_succ _ e env σ with ⟨σ', hx⟩ | hx
    · rw [ih] at hx
      rw [hx] at h
      exact h.elim
    · rw [hx, ih]

/-- An evaluation ends with the given outcome, at some depth and hence at all greater ones. -/
def Finishes (s : Discipline) (e : Expr) (env : Environment) (σ : State) (r : Machine.Final) :
    Prop :=
  Ended r ∧ ∃ d, s.eval d e env σ = r

theorem Finishes.unique {e : Expr} {env : Environment} {σ : State} {r r' : Machine.Final}
    (h : s.Finishes e env σ r) (h' : s.Finishes e env σ r') : r = r' := by
  obtain ⟨hr, d, rfl⟩ := h
  obtain ⟨hr', d', rfl⟩ := h'
  rcases Nat.le_total d d' with hd | hd
  · exact (eval_of_le hd hr).symm
  · exact eval_of_le hd hr'

end Discipline

end LetCalculus
