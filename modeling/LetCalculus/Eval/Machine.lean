import LetCalculus.Eval.Basic

/-!
# The frame machine

The same evaluation, one step at a time. A configuration holds what is being evaluated or
returned, the frames that wait for the result, and the state. Each pending expression carries the
depth that it is allowed, so a step never looks at the rest of the stack. Steps use no native
stack, whatever the depth of the recursion that is evaluated.

The steps end: an evaluation at some depth has a weight that is more than that of all it can
put in its place, and every step makes the total weight of a configuration smaller. The machine
computes what evaluation by recursion on the depth computes (`runFrom_eval`, `run_eq_eval`).
-/

namespace LetCalculus.Machine

/-- Evaluate an expression within a depth, or return a value to the topmost frame. -/
inductive Control where
  | eval (depth : Nat) (e : Expr) (env : Environment)
  | ret (v : Value)

/-- What remains to be done with a value, and at which depth. -/
inductive Frame where
  | unary (op : UnaryOp)
  | right (op : BinaryOp) (r : Expr) (env : Environment) (depth : Nat)
  | binary (op : BinaryOp) (left : Value)
  | branch (yes no : Expr) (env : Environment) (depth : Nat)
  | bind (x : Name) (body : Expr) (env : Environment) (depth : Nat)
  | assign (c : Cell) (body : Expr) (env : Environment) (depth : Nat)
  | argument (arg : Expr) (env : Environment) (depth : Nat)

structure Config where
  control : Control
  stack : List Frame
  state : State

abbrev Final := EStateM.Result Halt State Value

abbrev Next := Final ⊕ Config

def fail (e : EvalError) (σ : State) : Next := .inl (.error (.failed e) σ)

def give (k : List Frame) (σ : State) : Except EvalError Value → Next
  | .ok v => .inr ⟨.ret v, k, σ⟩
  | .error e => fail e σ

def enter (s : Discipline) (x : Name) (v : Value) (body : Expr) (env : Environment) (d : Nat)
    (k : List Frame) (σ : State) : Next :=
  match s with
  | .substitution =>
    let (body, σ) := σ.substitute x v.toExpr body
    .inr ⟨.eval d body env, k, σ⟩
  | .dynamic | .lexical =>
    let (env, σ) := σ.define env x v
    .inr ⟨.eval d body env, k, σ⟩

def stepEval (s : Discipline) (d : Nat) (e : Expr) (env : Environment) (k : List Frame)
    (σ : State) : Next :=
  match e with
  | .var x => give k σ (σ.fetch env x)
  | .int n => .inr ⟨.ret (.plain (.int n)), k, σ⟩
  | .float a => .inr ⟨.ret (.plain (.float a)), k, σ⟩
  | .bool b => .inr ⟨.ret (.plain (.bool b)), k, σ⟩
  | .unary op e => .inr ⟨.eval d e env, .unary op :: k, σ⟩
  | .binary op l r => .inr ⟨.eval d l env, .right op r env d :: k, σ⟩
  | .cond c y n => .inr ⟨.eval d c env, .branch y n env d :: k, σ⟩
  | .fn x b => .inr ⟨.ret (s.closeOver ⟨x, b⟩ env), k, σ⟩
  | .letIn x v b => .inr ⟨.eval d v env, .bind x b env d :: k, σ⟩
  | .letRec x v b =>
    match s with
    | .substitution =>
      let (v, σ) := Discipline.unroll σ x v
      .inr ⟨.eval d v env, .bind x b env d :: k, σ⟩
    | .dynamic | .lexical =>
      let ((c, env), σ) := σ.declare env x
      .inr ⟨.eval d v env, .assign c b env d :: k, σ⟩
  | .raise => fail .raised σ
  | .unassigned => fail .unassigned σ
  | .app f a => .inr ⟨.eval d f env, .argument a env d :: k, σ⟩

def stepRet (s : Discipline) (v : Value) (f : Frame) (k : List Frame) (σ : State) : Next :=
  match f with
  | .unary op => give k σ (op.apply v)
  | .right op r env d => .inr ⟨.eval d r env, .binary op v :: k, σ⟩
  | .binary op left => give k σ (op.apply left v)
  | .branch y n env d =>
    match v.truth? with
    | some b => .inr ⟨.eval d (if b then y else n) env, k, σ⟩
    | none => fail (.typeMismatch "conditional guard" v.typeName) σ
  | .bind x body env d => enter s x v body env d k σ
  | .assign c body env d => .inr ⟨.eval d body env, k, σ.assign c v⟩
  | .argument arg env d =>
    match s.callee? v env with
    | some (g, scope) => .inr ⟨.eval d arg env, .bind g.param g.body scope d :: k, σ⟩
    | none => fail (.notAFunction (v.render σ.names)) σ

def step (s : Discipline) : Config → Next
  | ⟨.eval 0 _ _, _, σ⟩ => .inl (.error .exhausted σ)
  | ⟨.eval (d + 1) e env, k, σ⟩ => stepEval s d e env k σ
  | ⟨.ret v, [], σ⟩ => .inl (.ok v σ)
  | ⟨.ret v, f :: k, σ⟩ => stepRet s v f k σ

def weight : Nat → Nat
  | 0 => 1
  | d + 1 => 3 * weight d + 2

def Control.weight : Control → Nat
  | .eval d _ _ => Machine.weight d
  | .ret _ => 1

def Frame.weight : Frame → Nat
  | .unary _ | .binary .. => 1
  | .right _ _ _ d => Machine.weight d + 1
  | .branch _ _ _ d | .bind _ _ _ d | .assign _ _ _ d => Machine.weight d
  | .argument _ _ d => 2 * Machine.weight d

def stackWeight : List Frame → Nat
  | [] => 0
  | f :: k => f.weight + stackWeight k

def Config.weight (c : Config) : Nat := c.control.weight + stackWeight c.stack

theorem weight_pos (d : Nat) : 0 < weight d := by
  cases d <;> simp [weight]

theorem weight_enter {s : Discipline} {x : Name} {v : Value} {body : Expr} {env : Environment}
    {d : Nat} {k : List Frame} {σ : State} {c : Config} (h : enter s x v body env d k σ = .inr c) :
    c.weight = weight d + stackWeight k := by
  cases s <;> simp only [enter, Sum.inr.injEq] at h <;> subst h <;> rfl

theorem weight_give {k : List Frame} {σ : State} {r : Except EvalError Value} {c : Config}
    (h : give k σ r = .inr c) : c.weight = 1 + stackWeight k := by
  cases r with
  | ok v => simp only [give, Sum.inr.injEq] at h; subst h; rfl
  | error e => simp [give, fail] at h

theorem weight_stepEval {s : Discipline} {d : Nat} {e : Expr} {env : Environment}
    {k : List Frame} {σ : State} {c : Config} (h : stepEval s d e env k σ = .inr c) :
    c.weight < weight (d + 1) + stackWeight k := by
  have hd := weight_pos d
  cases e with
  | var x => rw [weight_give h, weight]; omega
  | letRec x v b =>
    cases s <;> simp only [stepEval, Sum.inr.injEq] at h <;> subst h <;>
      simp only [Config.weight, Control.weight, stackWeight, Frame.weight, weight] <;>
      omega
  | raise | unassigned => simp [stepEval, fail] at h
  | _ =>
    simp only [stepEval, Sum.inr.injEq] at h
    subst h
    simp only [Config.weight, Control.weight, stackWeight, Frame.weight, weight]
    omega

theorem weight_stepRet {s : Discipline} {v : Value} {f : Frame} {k : List Frame} {σ : State}
    {c : Config} (h : stepRet s v f k σ = .inr c) :
    c.weight < 1 + f.weight + stackWeight k := by
  cases f with
  | unary op => rw [weight_give h, Frame.weight]; omega
  | binary op left => rw [weight_give h, Frame.weight]; omega
  | bind x body env d => rw [weight_enter h, Frame.weight]; omega
  | branch y n env d =>
    simp only [stepRet] at h
    split at h
    · simp only [Sum.inr.injEq] at h
      subst h
      simp only [Config.weight, Control.weight, Frame.weight]
      omega
    · simp [fail] at h
  | argument arg env d =>
    simp only [stepRet] at h
    split at h
    · simp only [Sum.inr.injEq] at h
      subst h
      simp only [Config.weight, Control.weight, stackWeight, Frame.weight]
      omega
    · simp [fail] at h
  | _ =>
    simp only [stepRet, Sum.inr.injEq] at h
    subst h
    simp only [Config.weight, Control.weight, stackWeight, Frame.weight]
    omega

theorem weight_step {s : Discipline} {c c' : Config} (h : step s c = .inr c') :
    c'.weight < c.weight := by
  obtain ⟨ctrl, k, σ⟩ := c
  match ctrl, k with
  | .eval 0 e env, k => simp [step] at h
  | .eval (d + 1) e env, k => exact weight_stepEval h
  | .ret v, [] => simp [step] at h
  | .ret v, f :: k =>
    have := weight_stepRet h
    simp only [Config.weight, Control.weight, stackWeight] at this ⊢
    omega

def runFrom (s : Discipline) (c : Config) : Final :=
  match _ : step s c with
  | .inl r => r
  | .inr c' => runFrom s c'
termination_by c.weight
decreasing_by exact weight_step ‹_›

theorem runFrom_eq (s : Discipline) (c : Config) :
    runFrom s c = match step s c with
      | .inl r => r
      | .inr c' => runFrom s c' := by
  rw [runFrom]
  split <;> simp_all

/-- Go on from the end of an evaluation that was done for the sake of a stack. -/
def resume (s : Discipline) (k : List Frame) : Final → Final
  | .ok v σ => runFrom s ⟨.ret v, k, σ⟩
  | .error h σ => .error h σ

theorem runFrom_give (s : Discipline) (k : List Frame) (σ : State) (r : Except EvalError Value) :
    (match give k σ r with
      | .inl r => r
      | .inr c => runFrom s c) = resume s k (EvalM.ofExcept r σ) := by
  cases r <;> rfl

/-- If a stack goes on with a value as `f` does, it goes on with an evaluation as `f` after it. -/
theorem resume_bind {s : Discipline} {k k' : List Frame} {f : Value → EvalM Value}
    (h : ∀ v σ, runFrom s ⟨.ret v, k', σ⟩ = resume s k (f v σ)) (m : EvalM Value) (σ : State) :
    resume s k' (m σ) = resume s k ((m >>= f) σ) := by
  simp only [bind, EStateM.bind]
  cases m σ with
  | ok v σ => exact h v σ
  | error e σ => rfl

theorem runFrom_enter {s : Discipline} {d : Nat}
    (ih : ∀ e env k σ, runFrom s ⟨.eval d e env, k, σ⟩ = resume s k (s.eval d e env σ))
    (x : Name) (v : Value) (body : Expr) (env : Environment) (k : List Frame) (σ : State) :
    runFrom s ⟨.ret v, .bind x body env d :: k, σ⟩ =
      resume s k (s.enter (s.eval d) x v body env σ) := by
  rw [runFrom_eq]
  cases s <;> exact ih _ _ _ _

theorem runFrom_eval (s : Discipline) (d : Nat) (e : Expr) (env : Environment) (k : List Frame)
    (σ : State) : runFrom s ⟨.eval d e env, k, σ⟩ = resume s k (s.eval d e env σ) := by
  induction d generalizing e env k σ with
  | zero => rw [runFrom_eq]; rfl
  | succ d ih =>
    rw [runFrom_eq]
    cases e with
    | var x => exact runFrom_give s k σ _
    | int n => rfl
    | float a => rfl
    | bool b => rfl
    | fn x b => rfl
    | raise => rfl
    | unassigned => rfl
    | unary op e =>
      refine (ih e env _ σ).trans (resume_bind (fun v σ => ?_) _ σ)
      rw [runFrom_eq]
      exact runFrom_give s k σ _
    | binary op l r =>
      refine (ih l env _ σ).trans (resume_bind (fun a σ => ?_) _ σ)
      rw [runFrom_eq]
      refine (ih r env _ σ).trans (resume_bind (fun b σ => ?_) _ σ)
      rw [runFrom_eq]
      exact runFrom_give s k σ _
    | cond c y n =>
      refine (ih c env _ σ).trans (resume_bind (fun v σ => ?_) _ σ)
      rw [runFrom_eq]
      simp only [step, stepRet]
      cases v.truth? with
      | none => rfl
      | some b => exact ih _ env k σ
    | letIn x v b =>
      exact (ih v env _ σ).trans (resume_bind (runFrom_enter ih x · b env k) _ σ)
    | letRec x v b =>
      cases s with
      | substitution => exact (ih _ env _ _).trans (resume_bind (runFrom_enter ih x · b env k) _ _)
      | dynamic | lexical =>
        refine (ih v _ _ _).trans (resume_bind (fun a σ => ?_) _ _)
        rw [runFrom_eq]
        exact ih b _ k _
    | app f a =>
      refine (ih f env _ σ).trans (resume_bind (fun v σ => ?_) _ σ)
      rw [runFrom_eq]
      simp only [step, stepRet]
      cases s.callee? v env with
      | none => rfl
      | some g => exact (ih a env _ σ).trans (resume_bind (runFrom_enter ih _ · _ _ k) _ σ)

def run (s : Discipline) (d : Nat) (e : Expr) (env : Environment) : EvalM Value :=
  fun σ => runFrom s ⟨.eval d e env, [], σ⟩

/-- The machine computes what evaluation by recursion on the depth computes. -/
theorem run_eq_eval (s : Discipline) (d : Nat) (e : Expr) (env : Environment) :
    run s d e env = s.eval d e env := by
  funext σ
  rw [run, runFrom_eval]
  cases s.eval d e env σ with
  | ok v σ => rw [resume, runFrom_eq]; rfl
  | error h σ => rfl

end LetCalculus.Machine
