import LetCalculus.Eval.Trace
import LetCalculus.Proofs.Evaluation.Operators

/-!
# Invariants of evaluation

An invariant of evaluation says what may be evaluated in which environment, what may come of it
as a value, and which cells may be seen. `Invariant` lists what these have to satisfy, one
condition for each construct. They say nothing of frames and depths: the frames on the stack hold
parts of what is being evaluated, so what is asked of them follows.

Every step of the machine keeps an invariant (`Invariant.OnConfig.step`), so it holds all along a
run and of the value at its end (`Invariant.value_of_eval`). A cell that may be seen holds a value
that may come, or nothing yet. Cells that are not allocated yet may be seen in any case, and so
the conditions need not mention the heap.
-/

namespace LetCalculus.Machine

/--
Whether a body may be evaluated once its name has a value: under substitution with the value in
the place of the name, under the other disciplines with a cell for the name.
-/
def Opens (s : Discipline) (code : Expr → Environment → Prop) (value : Value → Prop)
    (cell : Cell → Prop) (x : Name) (body : Expr) (env : Environment) : Prop :=
  match s with
  | .substitution => ∀ v t, value v → code (Expr.substitute x v.toExpr body t).1 env
  | .dynamic | .lexical => ∀ c stamp, cell c → code body ⟨stamp, Environment.bind x c env.bindings⟩

/-- What may be evaluated, what may come of it and which cells may be seen. -/
structure Invariant (s : Discipline) where
  code : Expr → Environment → Prop
  value : Value → Prop
  cell : Cell → Prop
  literal : ∀ l : Expr, l.isLiteral = true → value (.plain l)
  var : ∀ {x env c}, code (.var x) env → env.cell? x = some c → cell c
  unary : ∀ {op e env}, code (.unary op e) env → code e env
  binary : ∀ {op l r env}, code (.binary op l r) env → code l env ∧ code r env
  cond : ∀ {e y n env}, code (.cond e y n) env → code e env ∧ code y env ∧ code n env
  fn : ∀ {x b env}, code (.fn x b) env → value (s.closeOver ⟨x, b⟩ env)
  letIn : ∀ {x v b env}, code (.letIn x v b) env → code v env ∧ Opens s code value cell x b env
  unroll : ∀ {x v b env}, s = .substitution → code (.letRec x v b) env →
    (∀ t, code (Expr.substitute x (.letRec x v (.var x)) v t).1 env) ∧
      Opens s code value cell x b env
  letRec : ∀ {x v b env c stamp}, s ≠ .substitution → code (.letRec x v b) env → cell c →
    code v ⟨stamp, Environment.bind x c env.bindings⟩ ∧
      code b ⟨stamp, Environment.bind x c env.bindings⟩
  app : ∀ {f a env}, code (.app f a) env → code f env ∧ code a env ∧
    ∀ v g scope, value v → s.callee? v env = some (g, scope) →
      Opens s code value cell g.param g.body scope

namespace Invariant

variable {s : Discipline} (I : Invariant s)

def Opens (x : Name) (body : Expr) (env : Environment) : Prop :=
  Machine.Opens s I.code I.value I.cell x body env

def OnControl : Control → Prop
  | .eval _ e env => I.code e env
  | .ret v => I.value v

def OnFrame : Frame → Prop
  | .unary _ | .binary .. => True
  | .right _ r env _ => I.code r env
  | .branch yes no env _ => I.code yes env ∧ I.code no env
  | .bind x body env _ => I.Opens x body env
  | .assign c body env _ => I.cell c ∧ I.code body env
  | .argument arg env _ => I.code arg env ∧ ∀ v g scope, I.value v →
    s.callee? v env = some (g, scope) → I.Opens g.param g.body scope

structure OnHeap (h : Heap) : Prop where
  read : ∀ c, I.cell c → h.read c = .unassigned ∨ I.value (h.read c)
  fresh : ∀ c, ¬h.Holds c → I.cell c

structure OnConfig (c : Config) : Prop where
  control : I.OnControl c.control
  stack : ∀ f ∈ c.stack, I.OnFrame f
  heap : I.OnHeap c.state.heap

variable {I} {h : Heap} {σ : State} {k : List Frame} {c c' : Config}

theorem OnHeap.cell_alloc (hh : I.OnHeap h) (v : Value) : I.cell (h.alloc v).1 :=
  hh.fresh _ (Nat.lt_irrefl _)

theorem OnHeap.alloc (hh : I.OnHeap h) {v : Value} (hv : v = .unassigned ∨ I.value v) :
    I.OnHeap (h.alloc v).2 where
  read c hc := by
    by_cases hnew : c = (h.alloc v).1
    · rw [hnew, Heap.read_alloc_self]
      exact hv
    · rw [Heap.read_alloc_of_ne hnew]
      exact hh.read c hc
  fresh c hc := hh.fresh c fun hold => hc (Heap.holds_alloc hold v)

theorem OnHeap.write (hh : I.OnHeap h) (c : Cell) {v : Value} (hv : I.value v) :
    I.OnHeap (h.write c v) where
  read d hd := by
    rcases h.read_write c d v with ⟨hr, -⟩ | hr
    · rw [hr]
      exact .inr hv
    · rw [hr]
      exact hh.read d hd
  fresh d hd := hh.fresh d fun hold => hd ((Heap.holds_write v).2 hold)

theorem OnHeap.stamp (hh : I.OnHeap h) (n : Nat) : I.OnHeap ⟨h.cells, n⟩ := ⟨hh.read, hh.fresh⟩

theorem value_of_fetch {x : Name} {env : Environment} {v : Value} (hh : I.OnHeap σ.heap)
    (hc : I.code (.var x) env) (hf : σ.fetch env x = .ok v) : I.value v := by
  unfold State.fetch Heap.lookup? at hf
  cases hx : env.cell? x with
  | none => simp [hx] at hf
  | some c =>
    simp only [hx, Option.map_some] at hf
    split at hf
    · simp at hf
    · next hu =>
      cases hf
      rcases hh.read c (I.var hc hx) with hr | hr
      · rw [hr] at hu
        exact absurd rfl hu
      · exact hr

theorem value_of_operator {r : Except EvalError Value} {v : Value} (h : OperatorResult r)
    (hr : r = .ok v) : I.value v := by
  subst hr
  obtain ⟨l, hl, rfl⟩ := h
  exact I.literal l hl

theorem config_give {r : Except EvalError Value} (hr : ∀ v, r = .ok v → I.value v)
    (hk : ∀ f ∈ k, I.OnFrame f) (hh : I.OnHeap σ.heap) (h : give k σ r = .inr c') :
    I.OnConfig c' := by
  cases r with
  | ok v =>
    cases h
    exact ⟨hr v rfl, hk, hh⟩
  | error e => cases h

theorem config_enter {x : Name} {v : Value} {body : Expr} {env : Environment} {d : Nat}
    (ho : I.Opens x body env) (hv : I.value v) (hk : ∀ f ∈ k, I.OnFrame f) (hh : I.OnHeap σ.heap)
    (h : enter s x v body env d k σ = .inr c') : I.OnConfig c' := by
  cases s with
  | substitution =>
    cases h
    exact ⟨ho v σ.names hv, hk, hh⟩
  | dynamic | lexical =>
    cases h
    exact ⟨ho _ _ (hh.cell_alloc v), hk, (hh.alloc (.inr hv)).stamp _⟩

theorem config_stepEval {d : Nat} {e : Expr} {env : Environment} (he : I.code e env)
    (hk : ∀ f ∈ k, I.OnFrame f) (hh : I.OnHeap σ.heap) (h : stepEval s d e env k σ = .inr c') :
    I.OnConfig c' := by
  have push : ∀ {f : Frame}, I.OnFrame f → ∀ g ∈ f :: k, I.OnFrame g := by
    intro f hf
    exact List.forall_mem_cons.2 ⟨hf, hk⟩
  cases e with
  | var x => exact config_give (fun _ => value_of_fetch hh he) hk hh h
  | int n | float a | bool b => cases h; exact ⟨I.literal _ rfl, hk, hh⟩
  | fn x b => cases h; exact ⟨I.fn he, hk, hh⟩
  | raise | unassigned => cases h
  | unary op e => cases h; exact ⟨I.unary he, push trivial, hh⟩
  | binary op l r => cases h; exact ⟨(I.binary he).1, push (I.binary he).2, hh⟩
  | cond e y n => cases h; exact ⟨(I.cond he).1, push (I.cond he).2, hh⟩
  | letIn x v b => cases h; exact ⟨(I.letIn he).1, push (I.letIn he).2, hh⟩
  | app f a => cases h; exact ⟨(I.app he).1, push (I.app he).2, hh⟩
  | letRec x v b =>
    cases s with
    | substitution =>
      cases h
      obtain ⟨hv, hb⟩ := I.unroll rfl he
      exact ⟨hv _, push hb, hh⟩
    | dynamic | lexical =>
      cases h
      have hc := hh.cell_alloc .unassigned
      obtain ⟨hv, hb⟩ := I.letRec (by simp) he hc
      exact ⟨hv, push ⟨hc, hb⟩, (hh.alloc (.inl rfl)).stamp _⟩

theorem config_stepRet {v : Value} {f : Frame} (hv : I.value v) (hf : I.OnFrame f)
    (hk : ∀ f ∈ k, I.OnFrame f) (hh : I.OnHeap σ.heap) (h : stepRet s v f k σ = .inr c') :
    I.OnConfig c' := by
  have push : ∀ {f : Frame}, I.OnFrame f → ∀ g ∈ f :: k, I.OnFrame g := by
    intro f hf
    exact List.forall_mem_cons.2 ⟨hf, hk⟩
  cases f with
  | unary op => exact config_give (fun _ => value_of_operator (op.operatorResult_apply v)) hk hh h
  | binary op l =>
    exact config_give (fun _ => value_of_operator (op.operatorResult_apply l v)) hk hh h
  | right op r env d => cases h; exact ⟨hf, push trivial, hh⟩
  | branch y n env d =>
    simp only [stepRet] at h
    split at h
    · next b _ =>
      cases h
      cases b
      · exact ⟨hf.2, hk, hh⟩
      · exact ⟨hf.1, hk, hh⟩
    · cases h
  | bind x body env d => exact config_enter hf hv hk hh h
  | assign c body env d => cases h; exact ⟨hf.2, hk, hh.write c hv⟩
  | argument arg env d =>
    simp only [stepRet] at h
    split at h
    · next g scope hg =>
      cases h
      exact ⟨hf.1, push (hf.2 v g scope hv hg), hh⟩
    · cases h

theorem OnConfig.step (hc : I.OnConfig c) (h : Machine.step s c = .inr c') : I.OnConfig c' := by
  obtain ⟨ctrl, k, σ⟩ := c
  obtain ⟨hctrl, hk, hh⟩ := hc
  match ctrl, k with
  | .eval 0 e env, k => cases h
  | .eval (d + 1) e env, k => exact config_stepEval hctrl hk hh h
  | .ret v, [] => cases h
  | .ret v, f :: k =>
    obtain ⟨hf, hk⟩ := List.forall_mem_cons.1 hk
    exact config_stepRet hctrl hf hk hh h

theorem OnConfig.leads (hc : I.OnConfig c) (h : Leads s c c') : I.OnConfig c' :=
  h.induction_on (fun _ _ => OnConfig.step) hc

theorem config_start {d : Nat} {e : Expr} {env : Environment} (he : I.code e env)
    (hh : I.OnHeap σ.heap) : I.OnConfig ⟨.eval d e env, [], σ⟩ :=
  ⟨he, fun _ hf => absurd hf List.not_mem_nil, hh⟩

/-- An evaluation that has a value has one that may come, and leaves a heap that is as good. -/
theorem value_of_eval {d : Nat} {e : Expr} {env : Environment} {v : Value} {σ' : State}
    (he : I.code e env) (hh : I.OnHeap σ.heap) (h : s.eval d e env σ = .ok v σ') :
    I.value v ∧ I.OnHeap σ'.heap := by
  have hc := (config_start he hh).leads (leads_of_eval_ok h)
  exact ⟨hc.control, hc.heap⟩

end Invariant

end LetCalculus.Machine
