import LetCalculus.Value.Render
import LetCalculus.Expr.Subst
import LetCalculus.Heap.Grows
import LetCalculus.Value.Apply
import LetCalculus.Strategy

/-!
# The state of an evaluation

An evaluation may intern names and allocate cells, and what it did stays done when it fails. The
operations here are the ones by which evaluation reads and changes this state. Computations over it
are one kind of several in which evaluation can take place (`Evaluation`): others count levels or
find the name table full.
-/

namespace LetCalculus

structure State where
  names : NameTable
  heap : Heap
  deriving Inhabited

namespace State

def initial : State := ⟨.initial, .empty⟩

def fetch (σ : State) (env : Environment) (x : Name) : Except EvalError Value :=
  match σ.heap.lookup? env x with
  | none => .error (.unboundVariable (σ.names.text x))
  | some v => if v.isUnassigned then .error .unassigned else .ok v

def substitute (σ : State) (x : Name) (r e : Expr) : Expr × State :=
  let (e, names) := Expr.substitute x r e σ.names
  (e, { σ with names })

def define (σ : State) (env : Environment) (x : Name) (v : Value) : Environment × State :=
  let (env, heap) := σ.heap.define env x v
  (env, { σ with heap })

def assign (σ : State) (c : Cell) (v : Value) : State := { σ with heap := σ.heap.write c v }

/-- A new environment in which a name has a cell whose value is not known yet. -/
def declare (σ : State) (env : Environment) (x : Name) : (Cell × Environment) × State :=
  let (c, heap) := σ.heap.alloc .unassigned
  let (env, heap) := heap.extend env x c
  ((c, env), { σ with heap })

theorem fetch_of_read {σ : State} {env : Environment} {x : Name} {c : Cell} {v : Value}
    (hc : env.cell? x = some c) (hr : σ.heap.read c = v) (hv : v.isUnassigned = false) :
    σ.fetch env x = .ok v := by
  simp [fetch, Heap.lookup?, hc, hr, hv]

theorem define_spec (σ : State) (env : Environment) (x : Name) (v : Value) :
    ∃ c, (σ.define env x v).1.Binds env x c ∧ (σ.define env x v).2.names = σ.names ∧
      (σ.define env x v).2.heap.read c = v ∧ σ.heap.Grows (σ.define env x v).2.heap :=
  ⟨_, env.binds_bind x _ _, rfl, σ.heap.read_alloc_self v, σ.heap.grows_alloc v⟩

theorem assign_declare_spec (σ : State) (env : Environment) (x : Name) (v : Value) :
    let p := σ.declare env x
    p.1.2.Binds env x p.1.1 ∧ (p.2.assign p.1.1 v).names = σ.names ∧
      (p.2.assign p.1.1 v).heap.read p.1.1 = v ∧ σ.heap.Grows (p.2.assign p.1.1 v).heap := by
  intro p
  have hold : p.2.heap.Holds p.1.1 := (Heap.holds_alloc_iff (v := .unassigned)).2 (.inr rfl)
  have hu : p.2.heap.read p.1.1 = .unassigned := σ.heap.read_alloc_self .unassigned
  refine ⟨env.binds_bind x _ _, rfl, Heap.read_write_self hold v, ?_⟩
  exact (σ.heap.grows_alloc .unassigned).trans (Heap.grows_write hu v)

/-- A definition is a declaration and an assignment, if nothing happens in between. -/
theorem define_eq (σ : State) (env : Environment) (x : Name) (v : Value) :
    σ.define env x v =
      ((σ.declare env x).1.2, (σ.declare env x).2.assign (σ.declare env x).1.1 v) := by
  have hw := σ.heap.write_alloc .unassigned v
  simp only [Heap.alloc, Heap.write, Heap.mk.injEq, and_true] at hw
  simp [define, declare, assign, Heap.define, Heap.extend, Heap.enclose, Heap.alloc, Heap.write, hw]

end State

inductive Halt where
  | failed (e : EvalError)
  /-- The evaluation went deeper than it was allowed to. -/
  | exhausted
  deriving DecidableEq, Repr

/-- Computations over the state that may halt; the state survives. -/
abbrev EvalM := EStateM Halt State

namespace EvalM

def fail {α : Type} (e : EvalError) : EvalM α := throw (.failed e)

def ofExcept {α : Type} : Except EvalError α → EvalM α
  | .ok a => pure a
  | .error e => fail e

end EvalM

/-- Computations in which evaluation can take place. Only a substitution enters names. -/
class Evaluation (m : Type → Type) extends Monad m where
  lift : {α : Type} → EvalM α → m α
  substitute : Name → Expr → Expr → m Expr

instance : Evaluation EvalM where
  lift p := p
  substitute x r e := modifyGet fun σ => σ.substitute x r e

end LetCalculus
