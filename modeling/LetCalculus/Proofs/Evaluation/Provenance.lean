import LetCalculus.Expr.Parts
import LetCalculus.Proofs.Evaluation.Finished
import LetCalculus.Proofs.Evaluation.Frame

/-!
# Where code comes from

Without substitution no expression is ever made. What a run evaluates, and what its functions
consist of, are parts of the expression that it started with or of the values that could be seen
from its environment, word for word (`Interpreter.invents_no_code`).

Bodies are taken out of cells, and cells are written late, by recursive definitions whose closures
may have been captured in the meantime. So the invariant speaks of all cells that may come in sight:
those that could be seen at the start, and those that are new.
-/

namespace LetCalculus

/-- What a run is given to evaluate: parts of its expression and of the values in sight. -/
inductive Supplied (h : Heap) (env : Environment) (e : Expr) : Expr → Prop
  | program {a : Expr} : e.Part a → Supplied h env e a
  | held {c : Cell} {a : Expr} : h.Reaches env c → (h.read c).toExpr.Part a → Supplied h env e a

/-- The cells that can be seen from an environment, and those that are yet to come. -/
def Heap.InSight (h : Heap) (env : Environment) (c : Cell) : Prop := h.Reaches env c ∨ ¬h.Holds c

def Value.Supplied (h : Heap) (env : Environment) (e : Expr) (v : Value) : Prop :=
  (∃ l : Expr, l.isLiteral = true ∧ v = .plain l) ∨ LetCalculus.Supplied h env e v.toExpr

structure SuppliedIn (h : Heap) (env₀ : Environment) (e₀ : Expr) (e : Expr) (env : Environment) :
    Prop where
  code : Supplied h env₀ e₀ e
  within : env.Within (h.InSight env₀)

variable {s : Discipline} {h : Heap} {env env₀ : Environment} {e e₀ a b : Expr} {σ : State}
  {d : Nat} {x : Name} {v : Value} {p : Cell}

theorem Supplied.child (ha : Supplied h env e a) (hb : b ∈ a.children) : Supplied h env e b := by
  cases ha with
  | program ha => exact .program (ha.child hb)
  | held hc ha => exact .held hc (ha.child hb)

theorem Discipline.toExpr_of_callee? {g : Lambda} {scope : Environment}
    (hg : s.callee? v env = some (g, scope)) : v.toExpr = g.toExpr := by
  unfold callee? at hg
  split at hg
  · cases hg
    rfl
  · cases hg
    rfl
  · cases hg
    rfl
  · cases hg

theorem Value.Supplied.callee {g : Lambda} {scope : Environment} (hv : v.Supplied h env₀ e₀)
    (hg : s.callee? v env = some (g, scope)) : LetCalculus.Supplied h env₀ e₀ g.toExpr := by
  rw [← Discipline.toExpr_of_callee? hg]
  rcases hv with ⟨l, hl, rfl⟩ | hv
  · rw [Discipline.callee?_of_isLiteral (.inl hl)] at hg
    cases hg
  · exact hv

namespace SuppliedIn

theorem part (ha : SuppliedIn h env₀ e₀ a env) (hb : b ∈ a.children) :
    SuppliedIn h env₀ e₀ b env := ⟨ha.code.child hb, ha.within⟩

theorem bind (ha : SuppliedIn h env₀ e₀ a env) (hb : b ∈ a.children) (hp : h.InSight env₀ p)
    (x : Name) (stamp : Nat) :
    SuppliedIn h env₀ e₀ b ⟨stamp, Environment.bind x p env.bindings⟩ :=
  ⟨ha.code.child hb, ha.within.bind hp stamp x⟩

theorem opens (ha : SuppliedIn h env₀ e₀ a env) (hb : b ∈ a.children) (hs : s ≠ .substitution)
    (value : Value → Prop) (x : Name) :
    Machine.Opens s (SuppliedIn h env₀ e₀) value (h.InSight env₀) x b env := by
  cases s with
  | substitution => exact absurd rfl hs
  | dynamic | lexical => exact fun _ stamp hp => ha.bind hb hp x stamp

end SuppliedIn

namespace Machine

def Invariant.supplied (hs : s ≠ .substitution) (h : Heap) (env₀ : Environment) (e₀ : Expr) :
    Invariant s where
  code := SuppliedIn h env₀ e₀
  value v := v.Supplied h env₀ e₀ ∧ ∀ f scope, v = .closure f scope → scope.Within (h.InSight env₀)
  cell := h.InSight env₀
  literal l hl := ⟨.inl ⟨l, hl, rfl⟩, nofun⟩
  var ha hx := ha.within _ (Environment.mem_of_cell? hx)
  unary ha := ha.part (by simp)
  binary ha := ⟨ha.part (by simp), ha.part (by simp)⟩
  cond ha := ⟨ha.part (by simp), ha.part (by simp), ha.part (by simp)⟩
  fn ha := by
    cases s with
    | substitution => exact absurd rfl hs
    | dynamic => exact ⟨.inr ha.code, nofun⟩
    | lexical =>
      refine ⟨.inr ha.code, ?_⟩
      rintro f scope ⟨⟩
      exact ha.within
  letIn ha := ⟨ha.part (by simp), ha.opens (by simp) hs _ _⟩
  unroll hu := absurd hu hs
  letRec _ ha hp := ⟨ha.bind (by simp) hp _ _, ha.bind (by simp) hp _ _⟩
  app ha := by
    refine ⟨ha.part (by simp), ha.part (by simp), ?_⟩
    rintro v g scope ⟨hv, hscope⟩ hg
    have hf : SuppliedIn h env₀ e₀ g.toExpr scope := ⟨hv.callee hg, ha.within.callee hscope hg⟩
    exact hf.opens (by simp [Lambda.toExpr]) hs _ _

/-- At the start every cell that can be seen holds what it supplies itself. -/
theorem Invariant.onHeap_supplied (hs : s ≠ .substitution) (h : Heap) (env₀ : Environment)
    (e₀ : Expr) : (Invariant.supplied hs h env₀ e₀).OnHeap h where
  read c hc := by
    rcases hc with hc | hc
    · refine .inr ⟨.inr (.held hc .self), ?_⟩
      intro f scope hr b hb
      exact .inl (hc.captured hr hb)
    · exact .inl (Heap.read_of_not_holds hc)
  fresh _ := .inr

/-- Whether all code at a point of a run, and all that can be seen there, was given to the run. -/
structure AllSupplied (h : Heap) (env₀ : Environment) (e₀ : Expr) (c : Config) : Prop where
  evaluated : ∀ d e env, c.control = .eval d e env → Supplied h env₀ e₀ e ∧
    ∀ p, c.state.heap.Reaches env p → h.InSight env₀ p
  returned : ∀ v, c.control = .ret v → v.Supplied h env₀ e₀ ∧
    ∀ f scope, v = .closure f scope → ∀ p, c.state.heap.Reaches scope p → h.InSight env₀ p
  held : ∀ p, h.InSight env₀ p → c.state.heap.read p = .unassigned ∨
    (c.state.heap.read p).Supplied h env₀ e₀

theorem Invariant.OnConfig.allSupplied {c : Config} {hs : s ≠ .substitution}
    (hc : (Invariant.supplied hs h env₀ e₀).OnConfig c) : AllSupplied h env₀ e₀ c := by
  have seen : ∀ env, env.Within (h.InSight env₀) → ∀ p, c.state.heap.Reaches env p →
      h.InSight env₀ p := by
    intro env he p hp
    exact hc.heap.cell_of_reaches (fun f scope hv => hv.2 f scope rfl) he hp
  refine ⟨?_, ?_, ?_⟩
  · intro d e env hctrl
    have he := hc.control
    rw [hctrl] at he
    exact ⟨he.code, seen env he.within⟩
  · intro v hctrl
    have hv := hc.control
    rw [hctrl] at hv
    exact ⟨hv.1, fun f scope hf => seen scope (hv.2 f scope hf)⟩
  · intro p hp
    exact (hc.heap.read p hp).imp_right And.left

theorem allSupplied_of_leads (hs : s ≠ .substitution) {c : Config}
    (hl : Leads s ⟨.eval d e env, [], σ⟩ c) :
    AllSupplied σ.heap env e c := by
  have start : (Invariant.supplied hs σ.heap env e).OnConfig ⟨.eval d e env, [], σ⟩ :=
    Invariant.config_start ⟨.program .self, fun b hb => .inl (.bound hb)⟩
      (Invariant.onHeap_supplied hs σ.heap env e)
  exact (start.leads hl).allSupplied

end Machine

namespace Interpreter

/--
Under dynamic and under lexical scoping, whatever a run evaluates or returns at any point is part of
the expression that it started with or of a value that could be seen from its environment, numbers
and truth values apart. So is what its cells hold, at every point and at the end, however it ends,
and what comes in sight through closures are cells that were in sight before or are new.
-/
theorem invents_no_code (hs : s ≠ .substitution) (e : Expr) (env : Environment) (σ : State) :
    (∀ d c, Machine.Leads s ⟨.eval d e env, [], σ⟩ c → Machine.AllSupplied σ.heap env e c) ∧
    ∀ limit a, let r := eval ⟨.reducing s, limit⟩ a e env σ
      (∀ v, r.1 = .value v → v.Supplied σ.heap env e) ∧
      ∀ p, ¬σ.heap.Holds p → r.2.heap.read p = .unassigned ∨
        (r.2.heap.read p).Supplied σ.heap env e := by
  refine ⟨fun d c => Machine.allSupplied_of_leads hs, ?_⟩
  intro limit a r
  constructor
  · intro v hv
    have h : s.eval (limit.getD a) e env σ = .ok v r.2 :=
      eval_eq_value_iff.1 (Prod.ext hv rfl : r = (.value v, r.2))
    exact ((Machine.allSupplied_of_leads hs (Machine.leads_of_eval_ok h)).returned v rfl).1
  · intro p hp
    obtain ⟨c, hl, hc⟩ := Machine.exists_leads_endState s (limit.getD a) e env σ
    have hr : r.2 = c.state := (state_eval s limit a e env σ).trans hc
    rw [hr]
    exact (Machine.allSupplied_of_leads hs hl).held p (.inr hp)

/-- A function from the environment makes another one, of which its own text has the code. -/
theorem invents_no_code_closure :
    let f : Name := ⟨13⟩
    let x : Name := ⟨14⟩
    let y : Name := ⟨15⟩
    let e : Expr := .letRec y (.fn x (.app (.var y) (.var x))) (.app (.var f) (.var y))
    let env : Environment := ⟨1, [(f, ⟨0⟩)]⟩
    let heap : Heap := ⟨#[.closure ⟨x, .fn y (.var x)⟩ ⟨0, []⟩], 2⟩
    ∃ scope σ', eval ⟨.reducing .lexical, some 3⟩ 0 e env ⟨.initial, heap⟩ =
        (.value (.closure ⟨y, .var x⟩ scope), σ') ∧
      (Value.closure ⟨y, .var x⟩ scope).Supplied heap env e ∧
      (σ'.heap.read ⟨1⟩ = .unassigned ∨ (σ'.heap.read ⟨1⟩).Supplied heap env e) := by
  intro f x y e env heap
  obtain ⟨scope, σ', h⟩ : ∃ scope σ', Discipline.eval .lexical 3 e env ⟨.initial, heap⟩ =
      .ok (.closure ⟨y, .var x⟩ scope) σ' := ⟨_, _, rfl⟩
  have h : eval ⟨.reducing .lexical, some 3⟩ 0 e env ⟨.initial, heap⟩ =
      (.value (.closure ⟨y, .var x⟩ scope), σ') := eval_eq_value_iff.2 h
  obtain ⟨hv, hp⟩ :=
    (invents_no_code (s := .lexical) (by simp) e env ⟨.initial, heap⟩).2 (some 3) 0
  rw [h] at hv hp
  exact ⟨scope, σ', h, hv _ rfl, hp ⟨1⟩ (Nat.lt_irrefl 1)⟩

end Interpreter

end LetCalculus
