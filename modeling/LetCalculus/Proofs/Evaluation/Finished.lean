import LetCalculus.Heap.Reach
import LetCalculus.Interpreter
import LetCalculus.Proofs.Evaluation.HeapSteps
import LetCalculus.Proofs.Evaluation.Invariant

/-!
# Evaluation returns finished values

A finished value is a literal or a function in the form of the discipline: a closure under lexical
scoping, and a plain function under the others. An environment is proper if every cell that can be
seen from it holds a finished value or no value yet (`ProperEnv`). Recursive functions make the
environments of closures cyclic, and a proper environment is one from which no step leads to
anything else (`properEnv_iff`).

What is evaluated in a proper environment has a finished value, and the environment of a closure
is proper again. The placeholders of the recursive definitions on the way have all been replaced
at the end (`Interpreter.finished_of_value`), although any part of the program may have seen them.
-/

namespace LetCalculus

/-- Whether a value is a literal or a function in the form of the discipline. -/
def Value.Finished (s : Discipline) : Value → Prop
  | .plain (.fn ..) => s ≠ .lexical
  | .plain e => e.isLiteral = true
  | .closure .. => s = .lexical

/-- Whether all that can be seen from an environment is finished or has no value yet. -/
def ProperEnv (s : Discipline) (h : Heap) (env : Environment) : Prop :=
  ∀ c, h.Reaches env c → h.read c = .unassigned ∨ (h.read c).Finished s

/-- Whether a value is finished and, being a closure, has a proper environment. -/
def Value.Proper (s : Discipline) (h : Heap) (v : Value) : Prop :=
  v.Finished s ∧ ∀ f scope, v = .closure f scope → ProperEnv s h scope

variable {s : Discipline} {h : Heap} {env scope : Environment} {c : Cell} {v : Value}

theorem Value.finished_plain_iff {e : Expr} : (Value.plain e).Finished s ↔
    e.isLiteral = true ∨ s ≠ .lexical ∧ ∃ x b, e = .fn x b := by
  cases e <;> simp [Finished, Expr.isLiteral]

theorem Value.Finished.ne_unassigned (hv : v.Finished s) : v ≠ .unassigned := by
  rintro rfl
  simp [Value.unassigned, finished_plain_iff, Expr.isLiteral] at hv

theorem ProperEnv.read (he : ProperEnv s h env) (hc : h.Reaches env c) :
    h.read c = .unassigned ∨ (h.read c).Proper s h :=
  (he c hc).imp_right fun hf => ⟨hf, fun _ _ hr d hd => he d (hc.trans hr hd)⟩

theorem properEnv_iff : ProperEnv s h env ↔
    ∀ b ∈ env.bindings, h.read b.2 = .unassigned ∨ (h.read b.2).Proper s h := by
  constructor
  · intro he b hb
    exact he.read (.bound hb)
  · intro hb c hc
    have step : h.read c = .unassigned ∨ (h.read c).Proper s h := by
      induction hc with
      | bound hx => exact hb _ hx
      | captured _ hr hx ih =>
        rw [hr] at ih
        obtain ⟨-, hp⟩ := ih.resolve_left (by simp [Value.unassigned])
        exact (hp _ _ rfl).read (.bound hx)
    exact step.imp_right And.left

theorem LiteralEnv.properEnv (he : LiteralEnv h env) : ProperEnv s h env := by
  refine properEnv_iff.2 ?_
  intro b hb
  obtain ⟨l, hl, hr⟩ := he b hb
  rw [hr]
  exact .inr ⟨Value.finished_plain_iff.2 (.inl hl), nofun⟩

/-- Whether all cells that an environment binds are of a certain kind. -/
def Environment.Within (cell : Cell → Prop) (env : Environment) : Prop :=
  ∀ b ∈ env.bindings, cell b.2

variable {cell : Cell → Prop}

theorem Environment.Within.bind (he : env.Within cell) (hc : cell c) (stamp : Nat) (x : Name) :
    Environment.Within cell ⟨stamp, Environment.bind x c env.bindings⟩ := by
  intro b hb
  rcases mem_bind hb with rfl | hb
  · exact hc
  · exact he b hb

theorem Environment.Within.mono {cell' : Cell → Prop} (he : env.Within cell)
    (hc : ∀ c, cell c → cell' c) : env.Within cell' := fun b hb => hc _ (he b hb)

theorem Environment.Within.callee {v : Value} {g : Lambda} (he : env.Within cell)
    (hv : ∀ f scope, v = .closure f scope → scope.Within cell)
    (hg : s.callee? v env = some (g, scope)) : scope.Within cell :=
  Discipline.holds_of_callee? he hv hg

namespace Machine

theorem opens_of_within (value : Value → Prop) (x : Name) (body : Expr) (he : env.Within cell) :
    Opens s (fun _ env => env.Within cell) value cell x body env := by
  cases s with
  | substitution => exact fun _ _ _ => he
  | dynamic | lexical => exact fun _ _ hc => he.bind hc _ x

/--
The invariant that values are finished and that no cells come in sight but those of a certain
kind, whatever the kind is.
-/
def Invariant.within (s : Discipline) (cell : Cell → Prop) : Invariant s where
  code _ env := env.Within cell
  value v := v.Finished s ∧ ∀ f scope, v = .closure f scope → scope.Within cell
  cell := cell
  literal l hl := ⟨Value.finished_plain_iff.2 (.inl hl), nofun⟩
  var he hx := he _ (Environment.mem_of_cell? hx)
  unary he := he
  binary he := ⟨he, he⟩
  cond he := ⟨he, he, he⟩
  fn he := by
    cases s with
    | lexical =>
      refine ⟨rfl, ?_⟩
      rintro f scope ⟨⟩
      exact he
    | substitution | dynamic => exact ⟨nofun, nofun⟩
  letIn he := ⟨he, opens_of_within _ _ _ he⟩
  unroll _ he := ⟨fun _ => he, opens_of_within _ _ _ he⟩
  letRec _ he hc := ⟨he.bind hc _ _, he.bind hc _ _⟩
  app he := ⟨he, he, fun _ _ _ hv hg => opens_of_within _ _ _ (he.callee hv.2 hg)⟩

/-- What can be seen through closures is in sight if the environments of closures bind no more. -/
theorem Invariant.OnHeap.cell_of_reaches {I : Invariant s} (hh : I.OnHeap h)
    (hv : ∀ f scope, I.value (.closure f scope) → scope.Within I.cell) (he : env.Within I.cell)
    (hc : h.Reaches env c) : I.cell c := by
  induction hc with
  | bound hx => exact he _ hx
  | @captured f scope _ _ _ _ hr hx ih =>
    rcases hh.read _ ih with hu | hf
    · rw [hr] at hu
      cases hu
    · rw [hr] at hf
      exact hv f scope hf _ hx

theorem Invariant.properEnv_of_within (hh : (Invariant.within s cell).OnHeap h)
    (he : env.Within cell) : ProperEnv s h env := by
  intro c hc
  have hcell := hh.cell_of_reaches (fun f scope hv => hv.2 f scope rfl) he hc
  exact (hh.read c hcell).imp_right And.left

/-- At the start the cells in sight are those that are seen, and those that are yet to come. -/
theorem Invariant.onHeap_of_properEnv (he : ProperEnv s h env) :
    (Invariant.within s fun c => h.Reaches env c ∨ ¬h.Holds c).OnHeap h where
  read c hc := by
    rcases hc with hc | hc
    · refine (he c hc).imp_right fun hf => ⟨hf, fun f scope hr b hb => .inl (hc.captured hr hb)⟩
    · exact .inl (Heap.read_of_not_holds hc)
  fresh _ := .inr

/-- Along a run on which no placeholder is returned, every new cell waits until it is assigned. -/
theorem Invariant.OnConfig.awaited {I : Invariant s} {k k' : Config} {h₀ : Heap}
    (hk : I.OnConfig k) (hv : ∀ v, I.value v → v ≠ .unassigned) (hl : Leads s k k')
    (ha : Awaited h₀ k) : Awaited h₀ k' := by
  induction hl with
  | refl => exact ha
  | head hs _ ih =>
    refine ih (hk.step hs) (ha.touches (touches_of_step hs) fun v hr => hv v ?_)
    have hc := hk.control
    rwa [hr] at hc

end Machine

namespace Discipline

open Machine

variable {d : Nat} {e : Expr} {σ σ' : State}

theorem proper_of_eval (he : ProperEnv s σ.heap env) (h : s.eval d e env σ = .ok v σ') :
    v.Proper s σ'.heap := by
  obtain ⟨⟨hf, hv⟩, hh⟩ :=
    Invariant.value_of_eval (fun b hb => .inl (.bound hb)) (Invariant.onHeap_of_properEnv he) h
  exact ⟨hf, fun f scope hc => Invariant.properEnv_of_within hh (hv f scope hc)⟩

theorem assigned_of_eval (he : ProperEnv s σ.heap env) (h : s.eval d e env σ = .ok v σ')
    (hn : ¬σ.heap.Holds c) (hc : σ'.heap.Holds c) : σ'.heap.read c ≠ .unassigned := by
  intro hu
  have start := Invariant.config_start (d := d) (e := e) (fun b hb => .inl (.bound hb))
    (Invariant.onHeap_of_properEnv he)
  have ha := start.awaited (fun w hw => hw.1.ne_unassigned) (leads_of_eval_ok h)
    (awaited_start σ.heap rfl)
  exact List.not_mem_nil (ha c hn hc hu)

theorem eval_toExpr (hs : s ≠ .lexical) (hv : v.Finished s) (d : Nat) (env : Environment)
    (σ : State) : s.eval (d + 1) v.toExpr env σ = .ok v σ := by
  cases v with
  | closure f scope => exact absurd hv hs
  | plain e =>
    rcases Value.finished_plain_iff.1 hv with hl | ⟨-, x, b, rfl⟩
    · exact s.eval_of_isLiteral hl d env σ
    · cases s with
      | lexical => exact absurd rfl hs
      | substitution | dynamic => rfl

end Discipline

namespace Interpreter

/--
A successful evaluation in a proper environment returns a proper value, and every cell that it
allocated has a value at the end. Unless functions keep their environments, the expression of the
value evaluates to the value again, at any depth but zero.
-/
theorem finished_of_value {limit : Option Nat} {a : Nat} {e : Expr} {σ σ' : State}
    (he : ProperEnv s σ.heap env) (h : eval ⟨.reducing s, limit⟩ a e env σ = (.value v, σ')) :
    v.Proper s σ'.heap ∧
      (∀ c, ¬σ.heap.Holds c → σ'.heap.Holds c → σ'.heap.read c ≠ .unassigned) ∧
      (s ≠ .lexical → ∀ (limit' : Option Nat) (a' : Nat) (τ : State), 1 ≤ limit'.getD a' →
        eval ⟨.reducing s, limit'⟩ a' v.toExpr env τ = (.value v, τ)) := by
  have h := eval_eq_value_iff.1 h
  have hv := Discipline.proper_of_eval he h
  refine ⟨hv, ?_, ?_⟩
  · intro c hn hc
    exact Discipline.assigned_of_eval he h hn hc
  · intro hs limit' a' τ hd
    obtain ⟨d, hd⟩ := Nat.exists_eq_add_of_le' hd
    rw [eval_eq_value_iff, hd]
    exact Discipline.eval_toExpr hs hv.1 d env τ

/-- A recursive definition beside a function whose environment binds the function itself. -/
theorem finished_of_value_letRec :
    let f : Name := ⟨13⟩
    let g : Name := ⟨14⟩
    let env : Environment := ⟨0, [(f, ⟨0⟩)]⟩
    let heap : Heap := ⟨#[.closure ⟨g, .app (.var f) (.var g)⟩ env], 1⟩
    let e : Expr := .letRec g (.fn f (.app (.var g) (.var f))) (.var g)
    ∃ v σ', eval ⟨.reducing .lexical, some 2⟩ 0 e env ⟨.initial, heap⟩ = (.value v, σ') ∧
      v.Proper .lexical σ'.heap ∧ σ'.heap.read ⟨1⟩ ≠ .unassigned := by
  intro f g env heap e
  have he : ProperEnv .lexical heap env := by
    have seen : ∀ c, heap.Reaches env c → c = ⟨0⟩ := by
      intro c hc
      induction hc with
      | bound hx => exact (Prod.mk.inj (List.mem_singleton.1 hx)).2
      | captured _ hr hx ih =>
        subst ih
        cases hr
        exact (Prod.mk.inj (List.mem_singleton.1 hx)).2
    intro c hc
    rw [seen c hc]
    exact .inr rfl
  obtain ⟨v, σ', h, hc⟩ : ∃ v σ', Discipline.eval .lexical 2 e env ⟨.initial, heap⟩ = .ok v σ' ∧
      σ'.heap.Holds ⟨1⟩ := ⟨_, _, rfl, Nat.lt_add_one 1⟩
  have h : eval ⟨.reducing .lexical, some 2⟩ 0 e env ⟨.initial, heap⟩ = (.value v, σ') :=
    eval_eq_value_iff.2 h
  have hv := finished_of_value he h
  exact ⟨v, σ', h, hv.1, hv.2.1 ⟨1⟩ (Nat.lt_irrefl 1) hc⟩

end Interpreter

end LetCalculus
