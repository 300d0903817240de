import LetCalculus.Proofs.Agreement.Sequence
import LetCalculus.Proofs.Evaluation.ScopeSafety
import LetCalculus.Proofs.Substitution.Plain

/-!
# Closed programs under substitution

An expression without free variables stays one however it is evaluated by substitution: all that
is ever put in the place of a name is closed, the values as well as the recursive definitions that
are laid open. So no binder captures, every substitution is the plain replacement of the free
occurrences, and no fresh name is asked for. No variable is ever looked up either, so it does not
matter which environment the program is given (`Interpreter.closed_program`).

`Machine.Puts` describes the steps of the machine that put something in the place of a name. All
others leave the name table as it is (`Machine.puts_or_names_eq`).
-/

namespace LetCalculus

open LetCalculus.Expr

/-! ### The substitutions of a run -/

namespace Machine

/--
In a step from the first configuration to the second, `r` is put for `x` in `a`: a value in the body
of a definition or function, or a recursive definition in its own value.
-/
inductive Puts : Config → Name → Expr → Expr → Config → Prop
  | value {v x b env d k σ} : Puts ⟨.ret v, .bind x b env d :: k, σ⟩ x v.toExpr b
    ⟨.eval d (σ.substitute x v.toExpr b).1 env, k, (σ.substitute x v.toExpr b).2⟩
  | definition {x v b env d k σ} :
    Puts ⟨.eval (d + 1) (.letRec x v b) env, k, σ⟩ x (.letRec x v (.var x)) v
      ⟨.eval d (σ.substitute x (.letRec x v (.var x)) v).1 env, .bind x b env d :: k,
        (σ.substitute x (.letRec x v (.var x)) v).2⟩

variable {c c' : Config} {x : Name} {r a : Expr} {σ : State} {k : List Frame}

theorem Puts.step (h : Puts c x r a c') : step .substitution c = .inr c' := by
  cases h <;> rfl

theorem Puts.names_eq (h : Puts c x r a c') :
    c'.state.names = (Expr.substitute x r a c.state.names).2 := by
  cases h <;> rfl

theorem names_eq_of_give {r : Except EvalError Value} (h : give k σ r = .inr c') :
    c'.state.names = σ.names := by
  obtain ⟨v, rfl⟩ := eq_ret_of_give h
  rfl

/-- Every step of evaluation by substitution puts something in or leaves the name table as it is. -/
theorem puts_or_names_eq (h : step .substitution c = .inr c') :
    (∃ x r a, Puts c x r a c') ∨ c'.state.names = c.state.names := by
  obtain ⟨ctrl, k, σ⟩ := c
  match ctrl, k with
  | .eval 0 e env, k => cases h
  | .eval (d + 1) e env, k =>
    cases e with
    | var x => exact .inr (names_eq_of_give h)
    | letRec x v b =>
      cases h
      exact .inl ⟨_, _, _, .definition⟩
    | raise | unassigned => cases h
    | _ =>
      cases h
      exact .inr rfl
  | .ret v, [] => cases h
  | .ret v, f :: k =>
    cases f with
    | unary op | binary op l => exact .inr (names_eq_of_give h)
    | bind x b env d =>
      cases h
      exact .inl ⟨_, _, _, .value⟩
    | right op r env d | assign c b env d =>
      cases h
      exact .inr rfl
    | branch y n env d =>
      simp only [step, stepRet] at h
      split at h
      · cases h
        exact .inr rfl
      · cases h
    | argument a env d =>
      simp only [step, stepRet] at h
      split at h
      · cases h
        exact .inr rfl
      · cases h

/-! ### Only closed expressions are put in -/

theorem closed_of_boundBy {e : Expr} (he : e.BoundBy []) : ∀ y, ¬FreeIn y e := by
  simpa [Expr.BoundBy] using he

variable {e : Expr} {env : Environment} {d : Nat}

/-- The invariant of a closed program: it looks no variable up, so no cell comes in sight. -/
def Invariant.closed (h : Heap) (base : Environment) : Invariant .substitution :=
  .boundBy [] base (fun c => ¬h.Holds c) (by simp)

theorem Invariant.closed_start (he : e.BoundBy []) :
    (Invariant.closed σ.heap env).OnConfig ⟨.eval d e env, [], σ⟩ := by
  refine config_start (I := .closed σ.heap env) ⟨rfl, he⟩ ⟨?_, fun _ hc => hc⟩
  intro c hc
  exact .inl (Heap.read_of_not_holds hc)

theorem Puts.closed {h : Heap} (hp : Puts c x r a c')
    (hc : (Invariant.closed h env).OnConfig c) : ∀ y, ¬FreeIn y r := by
  cases hp with
  | value =>
    obtain ⟨p, rfl, hp⟩ := hc.control
    exact closed_of_boundBy hp
  | definition =>
    obtain ⟨-, he⟩ := hc.control
    exact closed_of_boundBy (.definition fun y hy hv => he y ⟨hy, .inl hv⟩)

theorem Puts.substitute_eq {h : Heap} (hp : Puts c x r a c')
    (hc : (Invariant.closed h env).OnConfig c) :
    Expr.substitute x r a c.state.names = (replaceFree x r a, c.state.names) :=
  substitute_of_closed (hp.closed hc) x a _

theorem names_eq_of_leads (he : e.BoundBy [])
    (hl : Leads .substitution ⟨.eval d e env, [], σ⟩ c) : c.state.names = σ.names := by
  let kept (c : Config) : Prop :=
    (Invariant.closed σ.heap env).OnConfig c ∧ c.state.names = σ.names
  suffices hc : kept c from hc.2
  refine hl.induction_on ?_ ⟨Invariant.closed_start he, rfl⟩
  rintro c c' ⟨hc, hn⟩ hs
  refine ⟨hc.step hs, ?_⟩
  rcases puts_or_names_eq hs with ⟨x, r, a, hp⟩ | hs
  · rw [hp.names_eq, hp.substitute_eq hc, hn]
  · rw [hs, hn]

end Machine

/-! ### The environment does not matter -/

namespace Correspondence

variable {P : CellPairing} {t₀ : NameTable} {b e : Expr} {x : Name} {env env' : Environment}
  {v w : Value}

def ClosedValue (v w : Value) : Prop := v = w ∧ ∃ p, v = .plain p ∧ p.BoundBy []

def closedPairing (P : CellPairing) (t₀ : NameTable) : Pairing where
  code e _ e' _ := e = e' ∧ e.BoundBy []
  value := ClosedValue
  cell := P.rel
  names t t' := t = t₀ ∧ t' = t₀

theorem closed_substitute {r : Expr} (hr : r.BoundBy []) (hb : ∀ y, y ≠ x → FreeIn y b → y ∈ []) :
    (Expr.substitute x r b t₀).1.BoundBy [] ∧ (Expr.substitute x r b t₀).2 = t₀ := by
  refine ⟨hr.substitute hb, ?_⟩
  rw [substitute_of_closed (Machine.closed_of_boundBy hr)]

theorem opens_closed (hb : ∀ y, y ≠ x → FreeIn y b → y ∈ []) :
    (closedPairing P t₀).Opens .substitution .substitution x b env x b env' := by
  refine .text rfl rfl ?_
  rintro v _ t _ ⟨rfl, p, rfl, hp⟩ ⟨rfl, rfl⟩
  obtain ⟨hc, hn⟩ := closed_substitute hp hb
  exact ⟨⟨rfl, hc⟩, hn, hn⟩

theorem calls_closed (hv : ClosedValue v w) :
    (closedPairing P t₀).Calls .substitution .substitution v env w env' := by
  obtain ⟨rfl, p, rfl, hp⟩ := hv
  cases p with
  | fn x b => exact .function rfl rfl (opens_closed fun y hy hf => hp y ⟨hy, hf⟩)
  | _ => exact .other rfl rfl fun _ _ => render_eq_of_kept

def closedPrograms (P : CellPairing) (t₀ : NameTable) :
    Correspondence .substitution .substitution .indistinct where
  toPairing := closedPairing P t₀
  node {e env e' env'} hc := by
    obtain ⟨rfl, he⟩ := hc
    cases e with
    | var x => exact absurd (he x rfl) List.not_mem_nil
    | int n | float a | bool b => exact .literal rfl
    | raise => exact .raise
    | unassigned => exact .unassigned
    | unary op e => exact .unary ⟨rfl, he⟩
    | binary op l r => exact .binary ⟨rfl, he.part fun _ => .inl⟩ ⟨rfl, he.part fun _ => .inr⟩
    | cond c y n =>
      exact .cond ⟨rfl, he.part fun _ => .inl⟩ ⟨rfl, he.part fun _ hx => .inr (.inl hx)⟩
        ⟨rfl, he.part fun _ hx => .inr (.inr hx)⟩
    | fn x b => exact .fn ⟨rfl, _, rfl, he⟩
    | letIn x v b =>
      exact .letIn ⟨rfl, he.part fun _ => .inl⟩
        (opens_closed fun y hy hf => he y (.inr ⟨hy, hf⟩))
    | letRec x v b =>
      refine .unroll rfl rfl ?_ (opens_closed fun y hy hf => he y ⟨hy, .inr hf⟩)
      rintro t t' ⟨rfl, rfl⟩
      have hv : ∀ y, y ≠ x → FreeIn y v → y ∈ [] := fun y hy hf => he y ⟨hy, .inl hf⟩
      obtain ⟨hc, hn⟩ := closed_substitute (.definition hv) hv
      exact ⟨⟨rfl, hc⟩, hn, hn⟩
    | app f a =>
      refine .app ⟨rfl, he.part fun _ => .inl⟩ ⟨rfl, he.part fun _ => .inr⟩ ?_
      intro v w hv
      exact calls_closed hv
  like := by
    rintro v _ ⟨rfl, -⟩
    exact .same v
  literal hl := ⟨rfl, _, rfl, .of_isLiteral hl⟩
  placeholder := ⟨rfl, _, rfl, fun _ => False.elim⟩
  distinct := P.distinct

end Correspondence

namespace Interpreter

/--
A closed program has the same outcome in every environment under substitution: the same value, the
same error, or none. All along its run every substitution is the plain replacement of the free
occurrences of the name, and at the end the name table is what it was.
-/
theorem closed_program {e : Expr} (he : e.isClosed = true) (env : Environment) (σ : State) :
    (∀ env', RunsAlike Eq Eq .substitution e env σ .substitution e env' σ) ∧
    (∀ d c c' x r a, Machine.Leads .substitution ⟨.eval d e env, [], σ⟩ c →
      Machine.Puts c x r a c' →
      Expr.substitute x r a c.state.names = (replaceFree x r a, c.state.names)) ∧
    ∀ limit a, (eval ⟨.reducing .substitution, limit⟩ a e env σ).2.names = σ.names := by
  have he : e.BoundBy [] := by simpa [Expr.BoundBy, isClosed_iff] using he
  refine ⟨?_, ?_, ?_⟩
  · intro env'
    have none : LiteralEnv σ.heap ⟨0, []⟩ := by simp [LiteralEnv]
    refine (Correspondence.closedPrograms (.next none (.refl _)) σ.names).runsAlike ⟨rfl, he⟩
      (Concordance.states_next (fun _ _ => .rfl) none (.refl _) ⟨rfl, rfl⟩) ?_
    intro d v w σ' τ' _ _ hvw
    exact hvw.1
  · intro d c c' x r a hl hp
    exact hp.substitute_eq ((Machine.Invariant.closed_start he).leads hl)
  · intro limit a
    rw [state_eval]
    obtain ⟨c, hl, hc⟩ := Machine.exists_leads_endState .substitution (limit.getD a) e env σ
    rw [hc]
    exact Machine.names_eq_of_leads he hl

/-- A recursive function that comes to another one, in which its own name is bound again. -/
theorem closed_program_letRec :
    let f : Name := ⟨13⟩
    let n : Name := ⟨14⟩
    let v : Expr := .fn n (.cond (.var n) (.fn f (.app (.var f) (.var n)))
      (.app (.var f) (.bool true)))
    let e : Expr := .letRec f v (.app (.var f) (.bool false))
    let env : Environment := ⟨0, [(f, ⟨0⟩)]⟩
    let σ : State := ⟨.initial, ⟨#[.plain (.int 5)], 1⟩⟩
    e.isClosed = true ∧
      RunsAlike Eq Eq .substitution e env σ .substitution e ⟨1, []⟩ σ ∧
      Expr.substitute f (.letRec f v (.var f)) v σ.names =
        (replaceFree f (.letRec f v (.var f)) v, σ.names) ∧
      (eval ⟨.reducing .substitution, some 8⟩ 0 e env σ).2.names = σ.names := by
  intro f n v e env σ
  have he : e.isClosed = true := by decide
  obtain ⟨halike, hputs, hnames⟩ := closed_program he env σ
  exact ⟨he, halike _, hputs 1 _ _ _ _ _ (.refl _) .definition, hnames _ _⟩

end Interpreter

end LetCalculus
