import LetCalculus.Interpreter
import LetCalculus.Proofs.Agreement.Indistinct
import LetCalculus.Proofs.Evaluation.Literals
import LetCalculus.Proofs.Evaluation.Unlimited

/-!
# Two evaluations side by side

Two evaluations go the same way if they come to alike values at every node. A `Correspondence` says
what the two evaluate side by side, and which values, cells and name tables go together; its
conditions ask for one node at a time. They do not speak of depth, and so an evaluation and its
counterpart come to alike outcomes at every depth (`Correspondence.outcomes`), under every limit
and without one (`RunsAlike`). Where one construct stands for another, the node that is compared
may also be that of an expression which runs as the given one does (`Concordance.outcomes`).

The cells of the two runs need not be the same, nor as many: what counts is that cells come in
pairs, and that those which are allocated next are a pair (`Pairing.States`).
-/

namespace LetCalculus

open LetCalculus.Discipline

/-- What goes together in two evaluations. -/
structure Pairing where
  code : Expr → Environment → Expr → Environment → Prop
  value : Value → Value → Prop
  cell : Cell → Cell → Prop
  names : NameTable → NameTable → Prop

/-- As long as no names come by, expressions are rendered as they were. -/
theorem render_eq_of_kept {e : Expr} {t t' t₀ : NameTable} (h : t = t₀ ∧ t' = t₀) :
    e.render t = e.render t' := by
  rw [h.1, h.2]

namespace Pairing

/--
Two bodies go together once their names have values that go together: with the values in the place
of the names, or with cells for them.
-/
inductive Opens (P : Pairing) (s s' : Discipline) (x : Name) (b : Expr) (env : Environment)
    (y : Name) (c : Expr) (env' : Environment) : Prop
  | text : s = .substitution → s' = .substitution →
    (∀ v w t t', P.value v w → P.names t t' →
      P.code (Expr.substitute x v.toExpr b t).1 env (Expr.substitute y w.toExpr c t').1 env' ∧
      P.names (Expr.substitute x v.toExpr b t).2 (Expr.substitute y w.toExpr c t').2) →
    Opens P s s' x b env y c env'
  | cell : s ≠ .substitution → s' ≠ .substitution →
    (∀ p q m n, P.cell p q → P.code b ⟨m, Environment.bind x p env.bindings⟩
      c ⟨n, Environment.bind y q env'.bindings⟩) →
    Opens P s s' x b env y c env'

inductive Calls (P : Pairing) (s s' : Discipline) (v : Value) (env : Environment) (w : Value)
    (env' : Environment) : Prop
  | function {f g : Lambda} {scope scope' : Environment} :
    s.callee? v env = some (f, scope) → s'.callee? w env' = some (g, scope') →
    P.Opens s s' f.param f.body scope g.param g.body scope' → Calls P s s' v env w env'
  | other : s.callee? v env = none → s'.callee? w env' = none →
    (∀ t t', P.names t t' → v.render t = w.render t') → Calls P s s' v env w env'

/-- Two nodes whose rules ask for the same in the same order. -/
inductive Node (P : Pairing) (s s' : Discipline) : Expr → Environment → Expr → Environment → Prop
  | bound {x y env env' c d} : Environment.cell? env x = some c →
    Environment.cell? env' y = some d → P.cell c d → Node P s s' (.var x) env (.var y) env'
  | unbound {x y env env'} : Environment.cell? env x = none → Environment.cell? env' y = none →
    (∀ t t', P.names t t' → t.text x = t'.text y) → Node P s s' (.var x) env (.var y) env'
  | literal {l env env'} : Expr.isLiteral l = true → Node P s s' l env l env'
  | raise {env env'} : Node P s s' .raise env .raise env'
  | unassigned {env env'} : Node P s s' .unassigned env .unassigned env'
  | unary {op e e' env env'} : P.code e env e' env' →
    Node P s s' (.unary op e) env (.unary op e') env'
  | binary {op l r l' r' env env'} : P.code l env l' env' → P.code r env r' env' →
    Node P s s' (.binary op l r) env (.binary op l' r') env'
  | cond {e y n e' y' n' env env'} : P.code e env e' env' → P.code y env y' env' →
    P.code n env n' env' → Node P s s' (.cond e y n) env (.cond e' y' n') env'
  | fn {x b y c env env'} : P.value (s.closeOver ⟨x, b⟩ env) (s'.closeOver ⟨y, c⟩ env') →
    Node P s s' (.fn x b) env (.fn y c) env'
  | letIn {x v b y w c env env'} : P.code v env w env' → P.Opens s s' x b env y c env' →
    Node P s s' (.letIn x v b) env (.letIn y w c) env'
  | unroll {x v b y w c env env'} : s = .substitution → s' = .substitution →
    (∀ t t', P.names t t' →
      P.code (Expr.substitute x (.letRec x v (.var x)) v t).1 env
        (Expr.substitute y (.letRec y w (.var y)) w t').1 env' ∧
      P.names (Expr.substitute x (.letRec x v (.var x)) v t).2
        (Expr.substitute y (.letRec y w (.var y)) w t').2) →
    P.Opens s s' x b env y c env' → Node P s s' (.letRec x v b) env (.letRec y w c) env'
  | letRec {x v b y w c env env'} : s ≠ .substitution → s' ≠ .substitution →
    (∀ p q m n, P.cell p q →
      P.code v ⟨m, Environment.bind x p env.bindings⟩ w ⟨n, Environment.bind y q env'.bindings⟩ ∧
      P.code b ⟨m, Environment.bind x p env.bindings⟩ c ⟨n, Environment.bind y q env'.bindings⟩) →
    Node P s s' (.letRec x v b) env (.letRec y w c) env'
  | app {f a g c env env'} : P.code f env g env' → P.code a env c env' →
    (∀ v w, P.value v w → P.Calls s s' v env w env') → Node P s s' (.app f a) env (.app g c) env'

/-- Two states go together if paired cells hold what goes together and new cells will be paired. -/
structure States (P : Pairing) (σ τ : State) : Prop where
  names : P.names σ.names τ.names
  holds : ∀ c d, P.cell c d → (σ.heap.Holds c ↔ τ.heap.Holds d)
  read : ∀ c d, P.cell c d → P.value (σ.heap.read c) (τ.heap.read d)
  fresh : ∀ n, P.cell ⟨σ.heap.cells.size + n⟩ ⟨τ.heap.cells.size + n⟩

inductive Outcomes (P : Pairing) (error : EvalError → EvalError → Prop) :
    Machine.Final → Machine.Final → Prop
  | value {v w σ τ} : P.value v w → P.States σ τ → Outcomes P error (.ok v σ) (.ok w τ)
  | error {x y σ τ} : error x y → P.names (State.names σ) (State.names τ) →
    Outcomes P error (.error (.failed x) σ) (.error (.failed y) τ)
  | exhausted {σ τ} : P.names (State.names σ) (State.names τ) →
    Outcomes P error (.error .exhausted σ) (.error .exhausted τ)

end Pairing

/-- A pairing of values that no rule can tell apart, in which no cell has two counterparts. -/
structure Concordance (L : Likeness) extends Pairing where
  like : ∀ {v w}, value v w → L.value v w
  literal : ∀ {l : Expr}, l.isLiteral = true → value (.plain l) (.plain l)
  placeholder : value .unassigned .unassigned
  distinct : ∀ {c d c' d'}, cell c d → cell c' d' → (c = c' ↔ d = d')

structure Correspondence (s s' : Discipline) (L : Likeness) extends Concordance L where
  node : ∀ {e env e' env'}, code e env e' env' → toPairing.Node s s' e env e' env'

/-- The same outcome; of two evaluations that are exhausted only the name tables are compared. -/
inductive SameEnd : Machine.Final → Machine.Final → Prop
  | same (r : Machine.Final) : SameEnd r r
  | exhausted {σ τ : State} : σ.names = τ.names →
    SameEnd (.error .exhausted σ) (.error .exhausted τ)

/-- Whether an expression comes to the same as another one at every depth. -/
def Discipline.RunsAs (s : Discipline) (e e₀ : Expr) (env : Environment) : Prop :=
  ∀ d σ, SameEnd (s.eval d e env σ) (s.eval d e₀ env σ)

namespace Concordance

variable {s s' : Discipline} {L : Likeness} {C : Concordance L} {σ τ : State}
  {env env' : Environment} {v w : Value}

/-! ### States -/

theorem states_alloc (hs : C.States σ τ) (hv : C.value v w) :
    C.States { σ with heap := (σ.heap.alloc v).2 } { τ with heap := (τ.heap.alloc w).2 } := by
  have hnew : C.cell (σ.heap.alloc v).1 (τ.heap.alloc w).1 := hs.fresh 0
  refine ⟨hs.names, ?_, ?_, ?_⟩
  · intro c d hc
    rw [Heap.holds_alloc_iff, Heap.holds_alloc_iff, hs.holds c d hc, C.distinct hc hnew]
  · intro c d hc
    by_cases he : c = (σ.heap.alloc v).1
    · rw [he, (C.distinct hc hnew).1 he, Heap.read_alloc_self, Heap.read_alloc_self]
      exact hv
    · have he' : d ≠ (τ.heap.alloc w).1 := fun hd => he ((C.distinct hc hnew).2 hd)
      rw [Heap.read_alloc_of_ne he, Heap.read_alloc_of_ne he']
      exact hs.read c d hc
  · intro n
    have hn := hs.fresh (n + 1)
    simpa [Heap.alloc, Nat.add_assoc, Nat.add_comm 1 n] using hn

theorem states_stamp (hs : C.States σ τ) (m n : Nat) :
    C.States { σ with heap := ⟨σ.heap.cells, m⟩ } { τ with heap := ⟨τ.heap.cells, n⟩ } :=
  ⟨hs.names, hs.holds, hs.read, hs.fresh⟩

theorem states_assign (hs : C.States σ τ) {c d : Cell} (hc : C.cell c d) (hv : C.value v w) :
    C.States (σ.assign c v) (τ.assign d w) := by
  refine ⟨hs.names, ?_, ?_, ?_⟩
  · intro c' d' hc'
    rw [State.assign, State.assign, Heap.holds_write, Heap.holds_write]
    exact hs.holds c' d' hc'
  · intro c' d' hc'
    by_cases he : c' = c
    · have he' := (C.distinct hc' hc).1 he
      subst he he'
      by_cases hold : σ.heap.Holds c'
      · have hold' := (hs.holds c' d' hc').1 hold
        rw [State.assign, State.assign, Heap.read_write_self hold, Heap.read_write_self hold']
        exact hv
      · have hold' : ¬τ.heap.Holds d' := fun h => hold ((hs.holds c' d' hc').2 h)
        rw [State.assign, State.assign,
          Heap.read_of_not_holds (fun h => hold ((Heap.holds_write v).1 h)),
          Heap.read_of_not_holds (fun h => hold' ((Heap.holds_write w).1 h))]
        exact C.placeholder
    · have he' : d' ≠ d := fun hd => he ((C.distinct hc' hc).2 hd)
      rw [State.assign, State.assign, Heap.read_write_of_ne he, Heap.read_write_of_ne he']
      exact hs.read c' d' hc'
  · intro n
    simpa [State.assign, Heap.write] using hs.fresh n

/-! ### Outcomes -/

theorem outcomes_bind {m m' : EvalM Value} {f f' : Value → EvalM Value}
    (hm : C.Outcomes L.error (m σ) (m' τ))
    (hf : ∀ {v w σ τ}, C.value v w → C.States σ τ → C.Outcomes L.error (f v σ) (f' w τ)) :
    C.Outcomes L.error ((m >>= f) σ) ((m' >>= f') τ) := by
  simp only [Bind.bind, EStateM.bind]
  generalize m σ = r at hm
  generalize m' τ = r' at hm
  cases hm with
  | value hv hs => exact hf hv hs
  | error hx hn => exact .error hx hn
  | exhausted hn => exact .exhausted hn

theorem outcomes_ofExcept {r r' : Except EvalError Value} (hr : AlikeResult L.error r r')
    (hs : C.States σ τ) : C.Outcomes L.error (EvalM.ofExcept r σ) (EvalM.ofExcept r' τ) := by
  cases hr with
  | literal hl => exact .value (C.literal hl) hs
  | error hx => exact .error hx hs.names

theorem outcomes_fetch {x y : Name} {c d : Cell} (hx : env.cell? x = some c)
    (hy : env'.cell? y = some d) (hc : C.cell c d) (hs : C.States σ τ) :
    C.Outcomes L.error (EvalM.ofExcept (σ.fetch env x) σ) (EvalM.ofExcept (τ.fetch env' y) τ) := by
  have hv := hs.read c d hc
  simp only [State.fetch, Heap.lookup?, hx, hy, Option.map_some, L.isUnassigned (C.like hv)]
  split
  · exact .error (L.refl _) hs.names
  · exact .value hv hs

/-! ### Evaluation -/

def Follows (C : Concordance L) (recur recur' : Expr → Environment → EvalM Value) : Prop :=
  ∀ {e env e' env' σ τ}, C.code e env e' env' → C.States σ τ →
    C.Outcomes L.error (recur e env σ) (recur' e' env' τ)

variable {recur recur' : Expr → Environment → EvalM Value}

theorem outcomes_enter (ih : C.Follows recur recur') {x y : Name} {b c : Expr}
    (ho : C.Opens s s' x b env y c env') (hv : C.value v w) (hs : C.States σ τ) :
    C.Outcomes L.error (s.enter recur x v b env σ) (s'.enter recur' y w c env' τ) := by
  cases ho with
  | text hd hd' h =>
    subst hd hd'
    obtain ⟨hc, hn⟩ := h v w σ.names τ.names hv hs.names
    exact ih hc ⟨hn, hs.holds, hs.read, hs.fresh⟩
  | cell hd hd' h =>
    rw [enter_of_ne hd, enter_of_ne hd']
    exact ih (h _ _ _ _ (hs.fresh 0)) (states_stamp (states_alloc hs hv) _ _)

theorem outcomes_letRec (ih : C.Follows recur recur') (hd : s ≠ .substitution)
    (hd' : s' ≠ .substitution) {x y : Name} {v w b c : Expr}
    (h : ∀ p q m n, C.cell p q →
      C.code v ⟨m, Environment.bind x p env.bindings⟩ w ⟨n, Environment.bind y q env'.bindings⟩ ∧
      C.code b ⟨m, Environment.bind x p env.bindings⟩ c ⟨n, Environment.bind y q env'.bindings⟩)
    (hs : C.States σ τ) :
    C.Outcomes L.error (s.evalNode recur (.letRec x v b) env σ)
      (s'.evalNode recur' (.letRec y w c) env' τ) := by
  rw [evalNode_letRec_of_ne hd, evalNode_letRec_of_ne hd']
  have hnew := hs.fresh 0
  obtain ⟨hv, hb⟩ := h _ _ σ.heap.nextStamp τ.heap.nextStamp hnew
  refine outcomes_bind (ih hv (states_stamp (states_alloc hs C.placeholder) _ _)) ?_
  intro a a' σ₁ τ₁ ha hs₁
  exact ih hb (states_assign hs₁ hnew ha)

theorem outcomes_node (ih : C.Follows recur recur') {e e' : Expr}
    (hn : C.Node s s' e env e' env') (hs : C.States σ τ) :
    C.Outcomes L.error (s.evalNode recur e env σ) (s'.evalNode recur' e' env' τ) := by
  cases hn with
  | bound hx hy hcell => exact outcomes_fetch hx hy hcell hs
  | @unbound x y _ _ hx hy ht =>
    have hl : σ.fetch env x = .error (.unboundVariable (σ.names.text x)) := by
      simp [State.fetch, Heap.lookup?, hx]
    have hl' : τ.fetch env' y = .error (.unboundVariable (τ.names.text y)) := by
      simp [State.fetch, Heap.lookup?, hy]
    show C.Outcomes L.error (EvalM.ofExcept (σ.fetch env x) σ) (EvalM.ofExcept (τ.fetch env' y) τ)
    rw [hl, hl', ht _ _ hs.names]
    exact .error (L.refl _) hs.names
  | literal hl =>
    cases e with
    | int n | float a | bool b => exact .value (C.literal hl) hs
    | _ => cases hl
  | raise | unassigned => exact .error (L.refl _) hs.names
  | @unary op e e' _ _ he =>
    refine outcomes_bind (ih he hs) ?_
    intro v w σ τ hv hs
    exact outcomes_ofExcept (L.unary (C.like hv) op) hs
  | @binary op l r l' r' _ _ hl hr =>
    refine outcomes_bind (ih hl hs) ?_
    intro v w σ τ hv hs
    refine outcomes_bind (ih hr hs) ?_
    intro v' w' σ τ hv' hs
    exact outcomes_ofExcept (L.binary (C.like hv) (C.like hv') op) hs
  | cond he hy hn =>
    refine outcomes_bind (ih he hs) ?_
    intro v w σ τ hv hs
    simp only [L.truth? (C.like hv)]
    cases w.truth? with
    | none => exact .error (L.mismatch (C.like hv) _) hs.names
    | some b =>
      cases b
      · exact ih hn hs
      · exact ih hy hs
  | fn hf => exact .value hf hs
  | letIn hv ho =>
    refine outcomes_bind (ih hv hs) ?_
    intro v w σ τ hv hs
    exact outcomes_enter ih ho hv hs
  | unroll hd hd' hu ho =>
    subst hd hd'
    obtain ⟨hv, hn⟩ := hu σ.names τ.names hs.names
    refine outcomes_bind (ih hv ⟨hn, hs.holds, hs.read, hs.fresh⟩) ?_
    intro v w σ τ hv hs
    exact outcomes_enter ih ho hv hs
  | letRec hd hd' h => exact outcomes_letRec ih hd hd' h hs
  | app hf ha hcall =>
    refine outcomes_bind (ih hf hs) ?_
    intro v w σ τ hv hs
    cases hcall v w hv with
    | function hg hg' ho =>
      rw [hg, hg']
      refine outcomes_bind (ih ha hs) ?_
      intro v w σ τ hv hs
      exact outcomes_enter ih ho hv hs
    | other hg hg' hr =>
      rw [hg, hg']
      show C.Outcomes L.error (.error (.failed (.notAFunction (v.render σ.names))) σ)
        (.error (.failed (.notAFunction (w.render τ.names))) τ)
      rw [hr _ _ hs.names]
      exact .error (L.refl _) hs.names

theorem outcomes_of_sameEnd {r r₀ r' : Machine.Final} (h : SameEnd r r₀)
    (ho : C.Outcomes L.error r₀ r') : C.Outcomes L.error r r' := by
  cases h with
  | same => exact ho
  | exhausted hn =>
    cases ho with
    | exhausted ho => exact .exhausted (hn ▸ ho)

/--
If paired expressions run as expressions whose nodes go together, an evaluation and its
counterpart come to outcomes that go together at every depth.
-/
theorem outcomes (C : Concordance L)
    (h : ∀ {e env e' env'}, C.code e env e' env' →
      ∃ e₀, s.RunsAs e e₀ env ∧ C.Node s s' e₀ env e' env') (d : Nat) :
    C.Follows (s.eval d) (s'.eval d) := by
  induction d with
  | zero => exact fun _ hs => .exhausted hs.names
  | succ d ih =>
    intro e env e' env' σ τ hc hs
    obtain ⟨e₀, hr, hn⟩ := h hc
    exact outcomes_of_sameEnd (hr (d + 1) σ) (outcomes_node ih hn hs)

end Concordance

theorem Correspondence.outcomes {s s' : Discipline} {L : Likeness} (C : Correspondence s s' L)
    (d : Nat) : C.Follows (s.eval d) (s'.eval d) :=
  C.toConcordance.outcomes (fun hc => ⟨_, fun _ _ => .same _, C.node hc⟩) d

/-! ### Outcomes of interpreters -/

inductive Outcome.Alike (value : Value → Value → Prop) (error : EvalError → EvalError → Prop) :
    Outcome → Outcome → Prop
  | value {v w : Value} : value v w → Alike value error (.value v) (.value w)
  | error {x y : EvalError} : error x y → Alike value error (.error x) (.error y)
  | unfinished : Alike value error .unfinished .unfinished

/--
Two evaluations come to alike outcomes under every limit, also where the limit is exceeded, and
without a limit either both come to an end or neither does.
-/
structure RunsAlike (value : Value → Value → Prop) (error : EvalError → EvalError → Prop)
    (s : Discipline) (e : Expr) (env : Environment) (σ : State)
    (s' : Discipline) (e' : Expr) (env' : Environment) (τ : State) : Prop where
  outcome : ∀ limit allowance, Outcome.Alike value error
    (Interpreter.eval ⟨.reducing s, limit⟩ allowance e env σ).1
    (Interpreter.eval ⟨.reducing s', limit⟩ allowance e' env' τ).1
  ends : (∃ r, s.Evaluates e env σ r) ↔ ∃ r, s'.Evaluates e' env' τ r

namespace Pairing.Outcomes

variable {P : Pairing} {error : EvalError → EvalError → Prop} {r r' : Machine.Final}
  {value : Value → Value → Prop}

theorem ended_iff (h : P.Outcomes error r r') : Ended r ↔ Ended r' := by
  cases h <;> rfl

theorem alike_ofUnlimited (h : P.Outcomes error r r')
    (hv : ∀ v w σ τ, r = .ok v σ → r' = .ok w τ → P.value v w → value v w) :
    Outcome.Alike value error (Outcome.ofUnlimited r).1 (Outcome.ofUnlimited r').1 := by
  cases h with
  | value hvw _ => exact .value (hv _ _ _ _ rfl rfl hvw)
  | error hx _ => exact .error hx
  | exhausted _ => exact .unfinished

theorem alike_ofLimited (h : P.Outcomes error r r') (refl : ∀ x, error x x)
    (hv : ∀ v w σ τ, r = .ok v σ → r' = .ok w τ → P.value v w → value v w) (m : Nat) :
    Outcome.Alike value error (Outcome.ofLimited m r).1 (Outcome.ofLimited m r').1 := by
  cases h with
  | value hvw _ => exact .value (hv _ _ _ _ rfl rfl hvw)
  | error hx _ => exact .error hx
  | exhausted _ => exact .error (refl _)

end Pairing.Outcomes

section

variable {s s' : Discipline} {L : Likeness} {value : Value → Value → Prop} {e e' : Expr}
  {env env' : Environment} {σ τ : State}

/-- Where evaluations follow each other they run alike, in all that paired values share. -/
theorem Concordance.runsAlike (C : Concordance L) (hf : ∀ d, C.Follows (s.eval d) (s'.eval d))
    (hc : C.code e env e' env') (hs : C.States σ τ)
    (hv : ∀ d v w σ' τ', s.eval d e env σ = .ok v σ' → s'.eval d e' env' τ = .ok w τ' →
      C.value v w → value v w) :
    RunsAlike value L.error s e env σ s' e' env' τ where
  outcome limit allowance := by
    cases limit with
    | none =>
      rw [Interpreter.eval_unlimited, Interpreter.eval_unlimited]
      exact (hf allowance hc hs).alike_ofUnlimited (hv allowance)
    | some m =>
      rw [Interpreter.eval_limited, Interpreter.eval_limited]
      exact (hf m hc hs).alike_ofLimited L.refl (hv m) m
  ends := exists_evaluates_iff fun d => (hf d hc hs).ended_iff

theorem Correspondence.runsAlike (C : Correspondence s s' L) (hc : C.code e env e' env')
    (hs : C.States σ τ)
    (hv : ∀ d v w σ' τ', s.eval d e env σ = .ok v σ' → s'.eval d e' env' τ = .ok w τ' →
      C.value v w → value v w) :
    RunsAlike value L.error s e env σ s' e' env' τ :=
  C.toConcordance.runsAlike C.outcomes hc hs hv

end

/-! ### Cells in pairs -/

structure CellPairing where
  rel : Cell → Cell → Prop
  distinct : ∀ {c d c' d'}, rel c d → rel c' d' → (c = c' ↔ d = d')

def CellPairing.same : CellPairing where
  rel := Eq
  distinct := by
    rintro c _ c' _ rfl rfl
    rfl

/--
The cells of an environment are their own counterparts in a second heap, and the cells that come
next in the two heaps are paired in the order in which they come.
-/
inductive Counterpart (h h' : Heap) (env : Environment) : Cell → Cell → Prop
  | bound {x : Name} {c : Cell} : (x, c) ∈ env.bindings → Counterpart h h' env c c
  | next (n : Nat) : Counterpart h h' env ⟨h.cells.size + n⟩ ⟨h'.cells.size + n⟩

variable {h h' : Heap} {env : Environment}

theorem counterpart_distinct (hb : LiteralEnv h env) (hx : h'.Extends h) {c d c' d' : Cell}
    (hc : Counterpart h h' env c d) (hc' : Counterpart h h' env c' d') : c = c' ↔ d = d' := by
  have old : ∀ {x c}, (x, c) ∈ env.bindings → ∀ n,
      c ≠ ⟨h.cells.size + n⟩ ∧ c ≠ ⟨h'.cells.size + n⟩ := by
    intro x c hm n
    have hlt : c.address < h.cells.size := hb.holds hm
    have hle := hx.size_le
    constructor
    · rintro rfl
      exact absurd hlt (by simp)
    · rintro rfl
      exact absurd hlt (by simp only; omega)
  cases hc with
  | bound hm =>
    cases hc' with
    | bound _ => rfl
    | next n => exact iff_of_false (old hm n).1 (old hm n).2
  | next n =>
    cases hc' with
    | bound hm => exact iff_of_false (old hm n).1.symm (old hm n).2.symm
    | next m => simp

def CellPairing.next (hb : LiteralEnv h env) (hx : h'.Extends h) : CellPairing where
  rel := Counterpart h h' env
  distinct := counterpart_distinct hb hx

/-- In an environment of literals nothing depends on what a larger heap has come by meanwhile. -/
theorem Concordance.states_next {L : Likeness} {C : Concordance L} {σ τ : State}
    (hC : ∀ c d, C.cell c d ↔ Counterpart σ.heap τ.heap env c d)
    (hb : LiteralEnv σ.heap env) (hx : τ.heap.Extends σ.heap) (hn : C.names σ.names τ.names) :
    C.States σ τ := by
  have new : ∀ (h : Heap) (n : Nat), ¬h.Holds ⟨h.cells.size + n⟩ := by
    intro h n
    exact Nat.not_lt.2 (Nat.le_add_right _ _)
  refine ⟨hn, ?_, ?_, fun n => (hC _ _).2 (.next n)⟩
  · intro c d hc
    cases (hC c d).1 hc with
    | bound hm => exact iff_of_true (hb.holds hm) (hx c (hb.holds hm)).1
    | next n => exact iff_of_false (new _ n) (new _ n)
  · intro c d hc
    cases (hC c d).1 hc with
    | bound hm =>
      obtain ⟨l, hl, hr⟩ := hb _ hm
      rw [(hx c (hb.holds hm)).2, hr]
      exact C.literal hl
    | next n =>
      rw [Heap.read_of_not_holds (new _ n), Heap.read_of_not_holds (new _ n)]
      exact C.placeholder

end LetCalculus
