import LetCalculus.Proofs.Agreement.Renaming
import LetCalculus.Proofs.Evaluation.Frame

/-!
# Evaluations one after the other

An evaluation leaves everything as it was that was there before it. The only cells that it writes
are those of its own recursive definitions, each of them once, as long as it has no value
(`Machine.AssignsOnce`). So it makes no difference to an evaluation in an environment of literals
which others have been there before: all that they have left are new cells, and new names under
substitution. In a sequence of evaluations each has the outcome that it has alone
(`Interpreter.eval_isolated`).
-/

namespace LetCalculus

open LetCalculus.Expr

/-! ### Writing once -/

namespace Machine

/--
A step of a run assigns its value to a recursive definition. The cell came with the definition in
the same run, has had no value yet, and will not be written again.
-/
structure AssignsOnce (s : Discipline) (start c c' : Config) (p : Cell) (v : Value) : Prop where
  backpatches : Backpatches c c' p v
  declared : ∃ d, Leads s start d ∧ Leads s d c ∧ Declares d p
  new : ¬start.state.heap.Holds p
  waiting : c.state.heap.Holds p ∧ c.state.heap.read p = .unassigned
  assigned : v ≠ .unassigned
  once : ∀ k k' q w, Leads s c' k → Backpatches k k' q w → q ≠ p

/-- Every step of a run leaves all cells as they are, or assigns a value where there was none. -/
theorem extends_or_assignsOnce {s : Discipline} {d : Nat} {e : Expr} {env : Environment}
    {σ : State} {c c' : Config} (hl : Leads s ⟨.eval d e env, [], σ⟩ c) (hs : step s c = .inr c') :
    c'.state.heap.Extends c.state.heap ∨
      ∃ p v, AssignsOnce s ⟨.eval d e env, [], σ⟩ c c' p v := by
  rcases (touches_of_step hs).extends_or_backpatches with hx | ⟨p, v, hb⟩
  · exact .inl hx
  · have hu₀ : Undisturbed σ.heap ⟨.eval d e env, [], σ⟩ := .start rfl
    have hu := hu₀.leads hl
    obtain ⟨hn, hold⟩ := hu.waiting p hb.mem_pending
    have hv := returned_ne_unassigned hl hb.returned
    refine .inr ⟨p, v, hb, ?_, hn, hold, hv, ?_⟩
    · rcases hl.declares hb.mem_pending with hp | hd
      · exact absurd hp List.not_mem_nil
      · exact hd
    · intro k k' q w hk hw
      exact hu.ne_of_backpatches hb hv hk hw

end Machine

/-! ### Evaluating again -/

variable {s : Discipline} {e : Expr} {env : Environment} {σ τ : State}

theorem SameCode.sameUpToNames {cell : Cell → Cell → Prop} {v w : Value} (h : SameCode s cell v w)
    (hv : v.Finished s) : v.SameUpToNames w := by
  cases h with
  | plain e =>
    rcases Value.finished_plain_iff.1 hv with hl | ⟨-, x, b, rfl⟩
    · exact .literal hl
    · exact .function rfl
  | closure _ => exact .closure _ _ _ _

namespace Rerun

def sameCode (hs : s ≠ .substitution) (e : Expr) (hb : LiteralEnv σ.heap env)
    (hx : τ.heap.Extends σ.heap) (hσ : σ.names.Consistent) (hn : Since s σ.names τ.names) :
    Rerun s e e env σ τ where
  toCorrespondence := Correspondence.sameCode hs (CellPairing.next hb hx) σ.names
  start := by
    refine ⟨rfl, ?_⟩
    intro x _
    exact .of_cell?_eq rfl fun c hc => .bound (Environment.mem_of_cell? hc)
  states := Concordance.states_next (fun _ _ => .rfl) hb hx ⟨rfl, hn.kept hs⟩
  result := SameCode.sameUpToNames
  since := by
    rintro _ _ ⟨-, rfl⟩
    exact .refl s hσ

def again (hk : ∀ x, FreeIn x e → σ.names.knows x = true) (hb : LiteralEnv σ.heap env)
    (hx : τ.heap.Extends σ.heap) (hσ : σ.names.Consistent) (hn : Since s σ.names τ.names) :
    Rerun s e e env σ τ :=
  if hs : s = .substitution then upToNames (by simp [hs]) rfl hk hb hx hσ hn
  else sameCode hs e hb hx hσ hn

end Rerun

theorem Pairing.Outcomes.names_endState {P : Pairing} {error : EvalError → EvalError → Prop}
    {r r' : Machine.Final} (h : P.Outcomes error r r') :
    P.names (Machine.endState r).names (Machine.endState r').names := by
  cases h with
  | value _ hs => exact hs.names
  | error _ hn | exhausted hn => exact hn

namespace Interpreter

/-- Evaluate expressions one after the other, each in the state that the last one has left. -/
def evalAll (i : Interpreter) (allowance : Nat) (env : Environment) :
    List Expr → State → List Outcome × State
  | [], σ => ([], σ)
  | e :: es, σ =>
    let r := i.eval allowance e env σ
    let rs := evalAll i allowance env es r.2
    (r.1 :: rs.1, rs.2)

theorem since_eval (R : Rerun s e e env σ τ) (limit : Option Nat) (a : Nat) :
    Since s σ.names (eval ⟨.reducing s, limit⟩ a e env τ).2.names := by
  rw [state_eval]
  exact R.since (R.outcomes (limit.getD a) R.start R.states).names_endState

/-- In a state that other evaluations have left, each of a sequence has the outcome it has alone. -/
theorem alike_evalAll (hσ : σ.names.Consistent) (hb : LiteralEnv σ.heap env) (limit : Option Nat)
    (a : Nat) {es : List Expr} (hk : ∀ e ∈ es, ∀ x, FreeIn x e → σ.names.knows x = true)
    (hx : τ.heap.Extends σ.heap) (hn : Since s σ.names τ.names) :
    List.Forall₂ (fun e o =>
        Outcome.Alike Value.SameUpToNames Eq (eval ⟨.reducing s, limit⟩ a e env σ).1 o)
      es (evalAll ⟨.reducing s, limit⟩ a env es τ).1 := by
  -- The state that the first one leaves has again only grown since `σ`.
  induction es generalizing τ with
  | nil => exact .nil
  | cons e es ih =>
    obtain ⟨he, hk⟩ := List.forall_mem_cons.1 hk
    have R : Rerun s e e env σ τ := .again he hb hx hσ hn
    refine .cons ((R.runsAlike hb).outcome limit a) ?_
    exact ih hk ((extends_eval _ a e env τ).trans hx) (since_eval R limit a)

/--
No evaluation disturbs what was there before it. The only cells that it writes are those of its own
recursive definitions, each once; cells keep their contents and environments their bindings, up to
what can be seen through closures, whether the evaluation succeeds or not. So in an environment of
literals whose names are known each evaluation of a sequence has the outcome that it has alone.
-/
theorem eval_isolated (i : Interpreter) (a : Nat) (env : Environment) (σ : State) :
    (∀ s d e c c', Machine.Leads s ⟨.eval d e env, [], σ⟩ c → Machine.step s c = .inr c' →
      c'.state.heap.Extends c.state.heap ∨
        ∃ p v, Machine.AssignsOnce s ⟨.eval d e env, [], σ⟩ c c' p v) ∧
    (∀ e, (i.eval a e env σ).2.heap.Extends σ.heap ∧
      ∀ env', (∀ c, σ.heap.Reaches env' c → σ.heap.Holds c) →
        (∀ x, (i.eval a e env σ).2.heap.lookup? env' x = σ.heap.lookup? env' x) ∧
          ∀ c, (i.eval a e env σ).2.heap.Reaches env' c ↔ σ.heap.Reaches env' c) ∧
    ∀ s es, i.strategy = .reducing s → σ.names.Consistent → LiteralEnv σ.heap env →
      (∀ e ∈ es, ∀ x, FreeIn x e → σ.names.knows x = true) →
      List.Forall₂ (fun e o => Outcome.Alike Value.SameUpToNames Eq (i.eval a e env σ).1 o)
        es (i.evalAll a env es σ).1 := by
  refine ⟨?_, ?_, ?_⟩
  · intro s d e c c' hl hs
    exact Machine.extends_or_assignsOnce hl hs
  · intro e
    have hx := extends_eval i a e env σ
    refine ⟨hx, ?_⟩
    intro env' he
    exact ⟨hx.lookup?_eq he, fun c => hx.reaches_iff he⟩
  · intro s es hs hσ hb hk
    obtain ⟨strategy, limit⟩ := i
    obtain rfl : strategy = .reducing s := hs
    exact alike_evalAll hσ hb limit a hk (.refl _) (.refl s hσ)

/--
The first definition asks for its own value and fails, and its cell remains without one. The
function that is defined after it by the same name is none the worse for it.
-/
theorem eval_isolated_letRec :
    let names := ["x", "f", "n"].foldl (fun t s => (t.intern s).2) NameTable.initial
    let x : Name := ⟨13⟩
    let f : Name := ⟨14⟩
    let n : Name := ⟨15⟩
    let es : List Expr := [.letRec f (.var f) (.var f), .letRec f (.fn n (.var x)) (.var f)]
    let env : Environment := ⟨0, [(x, ⟨0⟩)]⟩
    let σ : State := ⟨names, ⟨#[.plain (.int 5)], 1⟩⟩
    let i : Interpreter := ⟨.reducing .lexical, some 3⟩
    List.Forall₂ (fun e o => Outcome.Alike Value.SameUpToNames Eq (i.eval 0 e env σ).1 o)
        es (i.evalAll 0 env es σ).1 ∧
      ∀ x, (i.evalAll 0 env [.letRec f (.var f) (.var f)] σ).2.heap.lookup? env x =
        σ.heap.lookup? env x := by
  intro names x f n es env σ i
  have hb : LiteralEnv σ.heap env := by
    intro b hb
    rw [List.mem_singleton.1 hb]
    exact ⟨.int 5, rfl, rfl⟩
  have hk : ∀ e ∈ es, ∀ y, FreeIn y e → σ.names.knows y = true := by
    intro e he y hy
    have hy : y = x := by
      simp only [es, List.mem_cons, List.not_mem_nil, or_false] at he
      rcases he with rfl | rfl <;> simp only [FreeIn] at hy <;> grind
    subst hy
    decide +kernel
  have seen : ∀ c, σ.heap.Reaches env c → σ.heap.Holds c := by
    intro c hc
    have h₀ : c = ⟨0⟩ := by
      induction hc with
      | bound hx => exact (Prod.mk.inj (List.mem_singleton.1 hx)).2
      | captured _ hr _ ih =>
        subst ih
        cases hr
    rw [h₀]
    exact Nat.lt_add_one 0
  obtain ⟨-, hold, halike⟩ := eval_isolated i 0 env σ
  exact ⟨halike .lexical es rfl (NameTable.consistent_initial.foldl_intern _) hb hk,
    ((hold _).2 env seen).1⟩

end Interpreter

end LetCalculus
