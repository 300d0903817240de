import LetCalculus.Proofs.Names.Capacity
import LetCalculus.Proofs.Names.History

/-!
# The counter agrees with the depth that is handed down

Whether an evaluation has a value or fails, it leaves the counter as it found it. So a level that is
entered at depth `k` finds the counter at `k` whatever has been evaluated before, and the counter
says how much of the limit is used up (`Counts`). The rules keep this, and it follows for whole
evaluations by induction on the depth that remains (`counts_eval`). As long as the name table has
room for what it holds in the end, counting and handing down have the same outcome in the same
state; otherwise the evaluation that can be refused new names ends for want of room
(`Interpreter.evalCounting_eq`). So one interpreter evaluates a sequence as if each expression had
an interpreter of its own (`Interpreter.evalAllCounting_eq`).
-/

namespace LetCalculus

open NameTable Machine

namespace EvalM

variable {α β : Type} {limit : Option Nat} {k : Nat}

/-- How a computation ends that has come back to depth `k`. -/
def settle (limit : Option Nat) (k : Nat) :
    EStateM.Result Halt State α → EStateM.Result Stop Progress α
  | .ok a σ => .ok a ⟨k, σ⟩
  | .error (.failed x) σ => .error (.halted (.failed x)) ⟨k, σ⟩
  | .error .exhausted σ =>
    .error (.halted (limit.elim .exhausted fun m => .failed (.depthExceeded m))) ⟨k, σ⟩

/-- How a computation ends from a state, and how the one ends that counts from depth `k`. -/
structure EndsAlike (limit : Option Nat) (k : Nat) (σ : State) (r : EStateM.Result Halt State α)
    (r' : EStateM.Result Stop Progress α) : Prop where
  consistent : (endState r).names.Consistent
  size_le : σ.names.size ≤ (endState r).names.size
  eq : (endState r).names.size ≤ capacity → r' = settle limit k r
  full : σ.names.size ≤ capacity → capacity < (endState r).names.size →
    ∃ c, r' = .error (.full (.overflow capacity)) c

/-- At depth `k` the computation `q` does what `p` does, as far as the name table has room. -/
def Counts (limit : Option Nat) (k : Nat) (p : EvalM α) (q : CountM α) : Prop :=
  ∀ σ : State, σ.names.Consistent → EndsAlike limit k σ (p σ) (q ⟨k, σ⟩)

namespace Counts

theorem of_names_eq {p : EvalM α} {q : CountM α} (hn : ∀ σ, (endState (p σ)).names = σ.names)
    (he : ∀ σ, q ⟨k, σ⟩ = settle limit k (p σ)) : Counts limit k p q := by
  intro σ hσ
  refine ⟨by rwa [hn], Nat.le_of_eq (by rw [hn]), fun _ => he σ, ?_⟩
  intro hc hf
  rw [hn] at hf
  exact absurd hc (Nat.not_le.2 hf)

theorem pure (a : α) : Counts limit k (Pure.pure a) (Pure.pure a) :=
  of_names_eq (fun _ => rfl) fun _ => rfl

theorem lift {p : EvalM α} (hp : p.Primitive) :
    Counts limit k (Evaluation.lift p) (Evaluation.lift p) := by
  refine of_names_eq (fun σ => ?_) (fun σ => ?_)
  · rcases hp σ with ⟨a, heap, h⟩ | ⟨x, h⟩ <;> simp [Evaluation.lift, endState, h]
  · rcases hp σ with ⟨a, heap, h⟩ | ⟨x, h⟩ <;> simp [Evaluation.lift, settle, h]

theorem substitute (x : Name) (r e : Expr) :
    Counts limit k (Evaluation.substitute x r e) (Evaluation.substitute x r e) := by
  intro σ hσ
  have hle := (Expr.substituted_substitute x r e σ.names).extends.size_le
  refine ⟨Expr.consistent_substitute hσ x r e, hle, ?_, ?_⟩
  · intro hc
    have hs := (Expr.substitute?_eq hσ (Nat.le_trans hle hc) x r e).trans (if_pos hc)
    simp only [Evaluation.substitute, hs]
    rfl
  · intro hc hf
    have hs := (Expr.substitute?_eq hσ hc x r e).trans (if_neg (Nat.not_le.2 hf))
    simp only [Evaluation.substitute, hs]
    exact ⟨_, rfl⟩

theorem bind {p : EvalM α} {q : CountM α} {f : α → EvalM β} {g : α → CountM β}
    (h : Counts limit k p q) (hf : ∀ a, Counts limit k (f a) (g a)) :
    Counts limit k (p >>= f) (q >>= g) := by
  intro σ hσ
  have h := h σ hσ
  simp only [Bind.bind, EStateM.bind]
  generalize p σ = r at h ⊢
  generalize q ⟨k, σ⟩ = r' at h ⊢
  cases r with
  | error x σ₁ =>
    refine ⟨h.consistent, h.size_le, ?_, ?_⟩
    · intro hc
      rw [h.eq hc]
      cases x <;> rfl
    · intro hc hlt
      obtain ⟨c, h⟩ := h.full hc hlt
      exact ⟨c, by rw [h]⟩
  | ok a σ₁ =>
    have hf := hf a σ₁ h.consistent
    refine ⟨hf.consistent, Nat.le_trans h.size_le hf.size_le, ?_, ?_⟩
    · intro hc
      rw [h.eq (Nat.le_trans hf.size_le hc)]
      exact hf.eq hc
    · intro hc hlt
      -- There may have been no room in the first part, or only in the second one.
      by_cases hroom : σ₁.names.size ≤ capacity
      · rw [h.eq hroom]
        exact hf.full hroom hlt
      · obtain ⟨c, h⟩ := h.full hc (Nat.not_le.1 hroom)
        exact ⟨c, by rw [h]⟩

def congruence (limit : Option Nat) (k : Nat) : Congruence Unit EvalM CountM where
  rel p q := Counts limit k p (q ())
  pure := .pure
  lift := .lift
  substitute := .substitute
  bind := .bind

theorem below {p : EvalM α} {q : CountM α} (h : Counts limit (k + 1) p q)
    (hk : k < CountM.maxDepth) (hm : ∀ m ∈ limit, k < m) :
    Counts limit k p (CountM.below limit q) := by
  have hdepth : min (k + 1) CountM.maxDepth = k + 1 := Nat.min_eq_left hk
  have hroom : limit.filter (· < k + 1) = none := by
    rw [Option.filter_eq_none_iff]
    intro m hm'
    rw [decide_eq_true_eq, Nat.not_lt]
    exact hm m hm'
  intro σ hσ
  have h := h σ hσ
  refine ⟨h.consistent, h.size_le, ?_, ?_⟩
  · intro hc
    simp only [CountM.below, hdepth, hroom, h.eq hc]
    rcases p σ with ⟨a, σ₁⟩ | ⟨x | _, σ₁⟩ <;> rfl
  · intro hc hlt
    obtain ⟨c, h⟩ := h.full hc hlt
    simp only [CountM.below, hdepth, hroom, h]
    exact ⟨_, rfl⟩

end Counts

theorem below_limit (hk : k < CountM.maxDepth) (q : CountM α) (σ : State) :
    CountM.below (some k) q ⟨k, σ⟩ = .error (.halted (.failed (.depthExceeded k))) ⟨k, σ⟩ := by
  have hdepth : min (k + 1) CountM.maxDepth = k + 1 := Nat.min_eq_left hk
  simp [CountM.below, hdepth, Option.filter]

end EvalM

open EvalM

/-- Where the recursion is cut off if `d` levels remain below depth `k`. -/
def Cutoff (limit : Option Nat) (k d n : Nat) : Prop :=
  limit.elim (n = d) fun m => k + d = m ∧ d < n

/-- What the counter has used up of the limit and the depth that remains make up the limit. -/
theorem Discipline.counts_eval {s : Discipline} {limit : Option Nat} {k d n : Nat}
    (hn : Cutoff limit k d n) (hk : k + d < CountM.maxDepth) (e : Expr) (env : Environment) :
    Counts limit k (s.eval d e env) (s.evalCounting limit n e env) := by
  induction d generalizing k n e env with
  | zero =>
    refine .of_names_eq (fun _ => rfl) (fun σ => ?_)
    cases limit with
    | none =>
      obtain rfl : n = 0 := hn
      rfl
    | some m =>
      obtain ⟨rfl, hn⟩ : k = m ∧ 0 < n := hn
      obtain ⟨n, rfl⟩ := Nat.exists_eq_succ_of_ne_zero (Nat.ne_of_gt hn)
      exact below_limit hk _ σ
  | succ d ih =>
    have hk : k + 1 + d < CountM.maxDepth := by omega
    have hlimit : ∀ m ∈ limit, k < m := by
      rintro m rfl
      have hm : k + (d + 1) = m := hn.1
      omega
    obtain ⟨n, rfl, hcut⟩ : ∃ n', n = n' + 1 ∧ Cutoff limit (k + 1) d n' := by
      cases limit with
      | none => exact ⟨d, hn, rfl⟩
      | some m =>
        obtain ⟨hm, hn⟩ : k + (d + 1) = m ∧ d + 1 < n := hn
        exact ⟨n - 1, by omega, show k + 1 + d = m ∧ d < n - 1 by omega⟩
    refine Counts.below ?_ (by omega) hlimit
    exact @evalNode_congr s Unit EvalM CountM _ _ (s.eval d) (fun _ => s.evalCounting limit n)
      (Counts.congruence limit (k + 1)) (ih hcut hk) e env

namespace Interpreter

/--
Whatever its counter says before, an interpreter that counts has the same outcome in the same state
as one that hands the depth down, and its counter is back at zero, if the name table that is left
has room for all its texts. Otherwise it comes to the point where there is no room for a new one.
-/
theorem evalCounting_eq (i : Interpreter) {a : Nat} (ha : i.maxDepth.getD a < CountM.maxDepth)
    (e : Expr) (env : Environment) {σ : State} (hσ : σ.names.Consistent)
    (hc : σ.names.size ≤ capacity) (depth : Nat) :
    ((i.eval a e env σ).2.names.size ≤ capacity →
      i.evalCounting a e env ⟨depth, σ⟩ =
        (.ok (i.eval a e env σ).1,
          ⟨if i.strategy = .trivial then depth else 0, (i.eval a e env σ).2⟩)) ∧
    (capacity < (i.eval a e env σ).2.names.size →
      (i.evalCounting a e env ⟨depth, σ⟩).1 = .error (.overflow capacity)) := by
  obtain ⟨strategy, limit⟩ := i
  cases strategy with
  | trivial => exact ⟨fun _ => rfl, fun hfull => absurd hc (Nat.not_le.2 hfull)⟩
  | reducing s =>
    have hcut : Cutoff limit 0 (limit.getD a) (limit.elim a (· + 1)) := by
      cases limit with
      | none => rfl
      | some m => exact ⟨Nat.zero_add m, Nat.lt_succ_self m⟩
    have h := s.counts_eval hcut (by rwa [Nat.zero_add]) e env σ hσ
    rw [state_eval]
    constructor
    · intro hroom
      simp only [evalCounting, h.eq hroom]
      cases limit with
      | none =>
        rw [eval_unlimited, Option.getD_none]
        rcases s.eval a e env σ with ⟨v, τ⟩ | ⟨x | _, τ⟩ <;> rfl
      | some m =>
        rw [eval_limited, Option.getD_some]
        rcases s.eval m e env σ with ⟨v, τ⟩ | ⟨x | _, τ⟩ <;> rfl
    · intro hfull
      obtain ⟨c, h⟩ := h.full hc hfull
      simp only [evalCounting, h]

/-- Evaluate expressions one after the other by one interpreter, which keeps its counter. -/
def evalAllCounting (i : Interpreter) (allowance : Nat) (env : Environment) :
    List Expr → Progress → Except InternError (List Outcome) × Progress
  | [], c => (.ok [], c)
  | e :: es, c =>
    match i.evalCounting allowance e env c with
    | (.error err, c) => (.error err, c)
    | (.ok o, c) =>
      let r := evalAllCounting i allowance env es c
      (r.1.map (o :: ·), r.2)

theorem since_evaluate (i : Interpreter) (a : Nat) (e : Expr) (env : Environment) {σ : State}
    (hσ : σ.names.Consistent) : Since .substitution σ.names (i.eval a e env σ).2.names :=
  hσ.since_answer (.evaluate i a e env σ.heap)

theorem size_le_evalAll (i : Interpreter) (a : Nat) (env : Environment) (es : List Expr) {σ : State}
    (hσ : σ.names.Consistent) : σ.names.size ≤ (i.evalAll a env es σ).2.names.size := by
  induction es generalizing σ with
  | nil => exact Nat.le_refl _
  | cons e es ih =>
    have hs := i.since_evaluate a e env hσ
    exact Nat.le_trans hs.known.size_le (ih hs.consistent)

/-- What one evaluation leaves in the counter makes no difference to the next one. -/
theorem evalAllCounting_eq (i : Interpreter) {a : Nat}
    (ha : i.maxDepth.getD a < CountM.maxDepth) (env : Environment) (es : List Expr) {σ : State}
    (hσ : σ.names.Consistent) (hc : (i.evalAll a env es σ).2.names.size ≤ capacity)
    (depth : Nat) :
    ∃ depth', i.evalAllCounting a env es ⟨depth, σ⟩ =
      (.ok (i.evalAll a env es σ).1, ⟨depth', (i.evalAll a env es σ).2⟩) := by
  induction es generalizing σ depth with
  | nil => exact ⟨depth, rfl⟩
  | cons e es ih =>
    have hs := i.since_evaluate a e env hσ
    have hroom := Nat.le_trans (i.size_le_evalAll a env es hs.consistent) hc
    have he := (i.evalCounting_eq ha e env hσ (Nat.le_trans hs.known.size_le hroom) depth).1 hroom
    obtain ⟨depth', ih⟩ := ih hs.consistent hc (if i.strategy = .trivial then depth else 0)
    refine ⟨depth', ?_⟩
    rw [evalAllCounting, he]
    simp only [ih]
    rfl

end Interpreter

end LetCalculus
