import LetCalculus.Eval.Depth

/-!
# Evaluation without a limit

Without a limit an evaluation goes as deep as it has to. `Evaluates` says what it comes to and
never speaks of a depth: it is the least relation that contains what the rules for a node give
over any evaluator of the parts whose own outcomes it contains. An expression that it relates to
nothing has no end to its evaluation.

Every outcome is the outcome at some depth, because the rules for a node ask for finitely many
evaluations and the greatest of their depths is enough for all of them (`evaluates_iff_finishes`).
-/

namespace LetCalculus

namespace EvalM

variable {α β : Type}

/-- Wherever `m` is not exhausted, `f` does the same from some depth on. -/
def Attains (m : EvalM α) (f : Nat → EvalM α) : Prop :=
  ∀ σ, (∃ σ', m σ = .error .exhausted σ') ∨ ∃ d, ∀ d' ≥ d, f d' σ = m σ

theorem Attains.const (m : EvalM α) : Attains m fun _ => m := fun _ => .inr ⟨0, fun _ _ => rfl⟩

theorem Attains.bind {m : EvalM α} {m' : Nat → EvalM α} {f : α → EvalM β}
    {f' : Nat → α → EvalM β} (h : Attains m m') (hf : ∀ a, Attains (f a) fun d => f' d a) :
    Attains (m >>= f) fun d => m' d >>= f' d := by
  intro σ
  simp only [Bind.bind, EStateM.bind]
  rcases h σ with ⟨σ', h⟩ | ⟨d₁, h₁⟩
  · exact .inl ⟨σ', by rw [h]⟩
  cases hm : m σ with
  | error e σ₁ =>
    refine .inr ⟨d₁, ?_⟩
    intro d hd
    rw [h₁ d hd, hm]
  | ok a σ₁ =>
    rcases hf a σ₁ with he | ⟨d₂, h₂⟩
    · exact .inl he
    · refine .inr ⟨max d₁ d₂, ?_⟩
      intro d hd
      rw [h₁ d (Nat.le_trans (Nat.le_max_left _ _) hd), hm]
      exact h₂ d (Nat.le_trans (Nat.le_max_right _ _) hd)

def Attains.congruence : Congruence Nat EvalM EvalM where
  rel := Attains
  pure _ := .const _
  lift _ := .const _
  substitute _ _ _ := .const _
  bind := .bind

end EvalM

namespace Discipline

open EvalM

variable {s : Discipline} {e : Expr} {env : Environment} {σ : State} {r r' : Machine.Final}

/-- What an evaluation without a limit comes to. -/
inductive Evaluates (s : Discipline) : Expr → Environment → State → Machine.Final → Prop
  | node (recur : Expr → Environment → EvalM Value) (e : Expr) (env : Environment) (σ : State) :
    (∀ e env σ, Ended (recur e env σ) → Evaluates s e env σ (recur e env σ)) →
    Ended (s.evalNode recur e env σ) → Evaluates s e env σ (s.evalNode recur e env σ)

theorem ended_or_exhausted (r : Machine.Final) : Ended r ∨ ∃ σ, r = .error .exhausted σ := by
  rcases r with ⟨v, σ⟩ | ⟨h, σ⟩
  · exact .inl trivial
  · cases h with
    | failed x => exact .inl trivial
    | exhausted => exact .inr ⟨σ, rfl⟩

theorem evaluates_eval {d : Nat} (h : Ended (s.eval d e env σ)) :
    s.Evaluates e env σ (s.eval d e env σ) := by
  induction d generalizing e env σ with
  | zero => exact h.elim
  | succ d ih => exact .node (s.eval d) e env σ (fun _ _ _ => ih) h

theorem Evaluates.finishes (h : s.Evaluates e env σ r) : s.Finishes e env σ r := by
  induction h with
  | node recur e env σ _ hr ih =>
    have attained : ∀ e env, Attains (recur e env) fun d => s.eval d e env := by
      intro e env σ
      rcases ended_or_exhausted (recur e env σ) with hn | hx
      · obtain ⟨-, d, hd⟩ := ih e env σ hn
        refine .inr ⟨d, ?_⟩
        intro d' hd'
        rw [← hd]
        exact eval_of_le hd' (hd ▸ hn)
      · exact .inl hx
    rcases evalNode_congr Attains.congruence attained e env σ with ⟨σ', hx⟩ | ⟨d, hd⟩
    · rw [hx] at hr
      exact hr.elim
    · exact ⟨hr, d + 1, hd d (Nat.le_refl d)⟩

/-- Evaluation without a limit is evaluation at a depth that suffices. -/
theorem evaluates_iff_finishes : s.Evaluates e env σ r ↔ s.Finishes e env σ r := by
  constructor
  · exact Evaluates.finishes
  · rintro ⟨hr, d, rfl⟩
    exact evaluates_eval hr

theorem Evaluates.ended (h : s.Evaluates e env σ r) : Ended r := h.finishes.1

theorem Evaluates.unique (h : s.Evaluates e env σ r) (h' : s.Evaluates e env σ r') : r = r' :=
  h.finishes.unique h'.finishes

theorem exists_evaluates_iff {s' : Discipline} {e' : Expr} {env' : Environment} {τ : State}
    (h : ∀ d, Ended (s.eval d e env σ) ↔ Ended (s'.eval d e' env' τ)) :
    (∃ r, s.Evaluates e env σ r) ↔ ∃ r, s'.Evaluates e' env' τ r := by
  constructor
  · rintro ⟨r, hr⟩
    obtain ⟨hr, d, rfl⟩ := hr.finishes
    exact ⟨_, evaluates_eval ((h d).1 hr)⟩
  · rintro ⟨r, hr⟩
    obtain ⟨hr, d, rfl⟩ := hr.finishes
    exact ⟨_, evaluates_eval ((h d).2 hr)⟩

theorem exhausted_of_not_evaluates (h : ¬∃ r, s.Evaluates e env σ r) (d : Nat) :
    ∃ σ', s.eval d e env σ = .error .exhausted σ' := by
  rcases ended_or_exhausted (s.eval d e env σ) with hr | hx
  · exact absurd ⟨_, evaluates_eval hr⟩ h
  · exact hx

end Discipline

end LetCalculus
