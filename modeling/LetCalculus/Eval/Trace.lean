import LetCalculus.Eval.Machine

/-!
# Traces

The configurations that a run of the machine passes through. A property that every step keeps
holds all along (`Leads.induction_on`), up to the configuration at which the run ends
(`exists_leads_final`). An evaluation that has a value leads to the configuration that returns it to
no frame (`leads_of_eval_ok`).
-/

namespace LetCalculus.Machine

/-- The machine comes from one configuration to another. -/
inductive Leads (s : Discipline) : Config → Config → Prop
  | refl (c : Config) : Leads s c c
  | head {c c' c'' : Config} : step s c = .inr c' → Leads s c' c'' → Leads s c c''

variable {s : Discipline} {c c' : Config}

theorem Leads.induction_on {P : Config → Prop} (h : Leads s c c')
    (keep : ∀ c c', P c → step s c = .inr c' → P c') (hc : P c) : P c' := by
  induction h with
  | refl => exact hc
  | head hs _ ih => exact ih (keep _ _ hc hs)

theorem exists_leads_final (s : Discipline) (c : Config) :
    ∃ c', Leads s c c' ∧ step s c' = .inl (runFrom s c) := by
  induction h : c.weight using Nat.strongRecOn generalizing c with
  | ind n ih =>
    cases hs : step s c with
    | inl r => exact ⟨c, .refl c, by rw [runFrom_eq, hs]⟩
    | inr c' =>
      obtain ⟨c'', hl, hf⟩ := ih c'.weight (h ▸ weight_step hs) c' rfl
      exact ⟨c'', .head hs hl, by rw [runFrom_eq, hs]; exact hf⟩

theorem eq_of_step_ok {v : Value} {σ : State} (h : step s c = .inl (.ok v σ)) :
    c = ⟨.ret v, [], σ⟩ := by
  obtain ⟨ctrl, k, σ₀⟩ := c
  match ctrl, k with
  | .eval 0 e env, k => simp [step] at h
  | .eval (d + 1) e env, k =>
    cases e with
    | var x => cases hf : σ₀.fetch env x <;> simp [step, stepEval, give, fail, hf] at h
    | letRec x v b => cases s <;> simp [step, stepEval] at h
    | _ => simp [step, stepEval, fail] at h
  | .ret w, [] =>
    simp only [step, Sum.inl.injEq, EStateM.Result.ok.injEq] at h
    rw [h.1, h.2]
  | .ret w, f :: k =>
    cases f with
    | unary op => cases hr : op.apply w <;> simp [step, stepRet, give, fail, hr] at h
    | binary op l => cases hr : op.apply l w <;> simp [step, stepRet, give, fail, hr] at h
    | branch y n env d => cases hw : w.truth? <;> simp [step, stepRet, fail, hw] at h
    | bind x body env d => cases s <;> simp [step, stepRet, enter] at h
    | argument arg env d => cases hw : s.callee? w env <;> simp [step, stepRet, fail, hw] at h
    | _ => simp [step, stepRet] at h

theorem leads_of_eval_ok {d : Nat} {e : Expr} {env : Environment} {σ σ' : State} {v : Value}
    (h : s.eval d e env σ = .ok v σ') : Leads s ⟨.eval d e env, [], σ⟩ ⟨.ret v, [], σ'⟩ := by
  obtain ⟨c, hl, hf⟩ := exists_leads_final s ⟨.eval d e env, [], σ⟩
  have hr : runFrom s ⟨.eval d e env, [], σ⟩ = .ok v σ' := by
    rw [← h, ← run_eq_eval]
    rfl
  rw [hr] at hf
  exact eq_of_step_ok hf ▸ hl

end LetCalculus.Machine
