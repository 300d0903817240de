import LetCalculus.Eval.Trace
import LetCalculus.Proofs.Evaluation.Operators

/-!
# Where failures come from

An evaluation fails at one configuration of its run, and nothing that waits on the stack has a
say in it. `Fails` lists these configurations with their errors. None of them is about depth: how
deep an evaluation may go is not a matter of the rules.
-/

namespace LetCalculus.Machine

inductive Fails (s : Discipline) : Config → EvalError → Prop
  | var {d x env k σ err} : State.fetch σ env x = .error err →
    Fails s ⟨.eval (d + 1) (.var x) env, k, σ⟩ err
  | raise {d env k σ} : Fails s ⟨.eval (d + 1) .raise env, k, σ⟩ .raised
  | unassigned {d env k σ} : Fails s ⟨.eval (d + 1) .unassigned env, k, σ⟩ .unassigned
  | unary {op v k σ err} : UnaryOp.apply op v = .error err → Fails s ⟨.ret v, .unary op :: k, σ⟩ err
  | binary {op left v k σ err} : BinaryOp.apply op left v = .error err →
    Fails s ⟨.ret v, .binary op left :: k, σ⟩ err
  | guard {yes no env d v k σ} : Value.truth? v = none →
    Fails s ⟨.ret v, .branch yes no env d :: k, σ⟩
      (.typeMismatch "conditional guard" v.typeName)
  | callee {arg env d v k σ} : s.callee? v env = none →
    Fails s ⟨.ret v, .argument arg env d :: k, σ⟩ (.notAFunction (v.render σ.names))

variable {s : Discipline} {c : Config} {x : EvalError} {σ σ' : State} {k : List Frame}

theorem eq_of_fail {e : EvalError} (h : fail e σ = .inl (.error (.failed x) σ')) : x = e := by
  simp only [fail, Sum.inl.injEq, EStateM.Result.error.injEq, Halt.failed.injEq] at h
  exact h.1.symm

theorem eq_error_of_give {r : Except EvalError Value}
    (h : give k σ r = .inl (.error (.failed x) σ')) : r = .error x := by
  cases r with
  | ok v => simp [give] at h
  | error e => rw [eq_of_fail h]

theorem fails_of_stepEval {d : Nat} {e : Expr} {env : Environment}
    (h : stepEval s d e env k σ = .inl (.error (.failed x) σ')) :
    Fails s ⟨.eval (d + 1) e env, k, σ⟩ x := by
  cases e with
  | var y => exact .var (eq_error_of_give h)
  | raise =>
    rw [eq_of_fail h]
    exact .raise
  | unassigned =>
    rw [eq_of_fail h]
    exact .unassigned
  | letRec y v b => cases s <;> simp [stepEval] at h
  | _ => simp [stepEval] at h

theorem fails_of_stepRet {v : Value} {f : Frame}
    (h : stepRet s v f k σ = .inl (.error (.failed x) σ')) : Fails s ⟨.ret v, f :: k, σ⟩ x := by
  cases f with
  | unary op => exact .unary (eq_error_of_give h)
  | binary op left => exact .binary (eq_error_of_give h)
  | branch yes no env d =>
    simp only [stepRet] at h
    split at h
    · simp at h
    · next hv =>
      rw [eq_of_fail h]
      exact .guard hv
  | argument arg env d =>
    simp only [stepRet] at h
    split at h
    · simp at h
    · next hv =>
      rw [eq_of_fail h]
      exact .callee hv
  | bind y body env d => cases s <;> simp [stepRet, enter] at h
  | _ => simp [stepRet] at h

theorem fails_of_step (h : step s c = .inl (.error (.failed x) σ)) : Fails s c x := by
  obtain ⟨ctrl, k, σ₀⟩ := c
  match ctrl, k with
  | .eval 0 e env, k => simp [step] at h
  | .eval (d + 1) e env, k => exact fails_of_stepEval h
  | .ret v, [] => simp [step] at h
  | .ret v, f :: k => exact fails_of_stepRet h

theorem exists_fails_of_eval {d : Nat} {e : Expr} {env : Environment}
    (h : s.eval d e env σ = .error (.failed x) σ') :
    ∃ c, Leads s ⟨.eval d e env, [], σ⟩ c ∧ Fails s c x := by
  obtain ⟨c, hl, hf⟩ := exists_leads_final s ⟨.eval d e env, [], σ⟩
  have hr : runFrom s ⟨.eval d e env, [], σ⟩ = .error (.failed x) σ' := by
    rw [← h, ← run_eq_eval]
    rfl
  exact ⟨c, hl, fails_of_step (hf.trans (by rw [hr]))⟩

theorem Fails.ne_depthExceeded (h : Fails s c x) (n : Nat) : x ≠ .depthExceeded n := by
  rintro rfl
  cases h with
  | @var d y env k σ err hf =>
    unfold State.fetch at hf
    split at hf
    · simp at hf
    · split at hf <;> simp at hf
  | @unary op v k σ err hf =>
    have := op.operatorResult_apply v
    rw [hf] at this
    exact Bool.noConfusion this
  | @binary op left v k σ err hf =>
    have := op.operatorResult_apply left v
    rw [hf] at this
    exact Bool.noConfusion this

theorem Fails.unboundVariable {t : String} (h : Fails s c (.unboundVariable t)) :
    ∃ d y env, c.control = .eval (d + 1) (.var y) env ∧ y ∉ env.names := by
  generalize hx : EvalError.unboundVariable t = x at h
  cases h with
  | @var d y env k σ err hf =>
    refine ⟨d, y, env, rfl, ?_⟩
    rw [← Environment.cell?_eq_none_iff]
    subst hx
    unfold State.fetch Heap.lookup? at hf
    cases hy : env.cell? y with
    | none => rfl
    | some c =>
      simp only [hy, Option.map_some] at hf
      split at hf <;> cases hf
  | @unary op v k σ err hf =>
    have hr := op.operatorResult_apply v
    rw [hf, ← hx] at hr
    cases hr
  | @binary op left v k σ err hf =>
    have hr := op.operatorResult_apply left v
    rw [hf, ← hx] at hr
    cases hr
  | _ => cases hx

end LetCalculus.Machine
