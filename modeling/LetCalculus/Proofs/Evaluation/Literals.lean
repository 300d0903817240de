import LetCalculus.Eval.Basic

/-!
# Literals

Numbers and truth values are values already. Evaluation leaves them as they are, under every
discipline and at every depth but zero.
-/

namespace LetCalculus

def Expr.isLiteral : Expr → Bool
  | int _ | float _ | bool _ => true
  | _ => false

def LiteralEnv (h : Heap) (env : Environment) : Prop :=
  ∀ b ∈ env.bindings, ∃ l : Expr, l.isLiteral = true ∧ h.read b.2 = .plain l

variable {l : Expr}

theorem Value.isUnassigned_of_isLiteral (hl : l.isLiteral = true) :
    (Value.plain l).isUnassigned = false := by
  cases l with
  | int n | float a | bool b => rfl
  | _ => cases hl

theorem Value.ne_unassigned_of_isLiteral (hl : l.isLiteral = true) :
    Value.plain l ≠ .unassigned := by
  rintro ⟨⟩
  cases hl

theorem LiteralEnv.holds {h : Heap} {env : Environment} (he : LiteralEnv h env)
    {b : Name × Cell} (hb : b ∈ env.bindings) : h.Holds b.2 := by
  obtain ⟨l, hl, hr⟩ := he b hb
  by_cases hold : h.Holds b.2
  · exact hold
  · rw [Heap.read_of_not_holds hold] at hr
    exact absurd hr.symm (Value.ne_unassigned_of_isLiteral hl)

theorem Discipline.callee?_of_isLiteral {s : Discipline} {env : Environment}
    (hl : l.isLiteral = true ∨ l = .unassigned) : s.callee? (.plain l) env = none := by
  rcases hl with hl | rfl
  · cases l with
    | int n | float a | bool b => cases s <;> rfl
    | _ => cases hl
  · cases s <;> rfl

theorem Discipline.eval_of_isLiteral (s : Discipline) (hl : l.isLiteral = true) (d : Nat)
    (env : Environment) (σ : State) : s.eval (d + 1) l env σ = .ok (.plain l) σ := by
  cases l with
  | int n | float a | bool b => rfl
  | _ => cases hl

end LetCalculus
