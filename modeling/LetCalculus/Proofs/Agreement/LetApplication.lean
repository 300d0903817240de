import LetCalculus.Proofs.Agreement.Rewriting

/-!
# Definitions as applications

`let x = v in b` does what `(fun x -> b) v` does: it evaluates `v` one level below, and then `b`
with the value for `x`. To evaluate the function literal changes nothing and takes no depth that
`v` would not take as well. So all definitions of an expression that are not recursive may be
written as applications at once, under every discipline, without a change to what comes of it or
to the depth at which it is exhausted (`Discipline.runsAlike_letsApplied`).

Under substitution the two texts differ in the order in which binders are met, hence in the fresh
names that these are given. So they are compared in nameless form, in which rewriting commutes with
opening a binder (`Nameless.letsApplied_opened`).
-/

namespace LetCalculus

open LetCalculus.Expr

/-- Write every definition that is not recursive as the application of a function literal. -/
def Expr.letsApplied : Expr → Expr
  | var x => var x
  | int n => int n
  | float a => float a
  | bool b => bool b
  | raise => raise
  | unassigned => unassigned
  | unary op e => unary op e.letsApplied
  | binary op l r => binary op l.letsApplied r.letsApplied
  | cond c y n => cond c.letsApplied y.letsApplied n.letsApplied
  | fn x b => fn x b.letsApplied
  | letIn x v b => app (fn x b.letsApplied) v.letsApplied
  | letRec x v b => letRec x v.letsApplied b.letsApplied
  | app f a => app f.letsApplied a.letsApplied

def Nameless.letsApplied : Nameless → Nameless
  | bound i => bound i
  | free x => free x
  | int n => int n
  | float a => float a
  | bool b => bool b
  | raise => raise
  | unassigned => unassigned
  | unary op e => unary op e.letsApplied
  | binary op l r => binary op l.letsApplied r.letsApplied
  | cond c y n => cond c.letsApplied y.letsApplied n.letsApplied
  | fn b => fn b.letsApplied
  | letIn v b => app (fn b.letsApplied) v.letsApplied
  | letRec v b => letRec v.letsApplied b.letsApplied
  | app f a => app f.letsApplied a.letsApplied

namespace Expr

/-! ### Text -/

theorem freeIn_letsApplied {x : Name} {e : Expr} : FreeIn x e.letsApplied ↔ FreeIn x e := by
  induction e <;> grind [letsApplied, FreeIn]

theorem namelessIn_letsApplied (scope : List Name) (e : Expr) :
    e.letsApplied.namelessIn scope = (e.namelessIn scope).letsApplied := by
  induction e generalizing scope with
  | var x =>
    rw [letsApplied, namelessIn]
    rcases resolve_eq_free_or_bound scope x with hx | ⟨i, hx⟩ <;> rw [hx] <;> rfl
  | _ => simp [letsApplied, namelessIn, Nameless.letsApplied, *]

end Expr

theorem Nameless.letsApplied_opened (k : Nat) (n m : Nameless) :
    (Nameless.opened k n m).letsApplied = Nameless.opened k n.letsApplied m.letsApplied := by
  induction m generalizing k with
  | bound i =>
    rw [opened, letsApplied, opened]
    split <;> rfl
  | _ => simp [letsApplied, opened, *]

/-- Up to the names of binders a text may be rewritten before or after a substitution. -/
theorem Expr.nameless_letsApplied_substitute {t : NameTable} (ht : t.Consistent) (x : Name)
    (r e : Expr) : (substitute x r e t).1.letsApplied.nameless =
      (substitute x r.letsApplied e.letsApplied t).1.nameless := by
  have hr : r.letsApplied.nameless = r.nameless.letsApplied := namelessIn_letsApplied [] r
  calc (substitute x r e t).1.letsApplied.nameless
      = (substitute x r e t).1.nameless.letsApplied := namelessIn_letsApplied [] _
    _ = Nameless.opened 0 r.nameless.letsApplied (e.namelessIn [x]).letsApplied := by
      rw [nameless_substitute_eq_opened ht, Nameless.letsApplied_opened]
    _ = (substitute x r.letsApplied e.letsApplied t).1.nameless := by
      rw [nameless_substitute_eq_opened ht, namelessIn_letsApplied, hr]

/-! ### Evaluation -/

def Expr.letApplied : Expr → Expr
  | letIn x v b => app (fn x b) v
  | e => e

theorem Discipline.eval_letIn (s : Discipline) (d : Nat) (x : Name) (v b : Expr)
    (env : Environment) : s.eval d (.letIn x v b) env = s.eval d (.app (.fn x b) v) env := by
  have hcall : s.callee? (s.closeOver ⟨x, b⟩ env) env = some (⟨x, b⟩, env) := by
    rw [callee?_closeOver, ite_self]
  -- Without depth for the function literal there is none for the value either.
  rcases d with _ | _ | d
  · rfl
  · rfl
  · have hf : s.eval (d + 1) (.fn x b) env = pure (s.closeOver ⟨x, b⟩ env) := rfl
    rw [eval, eval, evalNode, evalNode, hf, pure_bind, hcall]

def Rewriting.letsApplied (s : Discipline) : Rewriting s where
  apply := Expr.letsApplied
  head := Expr.letApplied
  apply_eq e := by cases e <;> rfl
  head_eq {e} he := by
    cases e with
    | letIn x v b => cases he
    | _ => rfl
  runsAs e env d σ := by
    cases e with
    | letIn x v b =>
      rw [s.eval_letIn]
      exact .same _
    | _ => exact .same _

namespace Discipline

variable {e : Expr} {env : Environment} {σ : State}

/--
Definitions that are not recursive may be written as applications of function literals, everywhere
in an expression. In an environment of literals, if the name table knows the free names, both come
to the same literal, to a function and the same one rewritten, to the same error, or to no end,
under every limit and every discipline.
-/
theorem runsAlike_letsApplied (s : Discipline) (hσ : σ.names.Consistent)
    (hk : ∀ x, FreeIn x e → σ.names.knows x = true) (hb : LiteralEnv σ.heap env) :
    RunsAlike (Value.RewrittenBy Expr.letsApplied) Eq s e env σ s e.letsApplied env σ := by
  by_cases hs : s = .substitution
  · subst hs
    refine (Rewriting.letsApplied .substitution).runsAlike_substitution ?_ ?_ hσ ?_ hb
    · intro x v
      rfl
    · intro x r b t ht
      exact nameless_letsApplied_substitute ht x r b
    · intro x hx
      exact hk x (freeIn_letsApplied.1 hx)
  · exact (Rewriting.letsApplied s).runsAlike_of_ne hs e hb

/-- Substitution puts `fun n -> x` below a binder of `x`, which it renames in both texts. -/
theorem runsAlike_letsApplied_capture :
    let names := ["x", "f", "n"].foldl (fun t s => (t.intern s).2) NameTable.initial
    let x : Name := ⟨13⟩
    let f : Name := ⟨14⟩
    let n : Name := ⟨15⟩
    let e : Expr := .letIn f (.fn n (.var x))
      (.fn x (.letIn n (.app (.var f) (.var x)) (.letRec f (.var n) (.var f))))
    let env : Environment := ⟨0, [(x, ⟨0⟩)]⟩
    let σ : State := ⟨names, ⟨#[.plain (.int 5)], 1⟩⟩
    σ.names.Consistent ∧ (∀ y, FreeIn y e → σ.names.knows y = true) ∧ LiteralEnv σ.heap env ∧
      RunsAlike (Value.RewrittenBy Expr.letsApplied) Eq substitution e env σ
        substitution e.letsApplied env σ ∧
      RunsAlike (Value.RewrittenBy Expr.letsApplied) Eq dynamic e env σ
        dynamic e.letsApplied env σ ∧
      RunsAlike (Value.RewrittenBy Expr.letsApplied) Eq lexical e env σ
        lexical e.letsApplied env σ := by
  intro names x f n e env σ
  have hk : ∀ y, FreeIn y e → σ.names.knows y = true := by
    intro y hy
    simp only [e, FreeIn] at hy
    obtain rfl : y = x := by grind
    decide +kernel
  have hb : LiteralEnv σ.heap env := by
    intro b hb
    rw [List.mem_singleton.1 hb]
    exact ⟨.int 5, rfl, rfl⟩
  have hσ : σ.names.Consistent := NameTable.consistent_initial.foldl_intern _
  exact ⟨hσ, hk, hb, runsAlike_letsApplied substitution hσ hk hb,
    runsAlike_letsApplied dynamic hσ hk hb, runsAlike_letsApplied lexical hσ hk hb⟩

end Discipline

end LetCalculus
