import LetCalculus.Proofs.Agreement.Rewriting
import LetCalculus.Proofs.Agreement.Unfolding

/-!
# Recursion under dynamic scoping

Under dynamic scoping a function looks its free names up in the environment of its caller, and its
own name is no exception. The environment of its definition plays no part, so the name need not be
bound there: `let rec f = fun x -> c in b` and `let f = fun x -> c in b` do the same. A function
literal has its value at once. So nothing runs while the name has a cell without a value, and the
cell that is assigned to is the one that would have been allocated with the function in it
(`State.define_eq`).

This holds everywhere in an expression at once (`Discipline.dynamic_runsAlike_dropRec`). It takes
function literals: another recursive definition may ask for its own value too early, which without
recursion is a different error, or none if the name is bound outside.
-/

namespace LetCalculus

open LetCalculus.Expr

namespace Expr

/-- Define all recursive functions as if they were not recursive. -/
def dropRec : Expr → Expr
  | var x => var x
  | int n => int n
  | float a => float a
  | bool b => bool b
  | raise => raise
  | unassigned => unassigned
  | unary op e => unary op e.dropRec
  | binary op l r => binary op l.dropRec r.dropRec
  | cond c y n => cond c.dropRec y.dropRec n.dropRec
  | fn x b => fn x b.dropRec
  | letIn x v b => letIn x v.dropRec b.dropRec
  | letRec x v b =>
    if v.isFn then letIn x v.dropRec b.dropRec else letRec x v.dropRec b.dropRec
  | app f a => app f.dropRec a.dropRec

def dropRecHead : Expr → Expr
  | letRec x v b => if v.isFn then letIn x v b else letRec x v b
  | e => e

end Expr

namespace Discipline

variable {e v : Expr} {env : Environment} {σ : State}

theorem runsAs_letIn (hv : v.isFn = true) (f : Name) (b : Expr) (env : Environment) :
    dynamic.RunsAs (.letRec f v b) (.letIn f v b) env := by
  intro d σ
  cases v with
  | fn x c =>
    rcases d with _ | _ | d
    · exact .same _
    · -- The literal has no depth; the one of the two has declared its name by then.
      exact .exhausted rfl
    · have hd : dynamic.eval (d + 2) (.letIn f (.fn x c) b) env σ =
          dynamic.eval (d + 1) b (σ.define env f (.plain (.fn x c))).1
            (σ.define env f (.plain (.fn x c))).2 := rfl
      rw [hd, State.define_eq]
      exact .same _
  | _ => cases hv

end Discipline

def Rewriting.dropRec : Rewriting .dynamic where
  apply := Expr.dropRec
  head := Expr.dropRecHead
  apply_eq e := by
    cases e with
    | letRec x v b =>
      rw [Expr.dropRec, dropRecHead]
      split <;> rfl
    | _ => rfl
  head_eq {e} he := by
    cases e with
    | letRec x v b => cases he
    | _ => rfl
  runsAs e env := by
    cases e with
    | letRec x v b =>
      rw [dropRecHead]
      split
      · next hv => exact Discipline.runsAs_letIn hv x b env
      · exact fun _ _ => .same _
    | _ => exact fun _ _ => .same _

namespace Discipline

variable {e : Expr} {env : Environment} {σ : State}

/--
Under dynamic scoping recursive functions may be defined as if they were not recursive, everywhere
in an expression. In an environment of literals both come to the same literal, to a function and the
same one rewritten, to the same error, or to no end, under every limit.
-/
theorem dynamic_runsAlike_dropRec (e : Expr) (hb : LiteralEnv σ.heap env) :
    RunsAlike (Value.RewrittenBy Expr.dropRec) Eq dynamic e env σ dynamic e.dropRec env σ :=
  Rewriting.dropRec.runsAlike_of_ne (by simp) e hb

/-- The function calls itself through another one, by a name that is bound again in between. -/
theorem dynamic_runsAlike_dropRec_rebound :
    let x : Name := ⟨13⟩
    let f : Name := ⟨14⟩
    let n : Name := ⟨15⟩
    let env : Environment := ⟨0, [(x, ⟨0⟩)]⟩
    let σ : State := ⟨.initial, ⟨#[.plain (.bool false)], 1⟩⟩
    let again : Expr := .fn n (.cond (.var n) (.var x) (.app (.var f) (.bool true)))
    let e : Expr := .letRec f again (.letIn x (.var f)
      (.letRec f (.fn n (.app (.var x) (.var n))) (.app (.var f) (.bool false))))
    LiteralEnv σ.heap env ∧
      RunsAlike (Value.RewrittenBy Expr.dropRec) Eq dynamic e env σ dynamic e.dropRec env σ := by
  intro x f n env σ again e
  have hb : LiteralEnv σ.heap env := by
    intro b hb
    rw [List.mem_singleton.1 hb]
    exact ⟨.bool false, rfl, rfl⟩
  exact ⟨hb, dynamic_runsAlike_dropRec e hb⟩

end Discipline

end LetCalculus
