import LetCalculus.Eval.State
import LetCalculus.Proofs.Agreement.Likeness
import LetCalculus.Proofs.Substitution.Opening

/-!
# Unfolding environments

Lexical scoping keeps in an environment what substitution writes into the text. `Unfolds` says
that a text is an expression in which every variable has been unfolded: a literal in the place of
a variable whose cell holds it, and a function in the place of one whose cell holds a closure, the
function of the closure unfolded in its own environment.

A recursive function is found in its own environment, so its unfolding has no end. But
substitution puts the definition of the function for its name, and not the function: there the
occurrences of the name stay bound by the definition (`Unfolds.recursive`). So the unfolding of a
recursive function is finite although its environment is cyclic, and it is not unique: a name may
be unfolded to the function or to its definition.

Texts are compared in nameless form, since substitution renames binders.
-/

namespace LetCalculus

open LetCalculus.Expr

/--
Under the binders `scope` the expression in the environment unfolds to the nameless form. The
names that are bound in neither keep the cells that they have in the environment `base`, which
substitution never extends, and were known at the start.
-/
inductive Unfolds (t : NameTable) (base : Environment) (h : Heap) :
    List Name → Environment → Nameless → Expr → Prop
  | bound {scope env x i} : resolve scope x = .bound i →
    Unfolds t base h scope env (.bound i) (.var x)
  | free {scope env x} : x ∉ scope → env.cell? x = base.cell? x → t.knows x = true →
    Unfolds t base h scope env (.free x) (.var x)
  | value {scope env x c l} : x ∉ scope → env.cell? x = some c → h.read c = .plain l →
    l.isLiteral = true → Unfolds t base h scope env l.nameless (.var x)
  | function {scope env x c f inner n} : x ∉ scope → env.cell? x = some c →
    h.read c = .closure f inner → Unfolds t base h [] inner n f.toExpr →
    Unfolds t base h scope env n (.var x)
  | recursive {scope env x c f inner y n} : x ∉ scope → env.cell? x = some c →
    h.read c = .closure f inner → inner.cell? y = some c → Unfolds t base h [y] inner n f.toExpr →
    Unfolds t base h scope env (.letRec n (.bound 0)) (.var x)
  | int {scope env n} : Unfolds t base h scope env (.int n) (.int n)
  | float {scope env a} : Unfolds t base h scope env (.float a) (.float a)
  | bool {scope env b} : Unfolds t base h scope env (.bool b) (.bool b)
  | raise {scope env} : Unfolds t base h scope env .raise .raise
  | unassigned {scope env} : Unfolds t base h scope env .unassigned .unassigned
  | unary {scope env op a e} : Unfolds t base h scope env a e →
    Unfolds t base h scope env (.unary op a) (.unary op e)
  | binary {scope env op a b e e'} : Unfolds t base h scope env a e →
    Unfolds t base h scope env b e' → Unfolds t base h scope env (.binary op a b) (.binary op e e')
  | cond {scope env a b c e y n} : Unfolds t base h scope env a e → Unfolds t base h scope env b y →
    Unfolds t base h scope env c n → Unfolds t base h scope env (.cond a b c) (.cond e y n)
  | app {scope env a b f e} : Unfolds t base h scope env a f → Unfolds t base h scope env b e →
    Unfolds t base h scope env (.app a b) (.app f e)
  | fn {scope env x a b} : Unfolds t base h (x :: scope) env a b →
    Unfolds t base h scope env (.fn a) (.fn x b)
  | letIn {scope env x a c v b} : Unfolds t base h scope env a v →
    Unfolds t base h (x :: scope) env c b → Unfolds t base h scope env (.letIn a c) (.letIn x v b)
  | letRec {scope env x a c y v b} : Unfolds t base h (x :: scope) env a (.fn y v) →
    Unfolds t base h (x :: scope) env c b →
    Unfolds t base h scope env (.letRec a c) (.letRec x (.fn y v) b)

namespace Unfolds

variable {t : NameTable} {base env env' : Environment} {h h' : Heap} {scope : List Name}
  {x : Name} {n m : Nameless} {e : Expr}

/-- Unfolding looks at the values of cells alone, and these stay what they are. -/
theorem grows (hu : Unfolds t base h scope env n e) (hg : h.Grows h') :
    Unfolds t base h' scope env n e := by
  induction hu with
  | bound hi => exact .bound hi
  | free hx hb hk => exact .free hx hb hk
  | value hx hc hr hl =>
    exact .value hx hc ((hg _ (hr ▸ Value.ne_unassigned_of_isLiteral hl)).trans hr) hl
  | function hx hc hr _ ih => exact .function hx hc ((hg _ (by rw [hr]; nofun)).trans hr) ih
  | recursive hx hc hr hy _ ih =>
    exact .recursive hx hc ((hg _ (by rw [hr]; nofun)).trans hr) hy ih
  | int => exact .int
  | float => exact .float
  | bool => exact .bool
  | raise => exact .raise
  | unassigned => exact .unassigned
  | unary _ ih => exact .unary ih
  | binary _ _ iha ihb => exact .binary iha ihb
  | cond _ _ _ iha ihb ihc => exact .cond iha ihb ihc
  | app _ _ iha ihb => exact .app iha ihb
  | fn _ ih => exact .fn ih
  | letIn _ _ ihv ihb => exact .letIn ihv ihb
  | letRec _ _ ihv ihb => exact .letRec ihv ihb

theorem congr (hu : Unfolds t base h scope env n e)
    (he : ∀ y, y ∉ scope → env'.cell? y = env.cell? y) : Unfolds t base h scope env' n e := by
  induction hu with
  | bound hi => exact .bound hi
  | free hx hb hk => exact .free hx ((he _ hx).trans hb) hk
  | value hx hc hr hl => exact .value hx ((he _ hx).trans hc) hr hl
  | function hx hc hr hf _ => exact .function hx ((he _ hx).trans hc) hr hf
  | recursive hx hc hr hy hf _ => exact .recursive hx ((he _ hx).trans hc) hr hy hf
  | int => exact .int
  | float => exact .float
  | bool => exact .bool
  | raise => exact .raise
  | unassigned => exact .unassigned
  | unary _ ih => exact .unary (ih he)
  | binary _ _ iha ihb => exact .binary (iha he) (ihb he)
  | cond _ _ _ iha ihb ihc => exact .cond (iha he) (ihb he) (ihc he)
  | app _ _ iha ihb => exact .app (iha he) (ihb he)
  | fn _ ih => exact .fn (ih fun y hy => he y fun hm => hy (List.mem_cons_of_mem _ hm))
  | letIn _ _ ihv ihb =>
    exact .letIn (ihv he) (ihb fun y hy => he y fun hm => hy (List.mem_cons_of_mem _ hm))
  | letRec _ _ ihv ihb =>
    exact .letRec (ihv fun y hy => he y fun hm => hy (List.mem_cons_of_mem _ hm))
      (ihb fun y hy => he y fun hm => hy (List.mem_cons_of_mem _ hm))

theorem bind {c : Cell} (hu : Unfolds t base h [x] env n e) (hc : env'.Binds env x c) :
    Unfolds t base h [x] env' n e := by
  refine hu.congr ?_
  intro y hy
  exact hc.others y fun hyx => hy (List.mem_singleton.2 hyx)

theorem opened_eq (hu : Unfolds t base h scope env n e) {k : Nat} (hk : scope.length ≤ k) :
    Nameless.opened k m n = n := by
  induction hu generalizing k with
  | bound hi =>
    have hi := Nat.lt_of_lt_of_le (lt_length_of_resolve hi) hk
    rw [Nameless.opened, if_neg (Nat.ne_of_lt hi)]
  | @value scope env x c l hx hc hr hl =>
    cases l with
    | int n | float a | bool b => rfl
    | _ => cases hl
  | function _ _ _ _ ih => exact ih (Nat.zero_le k)
  | recursive _ _ _ _ _ ih =>
    rw [Nameless.opened, ih (Nat.succ_le_succ (Nat.zero_le k)), Nameless.opened,
      if_neg (Nat.succ_ne_zero k).symm]
  | unary _ ih => rw [Nameless.opened, ih hk]
  | binary _ _ iha ihb | app _ _ iha ihb => rw [Nameless.opened, iha hk, ihb hk]
  | cond _ _ _ iha ihb ihc => rw [Nameless.opened, iha hk, ihb hk, ihc hk]
  | fn _ ih => rw [Nameless.opened, ih (Nat.succ_le_succ hk)]
  | letIn _ _ ihv ihb => rw [Nameless.opened, ihv hk, ihb (Nat.succ_le_succ hk)]
  | letRec _ _ ihv ihb =>
    rw [Nameless.opened, ihv (Nat.succ_le_succ hk), ihb (Nat.succ_le_succ hk)]
  | _ => rfl

theorem opened_self (hu : Unfolds t base h scope env n e) :
    Unfolds t base h scope env (Nameless.opened scope.length m n) e := by
  rw [hu.opened_eq (Nat.le_refl _)]
  exact hu

theorem exists_body {b : Expr} (hu : Unfolds t base h scope env n (.fn x b)) :
    ∃ m, n = .fn m ∧ Unfolds t base h (x :: scope) env m b := by
  cases hu with
  | fn hb => exact ⟨_, rfl, hb⟩

theorem weaken (hu : Unfolds t base h [] env n (.var x)) (hx : x ∉ scope) :
    Unfolds t base h scope env n (.var x) := by
  cases hu with
  | bound hi => exact absurd (lt_length_of_resolve hi) (Nat.not_lt_zero _)
  | free _ hb hk => exact .free hx hb hk
  | value _ hc hr hl => exact .value hx hc hr hl
  | function _ hc hr hf => exact .function hx hc hr hf
  | recursive _ hc hr hy hf => exact .recursive hx hc hr hy hf

theorem opened {front : List Name} (hu : Unfolds t base h (front ++ [x]) env n e)
    (hx : Unfolds t base h [] env m (.var x)) :
    Unfolds t base h front env (Nameless.opened front.length m n) e := by
  generalize hs : front ++ [x] = scope at hu
  induction hu generalizing front with
  | @bound scope env y i hi =>
    subst hs
    by_cases hy : y ∈ front
    · rw [resolve_append_of_mem hy] at hi
      rw [Nameless.opened, if_neg (Nat.ne_of_lt (lt_length_of_resolve hi))]
      exact .bound hi
    · by_cases hyx : y = x
      · subst hyx
        rw [resolve_append_cons hy, Nameless.bound.injEq] at hi
        rw [Nameless.opened, if_pos hi.symm]
        exact hx.weaken hy
      · rw [resolve_of_notMem (by simp [hy, hyx])] at hi
        cases hi
  | free hy hb hk =>
    subst hs
    exact (free (fun hm => hy (List.mem_append_left _ hm)) hb hk).opened_self
  | value hy hc hr hl =>
    subst hs
    exact (value (fun hm => hy (List.mem_append_left _ hm)) hc hr hl).opened_self
  | function hy hc hr hf =>
    subst hs
    exact (function (fun hm => hy (List.mem_append_left _ hm)) hc hr hf).opened_self
  | recursive hy hc hr hz hf =>
    subst hs
    exact (recursive (fun hm => hy (List.mem_append_left _ hm)) hc hr hz hf).opened_self
  | int => exact .int
  | float => exact .float
  | bool => exact .bool
  | raise => exact .raise
  | unassigned => exact .unassigned
  | unary _ ih => exact .unary (ih hx hs)
  | binary _ _ iha ihb => exact .binary (iha hx hs) (ihb hx hs)
  | cond _ _ _ iha ihb ihc => exact .cond (iha hx hs) (ihb hx hs) (ihc hx hs)
  | app _ _ iha ihb => exact .app (iha hx hs) (ihb hx hs)
  | fn _ ih => exact .fn (ih hx (congrArg _ hs))
  | letIn _ _ ihv ihb => exact .letIn (ihv hx hs) (ihb hx (congrArg _ hs))
  | letRec _ _ ihv ihb => exact .letRec (ihv hx (congrArg _ hs)) (ihb hx (congrArg _ hs))

theorem opened_of_single (hu : Unfolds t base h [x] env n e)
    (hx : Unfolds t base h [] env m (.var x)) :
    Unfolds t base h [] env (Nameless.opened 0 m n) e := opened hu hx

/-- A recursive function with its definition for its name is an unfolding of itself. -/
theorem unrolled {c : Cell} {f : Lambda} (hr : h.read c = .closure f env)
    (hx : env.cell? x = some c) (hf : Unfolds t base h [x] env n f.toExpr) :
    Unfolds t base h [] env (Nameless.opened 0 (.letRec n (.bound 0)) n) f.toExpr :=
  hf.opened_of_single (.recursive List.not_mem_nil hx hr hx hf)

end Unfolds

/-! ### Values -/

/-- The same literal, or a function and a closure that it is the unfolding of. -/
inductive Embodies (t : NameTable) (base : Environment) (h : Heap) : Value → Value → Prop
  | literal {l : Expr} : l.isLiteral = true → Embodies t base h (.plain l) (.plain l)
  | function {x : Name} {b : Expr} {f : Lambda} {scope : Environment} :
    Unfolds t base h [] scope (Expr.fn x b).nameless f.toExpr →
    Embodies t base h (.plain (.fn x b)) (.closure f scope)

variable {base env env' : Environment} {h h' : Heap} {v w : Value}

namespace Embodies

theorem like {t : NameTable} (hv : Embodies t base h v w) : v.Like w := by
  cases hv with
  | literal hl => exact .literal hl
  | function _ => exact .function

theorem grows {t : NameTable} (hv : Embodies t base h v w) (hg : h.Grows h') :
    Embodies t base h' v w := by
  cases hv with
  | literal hl => exact .literal hl
  | function hf => exact .function (hf.grows hg)

theorem unfolds {t : NameTable} (hv : Embodies t base h v w) {x : Name} {c : Cell}
    (hc : env.cell? x = some c) (hr : h.read c = w) :
    Unfolds t base h [] env v.toExpr.nameless (.var x) := by
  cases hv with
  | literal hl => exact .value List.not_mem_nil hc hr hl
  | function hf => exact .function List.not_mem_nil hc hr hf

end Embodies

/-- Substituting a value for a name and giving the name a cell with it come to the same. -/
theorem Unfolds.entered {t t' : NameTable} {x y : Name} {b b' : Expr} {c : Cell}
    (hb : Unfolds t base h [y] env (b.namelessIn [x]) b') (ht : t'.Consistent)
    (hv : Embodies t base h v w) (hc : env'.Binds env y c) (hr : h.read c = w) :
    Unfolds t base h [] env' (Expr.substitute x v.toExpr b t').1.nameless b' := by
  rw [nameless_substitute_eq_opened ht]
  exact (hb.bind hc).opened_of_single (hv.unfolds hc.self hr)

/-! ### Expressions that unfold -/

/-- Whether every recursive definition in an expression defines a function literal. -/
def Expr.RecursiveFunctions : Expr → Prop
  | var _ | int _ | float _ | bool _ | raise | unassigned => True
  | unary _ e => e.RecursiveFunctions
  | binary _ a b => a.RecursiveFunctions ∧ b.RecursiveFunctions
  | cond a b c => a.RecursiveFunctions ∧ b.RecursiveFunctions ∧ c.RecursiveFunctions
  | fn _ b => b.RecursiveFunctions
  | letIn _ v b => v.RecursiveFunctions ∧ b.RecursiveFunctions
  | letRec _ v b => v.isFn = true ∧ v.RecursiveFunctions ∧ b.RecursiveFunctions
  | app f a => f.RecursiveFunctions ∧ a.RecursiveFunctions

theorem unfolds_namelessIn {t : NameTable} {e : Expr} (base : Environment) {scope : List Name}
    (he : e.RecursiveFunctions) (hk : ∀ x, FreeIn x e → x ∉ scope → t.knows x = true) :
    Unfolds t base h scope base (e.namelessIn scope) e := by
  have under : ∀ {x : Name} {b : Expr} {scope : List Name},
      (∀ y, y ≠ x → FreeIn y b → y ∉ scope → t.knows y = true) →
      ∀ y, FreeIn y b → y ∉ x :: scope → t.knows y = true := by
    intro x b scope hb y hy hn
    obtain ⟨hyx, hys⟩ : y ≠ x ∧ y ∉ scope := by simpa using hn
    exact hb y hyx hy hys
  induction e generalizing scope with
  | var x =>
    rw [namelessIn]
    by_cases hx : x ∈ scope
    · obtain ⟨i, hi⟩ := exists_resolve_of_mem hx
      rw [hi]
      exact .bound hi
    · rw [resolve_of_notMem hx]
      exact .free hx rfl (hk x rfl hx)
  | int n => exact .int
  | float a => exact .float
  | bool b => exact .bool
  | raise => exact .raise
  | unassigned => exact .unassigned
  | unary op e ih => exact .unary (ih he hk)
  | binary op a b iha ihb =>
    exact .binary (iha he.1 fun x hx => hk x (.inl hx)) (ihb he.2 fun x hx => hk x (.inr hx))
  | cond a b c iha ihb ihc =>
    exact .cond (iha he.1 fun x hx => hk x (.inl hx)) (ihb he.2.1 fun x hx => hk x (.inr (.inl hx)))
      (ihc he.2.2 fun x hx => hk x (.inr (.inr hx)))
  | app f a ihf iha =>
    exact .app (ihf he.1 fun x hx => hk x (.inl hx)) (iha he.2 fun x hx => hk x (.inr hx))
  | fn x b ih => exact .fn (ih he (under fun y hy hb => hk y ⟨hy, hb⟩))
  | letIn x v b ihv ih =>
    exact .letIn (ihv he.1 fun y hy => hk y (.inl hy))
      (ih he.2 (under fun y hy hb => hk y (.inr ⟨hy, hb⟩)))
  | letRec x v b ihv ih =>
    obtain ⟨hf, hv, hb⟩ := he
    have hv := ihv hv (under fun y hy hv => hk y ⟨hy, .inl hv⟩)
    have hb := ih hb (under fun y hy hb => hk y ⟨hy, .inr hb⟩)
    cases v with
    | fn y c => exact .letRec hv hb
    | _ => cases hf

end LetCalculus
