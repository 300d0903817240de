import LetCalculus.Expr.FreeIn
import LetCalculus.Proofs.Evaluation.Failure
import LetCalculus.Proofs.Evaluation.Finished
import LetCalculus.Proofs.Substitution.Course

/-!
# Scope safety

Under lexical scoping a function finds its free variables where it was defined, and under
substitution no text has other free variables than the environment has names. So an expression
whose free variables are all bound by its environment never comes to a variable that is not,
however deep its evaluation goes (`Interpreter.scope_safe`). Under dynamic scoping a function is at
the mercy of its callers.

For lexical scoping the invariant is about all closures that can be seen, which may see one
another and themselves. A recursive definition is bound before its value is known, so it does no
harm to look it up too early: that is another error.
-/

namespace LetCalculus

open LetCalculus.Expr

/-- Whether all free variables of an expression are among the names. -/
def Expr.BoundBy (e : Expr) (names : List Name) : Prop := ∀ x, FreeIn x e → x ∈ names

/-- Whether the environments of all closures that can be seen bind what their functions need. -/
def ScopedEnv (h : Heap) (env : Environment) : Prop :=
  ∀ c f scope, h.Reaches env c → h.read c = .closure f scope → f.toExpr.freeVars ⊆ scope.names

/-- Whether an environment binds what an expression needs, and only cells of a certain kind. -/
structure Scoped (cell : Cell → Prop) (e : Expr) (env : Environment) : Prop where
  names : e.BoundBy env.names
  within : env.Within cell

variable {s : Discipline} {cell : Cell → Prop} {a b e r : Expr} {env base : Environment}
  {x : Name} {c : Cell} {h : Heap} {σ σ' : State} {names : List Name} {t : NameTable}

theorem boundBy_iff : e.BoundBy names ↔ e.freeVars ⊆ names := by
  simp only [Expr.BoundBy, List.subset_def, mem_freeVars]

namespace Expr.BoundBy

theorem part (h : e.BoundBy names) (ha : ∀ x, FreeIn x a → FreeIn x e) : a.BoundBy names :=
  fun x hx => h x (ha x hx)

theorem substitute (hr : r.BoundBy names) (he : ∀ y, y ≠ x → FreeIn y e → y ∈ names) :
    (Expr.substitute x r e t).1.BoundBy names := by
  intro y hy
  rcases (substituted_substitute x r e t).freeIn hy with hy | ⟨hyx, hy⟩
  · exact hr y hy
  · exact he y hyx hy

/-- The definition that is put for the name of a recursive one binds the name itself. -/
theorem definition (hv : ∀ y, y ≠ x → FreeIn y e → y ∈ names) :
    (Expr.letRec x e (.var x)).BoundBy names := by
  rintro y ⟨hy, hf⟩
  exact hv y hy (hf.resolve_right hy)

theorem of_isLiteral (hl : e.isLiteral = true) : e.BoundBy names := by
  cases e with
  | int n | float a | bool b => exact fun _ => False.elim
  | _ => cases hl

end Expr.BoundBy

namespace Scoped

theorem part (h : Scoped cell e env) (ha : ∀ x, FreeIn x a → FreeIn x e) : Scoped cell a env :=
  ⟨h.names.part ha, h.within⟩

theorem bind (h : Scoped cell e env) (ha : ∀ y, y ≠ x → FreeIn y a → FreeIn y e) (hc : cell c)
    (stamp : Nat) : Scoped cell a ⟨stamp, Environment.bind x c env.bindings⟩ := by
  refine ⟨?_, h.within.bind hc stamp x⟩
  intro y hy
  rw [Environment.mem_names_bind]
  by_cases hyx : y = x
  · exact .inl hyx
  · exact .inr (h.names y (ha y hyx hy))

end Scoped

namespace Machine

def Invariant.scoped (cell : Cell → Prop) : Invariant .lexical where
  code := Scoped cell
  value v := ∀ f scope, v = .closure f scope → Scoped cell f.toExpr scope
  cell := cell
  literal _ _ := nofun
  var h hx := h.within _ (Environment.mem_of_cell? hx)
  unary h := h.part fun _ => id
  binary h := ⟨h.part fun _ => .inl, h.part fun _ => .inr⟩
  cond h := ⟨h.part fun _ => .inl, h.part fun _ hx => .inr (.inl hx),
    h.part fun _ hx => .inr (.inr hx)⟩
  fn h := by
    rintro f scope ⟨⟩
    exact h
  letIn h := by
    refine ⟨h.part fun _ => .inl, ?_⟩
    intro c stamp hc
    exact h.bind (fun _ hy hb => .inr ⟨hy, hb⟩) hc stamp
  unroll := nofun
  letRec _ h hc := ⟨h.bind (fun _ hy hv => ⟨hy, .inl hv⟩) hc _,
    h.bind (fun _ hy hb => ⟨hy, .inr hb⟩) hc _⟩
  app h := by
    refine ⟨h.part fun _ => .inl, h.part fun _ => .inr, ?_⟩
    intro v g scope hv hg c stamp hc
    cases v with
    | plain e => cases hg
    | closure f scope' =>
      cases hg
      exact (hv g scope rfl).bind (fun _ hy hb => ⟨hy, hb⟩) hc stamp

def Invariant.boundBy (names : List Name) (base : Environment) (cell : Cell → Prop)
    (hb : ∀ x ∈ names, ∀ c, base.cell? x = some c → cell c) : Invariant .substitution where
  code e env := env = base ∧ e.BoundBy names
  value v := ∃ p, v = .plain p ∧ p.BoundBy names
  cell := cell
  literal l hl := ⟨l, rfl, .of_isLiteral hl⟩
  var := by
    rintro x env c ⟨rfl, h⟩ hx
    exact hb x (h x rfl) c hx
  unary h := ⟨h.1, h.2.part fun _ => id⟩
  binary h := ⟨⟨h.1, h.2.part fun _ => .inl⟩, ⟨h.1, h.2.part fun _ => .inr⟩⟩
  cond h := ⟨⟨h.1, h.2.part fun _ => .inl⟩, ⟨h.1, h.2.part fun _ hx => .inr (.inl hx)⟩,
    ⟨h.1, h.2.part fun _ hx => .inr (.inr hx)⟩⟩
  fn h := ⟨_, rfl, h.2⟩
  letIn h := by
    refine ⟨⟨h.1, h.2.part fun _ => .inl⟩, ?_⟩
    rintro v t ⟨p, rfl, hp⟩
    exact ⟨h.1, hp.substitute fun y hy hb => h.2 y (.inr ⟨hy, hb⟩)⟩
  unroll := by
    rintro x v b env - ⟨rfl, h⟩
    have hv : ∀ y, y ≠ x → FreeIn y v → y ∈ names := fun y hy hv => h y ⟨hy, .inl hv⟩
    refine ⟨fun t => ⟨rfl, (Expr.BoundBy.definition hv).substitute hv⟩, ?_⟩
    rintro w t ⟨p, rfl, hp⟩
    exact ⟨rfl, hp.substitute fun y hy hb => h y ⟨hy, .inr hb⟩⟩
  letRec hs := absurd rfl hs
  app h := by
    refine ⟨⟨h.1, h.2.part fun _ => .inl⟩, ⟨h.1, h.2.part fun _ => .inr⟩, ?_⟩
    rintro v g scope ⟨p, rfl, hp⟩ hg
    obtain rfl := Discipline.scope_eq_of_callee? (by simp) hg
    cases p with
    | fn x b =>
      cases hg
      rintro w t ⟨q, rfl, hq⟩
      exact ⟨h.1, hq.substitute fun y hy hb => hp y ⟨hy, hb⟩⟩
    | _ => cases hg

/-- Where variables are only evaluated if they are bound, none is reported as unbound. -/
theorem Invariant.ne_unboundVariable {I : Invariant s}
    (hI : ∀ x env, I.code (.var x) env → x ∈ env.names) (he : I.code e env)
    (hh : I.OnHeap σ.heap) (d : Nat) (text : String) :
    s.eval d e env σ ≠ .error (.failed (.unboundVariable text)) σ' := by
  intro h
  obtain ⟨c, hl, hf⟩ := exists_fails_of_eval h
  obtain ⟨d', y, env', hc, hy⟩ := hf.unboundVariable
  have hcode := ((config_start he hh).leads hl).control
  rw [hc] at hcode
  exact hy (hI y env' hcode)

theorem Invariant.onHeap_of_scopedEnv (he : ScopedEnv h env) :
    (Invariant.scoped fun c => h.Reaches env c ∨ ¬h.Holds c).OnHeap h where
  read c hc := by
    rcases hc with hc | hc
    · refine .inr ?_
      intro f scope hr
      exact ⟨boundBy_iff.2 (he c f scope hc hr), fun b hb => .inl (hc.captured hr hb)⟩
    · exact .inl (Heap.read_of_not_holds hc)
  fresh _ := .inr

theorem Invariant.scopedEnv_of_within (hh : (Invariant.scoped cell).OnHeap h)
    (he : env.Within cell) : ScopedEnv h env := by
  intro c f scope hc hr
  have hcell := hh.cell_of_reaches (fun f scope hv => (hv f scope rfl).within) he hc
  rcases hh.read c hcell with hu | hv
  · rw [hr] at hu
    cases hu
  · exact boundBy_iff.1 (hv f scope hr).names

end Machine

namespace Discipline

open Machine

variable {d : Nat}

theorem lexical_scoped (he : e.freeVars ⊆ env.names) (hs : ScopedEnv σ.heap env) :
    (∀ text σ', lexical.eval d e env σ ≠ .error (.failed (.unboundVariable text)) σ') ∧
      ∀ f scope σ', lexical.eval d e env σ = .ok (.closure f scope) σ' →
        f.toExpr.freeVars ⊆ scope.names ∧ ScopedEnv σ'.heap scope := by
  have hh := Invariant.onHeap_of_scopedEnv hs
  have hc : Scoped (fun c => σ.heap.Reaches env c ∨ ¬σ.heap.Holds c) e env :=
    ⟨boundBy_iff.2 he, fun b hb => .inl (.bound hb)⟩
  refine ⟨?_, ?_⟩
  · intro text σ'
    refine Invariant.ne_unboundVariable (I := Invariant.scoped _) ?_ hc hh d text
    intro x env h
    exact h.names x rfl
  · intro f scope σ' h
    obtain ⟨hv, hh'⟩ := Invariant.value_of_eval hc hh h
    have hf := hv f scope rfl
    exact ⟨boundBy_iff.1 hf.names, Invariant.scopedEnv_of_within hh' hf.within⟩

theorem substitution_scoped (he : e.freeVars ⊆ env.names)
    (hs : ∀ b ∈ env.bindings, ∃ p, σ.heap.read b.2 = .plain p ∧ p.freeVars ⊆ env.names) :
    (∀ text σ', substitution.eval d e env σ ≠ .error (.failed (.unboundVariable text)) σ') ∧
      ∀ v σ', substitution.eval d e env σ = .ok v σ' →
        ∃ p, v = .plain p ∧ p.freeVars ⊆ env.names := by
  have hb : ∀ x ∈ env.names, ∀ c, env.cell? x = some c →
      (∃ b ∈ env.bindings, b.2 = c) ∨ ¬σ.heap.Holds c :=
    fun x _ c hx => .inl ⟨(x, c), Environment.mem_of_cell? hx, rfl⟩
  have hh : (Invariant.boundBy env.names env _ hb).OnHeap σ.heap := by
    refine ⟨?_, fun _ => .inr⟩
    rintro c (⟨b, hb, rfl⟩ | hc)
    · obtain ⟨p, hr, hp⟩ := hs b hb
      exact .inr ⟨p, hr, boundBy_iff.2 hp⟩
    · exact .inl (Heap.read_of_not_holds hc)
  have hc : env = env ∧ e.BoundBy env.names := ⟨rfl, boundBy_iff.2 he⟩
  refine ⟨?_, ?_⟩
  · intro text σ'
    refine Invariant.ne_unboundVariable (I := Invariant.boundBy env.names env _ hb) ?_ hc hh d text
    rintro x _ ⟨rfl, h⟩
    exact h x rfl
  · intro v σ' h
    obtain ⟨⟨p, rfl, hp⟩, -⟩ :=
      Invariant.value_of_eval (I := Invariant.boundBy env.names env _ hb) hc hh h
    exact ⟨p, rfl, boundBy_iff.1 hp⟩

end Discipline

namespace Interpreter

theorem ne_unboundVariable {limit : Option Nat} {a : Nat}
    (hn : ∀ text σ',
      s.eval (limit.getD a) e env σ ≠ .error (.failed (.unboundVariable text)) σ')
    (text : String) : (eval ⟨.reducing s, limit⟩ a e env σ).1 ≠ .error (.unboundVariable text) := by
  intro h
  obtain ⟨σ', h⟩ := exists_failed_of_eval h nofun
  exact hn text σ' h

/--
If an environment binds the free variables of an expression, no variable is ever reported as
unbound: not under lexical scoping if the closures that can be seen find theirs as well, and then
so do the closure that is returned and those that can be seen from it; and not under substitution
if the values in the environment have no other free variables than the environment has names, and
then neither has the value that is returned.
-/
theorem scope_safe (limit : Option Nat) (a : Nat) {e : Expr} {env : Environment} (σ : State)
    (he : e.freeVars ⊆ env.names) :
    (ScopedEnv σ.heap env →
      (∀ text, (eval ⟨.reducing .lexical, limit⟩ a e env σ).1 ≠ .error (.unboundVariable text)) ∧
        ∀ f scope σ', eval ⟨.reducing .lexical, limit⟩ a e env σ = (.value (.closure f scope), σ') →
          f.toExpr.freeVars ⊆ scope.names ∧ ScopedEnv σ'.heap scope) ∧
    ((∀ b ∈ env.bindings, ∃ p, σ.heap.read b.2 = .plain p ∧ p.freeVars ⊆ env.names) →
      (∀ text,
        (eval ⟨.reducing .substitution, limit⟩ a e env σ).1 ≠ .error (.unboundVariable text)) ∧
        ∀ v σ', eval ⟨.reducing .substitution, limit⟩ a e env σ = (.value v, σ') →
          ∃ p, v = .plain p ∧ p.freeVars ⊆ env.names) := by
  constructor
  · intro hs
    obtain ⟨hn, hv⟩ := Discipline.lexical_scoped (d := limit.getD a) he hs
    refine ⟨ne_unboundVariable hn, ?_⟩
    intro f scope σ' h
    exact hv f scope σ' (eval_eq_value_iff.1 h)
  · intro hs
    obtain ⟨hn, hv⟩ := Discipline.substitution_scoped (d := limit.getD a) he hs
    refine ⟨ne_unboundVariable hn, ?_⟩
    intro v σ' h
    exact hv v σ' (eval_eq_value_iff.1 h)

/-- A recursive function beside one that refers to itself: a closure, or a text with a free name. -/
theorem scope_safe_letRec :
    let x : Name := ⟨13⟩
    let f : Name := ⟨14⟩
    let g : Name := ⟨15⟩
    let again : Lambda := ⟨x, .app (.var f) (.var x)⟩
    let e : Expr := .letRec g (.fn x (.app (.var f) (.var g))) (.var g)
    let env : Environment := ⟨0, [(f, ⟨0⟩)]⟩
    let σ : State := ⟨.initial, ⟨#[.closure again env], 1⟩⟩
    let τ : State := ⟨.initial, ⟨#[.plain again.toExpr], 1⟩⟩
    (∃ h scope σ', eval ⟨.reducing .lexical, some 2⟩ 0 e env σ = (.value (.closure h scope), σ') ∧
      h.toExpr.freeVars ⊆ scope.names ∧ ScopedEnv σ'.heap scope) ∧
    ∀ text,
      (eval ⟨.reducing .substitution, some 2⟩ 0 e env τ).1 ≠ .error (.unboundVariable text) := by
  intro x f g again e env σ τ
  have he : e.freeVars ⊆ env.names := by decide
  have ha : again.toExpr.freeVars ⊆ env.names := by decide
  have hs : ScopedEnv σ.heap env := by
    intro c h scope hc hr
    have hcs : c = ⟨0⟩ := by
      clear hr
      induction hc with
      | bound hx => exact (Prod.mk.inj (List.mem_singleton.1 hx)).2
      | captured _ hr hx ih =>
        subst ih
        cases hr
        exact (Prod.mk.inj (List.mem_singleton.1 hx)).2
    subst hcs
    cases hr
    exact ha
  have ht : ∀ b ∈ env.bindings, ∃ p, τ.heap.read b.2 = .plain p ∧ p.freeVars ⊆ env.names := by
    intro b hb
    rw [List.mem_singleton.1 hb]
    exact ⟨_, rfl, ha⟩
  obtain ⟨h, scope, σ', hv⟩ : ∃ h scope σ', Discipline.eval .lexical 2 e env σ =
      .ok (.closure h scope) σ' := ⟨_, _, _, rfl⟩
  have hv : eval ⟨.reducing .lexical, some 2⟩ 0 e env σ = (.value (.closure h scope), σ') :=
    eval_eq_value_iff.2 hv
  exact ⟨⟨h, scope, σ', hv, ((scope_safe (some 2) 0 σ he).1 hs).2 h scope σ' hv⟩,
    ((scope_safe (some 2) 0 τ he).2 ht).1⟩

/-- A function that has left the scope of `x`: it needs a name, although none is to start with. -/
example :
    let x : Name := ⟨13⟩
    let f : Name := ⟨14⟩
    let e : Expr := .letIn f (.letIn x (.bool true) (.fn f (.var x))) (.app (.var f) (.bool true))
    e.freeVars = [] ∧ ∃ text σ', Discipline.eval .dynamic 5 e ⟨0, []⟩ .initial =
      .error (.failed (.unboundVariable text)) σ' := by
  intro x f e
  exact ⟨by decide, _, _, rfl⟩

end Interpreter

end LetCalculus
