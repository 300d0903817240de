import LetCalculus.Expr.FreeIn
import LetCalculus.Proofs.Agreement.Correspondence

/-!
# Evaluation depends on what it can look up

Under lexical scoping an evaluation looks up no names but the free variables of the expression.
So two environments that agree on these are as good as one another, whatever else they bind and in
whatever order (`lexical_congr_freeVars`). The environments of closures may differ as well, and so
may those that the recursive functions among them are found in; they agree on the free variables
of the functions. Under dynamic scoping a function may look up any name of its caller, and the
environments have to agree on all names.

Nothing depends on which cells a run is given, so the two may also run in different heaps, if the
cells that are looked up are paired (`Correspondence.sameCode`).
-/

namespace LetCalculus

open LetCalculus.Expr

/-- Two names stand for paired cells, or they are one name that neither environment binds. -/
inductive Environment.Matches (cell : Cell → Cell → Prop) (env env' : Environment) :
    Name → Name → Prop
  | bound {x y : Name} {c d : Cell} : env.cell? x = some c → env'.cell? y = some d → cell c d →
    Matches cell env env' x y
  | unbound {x : Name} : env.cell? x = none → env'.cell? x = none → Matches cell env env' x x

/-- Whether the evaluation of an expression may look up a name in its environment. -/
def Discipline.Consults (s : Discipline) (x : Name) (e : Expr) : Prop := s = .lexical → FreeIn x e

/-- Whether an expression cannot tell two environments apart. -/
def SameView (s : Discipline) (cell : Cell → Cell → Prop) (e : Expr) (env env' : Environment) :
    Prop :=
  ∀ x, s.Consults x e → env.Matches cell env' x x

variable {s : Discipline} {cell : Cell → Cell → Prop} {env env' : Environment} {x y u v : Name}
  {p q : Cell} {m n : Nat} {a e : Expr}

namespace Environment.Matches

theorem of_cell?_eq (hx : env.cell? x = env'.cell? x)
    (hc : ∀ c, env.cell? x = some c → cell c c) : env.Matches cell env' x x := by
  cases hd : env.cell? x with
  | none => exact .unbound hd (hx ▸ hd)
  | some c => exact .bound hd (hx ▸ hd) (hc c hd)

theorem bind_self (hc : cell p q) :
    Matches cell ⟨m, bind x p env.bindings⟩ ⟨n, bind y q env'.bindings⟩ x y :=
  .bound (lookup_bind_self x p _) (lookup_bind_self y q _) hc

theorem bind_of_ne (h : env.Matches cell env' u v) (hu : u ≠ x) (hv : v ≠ y) :
    Matches cell ⟨m, bind x p env.bindings⟩ ⟨n, bind y q env'.bindings⟩ u v := by
  cases h with
  | bound hc hd hcd =>
    exact .bound ((lookup_bind_of_ne hu p _).trans hc) ((lookup_bind_of_ne hv q _).trans hd) hcd
  | unbound hc hd =>
    exact .unbound ((lookup_bind_of_ne hu p _).trans hc) ((lookup_bind_of_ne hv q _).trans hd)

end Environment.Matches

namespace SameView

theorem part (h : SameView s cell e env env') (ha : ∀ x, FreeIn x a → FreeIn x e) :
    SameView s cell a env env' := by
  intro x hx
  exact h x fun hs => ha x (hx hs)

theorem bind (h : SameView s cell e env env') (ha : ∀ u, u ≠ x → FreeIn u a → FreeIn u e)
    (hc : cell p q) : SameView s cell a ⟨m, Environment.bind x p env.bindings⟩
      ⟨n, Environment.bind x q env'.bindings⟩ := by
  intro u hu
  by_cases hux : u = x
  · subst hux
    exact .bind_self hc
  · exact (h u fun hs => ha u hux (hu hs)).bind_of_ne hux hux

end SameView

/-- The same plain value, or closures of one function that it cannot tell apart. -/
inductive SameCode (s : Discipline) (cell : Cell → Cell → Prop) : Value → Value → Prop
  | plain (e : Expr) : SameCode s cell (.plain e) (.plain e)
  | closure {f : Lambda} {scope scope' : Environment} : SameView s cell f.toExpr scope scope' →
    SameCode s cell (.closure f scope) (.closure f scope')

namespace Correspondence

def sameCodePairing (s : Discipline) (P : CellPairing) (t₀ : NameTable) : Pairing where
  code e env e' env' := e = e' ∧ SameView s P.rel e env env'
  value := SameCode s P.rel
  cell := P.rel
  names t t' := t = t₀ ∧ t' = t₀

variable {P : CellPairing} {t₀ : NameTable} {b : Expr}

theorem opens_sameCode (hs : s ≠ .substitution) (h : SameView s P.rel e env env')
    (hb : ∀ u, u ≠ x → FreeIn u b → FreeIn u e) :
    (sameCodePairing s P t₀).Opens s s x b env x b env' :=
  .cell hs hs fun _ _ _ _ hc => ⟨rfl, h.bind hb hc⟩

theorem calls_sameCode (hs : s ≠ .substitution) (h : SameView s P.rel (.app e a) env env')
    {v w : Value} (hv : SameCode s P.rel v w) :
    (sameCodePairing s P t₀).Calls s s v env w env' := by
  cases s with
  | substitution => exact absurd rfl hs
  | lexical =>
    cases hv with
    | plain e => exact .other rfl rfl fun _ _ => render_eq_of_kept
    | @closure f scope scope' hf =>
      exact .function rfl rfl (opens_sameCode hs hf fun _ => And.intro)
  | dynamic =>
    cases hv with
    | closure hf =>
      exact .other rfl rfl fun t t' ht => congrArg ("<" ++ · ++ ">") (render_eq_of_kept ht)
    | plain e =>
      cases e with
      | fn x b =>
        have hb : SameView .dynamic P.rel (.fn x b) env env' := by
          intro u _
          exact h u fun hs => Discipline.noConfusion hs
        exact .function rfl rfl (opens_sameCode hs hb fun _ => And.intro)
      | _ => exact .other rfl rfl fun _ _ => render_eq_of_kept

def sameCode (hs : s ≠ .substitution) (P : CellPairing) (t₀ : NameTable) :
    Correspondence s s .indistinct where
  toPairing := sameCodePairing s P t₀
  node {e env e' env'} hc := by
    obtain ⟨rfl, h⟩ := hc
    cases e with
    | var x =>
      cases h x fun _ => rfl with
      | bound hc hd hcd => exact .bound hc hd hcd
      | unbound hc hd => exact .unbound hc hd fun t t' ht => by rw [ht.1, ht.2]
    | int n | float a | bool b => exact .literal rfl
    | raise => exact .raise
    | unassigned => exact .unassigned
    | unary op e => exact .unary ⟨rfl, h⟩
    | binary op l r => exact .binary ⟨rfl, h.part fun _ => .inl⟩ ⟨rfl, h.part fun _ => .inr⟩
    | cond c y n =>
      exact .cond ⟨rfl, h.part fun _ => .inl⟩ ⟨rfl, h.part fun _ hx => .inr (.inl hx)⟩
        ⟨rfl, h.part fun _ hx => .inr (.inr hx)⟩
    | fn x b =>
      refine .fn ?_
      cases s with
      | substitution => exact absurd rfl hs
      | dynamic => exact .plain _
      | lexical => exact .closure h
    | letIn x v b =>
      exact .letIn ⟨rfl, h.part fun _ => .inl⟩ (opens_sameCode hs h fun _ hu hb => .inr ⟨hu, hb⟩)
    | letRec x v b =>
      refine .letRec hs hs ?_
      intro p q m n hc
      exact ⟨⟨rfl, h.bind (fun _ hu hv => ⟨hu, .inl hv⟩) hc⟩,
        ⟨rfl, h.bind (fun _ hu hb => ⟨hu, .inr hb⟩) hc⟩⟩
    | app f a =>
      refine .app ⟨rfl, h.part fun _ => .inl⟩ ⟨rfl, h.part fun _ => .inr⟩ ?_
      intro v w hv
      exact calls_sameCode hs h hv
  like hv := by
    cases hv with
    | plain e => exact .same _
    | closure _ => exact .closure
  literal _ := .plain _
  placeholder := .plain _
  distinct := P.distinct

end Correspondence

inductive Value.SameFunction : Value → Value → Prop
  | plain (e : Expr) : SameFunction (.plain e) (.plain e)
  | closure (f : Lambda) (scope scope' : Environment) :
    SameFunction (.closure f scope) (.closure f scope')

theorem sameCode_refl (v : Value) : SameCode s Eq v v := by
  cases v with
  | plain e => exact .plain e
  | closure f scope =>
    refine .closure ?_
    intro x _
    exact .of_cell?_eq rfl fun _ _ => rfl

namespace Discipline

/--
Under lexical scoping an evaluation depends on its environment through the free variables of the
expression alone. In environments that give each of these the same cell, or leave it unbound, the
expression comes to the same plain value, to closures of the same function, to the same error, or
to no end in both.
-/
theorem lexical_congr_freeVars {e : Expr} {env env' : Environment}
    (h : ∀ x, FreeIn x e → env.cell? x = env'.cell? x) (σ : State) :
    RunsAlike Value.SameFunction Eq lexical e env σ lexical e env' σ := by
  have hv : SameView lexical Eq e env env' := by
    intro x hx
    exact .of_cell?_eq (h x (hx rfl)) fun _ _ => rfl
  refine (Correspondence.sameCode (by simp) .same σ.names).runsAlike ⟨rfl, hv⟩ ?_ ?_
  · refine ⟨⟨rfl, rfl⟩, ?_, ?_, fun _ => rfl⟩
    · rintro c _ rfl
      rfl
    · rintro c _ rfl
      exact sameCode_refl _
  · intro d v w σ' τ' _ _ hvw
    cases hvw with
    | plain e => exact .plain e
    | closure _ => exact .closure _ _ _

/-- A recursive function in environments that bind other names beside `x`, in another order. -/
theorem lexical_congr_freeVars_letRec :
    let x : Name := ⟨13⟩
    let f : Name := ⟨14⟩
    let n : Name := ⟨15⟩
    let e : Expr :=
      .letRec f (.fn n (.cond (.var n) (.var x) (.app (.var f) (.bool true)))) (.var f)
    let env : Environment := ⟨0, [(x, ⟨0⟩), (n, ⟨1⟩)]⟩
    let env' : Environment := ⟨1, [(f, ⟨1⟩), (x, ⟨0⟩)]⟩
    let σ : State := ⟨.initial, ⟨#[.plain (.int 5), .plain (.bool true)], 2⟩⟩
    (∀ y, FreeIn y e → env.cell? y = env'.cell? y) ∧
      RunsAlike Value.SameFunction Eq lexical e env σ lexical e env' σ := by
  intro x f n e env env' σ
  have h : ∀ y, FreeIn y e → env.cell? y = env'.cell? y := by
    intro y hy
    simp only [e, FreeIn] at hy
    obtain rfl : y = x := by grind
    rfl
  exact ⟨h, lexical_congr_freeVars h σ⟩

end Discipline

end LetCalculus
