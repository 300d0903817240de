import LetCalculus.Expr.FreeIn
import LetCalculus.Name.Freshness

/-!
# The course of a substitution

Below a renamed binder a substitution continues in the result of another one, so it follows no
subexpression and a proof about it is no induction on the expression. `Substituted` lists what can
happen at each construct, with the intermediate results and the name tables in between. Every
substitution takes such a course (`substituted_substitute`), and what holds along all courses is
proved by induction on the course.

Two facts come from it at once: which names can be free in the result (`Substituted.freeIn`), and
what becomes of the name table, which changes by choices of fresh names alone
(`Substituted.names`), so it stays consistent and only grows.
-/

namespace LetCalculus

namespace NameTable

/-- Whether a table knows all that another one knows, under the same texts. -/
def Extends (t' t : NameTable) : Prop :=
  ∀ x, t.knows x = true → t'.knows x = true ∧ t'.text x = t.text x

theorem Extends.refl (t : NameTable) : t.Extends t := fun _ hx => ⟨hx, rfl⟩

theorem Extends.trans {t t' t'' : NameTable} (h' : t''.Extends t') (h : t'.Extends t) :
    t''.Extends t := by
  intro x hx
  obtain ⟨hk, ht⟩ := h x hx
  obtain ⟨hk', ht'⟩ := h' x hk
  exact ⟨hk', ht'.trans ht⟩

theorem extends_intern (t : NameTable) (s : String) : (t.intern s).2.Extends t :=
  fun _ hx => ⟨knows_intern s hx, text_intern_of_knows s hx⟩

theorem extends_freshFrom (stem : String) (avoid : List Name) (tries i : Nat) (t : NameTable) :
    (freshFrom stem avoid tries i t).2.Extends t := by
  induction tries generalizing t i with
  | zero => exact extends_intern t _
  | succ tries ih =>
    simp only [freshFrom_succ]
    split
    · exact (ih (i + 1) _).trans (extends_intern t _)
    · exact extends_intern t _

theorem extends_fresh (t : NameTable) (base : Name) (avoid : List Name) :
    (t.fresh base avoid).2.Extends t := extends_freshFrom _ _ _ _ t

end NameTable

namespace Expr

/--
`Substituted x r e t e' t'`: putting `r` for `x` in `e` gives `e'` and takes the name table from
`t` to `t'`. A binder of `x` ends the substitution, one that would capture is renamed to a fresh
name first, and any other is kept.
-/
inductive Substituted : Name → Expr → Expr → NameTable → Expr → NameTable → Prop
  | var_self {x r t} : Substituted x r (var x) t r t
  | var_other {x r y t} : y ≠ x → Substituted x r (var y) t (var y) t
  | int {x r n t} : Substituted x r (int n) t (int n) t
  | float {x r a t} : Substituted x r (float a) t (float a) t
  | bool {x r b t} : Substituted x r (bool b) t (bool b) t
  | raise {x r t} : Substituted x r raise t raise t
  | unassigned {x r t} : Substituted x r unassigned t unassigned t
  | unary {x r op a a' t t'} :
    Substituted x r a t a' t' → Substituted x r (unary op a) t (unary op a') t'
  | binary {x r op a a' b b' t t₁ t'} :
    Substituted x r a t a' t₁ → Substituted x r b t₁ b' t' →
    Substituted x r (binary op a b) t (binary op a' b') t'
  | cond {x r a a' b b' c c' t t₁ t₂ t'} :
    Substituted x r a t a' t₁ → Substituted x r b t₁ b' t₂ → Substituted x r c t₂ c' t' →
    Substituted x r (cond a b c) t (cond a' b' c') t'
  | app {x r a a' b b' t t₁ t'} :
    Substituted x r a t a' t₁ → Substituted x r b t₁ b' t' →
    Substituted x r (app a b) t (app a' b') t'
  | fn_shadowed {x r b t} : Substituted x r (fn x b) t (fn x b) t
  | fn_kept {x r y b b' t t'} :
    y ≠ x → (FreeIn y r → ¬FreeIn x b) → Substituted x r b t b' t' →
    Substituted x r (fn y b) t (fn y b') t'
  | fn_renamed {x r y b b₁ b' t t₁ t' z} :
    y ≠ x → FreeIn x b → z = t.fresh y (taken x r [b]) →
    Substituted y (var z.1) b z.2 b₁ t₁ → Substituted x r b₁ t₁ b' t' →
    Substituted x r (fn y b) t (fn z.1 b') t'
  | letIn_shadowed {x r v v' b t t'} :
    Substituted x r v t v' t' → Substituted x r (letIn x v b) t (letIn x v' b) t'
  | letIn_kept {x r y v v' b b' t t₁ t'} :
    y ≠ x → (FreeIn y r → ¬FreeIn x b) → Substituted x r v t v' t₁ →
    Substituted x r b t₁ b' t' → Substituted x r (letIn y v b) t (letIn y v' b') t'
  | letIn_renamed {x r y v v' b b₁ b' t t₁ t₂ t' z} :
    y ≠ x → FreeIn x b → Substituted x r v t v' t₁ → z = t₁.fresh y (taken x r [b]) →
    Substituted y (var z.1) b z.2 b₁ t₂ → Substituted x r b₁ t₂ b' t' →
    Substituted x r (letIn y v b) t (letIn z.1 v' b') t'
  | letRec_shadowed {x r v b t} : Substituted x r (letRec x v b) t (letRec x v b) t
  | letRec_kept {x r y v v' b b' t t₁ t'} :
    y ≠ x → (FreeIn y r → ¬FreeIn x v ∧ ¬FreeIn x b) → Substituted x r v t v' t₁ →
    Substituted x r b t₁ b' t' → Substituted x r (letRec y v b) t (letRec y v' b') t'
  | letRec_renamed {x r y v v₁ v' b b₁ b' t t₁ t₂ t₃ t' z} :
    y ≠ x → FreeIn x v ∨ FreeIn x b → z = t.fresh y (taken x r [v, b]) →
    Substituted y (var z.1) v z.2 v₁ t₁ → Substituted x r v₁ t₁ v' t₂ →
    Substituted y (var z.1) b t₂ b₁ t₃ → Substituted x r b₁ t₃ b' t' →
    Substituted x r (letRec y v b) t (letRec z.1 v' b') t'

/-- Every substitution takes one of the listed courses. -/
theorem substituted_substitute (x : Name) (r e : Expr) (t : NameTable) :
    Substituted x r e t (substitute x r e t).1 (substitute x r e t).2 := by
  -- Renaming keeps the size, so the size also bounds what a renamed scope has become.
  induction hn : e.size using Nat.strongRecOn generalizing x r e t with
  | ind n ih =>
    subst hn
    have sub : ∀ (x : Name) (r a : Expr) (t : NameTable), a.size < e.size →
        Substituted x r a t (substitute x r a t).1 (substitute x r a t).2 :=
      fun x r a t ha => ih a.size ha x r a t rfl
    have sub_renamed : ∀ (y z : Name) (b : Expr) (t t' : NameTable), b.size < e.size →
        Substituted x r (substitute y (var z) b t).1 t'
          (substitute x r (substitute y (var z) b t).1 t').1
          (substitute x r (substitute y (var z) b t).1 t').2 :=
      fun y z b t t' hb => sub x r _ t' (by rw [size_substitute_var]; exact hb)
    cases e with
    | var y =>
      rw [substitute_var]
      split
      · next hy => subst hy; exact .var_self
      · next hy => exact .var_other hy
    | int n => rw [substitute_int]; exact .int
    | float a => rw [substitute_float]; exact .float
    | bool b => rw [substitute_bool]; exact .bool
    | raise => rw [substitute_raise]; exact .raise
    | unassigned => rw [substitute_unassigned]; exact .unassigned
    | unary op a =>
      rw [substitute_unary]
      exact .unary (sub _ _ _ _ (by simp [size]))
    | binary op a b =>
      have ha : a.size < (binary op a b).size := by simp only [size]; omega
      have hb : b.size < (binary op a b).size := by simp only [size]; omega
      rw [substitute_binary]
      exact .binary (sub _ _ _ _ ha) (sub _ _ _ _ hb)
    | cond a b c =>
      have ha : a.size < (cond a b c).size := by simp only [size]; omega
      have hb : b.size < (cond a b c).size := by simp only [size]; omega
      have hc : c.size < (cond a b c).size := by simp only [size]; omega
      rw [substitute_cond]
      exact .cond (sub _ _ _ _ ha) (sub _ _ _ _ hb) (sub _ _ _ _ hc)
    | app a b =>
      have ha : a.size < (app a b).size := by simp only [size]; omega
      have hb : b.size < (app a b).size := by simp only [size]; omega
      rw [substitute_app]
      exact .app (sub _ _ _ _ ha) (sub _ _ _ _ hb)
    | fn y b =>
      have hb : b.size < (fn y b).size := by simp [size]
      rw [substitute_fn]
      split
      · next hy => subst hy; exact .fn_shadowed
      · next hy =>
        split
        · next hc =>
          obtain ⟨-, hx⟩ : FreeIn y r ∧ FreeIn x b := by simpa using captures_iff.1 hc
          exact .fn_renamed hy hx rfl (sub _ _ _ _ hb) (sub_renamed _ _ _ _ _ hb)
        · next hc =>
          have hc : FreeIn y r → ¬FreeIn x b := by simpa [captures_iff] using hc
          exact .fn_kept hy hc (sub _ _ _ _ hb)
    | letIn y v b =>
      have hv : v.size < (letIn y v b).size := by simp only [size]; omega
      have hb : b.size < (letIn y v b).size := by simp only [size]; omega
      rw [substitute_letIn]
      simp only
      split
      · next hy => subst hy; exact .letIn_shadowed (sub _ _ _ _ hv)
      · next hy =>
        split
        · next hc =>
          obtain ⟨-, hx⟩ : FreeIn y r ∧ FreeIn x b := by simpa using captures_iff.1 hc
          exact .letIn_renamed hy hx (sub _ _ _ _ hv) rfl (sub _ _ _ _ hb)
            (sub_renamed _ _ _ _ _ hb)
        · next hc =>
          have hc : FreeIn y r → ¬FreeIn x b := by simpa [captures_iff] using hc
          exact .letIn_kept hy hc (sub _ _ _ _ hv) (sub _ _ _ _ hb)
    | letRec y v b =>
      have hv : v.size < (letRec y v b).size := by simp only [size]; omega
      have hb : b.size < (letRec y v b).size := by simp only [size]; omega
      rw [substitute_letRec]
      split
      · next hy => subst hy; exact .letRec_shadowed
      · next hy =>
        split
        · next hc =>
          obtain ⟨-, hx⟩ : FreeIn y r ∧ (FreeIn x v ∨ FreeIn x b) := by
            simpa using captures_iff.1 hc
          exact .letRec_renamed hy hx rfl (sub _ _ _ _ hv) (sub_renamed _ _ _ _ _ hv)
            (sub _ _ _ _ hb) (sub_renamed _ _ _ _ _ hb)
        · next hc =>
          have hc : FreeIn y r → ¬FreeIn x v ∧ ¬FreeIn x b := by
            simpa [captures_iff] using hc
          exact .letRec_kept hy hc (sub _ _ _ _ hv) (sub _ _ _ _ hb)

variable {x y : Name} {r e e' : Expr} {t t' : NameTable}

/-- A name that is free in the result is free in what is put in, or was free before. -/
theorem Substituted.freeIn (h : Substituted x r e t e' t') (hy : FreeIn y e') :
    FreeIn y r ∨ y ≠ x ∧ FreeIn y e := by
  induction h generalizing y <;> grind [FreeIn]

/--
What choosing a fresh name does to a table again and again, a substitution does to it: it changes
the table in no other way.
-/
theorem Substituted.names {R : NameTable → NameTable → Prop} (refl : ∀ t, R t t)
    (trans : ∀ {t t₁ t₂}, R t t₁ → R t₁ t₂ → R t t₂)
    (fresh : ∀ t base avoid, R t (t.fresh base avoid).2) (h : Substituted x r e t e' t') :
    R t t' := by
  induction h with
  | unary _ ih | fn_kept _ _ _ ih | letIn_shadowed _ ih => exact ih
  | binary _ _ iha ihb | app _ _ iha ihb => exact trans iha ihb
  | letIn_kept _ _ _ _ ihv ihb | letRec_kept _ _ _ _ ihv ihb => exact trans ihv ihb
  | cond _ _ _ iha ihb ihc => exact trans (trans iha ihb) ihc
  | fn_renamed _ _ hz _ _ ih₁ ih₂ =>
    subst hz
    exact trans (fresh _ _ _) (trans ih₁ ih₂)
  | letIn_renamed _ _ _ hz _ _ ihv ih₁ ih₂ =>
    subst hz
    exact trans ihv (trans (fresh _ _ _) (trans ih₁ ih₂))
  | letRec_renamed _ _ hz _ _ _ _ ihv₁ ihv₂ ihb₁ ihb₂ =>
    subst hz
    exact trans (fresh _ _ _) (trans (trans ihv₁ ihv₂) (trans ihb₁ ihb₂))
  | _ => exact refl _

theorem Substituted.consistent (h : Substituted x r e t e' t') (ht : t.Consistent) :
    t'.Consistent :=
  h.names (R := fun t t' => t.Consistent → t'.Consistent) (fun _ => id)
    (fun h h' => h' ∘ h) (fun _ base avoid ht => ht.fresh base avoid) ht

theorem Substituted.extends (h : Substituted x r e t e' t') : t'.Extends t :=
  h.names (R := fun t t' => t'.Extends t) .refl (fun h h' => h'.trans h)
    NameTable.extends_fresh

theorem consistent_substitute (ht : t.Consistent) (x : Name) (r e : Expr) :
    (substitute x r e t).2.Consistent := (substituted_substitute x r e t).consistent ht

end Expr

end LetCalculus
