import Mathlib.Data.List.Forall2
import LetCalculus.Expr.Occurrence
import LetCalculus.Expr.Parts
import LetCalculus.Proofs.Names.Capacity
import LetCalculus.Proofs.Substitution.Nameless

/-!
# Substitution ends, and the size of its result

Below a renamed binder a substitution goes on in the result of another one, and not in a part of the
expression that it was given. Its recursion is still no deeper than that expression is large: if
it is cut off at this depth, it comes to its result all the same (`substituteWithin_eq`).

The result has the size of the expression, plus what each free occurrence of the name grows by
(`size_substitute`). This is counted in nameless forms, in which renamed binders leave no trace, so
it need not be shown that renaming a binder neither adds nor removes occurrences of other names. A
variable put for a variable changes no construct at any position.
-/

namespace LetCalculus

namespace Nameless

def size : Nameless → Nat
  | bound _ | free _ | int _ | float _ | bool _ | raise | unassigned => 1
  | unary _ e => e.size + 1
  | binary _ a b => a.size + b.size + 1
  | cond a b c => a.size + b.size + c.size + 1
  | fn b => b.size + 1
  | letIn v b => v.size + b.size + 1
  | letRec v b => v.size + b.size + 1
  | app f a => f.size + a.size + 1

def count (x : Name) : Nameless → Nat
  | free y => if y = x then 1 else 0
  | bound _ | int _ | float _ | bool _ | raise | unassigned => 0
  | unary _ e => e.count x
  | binary _ a b => a.count x + b.count x
  | cond a b c => a.count x + b.count x + c.count x
  | fn b => b.count x
  | letIn v b => v.count x + b.count x
  | letRec v b => v.count x + b.count x
  | app f a => f.count x + a.count x

theorem size_replace (x : Name) (n m : Nameless) :
    (replace x n m).size + m.count x = m.size + m.count x * n.size := by
  induction m <;> grind [replace, size, count]

end Nameless

namespace Expr

open NameTable

theorem size_namelessIn (scope : List Name) (e : Expr) : (e.namelessIn scope).size = e.size := by
  induction e generalizing scope with
  | var x =>
    rcases resolve_eq_free_or_bound scope x with hx | ⟨i, hx⟩
    · rw [namelessIn, hx, Nameless.size, size]
    · rw [namelessIn, hx, Nameless.size, size]
  | _ => simp_all [namelessIn, Nameless.size, size]

theorem count_namelessIn (x : Name) (scope : List Name) (e : Expr) :
    (e.namelessIn scope).count x = if x ∈ scope then 0 else e.occurrences x := by
  induction e generalizing scope with
  | var y =>
    by_cases hy : y ∈ scope
    · obtain ⟨i, hi⟩ := exists_resolve_of_mem hy
      rw [namelessIn, hi]
      grind [Nameless.count, occurrences]
    · rw [namelessIn, resolve_of_notMem hy]
      grind [Nameless.count, occurrences]
  | _ => grind [namelessIn, Nameless.count, occurrences]

/-! ### Substitution ends -/

/-- Substitution by the same rules, given up where its recursion would be deeper than allowed. -/
def substituteWithin : Nat → Name → Expr → Expr → NameTable → Option (Expr × NameTable)
  | 0, _, _, _, _ => none
  | n + 1, x, r, e, t =>
    match e with
    | var y => some (if y = x then r else var y, t)
    | int _ | float _ | bool _ | raise | unassigned => some (e, t)
    | unary op a => do
      let (a, t) ← substituteWithin n x r a t
      some (unary op a, t)
    | binary op a b => do
      let (a, t) ← substituteWithin n x r a t
      let (b, t) ← substituteWithin n x r b t
      some (binary op a b, t)
    | cond a b c => do
      let (a, t) ← substituteWithin n x r a t
      let (b, t) ← substituteWithin n x r b t
      let (c, t) ← substituteWithin n x r c t
      some (cond a b c, t)
    | app a b => do
      let (a, t) ← substituteWithin n x r a t
      let (b, t) ← substituteWithin n x r b t
      some (app a b, t)
    | fn y b =>
      if y = x then some (fn y b, t)
      else if captures x r y [b] then do
        let (z, t) := t.fresh y (taken x r [b])
        let (b, t) ← substituteWithin n y (var z) b t
        let (b, t) ← substituteWithin n x r b t
        some (fn z b, t)
      else do
        let (b, t) ← substituteWithin n x r b t
        some (fn y b, t)
    | letIn y v b => do
      let (v, t) ← substituteWithin n x r v t
      if y = x then some (letIn y v b, t)
      else if captures x r y [b] then do
        let (z, t) := t.fresh y (taken x r [b])
        let (b, t) ← substituteWithin n y (var z) b t
        let (b, t) ← substituteWithin n x r b t
        some (letIn z v b, t)
      else do
        let (b, t) ← substituteWithin n x r b t
        some (letIn y v b, t)
    | letRec y v b =>
      if y = x then some (letRec y v b, t)
      else if captures x r y [v, b] then do
        let (z, t) := t.fresh y (taken x r [v, b])
        let (v, t) ← substituteWithin n y (var z) v t
        let (v, t) ← substituteWithin n x r v t
        let (b, t) ← substituteWithin n y (var z) b t
        let (b, t) ← substituteWithin n x r b t
        some (letRec z v b, t)
      else do
        let (v, t) ← substituteWithin n x r v t
        let (b, t) ← substituteWithin n x r b t
        some (letRec y v b, t)

theorem substituteWithin_eq {n : Nat} {e : Expr} (hn : e.size ≤ n) (x : Name) (r : Expr)
    (t : NameTable) : substituteWithin n x r e t = some (substitute x r e t) := by
  induction n generalizing x r e t with
  | zero => exact absurd e.size_pos (Nat.not_lt.2 hn)
  | succ n ih =>
    -- What a renamed scope has become is as large as the scope was.
    have ih_renamed : ∀ {y z : Name} {b : Expr} {t : NameTable}, b.size ≤ n → ∀ x r t',
        substituteWithin n x r (substitute y (var z) b t).1 t' =
          some (substitute x r (substitute y (var z) b t).1 t') := by
      intro y z b t hb
      exact ih (by rwa [size_substitute_var])
    cases e with
    | var y => rw [substituteWithin, substitute_var]
    | int n => rw [substituteWithin, substitute_int]
    | float a => rw [substituteWithin, substitute_float]
    | bool b => rw [substituteWithin, substitute_bool]
    | raise => rw [substituteWithin, substitute_raise]
    | unassigned => rw [substituteWithin, substitute_unassigned]
    | unary op a =>
      have ha : a.size ≤ n := by simp only [size] at hn; omega
      simp [substituteWithin, substitute_unary, ih ha]
    | binary op a b =>
      have ha : a.size ≤ n := by simp only [size] at hn; omega
      have hb : b.size ≤ n := by simp only [size] at hn; omega
      simp [substituteWithin, substitute_binary, ih ha, ih hb]
    | cond a b c =>
      have ha : a.size ≤ n := by simp only [size] at hn; omega
      have hb : b.size ≤ n := by simp only [size] at hn; omega
      have hc : c.size ≤ n := by simp only [size] at hn; omega
      simp [substituteWithin, substitute_cond, ih ha, ih hb, ih hc]
    | app a b =>
      have ha : a.size ≤ n := by simp only [size] at hn; omega
      have hb : b.size ≤ n := by simp only [size] at hn; omega
      simp [substituteWithin, substitute_app, ih ha, ih hb]
    | fn y b =>
      have hb : b.size ≤ n := by simp only [size] at hn; omega
      rw [substituteWithin, substitute_fn]
      split
      · rfl
      · split <;> simp [ih hb, ih_renamed hb]
    | letIn y v b =>
      have hv : v.size ≤ n := by simp only [size] at hn; omega
      have hb : b.size ≤ n := by simp only [size] at hn; omega
      rw [substituteWithin, substitute_letIn, ih hv]
      simp only [Option.bind_eq_bind, Option.bind_some]
      split
      · rfl
      · split <;> simp [ih hb, ih_renamed hb]
    | letRec y v b =>
      have hv : v.size ≤ n := by simp only [size] at hn; omega
      have hb : b.size ≤ n := by simp only [size] at hn; omega
      rw [substituteWithin, substitute_letRec]
      split
      · rfl
      · split <;> simp [ih hv, ih hb, ih_renamed hv, ih_renamed hb]

/-! ### Variables put for variables -/

/-- Whether two expressions have the same constructs at the same positions. -/
def SameKinds (a b : Expr) : Prop := ∀ p, (a.at? p).map kind = (b.at? p).map kind

namespace SameKinds

variable {a b c : Expr}

theorem refl (a : Expr) : SameKinds a a := fun _ => rfl

theorem trans (h : SameKinds a b) (h' : SameKinds b c) : SameKinds a c :=
  fun p => (h p).trans (h' p)

theorem of_children (hk : a.kind = b.kind) (hc : List.Forall₂ SameKinds a.children b.children) :
    SameKinds a b := by
  intro p
  cases p with
  | nil => simp [at?, hk]
  | cons i p =>
    simp only [at?]
    generalize a.children = as at hc
    generalize b.children = bs at hc
    induction hc generalizing i with
    | nil => rfl
    | cons ha _ ih =>
      cases i with
      | zero => exact ha p
      | succ i => exact ih i

end SameKinds

theorem Substituted.sameKinds {x : Name} {r e e' : Expr} {t t' : NameTable}
    (h : Substituted x r e t e' t') (hr : r.isVar = true) : SameKinds e' e := by
  induction h with
  | @var_self x r t =>
    cases r with
    | var y => exact .of_children rfl .nil
    | _ => cases hr
  | unary _ ih | fn_kept _ _ _ ih => exact .of_children rfl (.cons (ih hr) .nil)
  | binary _ _ iha ihb | app _ _ iha ihb | letIn_kept _ _ _ _ iha ihb
  | letRec_kept _ _ _ _ iha ihb =>
    exact .of_children rfl (.cons (iha hr) (.cons (ihb hr) .nil))
  | cond _ _ _ iha ihb ihc =>
    exact .of_children rfl (.cons (iha hr) (.cons (ihb hr) (.cons (ihc hr) .nil)))
  | letIn_shadowed _ ih => exact .of_children rfl (.cons (ih hr) (.cons (.refl _) .nil))
  | fn_renamed _ _ _ _ _ ih₁ ih₂ =>
    exact .of_children rfl (.cons ((ih₂ hr).trans (ih₁ rfl)) .nil)
  | letIn_renamed _ _ _ _ _ _ ihv ih₁ ih₂ =>
    exact .of_children rfl (.cons (ihv hr) (.cons ((ih₂ hr).trans (ih₁ rfl)) .nil))
  | letRec_renamed _ _ _ _ _ _ _ ihv₁ ihv₂ ihb₁ ihb₂ =>
    exact .of_children rfl
      (.cons ((ihv₂ hr).trans (ihv₁ rfl)) (.cons ((ihb₂ hr).trans (ihb₁ rfl)) .nil))
  | _ => exact .refl _

/--
Substitution comes to its result with a recursion that is no deeper than the expression is large. It
comes to the same result if new texts are refused by a full table, provided that the table that is
left holds no more texts than there are indices; otherwise it fails, and in no other way. The size
of the result is that of the expression with each free occurrence of the name counted as what is put
in. Putting a variable for a name keeps the size, and the constructs at all positions.
-/
theorem size_substitute {t : NameTable} (ht : t.Consistent) (x : Name) (r e : Expr) :
    (∀ n ≥ e.size, substituteWithin n x r e t = some (substitute x r e t)) ∧
    (t.size ≤ capacity → substitute? x r e t =
      if (substitute x r e t).2.size ≤ capacity then .ok (substitute x r e t)
      else .error (.overflow capacity)) ∧
    (substitute x r e t).1.size = e.size + e.occurrences x * (r.size - 1) ∧
    ∀ y, (substitute x (var y) e t).1.size = e.size ∧
      ∀ p, ((substitute x (var y) e t).1.at? p).map kind = (e.at? p).map kind := by
  have hs := substituted_substitute x r e t
  refine ⟨fun n hn => substituteWithin_eq hn x r t, fun hc => substitute?_eq ht hc x r e, ?_, ?_⟩
  · have hsize := Nameless.size_replace x r.nameless e.nameless
    rw [← hs.nameless ht, nameless, nameless, nameless, size_namelessIn, size_namelessIn,
      size_namelessIn, count_namelessIn, if_neg List.not_mem_nil] at hsize
    have hr := r.size_pos
    rw [Nat.mul_sub, Nat.mul_one]
    have := Nat.le_mul_of_pos_right (e.occurrences x) hr
    omega
  · intro y
    exact ⟨size_substitute_var x y e t, (substituted_substitute x (var y) e t).sameKinds rfl⟩

/-- The function and both parameters are renamed, and two occurrences grow to three nodes each. -/
theorem size_substitute_letRec :
    let x : Name := ⟨13⟩
    let y : Name := ⟨14⟩
    let f : Name := ⟨15⟩
    let r : Expr := .app (.var f) (.var y)
    let e : Expr := .letRec f (.fn y (.app (.var f) (.var x))) (.fn y (.app (.var x) (.var y)))
    NameTable.initial.Consistent ∧ e.size = 9 ∧ e.occurrences x = 2 ∧
      substituteWithin 9 x r e .initial = some (substitute x r e .initial) ∧
      substitute? x r e .initial = .ok (substitute x r e .initial) ∧
      (substitute x r e .initial).1.size = 13 ∧
      ∀ p, ((substitute x (.var f) e .initial).1.at? p).map kind = (e.at? p).map kind := by
  intro x y f r e
  have hc : NameTable.initial.size ≤ capacity := by decide +kernel
  have hc' : (substitute x r e .initial).2.size ≤ capacity := by decide +kernel
  obtain ⟨hn, ho, hs, hk⟩ := size_substitute NameTable.consistent_initial x r e
  exact ⟨NameTable.consistent_initial, rfl, rfl, hn 9 (by decide), (ho hc).trans (if_pos hc'),
    hs.trans rfl, (hk f).2⟩

/-- A table that is full, without the text that a captured binder would be renamed to. -/
theorem substitute_full_table :
    let x : Name := ⟨13⟩
    let y : Name := ⟨14⟩
    let t₀ := ["x", "y"].foldl (fun t s => (t.intern s).2) NameTable.initial
    let t := t₀.tried "x" (capacity - 15)
    t.Consistent ∧ t.size = capacity ∧
      substitute? x (.var y) (.fn y (.var x)) t = .error (.overflow capacity) := by
  intro x y t₀ t
  have h₀ : t₀.Consistent := consistent_initial.foldl_intern _
  have h : t.Consistent := h₀.tried _ _
  have hplain : ∀ s ∈ t₀.texts.toList, ¬"'".toList <:+: s.toList := by decide +kernel
  have hnew : ∀ stem i, candidate stem i ∉ t₀.texts := by
    intro stem i hm
    refine hplain _ (Array.mem_toList_iff.2 hm) ⟨stem.toList, (toString i).toList, ?_⟩
    simp [candidate, String.toList_append]
  have hsize : t₀.size = 15 := by decide +kernel
  have hfull : t.size = capacity := by
    rw [size_tried h₀ (hnew "x"), hsize]
    exact Nat.add_sub_cancel' (by decide)
  have hy : t.text y = "y" := by
    have hk : t₀.knows y = true ∧ t₀.text y = "y" := by decide +kernel
    exact (extends_tried t₀ "x" (Nat.zero_le _) y hk.1).2.trans hk.2
  refine ⟨h, hfull, substitute?_fn_of_full h hfull (by decide) (by decide +kernel) ?_⟩
  rw [hy, mem_tried_iff h₀]
  rintro (hm | ⟨i, -, he⟩)
  · exact hnew "y" 1 hm
  · have he := congrArg String.toList he
    simp [candidate, String.toList_append] at he

end Expr

end LetCalculus
