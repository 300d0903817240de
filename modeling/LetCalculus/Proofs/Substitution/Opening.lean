import LetCalculus.Proofs.Substitution.Nameless

/-!
# Opening binders

Taking a binder away and putting something in the places that belonged to it opens the binder.
When the name of the binder is substituted in its scope, the nameless form of the result is the
opened one (`nameless_substitute_eq_opened`), so an evaluation by substitution can be followed in
nameless forms alone, where renamed binders leave no trace.
-/

namespace LetCalculus

/--
Put `n` in the places that belong to the binder number `k`, counted from the outside of the
places. The other binders are inside of it and keep their numbers.
-/
def Nameless.opened (k : Nat) (n : Nameless) : Nameless → Nameless
  | bound i => if i = k then n else bound i
  | free x => free x
  | int i => int i
  | float a => float a
  | bool b => bool b
  | unary op e => unary op (opened k n e)
  | binary op a b => binary op (opened k n a) (opened k n b)
  | cond a b c => cond (opened k n a) (opened k n b) (opened k n c)
  | fn b => fn (opened (k + 1) n b)
  | letIn v b => letIn (opened k n v) (opened (k + 1) n b)
  | letRec v b => letRec (opened (k + 1) n v) (opened (k + 1) n b)
  | raise => raise
  | unassigned => unassigned
  | app f a => app (opened k n f) (opened k n a)

namespace Expr

variable {x y : Name} {scope : List Name} {i : Nat}

theorem lt_length_of_resolve (h : resolve scope x = .bound i) : i < scope.length := by
  unfold resolve at h
  cases hi : scope.idxOf? x with
  | none => simp [hi] at h
  | some j =>
    simp only [hi, Nameless.bound.injEq] at h
    subst h
    exact (List.idxOf?_eq_some_iff.1 hi).1

theorem resolve_append_of_mem (h : x ∈ scope) (outer : List Name) :
    resolve (scope ++ outer) x = resolve scope x := by
  induction scope with
  | nil => exact absurd h List.not_mem_nil
  | cons y scope ih =>
    rw [List.cons_append]
    exact resolve_cons_congr fun hxy => ih ((List.mem_cons.1 h).resolve_left hxy)

theorem opened_resolve (scope : List Name) (x y : Name) (n : Nameless) :
    Nameless.opened scope.length n (resolve (scope ++ [x]) y) =
      Nameless.replace x n (resolve scope y) := by
  by_cases hy : y ∈ scope
  · obtain ⟨i, hi⟩ := exists_resolve_of_mem hy
    have hne : i ≠ scope.length := Nat.ne_of_lt (lt_length_of_resolve hi)
    rw [resolve_append_of_mem hy, hi, Nameless.opened, if_neg hne, Nameless.replace]
  · by_cases hyx : y = x
    · subst hyx
      rw [resolve_append_cons hy, resolve_of_notMem hy, Nameless.opened, Nameless.replace,
        if_pos rfl, if_pos rfl]
    · have hy' : y ∉ scope ++ [x] := by simp [hy, hyx]
      rw [resolve_of_notMem hy', resolve_of_notMem hy, Nameless.opened, Nameless.replace,
        if_neg hyx]

theorem opened_namelessIn (scope : List Name) (x : Name) (n : Nameless) (e : Expr) :
    Nameless.opened scope.length n (e.namelessIn (scope ++ [x])) =
      Nameless.replace x n (e.namelessIn scope) := by
  induction e generalizing scope with
  | var y => exact opened_resolve scope x y n
  | fn y b ih => exact congrArg Nameless.fn (ih (y :: scope))
  | letIn y v b ihv ih => exact congrArg₂ Nameless.letIn (ihv scope) (ih (y :: scope))
  | letRec y v b ihv ih => exact congrArg₂ Nameless.letRec (ihv (y :: scope)) (ih (y :: scope))
  | unary op e ih => exact congrArg (Nameless.unary op) (ih scope)
  | binary op a b iha ihb => exact congrArg₂ (Nameless.binary op) (iha scope) (ihb scope)
  | cond a b c iha ihb ihc =>
    simp only [namelessIn, Nameless.opened, Nameless.replace, iha scope, ihb scope, ihc scope]
  | app f a ihf iha => exact congrArg₂ Nameless.app (ihf scope) (iha scope)
  | _ => rfl

/-- Substituting the name of a binder in its scope opens the binder. -/
theorem nameless_substitute_eq_opened {t : NameTable} (ht : t.Consistent) (x : Name) (r e : Expr) :
    (substitute x r e t).1.nameless = Nameless.opened 0 r.nameless (e.namelessIn [x]) :=
  ((substituted_substitute x r e t).namelessIn ht (.nil x r e)).trans
    (opened_namelessIn [] x r.nameless e).symm

inductive Layer : Expr → Nameless → Prop
  | var (x : Name) : Layer (.var x) (.free x)
  | int (n : Int64) : Layer (.int n) (.int n)
  | float (a : Double) : Layer (.float a) (.float a)
  | bool (b : Bool) : Layer (.bool b) (.bool b)
  | raise : Layer .raise .raise
  | unassigned : Layer .unassigned .unassigned
  | unary (op : UnaryOp) (e : Expr) : Layer (.unary op e) (.unary op e.nameless)
  | binary (op : BinaryOp) (a b : Expr) :
    Layer (.binary op a b) (.binary op a.nameless b.nameless)
  | cond (a b c : Expr) : Layer (.cond a b c) (.cond a.nameless b.nameless c.nameless)
  | app (f a : Expr) : Layer (.app f a) (.app f.nameless a.nameless)
  | fn (x : Name) (b : Expr) : Layer (.fn x b) (.fn (b.namelessIn [x]))
  | letIn (x : Name) (v b : Expr) : Layer (.letIn x v b) (.letIn v.nameless (b.namelessIn [x]))
  | letRec (x : Name) (v b : Expr) :
    Layer (.letRec x v b) (.letRec (v.namelessIn [x]) (b.namelessIn [x]))

theorem layer_nameless (e : Expr) : Layer e e.nameless := by
  cases e <;> constructor

theorem exists_fn_of_nameless_eq {e : Expr} {n : Nameless} (h : e.nameless = .fn n) :
    ∃ x b, e = .fn x b ∧ b.namelessIn [x] = n := by
  have hl := layer_nameless e
  rw [h] at hl
  cases hl with
  | fn x b => exact ⟨x, b, rfl, rfl⟩

theorem exists_letRec_of_nameless_eq {e : Expr} {n m : Nameless} (h : e.nameless = .letRec n m) :
    ∃ x v b, e = .letRec x v b ∧ v.namelessIn [x] = n ∧ b.namelessIn [x] = m := by
  have hl := layer_nameless e
  rw [h] at hl
  cases hl with
  | letRec x v b => exact ⟨x, v, b, rfl, rfl, rfl⟩

theorem eq_var_of_namelessIn_eq_bound {e : Expr} (h : e.namelessIn [x] = .bound i) :
    e = .var x := by
  cases e with
  | var y =>
    by_cases hy : y = x
    · rw [hy]
    · rw [namelessIn, resolve_of_notMem (by simpa using hy)] at h
      cases h
  | _ => cases h

end Expr

end LetCalculus
