import LetCalculus.Expr.Occurrence

/-!
# Where substitution renames nothing

Substitution renames a binder only if it would capture a free variable of what is put in its scope.
Where there is no such binder, it is the plain replacement of the free occurrences, and the name
table is not asked for fresh names (`substitute_of_admits`). This is so for everything that has no
free variables itself (`substitute_of_closed`).
-/

namespace LetCalculus.Expr

variable {x y : Name} {r e : Expr} {scopes : List Expr}

theorem captures_eq_false_iff :
    captures x r y scopes = false ↔ (FreeIn y r → ∀ b ∈ scopes, ¬FreeIn x b) := by
  rw [Bool.eq_false_iff, ne_eq, captures_iff]
  simp

theorem substitute_of_admits (h : Admits x r e) (t : NameTable) :
    substitute x r e t = (replaceFree x r e, t) := by
  induction e with
  | var y => rw [substitute_var, replaceFree]
  | int n => rw [substitute_int, replaceFree]
  | float a => rw [substitute_float, replaceFree]
  | bool b => rw [substitute_bool, replaceFree]
  | raise => rw [substitute_raise, replaceFree]
  | unassigned => rw [substitute_unassigned, replaceFree]
  | unary op a ih =>
    rw [substitute_unary, replaceFree]
    simp only [ih h]
  | binary op a b iha ihb =>
    rw [substitute_binary, replaceFree]
    simp only [iha h.1, ihb h.2]
  | cond a b c iha ihb ihc =>
    rw [substitute_cond, replaceFree]
    simp only [iha h.1, ihb h.2.1, ihc h.2.2]
  | app f a ihf iha =>
    rw [substitute_app, replaceFree]
    simp only [ihf h.1, iha h.2]
  | fn y b ih =>
    rw [substitute_fn, replaceFree]
    by_cases hy : y = x
    · simp [hy]
    · obtain ⟨hc, hb⟩ := h.resolve_left hy
      have hn : captures x r y [b] = false := captures_eq_false_iff.2 (by simpa using hc)
      simp [hy, hn, ih hb]
  | letIn y v b ihv ih =>
    obtain ⟨hv, h⟩ := h
    rw [substitute_letIn, replaceFree]
    by_cases hy : y = x
    · simp [hy, ihv hv]
    · obtain ⟨hc, hb⟩ := h.resolve_left hy
      have hn : captures x r y [b] = false := captures_eq_false_iff.2 (by simpa using hc)
      simp [hy, hn, ihv hv, ih hb]
  | letRec y v b ihv ih =>
    rw [substitute_letRec, replaceFree]
    by_cases hy : y = x
    · simp [hy]
    · obtain ⟨hc, hv, hb⟩ := h.resolve_left hy
      have hn : captures x r y [v, b] = false := captures_eq_false_iff.2 (by simpa using hc)
      simp [hy, hn, ihv hv, ih hb]

theorem substitute_of_closed (h : ∀ y, ¬FreeIn y r) (x : Name) (e : Expr) (t : NameTable) :
    substitute x r e t = (replaceFree x r e, t) :=
  substitute_of_admits (admits_of_closed h x e) t

end LetCalculus.Expr
