import LetCalculus.Proofs.Substitution.Course
import LetCalculus.Proofs.Substitution.Plain

/-!
# Substitution renames only when it must

A binder is given a new name only if the name it has is free in what is put in its scope. So
substitution is the plain replacement of the free occurrences exactly where none of them is in the
scope of such a binder, and then it asks for no fresh name (`substitute_eq_replaceFree_iff`).

Plain replacement keeps all binders. A renamed one has a name that is not free in what is put in,
while its old name was, so where a binder is renamed the results differ at this binder already.
-/

namespace LetCalculus.Expr

variable {x y : Name} {r e : Expr} {t : NameTable} {scopes : List Expr}

theorem fresh_ne_of_captures (ht : t.Consistent) (hc : captures x r y scopes = true) :
    (t.fresh y (taken x r scopes)).1 ≠ y := by
  intro hy
  have hn := NameTable.fresh_notMem ht y (taken x r scopes)
  rw [hy] at hn
  exact hn (mem_taken.2 (.inr (.inl (captures_iff.1 hc).1)))

/-- If all binders have kept their names, none of them would have captured. -/
theorem admits_of_substitute_eq (ht : t.Consistent)
    (h : (substitute x r e t).1 = replaceFree x r e) : Admits x r e := by
  induction e generalizing t with
  | unary op a ih =>
    rw [substitute_unary, replaceFree] at h
    exact ih ht (unary.inj h).2
  | binary op a b iha ihb =>
    rw [substitute_binary, replaceFree] at h
    obtain ⟨-, ha, hb⟩ := binary.inj h
    exact ⟨iha ht ha, ihb (consistent_substitute ht x r a) hb⟩
  | cond a b c iha ihb ihc =>
    rw [substitute_cond, replaceFree] at h
    obtain ⟨ha, hb, hc⟩ := cond.inj h
    have hta := consistent_substitute ht x r a
    exact ⟨iha ht ha, ihb hta hb, ihc (consistent_substitute hta x r b) hc⟩
  | app f a ihf iha =>
    rw [substitute_app, replaceFree] at h
    obtain ⟨hf, ha⟩ := app.inj h
    exact ⟨ihf ht hf, iha (consistent_substitute ht x r f) ha⟩
  | fn y b ih =>
    rw [substitute_fn, replaceFree] at h
    by_cases hy : y = x
    · exact .inl hy
    rw [if_neg hy, if_neg hy] at h
    split at h
    · next hc => exact absurd (fn.inj h).1 (fresh_ne_of_captures ht hc)
    · next hc =>
      have hc := captures_eq_false_iff.1 (Bool.eq_false_iff.2 hc)
      exact .inr ⟨by simpa using hc, ih ht (fn.inj h).2⟩
  | letIn y v b ihv ih =>
    rw [substitute_letIn, replaceFree] at h
    have htv := consistent_substitute ht x r v
    by_cases hy : y = x
    · simp only [if_pos hy] at h
      exact ⟨ihv ht (letIn.inj h).2.1, .inl hy⟩
    simp only [if_neg hy] at h
    split at h
    · next hc => exact absurd (letIn.inj h).1 (fresh_ne_of_captures htv hc)
    · next hc =>
      have hc := captures_eq_false_iff.1 (Bool.eq_false_iff.2 hc)
      obtain ⟨-, hv, hb⟩ := letIn.inj h
      exact ⟨ihv ht hv, .inr ⟨by simpa using hc, ih htv hb⟩⟩
  | letRec y v b ihv ih =>
    rw [substitute_letRec, replaceFree] at h
    by_cases hy : y = x
    · exact .inl hy
    simp only [if_neg hy] at h
    split at h
    · next hc => exact absurd (letRec.inj h).1 (fresh_ne_of_captures ht hc)
    · next hc =>
      have hc := captures_eq_false_iff.1 (Bool.eq_false_iff.2 hc)
      obtain ⟨-, hv, hb⟩ := letRec.inj h
      exact .inr ⟨by simpa using hc, ihv ht hv, ih (consistent_substitute ht x r v) hb⟩
  | _ => trivial

/--
Substitution is the plain replacement of the free occurrences if and only if none of these is in the
scope of a binder whose name is free in what is put in, and then it leaves the name table as it is.
So it is where the name does not occur free, where it changes nothing at all, and where what is put
in has no free variables.
-/
theorem substitute_eq_replaceFree_iff (ht : t.Consistent) (x : Name) (r e : Expr) :
    ((substitute x r e t).1 = replaceFree x r e ↔
      ∀ ys ∈ e.bindersOver x, ∀ y ∈ ys, ¬FreeIn y r) ∧
    ((∀ ys ∈ e.bindersOver x, ∀ y ∈ ys, ¬FreeIn y r) → (substitute x r e t).2 = t) ∧
    (¬FreeIn x e → substitute x r e t = (e, t)) ∧
    ((∀ y, ¬FreeIn y r) → substitute x r e t = (replaceFree x r e, t)) := by
  rw [← admits_iff]
  refine ⟨⟨admits_of_substitute_eq ht, ?_⟩, ?_, ?_, fun hr => substitute_of_closed hr x e t⟩
  · intro h
    rw [substitute_of_admits h]
  · intro h
    rw [substitute_of_admits h]
  · intro hx
    rw [substitute_of_admits (admits_of_not_freeIn hx r), replaceFree_of_not_freeIn hx]

/-- The binder of `y` is over the second occurrence of `x` only: `y` is captured, `z` is not. -/
theorem substitute_eq_replaceFree_iff_second :
    let x : Name := ⟨13⟩
    let y : Name := ⟨14⟩
    let z : Name := ⟨15⟩
    let e : Expr :=
      .app (.fn z (.var z)) (.app (.var x) (.letRec y (.var y) (.app (.var y) (.var x))))
    NameTable.initial.Consistent ∧ e.bindersOver x = [[], [y]] ∧
      (substitute x (.var y) e .initial).1 ≠ replaceFree x (.var y) e ∧
      substitute x (.var z) e .initial = (replaceFree x (.var z) e, .initial) := by
  intro x y z e
  have ht := NameTable.consistent_initial
  have hy := substitute_eq_replaceFree_iff ht x (.var y) e
  have hz := substitute_eq_replaceFree_iff ht x (.var z) e
  have hn : ∀ ys ∈ e.bindersOver x, ∀ u ∈ ys, ¬FreeIn u (.var z) := by decide
  exact ⟨ht, rfl, fun h => absurd (hy.1.1 h) (by decide), Prod.ext (hz.1.2 hn) (hz.2.1 hn)⟩

end LetCalculus.Expr
