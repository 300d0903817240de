import LetCalculus.Proofs.Substitution.Size

/-!
# Substitutions one after the other

Two substitutions can be made in either order, if what is put in by the first one to be made is also
substituted when it comes in first, and the second one puts in nothing that the first is about
(`nameless_substitute_substitute`). The two orders rename different binders and come by different
fresh names, so the results are the same up to the names of binders: this is the equality of
nameless forms, in which both orders are replacements of free places.
-/

namespace LetCalculus

namespace Nameless

variable {x y : Name} {m n k : Nameless}

theorem replace_of_count_eq_zero (h : m.count x = 0) (n : Nameless) : replace x n m = m := by
  induction m <;> grind [replace, count]

/-- Replacements of different names commute where the one puts in nothing for the other. -/
theorem replace_replace (hxy : x ≠ y) (hk : k.count x = 0) (m n : Nameless) :
    replace y k (replace x n m) = replace x (replace y k n) (replace y k m) := by
  induction m with
  | free z =>
    by_cases hx : z = x
    · have hy : z ≠ y := by rwa [hx]
      rw [replace, if_pos hx, replace, if_neg hy, replace, if_pos hx]
    · by_cases hy : z = y
      · rw [replace, if_neg hx, replace, if_pos hy, replace_of_count_eq_zero hk]
      · rw [replace, if_neg hx, replace, if_neg hy, replace, if_neg hx]
  | _ => simp_all only [replace]

end Nameless

namespace Expr

theorem count_nameless {x : Name} {e : Expr} (h : ¬FreeIn x e) : e.nameless.count x = 0 := by
  rw [nameless, count_namelessIn, if_neg List.not_mem_nil, occurrences_eq_zero_iff.2 h]

/--
Putting `r` for `x` and then `u` for `y` comes to the same, up to the names of binders, as putting
`u` for `y` and then for `x` what becomes of `r` when `u` is put for `y` in it, provided that `x` is
not free in `u`. It does not matter which name tables the two orders start from, nor whether `u` is
put into `r` first or into the expression.
-/
theorem nameless_substitute_substitute {t t' : NameTable} (ht : t.Consistent)
    (ht' : t'.Consistent) {x y : Name} (hxy : x ≠ y) (e r : Expr) {u : Expr} (hu : ¬FreeIn x u) :
    let e₁ := substitute x r e t
    let e₂ := substitute y u e₁.1 e₁.2
    (let r' := substitute y u r t'
      let e' := substitute y u e r'.2
      (substitute x r'.1 e'.1 e'.2).1.nameless = e₂.1.nameless) ∧
    (let e' := substitute y u e t'
      let r' := substitute y u r e'.2
      (substitute x r'.1 e'.1 r'.2).1.nameless = e₂.1.nameless) := by
  intro e₁ e₂
  have same : ∀ {r' e' : Expr} {s : NameTable}, s.Consistent →
      r'.nameless = Nameless.replace y u.nameless r.nameless →
      e'.nameless = Nameless.replace y u.nameless e.nameless →
      (substitute x r' e' s).1.nameless = e₂.1.nameless := by
    intro r' e' s hs hr he
    have h₁ := (substituted_substitute x r e t).nameless ht
    have h₂ := (substituted_substitute y u e₁.1 e₁.2).nameless (consistent_substitute ht x r e)
    calc (substitute x r' e' s).1.nameless
        = Nameless.replace x r'.nameless e'.nameless :=
          (substituted_substitute x r' e' s).nameless hs
      _ = Nameless.replace x (Nameless.replace y u.nameless r.nameless)
            (Nameless.replace y u.nameless e.nameless) := by rw [hr, he]
      _ = Nameless.replace y u.nameless (Nameless.replace x r.nameless e.nameless) :=
          (Nameless.replace_replace hxy (count_nameless hu) e.nameless r.nameless).symm
      _ = e₂.1.nameless := by rw [h₂, h₁]
  constructor
  · intro r' e'
    have hr := consistent_substitute ht' y u r
    exact same (consistent_substitute hr y u e) ((substituted_substitute y u r t').nameless ht')
      ((substituted_substitute y u e r'.2).nameless hr)
  · intro e' r'
    have he := consistent_substitute ht' y u e
    exact same (consistent_substitute he y u r) ((substituted_substitute y u r e'.2).nameless he)
      ((substituted_substitute y u e t').nameless ht')

/--
One order renames the parameter `z` for each of the two substitutions, the second time because its
new name `z'1` is put in; the other order renames it once.
-/
theorem nameless_substitute_substitute_renamed :
    let t : NameTable := ((NameTable.initial.intern "z").2.intern "z'1").2
    let z : Name := ⟨13⟩
    let w : Name := ⟨14⟩
    let x : Name := ⟨15⟩
    let y : Name := ⟨16⟩
    let e : Expr := .fn z (.app (.var x) (.app (.var y) (.var z)))
    let e₁ := substitute x (.var z) e t
    let e₂ := substitute y (.var w) e₁.1 e₁.2
    let r' := substitute y (.var w) (.var z) t
    let e' := substitute y (.var w) e r'.2
    (t.Consistent ∧ x ≠ y ∧ ¬FreeIn x (.var w)) ∧
      (substitute x r'.1 e'.1 e'.2).1.nameless = e₂.1.nameless := by
  intro t z w x y e e₁ e₂ r' e'
  have ht : t.Consistent := (NameTable.consistent_initial.intern "z").intern "z'1"
  have hxy : x ≠ y := by decide
  have hu : ¬FreeIn x (.var w) := by decide
  exact ⟨⟨ht, hxy, hu⟩, (nameless_substitute_substitute ht ht hxy e (.var z) hu).1⟩

end Expr

end LetCalculus
