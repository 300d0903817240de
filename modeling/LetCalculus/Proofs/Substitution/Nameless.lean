import LetCalculus.Expr.Nameless
import LetCalculus.Proofs.Substitution.Course

/-!
# Substitution and the nameless form

In the nameless form there is nothing to capture, and substitution is plain replacement. The
named substitution computes the same thing: the nameless form of its result is the nameless form
of the expression with the free occurrences replaced (`nameless_substitute`). So every bound
occurrence still belongs to its own binder, and every free name of what was put in is still free.

The induction is on the course of the substitution. Its hypothesis compares the binders in force
before and after, which differ in the names of the renamed ones: `Fits` says that all names but
the substituted one resolve alike, and that what is put in resolves as an occurrence of the
substituted name did, at the place itself and below all binders that capture nothing.
-/

namespace LetCalculus

namespace Expr

theorem resolve_of_notMem {scope : List Name} {x : Name} (h : x ∉ scope) :
    resolve scope x = .free x := by
  rw [resolve, List.idxOf?_eq_none_iff.2 h]

theorem exists_resolve_of_mem {scope : List Name} {x : Name} (h : x ∈ scope) :
    ∃ i, resolve scope x = .bound i := by
  obtain ⟨i, hi⟩ := Option.isSome_iff_exists.1 (List.isSome_idxOf?.2 h)
  exact ⟨i, by rw [resolve, hi]⟩

theorem resolve_append_cons {front : List Name} {x : Name} (h : x ∉ front) (scope : List Name) :
    resolve (front ++ x :: scope) x = .bound front.length := by
  induction front with
  | nil => exact resolve_cons_self x scope
  | cons y front ih =>
    obtain ⟨hy, hx⟩ : x ≠ y ∧ x ∉ front := by simpa using h
    rw [List.cons_append, resolve_cons_of_ne hy, ih hx]
    rfl

theorem resolve_eq_free_or_bound (scope : List Name) (x : Name) :
    resolve scope x = .free x ∨ ∃ i, resolve scope x = .bound i := by
  unfold resolve
  cases scope.idxOf? x with
  | none => exact .inl rfl
  | some i => exact .inr ⟨i, rfl⟩

theorem replace_resolve_of_ne {x y : Name} (h : y ≠ x) (n : Nameless) (scope : List Name) :
    Nameless.replace x n (resolve scope y) = resolve scope y := by
  rcases resolve_eq_free_or_bound scope y with hy | ⟨i, hy⟩
  · rw [hy, Nameless.replace, if_neg h]
  · rw [hy, Nameless.replace]

theorem replace_namelessIn_of_mem {scope : List Name} {x : Name} (h : x ∈ scope) (n : Nameless)
    (e : Expr) : Nameless.replace x n (e.namelessIn scope) = e.namelessIn scope := by
  induction e generalizing scope with
  | var y =>
    by_cases hy : y = x
    · subst hy
      obtain ⟨i, hi⟩ := exists_resolve_of_mem h
      rw [namelessIn, hi, Nameless.replace]
    · exact replace_resolve_of_ne hy n scope
  | fn y b ih => simp only [namelessIn, Nameless.replace, ih (List.mem_cons_of_mem y h)]
  | letIn y v b ihv ih =>
    simp only [namelessIn, Nameless.replace, ihv h, ih (List.mem_cons_of_mem y h)]
  | letRec y v b ihv ih =>
    have h := List.mem_cons_of_mem y h
    simp only [namelessIn, Nameless.replace, ihv h, ih h]
  | unary op e ih => simp only [namelessIn, Nameless.replace, ih h]
  | binary op a b iha ihb => simp only [namelessIn, Nameless.replace, iha h, ihb h]
  | cond a b c iha ihb ihc => simp only [namelessIn, Nameless.replace, iha h, ihb h, ihc h]
  | app f a ihf iha => simp only [namelessIn, Nameless.replace, ihf h, iha h]
  | _ => rfl

/--
Putting `r` for `x` in `e` fits the binders `scope` before and `scope'` after it: other names
resolve alike, and where `x` occurs, `r` resolves as `x` did, replaced. The list `front` stands
for binders passed on the way to an occurrence.
-/
structure Fits (x : Name) (r e : Expr) (scope' scope : List Name) : Prop where
  others : ∀ y, y ≠ x → FreeIn y e → resolve scope' y = resolve scope y
  self : FreeIn x e → ∀ front : List Name, (∀ y ∈ front, y ≠ x ∧ ¬FreeIn y r) →
    r.namelessIn (front ++ scope') = Nameless.replace x r.nameless (resolve (front ++ scope) x)

namespace Fits

variable {x y z : Name} {r e a b : Expr} {scope' scope : List Name}

theorem nil (x : Name) (r e : Expr) : Fits x r e [] [] where
  others _ _ _ := rfl
  self _ front hf := by
    have hx : x ∉ front := fun hx => (hf x hx).1 rfl
    rw [List.append_nil, resolve_of_notMem hx, Nameless.replace, if_pos rfl]
    refine namelessIn_congr ?_
    intro y hy
    have hy : y ∉ front := fun hm => (hf y hm).2 hy
    rw [resolve_of_notMem hy, resolve_of_notMem List.not_mem_nil]

theorem part (h : Fits x r e scope' scope) (ha : ∀ y, FreeIn y a → FreeIn y e) :
    Fits x r a scope' scope :=
  ⟨fun y hy hf => h.others y hy (ha y hf), fun hf => h.self (ha x hf)⟩

theorem under (h : Fits x r e scope' scope) (hy : y ≠ x) (hc : FreeIn y r → ¬FreeIn x b)
    (hb : ∀ v, v ≠ y → FreeIn v b → FreeIn v e) : Fits x r b (y :: scope') (y :: scope) where
  others v hv hf := resolve_cons_congr fun hvy => h.others v hv (hb v hvy hf)
  self hf front hfront := by
    have hr : ∀ v ∈ front ++ [y], v ≠ x ∧ ¬FreeIn v r := by
      intro v hv
      rcases List.mem_append.1 hv with hv | hv
      · exact hfront v hv
      · rw [List.mem_singleton.1 hv]
        exact ⟨hy, fun hyr => hc hyr hf⟩
    simpa using h.self (hb x hy.symm hf) (front ++ [y]) hr

/-- The renaming of a binder itself fits the old name before and the new one after it. -/
theorem rename (hz : ¬FreeIn z b) (scope : List Name) :
    Fits y (var z) b (z :: scope) (y :: scope) where
  others v hv hf := by
    have hvz : v ≠ z := fun e => hz (e ▸ hf)
    rw [resolve_cons_of_ne hvz, resolve_cons_of_ne hv]
  self _ front hf := by
    have hy : y ∉ front := fun hm => (hf y hm).1 rfl
    have hz : z ∉ front := fun hm => (hf z hm).2 rfl
    rw [namelessIn, resolve_append_cons hz, resolve_append_cons hy, Nameless.replace]

theorem renamed {t t₁ : NameTable} {b₁ : Expr} (h : Fits x r e scope' scope)
    (hzx : z ≠ x) (hzr : ¬FreeIn z r) (hs : Substituted y (var z) b t b₁ t₁)
    (hb : ∀ v, v ≠ y → FreeIn v b → FreeIn v e) : Fits x r b₁ (z :: scope') (z :: scope) := by
  refine h.under hzx (fun hr => absurd hr hzr) ?_
  intro v hv hf
  rcases hs.freeIn hf with hvz | ⟨hvy, hvb⟩
  · exact absurd hvz hv
  · exact hb v hvy hvb

theorem shadowed (h : Fits x r e scope' scope) (hb : ∀ y, y ≠ x → FreeIn y b → FreeIn y e) :
    b.namelessIn (x :: scope') = Nameless.replace x r.nameless (b.namelessIn (x :: scope)) := by
  rw [replace_namelessIn_of_mem List.mem_cons_self]
  exact namelessIn_congr fun y hy => resolve_cons_congr fun hyx => h.others y hyx (hb y hyx hy)

end Fits

variable {x : Name} {r e e' : Expr} {t t' : NameTable} {scope' scope : List Name}

theorem fresh_of_taken (ht : t.Consistent) (y x : Name) (r : Expr) (scopes : List Expr) :
    (t.fresh y (taken x r scopes)).1 ≠ x ∧ ¬FreeIn (t.fresh y (taken x r scopes)).1 r ∧
      ∀ b ∈ scopes, ¬FreeIn (t.fresh y (taken x r scopes)).1 b := by
  simpa [mem_taken] using NameTable.fresh_notMem ht y (taken x r scopes)

/-- The nameless form of what a substitution gives, under binders that fit. -/
theorem Substituted.namelessIn (h : Substituted x r e t e' t') (ht : t.Consistent)
    (hf : Fits x r e scope' scope) :
    e'.namelessIn scope' = Nameless.replace x r.nameless (e.namelessIn scope) := by
  induction h generalizing scope' scope with
  | @var_self x r t =>
    exact hf.self rfl [] (fun _ h => absurd h List.not_mem_nil)
  | @var_other x r y t hy =>
    rw [Expr.namelessIn, Expr.namelessIn, hf.others y hy rfl, replace_resolve_of_ne hy]
  | unary _ ih =>
    rw [Expr.namelessIn, Expr.namelessIn, Nameless.replace, ih ht (hf.part fun _ h => h)]
  | binary ha _ iha ihb =>
    have hta := ha.consistent ht
    simp only [Expr.namelessIn, Nameless.replace, iha ht (hf.part fun _ => .inl),
      ihb hta (hf.part fun _ => .inr)]
  | cond ha hb _ iha ihb ihc =>
    have hta := ha.consistent ht
    have htb := hb.consistent hta
    simp only [Expr.namelessIn, Nameless.replace, iha ht (hf.part fun _ => .inl),
      ihb hta (hf.part fun _ h => .inr (.inl h)), ihc htb (hf.part fun _ h => .inr (.inr h))]
  | app hf' _ ihf iha =>
    have htf := hf'.consistent ht
    simp only [Expr.namelessIn, Nameless.replace, ihf ht (hf.part fun _ => .inl),
      iha htf (hf.part fun _ => .inr)]
  | fn_shadowed =>
    simp only [Expr.namelessIn, Nameless.replace, hf.shadowed fun _ hy hb => ⟨hy, hb⟩]
  | fn_kept hy hc _ ih =>
    have hb := hf.under hy hc fun v hv hb => ⟨hv, hb⟩
    simp only [Expr.namelessIn, Nameless.replace, ih ht hb]
  | @fn_renamed x r y b b₁ b' t t₁ t' z hy hx hz hs _ ih₁ ih₂ =>
    subst hz
    obtain ⟨hzx, hzr, hzb⟩ := fresh_of_taken ht y x r [b]
    have hb := hf.renamed hzx hzr hs fun v hv hb => ⟨hv, hb⟩
    simp only [Expr.namelessIn, Nameless.replace, ih₂ (hs.consistent (ht.fresh _ _)) hb,
      ih₁ (ht.fresh _ _) (.rename (hzb b (by simp)) scope),
      replace_namelessIn_of_mem List.mem_cons_self]
  | letIn_shadowed _ ih =>
    simp only [Expr.namelessIn, Nameless.replace, ih ht (hf.part fun _ => .inl),
      hf.shadowed fun _ hy hb => .inr ⟨hy, hb⟩]
  | letIn_kept hy hc hv _ ihv ih =>
    have hb := hf.under hy hc fun v hv hb => .inr ⟨hv, hb⟩
    simp only [Expr.namelessIn, Nameless.replace, ihv ht (hf.part fun _ => .inl),
      ih (hv.consistent ht) hb]
  | @letIn_renamed x r y v v' b b₁ b' t t₁ t₂ t' z hy hx hv hz hs _ ihv ih₁ ih₂ =>
    subst hz
    have ht₁ := hv.consistent ht
    obtain ⟨hzx, hzr, hzb⟩ := fresh_of_taken ht₁ y x r [b]
    have hb := hf.renamed hzx hzr hs fun v hv hb => .inr ⟨hv, hb⟩
    simp only [Expr.namelessIn, Nameless.replace, ihv ht (hf.part fun _ => .inl),
      ih₂ (hs.consistent (ht₁.fresh _ _)) hb,
      ih₁ (ht₁.fresh _ _) (.rename (hzb b (by simp)) scope),
      replace_namelessIn_of_mem List.mem_cons_self]
  | letRec_shadowed =>
    simp only [Expr.namelessIn, Nameless.replace, hf.shadowed fun _ hy hv => ⟨hy, .inl hv⟩,
      hf.shadowed fun _ hy hb => ⟨hy, .inr hb⟩]
  | letRec_kept hy hc hv _ ihv ih =>
    have hfv := hf.under hy (fun hr => (hc hr).1) fun v hv hb => ⟨hv, .inl hb⟩
    have hfb := hf.under hy (fun hr => (hc hr).2) fun v hv hb => ⟨hv, .inr hb⟩
    simp only [Expr.namelessIn, Nameless.replace, ihv ht hfv, ih (hv.consistent ht) hfb]
  | @letRec_renamed x r y v v₁ v' b b₁ b' t t₁ t₂ t₃ t' z hy hx hz hsv hv hsb _ ihv₁ ihv ih₁ ih =>
    subst hz
    obtain ⟨hzx, hzr, hzb⟩ := fresh_of_taken ht y x r [v, b]
    have ht₁ := hsv.consistent (ht.fresh _ _)
    have ht₂ := hv.consistent ht₁
    have hfv := hf.renamed hzx hzr hsv fun v hv hb => ⟨hv, .inl hb⟩
    have hfb := hf.renamed hzx hzr hsb fun v hv hb => ⟨hv, .inr hb⟩
    simp only [Expr.namelessIn, Nameless.replace, ihv ht₁ hfv,
      ihv₁ (ht.fresh _ _) (.rename (hzb v (by simp)) scope), ih (hsb.consistent ht₂) hfb,
      ih₁ ht₂ (.rename (hzb b (by simp)) scope), replace_namelessIn_of_mem List.mem_cons_self]
  | _ => rfl

theorem Substituted.nameless (h : Substituted x r e t e' t') (ht : t.Consistent) :
    e'.nameless = Nameless.replace x r.nameless e.nameless := h.namelessIn ht (.nil x r e)

/--
The nameless form of a substitution is the nameless form of the expression with the free
occurrences of the name replaced. What is put in has the same nameless form in every place, so
no binder captures a free name of it, and no occurrence changes the binder that it belongs to.
-/
theorem nameless_substitute {t : NameTable} (ht : t.Consistent) (x : Name) (r e : Expr) :
    (substitute x r e t).1.nameless = Nameless.replace x r.nameless e.nameless :=
  (substituted_substitute x r e t).namelessIn ht (.nil x r e)

/-- The name of a recursive function would capture, and its new name is that of the parameter. -/
theorem nameless_substitute_letRec :
    let f : Name := ⟨14⟩
    let x : Name := ⟨13⟩
    let e : Expr := .letRec f (.fn ⟨15⟩ (.app (.var f) (.var x))) (.app (.var f) (.var x))
    NameTable.initial.Consistent ∧
      (substitute x (.app (.var f) (.var ⟨13⟩)) e .initial).1.nameless =
        .letRec (.fn (.app (.bound 1) (.app (.free f) (.free ⟨13⟩))))
          (.app (.bound 0) (.app (.free f) (.free ⟨13⟩))) :=
  ⟨NameTable.consistent_initial, (nameless_substitute NameTable.consistent_initial _ _ _).trans rfl⟩

end Expr

end LetCalculus
