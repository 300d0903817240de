import LetCalculus.Proofs.Names.Choice

/-!
# Tables that are full

A name table has room for as many texts as there are indices. `intern` disregards this bound, and
`intern?` refuses a new text beyond it. What is done over either of them agrees as long as the table
that is left has room for all its texts, and otherwise fails over `intern?` (`NameTable.Agrees`).
This is kept by sequencing, and so it passes from interning to the choice of a fresh name and to
substitution (`Expr.substitute?_eq`).
-/

namespace LetCalculus

namespace NameTable

variable {α β : Type}

/-- `q` does over a table that can be full what `p` does over one that cannot. -/
structure Agrees (p : TableM α) (q : TableM? α) : Prop where
  consistent : ∀ {t : NameTable}, t.Consistent → (p t).2.Consistent
  size_le : ∀ t : NameTable, t.size ≤ (p t).2.size
  eq : ∀ {t : NameTable}, t.Consistent → t.size ≤ capacity →
    q t = if (p t).2.size ≤ capacity then .ok (p t) else .error (.overflow capacity)

namespace Agrees

theorem pure (a : α) : Agrees (Pure.pure a) (Pure.pure a) where
  consistent ht := ht
  size_le t := Nat.le_refl t.size
  eq _ hc := (if_pos hc).symm

theorem bind {p : TableM α} {q : TableM? α} {f : α → TableM β} {g : α → TableM? β}
    (h : Agrees p q) (hf : ∀ a, Agrees (f a) (g a)) : Agrees (p >>= f) (q >>= g) where
  consistent ht := (hf _).consistent (h.consistent ht)
  size_le t := Nat.le_trans (h.size_le t) ((hf _).size_le _)
  eq {t} ht hc := by
    show (q t >>= fun r => g r.1 r.2) = _
    rw [h.eq ht hc]
    by_cases hp : (p t).2.size ≤ capacity
    · rw [if_pos hp]
      exact (hf _).eq (h.consistent ht) hp
    · -- A table that is too large already does not become smaller.
      have hf : ¬(f (p t).1 (p t).2).2.size ≤ capacity :=
        fun hle => hp (Nat.le_trans ((hf _).size_le _) hle)
      rw [if_neg hp]
      exact (if_neg hf).symm

theorem ite {c : Prop} [Decidable c] {p p' : TableM α} {q q' : TableM? α} (h : Agrees p q)
    (h' : Agrees p' q') : Agrees (if c then p else p') (if c then q else q') := by
  split
  · exact h
  · exact h'

end Agrees

theorem agrees_intern (s : String) : Agrees (fun t => t.intern s) (fun t => t.intern? s) where
  consistent ht := ht.intern s
  size_le t := by
    unfold intern
    split
    · exact Nat.le_refl _
    · simp [push, size]
  eq {t} ht hc := by
    rw [intern?_eq ht, size_intern ht]
    by_cases hs : s ∈ t.texts
    · simp [hs, hc]
    · rcases Nat.eq_or_lt_of_le hc with hfull | hroom
      · simp [hs, hfull]
      · simp [hs, hroom, Nat.succ_le_of_lt hroom]

theorem agrees_search (stem : String) (avoid : List Name) (tries i : Nat) :
    Agrees (search (m := TableM) (fun s t => t.intern s) stem avoid tries i)
      (search (m := TableM?) (fun s t => t.intern? s) stem avoid tries i) := by
  induction tries generalizing i with
  | zero => exact agrees_intern _
  | succ tries ih => exact (agrees_intern _).bind fun x => .ite (ih (i + 1)) (.pure x)

theorem agrees_fresh (base : Name) (avoid : List Name) :
    Agrees (fun t => t.fresh base avoid) (fun t => t.fresh? base avoid) where
  consistent {t} ht := (agrees_search (t.text base) avoid _ 1).consistent ht
  size_le t := (agrees_search (t.text base) avoid _ 1).size_le t
  eq {t} ht hc := (agrees_search (t.text base) avoid _ 1).eq ht hc

end NameTable

namespace Expr

open NameTable

/-- The induction goes along the definition, below a renamed binder by the size of the scope. -/
theorem agrees_substituteSized (x : Name) (r e : Expr) :
    Agrees (substituteSized (m := TableM) (fun base avoid t => t.fresh base avoid) x r e)
      (substituteSized (m := TableM?) (fun base avoid t => t.fresh? base avoid) x r e) := by
  unfold substituteSized
  cases e with
  | var y => exact .pure _
  | int n => exact .pure _
  | float a => exact .pure _
  | bool b => exact .pure _
  | raise => exact .pure _
  | unassigned => exact .pure _
  | unary op a => exact (agrees_substituteSized x r a).bind fun _ => .pure _
  | binary op a b =>
    exact (agrees_substituteSized x r a).bind fun _ =>
      (agrees_substituteSized x r b).bind fun _ => .pure _
  | cond a b c =>
    exact (agrees_substituteSized x r a).bind fun _ =>
      (agrees_substituteSized x r b).bind fun _ =>
        (agrees_substituteSized x r c).bind fun _ => .pure _
  | app a b =>
    exact (agrees_substituteSized x r a).bind fun _ =>
      (agrees_substituteSized x r b).bind fun _ => .pure _
  | fn y b =>
    refine .ite (.pure _) (.ite ?_ ?_)
    · exact (agrees_fresh _ _).bind fun z => (agrees_substituteSized y (var z) b).bind
        fun ⟨b₁, h₁⟩ => (agrees_substituteSized x r b₁).bind fun _ => .pure _
    · exact (agrees_substituteSized x r b).bind fun _ => .pure _
  | letIn y v b =>
    refine (agrees_substituteSized x r v).bind fun v' => ?_
    refine .ite (.pure _) (.ite ?_ ?_)
    · exact (agrees_fresh _ _).bind fun z => (agrees_substituteSized y (var z) b).bind
        fun ⟨b₁, h₁⟩ => (agrees_substituteSized x r b₁).bind fun _ => .pure _
    · exact (agrees_substituteSized x r b).bind fun _ => .pure _
  | letRec y v b =>
    refine .ite (.pure _) (.ite ?_ ?_)
    · exact (agrees_fresh _ _).bind fun z => (agrees_substituteSized y (var z) v).bind
        fun ⟨v₁, hv₁⟩ => (agrees_substituteSized x r v₁).bind
        fun _ => (agrees_substituteSized y (var z) b).bind
        fun ⟨b₁, hb₁⟩ => (agrees_substituteSized x r b₁).bind fun _ => .pure _
    · exact (agrees_substituteSized x r v).bind fun _ =>
        (agrees_substituteSized x r b).bind fun _ => .pure _
termination_by e.size
decreasing_by
  all_goals simp only [size]
  all_goals first
    | omega
    | have := h₁ rfl; omega
    | have := hv₁ rfl; omega
    | have := hb₁ rfl; omega

/--
As long as the table that is left has room for all its texts, a substitution that can be refused
new names gives what one gives that cannot; otherwise it fails for want of room.
-/
theorem substitute?_eq {t : NameTable} (ht : t.Consistent) (hc : t.size ≤ capacity) (x : Name)
    (r e : Expr) :
    substitute? x r e t =
      if (substitute x r e t).2.size ≤ capacity then .ok (substitute x r e t)
      else .error (.overflow capacity) := by
  rw [substitute?, (agrees_substituteSized x r e).eq ht hc, substitute]
  split <;> rfl

theorem substitute?_fn_of_full {t : NameTable} (ht : t.Consistent) (hfull : t.size = capacity)
    {x y : Name} {r b : Expr} (hy : y ≠ x) (hb : captures x r y [b] = true)
    (hnew : candidate (t.text y) 1 ∉ t.texts) :
    substitute? x r (fn y b) t = .error (.overflow capacity) := by
  rw [substitute?_eq ht (Nat.le_of_eq hfull), if_neg]
  have hfresh := size_lt_fresh ht hnew (taken x r [b])
  have hrename := fun z t => (agrees_substituteSized y (var z) b).size_le t
  have hrest := fun b t => (agrees_substituteSized x r b).size_le t
  rw [substitute_fn, if_neg hy, if_pos hb, ← hfull, Nat.not_le]
  exact Nat.lt_of_lt_of_le hfresh (Nat.le_trans (hrename _ _) (hrest _ _))

end Expr

end LetCalculus
