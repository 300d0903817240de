import Mathlib.Data.List.Perm.Subperm
import LetCalculus.Name.Consistent

/-!
# Fresh names are fresh

The search for a fresh name stops testing after as many refusals as there are names to avoid.
Candidates with different numbers have different texts, so in a consistent table they are
different names, and the candidate that is taken untested cannot be one of the names to avoid.
-/

namespace LetCalculus.NameTable

theorem candidate_injective {stem : String} {i j : Nat} (h : candidate stem i = candidate stem j) :
    i = j := by
  have h := congrArg String.toList h
  simp only [candidate, String.toList_append] at h
  have h := congrArg (Nat.ofDigitChars 10 · 0) (List.append_cancel_left h)
  simpa [Nat.toString_eq_ofList_toDigits] using h

variable {t : NameTable} {stem : String} {avoid : List Name}

theorem Consistent.freshFrom (h : t.Consistent) (tries i : Nat) :
    (freshFrom stem avoid tries i t).2.Consistent := by
  induction tries generalizing t i with
  | zero => exact h.intern _
  | succ tries ih =>
    simp only [freshFrom_succ]
    split
    · exact ih (h.intern _) _
    · exact h.intern _

theorem Consistent.fresh (h : t.Consistent) (base : Name) (avoid : List Name) :
    (t.fresh base avoid).2.Consistent := h.freshFrom _ _

theorem intern_candidate_notMem (h : t.Consistent) {i : Nat} {refused : List Name}
    (hr : ∀ x ∈ refused, t.knows x = true ∧ ∃ j < i, t.text x = candidate stem j) :
    (t.intern (candidate stem i)).1 ∉ refused := by
  intro hm
  obtain ⟨hk, j, hj, ht⟩ := hr _ hm
  rw [← text_intern_of_knows _ hk, text_intern h] at ht
  exact Nat.ne_of_lt hj (candidate_injective ht).symm

/--
The search succeeds if the names refused so far are different names of earlier candidates and
enough tries are left for the other names to avoid.
-/
theorem freshFrom_notMem (h : t.Consistent) {tries i : Nat} {refused : List Name}
    (hn : refused.Nodup) (hs : refused ⊆ avoid)
    (hr : ∀ x ∈ refused, t.knows x = true ∧ ∃ j < i, t.text x = candidate stem j)
    (hl : avoid.length ≤ tries + refused.length) :
    (freshFrom stem avoid tries i t).1 ∉ avoid := by
  induction tries generalizing t i refused with
  | zero =>
    intro hx
    have hnew := intern_candidate_notMem h hr
    have := ((List.nodup_cons.2 ⟨hnew, hn⟩).subperm (List.cons_subset.2 ⟨hx, hs⟩)).length_le
    simp only [List.length_cons] at this
    omega
  | succ tries ih =>
    simp only [freshFrom_succ]
    split
    · next hx =>
      have hnew := intern_candidate_notMem h hr
      have hr' : ∀ x ∈ (t.intern (candidate stem i)).1 :: refused,
          (t.intern (candidate stem i)).2.knows x = true ∧
            ∃ j < i + 1, (t.intern (candidate stem i)).2.text x = candidate stem j := by
        intro x hm
        rcases List.mem_cons.1 hm with rfl | hm
        · exact ⟨knows_intern_self h _, i, Nat.lt_succ_self i, text_intern h _⟩
        · obtain ⟨hk, j, hj, ht⟩ := hr x hm
          exact ⟨knows_intern _ hk, j, Nat.lt_succ_of_lt hj, by rw [text_intern_of_knows _ hk, ht]⟩
      refine ih (h.intern _) (List.nodup_cons.2 ⟨hnew, hn⟩) (List.cons_subset.2 ⟨hx, hs⟩) hr'
        (by simp only [List.length_cons]; omega)
    · assumption

/-- A fresh name is none of the names to avoid. -/
theorem fresh_notMem (h : t.Consistent) (base : Name) (avoid : List Name) :
    (t.fresh base avoid).1 ∉ avoid :=
  freshFrom_notMem h List.nodup_nil (List.nil_subset _) (by simp) (Nat.le_add_right _ _)

end LetCalculus.NameTable
