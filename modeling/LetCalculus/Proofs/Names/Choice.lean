import Mathlib.Data.Finset.Card
import LetCalculus.Proofs.Substitution.Course

/-!
# The choice of a fresh name

The candidates for a fresh name are tried in the order of their numbers, and each enters the table
when it is tried. The search always finds a name, after at most one more try than there are names to
avoid, and it finds the first one that need not be avoided (`NameTable.fresh_first`).

An index to avoid need not belong to any text when the search begins: a candidate may come to have
this very index in the course of it. So names are compared where they are given, in the table in
which the candidates before them have been tried already (`NameTable.tried`, `NameTable.offer`).
Different candidates have different texts and hence different names, which bounds their number.
-/

namespace LetCalculus.NameTable

/-- The table once the candidates up to number `n` have been tried, one after the other. -/
def tried (t : NameTable) (stem : String) : Nat → NameTable
  | 0 => t
  | n + 1 => ((t.tried stem n).intern (candidate stem (n + 1))).2

def offer (t : NameTable) (stem : String) (n : Nat) : Name :=
  ((t.tried stem n).intern (candidate stem (n + 1))).1

/--
The search with nothing taken for granted: every candidate is tested, a full table refuses a new
one, and after a number of tries in vain the search comes back without a name.
-/
def seek (stem : String) (avoid : List Name) : Nat → Nat → NameTable →
    Except InternError (Option Name × NameTable)
  | 0, _, t => .ok (none, t)
  | tries + 1, i, t =>
    match t.intern? (candidate stem i) with
    | .error e => .error e
    | .ok (x, t) => if x ∈ avoid then seek stem avoid tries (i + 1) t else .ok (some x, t)

variable {t : NameTable} {stem : String} {avoid : List Name} {m n k : Nat}

theorem Consistent.tried (h : t.Consistent) (stem : String) (n : Nat) :
    (t.tried stem n).Consistent := by
  induction n with
  | zero => exact h
  | succ n ih => exact ih.intern _

theorem extends_tried (t : NameTable) (stem : String) (h : n ≤ m) :
    (t.tried stem m).Extends (t.tried stem n) := by
  induction h with
  | refl => exact .refl _
  | step _ ih => exact (extends_intern _ _).trans ih

theorem Extends.size_le {t' : NameTable} (h : t'.Extends t) : t.size ≤ t'.size := by
  refine Nat.le_of_not_lt ?_
  intro hlt
  exact Nat.lt_irrefl _ (of_decide_eq_true (h ⟨t'.size⟩ (decide_eq_true hlt)).1)

theorem candidate_notMem_map (stem : String) (n : Nat) :
    candidate stem (n + 1) ∉ (List.range' 1 n).map (candidate stem) := by
  rw [List.mem_map]
  rintro ⟨j, hj, he⟩
  have := candidate_injective he
  rw [List.mem_range'_1] at hj
  omega

/-- What is tried and has not been known before is added, in the order of the numbers. -/
theorem texts_tried (h : t.Consistent) (stem : String) (n : Nat) :
    (t.tried stem n).texts.toList =
      t.texts.toList ++ ((List.range' 1 n).map (candidate stem)).filter (· ∉ t.texts) := by
  induction n with
  | zero => simp [NameTable.tried]
  | succ n ih =>
    -- Of all that has been added so far nothing is this candidate.
    have hmem : candidate stem (n + 1) ∈ (t.tried stem n).texts ↔
        candidate stem (n + 1) ∈ t.texts := by
      rw [← Array.mem_toList_iff, ih, List.mem_append, List.mem_filter, Array.mem_toList_iff]
      exact or_iff_left fun hm => candidate_notMem_map stem n hm.1
    rw [NameTable.tried, texts_intern (h.tried stem n), List.range'_concat, List.map_append,
      List.filter_append, ← List.append_assoc, ← ih]
    by_cases hc : candidate stem (n + 1) ∈ t.texts
    · simp [hmem, hc, Nat.add_comm 1 n]
    · simp [hmem, hc, Nat.add_comm 1 n]

theorem mem_tried_iff (h : t.Consistent) {s : String} :
    s ∈ (t.tried stem n).texts ↔ s ∈ t.texts ∨ ∃ i, (1 ≤ i ∧ i < 1 + n) ∧ candidate stem i = s := by
  rw [← Array.mem_toList_iff, texts_tried h, List.mem_append, List.mem_filter, List.mem_map]
  simp only [List.mem_range'_1, Array.mem_toList_iff, decide_eq_true_eq]
  tauto

theorem size_tried (h : t.Consistent) (hnew : ∀ i, candidate stem i ∉ t.texts) (n : Nat) :
    (t.tried stem n).size = t.size + n := by
  have hfilter : ((List.range' 1 n).map (candidate stem)).filter (· ∉ t.texts) =
      (List.range' 1 n).map (candidate stem) := by
    rw [List.filter_eq_self]
    intro s hs
    obtain ⟨i, -, rfl⟩ := List.mem_map.1 hs
    exact decide_eq_true (hnew i)
  unfold size
  rw [← Array.length_toList, texts_tried h, hfilter, List.length_append, List.length_map,
    List.length_range', Array.length_toList]

theorem text_offer (h : t.Consistent) (stem : String) (hn : n < m) :
    (t.tried stem m).knows (t.offer stem n) = true ∧
      (t.tried stem m).text (t.offer stem n) = candidate stem (n + 1) := by
  have ht := h.tried stem n
  obtain ⟨hk, htext⟩ := extends_tried t stem hn _ (knows_intern_self ht _)
  exact ⟨hk, htext.trans (text_intern ht _)⟩

theorem intern_candidate (h : t.Consistent) (hn : n < m) :
    (t.tried stem m).intern (candidate stem (n + 1)) = (t.offer stem n, t.tried stem m) := by
  obtain ⟨hk, ht⟩ := text_offer h stem hn
  rw [← ht]
  exact intern_text (h.tried stem m) hk

theorem offer_injective (h : t.Consistent) (stem : String) : (t.offer stem).Injective := by
  intro m n he
  have hm := (text_offer h stem (Nat.lt_succ_of_le (Nat.le_max_left m n))).2
  have hn := (text_offer h stem (Nat.lt_succ_of_le (Nat.le_max_right m n))).2
  rw [he, hn] at hm
  exact Nat.succ.inj (candidate_injective hm).symm

/-- The search goes from try to try, and only past names to avoid. -/
theorem exists_freshFrom_eq (t : NameTable) (stem : String) (avoid : List Name) (tries n : Nat) :
    ∃ k ≥ n, (∀ j, n ≤ j → j < k → t.offer stem j ∈ avoid) ∧
      freshFrom stem avoid tries (n + 1) (t.tried stem n) =
        (t.offer stem k, t.tried stem (k + 1)) := by
  induction tries generalizing n with
  | zero => exact ⟨n, Nat.le_refl n, fun j hj hk => absurd hk (Nat.not_lt.2 hj), rfl⟩
  | succ tries ih =>
    rw [freshFrom_succ]
    by_cases hn : t.offer stem n ∈ avoid
    · obtain ⟨k, hk, hj, he⟩ := ih (n + 1)
      refine ⟨k, Nat.le_of_succ_le hk, ?_, ?_⟩
      · intro j hnj hjk
        rcases Nat.eq_or_lt_of_le hnj with rfl | hnj
        · exact hn
        · exact hj j hnj hjk
      · rw [← he]
        exact if_pos hn
    · exact ⟨n, Nat.le_refl n, fun j hj hk => absurd hk (Nat.not_lt.2 hj), if_neg hn⟩

/-- The names that are passed over are different, so they are no more than there are to avoid. -/
theorem le_card_of_offer_mem (h : t.Consistent) (hj : ∀ j < k, t.offer stem j ∈ avoid) :
    k ≤ avoid.toFinset.card := by
  have hs : (Finset.range k).image (t.offer stem) ⊆ avoid.toFinset := by
    intro x hx
    obtain ⟨j, hjk, rfl⟩ := Finset.mem_image.1 hx
    exact List.mem_toFinset.2 (hj j (Finset.mem_range.1 hjk))
  calc
    k = ((Finset.range k).image (t.offer stem)).card := by
      rw [Finset.card_image_of_injective _ (offer_injective h stem), Finset.card_range]
    _ ≤ avoid.toFinset.card := Finset.card_le_card hs

theorem exists_fresh_eq (h : t.Consistent) (base : Name) (avoid : List Name) :
    ∃ k, t.fresh base avoid = (t.offer (t.text base) k, t.tried (t.text base) (k + 1)) ∧
      t.offer (t.text base) k ∉ avoid ∧ ∀ j < k, t.offer (t.text base) j ∈ avoid := by
  obtain ⟨k, -, hj, he⟩ := exists_freshFrom_eq t (t.text base) avoid avoid.length 0
  have he : t.fresh base avoid = (t.offer (t.text base) k, t.tried (t.text base) (k + 1)) := he
  have hk := fresh_notMem h base avoid
  rw [he] at hk
  exact ⟨k, he, hk, fun j => hj j (Nat.zero_le j)⟩

theorem size_lt_fresh (h : t.Consistent) {base : Name}
    (hnew : candidate (t.text base) 1 ∉ t.texts) (avoid : List Name) :
    t.size < (t.fresh base avoid).2.size := by
  obtain ⟨k, he, -, -⟩ := exists_fresh_eq h base avoid
  have hfirst : (t.tried (t.text base) 1).size = t.size + 1 :=
    (size_intern h _).trans (if_neg hnew)
  have hle := (extends_tried t (t.text base) (Nat.succ_le_succ (Nat.zero_le k))).size_le
  rw [hfirst] at hle
  rw [he]
  exact hle

theorem intern?_candidate (h : t.Consistent) (hc : (t.tried stem (n + 1)).size ≤ capacity) :
    (t.tried stem n).intern? (candidate stem (n + 1)) =
      .ok (t.offer stem n, t.tried stem (n + 1)) := by
  have ht := h.tried stem n
  rw [intern?_eq ht]
  refine if_pos ?_
  by_cases hm : candidate stem (n + 1) ∈ (t.tried stem n).texts
  · exact .inl hm
  · rw [size, NameTable.tried, texts_intern ht, if_neg hm, Array.size_push] at hc
    exact .inr hc

theorem seek_tried (h : t.Consistent) (hc : (t.tried stem (k + 1)).size ≤ capacity)
    (hk : t.offer stem k ∉ avoid) (hj : ∀ j < k, t.offer stem j ∈ avoid) (tries : Nat)
    (hn : n ≤ k) : seek stem avoid tries (n + 1) (t.tried stem n) =
      .ok (if k < n + tries then (some (t.offer stem k), t.tried stem (k + 1))
        else (none, t.tried stem (n + tries))) := by
  induction tries generalizing n with
  | zero => simp only [Nat.add_zero, if_neg (Nat.not_lt.2 hn), seek]
  | succ tries ih =>
    have hroom := ((extends_tried t stem (Nat.succ_le_succ hn)).size_le).trans hc
    rw [seek, intern?_candidate h hroom]
    rcases Nat.eq_or_lt_of_le hn with rfl | hn
    · simp [hk]
    · simp only [if_pos (hj n hn)]
      rw [ih hn, Nat.succ_add_eq_add_succ]

/--
The choice of a fresh name always succeeds. There is a first number whose candidate has a name that
need not be avoided, at most one more than there are names to avoid, and this name is chosen. In the
table that is left, the candidates up to this number have names, and the earlier ones have names to
avoid. What has been added are the texts of these candidates that were not known before, in the
order of their numbers, behind all that was there.

As long as the table has room, a search that takes nothing for granted finds the same name in the
same table with as many tries as the number says, and no name with fewer.
-/
theorem fresh_first (h : t.Consistent) (base : Name) (avoid : List Name) :
    let stem := t.text base
    let x := (t.fresh base avoid).1
    let t' := (t.fresh base avoid).2
    ∃ i, 1 ≤ i ∧ i ≤ avoid.toFinset.card + 1 ∧
      (∀ j, 1 ≤ j → j ≤ i → ∃ y, t'.intern (candidate stem j) = (y, t') ∧ (y ∈ avoid ↔ j < i)) ∧
      t'.text x = candidate stem i ∧ x ∉ avoid ∧
      t'.texts.toList =
        t.texts.toList ++ ((List.range' 1 i).map (candidate stem)).filter (· ∉ t.texts) ∧
      t'.Consistent ∧
      (t'.size ≤ capacity → (∀ tries ≥ i, seek stem avoid tries 1 t = .ok (some x, t')) ∧
        ∀ tries < i, ∃ u, seek stem avoid tries 1 t = .ok (none, u)) := by
  intro stem x t'
  obtain ⟨k, he, hk, hj⟩ := exists_fresh_eq h base avoid
  have hx : x = t.offer stem k := congrArg Prod.fst he
  have ht : t' = t.tried stem (k + 1) := congrArg Prod.snd he
  rw [hx, ht]
  refine ⟨k + 1, Nat.le_add_left 1 k, Nat.succ_le_succ (le_card_of_offer_mem h hj), ?_,
    (text_offer h stem (Nat.lt_succ_self k)).2, hk, texts_tried h stem (k + 1), h.tried stem _, ?_⟩
  · intro j hj₁ hjk
    obtain ⟨j, rfl⟩ := Nat.exists_eq_add_of_le' hj₁
    refine ⟨_, intern_candidate h hjk, ?_⟩
    rcases Nat.eq_or_lt_of_le hjk with hjk | hjk
    · cases hjk
      exact iff_of_false hk (Nat.lt_irrefl _)
    · exact iff_of_true (hj j (Nat.lt_of_succ_lt_succ hjk)) hjk
  · intro hc
    have hs := fun tries => seek_tried h hc hk hj tries (Nat.zero_le k)
    simp only [Nat.zero_add] at hs
    refine ⟨?_, ?_⟩
    · intro tries hi
      have hi : k < tries := hi
      exact (hs tries).trans (by rw [if_pos hi])
    · intro tries hi
      exact ⟨_, (hs tries).trans (by rw [if_neg (Nat.not_lt.2 (Nat.le_of_lt_succ hi))])⟩

/-- The first candidate is known and to be avoided, and the second comes to have a name to avoid. -/
theorem fresh_first_foreign :
    let y : Name := ⟨13⟩
    let t := ["y", "y'1"].foldl (fun t s => (t.intern s).2) NameTable.initial
    let avoid : List Name := [⟨14⟩, ⟨99⟩, ⟨15⟩]
    t.Consistent ∧ t.knows ⟨15⟩ = false ∧ (t.fresh y avoid).1 = ⟨16⟩ ∧
      (t.fresh y avoid).2.texts.toList = t.texts.toList ++ ["y'2", "y'3"] ∧
      (t.fresh y avoid).2.size ≤ capacity ∧
      seek "y" avoid 4 1 t = .ok (some ⟨16⟩, (t.fresh y avoid).2) := by
  intro y t avoid
  have h : t.Consistent := consistent_initial.foldl_intern _
  have hy : t.text y = "y" := by decide +kernel
  have hx : (t.fresh y avoid).1 = ⟨16⟩ := by decide +kernel
  have hc : (t.fresh y avoid).2.size ≤ capacity := by decide +kernel
  have ht : (t.fresh y avoid).2.text ⟨16⟩ = candidate "y" 3 := by decide +kernel
  have hnew : ((List.range' 1 3).map (candidate "y")).filter (· ∉ t.texts) = ["y'2", "y'3"] := by
    decide +kernel
  obtain ⟨i, -, -, -, htext, -, htexts, -, hseek⟩ := fresh_first h y avoid
  rw [hx, hy] at hseek
  rw [hx, hy, ht] at htext
  obtain rfl := candidate_injective htext
  rw [hy, hnew] at htexts
  exact ⟨h, by decide +kernel, hx, htexts, hc, (hseek hc).1 4 (by decide)⟩

end LetCalculus.NameTable
