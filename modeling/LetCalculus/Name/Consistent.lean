import Std.Data.TreeMap.Lemmas
import LetCalculus.Name.Fresh

/-!
# Consistency of name tables

In a consistent table texts and indices determine each other. The initial table is consistent and
interning keeps consistency, so it holds of every table that a program can come by. In such a
table a text and its name can be exchanged freely (`text_intern`, `intern_text`), and what a name
stands for never changes (`text_intern_of_knows`).
-/

namespace LetCalculus.NameTable

variable {t : NameTable} {s : String} {x : Name}

theorem find?_eq_some_iff (h : t.Consistent) : t.find? s = some x ↔ t.texts[x.index]? = some s := by
  rw [← h s x.index, find?, Option.map_eq_some_iff]
  constructor
  · rintro ⟨i, hi, rfl⟩
    exact hi
  · exact fun hi => ⟨x.index, hi, rfl⟩

theorem find?_eq_none_iff (h : t.Consistent) : t.find? s = none ↔ s ∉ t.texts := by
  rw [Option.eq_none_iff_forall_not_mem, Array.mem_iff_getElem?]
  constructor
  · rintro hn ⟨i, hi⟩
    exact hn ⟨i⟩ ((find?_eq_some_iff h).2 hi)
  · rintro hn y hy
    exact hn ⟨y.index, (find?_eq_some_iff h).1 hy⟩

theorem consistent_seed : seed.Consistent := by
  intro s i
  rw [seed, Std.TreeMap.getElem?_insert]
  by_cases hs : "" = s
  · subst hs
    cases i <;> simp
  · cases i <;> simp [hs]

theorem Consistent.push (h : t.Consistent) (hs : s ∉ t.texts) : (t.push s).Consistent := by
  intro s' i
  rw [NameTable.push, Std.TreeMap.getElem?_insert, Array.getElem?_push]
  by_cases hs' : s = s'
  · subst hs'
    by_cases hi : i = t.texts.size
    · simp [hi]
    · have hn : t.texts[i]? ≠ some s := fun hi => hs (Array.mem_of_getElem? hi)
      simp [hi, hn, Ne.symm hi]
  · by_cases hi : i = t.texts.size
    · have hn : t.indices[s']? ≠ some t.texts.size := fun hn => by
        have := (h s' t.texts.size).1 hn
        simp at this
      simp [hi, hs', hn]
    · simp [hi, hs', h s' i]

theorem Consistent.intern (h : t.Consistent) (s : String) : (t.intern s).2.Consistent := by
  rw [NameTable.intern]
  split
  · exact h
  · exact h.push ((find?_eq_none_iff h).1 ‹_›)

theorem Consistent.foldl_intern (h : t.Consistent) (l : List String) :
    (l.foldl (fun t s => (t.intern s).2) t).Consistent := by
  induction l generalizing t with
  | nil => exact h
  | cons s l ih => exact ih (h.intern s)

theorem consistent_initial : initial.Consistent := consistent_seed.foldl_intern keywords

theorem text_intern (h : t.Consistent) (s : String) : (t.intern s).2.text (t.intern s).1 = s := by
  rw [NameTable.intern]
  split
  · rw [text, (find?_eq_some_iff h).1 ‹_›]
    rfl
  · simp [text, push, size]

theorem intern_text (h : t.Consistent) (hx : t.knows x = true) : t.intern (t.text x) = (x, t) := by
  have hx : x.index < t.texts.size := of_decide_eq_true hx
  have : t.find? (t.text x) = some x := by
    rw [find?_eq_some_iff h, text, Array.getElem?_eq_getElem hx]
    rfl
  rw [intern, this]

/-- An old text leaves the table as it is, and a new one goes behind all the others. -/
theorem texts_intern (h : t.Consistent) (s : String) :
    (t.intern s).2.texts = if s ∈ t.texts then t.texts else t.texts.push s := by
  rw [intern]
  split
  · rw [if_pos (Array.mem_of_getElem? ((find?_eq_some_iff h).1 ‹_›))]
  · rw [if_neg ((find?_eq_none_iff h).1 ‹_›), push]

theorem size_intern (h : t.Consistent) (s : String) :
    (t.intern s).2.size = if s ∈ t.texts then t.size else t.size + 1 := by
  unfold size
  rw [texts_intern h]
  split
  · rfl
  · exact Array.size_push s

theorem intern?_eq (h : t.Consistent) (s : String) :
    t.intern? s =
      if s ∈ t.texts ∨ t.size < capacity then .ok (t.intern s) else .error (.overflow t.size) := by
  unfold intern? intern
  cases hs : t.find? s with
  | some x =>
    have hm : s ∈ t.texts := Array.mem_of_getElem? ((find?_eq_some_iff h).1 hs)
    simp [hm]
  | none =>
    have hm : s ∉ t.texts := (find?_eq_none_iff h).1 hs
    simp [hm]

theorem knows_intern_self (h : t.Consistent) (s : String) :
    (t.intern s).2.knows (t.intern s).1 = true := by
  rw [intern]
  split
  · exact decide_eq_true (Array.getElem?_eq_some_iff.1 ((find?_eq_some_iff h).1 ‹_›)).1
  · simp [knows, push, size]

theorem knows_intern (s : String) (hx : t.knows x = true) : (t.intern s).2.knows x = true := by
  rw [intern]
  split
  · exact hx
  · have : x.index < t.texts.size := of_decide_eq_true hx
    simp only [knows, push, size, Array.size_push, decide_eq_true_eq]
    omega

theorem text_intern_of_knows (s : String) (hx : t.knows x = true) :
    (t.intern s).2.text x = t.text x := by
  have hx : x.index < t.texts.size := of_decide_eq_true hx
  rw [intern]
  split
  · rfl
  · simp [text, push, Array.getElem?_push, Nat.ne_of_lt hx]

theorem eq_of_text_eq {y : Name} (h : t.Consistent) (hx : t.knows x = true)
    (hy : t.knows y = true) (e : t.text x = t.text y) : x = y := by
  have := intern_text h hx
  rw [e, intern_text h hy] at this
  exact (Prod.mk.inj this).1.symm

end LetCalculus.NameTable
