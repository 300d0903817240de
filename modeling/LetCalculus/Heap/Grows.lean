import LetCalculus.Heap.Reach

/-!
# Growth of the heap

A heap grows as long as no value is overwritten: new cells may come, and a cell without a value
may be given one. What has been seen of the values in a heap stays true when it grows.

A heap extends another one if no cell of that one has changed at all, not even by being given a
first value. Then all that could be seen in the smaller heap is seen unchanged in the larger.
-/

namespace LetCalculus.Heap

/-- Whether every value of `h` is still there in `h'`. -/
def Grows (h h' : Heap) : Prop := ∀ c, h.read c ≠ .unassigned → h'.read c = h.read c

variable {h h' h'' : Heap} {c : Cell} {v : Value}

theorem Grows.refl (h : Heap) : h.Grows h := fun _ _ => rfl

theorem Grows.trans (hg : h.Grows h') (hg' : h'.Grows h'') : h.Grows h'' := by
  intro c hc
  have hr := hg c hc
  rw [hg' c (hr ▸ hc), hr]

theorem grows_alloc (h : Heap) (v : Value) : h.Grows (h.alloc v).2 := by
  intro c hc
  by_cases hold : h.Holds c
  · exact read_alloc_of_holds hold v
  · exact absurd (read_of_not_holds hold) hc

theorem grows_write (hc : h.read c = .unassigned) (v : Value) : h.Grows (h.write c v) := by
  intro d hd
  have hdc : d ≠ c := by
    rintro rfl
    exact hd hc
  exact read_write_of_ne hdc v

/-- Whether every cell of `h` is still there in `h'`, with the same contents. -/
def Extends (h' h : Heap) : Prop := ∀ c, h.Holds c → h'.Holds c ∧ h'.read c = h.read c

theorem Extends.refl (h : Heap) : h.Extends h := fun _ hc => ⟨hc, rfl⟩

theorem Extends.trans (hx' : h''.Extends h') (hx : h'.Extends h) : h''.Extends h := by
  intro c hc
  obtain ⟨hc', hr⟩ := hx c hc
  obtain ⟨hc'', hr'⟩ := hx' c hc'
  exact ⟨hc'', hr'.trans hr⟩

theorem extends_of_cells_eq (hc : h'.cells = h.cells) : h'.Extends h :=
  fun c hold => ⟨(holds_congr hc).2 hold, read_congr hc c⟩

theorem extends_alloc (h : Heap) (v : Value) : (h.alloc v).2.Extends h :=
  fun _ hc => ⟨holds_alloc hc v, read_alloc_of_holds hc v⟩

theorem Extends.grows (hx : h'.Extends h) : h.Grows h' := by
  intro c hc
  by_cases hold : h.Holds c
  · exact (hx c hold).2
  · exact absurd (read_of_not_holds hold) hc

theorem Extends.write (hx : h'.Extends h) (hc : ¬h.Holds c) (v : Value) :
    (h'.write c v).Extends h := by
  intro d hd
  have hdc : d ≠ c := by
    rintro rfl
    exact hc hd
  exact ⟨(holds_write v).2 (hx d hd).1, (read_write_of_ne hdc v).trans (hx d hd).2⟩

theorem Extends.size_le (hx : h'.Extends h) : h.cells.size ≤ h'.cells.size := by
  refine Nat.le_of_not_lt ?_
  intro hlt
  exact Nat.lt_irrefl _ (hx ⟨h'.cells.size⟩ hlt).1

/-- From an environment that sees only what is there, the same is seen in a larger heap. -/
theorem Extends.reaches_iff (hx : h'.Extends h) {env : Environment}
    (he : ∀ d, h.Reaches env d → h.Holds d) : h'.Reaches env c ↔ h.Reaches env c := by
  constructor
  · intro hc
    induction hc with
    | bound hb => exact .bound hb
    | captured _ hr hb ih => exact ih.captured ((hx _ (he _ ih)).2.symm.trans hr) hb
  · intro hc
    exact hc.congr fun d hd => (hx d (he d hd)).2

theorem Extends.lookup?_eq (hx : h'.Extends h) {env : Environment}
    (he : ∀ d, h.Reaches env d → h.Holds d) (x : Name) : h'.lookup? env x = h.lookup? env x := by
  unfold lookup?
  cases hc : env.cell? x with
  | none => rfl
  | some c => exact congrArg some (hx c (he c (.bound (Environment.mem_of_cell? hc)))).2

end LetCalculus.Heap
