import LetCalculus.Value.Basic

/-!
# The heap

Values live in cells, so that a recursive definition can be entered into its own environment
before its value is known. A cell is read at the time of use, and every holder of the cell sees
what was last written to it. The heap also hands out the stamps that tell environments apart.
-/

namespace LetCalculus

/-- The cells with their contents, and the next unused environment stamp. -/
structure Heap where
  cells : Array Value
  nextStamp : Nat

namespace Heap

def empty : Heap := ⟨#[], 0⟩

instance : Inhabited Heap := ⟨empty⟩

/-- The contents of a cell; outside the heap nothing has been assigned. -/
def read (h : Heap) (c : Cell) : Value := h.cells[c.address]?.getD .unassigned

def write (h : Heap) (c : Cell) (v : Value) : Heap :=
  ⟨h.cells.setIfInBounds c.address v, h.nextStamp⟩

def alloc (h : Heap) (v : Value) : Cell × Heap := (⟨h.cells.size⟩, ⟨h.cells.push v, h.nextStamp⟩)

def enclose (h : Heap) (bindings : List (Name × Cell)) : Environment × Heap :=
  (⟨h.nextStamp, bindings⟩, ⟨h.cells, h.nextStamp + 1⟩)

def emptyEnv (h : Heap) : Environment × Heap := h.enclose []

/-- A new environment that differs from `env` in binding `x` to the cell. -/
def extend (h : Heap) (env : Environment) (x : Name) (c : Cell) : Environment × Heap :=
  h.enclose (Environment.bind x c env.bindings)

/-- A new environment that differs from `env` in binding `x` to a new cell with the given value. -/
def define (h : Heap) (env : Environment) (x : Name) (v : Value) : Environment × Heap :=
  let (c, h) := h.alloc v
  h.extend env x c

/-- A new environment with the given values in new cells; of two values for a name the last wins. -/
def environment (h : Heap) (bindings : List (Name × Value)) : Environment × Heap :=
  bindings.foldl (fun p b => p.2.define p.1 b.1 b.2) h.emptyEnv

def lookup? (h : Heap) (env : Environment) (x : Name) : Option Value := (env.cell? x).map h.read

variable {h : Heap} {c d : Cell} {v w : Value}

def Holds (h : Heap) (c : Cell) : Prop := c.address < h.cells.size

theorem read_congr {h' : Heap} (hc : h'.cells = h.cells) (c : Cell) : h'.read c = h.read c := by
  rw [read, read, hc]

theorem holds_congr {h' : Heap} (hc : h'.cells = h.cells) : h'.Holds c ↔ h.Holds c := by
  rw [Holds, Holds, hc]

theorem read_alloc_self (h : Heap) (v : Value) : (h.alloc v).2.read (h.alloc v).1 = v := by
  simp [alloc, read]

theorem read_alloc_of_holds (hc : h.Holds c) (v : Value) : (h.alloc v).2.read c = h.read c := by
  simp [alloc, read, Array.getElem?_push, Nat.ne_of_lt hc]

theorem read_alloc_of_ne (hc : c ≠ (h.alloc v).1) : (h.alloc v).2.read c = h.read c := by
  have hc : c.address ≠ h.cells.size := fun e => hc (by cases c; simp_all [alloc])
  simp [alloc, read, Array.getElem?_push, hc]

theorem read_of_not_holds (hc : ¬h.Holds c) : h.read c = .unassigned := by
  have hc : h.cells.size ≤ c.address := Nat.le_of_not_lt hc
  simp [read, Array.getElem?_eq_none hc]

theorem read_write_self (hc : h.Holds c) (v : Value) : (h.write c v).read c = v := by
  have hc : c.address < h.cells.size := hc
  simp [write, read, hc]

theorem read_write_of_ne (hd : d ≠ c) (v : Value) : (h.write c v).read d = h.read d := by
  have hd : c.address ≠ d.address := fun e => hd (by cases c; cases d; simp_all)
  simp [write, read, Array.getElem?_setIfInBounds_ne hd]

/-- A new cell that is written at once might as well have been allocated with what is written. -/
theorem write_alloc (h : Heap) (v w : Value) :
    (h.alloc v).2.write (h.alloc v).1 w = (h.alloc w).2 := by
  have hc : (h.cells.push v).setIfInBounds h.cells.size w = h.cells.push w :=
    Array.toList_inj.1 (by simp)
  simp [alloc, write, hc]

theorem read_write (h : Heap) (c d : Cell) (v : Value) :
    (h.write c v).read d = v ∧ d = c ∨ (h.write c v).read d = h.read d := by
  by_cases hd : d = c
  · subst hd
    by_cases hc : h.Holds d
    · exact .inl ⟨read_write_self hc v, rfl⟩
    · have hc : h.cells.size ≤ d.address := Nat.le_of_not_lt hc
      exact .inr (by rw [write, Array.setIfInBounds_eq_of_size_le hc])
  · exact .inr (read_write_of_ne hd v)

theorem holds_alloc (hc : h.Holds c) (v : Value) : (h.alloc v).2.Holds c := by
  simpa [Holds, alloc] using Nat.lt_succ_of_lt hc

theorem holds_alloc_iff : (h.alloc v).2.Holds c ↔ h.Holds c ∨ c = (h.alloc v).1 := by
  constructor
  · intro hc
    have hc : c.address < h.cells.size + 1 := by simpa [Holds, alloc] using hc
    rcases Nat.lt_or_eq_of_le (Nat.le_of_lt_succ hc) with hc | hc
    · exact .inl hc
    · exact .inr (congrArg Cell.mk hc)
  · rintro (hc | rfl)
    · exact holds_alloc hc v
    · simp [Holds, alloc]

theorem holds_write (v : Value) : (h.write c v).Holds d ↔ h.Holds d := by
  simp [Holds, write]

end Heap

end LetCalculus
