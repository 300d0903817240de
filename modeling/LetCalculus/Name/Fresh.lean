import LetCalculus.Name.Table

/-!
# Fresh names

A fresh name is derived from a base name by a prime and a number: the candidates are `x'1`,
`x'2`, and so on, and the first one that need not be avoided is taken. Every candidate that is
tried enters the name table, whether it is taken or not. The search is the same over a table that
refuses new texts once it is full (`fresh?`).
-/

namespace LetCalculus.NameTable

def candidate (stem : String) (i : Nat) : String := stem ++ "'" ++ toString i

/--
Try the candidates from number `i` on, at most `tries` of them with a test. Candidates differ in
their texts and hence in their names, so after as many refusals as there are names to avoid the
next candidate needs no test.
-/
def search {m : Type → Type} [Monad m] (intern : String → m Name) (stem : String)
    (avoid : List Name) : Nat → Nat → m Name
  | 0, i => intern (candidate stem i)
  | tries + 1, i => do
    let x ← intern (candidate stem i)
    if x ∈ avoid then search intern stem avoid tries (i + 1) else pure x

def freshFrom (stem : String) (avoid : List Name) (tries i : Nat) :
    NameTable → Name × NameTable :=
  search (m := TableM) (fun s t => t.intern s) stem avoid tries i

theorem freshFrom_succ (stem : String) (avoid : List Name) (tries i : Nat) (t : NameTable) :
    freshFrom stem avoid (tries + 1) i t =
      let p := t.intern (candidate stem i)
      if p.1 ∈ avoid then freshFrom stem avoid tries (i + 1) p.2 else p := by
  rw [freshFrom, search]
  simp only [bind, StateT.bind]
  split <;> rfl

/-- The first candidate derived from `base` that is not among the names to avoid. -/
def fresh (t : NameTable) (base : Name) (avoid : List Name) : Name × NameTable :=
  freshFrom (t.text base) avoid avoid.length 1 t

/-- The same choice from a table that refuses new candidates once it is full. -/
def fresh? (t : NameTable) (base : Name) (avoid : List Name) :
    Except InternError (Name × NameTable) :=
  search (m := TableM?) (fun s t => t.intern? s) (t.text base) avoid avoid.length 1 t

end LetCalculus.NameTable
