import LetCalculus.Name.Basic

/-!
# Environments

An environment lists names with the cells that hold their values. No name is listed twice: binding
a name again points its entry at the new cell, in its old place. Environments are never changed;
an extended environment is a new one, and the old one remains what it was.

An environment also carries a stamp. Two environments are one and the same exactly when they have
the same stamp, whatever they bind.
-/

namespace LetCalculus

structure Cell where
  address : Nat
  deriving DecidableEq, Repr, Inhabited

/-- An ordered list of bindings, under a stamp that identifies the environment. -/
structure Environment where
  stamp : Nat
  bindings : List (Name × Cell)
  deriving DecidableEq, Repr, Inhabited

namespace Environment

def names (env : Environment) : List Name := env.bindings.map Prod.fst

def length (env : Environment) : Nat := env.bindings.length

def isEmpty (env : Environment) : Bool := env.bindings.isEmpty

def cell? (env : Environment) (x : Name) : Option Cell := env.bindings.lookup x

def same (a b : Environment) : Bool := a.stamp == b.stamp

/-- The inspection form of an environment: its names alone. -/
def tag (env : Environment) : String :=
  "Environment \x7b names: [" ++ ", ".intercalate (env.names.map Name.tag) ++ "] \x7d"

/-- Point the entry of `x` at a cell, in its place; a name without an entry gets one at the end. -/
def bind (x : Name) (c : Cell) : List (Name × Cell) → List (Name × Cell)
  | [] => [(x, c)]
  | (y, d) :: rest => if y = x then (y, c) :: rest else (y, d) :: bind x c rest

variable {x y : Name} {c : Cell} {bs : List (Name × Cell)}

theorem lookup_bind_self (x : Name) (c : Cell) (bs : List (Name × Cell)) :
    (bind x c bs).lookup x = some c := by
  induction bs with
  | nil => exact List.lookup_cons_self
  | cons b bs ih =>
    obtain ⟨y, d⟩ := b
    by_cases hy : y = x
    · simp [bind, hy]
    · simp [bind, hy, List.lookup_cons, beq_false_of_ne (Ne.symm hy), ih]

theorem lookup_bind_of_ne (h : y ≠ x) (c : Cell) (bs : List (Name × Cell)) :
    (bind x c bs).lookup y = bs.lookup y := by
  induction bs with
  | nil => simp [bind, List.lookup_cons, beq_false_of_ne h]
  | cons b bs ih =>
    obtain ⟨z, d⟩ := b
    by_cases hz : z = x
    · simp [bind, hz, List.lookup_cons, beq_false_of_ne h]
    · simp [bind, hz, List.lookup_cons, ih]

/-- Whether an environment is another one with a cell for a name. -/
structure Binds (env' env : Environment) (x : Name) (c : Cell) : Prop where
  self : env'.cell? x = some c
  others : ∀ y, y ≠ x → env'.cell? y = env.cell? y

theorem binds_bind (env : Environment) (x : Name) (c : Cell) (stamp : Nat) :
    Binds ⟨stamp, bind x c env.bindings⟩ env x c :=
  ⟨lookup_bind_self x c env.bindings, fun _ hy => lookup_bind_of_ne hy c env.bindings⟩

theorem mem_bind {b : Name × Cell} (h : b ∈ bind x c bs) : b = (x, c) ∨ b ∈ bs := by
  induction bs with
  | nil => exact .inl (List.mem_singleton.1 h)
  | cons b bs ih => grind [bind]

theorem mem_of_cell? {env : Environment} (h : env.cell? x = some c) : (x, c) ∈ env.bindings := by
  obtain ⟨front, rest, he, -⟩ := List.lookup_eq_some_iff.1 h
  rw [he]
  exact List.mem_append_right front List.mem_cons_self

theorem map_fst_bind (x : Name) (c : Cell) (bs : List (Name × Cell)) :
    (bind x c bs).map Prod.fst =
      if x ∈ bs.map Prod.fst then bs.map Prod.fst else bs.map Prod.fst ++ [x] := by
  induction bs with
  | nil => rfl
  | cons b bs ih => grind [bind]

theorem mem_names_bind {stamp : Nat} :
    y ∈ names ⟨stamp, bind x c bs⟩ ↔ y = x ∨ y ∈ bs.map Prod.fst := by
  rw [names, map_fst_bind]
  grind

theorem cell?_eq_none_iff {env : Environment} : env.cell? x = none ↔ x ∉ env.names := by
  rw [cell?, List.lookup_eq_none_iff, names, List.mem_map]
  grind

theorem nodup_bind (h : (bs.map Prod.fst).Nodup) (x : Name) (c : Cell) :
    ((bind x c bs).map Prod.fst).Nodup := by
  rw [map_fst_bind]
  split
  · exact h
  · grind [List.nodup_append]

end Environment

end LetCalculus
