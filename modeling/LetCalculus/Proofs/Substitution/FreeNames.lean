import Mathlib.Data.Finset.Dedup
import Mathlib.Data.Finset.Lattice.Lemmas
import LetCalculus.Proofs.Substitution.Size

/-!
# The free names of an expression

Which names are free in an expression can be said of places: a name is free if it stands at some
position that is in no scope of a binder of this name (`FreeAt`). It can also be said of the
nameless form, where the free names are those that are left (`Nameless.freeNames`).

The traversal with a stack of binders finds the free names in both senses, whatever is on the stack
at the start and whatever has been found before (`collectFree_exact`). It leaves the stack as it
was: what is popped at the end of a scope is the binder of this scope, and a binder of the same name
further down stays in force.
-/

namespace LetCalculus

namespace Nameless

/-- The names that are left in a nameless expression. -/
def freeNames : Nameless → Finset Name
  | free x => {x}
  | bound _ | int _ | float _ | bool _ | raise | unassigned => ∅
  | unary _ e => e.freeNames
  | binary _ a b => a.freeNames ∪ b.freeNames
  | cond a b c => a.freeNames ∪ b.freeNames ∪ c.freeNames
  | fn b => b.freeNames
  | letIn v b => v.freeNames ∪ b.freeNames
  | letRec v b => v.freeNames ∪ b.freeNames
  | app f a => f.freeNames ∪ a.freeNames

theorem mem_freeNames_iff {x : Name} {n : Nameless} : x ∈ n.freeNames ↔ n.count x ≠ 0 := by
  induction n <;> grind [freeNames, count]

end Nameless

namespace Expr

variable {x : Name} {e : Expr} {i : Nat} {p : List Nat}

theorem mem_freeNames : x ∈ e.nameless.freeNames ↔ FreeIn x e := by
  rw [Nameless.mem_freeNames_iff, nameless, count_namelessIn, if_neg List.not_mem_nil, Ne,
    occurrences_eq_zero_iff, not_not]

/-! ### Places of free names -/

/-- The names that a construct binds in one of its children. -/
def bindsIn : Expr → Nat → List Name
  | fn x _, _ => [x]
  | letIn x _ _, 1 => [x]
  | letRec x _ _, _ => [x]
  | _, _ => []

/-- The binders in whose scopes a position is, the outermost first. -/
def bindersAt (e : Expr) : List Nat → List Name
  | [] => []
  | i :: p =>
    match e.children[i]? with
    | some a => e.bindsIn i ++ a.bindersAt p
    | none => []

/-- Whether a name stands at a position that is in no scope of a binder of this name. -/
def FreeAt (x : Name) (e : Expr) (p : List Nat) : Prop :=
  e.at? p = some (var x) ∧ x ∉ e.bindersAt p

theorem freeAt_nil : FreeAt x e [] ↔ e = var x := by
  simp [FreeAt, at?, bindersAt]

theorem freeAt_cons :
    FreeAt x e (i :: p) ↔ ∃ a, e.children[i]? = some a ∧ x ∉ e.bindsIn i ∧ FreeAt x a p := by
  unfold FreeAt
  rw [at?, bindersAt]
  cases e.children[i]? with
  | none => simp
  | some a => simp [and_left_comm]

theorem exists_getElem?_cons {P : Nat → Expr → Prop} {a : Expr} {l : List Expr} :
    (∃ i b, (a :: l)[i]? = some b ∧ P i b) ↔ P 0 a ∨ ∃ i b, l[i]? = some b ∧ P (i + 1) b := by
  rw [← Nat.or_exists_add_one]
  simp

/-- A free name is all of an expression, or free in a child where the construct does not bind it. -/
theorem freeIn_iff_child :
    FreeIn x e ↔
      e = var x ∨ ∃ i a, e.children[i]? = some a ∧ x ∉ e.bindsIn i ∧ FreeIn x a := by
  cases e with
  | var y => simp [FreeIn, eq_comm]
  | _ => simp [FreeIn, exists_getElem?_cons, bindsIn, and_or_left]

theorem freeIn_iff_exists_freeAt : FreeIn x e ↔ ∃ p, FreeAt x e p := by
  induction e using induction_on_children with
  | h e below =>
    rw [freeIn_iff_child]
    constructor
    · rintro (h | ⟨i, a, ha, hx, h⟩)
      · exact ⟨[], freeAt_nil.2 h⟩
      · obtain ⟨p, hp⟩ := (below a (List.mem_of_getElem? ha)).1 h
        exact ⟨i :: p, freeAt_cons.2 ⟨a, ha, hx, hp⟩⟩
    · rintro ⟨p, h⟩
      cases p with
      | nil => exact .inl (freeAt_nil.1 h)
      | cons i p =>
        obtain ⟨a, ha, hx, hp⟩ := freeAt_cons.1 h
        exact .inr ⟨i, a, ha, hx, (below a (List.mem_of_getElem? ha)).2 ⟨p, hp⟩⟩

/-! ### The traversal -/

/--
To the names found before, the traversal of an expression adds those that have a free place in it
and are not on the stack, each once and only if it was not found before. It takes no name away, and
it leaves the stack as it was. With nothing on the stack and nothing found before, it comes to the
free names of the nameless form, and whether a name is free is whether it is one of these.
-/
theorem collectFree_exact (e : Expr) :
    (∀ bound found : List Name, ∃ added : List Name,
      e.collectFree ⟨bound, found⟩ = ⟨bound, added ++ found⟩ ∧ added.Nodup ∧
      ∀ x, x ∈ added ↔ x ∉ found ∧ x ∉ bound ∧ ∃ p, FreeAt x e p) ∧
    (e.freeVars.Nodup ∧ e.freeVars.toFinset = e.nameless.freeNames) ∧
    ∀ x, e.isFree x = decide (x ∈ e.nameless.freeNames) := by
  refine ⟨?_, ⟨?_, ?_⟩, ?_⟩
  · intro bound found
    obtain ⟨hb, added, hf, hn, hm⟩ := collects_collectFree e ⟨bound, found⟩
    refine ⟨added, Collector.ext hb hf, hn, ?_⟩
    intro x
    rw [hm x, freeIn_iff_exists_freeAt]
  · obtain ⟨-, added, hf, hn, -⟩ := collects_collectFree e ⟨[], []⟩
    rw [freeVars, hf, List.append_nil]
    exact hn
  · ext x
    rw [List.mem_toFinset, mem_freeVars, mem_freeNames]
  · intro x
    rw [isFree, decide_eq_decide, mem_freeVars, mem_freeNames]

/-- The inner scope of `x` ends before the second place of `x`, and the outer one does not. -/
example :
    let x : Name := ⟨13⟩
    let y : Name := ⟨14⟩
    let e : Expr := app (letIn x (var x) (var x)) (app (var x) (var y))
    e.collectFree ⟨[x], []⟩ = ⟨[x], [y]⟩ ∧ e.collectFree ⟨[], []⟩ = ⟨[], [y, x]⟩ := by
  decide

end Expr

end LetCalculus
