import LetCalculus.Expr.FreeIn

/-!
# Free occurrences and plain replacement

`replaceFree` puts an expression in the place of the free occurrences of a name and leaves every
binder as it is. This is right wherever no binder captures, which `Admits` says.
-/

namespace LetCalculus.Expr

/-- The number of free occurrences of a name. -/
def occurrences (x : Name) : Expr → Nat
  | var y => if y = x then 1 else 0
  | int _ | float _ | bool _ | raise | unassigned => 0
  | unary _ e => e.occurrences x
  | binary _ l r => l.occurrences x + r.occurrences x
  | cond c t e => c.occurrences x + t.occurrences x + e.occurrences x
  | fn y b => if y = x then 0 else b.occurrences x
  | letIn y v b => v.occurrences x + if y = x then 0 else b.occurrences x
  | letRec y v b => if y = x then 0 else v.occurrences x + b.occurrences x
  | app f a => f.occurrences x + a.occurrences x

/-- Put `r` in the place of the free occurrences of `x`, whatever the binders above them. -/
def replaceFree (x : Name) (r : Expr) : Expr → Expr
  | var y => if y = x then r else var y
  | int n => int n
  | float a => float a
  | bool b => bool b
  | raise => raise
  | unassigned => unassigned
  | unary op e => unary op (replaceFree x r e)
  | binary op a b => binary op (replaceFree x r a) (replaceFree x r b)
  | cond a b c => cond (replaceFree x r a) (replaceFree x r b) (replaceFree x r c)
  | fn y b => fn y (if y = x then b else replaceFree x r b)
  | letIn y v b => letIn y (replaceFree x r v) (if y = x then b else replaceFree x r b)
  | letRec y v b =>
    letRec y (if y = x then v else replaceFree x r v) (if y = x then b else replaceFree x r b)
  | app f a => app (replaceFree x r f) (replaceFree x r a)

/-- For each free occurrence of a name the binders in whose scopes it is, the outermost first. -/
def bindersOver (x : Name) : Expr → List (List Name)
  | var y => if y = x then [[]] else []
  | int _ | float _ | bool _ | raise | unassigned => []
  | unary _ e => e.bindersOver x
  | binary _ l r => l.bindersOver x ++ r.bindersOver x
  | cond c t e => c.bindersOver x ++ t.bindersOver x ++ e.bindersOver x
  | fn y b => if y = x then [] else (b.bindersOver x).map (y :: ·)
  | letIn y v b => v.bindersOver x ++ if y = x then [] else (b.bindersOver x).map (y :: ·)
  | letRec y v b => if y = x then [] else (v.bindersOver x ++ b.bindersOver x).map (y :: ·)
  | app f a => f.bindersOver x ++ a.bindersOver x

/-- Whether no free occurrence of `x` is in the scope of a binder whose name is free in `r`. -/
def Admits (x : Name) (r : Expr) : Expr → Prop
  | var _ | int _ | float _ | bool _ | raise | unassigned => True
  | unary _ e => Admits x r e
  | binary _ a b => Admits x r a ∧ Admits x r b
  | cond a b c => Admits x r a ∧ Admits x r b ∧ Admits x r c
  | fn y b => y = x ∨ (FreeIn y r → ¬FreeIn x b) ∧ Admits x r b
  | letIn y v b => Admits x r v ∧ (y = x ∨ (FreeIn y r → ¬FreeIn x b) ∧ Admits x r b)
  | letRec y v b =>
    y = x ∨ (FreeIn y r → ¬FreeIn x v ∧ ¬FreeIn x b) ∧ Admits x r v ∧ Admits x r b
  | app f a => Admits x r f ∧ Admits x r a

theorem occurrences_eq_zero_iff {x : Name} {e : Expr} : e.occurrences x = 0 ↔ ¬FreeIn x e := by
  induction e <;> grind [occurrences, FreeIn]

theorem length_bindersOver (x : Name) (e : Expr) :
    (e.bindersOver x).length = e.occurrences x := by
  induction e <;> grind [bindersOver, occurrences]

theorem bindersOver_eq_nil_iff {x : Name} {e : Expr} : e.bindersOver x = [] ↔ ¬FreeIn x e := by
  rw [← occurrences_eq_zero_iff, ← length_bindersOver, List.length_eq_zero_iff]

theorem forall_mem_map_cons_iff {P : Name → Prop} {y : Name} {l : List (List Name)} :
    (∀ ys ∈ l.map (y :: ·), ∀ z ∈ ys, P z) ↔ (l = [] ∨ P y) ∧ ∀ ys ∈ l, ∀ z ∈ ys, P z := by
  induction l with
  | nil => simp
  | cons ys l ih =>
    rw [List.map_cons, List.forall_mem_cons, List.forall_mem_cons, List.forall_mem_cons, ih]
    grind

theorem admits_iff {x : Name} {r e : Expr} :
    Admits x r e ↔ ∀ ys ∈ e.bindersOver x, ∀ y ∈ ys, ¬FreeIn y r := by
  induction e with
  | fn y b ih =>
    rw [Admits, bindersOver, ih]
    split
    · simp [*]
    · rw [forall_mem_map_cons_iff, bindersOver_eq_nil_iff]
      grind
  | letIn y v b ihv ih =>
    rw [Admits, bindersOver, List.forall_mem_append, ihv, ih]
    split
    · simp [*]
    · rw [forall_mem_map_cons_iff, bindersOver_eq_nil_iff]
      grind
  | letRec y v b ihv ih =>
    rw [Admits, bindersOver, ihv, ih]
    split
    · simp [*]
    · rw [forall_mem_map_cons_iff, List.append_eq_nil_iff, bindersOver_eq_nil_iff,
        bindersOver_eq_nil_iff, List.forall_mem_append]
      grind
  | _ => grind [Admits, bindersOver]

theorem replaceFree_of_not_freeIn {x : Name} {e : Expr} (h : ¬FreeIn x e) (r : Expr) :
    replaceFree x r e = e := by
  induction e <;> grind [replaceFree, FreeIn]

theorem admits_of_not_freeIn {x : Name} {e : Expr} (h : ¬FreeIn x e) (r : Expr) : Admits x r e := by
  induction e <;> grind [Admits, FreeIn]

theorem admits_of_closed {r : Expr} (h : ∀ y, ¬FreeIn y r) (x : Name) (e : Expr) :
    Admits x r e := by
  induction e <;> grind [Admits]

end LetCalculus.Expr
