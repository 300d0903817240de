import LetCalculus.Expr.FreeIn

/-!
# Nameless form

In the nameless form of an expression a bound occurrence counts the binders between itself and the
one it belongs to, and a free occurrence keeps its name. Expressions have the same nameless form
exactly when they differ in the names of bound variables alone. A nameless expression can be put
in the place of a free name anywhere, since there are no names that a binder could capture.
-/

namespace LetCalculus

/-- Expressions in which binders have no names. -/
inductive Nameless where
  | bound (i : Nat)
  | free (x : Name)
  | int (n : Int64)
  | float (a : Double)
  | bool (b : Bool)
  | unary (op : UnaryOp) (operand : Nameless)
  | binary (op : BinaryOp) (left right : Nameless)
  | cond (guard yes no : Nameless)
  | fn (body : Nameless)
  | letIn (value body : Nameless)
  | letRec (value body : Nameless)
  | raise
  | unassigned
  | app (callee arg : Nameless)
  deriving DecidableEq

namespace Nameless

def replace (x : Name) (r : Nameless) : Nameless → Nameless
  | bound i => bound i
  | free y => if y = x then r else free y
  | int n => int n
  | float a => float a
  | bool b => bool b
  | unary op e => unary op (replace x r e)
  | binary op a b => binary op (replace x r a) (replace x r b)
  | cond a b c => cond (replace x r a) (replace x r b) (replace x r c)
  | fn b => fn (replace x r b)
  | letIn v b => letIn (replace x r v) (replace x r b)
  | letRec v b => letRec (replace x r v) (replace x r b)
  | raise => raise
  | unassigned => unassigned
  | app f a => app (replace x r f) (replace x r a)

end Nameless

namespace Expr

/-- An occurrence of a name under the binders `scope`, innermost first. -/
def resolve (scope : List Name) (x : Name) : Nameless :=
  match scope.idxOf? x with
  | some i => .bound i
  | none => .free x

/-- The nameless form of an expression under the binders `scope`, innermost first. -/
def namelessIn (scope : List Name) : Expr → Nameless
  | var x => resolve scope x
  | int n => .int n
  | float a => .float a
  | bool b => .bool b
  | unary op e => .unary op (e.namelessIn scope)
  | binary op a b => .binary op (a.namelessIn scope) (b.namelessIn scope)
  | cond a b c => .cond (a.namelessIn scope) (b.namelessIn scope) (c.namelessIn scope)
  | fn x b => .fn (b.namelessIn (x :: scope))
  | letIn x v b => .letIn (v.namelessIn scope) (b.namelessIn (x :: scope))
  | letRec x v b => .letRec (v.namelessIn (x :: scope)) (b.namelessIn (x :: scope))
  | raise => .raise
  | unassigned => .unassigned
  | app f a => .app (f.namelessIn scope) (a.namelessIn scope)

def nameless (e : Expr) : Nameless := e.namelessIn []

theorem resolve_cons_self (x : Name) (scope : List Name) : resolve (x :: scope) x = .bound 0 := by
  simp [resolve, List.idxOf?_cons]

theorem resolve_cons_of_ne {x y : Name} (h : x ≠ y) (scope : List Name) :
    resolve (y :: scope) x =
      match resolve scope x with
      | .bound i => .bound (i + 1)
      | e => e := by
  simp only [resolve, List.idxOf?_cons, beq_false_of_ne h.symm]
  cases scope.idxOf? x <;> rfl

theorem resolve_cons_congr {x y : Name} {scope scope' : List Name}
    (h : x ≠ y → resolve scope x = resolve scope' x) :
    resolve (y :: scope) x = resolve (y :: scope') x := by
  by_cases hxy : x = y
  · rw [hxy, resolve_cons_self, resolve_cons_self]
  · rw [resolve_cons_of_ne hxy, resolve_cons_of_ne hxy, h hxy]

/-- The nameless form depends on how the binders in force resolve the free variables alone. -/
theorem namelessIn_congr {e : Expr} {scope scope' : List Name}
    (h : ∀ x, FreeIn x e → resolve scope x = resolve scope' x) :
    e.namelessIn scope = e.namelessIn scope' := by
  induction e generalizing scope scope' with
  | var x => exact h x rfl
  | fn y b ih =>
    rw [namelessIn, namelessIn, ih fun x hx => resolve_cons_congr fun hxy => h x ⟨hxy, hx⟩]
  | letIn y v b ihv ih =>
    rw [namelessIn, namelessIn, ihv fun x hx => h x (.inl hx),
      ih fun x hx => resolve_cons_congr fun hxy => h x (.inr ⟨hxy, hx⟩)]
  | letRec y v b ihv ih =>
    rw [namelessIn, namelessIn, ihv fun x hx => resolve_cons_congr fun hxy => h x ⟨hxy, .inl hx⟩,
      ih fun x hx => resolve_cons_congr fun hxy => h x ⟨hxy, .inr hx⟩]
  | unary op e ih => rw [namelessIn, namelessIn, ih h]
  | binary op a b iha ihb =>
    rw [namelessIn, namelessIn, iha fun x hx => h x (.inl hx), ihb fun x hx => h x (.inr hx)]
  | cond a b c iha ihb ihc =>
    rw [namelessIn, namelessIn, iha fun x hx => h x (.inl hx),
      ihb fun x hx => h x (.inr (.inl hx)), ihc fun x hx => h x (.inr (.inr hx))]
  | app f a ihf iha =>
    rw [namelessIn, namelessIn, ihf fun x hx => h x (.inl hx), iha fun x hx => h x (.inr hx)]
  | _ => rfl

end Expr

end LetCalculus
