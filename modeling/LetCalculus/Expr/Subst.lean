import LetCalculus.Expr.Free
import LetCalculus.Name.Fresh

/-!
# Capture-avoiding substitution

`substitute x r e t` replaces the free occurrences of `x` in `e` by `r`. A binder that would
capture a free variable of `r` is renamed first, to a fresh name from the name table `t`; no other
binder changes. The traversal is from left to right and threads the name table.

Renaming is itself a substitution, of a variable for a variable, so below a renamed binder the
substitution continues in the result of another one. It ends because putting a variable in the
place of a variable keeps the size of an expression, and this is part of what the traversal
returns. The traversal is given for any source of fresh names, so that it also runs over a table
that can be full (`substitute?`).
-/

namespace LetCalculus.Expr

/-- Whether a binder of `y` over the given scopes would capture a variable of `r` put for `x`. -/
def captures (x : Name) (r : Expr) (y : Name) (scopes : List Expr) : Bool :=
  decide (y ∈ r.freeVars) && scopes.any (isFree x)

/-- The names that a renamed binder over the given scopes must not take. -/
def taken (x : Name) (r : Expr) (scopes : List Expr) : List Name :=
  x :: (r.freeVars ++ scopes.flatMap freeVars)

/--
Substitution together with its effect on the size when a variable is put for a variable. The names
for renamed binders come from `fresh`, whatever it may do besides.
-/
@[specialize] def substituteSized {m : Type → Type} [Monad m] (fresh : Name → List Name → m Name)
    (x : Name) (r e : Expr) : m { e' : Expr // r.isVar = true → e'.size = e.size } :=
  match e with
  | var y => pure (if y = x then ⟨r, size_of_isVar⟩ else ⟨var y, fun _ => rfl⟩)
  | int n => pure ⟨int n, fun _ => rfl⟩
  | float a => pure ⟨float a, fun _ => rfl⟩
  | bool b => pure ⟨bool b, fun _ => rfl⟩
  | raise => pure ⟨raise, fun _ => rfl⟩
  | unassigned => pure ⟨unassigned, fun _ => rfl⟩
  | unary op a => do
    let ⟨a', ha⟩ ← substituteSized fresh x r a
    pure ⟨unary op a', fun h => by simp only [size, ha h]⟩
  | binary op a b => do
    let ⟨a', ha⟩ ← substituteSized fresh x r a
    let ⟨b', hb⟩ ← substituteSized fresh x r b
    pure ⟨binary op a' b', fun h => by simp only [size, ha h, hb h]⟩
  | cond a b c => do
    let ⟨a', ha⟩ ← substituteSized fresh x r a
    let ⟨b', hb⟩ ← substituteSized fresh x r b
    let ⟨c', hc⟩ ← substituteSized fresh x r c
    pure ⟨cond a' b' c', fun h => by simp only [size, ha h, hb h, hc h]⟩
  | app a b => do
    let ⟨a', ha⟩ ← substituteSized fresh x r a
    let ⟨b', hb⟩ ← substituteSized fresh x r b
    pure ⟨app a' b', fun h => by simp only [size, ha h, hb h]⟩
  | fn y b =>
    if y = x then pure ⟨fn y b, fun _ => rfl⟩
    else if captures x r y [b] then do
      let z ← fresh y (taken x r [b])
      let ⟨b₁, h₁⟩ ← substituteSized fresh y (var z) b
      let ⟨b₂, h₂⟩ ← substituteSized fresh x r b₁
      pure ⟨fn z b₂, fun h => by simp only [size, h₂ h, h₁ rfl]⟩
    else do
      let ⟨b', hb⟩ ← substituteSized fresh x r b
      pure ⟨fn y b', fun h => by simp only [size, hb h]⟩
  | letIn y v b => do
    let ⟨v', hv⟩ ← substituteSized fresh x r v
    if y = x then pure ⟨letIn y v' b, fun h => by simp only [size, hv h]⟩
    else if captures x r y [b] then do
      let z ← fresh y (taken x r [b])
      let ⟨b₁, h₁⟩ ← substituteSized fresh y (var z) b
      let ⟨b₂, h₂⟩ ← substituteSized fresh x r b₁
      pure ⟨letIn z v' b₂, fun h => by simp only [size, hv h, h₂ h, h₁ rfl]⟩
    else do
      let ⟨b', hb⟩ ← substituteSized fresh x r b
      pure ⟨letIn y v' b', fun h => by simp only [size, hv h, hb h]⟩
  | letRec y v b =>
    if y = x then pure ⟨letRec y v b, fun _ => rfl⟩
    else if captures x r y [v, b] then do
      let z ← fresh y (taken x r [v, b])
      let ⟨v₁, hv₁⟩ ← substituteSized fresh y (var z) v
      let ⟨v₂, hv₂⟩ ← substituteSized fresh x r v₁
      let ⟨b₁, hb₁⟩ ← substituteSized fresh y (var z) b
      let ⟨b₂, hb₂⟩ ← substituteSized fresh x r b₁
      pure ⟨letRec z v₂ b₂, fun h => by simp only [size, hv₂ h, hv₁ rfl, hb₂ h, hb₁ rfl]⟩
    else do
      let ⟨v', hv⟩ ← substituteSized fresh x r v
      let ⟨b', hb⟩ ← substituteSized fresh x r b
      pure ⟨letRec y v' b', fun h => by simp only [size, hv h, hb h]⟩
termination_by e.size
decreasing_by
  all_goals simp only [size]
  all_goals first
    | omega
    | have := h₁ rfl; omega
    | have := hv₁ rfl; omega
    | have := hb₁ rfl; omega

/-- Replace the free occurrences of `x` in `e` by `r`, renaming the binders that would capture. -/
def substitute (x : Name) (r e : Expr) (t : NameTable) : Expr × NameTable :=
  let p := substituteSized (m := TableM) (fun base avoid t => t.fresh base avoid) x r e t
  (p.1.1, p.2)

/-- The same from a table that refuses new names once it is full. -/
def substitute? (x : Name) (r e : Expr) (t : NameTable) :
    Except InternError (Expr × NameTable) :=
  let p := substituteSized (m := TableM?) (fun base avoid t => t.fresh? base avoid) x r e t
  p.map fun p => (p.1.1, p.2)

/-! ### One equation for each construct -/

section

variable (x : Name) (r : Expr) (t : NameTable)

theorem substitute_var (y : Name) :
    substitute x r (var y) t = (if y = x then r else var y, t) := by
  rw [substitute, substituteSized]
  split <;> rfl

theorem substitute_int (n : Int64) : substitute x r (int n) t = (int n, t) := by
  rw [substitute, substituteSized]
  rfl

theorem substitute_float (a : Double) : substitute x r (float a) t = (float a, t) := by
  rw [substitute, substituteSized]
  rfl

theorem substitute_bool (b : Bool) : substitute x r (bool b) t = (bool b, t) := by
  rw [substitute, substituteSized]
  rfl

theorem substitute_raise : substitute x r raise t = (raise, t) := by
  rw [substitute, substituteSized]
  rfl

theorem substitute_unassigned : substitute x r unassigned t = (unassigned, t) := by
  rw [substitute, substituteSized]
  rfl

theorem substitute_unary (op : UnaryOp) (a : Expr) :
    substitute x r (unary op a) t =
      let a' := substitute x r a t
      (unary op a'.1, a'.2) := by
  rw [substitute, substituteSized]
  rfl

theorem substitute_binary (op : BinaryOp) (a b : Expr) :
    substitute x r (binary op a b) t =
      let a' := substitute x r a t
      let b' := substitute x r b a'.2
      (binary op a'.1 b'.1, b'.2) := by
  rw [substitute, substituteSized]
  rfl

theorem substitute_cond (a b c : Expr) :
    substitute x r (cond a b c) t =
      let a' := substitute x r a t
      let b' := substitute x r b a'.2
      let c' := substitute x r c b'.2
      (cond a'.1 b'.1 c'.1, c'.2) := by
  rw [substitute, substituteSized]
  rfl

theorem substitute_app (a b : Expr) :
    substitute x r (app a b) t =
      let a' := substitute x r a t
      let b' := substitute x r b a'.2
      (app a'.1 b'.1, b'.2) := by
  rw [substitute, substituteSized]
  rfl

theorem substitute_fn (y : Name) (b : Expr) :
    substitute x r (fn y b) t =
      if y = x then (fn y b, t)
      else if captures x r y [b] then
        let z := t.fresh y (taken x r [b])
        let b₁ := substitute y (var z.1) b z.2
        let b₂ := substitute x r b₁.1 b₁.2
        (fn z.1 b₂.1, b₂.2)
      else
        let b' := substitute x r b t
        (fn y b'.1, b'.2) := by
  rw [substitute, substituteSized]
  split
  · rfl
  · split <;> rfl

theorem substitute_letIn (y : Name) (v b : Expr) :
    substitute x r (letIn y v b) t =
      let v' := substitute x r v t
      if y = x then (letIn y v'.1 b, v'.2)
      else if captures x r y [b] then
        let z := v'.2.fresh y (taken x r [b])
        let b₁ := substitute y (var z.1) b z.2
        let b₂ := substitute x r b₁.1 b₁.2
        (letIn z.1 v'.1 b₂.1, b₂.2)
      else
        let b' := substitute x r b v'.2
        (letIn y v'.1 b'.1, b'.2) := by
  rw [substitute, substituteSized]
  simp only
  split
  · rfl
  · split <;> rfl

theorem substitute_letRec (y : Name) (v b : Expr) :
    substitute x r (letRec y v b) t =
      if y = x then (letRec y v b, t)
      else if captures x r y [v, b] then
        let z := t.fresh y (taken x r [v, b])
        let v₁ := substitute y (var z.1) v z.2
        let v₂ := substitute x r v₁.1 v₁.2
        let b₁ := substitute y (var z.1) b v₂.2
        let b₂ := substitute x r b₁.1 b₁.2
        (letRec z.1 v₂.1 b₂.1, b₂.2)
      else
        let v' := substitute x r v t
        let b' := substitute x r b v'.2
        (letRec y v'.1 b'.1, b'.2) := by
  rw [substitute, substituteSized]
  split
  · rfl
  · split <;> rfl

end

theorem size_substitute_var (x y : Name) (e : Expr) (t : NameTable) :
    (substitute x (var y) e t).1.size = e.size :=
  (substituteSized (m := TableM) (fun base avoid t => t.fresh base avoid) x (var y) e t).1.2 rfl

end LetCalculus.Expr
