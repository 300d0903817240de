import LetCalculus.Expr.Basic

/-!
# Parts of expressions

An expression is made of its children, these are made of theirs, and so on. A part is reached from
the whole by saying, level by level, which child to take; this is its position.
-/

namespace LetCalculus.Expr

/-- The expressions that an expression is made of, one level down. -/
@[simp]
def children : Expr → List Expr
  | var _ | int _ | float _ | bool _ | raise | unassigned => []
  | unary _ e => [e]
  | binary _ l r => [l, r]
  | cond c y n => [c, y, n]
  | fn _ b => [b]
  | letIn _ v b | letRec _ v b => [v, b]
  | app f a => [f, a]

inductive Part (e : Expr) : Expr → Prop
  | self : Part e e
  | child {a b : Expr} : Part e a → b ∈ a.children → Part e b

/-- The parts of an expression, listed from the whole to the leaves. -/
def parts : Expr → List Expr
  | unary op e => unary op e :: e.parts
  | binary op l r => binary op l r :: (l.parts ++ r.parts)
  | cond c y n => cond c y n :: (c.parts ++ y.parts ++ n.parts)
  | fn x b => fn x b :: b.parts
  | letIn x v b => letIn x v b :: (v.parts ++ b.parts)
  | letRec x v b => letRec x v b :: (v.parts ++ b.parts)
  | app f a => app f a :: (f.parts ++ a.parts)
  | e => [e]

/-- The part at a position, if there is one. -/
def at? (e : Expr) : List Nat → Option Expr
  | [] => some e
  | i :: p =>
    match e.children[i]? with
    | some a => a.at? p
    | none => none

variable {a b c e : Expr}

theorem Part.trans (ha : e.Part a) (hb : a.Part b) : e.Part b := by
  induction hb with
  | self => exact ha
  | child _ hc ih => exact ih.child hc

@[elab_as_elim]
theorem induction_on_children {P : Expr → Prop} (e : Expr)
    (h : ∀ e, (∀ a ∈ e.children, P a) → P e) : P e := by
  induction e <;> exact h _ (by simp [*])

theorem mem_parts_iff : b ∈ e.parts ↔ b = e ∨ ∃ a ∈ e.children, b ∈ a.parts := by
  cases e <;> simp [parts]

theorem mem_parts_of_child (ha : a ∈ e.parts) (hb : b ∈ a.children) : b ∈ e.parts := by
  induction e using induction_on_children with
  | h e below =>
    refine mem_parts_iff.2 (.inr ?_)
    rcases mem_parts_iff.1 ha with rfl | ⟨c, hc, ha⟩
    · exact ⟨b, hb, mem_parts_iff.2 (.inl rfl)⟩
    · exact ⟨c, hc, below c hc ha⟩

theorem part_iff_mem_parts : e.Part b ↔ b ∈ e.parts := by
  constructor
  · intro h
    induction h with
    | self => exact mem_parts_iff.2 (.inl rfl)
    | child _ hb ih => exact mem_parts_of_child ih hb
  · intro h
    induction e using induction_on_children with
    | h e below =>
      rcases mem_parts_iff.1 h with rfl | ⟨a, ha, hb⟩
      · exact .self
      · exact (Part.self.child ha).trans (below a ha hb)

instance : Decidable (e.Part b) := decidable_of_iff _ part_iff_mem_parts.symm

end LetCalculus.Expr
