import LetCalculus.Double
import LetCalculus.Name.Basic
import LetCalculus.Operator

/-!
# Expressions

Expressions of the language with named binders. `fn` binds its parameter in its body; `letIn`
binds its name in its body and not in its value; `letRec` binds its name in both. `unassigned`
marks a recursive definition whose value is not known yet; no program text denotes it.
-/

namespace LetCalculus

inductive Expr where
  | var (x : Name)
  | int (n : Int64)
  | float (a : Double)
  | bool (b : Bool)
  | unary (op : UnaryOp) (operand : Expr)
  | binary (op : BinaryOp) (left right : Expr)
  | cond (guard yes no : Expr)
  | fn (param : Name) (body : Expr)
  | letIn (x : Name) (value body : Expr)
  | letRec (x : Name) (value body : Expr)
  | raise
  | unassigned
  | app (callee arg : Expr)
  deriving DecidableEq

structure Lambda where
  param : Name
  body : Expr
  deriving DecidableEq

def Lambda.toExpr (f : Lambda) : Expr := .fn f.param f.body

namespace Expr

instance : Inhabited Expr := ⟨unassigned⟩

def kind : Expr → String
  | var _ => "identifier"
  | int _ => "int"
  | float _ => "float"
  | bool _ => "bool"
  | unary .. => "unary operation"
  | binary .. => "binary operation"
  | cond .. => "conditional"
  | fn .. => "function"
  | letIn .. => "let"
  | letRec .. => "let rec"
  | raise => "raise"
  | unassigned => "unassigned"
  | app .. => "application"

def size : Expr → Nat
  | var _ | int _ | float _ | bool _ | raise | unassigned => 1
  | unary _ e => e.size + 1
  | binary _ l r => l.size + r.size + 1
  | cond c t e => c.size + t.size + e.size + 1
  | fn _ b => b.size + 1
  | letIn _ v b => v.size + b.size + 1
  | letRec _ v b => v.size + b.size + 1
  | app f a => f.size + a.size + 1

theorem size_pos (e : Expr) : 0 < e.size := by
  cases e <;> simp [size]

def isVar : Expr → Bool
  | var _ => true
  | _ => false

def isFn : Expr → Bool
  | fn .. => true
  | _ => false

theorem size_of_isVar {e : Expr} {x : Name} (h : e.isVar = true) : e.size = (var x).size := by
  cases e with
  | var y => rfl
  | _ => exact Bool.noConfusion h

/--
Equality in the sense of the language: floats are compared as numbers, so the two zeros are equal
and a float that is not a number differs from itself.
-/
def same : Expr → Expr → Bool
  | var x, var y => x == y
  | int m, int n => m == n
  | float a, float b => a.same b
  | bool a, bool b => a == b
  | unary o e, unary o' e' => o == o' && same e e'
  | binary o l r, binary o' l' r' => o == o' && same l l' && same r r'
  | cond c t e, cond c' t' e' => same c c' && same t t' && same e e'
  | fn x b, fn x' b' => x == x' && same b b'
  | letIn x v b, letIn x' v' b' => x == x' && same v v' && same b b'
  | letRec x v b, letRec x' v' b' => x == x' && same v v' && same b b'
  | raise, raise => true
  | unassigned, unassigned => true
  | app f a, app f' a' => same f f' && same a a'
  | _, _ => false

end Expr

end LetCalculus
