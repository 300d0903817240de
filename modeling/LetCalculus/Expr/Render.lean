import LetCalculus.Expr.Basic
import LetCalculus.Name.Table
import LetCalculus.Decimal.FloatText

/-!
# Rendering of expressions

Expressions are written as program text, with names read from a name table. Operators bring their
own parentheses. Conditionals, functions and definitions have none and extend as far to the right
as possible, so as operands they are parenthesised, and so are applications.
-/

namespace LetCalculus

namespace Expr

/-- Whether an expression stands as an operand without parentheses. -/
def isAtomic : Expr → Bool
  | var _ | int _ | float _ | bool _ | raise | unassigned | unary .. | binary .. => true
  | cond .. | fn .. | letIn .. | letRec .. | app .. => false

def parenthesise (atomic : Bool) (s : String) : String := if atomic then s else "(" ++ s ++ ")"

def render (t : NameTable) : Expr → String
  | var x => t.text x
  | int n => toString n.toInt
  | float a => a.render
  | bool b => if b then "true" else "false"
  | unary op e =>
    "(" ++ op.symbol ++ (if op.isWord then " " else "") ++
      parenthesise e.isAtomic (render t e) ++ ")"
  | binary op l r =>
    "(" ++ parenthesise l.isAtomic (render t l) ++ " " ++ op.symbol ++ " " ++
      parenthesise r.isAtomic (render t r) ++ ")"
  | cond c y n => "if " ++ render t c ++ " then " ++ render t y ++ " else " ++ render t n
  | fn x b => "fun " ++ t.text x ++ " -> " ++ render t b
  | letIn x v b => "let " ++ t.text x ++ " = " ++ render t v ++ " in " ++ render t b
  | letRec x v b => "let rec " ++ t.text x ++ " = " ++ render t v ++ " in " ++ render t b
  | raise => "raise"
  | unassigned => "<unassigned>"
  | app f a => parenthesise f.isAtomic (render t f) ++ " " ++ parenthesise a.isAtomic (render t a)

/-- The inspection form of an expression without parts; the others have none. -/
def leafTag? : Expr → Option String
  | int n => some ("Int(" ++ toString n.toInt ++ ")")
  | float a => some ("Float(" ++ a.render ++ ")")
  | bool b => some ("Bool(" ++ (if b then "true" else "false") ++ ")")
  | raise => some "Raise"
  | unassigned => some "Unassigned"
  | _ => none

end Expr

def Lambda.render (t : NameTable) (f : Lambda) : String := f.toExpr.render t

end LetCalculus
