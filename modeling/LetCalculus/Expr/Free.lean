import LetCalculus.Expr.Basic

/-!
# Free variables

The names that occur in an expression outside the scope of every binder of that name. The
expression is traversed once, and a stack holds the binders in force: a binder is pushed where its
scope begins and popped where it ends. A name that is bound twice is on the stack twice, so it stays
bound when the inner scope ends.
-/

namespace LetCalculus

/-- A collection under way: the binders in force, innermost first, and the names found so far. -/
@[ext]
structure Collector where
  bound : List Name
  found : List Name
  deriving DecidableEq

namespace Collector

def push (c : Collector) (x : Name) : Collector := { c with bound := x :: c.bound }

def pop (c : Collector) : Collector := { c with bound := c.bound.tail }

def visit (c : Collector) (x : Name) : Collector :=
  if x ∈ c.bound then c else { c with found := c.found.insert x }

end Collector

namespace Expr

/-- Add to the names found those that occur free in an expression under the binders in force. -/
def collectFree : Expr → Collector → Collector
  | var x, c => c.visit x
  | int _, c | float _, c | bool _, c | raise, c | unassigned, c => c
  | unary _ e, c => e.collectFree c
  | binary _ l r, c => r.collectFree (l.collectFree c)
  | cond g y n, c => n.collectFree (y.collectFree (g.collectFree c))
  | fn x b, c => (b.collectFree (c.push x)).pop
  | letIn x v b, c => (b.collectFree ((v.collectFree c).push x)).pop
  | letRec x v b, c => (b.collectFree (v.collectFree (c.push x))).pop
  | app f a, c => a.collectFree (f.collectFree c)

/-- The free variables of an expression, each listed once. -/
def freeVars (e : Expr) : List Name := (e.collectFree ⟨[], []⟩).found

def isFree (x : Name) (e : Expr) : Bool := decide (x ∈ e.freeVars)

def isClosed (e : Expr) : Bool := e.freeVars.isEmpty

end Expr

end LetCalculus
