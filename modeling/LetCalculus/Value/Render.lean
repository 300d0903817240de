import LetCalculus.Heap.Basic
import LetCalculus.Expr.Render

/-!
# Rendering of values

A closure is written as its function in angle brackets. With environments shown, the captured
bindings follow the function; a closure among them is written without its own, so that a
recursive function, whose environment holds itself, has a finite text.
-/

namespace LetCalculus.Value

def render (t : NameTable) : Value → String
  | .plain e => e.render t
  | .closure f _ => "<" ++ f.render t ++ ">"

def renderBindings (t : NameTable) (h : Heap) (env : Environment) : String :=
  ", ".intercalate (env.bindings.map fun b => t.text b.1 ++ " = " ++ (h.read b.2).render t)

/-- The text of a value in which a closure shows its environment. -/
def renderEnv (t : NameTable) (h : Heap) : Value → String
  | .plain e => e.render t
  | .closure f env => "<" ++ f.render t ++ " | \x7b" ++ renderBindings t h env ++ "\x7d>"

def cellTag? : Value → Option String
  | .plain e => e.leafTag?.map fun s => "Cell(Plain(" ++ s ++ "))"
  | .closure .. => none

end LetCalculus.Value
