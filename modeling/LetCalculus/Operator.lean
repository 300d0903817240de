/-!
# Operators

The operators of the language and their symbols.
-/

namespace LetCalculus

inductive UnaryOp where
  | neg
  | negFloat
  | not
  deriving DecidableEq, Repr

inductive BinaryOp where
  | add
  | sub
  | mul
  | div
  | pow
  | eq
  | ne
  | lt
  | le
  | gt
  | ge
  deriving DecidableEq, Repr

def UnaryOp.symbol : UnaryOp → String
  | .neg => "-"
  | .negFloat => "-."
  | .not => "not"

/-- Whether the symbol is a word, which a blank must separate from its operand. -/
def UnaryOp.isWord : UnaryOp → Bool
  | .not => true
  | _ => false

namespace BinaryOp

def symbol : BinaryOp → String
  | .add => "+"
  | .sub => "-"
  | .mul => "*"
  | .div => "/"
  | .pow => "^"
  | .eq => "="
  | .ne => "<>"
  | .lt => "<"
  | .le => "<="
  | .gt => ">"
  | .ge => ">="

def isArithmetic : BinaryOp → Bool
  | .add | .sub | .mul | .div | .pow => true
  | _ => false

end BinaryOp

end LetCalculus
