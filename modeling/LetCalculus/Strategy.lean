import LetCalculus.Text.Blank

/-!
# Evaluation strategies

The trivial strategy returns an expression as it is. The others reduce it, each under a scoping
discipline of its own: by putting values for names in the text, by looking names up where a
function is called, or by looking them up where it was defined.
-/

namespace LetCalculus

/-- How a name finds its value. -/
inductive Discipline where
  /-- Values replace names in the text. -/
  | substitution
  /-- The body of a function sees the environment of its caller. -/
  | dynamic
  /-- The body of a function sees the environment of its definition. -/
  | lexical
  deriving DecidableEq, Repr

inductive Strategy where
  | trivial
  | reducing (s : Discipline)
  deriving DecidableEq, Repr

namespace Strategy

/-- Unless told otherwise, functions see the environment of their definition. -/
instance : Inhabited Strategy := ⟨reducing .lexical⟩

def all : List Strategy :=
  [trivial, reducing .substitution, reducing .dynamic, reducing .lexical]

def name : Strategy → String
  | trivial => "trivial"
  | reducing .substitution => "substitution"
  | reducing .dynamic => "dynamic"
  | reducing .lexical => "lexical"

def substitutes (s : Strategy) : Bool := s == reducing .substitution

def makesClosures (s : Strategy) : Bool := s == reducing .lexical

def isReducing : Strategy → Bool
  | trivial => false
  | reducing _ => true

/-- The strategy of a name; blanks around it and the case of ASCII letters do not matter. -/
def ofText? (text : String) : Option Strategy :=
  let word := (Text.trimBlanks text).map Char.toLower
  all.find? fun s => s.name == word

theorem ofText?_eq_some_iff {text : String} {s : Strategy} :
    ofText? text = some s ↔ (Text.trimBlanks text).map Char.toLower = s.name := by
  constructor
  · intro h
    rw [ofText?] at h
    have h := List.find?_some h
    exact (eq_of_beq h).symm
  · intro h
    rw [ofText?, h]
    rcases s with _ | s
    · rfl
    · cases s <;> rfl

theorem ofText?_name (s : Strategy) : ofText? s.name = some s := by
  rcases s with _ | s
  · decide +kernel
  · cases s <;> decide +kernel

def unknownMessage (text : String) : String :=
  "unknown evaluation strategy `" ++ text ++
    "` (expected trivial, substitution, dynamic or lexical)"

end Strategy

end LetCalculus
