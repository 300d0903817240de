/-!
# Names

An identifier is held as its index in a name table. Two identifiers are the same exactly when
their indices agree, so comparing names never looks at text. An index that a table never issued
is still a name; it has no text there.
-/

namespace LetCalculus

/-- An identifier, given by its index in a name table. -/
structure Name where
  index : Nat
  deriving DecidableEq, Repr

namespace Name

def blank : Name := ⟨0⟩

instance : Inhabited Name := ⟨blank⟩

instance : Ord Name := ⟨fun a b => compare a.index b.index⟩

def tag (x : Name) : String := "Name(" ++ toString x.index ++ ")"

end Name

end LetCalculus
