import Std.Data.TreeMap.Basic
import LetCalculus.Name.Basic

/-!
# Name tables

A name table assigns consecutive indices to texts in the order in which they are first seen. It
keeps the texts by index and the indices by text; `NameTable.Consistent` says that the two halves
are inverse to each other. Interning an old text changes nothing, and interning a new one only
adds an entry behind all the others.
-/

namespace LetCalculus

/-- Texts by index, and indices by text. -/
structure NameTable where
  texts : Array String
  indices : Std.TreeMap String Nat

inductive InternError where
  /-- All indices are taken; the table holds `count` texts. -/
  | overflow (count : Nat)
  deriving DecidableEq, Repr

def InternError.message : InternError → String
  | .overflow count => "interner exceeded capacity: " ++ toString count ++ " strings"

namespace NameTable

def size (t : NameTable) : Nat := t.texts.size

def isEmpty (t : NameTable) : Bool := decide (t.size ≤ 1)

/-- The text of a name; a name that the table never issued reads as `<unknown>`. -/
def text (t : NameTable) (x : Name) : String := t.texts[x.index]?.getD "<unknown>"

def knows (t : NameTable) (x : Name) : Bool := decide (x.index < t.size)

def find? (t : NameTable) (s : String) : Option Name := t.indices[s]?.map Name.mk

def push (t : NameTable) (s : String) : NameTable :=
  ⟨t.texts.push s, t.indices.insert s t.texts.size⟩

/-- The name of a text, entering the text if it is new, even beyond the last index there is. -/
def intern (t : NameTable) (s : String) : Name × NameTable :=
  match t.find? s with
  | some x => (x, t)
  | none => (⟨t.size⟩, t.push s)

/-- Indices are 32 bits wide. -/
def capacity : Nat := Nat.pow 2 32

/-- As `intern`, but a new text is refused once all indices are taken. -/
def intern? (t : NameTable) (s : String) : Except InternError (Name × NameTable) :=
  match t.find? s with
  | some x => .ok (x, t)
  | none => if t.size < capacity then .ok (⟨t.size⟩, t.push s) else .error (.overflow t.size)

def seed : NameTable := ⟨#[""], (∅ : Std.TreeMap String Nat).insert "" 0⟩

def keywords : List String :=
  ["if", "then", "else", "let", "rec", "in", "fun", "function", "raise", "true", "false", "not"]

/-- The table that every program starts from: the empty text, then the reserved words. -/
def initial : NameTable := keywords.foldl (fun t s => (t.intern s).2) seed

instance : Inhabited NameTable := ⟨initial⟩

/-- Each half of the table is the inverse of the other. -/
def Consistent (t : NameTable) : Prop :=
  ∀ (s : String) (i : Nat), t.indices[s]? = some i ↔ t.texts[i]? = some s

end NameTable

/-- Computations over a name table that never refuses a text. -/
abbrev TableM := StateM NameTable

/-- Computations over a name table that can be full. -/
abbrev TableM? := StateT NameTable (Except InternError)

end LetCalculus
