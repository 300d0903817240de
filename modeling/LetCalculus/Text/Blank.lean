/-!
# Blanks

The characters with the White_Space property, and trimming them from both ends of a text.
-/

namespace LetCalculus.Text

/-- The ranges of code points with the White_Space property. -/
def blankRanges : List (Nat × Nat) :=
  [(0x09, 0x0d), (0x20, 0x20), (0x85, 0x85), (0xa0, 0xa0), (0x1680, 0x1680), (0x2000, 0x200a),
    (0x2028, 0x2029), (0x202f, 0x202f), (0x205f, 0x205f), (0x3000, 0x3000)]

-- The ranges are in order, do not overlap and hold twenty-five characters.
example : blankRanges.Pairwise fun a b => a.1 ≤ a.2 ∧ a.2 < b.1 := by decide

example : blankRanges.foldl (fun n r => n + (r.2 - r.1 + 1)) 0 = 25 := by decide

def isBlank (c : Char) : Bool := blankRanges.any fun r => decide (r.1 ≤ c.toNat ∧ c.toNat ≤ r.2)

theorem isBlank_of_isWhitespace {c : Char} (h : c.isWhitespace = true) : isBlank c = true := by
  simp only [Char.isWhitespace, Bool.or_eq_true, decide_eq_true_eq] at h
  rcases h with ((rfl | rfl) | rfl) | rfl <;> rfl

def trimBlanks (s : String) : String :=
  String.ofList ((s.toList.dropWhile isBlank).reverse.dropWhile isBlank).reverse

end LetCalculus.Text
