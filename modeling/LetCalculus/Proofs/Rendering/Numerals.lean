import Mathlib.Algebra.Order.Field.Power
import Mathlib.Data.List.TakeWhile
import Mathlib.Data.Rat.Defs
import Mathlib.Tactic.FieldSimp
import Mathlib.Tactic.Linarith
import Mathlib.Tactic.Positivity
import Mathlib.Tactic.Ring
import LetCalculus.Decimal.FloatText

/-!
# Numerals

What a numeral denotes, by a reading of its characters that knows nothing of how it came to be
written (`numeralValue`). A decimal is written in one of several forms, and in each of them it is
read as the number that it is (`Decimal.numeralValue_write`). So decimals written alike are equal
as numbers. In each form it also has a point or an exponent, by which a reader can tell it from an
integer (`Decimal.isNumeral_write`).
-/

namespace LetCalculus

def cutAt (c : Char) (cs : List Char) : List Char × List Char :=
  (cs.takeWhile (· != c), (cs.dropWhile (· != c)).tail)

/-- The integer that digits after an optional sign denote; zero if there are none. -/
def integerValue : List Char → Int
  | '-' :: ds => -(Nat.ofDigitChars 10 ds 0 : Nat)
  | ds => (Nat.ofDigitChars 10 ds 0 : Nat)

/-- The number denoted by digits, perhaps with a point among them and a power of ten after them. -/
def numeralValue (cs : List Char) : Rat :=
  let (significand, power) := cutAt 'e' cs
  let (whole, fraction) := cutAt '.' significand
  (Nat.ofDigitChars 10 (whole ++ fraction) 0 : Nat) *
    (10 : Rat) ^ (integerValue power - (fraction.length : Int))

variable {c : Char} {l r whole fraction : List Char} {n : Nat}

theorem cutAt_append (h : c ∉ l) (r : List Char) : cutAt c (l ++ c :: r) = (l, r) := by
  have hl : ∀ a ∈ l, (a != c) = true := by
    rintro a ha
    exact bne_iff_ne.2 fun hac => h (hac ▸ ha)
  rw [cutAt, List.takeWhile_append_of_pos hl, List.dropWhile_append_of_pos hl]
  simp

theorem cutAt_of_notMem (h : c ∉ l) : cutAt c l = (l, []) := by
  have hl : ∀ a ∈ l, (a != c) = true := by
    rintro a ha
    exact bne_iff_ne.2 fun hac => h (hac ▸ ha)
  rw [cutAt, List.takeWhile_eq_self_iff.2 hl, List.dropWhile_eq_nil_iff.2 hl, List.tail_nil]

/-! ### Digits -/

theorem ne_of_isDigit (h : c.isDigit = true) : c ≠ 'e' ∧ c ≠ '.' ∧ c ≠ '-' := by
  refine ⟨?_, ?_, ?_⟩ <;>
  · rintro rfl
    revert h
    decide

theorem notMem_of_digits (h : ∀ c ∈ l, c.isDigit = true) : 'e' ∉ l ∧ '.' ∉ l :=
  ⟨fun hm => (ne_of_isDigit (h _ hm)).1 rfl, fun hm => (ne_of_isDigit (h _ hm)).2.1 rfl⟩

theorem isDigit_of_mem_toDigits (h : c ∈ Nat.toDigits 10 n) : c.isDigit = true :=
  Nat.isDigit_of_mem_toDigits (by decide) (by decide) h

theorem isDigit_of_mem_replicate (h : c ∈ List.replicate n '0') : c.isDigit = true := by
  rw [List.eq_of_mem_replicate h]
  rfl

theorem numeralValue_point (hw : ∀ c ∈ whole, c.isDigit = true)
    (hf : ∀ c ∈ fraction, c.isDigit = true) :
    numeralValue (whole ++ '.' :: fraction) =
      (Nat.ofDigitChars 10 (whole ++ fraction) 0 : Nat) *
        (10 : Rat) ^ (-(fraction.length : Int)) := by
  have he : 'e' ∉ whole ++ '.' :: fraction := by
    simp [(notMem_of_digits hw).1, (notMem_of_digits hf).1]
  rw [numeralValue, cutAt_of_notMem he]
  simp only [cutAt_append (notMem_of_digits hw).2]
  simp [integerValue, Nat.ofDigitChars]

theorem numeralValue_power (hw : ∀ c ∈ whole, c.isDigit = true) (power : List Char) :
    numeralValue (whole ++ 'e' :: power) =
      (Nat.ofDigitChars 10 whole 0 : Nat) * (10 : Rat) ^ integerValue power := by
  rw [numeralValue, cutAt_append (notMem_of_digits hw).1]
  simp only [cutAt_of_notMem (notMem_of_digits hw).2]
  simp

theorem numeralValue_point_power (hw : ∀ c ∈ whole, c.isDigit = true)
    (hf : ∀ c ∈ fraction, c.isDigit = true) (power : List Char) :
    numeralValue (whole ++ '.' :: fraction ++ 'e' :: power) =
      (Nat.ofDigitChars 10 (whole ++ fraction) 0 : Nat) *
        (10 : Rat) ^ (integerValue power - (fraction.length : Int)) := by
  have he : 'e' ∉ whole ++ '.' :: fraction := by
    simp [(notMem_of_digits hw).1, (notMem_of_digits hf).1]
  rw [numeralValue, cutAt_append he]
  simp only [cutAt_append (notMem_of_digits hw).2]

/-! ### Integers -/

theorem integerValue_of_digits (h : ∀ c ∈ l, c.isDigit = true) :
    integerValue l = (Nat.ofDigitChars 10 l 0 : Nat) := by
  cases l with
  | nil => rfl
  | cons c l =>
    have hc := (ne_of_isDigit (h c List.mem_cons_self)).2.2
    unfold integerValue
    split
    · exact absurd (List.cons.inj ‹_›).1 hc
    · rfl

theorem toList_toString (n : Int) :
    (toString n).toList =
      if 0 ≤ n then Nat.toDigits 10 n.toNat else '-' :: Nat.toDigits 10 (-n).toNat := by
  have hr : toString n = n.repr := rfl
  rw [hr, Int.repr_eq_if]
  split
  · rw [Nat.repr_eq_ofList_toDigits, String.toList_ofList]
  · rw [String.toList_append, Nat.repr_eq_ofList_toDigits, String.toList_ofList]
    simp

theorem integerValue_toString (n : Int) : integerValue (toString n).toList = n := by
  rw [toList_toString]
  split
  · rw [integerValue_of_digits fun _ => isDigit_of_mem_toDigits, Nat.ofDigitChars_ten_toDigits]
    omega
  · rw [integerValue, Nat.ofDigitChars_ten_toDigits]
    omega

theorem isDigit_or_sign_of_mem_toString {n : Int} (h : c ∈ (toString n).toList) :
    c.isDigit = true ∨ c = '-' := by
  rw [toList_toString] at h
  split at h
  · exact .inl (isDigit_of_mem_toDigits h)
  · rcases List.mem_cons.1 h with h | h
    · exact .inr h
    · exact .inl (isDigit_of_mem_toDigits h)

/-! ### Decimals -/

/-- Digits, a point, an exponent and its sign, beginning with a digit; not the digits alone. -/
structure IsNumeral (cs : List Char) : Prop where
  head : ∃ c rest, cs = c :: rest ∧ c.isDigit = true
  chars : ∀ c ∈ cs, c.isDigit = true ∨ c = '.' ∨ c = 'e' ∨ c = '-'
  mark : '.' ∈ cs ∨ 'e' ∈ cs

namespace Decimal

def value (d : Decimal) : Rat := d.digits * (10 : Rat) ^ d.exponent

theorem ofDigitChars_digitList (d : Decimal) : Nat.ofDigitChars 10 d.digitList 0 = d.digits :=
  Nat.ofDigitChars_ten_toDigits

theorem isDigit_of_mem_digitList (d : Decimal) : ∀ c ∈ d.digitList, c.isDigit = true :=
  fun _ => isDigit_of_mem_toDigits

/-- Digits before a point and behind it that have the value of a decimal. -/
structure SplitAs (d : Decimal) (whole fraction : List Char) : Prop where
  ne_nil : whole ≠ []
  isDigit_whole : ∀ c ∈ whole, c.isDigit = true
  isDigit_fraction : ∀ c ∈ fraction, c.isDigit = true
  value_eq : (Nat.ofDigitChars 10 (whole ++ fraction) 0 : Nat) *
    (10 : Rat) ^ (-(fraction.length : Int)) = d.value

theorem splitAs_small {d : Decimal} (h : d.point ≤ 0) :
    d.SplitAs ['0'] (List.replicate (-d.point).toNat '0' ++ d.digitList) := by
  refine ⟨by simp, List.forall_mem_singleton.2 rfl, ?_, ?_⟩
  · intro c hc
    rcases List.mem_append.1 hc with hc | hc
    · exact isDigit_of_mem_replicate hc
    · exact d.isDigit_of_mem_digitList c hc
  · have hlen : ((List.replicate (-d.point).toNat '0' ++ d.digitList).length : Int) =
        -d.exponent := by
      simp only [List.length_append, List.length_replicate, point] at *
      omega
    rw [hlen, neg_neg, ← List.append_assoc, Nat.ofDigitChars_append, Nat.ofDigitChars_append,
      Nat.ofDigitChars_replicate_zero, value, ← d.ofDigitChars_digitList]
    simp [Nat.ofDigitChars]

theorem splitAs_large {d : Decimal} (h : d.digitList.length ≤ d.point) :
    d.SplitAs (d.digitList ++ List.replicate (d.point - d.digitList.length).toNat '0') ['0'] := by
  have hne : d.digitList ≠ [] := Nat.toDigits_ne_nil
  refine ⟨by simp [hne], ?_, List.forall_mem_singleton.2 rfl, ?_⟩
  · intro c hc
    rcases List.mem_append.1 hc with hc | hc
    · exact d.isDigit_of_mem_digitList c hc
    · exact isDigit_of_mem_replicate hc
  · have he : ((d.point - d.digitList.length).toNat : Int) = d.exponent := by
      unfold point at *
      omega
    rw [Nat.ofDigitChars_append, Nat.ofDigitChars_append, d.ofDigitChars_digitList,
      Nat.ofDigitChars_replicate_zero, value, ← he]
    simp [Nat.ofDigitChars]
    ring

theorem splitAs_within {d : Decimal} (h : ¬d.point ≤ 0) (hl : ¬d.digitList.length ≤ d.point) :
    d.SplitAs (d.digitList.take d.point.toNat) (d.digitList.drop d.point.toNat) := by
  refine ⟨?_, fun c hc => d.isDigit_of_mem_digitList c (List.mem_of_mem_take hc),
    fun c hc => d.isDigit_of_mem_digitList c (List.mem_of_mem_drop hc), ?_⟩
  · rw [Ne, List.take_eq_nil_iff]
    rintro (hp | hp)
    · omega
    · exact Nat.toDigits_ne_nil hp
  · have hlen : ((d.digitList.drop d.point.toNat).length : Int) = -d.exponent := by
      simp only [List.length_drop, point] at *
      omega
    rw [List.take_append_drop, d.ofDigitChars_digitList, hlen, neg_neg, value]

/-- Positionally, the place of the point makes up for the digits behind it. -/
theorem exists_positional (d : Decimal) : ∃ whole fraction : List Char,
    d.positional = whole ++ '.' :: fraction ∧ d.SplitAs whole fraction := by
  rw [positional]
  split
  · exact ⟨_, _, rfl, splitAs_small ‹_›⟩
  · split
    · exact ⟨_, _, rfl, splitAs_large ‹_›⟩
    · exact ⟨_, _, rfl, splitAs_within ‹_› ‹_›⟩

theorem numeralValue_positional (d : Decimal) : numeralValue d.positional = d.value := by
  obtain ⟨whole, fraction, ht, hs⟩ := d.exists_positional
  rw [ht, numeralValue_point hs.isDigit_whole hs.isDigit_fraction, hs.value_eq]

theorem isNumeral_positional (d : Decimal) : IsNumeral d.positional := by
  obtain ⟨whole, fraction, ht, hs⟩ := d.exists_positional
  rw [ht]
  refine ⟨?_, ?_, ?_⟩
  · cases whole with
    | nil => exact absurd rfl hs.ne_nil
    | cons c whole => exact ⟨c, _, rfl, hs.isDigit_whole c List.mem_cons_self⟩
  · intro c hc
    rcases List.mem_append.1 hc with hc | hc
    · exact .inl (hs.isDigit_whole c hc)
    · rcases List.mem_cons.1 hc with hc | hc
      · exact .inr (.inl hc)
      · exact .inl (hs.isDigit_fraction c hc)
  · exact .inl (List.mem_append_right _ List.mem_cons_self)

theorem exists_scientific (d : Decimal) : ∃ (c : Char) (cs : List Char), d.digitList = c :: cs ∧
    d.scientific =
      c :: ((if cs = [] then [] else '.' :: cs) ++ 'e' :: (toString (d.point - 1)).toList) := by
  unfold scientific
  rcases hds : d.digitList with _ | ⟨c, _ | ⟨c', cs⟩⟩
  · exact absurd hds Nat.toDigits_ne_nil
  · exact ⟨c, [], rfl, rfl⟩
  · exact ⟨c, c' :: cs, rfl, rfl⟩

theorem numeralValue_scientific (d : Decimal) : numeralValue d.scientific = d.value := by
  obtain ⟨c, cs, hds, ht⟩ := d.exists_scientific
  have hd := d.isDigit_of_mem_digitList
  rw [hds] at hd
  have hc : ∀ a ∈ [c], a.isDigit = true := by
    intro a ha
    exact hd a (List.mem_singleton.1 ha ▸ List.mem_cons_self)
  have hv := ofDigitChars_digitList d
  have hpoint : d.point = d.digitList.length + d.exponent := rfl
  rw [hds] at hv hpoint
  rw [ht]
  cases cs with
  | nil =>
    have he : d.point - 1 = d.exponent := by simp at hpoint; omega
    have hr := numeralValue_power hc (toString (d.point - 1)).toList
    rw [hv, integerValue_toString] at hr
    exact hr.trans (by rw [he, value])
  | cons c' cs =>
    have he : d.point - 1 - ((c' :: cs).length : Int) = d.exponent := by
      rw [List.length_cons] at hpoint
      omega
    have hr := numeralValue_point_power hc (fun a ha => hd a (List.mem_cons_of_mem _ ha))
      (toString (d.point - 1)).toList
    rw [integerValue_toString, he] at hr
    exact hr.trans (by rw [List.singleton_append, hv, value])

theorem isNumeral_scientific (d : Decimal) : IsNumeral d.scientific := by
  obtain ⟨c, cs, hds, ht⟩ := d.exists_scientific
  have hd := d.isDigit_of_mem_digitList
  rw [hds] at hd
  rw [ht]
  refine ⟨⟨c, _, rfl, hd c List.mem_cons_self⟩, ?_, ?_⟩
  · intro a ha
    rcases List.mem_cons.1 ha with rfl | ha
    · exact .inl (hd a List.mem_cons_self)
    rcases List.mem_append.1 ha with ha | ha
    · split at ha
      · cases ha
      · rcases List.mem_cons.1 ha with ha | ha
        · exact .inr (.inl ha)
        · exact .inl (hd a (List.mem_cons_of_mem _ ha))
    · rcases List.mem_cons.1 ha with ha | ha
      · exact .inr (.inr (.inl ha))
      · rcases isDigit_or_sign_of_mem_toString ha with ha | ha
        · exact .inl ha
        · exact .inr (.inr (.inr ha))
  · exact .inr (List.mem_cons_of_mem _ (List.mem_append_right _ List.mem_cons_self))

theorem numeralValue_write (l : Layout) (d : Decimal) : numeralValue (d.write l) = d.value := by
  rw [write]
  split
  · exact d.numeralValue_positional
  · exact d.numeralValue_scientific

theorem isNumeral_write (l : Layout) (d : Decimal) : IsNumeral (d.write l) := by
  rw [write]
  split
  · exact d.isNumeral_positional
  · exact d.isNumeral_scientific

end Decimal

end LetCalculus
