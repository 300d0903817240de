import LetCalculus.Proofs.Rendering.Numerals

/-!
# Floats and their texts

The texts of two floats differ unless neither is a number or they are the same. A shortest decimal
lies in the interval of reals that round to its float (`Binary.rounds_shortest`). Patterns without
the sign count the magnitudes upwards, and the intervals of consecutive ones have one end in
common, which belongs to at most one of them (`Binary.eq_of_rounds`).
-/

namespace LetCalculus

/-! ### The interval of a float -/

namespace Binary

/-- The unit in which the ends of the interval are given. -/
def quarter (v : Binary) : Rat := (2 : Rat) ^ (v.exponent - 2)

/-- Whether a real number rounds to the given one. -/
def Rounds (v : Binary) (q : Rat) : Prop :=
  v.lower * v.quarter ≤ q ∧ q ≤ v.upper * v.quarter ∧
    (v.closed = false → v.lower * v.quarter < q ∧ q < v.upper * v.quarter)

variable {v : Binary} {c : Nat} {e : Int}

theorem quarter_pos (v : Binary) : 0 < v.quarter := zpow_pos (by norm_num) _

theorem zpow_eq_div {a : Rat} (ha : a ≠ 0) (n : Int) :
    a ^ n = a ^ n.toNat / a ^ (-n).toNat := by
  rw [← zpow_natCast, ← zpow_natCast, ← zpow_sub₀ ha]
  congr 1
  omega

/-- The search compares real numbers, multiplied so that they become natural. -/
theorem exists_factor (v : Binary) (e : Int) : ∃ k : Rat, 0 < k ∧
    (v.scale e : Rat) = v.quarter * k ∧ (v.step e : Rat) = (10 : Rat) ^ e * k := by
  have h2 := zpow_eq_div (a := 2) (by norm_num) (v.exponent - 2)
  have h10 := zpow_eq_div (a := 10) (by norm_num) e
  refine ⟨2 ^ (2 - v.exponent).toNat * 10 ^ (-e).toNat, by positivity, ?_, ?_⟩
  · rw [quarter, h2, neg_sub, scale, Nat.cast_mul, Nat.pow_eq, Nat.pow_eq]
    push_cast
    field_simp
  · rw [h10, step, Nat.cast_mul, Nat.pow_eq, Nat.pow_eq]
    push_cast
    field_simp

theorem contains_iff : v.contains c e = true ↔ v.Rounds (c * (10 : Rat) ^ e) := by
  obtain ⟨k, hk, hscale, hstep⟩ := v.exists_factor e
  have hcast : ∀ a b : Nat, a ≤ b ↔ (a : Rat) ≤ b := fun _ _ => Nat.cast_le.symm
  have hle : ∀ n : Nat, (n * v.scale e ≤ c * v.step e ↔
      (n : Rat) * v.quarter ≤ c * (10 : Rat) ^ e) ∧ (c * v.step e ≤ n * v.scale e ↔
      c * (10 : Rat) ^ e ≤ (n : Rat) * v.quarter) := by
    intro n
    rw [hcast, hcast]
    push_cast
    rw [hscale, hstep, ← mul_assoc, ← mul_assoc]
    exact ⟨mul_le_mul_iff_left₀ hk, mul_le_mul_iff_left₀ hk⟩
  have hlt : ∀ n : Nat, (n * v.scale e < c * v.step e ↔
      (n : Rat) * v.quarter < c * (10 : Rat) ^ e) ∧ (c * v.step e < n * v.scale e ↔
      c * (10 : Rat) ^ e < (n : Rat) * v.quarter) := by
    intro n
    rw [← Nat.not_le, ← Nat.not_le, (hle n).1, (hle n).2, not_le, not_le]
    exact ⟨Iff.rfl, Iff.rfl⟩
  unfold contains Rounds
  split
  · rw [decide_eq_true_iff, (hle _).1, (hle _).2]
    simp [*]
  · rw [decide_eq_true_iff, (hlt _).1, (hlt _).2]
    simp only [*, forall_const]
    constructor
    · exact fun h => ⟨h.1.le, h.2.le, h⟩
    · exact fun h => h.2.2

theorem lower_lt_centre (h : 0 < v.mantissa) : v.lower < v.centre := by
  unfold lower centre
  split <;> omega

theorem centre_lt_upper (v : Binary) : v.centre < v.upper := by
  unfold centre upper
  omega

theorem value_exact (v : Binary) : v.exact.value = v.centre * v.quarter := by
  have hc : (v.centre : Rat) * v.quarter = v.mantissa * (2 : Rat) ^ v.exponent := by
    rw [centre, quarter, zpow_sub₀ (by norm_num)]
    push_cast
    ring
  rw [hc]
  unfold exact Decimal.value
  split
  · have he : (v.exponent.toNat : Int) = v.exponent := by omega
    simp only [Nat.pow_eq, Nat.cast_mul, Nat.cast_pow, zpow_zero, mul_one]
    rw [← zpow_natCast, he]
    norm_num
  · have he : v.exponent = -((-v.exponent).toNat : Int) := by omega
    simp only [Nat.pow_eq, Nat.cast_mul, Nat.cast_pow]
    generalize (-v.exponent).toNat = n at he
    rw [he, zpow_neg, zpow_neg, zpow_natCast, zpow_natCast]
    have h10 : (10 : Rat) ^ n = 5 ^ n * 2 ^ n := by rw [← mul_pow]; norm_num
    rw [h10]
    push_cast
    field_simp

theorem rounds_exact (h : 0 < v.mantissa) : v.Rounds v.exact.value := by
  have hq := v.quarter_pos
  have hl : (v.lower : Rat) < v.centre := by exact_mod_cast lower_lt_centre h
  have hu : (v.centre : Rat) < v.upper := by exact_mod_cast v.centre_lt_upper
  have hl := mul_lt_mul_of_pos_right hl hq
  have hu := mul_lt_mul_of_pos_right hu hq
  rw [value_exact]
  exact ⟨hl.le, hu.le, fun _ => ⟨hl, hu⟩⟩

theorem rounds_onGrid {d : Decimal} (h : v.onGrid? e = some d) : v.Rounds d.value := by
  unfold onGrid? at h
  simp only at h
  split at h
  · simp only [Option.some.injEq] at h
    subst h
    split
    · exact contains_iff.1 ‹_›
    · exact contains_iff.1 ‹_›
  · cases h
    exact contains_iff.1 ‹_›
  · cases h
    exact contains_iff.1 ‹_›
  · cases h

theorem rounds_shortest (h : 0 < v.mantissa) : v.Rounds v.shortest.value := by
  unfold shortest
  cases hs : (List.range 24).findSome? fun i : Nat => v.onGrid? (v.coarsest - i) with
  | none => exact rounds_exact h
  | some d =>
    obtain ⟨i, -, hi⟩ := List.exists_of_findSome?_eq_some hs
    exact rounds_onGrid hi

/-! ### Neighbours -/

/-- The positive float with the given exponent and fraction fields. -/
def ofFields (e f : Nat) : Binary :=
  if e = 0 then ⟨f, -1074, false, f % 2 == 0⟩
  else ⟨2 ^ 52 + f, (e : Int) - 1075, f == 0 && decide (1 < e), f % 2 == 0⟩

/-- The positive float at a place, when they are counted upwards from zero. -/
def ofPlace (n : Nat) : Binary := ofFields (n / 2 ^ 52) (n % 2 ^ 52)

/-- The real number half-way between the float at a place and the next one. -/
def boundary (n : Nat) : Rat := (ofPlace n).upper * (ofPlace n).quarter

theorem mantissa_ofPlace_pos {n : Nat} (h : 0 < n) : 0 < (ofPlace n).mantissa := by
  unfold ofPlace ofFields
  split <;> simp only <;> omega

theorem closed_ofPlace (n : Nat) : (ofPlace n).closed = (n % 2 == 0) := by
  have h : n % 2 ^ 52 % 2 = n % 2 := by omega
  unfold ofPlace ofFields
  split <;> simp only [h]

theorem lower_eq_upper {v w : Binary} (k : Nat) (he : w.exponent = v.exponent + k)
    (hl : w.lower * 2 ^ k = v.upper) : (w.lower : Rat) * w.quarter = v.upper * v.quarter := by
  have hq : w.quarter = v.quarter * 2 ^ k := by
    rw [quarter, quarter, he, add_sub_right_comm, zpow_add₀ (by norm_num), zpow_natCast]
  rw [← hl, hq]
  push_cast
  ring

theorem lower_ofFields_succ (e f : Nat) :
    (ofFields e (f + 1)).lower * (ofFields e (f + 1)).quarter =
      (ofFields e f).upper * (ofFields e f).quarter := by
  apply lower_eq_upper 0
  · unfold ofFields
    split <;> simp
  · unfold ofFields lower upper
    split <;> simp <;> omega

/-- Where the exponent changes, the unit doubles and the lower neighbour is half as far away. -/
theorem lower_ofFields_carry (e : Nat) :
    (ofFields (e + 1) 0).lower * (ofFields (e + 1) 0).quarter =
      (ofFields e (2 ^ 52 - 1)).upper * (ofFields e (2 ^ 52 - 1)).quarter := by
  cases e with
  | zero => exact lower_eq_upper 0 (by simp [ofFields]) (by simp [ofFields, lower, upper])
  | succ e =>
    apply lower_eq_upper 1
    · simp [ofFields]
      ring
    · simp [ofFields, lower, upper]

theorem lower_succ (n : Nat) :
    (ofPlace (n + 1)).lower * (ofPlace (n + 1)).quarter = boundary n := by
  unfold boundary ofPlace
  by_cases hf : n % 2 ^ 52 + 1 < 2 ^ 52
  · have hdiv : (n + 1) / 2 ^ 52 = n / 2 ^ 52 := by omega
    have hmod : (n + 1) % 2 ^ 52 = n % 2 ^ 52 + 1 := by omega
    rw [hdiv, hmod, lower_ofFields_succ]
  · have hdiv : (n + 1) / 2 ^ 52 = n / 2 ^ 52 + 1 := by omega
    have hmod : (n + 1) % 2 ^ 52 = 0 := by omega
    have hfull : n % 2 ^ 52 = 2 ^ 52 - 1 := by omega
    rw [hdiv, hmod, hfull, lower_ofFields_carry]

theorem boundary_strictMono : StrictMono boundary := by
  refine strictMono_nat_of_lt_succ ?_
  intro n
  rw [← lower_succ n, boundary]
  refine mul_lt_mul_of_pos_right ?_ (quarter_pos _)
  have h : (ofPlace (n + 1)).lower < (ofPlace (n + 1)).upper :=
    (lower_lt_centre (mantissa_ofPlace_pos (Nat.succ_pos n))).trans (centre_lt_upper _)
  exact_mod_cast h

theorem boundary_pos (n : Nat) : 0 < boundary n := by
  refine mul_pos ?_ (quarter_pos _)
  exact_mod_cast Nat.zero_lt_of_lt (centre_lt_upper _)

/-- What rounds to the float at a place lies between two boundaries, and on none at odd places. -/
theorem Rounds.between {n : Nat} {q : Rat} (h : (ofPlace (n + 1)).Rounds q) :
    boundary n ≤ q ∧ q ≤ boundary (n + 1) ∧
      ((n + 1) % 2 = 1 → boundary n < q ∧ q < boundary (n + 1)) := by
  unfold Rounds at h
  rw [lower_succ, closed_ofPlace] at h
  refine ⟨h.1, h.2.1, ?_⟩
  intro hn
  exact h.2.2 (by simp [hn])

/-- No real number rounds to two floats. -/
theorem eq_of_rounds {m n : Nat} {q : Rat} (hm : (ofPlace (m + 1)).Rounds q)
    (hn : (ofPlace (n + 1)).Rounds q) : m = n := by
  have no_less : ∀ {m n}, (ofPlace (m + 1)).Rounds q → (ofPlace (n + 1)).Rounds q → ¬m < n := by
    intro m n hm hn hlt
    obtain ⟨-, hm, hm'⟩ := hm.between
    obtain ⟨hn, -, hn'⟩ := hn.between
    have hle : n ≤ m + 1 := boundary_strictMono.le_iff_le.1 (hn.trans hm)
    obtain rfl : n = m + 1 := by omega
    -- One of two consecutive places is odd, and its interval is open.
    rcases Nat.mod_two_eq_zero_or_one (m + 1) with ho | ho
    · exact absurd (hn' (by omega)).1 (not_lt.2 hm)
    · exact absurd (hm' ho).2 (not_lt.2 hn)
  rcases Nat.lt_trichotomy m n with h | h | h
  · exact absurd h (no_less hm hn)
  · exact h
  · exact absurd h (no_less hn hm)

end Binary

/-! ### The text of a float -/

namespace Double

variable {a b : Double}

/-- The place of a pattern among those of its sign, which count the magnitudes upwards. -/
def place (a : Double) : Nat := a.exponentField * 2 ^ 52 + a.fractionField

/-- The text of the magnitude at a place up to that of infinity. -/
def magnitudeText (n : Nat) : List Char :=
  if n = 0 then "0.0".toList
  else if n = 2047 * 2 ^ 52 then "inf".toList
  else (Binary.ofPlace n).shortest.write layout

theorem fractionField_lt (a : Double) : a.fractionField < 2 ^ 52 := Nat.mod_lt _ (by decide)

theorem place_div (a : Double) : a.place / 2 ^ 52 = a.exponentField := by
  have hf := a.fractionField_lt
  unfold place
  omega

theorem place_mod (a : Double) : a.place % 2 ^ 52 = a.fractionField := by
  have hf := a.fractionField_lt
  unfold place
  omega

theorem isNaN_iff : a.isNaN = true ↔ a.exponentField = 2047 ∧ a.fractionField ≠ 0 := by
  simp [isNaN]

theorem eq_of_place_eq (hs : a.isNegative = b.isNegative) (hp : a.place = b.place) : a = b := by
  obtain ⟨m⟩ := a
  obtain ⟨n⟩ := b
  have hm := m.toNat_lt
  have hn := n.toNat_lt
  simp only [isNegative, place, exponentField, fractionField, Nat.pow_eq] at hs hp
  have hs : m.toNat / 2 ^ 63 % 2 = n.toNat / 2 ^ 63 % 2 := by
    rcases Nat.mod_two_eq_zero_or_one (m.toNat / 2 ^ 63) with h | h <;>
    rcases Nat.mod_two_eq_zero_or_one (n.toNat / 2 ^ 63) with h' | h' <;>
    simp_all
  have hbits : m.toNat = n.toNat := by omega
  rw [UInt64.toNat_inj.1 hbits]

theorem characters_of_isNaN (h : a.isNaN = true) : a.characters = "NaN".toList := by
  obtain ⟨he, hf⟩ := isNaN_iff.1 h
  simp [characters, magnitude, he, hf]

theorem characters_eq (h : a.isNaN = false) :
    a.characters = (if a.isNegative then ['-'] else []) ++ magnitudeText a.place := by
  have hnan : ¬(a.exponentField = 2047 ∧ a.fractionField ≠ 0) := by
    rw [← isNaN_iff, h]
    exact Bool.false_ne_true
  have hf := a.fractionField_lt
  by_cases he : a.exponentField = 2047
  · have hf : a.fractionField = 0 := by simpa [he] using hnan
    simp [characters, magnitude, magnitudeText, place, he, hf]
  have hinf : a.place ≠ 2047 * 2 ^ 52 := by
    intro hp
    have := a.place_div
    omega
  by_cases hz : a.place = 0
  · have he : a.exponentField = 0 := by rw [← place_div, hz, Nat.zero_div]
    have hf : a.fractionField = 0 := by rw [← place_mod, hz, Nat.zero_mod]
    simp [characters, magnitude, magnitudeText, he, hf, hz]
  · have hm : a.magnitude = .finite (Binary.ofPlace a.place) := by
      unfold magnitude Binary.ofPlace Binary.ofFields
      rw [place_div, place_mod, if_neg he]
      by_cases h0 : a.exponentField = 0
      · have hf0 : a.fractionField ≠ 0 := by
          intro hf0
          exact hz (by simp [place, h0, hf0])
        rw [if_pos h0, if_pos h0, if_neg hf0]
      · rw [if_neg h0, if_neg h0]
        rfl
    rw [characters, hm, magnitudeText, if_neg hz, if_neg hinf]

/-! ### Texts that differ -/

theorem zero_eq_positional : "0.0".toList = Decimal.positional ⟨0, 0⟩ := by decide +kernel

theorem isNumeral_magnitudeText {n : Nat} (h : n ≠ 2047 * 2 ^ 52) :
    IsNumeral (magnitudeText n) := by
  unfold magnitudeText
  rw [if_neg h]
  split
  · rw [zero_eq_positional]
    exact Decimal.isNumeral_positional _
  · exact Decimal.isNumeral_write _ _

theorem numeralValue_magnitudeText {n : Nat} (h0 : n ≠ 0) (h : n ≠ 2047 * 2 ^ 52) :
    numeralValue (magnitudeText n) = (Binary.ofPlace n).shortest.value := by
  rw [magnitudeText, if_neg h0, if_neg h, Decimal.numeralValue_write]

theorem numeralValue_magnitudeText_zero : numeralValue (magnitudeText 0) = 0 := by
  rw [magnitudeText, if_pos rfl, zero_eq_positional, Decimal.numeralValue_positional]
  simp [Decimal.value]

theorem head_magnitudeText (n : Nat) :
    ∃ c rest, magnitudeText n = c :: rest ∧ (c.isDigit = true ∨ c = 'i') := by
  by_cases h : n = 2047 * 2 ^ 52
  · exact ⟨'i', ['n', 'f'], by simp [magnitudeText, h], .inr rfl⟩
  · obtain ⟨c, rest, hc, hd⟩ := (isNumeral_magnitudeText h).head
    exact ⟨c, rest, hc, .inl hd⟩

theorem head?_magnitudeText (n : Nat) : (magnitudeText n).head? ≠ some '-' := by
  obtain ⟨c, rest, hc, h⟩ := head_magnitudeText n
  rw [hc, List.head?_cons, Ne, Option.some.injEq]
  rintro rfl
  exact absurd h (by decide)

theorem magnitudeText_ne_infinity {n : Nat} (h : n ≠ 2047 * 2 ^ 52) :
    magnitudeText n ≠ magnitudeText (2047 * 2 ^ 52) := by
  intro he
  have hi : magnitudeText (2047 * 2 ^ 52) = ['i', 'n', 'f'] := by simp [magnitudeText]
  obtain ⟨c, rest, hc, hd⟩ := (isNumeral_magnitudeText h).head
  rw [he, hi, List.cons.injEq] at hc
  rw [← hc.1] at hd
  exact absurd hd (by decide)

theorem rounds_magnitudeText {n : Nat} (h : n + 1 ≠ 2047 * 2 ^ 52) :
    (Binary.ofPlace (n + 1)).Rounds (numeralValue (magnitudeText (n + 1))) := by
  rw [numeralValue_magnitudeText n.succ_ne_zero h]
  exact Binary.rounds_shortest (Binary.mantissa_ofPlace_pos n.succ_pos)

theorem numeralValue_magnitudeText_pos {n : Nat} (h : n + 1 ≠ 2047 * 2 ^ 52) :
    0 < numeralValue (magnitudeText (n + 1)) :=
  (Binary.boundary_pos n).trans_le (rounds_magnitudeText h).between.1

theorem place_eq_of_magnitudeText_eq {m n : Nat} (h : magnitudeText m = magnitudeText n) :
    m = n := by
  by_cases hm : m = 2047 * 2 ^ 52
  · by_contra hn
    exact magnitudeText_ne_infinity (fun e => hn (hm.trans e.symm)) (hm ▸ h.symm)
  by_cases hn : n = 2047 * 2 ^ 52
  · exact absurd (hn ▸ h) (magnitudeText_ne_infinity hm)
  cases m with
  | zero =>
    cases n with
    | zero => rfl
    | succ n =>
      have hp := numeralValue_magnitudeText_pos hn
      rw [← h, numeralValue_magnitudeText_zero] at hp
      exact absurd hp (lt_irrefl 0)
  | succ m =>
    cases n with
    | zero =>
      have hp := numeralValue_magnitudeText_pos hm
      rw [h, numeralValue_magnitudeText_zero] at hp
      exact absurd hp (lt_irrefl 0)
    | succ n => rw [Binary.eq_of_rounds (rounds_magnitudeText hm) (h ▸ rounds_magnitudeText hn)]

theorem sign_append_inj {p q : Bool} {l r : List Char} (hl : l.head? ≠ some '-')
    (hr : r.head? ≠ some '-')
    (h : (if p then ['-'] else []) ++ l = (if q then ['-'] else []) ++ r) : p = q ∧ l = r := by
  cases p <;> cases q
  · exact ⟨rfl, h⟩
  · exact absurd (congrArg List.head? h) hl
  · exact absurd (congrArg List.head? h.symm) hr
  · exact ⟨rfl, (List.cons.inj h).2⟩

theorem eq_of_characters_eq (ha : a.isNaN = false) (hb : b.isNaN = false)
    (h : a.characters = b.characters) : a = b := by
  rw [characters_eq ha, characters_eq hb] at h
  obtain ⟨hs, ht⟩ := sign_append_inj (head?_magnitudeText _) (head?_magnitudeText _) h
  exact eq_of_place_eq hs (place_eq_of_magnitudeText_eq ht)

theorem characters_cases (a : Double) :
    a.characters = "NaN".toList ∨ a.characters = "inf".toList ∨ a.characters = "-inf".toList ∨
      ∃ cs, IsNumeral cs ∧ (a.characters = cs ∨ a.characters = '-' :: cs) := by
  by_cases hn : a.isNaN = true
  · exact .inl (characters_of_isNaN hn)
  rw [characters_eq (Bool.eq_false_iff.2 hn)]
  by_cases hi : a.place = 2047 * 2 ^ 52
  · right
    cases a.isNegative
    · left
      simp [magnitudeText, hi]
    · right; left
      simp [magnitudeText, hi]
  · right; right; right
    refine ⟨_, isNumeral_magnitudeText hi, ?_⟩
    cases a.isNegative
    · left
      rw [if_neg Bool.false_ne_true, List.nil_append]
    · right
      rw [if_pos rfl, List.singleton_append]

def canonical (a : Double) : Double := if a.isNaN then nan else a

theorem characters_eq_nan_iff : a.characters = "NaN".toList ↔ a.isNaN = true := by
  refine ⟨?_, characters_of_isNaN⟩
  intro h
  by_contra hn
  have hN : "NaN".toList = ['N', 'a', 'N'] := by decide
  obtain ⟨c, rest, hm, hc⟩ := head_magnitudeText a.place
  rw [characters_eq (Bool.eq_false_iff.2 hn), hm, hN] at h
  cases hs : a.isNegative with
  | false =>
    rw [hs, if_neg Bool.false_ne_true, List.nil_append, List.cons.injEq] at h
    rw [h.1] at hc
    exact absurd hc (by decide)
  | true =>
    rw [hs, if_pos rfl, List.singleton_append, List.cons.injEq] at h
    exact absurd h.1 (by decide)

theorem characters_canonical (a : Double) : a.canonical.characters = a.characters := by
  have hnan : nan.characters = "NaN".toList := characters_of_isNaN (by decide)
  unfold canonical
  split
  · rw [hnan, characters_of_isNaN ‹_›]
  · rfl

theorem characters_eq_iff : a.characters = b.characters ↔ a.canonical = b.canonical := by
  constructor
  · intro h
    have hab : a.isNaN = b.isNaN := by
      rw [Bool.eq_iff_iff, ← characters_eq_nan_iff, ← characters_eq_nan_iff, h]
    unfold canonical
    rw [hab]
    split
    · rfl
    · have hb := Bool.eq_false_iff.2 ‹_›
      exact eq_of_characters_eq (hab.trans hb) hb h
  · intro h
    rw [← characters_canonical a, h, characters_canonical b]

end Double

end LetCalculus
