import LetCalculus.Name.Consistent
import LetCalculus.Proofs.Rendering.Floats
import LetCalculus.Proofs.Rendering.Phrases

/-!
# Rendering is unambiguous

Two expressions with the same text are the same, up to the patterns of floats that are not numbers
(`Expr.render_eq_iff`), if their names read as identifiers. The text of an expression is that of a
phrase, and no two phrases have the same text. What is left is that a word tells what it stands for:
its characters give away whether it is a name, an integer, a float or a constant (`wordKind`).
-/

namespace LetCalculus

def reservedNames : List String :=
  ["if", "then", "else", "let", "rec", "in", "fun", "raise", "true", "false", "not", "inf", "NaN"]

def isNameStart (c : Char) : Bool := c.isAlpha || c == '_'

def isNamePart (c : Char) : Bool := c.isAlphanum || "_'".toList.contains c

/-- Letters, digits, underscores and primes, beginning with a letter or an underscore. -/
def isIdentifier (s : String) : Bool :=
  (match s.toList with
    | [] => false
    | c :: rest => isNameStart c && rest.all isNamePart) &&
  !reservedNames.contains s

/-- Names that are known to a table and that read as identifiers there. -/
def NameTable.Identifies (t : NameTable) (x : Name) : Prop :=
  t.knows x = true ∧ isIdentifier (t.text x) = true

/-! ### Words -/

inductive WordKind where
  | name
  | integer
  | float
  | truth
  | raise
  | unassigned
  deriving DecidableEq

/-- What a word stands for, going by its characters. -/
def wordKind (w : List Char) : WordKind :=
  if w.all fun c => c.isDigit || c == '-' then .integer
  else if w = "true".toList ∨ w = "false".toList then .truth
  else if w = "raise".toList then .raise
  else if w = "<unassigned>".toList then .unassigned
  else if w.head?.all isNameStart ∧ w ≠ "inf".toList ∧ w ≠ "NaN".toList then .name
  else .float

variable {c : Char} {s : String} {w rest : List Char}

theorem isBreak_iff : Phrase.isBreak c = true ↔ c = ' ' ∨ c = '(' ∨ c = ')' := by
  simp [Phrase.isBreak, or_assoc]

theorem isBreak_of_isDigit (h : c.isDigit = true) : Phrase.isBreak c = false := by
  rw [Bool.eq_false_iff, Ne, isBreak_iff]
  rintro (rfl | rfl | rfl) <;> exact absurd h (by decide)

theorem isBreak_of_isNamePart (h : isNamePart c = true) : Phrase.isBreak c = false := by
  rw [Bool.eq_false_iff, Ne, isBreak_iff]
  rintro (rfl | rfl | rfl) <;> exact absurd h (by decide)

theorem isNamePart_of_isNameStart (h : isNameStart c = true) : isNamePart c = true := by
  simp only [isNameStart, Bool.or_eq_true, beq_iff_eq] at h
  rcases h with h | rfl
  · simp [isNamePart, Char.isAlphanum, h]
  · decide

theorem isDigit_of_isNameStart (h : isNameStart c = true) : c.isDigit = false := by
  rw [Bool.eq_false_iff]
  intro hd
  have hd : c.val.toNat ≤ 57 := of_decide_eq_true (Bool.and_eq_true_iff.1 hd).2
  rw [isNameStart, Bool.or_eq_true, beq_iff_eq] at h
  rcases h with h | rfl
  · -- The letters stand behind the digits, the capital ones first.
    rcases Bool.or_eq_true_iff.1 h with h | h
    · have h : 65 ≤ c.val.toNat := (of_decide_eq_true h).1
      omega
    · have h : 97 ≤ c.val.toNat := of_decide_eq_true (Bool.and_eq_true_iff.1 h).1
      omega
  · exact absurd hd (by decide)

theorem isIdentifier_spec (h : isIdentifier s = true) :
    (∃ c rest, s.toList = c :: rest ∧ isNameStart c = true ∧
      ∀ a ∈ rest, isNamePart a = true) ∧ s ∉ reservedNames := by
  simp only [isIdentifier, Bool.and_eq_true, Bool.not_eq_true', List.contains_eq_mem,
    decide_eq_false_iff_not] at h
  refine ⟨?_, h.2⟩
  cases hs : s.toList with
  | nil => simp [hs] at h
  | cons c rest =>
    simp only [hs, Bool.and_eq_true, List.all_eq_true] at h
    exact ⟨c, rest, rfl, h.1.1, h.1.2⟩

theorem operator?_eq_none (hc : c ∈ w) (hs : isNameStart c = true ∨ c.isDigit = true) :
    Phrase.operator? w = none := by
  have hsymbol : ∀ op ∈ Phrase.operators,
      op.symbol.toList.all (fun a => !isNameStart a && !a.isDigit) = true := by
    decide
  rw [Phrase.operator?, List.find?_eq_none]
  intro op hop he
  rw [← beq_iff_eq.1 he] at hc
  have h := List.all_eq_true.1 (hsymbol op hop) c hc
  rw [Bool.and_eq_true, Bool.not_eq_true', Bool.not_eq_true'] at h
  rcases hs with hs | hs
  · exact Bool.false_ne_true (h.1.symm.trans hs)
  · exact Bool.false_ne_true (h.2.symm.trans hs)

theorem plain_identifier (h : isIdentifier s = true) : Phrase.Plain s.toList := by
  obtain ⟨⟨c, rest, hs, hc, hrest⟩, hres⟩ := isIdentifier_spec h
  refine ⟨Phrase.isUnbroken_iff.2 ?_, ⟨c, rest, hs, ?_⟩, ?_, ?_⟩
  · intro a ha
    rw [hs] at ha
    rcases List.mem_cons.1 ha with rfl | ha
    · exact isBreak_of_isNamePart (isNamePart_of_isNameStart hc)
    · exact isBreak_of_isNamePart (hrest a ha)
  · rintro rfl
    exact absurd hc (by decide)
  · intro hm
    obtain ⟨s', hs', he⟩ := List.mem_map.1 hm
    rw [String.toList_inj.1 he] at hs'
    have hsub : Phrase.reserved ⊆ reservedNames := by decide
    exact hres (hsub hs')
  · exact operator?_eq_none (hs ▸ List.mem_cons_self) (.inl hc)

theorem wordKind_identifier (h : isIdentifier s = true) : wordKind s.toList = .name := by
  obtain ⟨⟨c, rest, hs, hc, -⟩, hres⟩ := isIdentifier_spec h
  have hne : ∀ s' ∈ reservedNames, s.toList ≠ s'.toList := by
    rintro s' hs' he
    exact hres (String.toList_inj.1 he ▸ hs')
  have hall : ¬(s.toList.all fun c => c.isDigit || c == '-') = true := by
    have hminus : c ≠ '-' := by
      rintro rfl
      exact absurd hc (by decide)
    simp [hs, isDigit_of_isNameStart hc, hminus]
  have hu : s.toList ≠ "<unassigned>".toList := by
    have hlit : "<unassigned>".toList = '<' :: "unassigned>".toList := by decide
    rw [hs, hlit, Ne, List.cons.injEq]
    rintro ⟨rfl, -⟩
    exact absurd hc (by decide)
  have hhead : s.toList.head?.all isNameStart = true := by simp [hs, hc]
  rw [wordKind, if_neg hall, if_neg (not_or.2 ⟨hne _ (by decide), hne _ (by decide)⟩),
    if_neg (hne _ (by decide)), if_neg hu,
    if_pos ⟨hhead, hne _ (by decide), hne _ (by decide)⟩]

/-- Whether a word begins with a digit, with a sign in front of it or without. -/
inductive IsNumber : List Char → Prop
  | unsigned {c : Char} {rest : List Char} : c.isDigit = true → IsNumber (c :: rest)
  | signed {c : Char} {rest : List Char} : c.isDigit = true → IsNumber ('-' :: c :: rest)

theorem IsNumber.head (h : IsNumber w) :
    ∃ c rest, w = c :: rest ∧ (c.isDigit = true ∨ c = '-') := by
  cases h with
  | unsigned hc => exact ⟨_, _, rfl, .inl hc⟩
  | signed _ => exact ⟨_, _, rfl, .inr rfl⟩

theorem IsNumber.ne_of_head (h : IsNumber w)
    (hs : s.toList.head?.any (fun c => !c.isDigit && c != '-') = true) : w ≠ s.toList := by
  obtain ⟨c, rest, rfl, hc⟩ := h.head
  intro he
  rw [← he, List.head?_cons, Option.any_some, Bool.and_eq_true, Bool.not_eq_true',
    bne_iff_ne] at hs
  rcases hc with hc | hc
  · exact Bool.false_ne_true (hs.1.symm.trans hc)
  · exact hs.2 hc

theorem plain_number (h : IsNumber w) (hw : Phrase.isUnbroken w = true) :
    Phrase.Plain w := by
  refine ⟨hw, ?_, ?_, ?_⟩
  · obtain ⟨c, rest, rfl, hc⟩ := h.head
    refine ⟨c, rest, rfl, ?_⟩
    rintro rfl
    exact absurd hc (by decide)
  · have hres : ∀ s ∈ Phrase.reserved,
        s.toList.head?.any (fun c => !c.isDigit && c != '-') = true := by
      decide
    intro hm
    obtain ⟨s, hs, rfl⟩ := List.mem_map.1 hm
    exact h.ne_of_head (hres s hs) rfl
  · cases h with
    | unsigned hc => exact operator?_eq_none List.mem_cons_self (.inr hc)
    | signed hc => exact operator?_eq_none (List.mem_cons_of_mem _ List.mem_cons_self) (.inr hc)

theorem isNumber_toString (n : Int) : IsNumber (toString n).toList := by
  have hd : ∀ n : Nat, ∃ c rest, Nat.toDigits 10 n = c :: rest ∧ c.isDigit = true := by
    intro n
    cases h : Nat.toDigits 10 n with
    | nil => exact absurd h Nat.toDigits_ne_nil
    | cons c rest => exact ⟨c, rest, rfl, isDigit_of_mem_toDigits (h ▸ List.mem_cons_self)⟩
  rw [toList_toString]
  split
  · obtain ⟨c, rest, h, hc⟩ := hd n.toNat
    exact h ▸ .unsigned hc
  · obtain ⟨c, rest, h, hc⟩ := hd (-n).toNat
    exact h ▸ .signed hc

theorem plain_toString (n : Int) : Phrase.Plain (toString n).toList := by
  refine plain_number (isNumber_toString n) (Phrase.isUnbroken_iff.2 ?_)
  intro c hc
  rcases isDigit_or_sign_of_mem_toString hc with hc | rfl
  · exact isBreak_of_isDigit hc
  · decide

theorem wordKind_toString (n : Int) : wordKind (toString n).toList = .integer := by
  refine if_pos (List.all_eq_true.2 ?_)
  intro c hc
  rw [Bool.or_eq_true, beq_iff_eq]
  exact isDigit_or_sign_of_mem_toString hc

/-- A numeral with or without a sign has a character that integers do not have. -/
theorem wordKind_number (h : IsNumber w) (hm : '.' ∈ w ∨ 'e' ∈ w) : wordKind w = .float := by
  have hall : ¬(w.all fun c => c.isDigit || c == '-') = true := by
    rw [List.all_eq_true]
    intro hall
    rcases hm with hm | hm
    · exact absurd (hall _ hm) (by decide)
    · exact absurd (hall _ hm) (by decide)
  have hhead : ¬(w.head?.all isNameStart = true) := by
    obtain ⟨c, rest, rfl, hc⟩ := h.head
    rw [List.head?_cons, Option.all_some]
    intro hs
    rcases hc with hc | rfl
    · rw [isDigit_of_isNameStart hs] at hc
      cases hc
    · exact absurd hs (by decide)
  rw [wordKind, if_neg hall,
    if_neg (not_or.2 ⟨h.ne_of_head (by decide), h.ne_of_head (by decide)⟩),
    if_neg (h.ne_of_head (by decide)), if_neg (h.ne_of_head (by decide)),
    if_neg fun hn => hhead hn.1]

def constants : List String := ["true", "false", "raise", "<unassigned>", "inf", "-inf", "NaN"]

theorem plain_constant (hs : s ∈ constants) : Phrase.Plain s.toList := by
  have h : ∀ s ∈ constants, Phrase.isUnbroken s.toList = true ∧
      s.toList.head?.any (· != '.') = true ∧ s.toList ∉ Phrase.reserved.map String.toList ∧
        Phrase.operator? s.toList = none := by
    decide
  obtain ⟨hbreak, hhead, hres, hop⟩ := h s hs
  refine ⟨hbreak, ?_, hres, hop⟩
  cases hw : s.toList with
  | nil => simp [hw] at hhead
  | cons c rest =>
    rw [hw, List.head?_cons, Option.any_some, bne_iff_ne] at hhead
    exact ⟨c, rest, rfl, hhead⟩

theorem IsNumeral.isNumber (h : IsNumeral w) : IsNumber w := by
  obtain ⟨c, rest, rfl, hc⟩ := h.head
  exact .unsigned hc

theorem IsNumeral.isNumber_signed (h : IsNumeral w) : IsNumber ('-' :: w) := by
  obtain ⟨c, rest, rfl, hc⟩ := h.head
  exact .signed hc

theorem IsNumeral.isUnbroken (h : IsNumeral w) : Phrase.isUnbroken w = true := by
  refine Phrase.isUnbroken_iff.2 ?_
  intro c hc
  rcases h.chars c hc with hd | rfl | rfl | rfl
  · exact isBreak_of_isDigit hd
  all_goals decide

theorem plain_characters (a : Double) : Phrase.Plain a.characters := by
  rcases a.characters_cases with h | h | h | ⟨cs, hcs, h | h⟩
  · exact h ▸ plain_constant (by decide)
  · exact h ▸ plain_constant (by decide)
  · exact h ▸ plain_constant (by decide)
  · exact h ▸ plain_number hcs.isNumber hcs.isUnbroken
  · refine h ▸ plain_number hcs.isNumber_signed ?_
    rw [Phrase.isUnbroken, List.all_cons, Bool.and_eq_true]
    exact ⟨by decide, hcs.isUnbroken⟩

theorem wordKind_characters (a : Double) : wordKind a.characters = .float := by
  rcases a.characters_cases with h | h | h | ⟨cs, hcs, h | h⟩
  · rw [h]
    decide
  · rw [h]
    decide
  · rw [h]
    decide
  · rw [h]
    exact wordKind_number hcs.isNumber hcs.mark
  · rw [h]
    exact wordKind_number hcs.isNumber_signed
      (hcs.mark.imp (List.mem_cons_of_mem _) (List.mem_cons_of_mem _))

namespace Expr

/-- Whether all names in an expression, bound and free, are of the given sort. -/
def Named (P : Name → Prop) : Expr → Prop
  | var x => P x
  | int _ | float _ | bool _ | raise | unassigned => True
  | unary _ e => Named P e
  | binary _ l r => Named P l ∧ Named P r
  | cond c y n => Named P c ∧ Named P y ∧ Named P n
  | fn x b => P x ∧ Named P b
  | letIn x v b | letRec x v b => P x ∧ Named P v ∧ Named P b
  | app f a => Named P f ∧ Named P a

/-- The expression with one pattern for all floats that are not numbers. -/
def canonical : Expr → Expr
  | float a => float a.canonical
  | unary op e => unary op e.canonical
  | binary op l r => binary op l.canonical r.canonical
  | cond c y n => cond c.canonical y.canonical n.canonical
  | fn x b => fn x b.canonical
  | letIn x v b => letIn x v.canonical b.canonical
  | letRec x v b => letRec x v.canonical b.canonical
  | app f a => app f.canonical a.canonical
  | e => e

def phrase (t : NameTable) : Expr → Phrase
  | var x => .word (t.text x).toList
  | int n => .word (toString n.toInt).toList
  | float a => .word a.characters
  | bool b => .word (if b then "true" else "false").toList
  | unary op e => .unary op (e.phrase t)
  | binary op l r => .binary op (l.phrase t) (r.phrase t)
  | cond c y n => .cond (c.phrase t) (y.phrase t) (n.phrase t)
  | fn x b => .fn (t.text x).toList (b.phrase t)
  | letIn x v b => .letIn (t.text x).toList (v.phrase t) (b.phrase t)
  | letRec x v b => .letRec (t.text x).toList (v.phrase t) (b.phrase t)
  | raise => .word "raise".toList
  | unassigned => .word "<unassigned>".toList
  | app f a => .app (f.phrase t) (a.phrase t)

variable {t : NameTable} {e e' : Expr}

theorem isAtomic_eq_phrase (t : NameTable) (e : Expr) :
    e.isAtomic = ((e.phrase t).isWord || (e.phrase t).isOperation) := by
  cases e <;> rfl

theorem toList_parenthesise (h : ∀ k, (e.render t).toList ++ k = (e.phrase t).write k)
    (k : List Char) :
    (parenthesise e.isAtomic (e.render t)).toList ++ k = (e.phrase t).operand k := by
  rw [parenthesise, isAtomic_eq_phrase t, Phrase.operand_eq]
  split
  · exact h k
  · simp [← h]

theorem toList_render (t : NameTable) (e : Expr) (k : List Char) :
    (e.render t).toList ++ k = (e.phrase t).write k := by
  induction e generalizing k with
  | float a => exact congrArg (· ++ k) String.toList_ofList
  | unary op e ih =>
    show _ = '(' :: Phrase.sign op ((e.phrase t).operand (')' :: k))
    rw [← toList_parenthesise ih, Phrase.sign]
    cases op <;> simp [render, Phrase.leading, UnaryOp.isWord]
  | binary op l r ihl ihr =>
    show _ = '(' :: (l.phrase t).operand
      (Phrase.between op.symbol ((r.phrase t).operand (')' :: k)))
    rw [← toList_parenthesise ihl, ← toList_parenthesise ihr]
    simp [render, Phrase.between, Phrase.leading]
  | cond c y n ihc ihy ihn =>
    show _ = Phrase.leading "if" ((c.phrase t).write (Phrase.between "then"
      ((y.phrase t).write (Phrase.between "else" ((n.phrase t).write k)))))
    rw [← ihc, ← ihy, ← ihn]
    simp [render, Phrase.between, Phrase.leading]
  | fn x b ih =>
    show _ = Phrase.leading "fun" ((t.text x).toList ++
      Phrase.between "->" ((b.phrase t).write k))
    rw [← ih]
    simp [render, Phrase.between, Phrase.leading]
  | letIn x v b ihv ih =>
    show _ = Phrase.leading "let" ((t.text x).toList ++ Phrase.between "="
      ((v.phrase t).write (Phrase.between "in" ((b.phrase t).write k))))
    rw [← ihv, ← ih]
    simp [render, Phrase.between, Phrase.leading]
  | letRec x v b ihv ih =>
    show _ = Phrase.leading "let" (Phrase.leading "rec" ((t.text x).toList ++ Phrase.between "="
      ((v.phrase t).write (Phrase.between "in" ((b.phrase t).write k)))))
    rw [← ihv, ← ih]
    simp [render, Phrase.between, Phrase.leading]
  | app f a ihf iha =>
    show _ = (f.phrase t).operand (' ' :: (a.phrase t).operand k)
    rw [← toList_parenthesise ihf, ← toList_parenthesise iha]
    simp [render]
  | _ => rfl

/-! ### The words of an expression -/

/-- What the word stands for that an expression is written as, if it is written as one. -/
def wordKind? : Expr → Option WordKind
  | var _ => some .name
  | int _ => some .integer
  | float _ => some .float
  | bool _ => some .truth
  | raise => some .raise
  | unassigned => some .unassigned
  | _ => none

theorem proper_phrase (he : e.Named t.Identifies) : (e.phrase t).Proper := by
  induction e with
  | var x => exact plain_identifier he.2
  | int n => exact plain_toString _
  | float a => exact plain_characters a
  | bool b => cases b <;> exact plain_constant (by decide)
  | raise => exact plain_constant (by decide)
  | unassigned => exact plain_constant (by decide)
  | unary op e ih => exact ih he
  | binary op l r ihl ihr => exact ⟨ihl he.1, ihr he.2⟩
  | cond c y n ihc ihy ihn => exact ⟨ihc he.1, ihy he.2.1, ihn he.2.2⟩
  | fn x b ih => exact ⟨plain_identifier he.1.2, ih he.2⟩
  | letIn x v b ihv ihb => exact ⟨plain_identifier he.1.2, ihv he.2.1, ihb he.2.2⟩
  | letRec x v b ihv ihb => exact ⟨plain_identifier he.1.2, ihv he.2.1, ihb he.2.2⟩
  | app f a ihf iha => exact ⟨ihf he.1, iha he.2⟩

theorem wordKind?_eq {w : List Char} (he : e.Named t.Identifies) (hw : e.phrase t = .word w) :
    e.wordKind? = some (wordKind w) := by
  cases e with
  | var x => cases hw; exact congrArg some (wordKind_identifier he.2).symm
  | int n => cases hw; exact congrArg some (wordKind_toString _).symm
  | float a => cases hw; exact congrArg some (wordKind_characters a).symm
  | bool b => cases hw; cases b <;> decide
  | raise => cases hw; decide
  | unassigned => cases hw; decide
  | _ => cases hw

theorem canonical_eq_of_word (ht : t.Consistent) (he : e.Named t.Identifies)
    (he' : e'.Named t.Identifies) {w : List Char} (h : e.phrase t = .word w)
    (h' : e'.phrase t = .word w) : e.canonical = e'.canonical := by
  have hk := (wordKind?_eq he h).trans (wordKind?_eq he' h').symm
  have hp := h.trans h'.symm
  cases e with
  | var x =>
    cases e' with
    | var y =>
      have hw := String.toList_inj.1 (Phrase.word.inj hp)
      obtain rfl := NameTable.eq_of_text_eq ht he.1 he'.1 hw
      rfl
    | _ => cases hk
  | int m =>
    cases e' with
    | int n =>
      have hw := congrArg integerValue (Phrase.word.inj hp)
      rw [integerValue_toString, integerValue_toString] at hw
      obtain rfl := Int64.toInt_inj.1 hw
      rfl
    | _ => cases hk
  | float a =>
    cases e' with
    | float b => exact congrArg float (Double.characters_eq_iff.1 (Phrase.word.inj hp))
    | _ => cases hk
  | bool b =>
    cases e' with
    | bool b' =>
      have hw := Phrase.word.inj hp
      have hb : b = b' := by
        revert hw
        cases b <;> cases b' <;> decide
      rw [hb]
    | _ => cases hk
  | raise =>
    cases e' with
    | raise => rfl
    | _ => cases hk
  | unassigned =>
    cases e' with
    | unassigned => rfl
    | _ => cases hk
  | _ => cases h

theorem canonical_eq_of_phrase_eq (ht : t.Consistent) (he : e.Named t.Identifies)
    (he' : e'.Named t.Identifies) (h : e.phrase t = e'.phrase t) :
    e.canonical = e'.canonical := by
  induction e generalizing e' with
  | unary op e ih =>
    cases e' with
    | unary op' e' =>
      obtain ⟨rfl, hp⟩ := Phrase.unary.inj h
      exact congrArg (unary op) (ih he he' hp)
    | _ => cases h
  | binary op l r ihl ihr =>
    cases e' with
    | binary op' l' r' =>
      obtain ⟨rfl, hl, hr⟩ := Phrase.binary.inj h
      exact congrArg₂ (binary op) (ihl he.1 he'.1 hl) (ihr he.2 he'.2 hr)
    | _ => cases h
  | cond c y n ihc ihy ihn =>
    cases e' with
    | cond c' y' n' =>
      obtain ⟨hc, hy, hn⟩ := Phrase.cond.inj h
      rw [canonical, canonical, ihc he.1 he'.1 hc, ihy he.2.1 he'.2.1 hy, ihn he.2.2 he'.2.2 hn]
    | _ => cases h
  | fn x b ih =>
    cases e' with
    | fn x' b' =>
      obtain ⟨hx, hb⟩ := Phrase.fn.inj h
      obtain rfl := NameTable.eq_of_text_eq ht he.1.1 he'.1.1 (String.toList_inj.1 hx)
      exact congrArg (fn x) (ih he.2 he'.2 hb)
    | _ => cases h
  | letIn x v b ihv ihb =>
    cases e' with
    | letIn x' v' b' =>
      obtain ⟨hx, hv, hb⟩ := Phrase.letIn.inj h
      obtain rfl := NameTable.eq_of_text_eq ht he.1.1 he'.1.1 (String.toList_inj.1 hx)
      exact congrArg₂ (letIn x) (ihv he.2.1 he'.2.1 hv) (ihb he.2.2 he'.2.2 hb)
    | _ => cases h
  | letRec x v b ihv ihb =>
    cases e' with
    | letRec x' v' b' =>
      obtain ⟨hx, hv, hb⟩ := Phrase.letRec.inj h
      obtain rfl := NameTable.eq_of_text_eq ht he.1.1 he'.1.1 (String.toList_inj.1 hx)
      exact congrArg₂ (letRec x) (ihv he.2.1 he'.2.1 hv) (ihb he.2.2 he'.2.2 hb)
    | _ => cases h
  | app f a ihf iha =>
    cases e' with
    | app f' a' =>
      obtain ⟨hf, ha⟩ := Phrase.app.inj h
      exact congrArg₂ app (ihf he.1 he'.1 hf) (iha he.2 he'.2 ha)
    | _ => cases h
  | _ => exact canonical_eq_of_word ht he he' rfl h.symm

theorem phrase_canonical (t : NameTable) (e : Expr) : e.canonical.phrase t = e.phrase t := by
  induction e with
  | float a => exact congrArg Phrase.word a.characters_canonical
  | unary op e ih => rw [canonical, phrase, phrase, ih]
  | binary op l r ihl ihr => rw [canonical, phrase, phrase, ihl, ihr]
  | cond c y n ihc ihy ihn => rw [canonical, phrase, phrase, ihc, ihy, ihn]
  | fn x b ih => rw [canonical, phrase, phrase, ih]
  | letIn x v b ihv ihb | letRec x v b ihv ihb => rw [canonical, phrase, phrase, ihv, ihb]
  | app f a ihf iha => rw [canonical, phrase, phrase, ihf, iha]
  | _ => rfl

theorem render_canonical (t : NameTable) (e : Expr) : e.canonical.render t = e.render t := by
  have h := toList_render t e.canonical []
  rw [phrase_canonical, ← toList_render, List.append_nil, List.append_nil] at h
  exact String.toList_inj.1 h

/--
Expressions have the same text exactly if they are the same node for node, but for floats that are
not numbers.
-/
theorem render_eq_iff (ht : t.Consistent) (he : e.Named t.Identifies)
    (he' : e'.Named t.Identifies) : e.render t = e'.render t ↔ e.canonical = e'.canonical := by
  constructor
  · intro h
    have hw : (e.phrase t).write [] = (e'.phrase t).write [] := by
      rw [← toList_render, ← toList_render, h]
    exact canonical_eq_of_phrase_eq ht he he'
      (Phrase.write_injective (proper_phrase he) (proper_phrase he') hw)
  · intro h
    rw [← render_canonical t e, h, render_canonical]

/-- A sign before an operand is not part of it, and two patterns without a number read alike. -/
theorem render_eq_iff_signed :
    let t := ["f", "x"].foldl (fun t s => (t.intern s).2) NameTable.initial
    let e := fn ⟨14⟩ (app (app (var ⟨13⟩) (unary .neg (int 5))) (float ⟨0x7ff8000000000001⟩))
    let e' := fn ⟨14⟩ (app (app (var ⟨13⟩) (unary .neg (int 5))) (float ⟨0xfff0000000000001⟩))
    let e'' := fn ⟨14⟩ (app (app (var ⟨13⟩) (int (-5))) (float ⟨0x7ff8000000000001⟩))
    e.render t = "fun x -> (f (-5)) NaN" ∧ e'.render t = e.render t ∧
      e'.canonical = e.canonical ∧ e''.render t ≠ e.render t := by
  intro t e e' e''
  have ht : t.Consistent := NameTable.consistent_initial.foldl_intern _
  have hf : t.Identifies ⟨13⟩ := ⟨by decide +kernel, by decide +kernel⟩
  have hx : t.Identifies ⟨14⟩ := ⟨by decide +kernel, by decide +kernel⟩
  have he : e.Named t.Identifies := ⟨hx, ⟨hf, trivial⟩, trivial⟩
  have he' : e'.Named t.Identifies := ⟨hx, ⟨hf, trivial⟩, trivial⟩
  have he'' : e''.Named t.Identifies := ⟨hx, ⟨hf, trivial⟩, trivial⟩
  have hr : e'.render t = e.render t := by decide +kernel
  refine ⟨by decide +kernel, hr, (render_eq_iff ht he' he).1 hr, ?_⟩
  intro h
  exact absurd ((render_eq_iff ht he'' he).1 h) (by decide)

end Expr

end LetCalculus
