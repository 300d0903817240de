import LetCalculus.Expr.Render

/-!
# Phrases and their reader

The text of an expression, with its names and literals left as the words that they are written
with. Texts are read back by looking at one word at a time (`Phrase.read`), and what was written is
read as the phrase that it was (`Phrase.read_write`): no two phrases have the same text.

Three conventions could collide. Forms that extend as far to the right as possible have no end of
their own, so a phrase is read up to where it has to stop (`Stops`). Parentheses are brought along
by operators and put around operands, and what stands between them tells which they are. A sign
belongs to a literal or to a negation, and only a negation has nothing but one operand between its
parentheses.
-/

namespace LetCalculus

/-- Expressions with words in place of names and literals. -/
inductive Phrase where
  | word (w : List Char)
  | unary (op : UnaryOp) (operand : Phrase)
  | binary (op : BinaryOp) (left right : Phrase)
  | cond (guard yes no : Phrase)
  | fn (param : List Char) (body : Phrase)
  | letIn (x : List Char) (value body : Phrase)
  | letRec (x : List Char) (value body : Phrase)
  | app (callee arg : Phrase)

namespace Phrase

/-! ### Writing -/

def leading (s : String) (k : List Char) : List Char := s.toList ++ ' ' :: k

def between (s : String) (k : List Char) : List Char := ' ' :: leading s k

def enclose (parens : Bool) (text : List Char → List Char) (k : List Char) : List Char :=
  if parens then '(' :: text (')' :: k) else text k

def sign (op : UnaryOp) (k : List Char) : List Char :=
  if op.isWord then leading op.symbol k else op.symbol.toList ++ k

def isWord : Phrase → Bool
  | word _ => true
  | _ => false

/-- Whether a phrase has parentheses of its own. -/
def isOperation : Phrase → Bool
  | unary .. | binary .. => true
  | _ => false

/-- The text of a phrase without any parentheses around it, followed by the given text. -/
def inside : Phrase → List Char → List Char
  | word w, k => w ++ k
  | unary op e, k => sign op (enclose (!e.isWord) (inside e) k)
  | binary op l r, k =>
    enclose (!l.isWord) (inside l) (between op.symbol (enclose (!r.isWord) (inside r) k))
  | cond c y n, k =>
    leading "if" (enclose c.isOperation (inside c)
      (between "then" (enclose y.isOperation (inside y)
        (between "else" (enclose n.isOperation (inside n) k)))))
  | fn x b, k => leading "fun" (x ++ between "->" (enclose b.isOperation (inside b) k))
  | letIn x v b, k =>
    leading "let" (x ++ between "=" (enclose v.isOperation (inside v)
      (between "in" (enclose b.isOperation (inside b) k))))
  | letRec x v b, k =>
    leading "let" (leading "rec" (x ++ between "=" (enclose v.isOperation (inside v)
      (between "in" (enclose b.isOperation (inside b) k)))))
  | app f a, k => enclose (!f.isWord) (inside f) (' ' :: enclose (!a.isWord) (inside a) k)

def write (p : Phrase) : List Char → List Char := enclose p.isOperation p.inside

def operand (p : Phrase) : List Char → List Char := enclose (!p.isWord) p.inside

theorem operand_eq (p : Phrase) (k : List Char) :
    operand p k =
      if p.isWord || p.isOperation then write p k else '(' :: write p (')' :: k) := by
  cases p <;> rfl

/-! ### Reading -/

def isBreak (c : Char) : Bool := c == ' ' || c == '(' || c == ')'

def isUnbroken (w : List Char) : Bool := w.all (!isBreak ·)

/-- The word that a text begins with, and the rest. -/
def lexeme (cs : List Char) : List Char × List Char :=
  (cs.takeWhile (!isBreak ·), cs.dropWhile (!isBreak ·))

def after? (s : String) (cs : List Char) : Option (List Char) :=
  match lexeme cs with
  | (w, ' ' :: k) => if w = s.toList then some k else none
  | _ => none

/-- What follows the given word between blanks. -/
def afterBlank? (s : String) : List Char → Option (List Char)
  | ' ' :: cs => after? s cs
  | _ => none

/-- What follows a closing parenthesis. -/
def close? : List Char → Option (List Char)
  | ')' :: k => some k
  | _ => none

abbrev Reader := List Char → Option (Phrase × List Char)

/-- The unary operator behind an opening parenthesis, if the parenthesis is that of one. -/
def sign? (cs : List Char) : Option (UnaryOp × List Char) :=
  match lexeme cs with
  | (w, ' ' :: k) => if w = "not".toList then some (.not, k) else none
  | ('-' :: '.' :: _, _) => some (.negFloat, cs.drop 2)
  | ('-' :: _, _) => some (.neg, cs.drop 1)
  | _ => none

def operators : List BinaryOp := [.add, .sub, .mul, .div, .pow, .eq, .ne, .lt, .le, .gt, .ge]

def operator? (w : List Char) : Option BinaryOp :=
  operators.find? fun op => op.symbol.toList == w

/-- Read what stands behind an opening parenthesis, and the closing one. -/
def readInside (read : Reader) (cs : List Char) : Option (Phrase × List Char) :=
  match sign? cs with
  | some (op, cs) => do
    let (e, cs) ← read cs
    return (unary op e, ← close? cs)
  | none => do
    let (p, cs) ← read cs
    return (p, ← close? cs)

def readOperand (read : Reader) : Reader
  | '(' :: cs => readInside read cs
  | cs => some (word (lexeme cs).1, (lexeme cs).2)

/-- The words before which a phrase ends. -/
def stops : List String := ["then", "else", "in"]

/-- Read on after a first operand. -/
def readRest (read : Reader) (l : Phrase) : Reader
  | ' ' :: cs =>
    let (w, k) := lexeme cs
    if w ∈ stops.map String.toList then some (l, ' ' :: cs)
    else
      match operator? w with
      | some op => do
        let (r, k) ← read k.tail
        return (binary op l r, k)
      | none => do
        let (a, k) ← read cs
        return (app l a, k)
  | cs => some (l, cs)

def readCond (read : Reader) (cs : List Char) : Option (Phrase × List Char) := do
  let cs ← after? "if" cs
  let (c, cs) ← read cs
  let cs ← afterBlank? "then" cs
  let (y, cs) ← read cs
  let cs ← afterBlank? "else" cs
  let (n, cs) ← read cs
  return (cond c y n, cs)

def readFn (read : Reader) (cs : List Char) : Option (Phrase × List Char) := do
  let cs ← after? "fun" cs
  let (x, cs) := lexeme cs
  let cs ← afterBlank? "->" cs
  let (b, cs) ← read cs
  return (fn x b, cs)

def readBinding (read : Reader) (define : List Char → Phrase → Phrase → Phrase) (cs : List Char) :
    Option (Phrase × List Char) := do
  let (x, cs) := lexeme cs
  let cs ← afterBlank? "=" cs
  let (v, cs) ← read cs
  let cs ← afterBlank? "in" cs
  let (b, cs) ← read cs
  return (define x v b, cs)

def readLet (read : Reader) (cs : List Char) : Option (Phrase × List Char) := do
  let cs ← after? "let" cs
  match after? "rec" cs with
  | some cs => readBinding read letRec cs
  | none => readBinding read letIn cs

def readPhrase (read : Reader) (cs : List Char) : Option (Phrase × List Char) :=
  readCond read cs <|> readFn read cs <|> readLet read cs <|> do
    let (l, cs) ← readOperand read cs
    readRest read l cs

/-- Read a phrase that is not too deep, as far as it extends. -/
def read : Nat → Reader
  | 0, _ => none
  | n + 1, cs => readPhrase (read n) cs

/-! ### Words -/

def reserved : List String := ["if", "then", "else", "let", "rec", "in", "fun", "not"]

/-- A word that cannot be mistaken for anything else, neither alone nor behind a sign. -/
structure Plain (w : List Char) : Prop where
  unbroken : isUnbroken w = true
  head : ∃ c rest, w = c :: rest ∧ c ≠ '.'
  reserved : w ∉ reserved.map String.toList
  operator : operator? w = none

def Proper : Phrase → Prop
  | word w => Plain w
  | unary _ e => Proper e
  | binary _ l r => Proper l ∧ Proper r
  | cond c y n => Proper c ∧ Proper y ∧ Proper n
  | fn x b => Plain x ∧ Proper b
  | letIn x v b | letRec x v b => Plain x ∧ Proper v ∧ Proper b
  | app f a => Proper f ∧ Proper a

def size : Phrase → Nat
  | word _ => 1
  | unary _ e => e.size + 1
  | binary _ l r => l.size + r.size + 1
  | cond c y n => c.size + y.size + n.size + 1
  | fn _ b => b.size + 1
  | letIn _ v b | letRec _ v b => v.size + b.size + 1
  | app f a => f.size + a.size + 1

/-- A text in which a word that stands before it comes to its end. -/
def Ends (k : List Char) : Prop := ∀ c ∈ k.head?, isBreak c = true

/-- A text in which a phrase that stands before it comes to its end. -/
inductive Stops : List Char → Prop
  | nil : Stops []
  | close (k : List Char) : Stops (')' :: k)
  | between {s : String} (k : List Char) : s ∈ stops → Stops (between s k)

variable {s : String} {w x k : List Char} {p l r e : Phrase} {n : Nat} {op : UnaryOp}

theorem Stops.ends (h : Stops k) : Ends k := by
  cases h with
  | nil => simp [Ends]
  | close k => simp [Ends, isBreak]
  | between k hs => simp [Ends, isBreak, Phrase.between]

theorem ends_between (s : String) (k : List Char) : Ends (between s k) := by
  simp [Ends, isBreak, between]

theorem ends_cons {c : Char} (h : isBreak c = true) (k : List Char) : Ends (c :: k) := by
  simpa [Ends] using h

theorem ends_blank (k : List Char) : Ends (' ' :: k) := ends_cons (by decide) k

theorem ends_close (k : List Char) : Ends (')' :: k) := ends_cons (by decide) k

theorem isUnbroken_iff : isUnbroken w = true ↔ ∀ c ∈ w, isBreak c = false := by
  simp [isUnbroken]

theorem lexeme_append (hw : isUnbroken w = true) (hk : Ends k) :
    lexeme (w ++ k) = (w, k) := by
  rw [lexeme, List.takeWhile_append_of_pos (List.all_eq_true.1 hw),
    List.dropWhile_append_of_pos (List.all_eq_true.1 hw)]
  cases k with
  | nil => simp
  | cons c k =>
    have hc : isBreak c = true := hk c rfl
    simp [hc]

theorem lexeme_break {c : Char} (h : isBreak c = true) (k : List Char) :
    lexeme (c :: k) = ([], c :: k) := by
  simpa using lexeme_append (w := []) rfl (ends_cons h k)

theorem lexeme_leading (hs : isUnbroken s.toList = true) (k : List Char) :
    lexeme (leading s k) = (s.toList, ' ' :: k) :=
  lexeme_append hs (ends_blank k)

theorem after?_leading (hs : isUnbroken s.toList = true) (k : List Char) :
    after? s (leading s k) = some k := by
  simp only [after?, lexeme_leading hs, if_true]

theorem afterBlank?_between (hs : isUnbroken s.toList = true) (k : List Char) :
    afterBlank? s (between s k) = some k :=
  after?_leading hs k

theorem after?_of_ne {cs : List Char} (h : (lexeme cs).1 ≠ s.toList) : after? s cs = none := by
  unfold after?
  split
  · rename_i w k hl
    rw [hl] at h
    rw [if_neg h]
  · rfl

theorem isUnbroken_symbol (op : BinaryOp) : isUnbroken op.symbol.toList = true := by
  cases op <;> decide

theorem operator?_symbol (op : BinaryOp) : operator? op.symbol.toList = some op := by
  cases op <;> decide

theorem symbol_notMem_stops (op : BinaryOp) : op.symbol.toList ∉ stops.map String.toList := by
  cases op <;> decide

/-! ### Operands -/

theorem operand_word (w k : List Char) : operand (word w) k = w ++ k := rfl

theorem operand_of_not_isWord (h : p.isWord = false) (k : List Char) :
    operand p k = '(' :: inside p (')' :: k) := by
  rw [operand, h]
  rfl

theorem operand_cases (hp : Proper p) (k : List Char) :
    (∃ cs, operand p k = '(' :: cs) ∨ ∃ w, Plain w ∧ operand p k = w ++ k := by
  cases hw : p.isWord with
  | false => exact .inl ⟨_, operand_of_not_isWord hw k⟩
  | true =>
    cases p with
    | word w => exact .inr ⟨w, hp, rfl⟩
    | _ => cases hw

theorem lexeme_paren (cs : List Char) : lexeme ('(' :: cs) = ([], '(' :: cs) :=
  lexeme_break (by decide) cs

theorem lexeme_operand_notMem (hp : Proper p) (hk : Ends k) :
    (lexeme (operand p k)).1 ∉ reserved.map String.toList := by
  rcases operand_cases hp k with ⟨cs, h⟩ | ⟨w, hw, h⟩
  · simp only [h, lexeme_paren]
    decide
  · rw [h, lexeme_append hw.unbroken hk]
    exact hw.reserved

theorem operator?_lexeme_operand (hp : Proper p) (hk : Ends k) :
    operator? (lexeme (operand p k)).1 = none := by
  rcases operand_cases hp k with ⟨cs, h⟩ | ⟨w, hw, h⟩
  · simp only [h, lexeme_paren]
    decide
  · rw [h, lexeme_append hw.unbroken hk]
    exact hw.operator

theorem sign?_leading (hs : isUnbroken s.toList = true) (hn : s.toList ≠ "not".toList)
    (k : List Char) : sign? (leading s k) = none := by
  simp only [sign?, lexeme_leading hs]
  exact if_neg hn

/-- An operand with a blank behind it is not the operand of a sign. -/
theorem sign?_operand (hp : Proper p) (k : List Char) : sign? (operand p (' ' :: k)) = none := by
  rcases operand_cases hp (' ' :: k) with ⟨cs, h⟩ | ⟨w, hw, h⟩
  · rw [h]
    simp only [sign?, lexeme_paren]
    rfl
  · rw [h]
    simp only [sign?, lexeme_append hw.unbroken (ends_blank k)]
    refine if_neg ?_
    rintro rfl
    exact hw.reserved (by decide)

/-- Nothing but an operand between parentheses: no blank comes before the word has ended. -/
theorem lexeme_append_operand {u : List Char} (hu : isUnbroken u = true) (he : Proper e)
    (k : List Char) : ∃ (w : List Char) (c : Char) (rest : List Char),
      lexeme (u ++ operand e (')' :: k)) = (u ++ w, c :: rest) ∧ c ≠ ' ' ∧
        ∀ v, w ≠ '.' :: v := by
  rcases operand_cases he (')' :: k) with ⟨cs, h⟩ | ⟨w, hw, h⟩
  · refine ⟨[], '(', cs, ?_, by decide, by simp⟩
    rw [h, lexeme_append hu (ends_cons (by decide) cs), List.append_nil]
  · obtain ⟨c, rest, hc, hdot⟩ := hw.head
    refine ⟨w, ')', k, ?_, by decide, ?_⟩
    · have huw : isUnbroken (u ++ w) = true := by
        rw [isUnbroken, List.all_append, Bool.and_eq_true]
        exact ⟨hu, hw.unbroken⟩
      rw [h, ← List.append_assoc, lexeme_append huw (ends_close k)]
    · rintro v rfl
      exact hdot (List.cons.inj hc).1.symm

theorem sign?_sign (he : Proper e) (k : List Char) :
    sign? (sign op (operand e (')' :: k))) = some (op, operand e (')' :: k)) := by
  cases op with
  | not =>
    have hl := lexeme_leading (s := "not") (by decide) (operand e (')' :: k))
    show sign? (leading "not" _) = _
    simp only [sign?, hl, if_true]
  | neg =>
    obtain ⟨w, c, rest, hl, hc, hw⟩ := lexeme_append_operand (u := ['-']) (by decide) he k
    show sign? (['-'] ++ operand e (')' :: k)) = _
    simp only [sign?, hl]
    split
    · simp_all
    · simp_all
    · rfl
    · simp_all
  | negFloat =>
    obtain ⟨w, c, rest, hl, hc, -⟩ := lexeme_append_operand (u := ['-', '.']) (by decide) he k
    show sign? (['-', '.'] ++ operand e (')' :: k)) = _
    simp only [sign?, hl]
    split
    · simp_all
    · rfl
    · rename_i hdot heq
      cases heq
      exact absurd rfl (hdot w)
    · simp_all

/-! ### What was written is read -/

theorem readRest_of_stops {read : Reader} (hk : Stops k) : readRest read l k = some (l, k) := by
  cases hk with
  | nil => rfl
  | close k => rfl
  | @between s k hs =>
    have hu : isUnbroken s.toList = true := by
      simp only [stops, List.mem_cons, List.not_mem_nil, or_false] at hs
      rcases hs with rfl | rfl | rfl <;> decide
    simp only [readRest, Phrase.between, lexeme_leading hu]
    exact if_pos (List.mem_map_of_mem hs)

/-- A text that begins with an operand is none of the forms that begin with a word of their own. -/
theorem readPhrase_eq {read : Reader} {cs : List Char}
    (h : (lexeme cs).1 ∉ reserved.map String.toList) :
    readPhrase read cs = (readOperand read cs).bind fun q => readRest read q.1 q.2 := by
  have hne : ∀ s ∈ reserved, (lexeme cs).1 ≠ s.toList := by
    rintro s hs he
    exact h (he ▸ List.mem_map_of_mem hs)
  rw [readPhrase, readCond, readFn, readLet, after?_of_ne (hne "if" (by decide)),
    after?_of_ne (hne "fun" (by decide)), after?_of_ne (hne "let" (by decide))]
  rfl

theorem readPhrase_operand {read : Reader} (hp : Proper p) (hk : Stops k)
    (h : readOperand read (operand p k) = some (p, k)) :
    readPhrase read (operand p k) = some (p, k) := by
  rw [readPhrase_eq (lexeme_operand_notMem hp hk.ends), h]
  exact readRest_of_stops hk

theorem size_pos (p : Phrase) : 0 < p.size := by
  cases p <;> simp [size]

structure ReadsBack (p : Phrase) : Prop where
  operand : ∀ {n k}, 2 * p.size ≤ n → Ends k → readOperand (read n) (operand p k) = some (p, k)
  argument : ∀ {n k}, 2 * p.size < n → Stops k → read n (Phrase.operand p k) = some (p, k)
  whole : ∀ {n k}, 2 * p.size < n → Stops k → read n (write p k) = some (p, k)

theorem read_argument (hp : Proper p)
    (h : ∀ {n k}, 2 * p.size ≤ n → Ends k → readOperand (read n) (operand p k) = some (p, k))
    (hn : 2 * p.size < n) (hk : Stops k) : read n (operand p k) = some (p, k) := by
  obtain ⟨m, rfl⟩ : ∃ m, n = m + 1 := ⟨n - 1, by omega⟩
  exact readPhrase_operand hp hk (h (by omega) hk.ends)

theorem readsBack_word (hw : Plain w) : ReadsBack (word w) := by
  have ho : ∀ {n k}, 2 * (word w).size ≤ n → Ends k →
      readOperand (read n) (operand (word w) k) = some (word w, k) := by
    intro n k _ hk
    obtain ⟨c, rest, hc, -⟩ := hw.head
    have hparen : c ≠ '(' := by
      rintro rfl
      have hu := hw.unbroken
      rw [hc, isUnbroken, List.all_cons, Bool.and_eq_true] at hu
      exact absurd hu.1 (by decide)
    have hl : lexeme (operand (word w) k) = (w, k) := lexeme_append hw.unbroken hk
    rw [readOperand, hl]
    intro cs h
    rw [operand_word, hc, List.cons_append, List.cons.injEq] at h
    exact hparen h.1
  exact ⟨ho, read_argument hw ho, read_argument hw ho⟩

/-- Phrases other than words are read back if that holds of what stands inside parentheses. -/
theorem readsBack_of_inside (hp : Proper p) (hw : p.isWord = false)
    (hsign : ∀ k, sign? (inside p (')' :: k)) = none)
    (h : ∀ {n k}, 2 * p.size ≤ n → Stops k → read n (inside p k) = some (p, k)) :
    ReadsBack p := by
  have ho : ∀ {n k}, 2 * p.size ≤ n → Ends k →
      readOperand (read n) (operand p k) = some (p, k) := by
    intro n k hn hk
    rw [operand_of_not_isWord hw, readOperand, readInside, hsign]
    simp only [h hn (.close k)]
    rfl
  refine ⟨ho, read_argument hp ho, ?_⟩
  intro n k hn hk
  cases hop : p.isOperation with
  | true =>
    have hwrite : write p k = operand p k := by rw [write, operand, hop, hw, Bool.not_false]
    rw [hwrite]
    exact read_argument hp ho hn hk
  | false =>
    have hwrite : write p k = inside p k := by
      rw [write, hop]
      rfl
    rw [hwrite]
    exact h (by omega) hk

theorem readsBack_unary (he : Proper e) (h : ReadsBack e) : ReadsBack (unary op e) := by
  have ho : ∀ {n k}, 2 * (unary op e).size ≤ n → Ends k →
      readOperand (read n) (operand (unary op e) k) = some (unary op e, k) := by
    intro n k hn hk
    have hs : sign? (inside (unary op e) (')' :: k)) = some (op, operand e (')' :: k)) :=
      sign?_sign he k
    have hn : 2 * e.size < n := by
      simp only [size] at hn
      omega
    rw [operand_of_not_isWord rfl, readOperand, readInside, hs]
    simp only [h.argument hn (.close k)]
    rfl
  exact ⟨ho, read_argument he ho, read_argument he ho⟩

theorem readsBack_binary {op : BinaryOp} (hl : Proper l) (hr : Proper r) (ihl : ReadsBack l)
    (ihr : ReadsBack r) : ReadsBack (binary op l r) := by
  refine readsBack_of_inside ⟨hl, hr⟩ rfl (fun k => sign?_operand hl _) ?_
  intro n k hn hk
  obtain ⟨m, rfl⟩ : ∃ m, n = m + 1 := ⟨n - 1, by simp only [size] at hn; omega⟩
  simp only [size] at hn
  have hrs := r.size_pos
  have hls := l.size_pos
  show readPhrase (read m) (operand l (between op.symbol (operand r k))) = _
  rw [readPhrase_eq (lexeme_operand_notMem hl (ends_between _ _)),
    ihl.operand (by omega) (ends_between _ _)]
  simp only [Option.bind_some, readRest, between, lexeme_leading (isUnbroken_symbol op),
    if_neg (symbol_notMem_stops op), operator?_symbol, List.tail_cons,
    ihr.argument (show 2 * r.size < m by omega) hk]
  rfl

theorem readsBack_app (hl : Proper l) (hr : Proper r) (ihl : ReadsBack l) (ihr : ReadsBack r) :
    ReadsBack (app l r) := by
  refine readsBack_of_inside ⟨hl, hr⟩ rfl (fun k => sign?_operand hl _) ?_
  intro n k hn hk
  obtain ⟨m, rfl⟩ : ∃ m, n = m + 1 := ⟨n - 1, by simp only [size] at hn; omega⟩
  simp only [size] at hn
  have hrs := r.size_pos
  have hls := l.size_pos
  have hstop : (lexeme (operand r k)).1 ∉ stops.map String.toList := by
    intro hm
    exact lexeme_operand_notMem hr hk.ends (List.map_subset _ (by decide) hm)
  show readPhrase (read m) (operand l (' ' :: operand r k)) = _
  rw [readPhrase_eq (lexeme_operand_notMem hl (ends_blank _)),
    ihl.operand (by omega) (ends_blank _)]
  simp only [Option.bind_some, readRest, if_neg hstop, operator?_lexeme_operand hr hk.ends,
    ihr.argument (show 2 * r.size < m by omega) hk]
  rfl

theorem stops_then (k : List Char) : Stops (between "then" k) := .between k (by decide)

theorem stops_else (k : List Char) : Stops (between "else" k) := .between k (by decide)

theorem stops_in (k : List Char) : Stops (between "in" k) := .between k (by decide)

theorem readsBack_cond {c y n : Phrase} (hc : Proper c) (hy : Proper y) (hn : Proper n)
    (ihc : ReadsBack c) (ihy : ReadsBack y) (ihn : ReadsBack n) : ReadsBack (cond c y n) := by
  refine readsBack_of_inside ⟨hc, hy, hn⟩ rfl
    (fun k => sign?_leading (by decide) (by decide) _) ?_
  intro d k hd hk
  obtain ⟨m, rfl⟩ : ∃ m, d = m + 1 := ⟨d - 1, by simp only [size] at hd; omega⟩
  simp only [size] at hd
  have hm : 2 * c.size < m ∧ 2 * y.size < m ∧ 2 * n.size < m := by
    have := c.size_pos
    have := y.size_pos
    have := n.size_pos
    omega
  have hread : readCond (read m)
      (leading "if" (write c (between "then" (write y (between "else" (write n k)))))) =
      some (cond c y n, k) := by
    rw [readCond, after?_leading (by decide)]
    simp only [Option.bind_eq_bind, Option.bind_some, ihc.whole hm.1 (stops_then _),
      ihy.whole hm.2.1 (stops_else _), ihn.whole hm.2.2 hk,
      afterBlank?_between (s := "then") (by decide), afterBlank?_between (s := "else") (by decide)]
    rfl
  show readPhrase (read m)
    (leading "if" (write c (between "then" (write y (between "else" (write n k)))))) = _
  rw [readPhrase, hread]
  rfl

theorem after?_leading_of_ne {s' : String} (hs : isUnbroken s.toList = true)
    (hn : s.toList ≠ s'.toList) (k : List Char) : after? s' (leading s k) = none := by
  refine after?_of_ne ?_
  rw [lexeme_leading hs]
  exact hn

theorem readsBack_fn (hx : Plain x) (he : Proper e) (ih : ReadsBack e) : ReadsBack (fn x e) := by
  refine readsBack_of_inside ⟨hx, he⟩ rfl (fun k => sign?_leading (by decide) (by decide) _) ?_
  intro d k hd hk
  obtain ⟨m, rfl⟩ : ∃ m, d = m + 1 := ⟨d - 1, by simp only [size] at hd; omega⟩
  simp only [size] at hd
  have hread : readFn (read m) (leading "fun" (x ++ between "->" (write e k))) =
      some (fn x e, k) := by
    rw [readFn, after?_leading (by decide)]
    simp only [Option.bind_eq_bind, Option.bind_some,
      lexeme_append hx.unbroken (ends_between _ _),
      afterBlank?_between (s := "->") (by decide), ih.whole (show 2 * e.size < m by omega) hk]
    rfl
  show readPhrase (read m) (leading "fun" (x ++ between "->" (write e k))) = _
  rw [readPhrase, hread, readCond, after?_leading_of_ne (by decide) (by decide)]
  rfl

theorem readBinding_eq {read : Reader} {define : List Char → Phrase → Phrase → Phrase}
    {v b : Phrase} (hx : Plain x)
    (hv : read (write v (between "in" (write b k))) = some (v, between "in" (write b k)))
    (hb : read (write b k) = some (b, k)) :
    readBinding read define (x ++ between "=" (write v (between "in" (write b k)))) =
      some (define x v b, k) := by
  rw [readBinding, lexeme_append hx.unbroken (ends_between _ _)]
  simp only [Option.bind_eq_bind, Option.bind_some, hv, hb,
    afterBlank?_between (s := "=") (by decide), afterBlank?_between (s := "in") (by decide)]
  rfl

theorem readPhrase_let {read : Reader} {cs : List Char} {q : Phrase × List Char}
    (h : readLet read (leading "let" cs) = some q) :
    readPhrase read (leading "let" cs) = some q := by
  rw [readPhrase, h, readCond, after?_leading_of_ne (by decide) (by decide), readFn,
    after?_leading_of_ne (by decide) (by decide)]
  rfl

theorem readsBack_letIn {v b : Phrase} (hx : Plain x) (hv : Proper v) (hb : Proper b)
    (ihv : ReadsBack v) (ihb : ReadsBack b) : ReadsBack (letIn x v b) := by
  refine readsBack_of_inside ⟨hx, hv, hb⟩ rfl
    (fun k => sign?_leading (by decide) (by decide) _) ?_
  intro d k hd hk
  obtain ⟨m, rfl⟩ : ∃ m, d = m + 1 := ⟨d - 1, by simp only [size] at hd; omega⟩
  have hm : 2 * v.size < m ∧ 2 * b.size < m := by
    have := v.size_pos
    have := b.size_pos
    simp only [size] at hd
    omega
  refine readPhrase_let ?_
  have hrec : after? "rec" (x ++ between "=" (write v (between "in" (write b k)))) = none := by
    refine after?_of_ne ?_
    rw [lexeme_append hx.unbroken (ends_between _ _)]
    rintro rfl
    exact hx.reserved (by decide)
  show readLet (read m) (leading "let" (x ++ between "=" (write v (between "in" (write b k))))) = _
  rw [readLet, after?_leading (by decide)]
  simp only [Option.bind_eq_bind, Option.bind_some, hrec]
  exact readBinding_eq hx (ihv.whole hm.1 (stops_in _)) (ihb.whole hm.2 hk)

theorem readsBack_letRec {v b : Phrase} (hx : Plain x) (hv : Proper v) (hb : Proper b)
    (ihv : ReadsBack v) (ihb : ReadsBack b) : ReadsBack (letRec x v b) := by
  refine readsBack_of_inside ⟨hx, hv, hb⟩ rfl
    (fun k => sign?_leading (by decide) (by decide) _) ?_
  intro d k hd hk
  obtain ⟨m, rfl⟩ : ∃ m, d = m + 1 := ⟨d - 1, by simp only [size] at hd; omega⟩
  have hm : 2 * v.size < m ∧ 2 * b.size < m := by
    have := v.size_pos
    have := b.size_pos
    simp only [size] at hd
    omega
  refine readPhrase_let ?_
  rw [readLet, after?_leading (by decide)]
  simp only [Option.bind_eq_bind, Option.bind_some, after?_leading (s := "rec") (by decide)]
  exact readBinding_eq hx (ihv.whole hm.1 (stops_in _)) (ihb.whole hm.2 hk)

theorem Proper.readsBack (hp : Proper p) : ReadsBack p := by
  induction p with
  | word w => exact readsBack_word hp
  | unary op e ih => exact readsBack_unary hp (ih hp)
  | binary op l r ihl ihr => exact readsBack_binary hp.1 hp.2 (ihl hp.1) (ihr hp.2)
  | cond c y n ihc ihy ihn =>
    exact readsBack_cond hp.1 hp.2.1 hp.2.2 (ihc hp.1) (ihy hp.2.1) (ihn hp.2.2)
  | fn x b ih => exact readsBack_fn hp.1 hp.2 (ih hp.2)
  | letIn x v b ihv ihb =>
    exact readsBack_letIn hp.1 hp.2.1 hp.2.2 (ihv hp.2.1) (ihb hp.2.2)
  | letRec x v b ihv ihb =>
    exact readsBack_letRec hp.1 hp.2.1 hp.2.2 (ihv hp.2.1) (ihb hp.2.2)
  | app f a ihf iha => exact readsBack_app hp.1 hp.2 (ihf hp.1) (iha hp.2)

/-- What was written is read, up to where a phrase has to stop. -/
theorem read_write (hp : Proper p) (hn : 2 * p.size < n) (hk : Stops k) :
    read n (write p k) = some (p, k) :=
  hp.readsBack.whole hn hk

/-- No two phrases have the same text. -/
theorem write_injective {q : Phrase} (hp : Proper p) (hq : Proper q)
    (h : write p [] = write q []) : p = q := by
  let n := 2 * p.size + 2 * q.size + 1
  have hr : read n (write p []) = some (p, []) := read_write hp (by omega) .nil
  have hr' : read n (write q []) = some (q, []) := read_write hq (by omega) .nil
  rw [h, hr'] at hr
  exact (Prod.mk.inj (Option.some.inj hr)).1.symm

end Phrase

end LetCalculus
