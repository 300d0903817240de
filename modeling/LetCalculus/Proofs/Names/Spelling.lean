import LetCalculus.Expr.Render
import LetCalculus.Proofs.Substitution.Course

/-!
# Only the texts of names matter

A name is an index into a table, and which index a text has depends on what the table has been
asked before. Two expressions over two tables are the same to a reader if they differ in names
alone, and corresponding names have the same text (`Respelled`, `SameText`). They are then rendered
alike.

Substitution keeps such expressions what they are (`Respelled.substitute`): it renames the same
binders, to names of the same texts. In a consistent table two names are equal exactly if their
texts are, so the names to avoid correspond one to one, and the search for a fresh name tries the
same texts in the same order. It does not matter which of these a table has known before.
-/

namespace LetCalculus

open LetCalculus.Expr

/-- Two names that their tables know under the same text. -/
structure SameText (t t' : NameTable) (x y : Name) : Prop where
  known : t.knows x = true
  known' : t'.knows y = true
  text_eq : t.text x = t'.text y

/-- Whether expressions differ in names alone, the bound ones and the free ones related as given. -/
inductive Respelled (names : Name → Name → Prop) : Expr → Expr → Prop
  | var {x y} : names x y → Respelled names (.var x) (.var y)
  | int {n} : Respelled names (.int n) (.int n)
  | float {a} : Respelled names (.float a) (.float a)
  | bool {b} : Respelled names (.bool b) (.bool b)
  | raise : Respelled names .raise .raise
  | unassigned : Respelled names .unassigned .unassigned
  | unary {op e e'} : Respelled names e e' → Respelled names (.unary op e) (.unary op e')
  | binary {op l l' r r'} : Respelled names l l' → Respelled names r r' →
    Respelled names (.binary op l r) (.binary op l' r')
  | cond {e e' y y' n n'} : Respelled names e e' → Respelled names y y' → Respelled names n n' →
    Respelled names (.cond e y n) (.cond e' y' n')
  | fn {x y b c} : names x y → Respelled names b c → Respelled names (.fn x b) (.fn y c)
  | letIn {x y v w b c} : names x y → Respelled names v w → Respelled names b c →
    Respelled names (.letIn x v b) (.letIn y w c)
  | letRec {x y v w b c} : names x y → Respelled names v w → Respelled names b c →
    Respelled names (.letRec x v b) (.letRec y w c)
  | app {f f' a a'} : Respelled names f f' → Respelled names a a' →
    Respelled names (.app f a) (.app f' a')

def OneToOne (names : Name → Name → Prop) : Prop :=
  ∀ x y u v, names x y → names u v → (x = u ↔ y = v)

variable {names names' : Name → Name → Prop} {x x' y y' : Name} {e e' r r' b b' : Expr}
  {l l' : List Name} {t t' t₁ t₁' : NameTable} {scopes scopes' : List Expr}

namespace Respelled

theorem mono (h : Respelled names e e') (hn : ∀ {x y}, names x y → names' x y) :
    Respelled names' e e' := by
  induction h with
  | var hx => exact .var (hn hx)
  | int => exact .int
  | float => exact .float
  | bool => exact .bool
  | raise => exact .raise
  | unassigned => exact .unassigned
  | unary _ ih => exact .unary ih
  | binary _ _ ihl ihr => exact .binary ihl ihr
  | cond _ _ _ ihe ihy ihn => exact .cond ihe ihy ihn
  | fn hx _ ih => exact .fn (hn hx) ih
  | letIn hx _ _ ihv ih => exact .letIn (hn hx) ihv ih
  | letRec hx _ _ ihv ih => exact .letRec (hn hx) ihv ih
  | app _ _ ihf iha => exact .app ihf iha

theorem isAtomic_eq (h : Respelled names e e') : e.isAtomic = e'.isAtomic := by
  cases h <;> rfl

theorem render_eq (h : Respelled names e e') (hn : ∀ {x y}, names x y → t.text x = t'.text y) :
    e.render t = e'.render t' := by
  induction h with
  | var hx => exact hn hx
  | unary h ih => rw [render, render, ih, h.isAtomic_eq]
  | binary hl hr ihl ihr => rw [render, render, ihl, ihr, hl.isAtomic_eq, hr.isAtomic_eq]
  | cond _ _ _ ihe ihy ihn => rw [render, render, ihe, ihy, ihn]
  | fn hx _ ih => rw [render, render, hn hx, ih]
  | letIn hx _ _ ihv ih | letRec hx _ _ ihv ih => rw [render, render, hn hx, ihv, ih]
  | app hf ha ihf iha => rw [render, render, ihf, iha, hf.isAtomic_eq, ha.isAtomic_eq]
  | _ => rfl

/-! ### Free variables -/

theorem freeIn_iff (hn : OneToOne names) (h : Respelled names e e') (hx : names x y) :
    FreeIn x e ↔ FreeIn y e' := by
  induction h with
  | var hu => exact hn _ _ _ _ hx hu
  | unary _ ih => exact ih
  | binary _ _ ihl ihr | app _ _ ihl ihr => exact or_congr ihl ihr
  | cond _ _ _ ihe ihy ihn => exact or_congr ihe (or_congr ihy ihn)
  | fn hu _ ih => exact and_congr (not_congr (hn _ _ _ _ hx hu)) ih
  | letIn hu _ _ ihv ih => exact or_congr ihv (and_congr (not_congr (hn _ _ _ _ hx hu)) ih)
  | letRec hu _ _ ihv ih => exact and_congr (not_congr (hn _ _ _ _ hx hu)) (or_congr ihv ih)
  | _ => exact Iff.rfl

theorem isFree_eq (hn : OneToOne names) (h : Respelled names e e') (hx : names x y) :
    e.isFree x = e'.isFree y := by
  rw [Bool.eq_iff_iff, isFree_iff, isFree_iff]
  exact h.freeIn_iff hn hx

end Respelled

theorem OneToOne.mem_iff (hn : OneToOne names) (h : List.Forall₂ names l l') (hx : names x y) :
    x ∈ l ↔ y ∈ l' := by
  induction h with
  | nil => simp
  | cons hu _ ih => rw [List.mem_cons, List.mem_cons, hn _ _ _ _ hx hu, ih]

theorem OneToOne.forall₂_insert (hn : OneToOne names) (h : List.Forall₂ names l l')
    (hx : names x y) : List.Forall₂ names (l.insert x) (l'.insert y) := by
  by_cases hm : x ∈ l
  · rw [List.insert_of_mem hm, List.insert_of_mem ((hn.mem_iff h hx).1 hm)]
    exact h
  · rw [List.insert_of_not_mem hm, List.insert_of_not_mem (mt (hn.mem_iff h hx).2 hm)]
    exact .cons hx h

/-- Whether in two collections the binders in force and the names found so far correspond. -/
structure Collector.Respelled (names : Name → Name → Prop) (c c' : Collector) : Prop where
  bound : List.Forall₂ names c.bound c'.bound
  found : List.Forall₂ names c.found c'.found

namespace Collector.Respelled

variable {c c' : Collector}

theorem push (h : c.Respelled names c') (hx : names x y) :
    (c.push x).Respelled names (c'.push y) :=
  ⟨.cons hx h.bound, h.found⟩

theorem pop (h : c.Respelled names c') : c.pop.Respelled names c'.pop := by
  refine ⟨?_, h.found⟩
  unfold Collector.pop
  rw [← List.drop_one, ← List.drop_one]
  exact List.forall₂_drop 1 h.bound

theorem visit (hn : OneToOne names) (h : c.Respelled names c') (hx : names x y) :
    (c.visit x).Respelled names (c'.visit y) := by
  unfold Collector.visit
  by_cases hm : x ∈ c.bound
  · rw [if_pos hm, if_pos ((hn.mem_iff h.bound hx).1 hm)]
    exact h
  · rw [if_neg hm, if_neg (mt (hn.mem_iff h.bound hx).2 hm)]
    exact ⟨h.bound, hn.forall₂_insert h.found hx⟩

end Collector.Respelled

namespace Respelled

theorem respelled_collectFree (hn : OneToOne names) (h : Respelled names e e') {c c' : Collector}
    (hc : c.Respelled names c') : (e.collectFree c).Respelled names (e'.collectFree c') := by
  induction h generalizing c c' with
  | var hx => exact hc.visit hn hx
  | unary _ ih => exact ih hc
  | binary _ _ ihl ihr | app _ _ ihl ihr => exact ihr (ihl hc)
  | cond _ _ _ ihe ihy ihn => exact ihn (ihy (ihe hc))
  | fn hx _ ih => exact (ih (hc.push hx)).pop
  | letIn hx _ _ ihv ih => exact (ih ((ihv hc).push hx)).pop
  | letRec hx _ _ ihv ih => exact (ih (ihv (hc.push hx))).pop
  | _ => exact hc

theorem forall₂_freeVars (hn : OneToOne names) (h : Respelled names e e') :
    List.Forall₂ names e.freeVars e'.freeVars :=
  (h.respelled_collectFree hn ⟨.nil, .nil⟩).found

theorem captures_eq (hn : OneToOne names) (hx : names x x') (hr : Respelled names r r')
    (hy : names y y') (hs : List.Forall₂ (Respelled names) scopes scopes') :
    captures x r y scopes = captures x' r' y' scopes' := by
  have hany : scopes.any (isFree x) = scopes'.any (isFree x') := by
    induction hs with
    | nil => rfl
    | cons hb _ ih => rw [List.any_cons, List.any_cons, hb.isFree_eq hn hx, ih]
  rw [captures, captures, hany, decide_eq_decide.2 (hn.mem_iff (hr.forall₂_freeVars hn) hy)]

theorem forall₂_taken (hn : OneToOne names) (hx : names x x') (hr : Respelled names r r')
    (hs : List.Forall₂ (Respelled names) scopes scopes') :
    List.Forall₂ names (taken x r scopes) (taken x' r' scopes') := by
  refine .cons hx (List.rel_append (hr.forall₂_freeVars hn) ?_)
  induction hs with
  | nil => exact .nil
  | cons hb _ ih => exact List.rel_append (hb.forall₂_freeVars hn) ih

end Respelled

/-! ### Two tables that go on -/

/-- Two consistent tables that have come of two others. -/
structure Later (t t' t₁ t₁' : NameTable) : Prop where
  consistent : t₁.Consistent
  consistent' : t₁'.Consistent
  known : t₁.Extends t
  known' : t₁'.Extends t'

theorem Later.refl (ht : t.Consistent) (ht' : t'.Consistent) : Later t t' t t' :=
  ⟨ht, ht', .refl t, .refl t'⟩

theorem Later.trans {t₂ t₂' : NameTable} (h : Later t t' t₁ t₁') (h' : Later t₁ t₁' t₂ t₂') :
    Later t t' t₂ t₂' :=
  ⟨h'.consistent, h'.consistent', h'.known.trans h.known, h'.known'.trans h.known'⟩

theorem SameText.later (h : SameText t t' x y) (hl : Later t t' t₁ t₁') : SameText t₁ t₁' x y := by
  obtain ⟨hk, ht⟩ := hl.known x h.known
  obtain ⟨hk', ht'⟩ := hl.known' y h.known'
  exact ⟨hk, hk', by rw [ht, ht', h.text_eq]⟩

theorem Respelled.later (h : Respelled (SameText t t') e e') (hl : Later t t' t₁ t₁') :
    Respelled (SameText t₁ t₁') e e' :=
  h.mono fun hx => hx.later hl

theorem oneToOne_sameText (ht : t.Consistent) (ht' : t'.Consistent) :
    OneToOne (SameText t t') := by
  intro x y u v hxy huv
  constructor
  · rintro rfl
    exact NameTable.eq_of_text_eq ht' hxy.known' huv.known' (hxy.text_eq.symm.trans huv.text_eq)
  · rintro rfl
    exact NameTable.eq_of_text_eq ht hxy.known huv.known (hxy.text_eq.trans huv.text_eq.symm)

theorem sameText_intern (ht : t.Consistent) (ht' : t'.Consistent) (s : String) :
    SameText (t.intern s).2 (t'.intern s).2 (t.intern s).1 (t'.intern s).1 :=
  ⟨NameTable.knows_intern_self ht s, NameTable.knows_intern_self ht' s, by
    rw [NameTable.text_intern ht, NameTable.text_intern ht']⟩

theorem later_intern (ht : t.Consistent) (ht' : t'.Consistent) (s : String) :
    Later t t' (t.intern s).2 (t'.intern s).2 :=
  ⟨ht.intern s, ht'.intern s, NameTable.extends_intern t s, NameTable.extends_intern t' s⟩

/-- The same candidates are refused in both tables, whether they were known there or not. -/
theorem sameText_freshFrom (ht : t.Consistent) (ht' : t'.Consistent) (stem : String)
    (ha : List.Forall₂ (SameText t t') l l') (tries i : Nat) :
    SameText (NameTable.freshFrom stem l tries i t).2 (NameTable.freshFrom stem l' tries i t').2
      (NameTable.freshFrom stem l tries i t).1 (NameTable.freshFrom stem l' tries i t').1 := by
  induction tries generalizing t t' i with
  | zero => exact sameText_intern ht ht' _
  | succ tries ih =>
    have hz := sameText_intern ht ht' (NameTable.candidate stem i)
    have hl := later_intern ht ht' (NameTable.candidate stem i)
    have ha := ha.imp fun _ _ hx => hx.later hl
    have hm := (oneToOne_sameText hl.consistent hl.consistent').mem_iff ha hz
    simp only [NameTable.freshFrom_succ]
    by_cases hx : (t.intern (NameTable.candidate stem i)).1 ∈ l
    · rw [if_pos hx, if_pos (hm.1 hx)]
      exact ih hl.consistent hl.consistent' ha (i + 1)
    · rw [if_neg hx, if_neg (mt hm.2 hx)]
      exact hz

theorem sameText_fresh (ht : t.Consistent) (ht' : t'.Consistent) (hy : SameText t t' y y')
    (ha : List.Forall₂ (SameText t t') l l') :
    SameText (t.fresh y l).2 (t'.fresh y' l').2 (t.fresh y l).1 (t'.fresh y' l').1 := by
  rw [NameTable.fresh, NameTable.fresh, hy.text_eq, ha.length_eq]
  exact sameText_freshFrom ht ht' _ ha _ 1

theorem later_fresh (ht : t.Consistent) (ht' : t'.Consistent) (y y' : Name) (l l' : List Name) :
    Later t t' (t.fresh y l).2 (t'.fresh y' l').2 :=
  ⟨ht.fresh y l, ht'.fresh y' l', NameTable.extends_fresh t y l, NameTable.extends_fresh t' y' l'⟩

theorem later_substitute (ht : t.Consistent) (ht' : t'.Consistent) (x x' : Name)
    (r r' e e' : Expr) :
    Later t t' (Expr.substitute x r e t).2 (Expr.substitute x' r' e' t').2 :=
  have h := substituted_substitute x r e t
  have h' := substituted_substitute x' r' e' t'
  ⟨h.consistent ht, h'.consistent ht', h.extends, h'.extends⟩

/-! ### Substitution -/

/-- Whether substitution in an expression does the same over all tables that know its names. -/
def SubstitutesAlike (e : Expr) : Prop :=
  ∀ ⦃x x' r r' e' t t'⦄, t.Consistent → t'.Consistent → SameText t t' x x' →
    Respelled (SameText t t') r r' → Respelled (SameText t t') e e' →
    Respelled (SameText (Expr.substitute x r e t).2 (Expr.substitute x' r' e' t').2)
      (Expr.substitute x r e t).1 (Expr.substitute x' r' e' t').1

namespace SubstitutesAlike

variable {a a' f v v' : Expr} {z z' : Name}

theorem two (ha : SubstitutesAlike a) (hb : SubstitutesAlike b) (ht : t.Consistent)
    (ht' : t'.Consistent) (hx : SameText t t' x x') (hr : Respelled (SameText t t') r r')
    (haa : Respelled (SameText t t') a a') (hbb : Respelled (SameText t t') b b') :
    let p := Expr.substitute x r a t
    let p' := Expr.substitute x' r' a' t'
    let q := Expr.substitute x r b p.2
    let q' := Expr.substitute x' r' b' p'.2
    Respelled (SameText q.2 q'.2) p.1 p'.1 ∧ Respelled (SameText q.2 q'.2) q.1 q'.1 := by
  intro p p' q q'
  have hl : Later t t' p.2 p'.2 := later_substitute ht ht' _ _ _ _ _ _
  have hp : Respelled (SameText p.2 p'.2) p.1 p'.1 := ha ht ht' hx hr haa
  refine ⟨hp.later (later_substitute hl.consistent hl.consistent' _ _ _ _ _ _), ?_⟩
  exact hb hl.consistent hl.consistent' (hx.later hl) (hr.later hl) (hbb.later hl)

/-- Below a renamed binder the substitution goes on in another expression, of the same size. -/
theorem renamed (hb : ∀ e, e.size = b.size → SubstitutesAlike e) (ht : t.Consistent)
    (ht' : t'.Consistent) (hx : SameText t t' x x') (hr : Respelled (SameText t t') r r')
    (hy : SameText t t' y y') (hz : SameText t t' z z') (hbb : Respelled (SameText t t') b b') :
    let p := Expr.substitute y (.var z) b t
    let p' := Expr.substitute y' (.var z') b' t'
    Respelled (SameText (Expr.substitute x r p.1 p.2).2 (Expr.substitute x' r' p'.1 p'.2).2)
        (Expr.substitute x r p.1 p.2).1 (Expr.substitute x' r' p'.1 p'.2).1 ∧
      Later t t' (Expr.substitute x r p.1 p.2).2 (Expr.substitute x' r' p'.1 p'.2).2 := by
  intro p p'
  have hl : Later t t' p.2 p'.2 := later_substitute ht ht' _ _ _ _ _ _
  have hp : Respelled (SameText p.2 p'.2) p.1 p'.1 := hb b rfl ht ht' hy (.var hz) hbb
  refine ⟨?_, hl.trans (later_substitute hl.consistent hl.consistent' _ _ _ _ _ _)⟩
  exact hb p.1 (size_substitute_var _ _ _ _) hl.consistent hl.consistent' (hx.later hl)
    (hr.later hl) hp

theorem var (y : Name) : SubstitutesAlike (.var y) := by
  intro x x' r r' e' t t' ht ht' hx hr he
  have one := oneToOne_sameText ht ht'
  cases he with
  | var hy =>
    rw [substitute_var, substitute_var]
    by_cases h : y = x
    · rw [if_pos h, if_pos ((one _ _ _ _ hy hx).1 h)]
      exact hr
    · rw [if_neg h, if_neg (mt (one _ _ _ _ hy hx).2 h)]
      exact .var hy

theorem unary {op : UnaryOp} (ha : SubstitutesAlike a) : SubstitutesAlike (.unary op a) := by
  intro x x' r r' e' t t' ht ht' hx hr he
  cases he with
  | unary haa =>
    rw [substitute_unary, substitute_unary]
    exact .unary (ha ht ht' hx hr haa)

theorem binary {op : BinaryOp} (ha : SubstitutesAlike a) (hb : SubstitutesAlike b) :
    SubstitutesAlike (.binary op a b) := by
  intro x x' r r' e' t t' ht ht' hx hr he
  cases he with
  | binary haa hbb =>
    rw [substitute_binary, substitute_binary]
    obtain ⟨haa, hbb⟩ := two ha hb ht ht' hx hr haa hbb
    exact .binary haa hbb

theorem app (hf : SubstitutesAlike f) (ha : SubstitutesAlike a) :
    SubstitutesAlike (.app f a) := by
  intro x x' r r' e' t t' ht ht' hx hr he
  cases he with
  | app hff haa =>
    rw [substitute_app, substitute_app]
    obtain ⟨hff, haa⟩ := two hf ha ht ht' hx hr hff haa
    exact .app hff haa

theorem cond (ha : SubstitutesAlike a) (hv : SubstitutesAlike v) (hb : SubstitutesAlike b) :
    SubstitutesAlike (.cond a v b) := by
  intro x x' r r' e' t t' ht ht' hx hr he
  cases he with
  | @cond _ a' _ v' _ b' haa hvv hbb =>
    have hl := later_substitute ht ht' x x' r r' a a'
    have hl₂ := later_substitute hl.consistent hl.consistent' x x' r r' v v'
    have hl₃ := later_substitute hl₂.consistent hl₂.consistent' x x' r r' b b'
    rw [substitute_cond, substitute_cond]
    have haa := ha ht ht' hx hr haa
    obtain ⟨hvv, hbb⟩ := two hv hb hl.consistent hl.consistent' (hx.later hl) (hr.later hl)
      (hvv.later hl) (hbb.later hl)
    exact .cond (haa.later (hl₂.trans hl₃)) hvv hbb

theorem fn {y : Name} (hb : ∀ e, e.size = b.size → SubstitutesAlike e) :
    SubstitutesAlike (.fn y b) := by
  intro x x' r r' e' t t' ht ht' hx hr he
  have one := oneToOne_sameText ht ht'
  cases he with
  | @fn _ y' _ b' hy hbb =>
    rw [substitute_fn, substitute_fn, ← Respelled.captures_eq one hx hr hy (.cons hbb .nil)]
    by_cases h : y = x
    · rw [if_pos h, if_pos ((one _ _ _ _ hy hx).1 h)]
      exact .fn hy hbb
    rw [if_neg h, if_neg (mt (one _ _ _ _ hy hx).2 h)]
    by_cases hcap : captures x r y [b] = true
    · rw [if_pos hcap, if_pos hcap]
      have hz := sameText_fresh ht ht' hy (Respelled.forall₂_taken one hx hr (.cons hbb .nil))
      have hl := later_fresh ht ht' y y' (taken x r [b]) (taken x' r' [b'])
      obtain ⟨hbb, hl'⟩ := renamed hb hl.consistent hl.consistent' (hx.later hl) (hr.later hl)
        (hy.later hl) hz (hbb.later hl)
      exact .fn (hz.later hl') hbb
    · rw [if_neg hcap, if_neg hcap]
      exact .fn (hy.later (later_substitute ht ht' ..)) (hb b rfl ht ht' hx hr hbb)

theorem letIn {y : Name} (hv : SubstitutesAlike v)
    (hb : ∀ e, e.size = b.size → SubstitutesAlike e) : SubstitutesAlike (.letIn y v b) := by
  intro x x' r r' e' t t' ht ht' hx hr he
  have one := oneToOne_sameText ht ht'
  cases he with
  | @letIn _ y' _ v' _ b' hy hvv hbb =>
    have hl := later_substitute ht ht' x x' r r' v v'
    have hv₁ := hv ht ht' hx hr hvv
    have hy₁ := hy.later hl
    rw [substitute_letIn, substitute_letIn,
      ← Respelled.captures_eq one hx hr hy (.cons hbb .nil)]
    simp only
    by_cases h : y = x
    · rw [if_pos h, if_pos ((one _ _ _ _ hy hx).1 h)]
      exact .letIn hy₁ hv₁ (hbb.later hl)
    rw [if_neg h, if_neg (mt (one _ _ _ _ hy hx).2 h)]
    by_cases hcap : captures x r y [b] = true
    · rw [if_pos hcap, if_pos hcap]
      have hz := sameText_fresh hl.consistent hl.consistent' hy₁
        (Respelled.forall₂_taken (oneToOne_sameText hl.consistent hl.consistent') (hx.later hl)
          (hr.later hl) (.cons (hbb.later hl) .nil))
      have hl₁ := later_fresh hl.consistent hl.consistent' y y' (taken x r [b]) (taken x' r' [b'])
      have hl₂ := hl.trans hl₁
      obtain ⟨hbb, hl'⟩ := renamed hb hl₁.consistent hl₁.consistent' (hx.later hl₂) (hr.later hl₂)
        (hy.later hl₂) hz (hbb.later hl₂)
      exact .letIn (hz.later hl') (hv₁.later (hl₁.trans hl')) hbb
    · rw [if_neg hcap, if_neg hcap]
      obtain ⟨hvv, hbb⟩ := two hv (hb b rfl) ht ht' hx hr hvv hbb
      exact .letIn (hy₁.later (later_substitute hl.consistent hl.consistent' ..)) hvv hbb

theorem letRec {y : Name} (hv : ∀ e, e.size = v.size → SubstitutesAlike e)
    (hb : ∀ e, e.size = b.size → SubstitutesAlike e) : SubstitutesAlike (.letRec y v b) := by
  intro x x' r r' e' t t' ht ht' hx hr he
  have one := oneToOne_sameText ht ht'
  cases he with
  | @letRec _ y' _ v' _ b' hy hvv hbb =>
    rw [substitute_letRec, substitute_letRec,
      ← Respelled.captures_eq one hx hr hy (.cons hvv (.cons hbb .nil))]
    by_cases h : y = x
    · rw [if_pos h, if_pos ((one _ _ _ _ hy hx).1 h)]
      exact .letRec hy hvv hbb
    rw [if_neg h, if_neg (mt (one _ _ _ _ hy hx).2 h)]
    by_cases hcap : captures x r y [v, b] = true
    · rw [if_pos hcap, if_pos hcap]
      have hz := sameText_fresh ht ht' hy
        (Respelled.forall₂_taken one hx hr (.cons hvv (.cons hbb .nil)))
      have hl := later_fresh ht ht' y y' (taken x r [v, b]) (taken x' r' [v', b'])
      obtain ⟨hvv, hl₁⟩ := renamed hv hl.consistent hl.consistent' (hx.later hl) (hr.later hl)
        (hy.later hl) hz (hvv.later hl)
      have hl₂ := hl.trans hl₁
      obtain ⟨hbb, hl₃⟩ := renamed hb hl₁.consistent hl₁.consistent' (hx.later hl₂)
        (hr.later hl₂) (hy.later hl₂) (hz.later hl₁) (hbb.later hl₂)
      exact .letRec ((hz.later hl₁).later hl₃) (hvv.later hl₃) hbb
    · rw [if_neg hcap, if_neg hcap]
      have hl := later_substitute ht ht' x x' r r' v v'
      obtain ⟨hvv, hbb⟩ := two (hv v rfl) (hb b rfl) ht ht' hx hr hvv hbb
      exact .letRec ((hy.later hl).later (later_substitute hl.consistent hl.consistent' ..))
        hvv hbb

theorem of_fixed (hs : ∀ x r t, Expr.substitute x r e t = (e, t))
    (he : ∀ names e', Respelled names e e' → e' = e ∧ ∀ names', Respelled names' e e) :
    SubstitutesAlike e := by
  intro x x' r r' e' t t' _ _ _ _ hee
  obtain ⟨rfl, hsame⟩ := he _ _ hee
  rw [hs, hs]
  exact hsame _

end SubstitutesAlike

/-- Substitution does the same over any two tables, in all expressions. -/
theorem substitutesAlike (e : Expr) : SubstitutesAlike e := by
  induction hn : e.size using Nat.strongRecOn generalizing e with
  | ind n ih =>
    subst hn
    have smaller : ∀ b : Expr, b.size < e.size → ∀ e : Expr, e.size = b.size →
        SubstitutesAlike e := by
      intro b hb e he
      exact ih e.size (he ▸ hb) e rfl
    have part : ∀ b : Expr, b.size < e.size → SubstitutesAlike b :=
      fun b hb => smaller b hb b rfl
    cases e with
    | var y => exact .var y
    | int n =>
      exact .of_fixed (fun _ _ _ => substitute_int ..) fun
        | _, _, .int => ⟨rfl, fun _ => .int⟩
    | float a =>
      exact .of_fixed (fun _ _ _ => substitute_float ..) fun
        | _, _, .float => ⟨rfl, fun _ => .float⟩
    | bool b =>
      exact .of_fixed (fun _ _ _ => substitute_bool ..) fun
        | _, _, .bool => ⟨rfl, fun _ => .bool⟩
    | raise =>
      exact .of_fixed (fun _ _ _ => substitute_raise ..) fun
        | _, _, .raise => ⟨rfl, fun _ => .raise⟩
    | unassigned =>
      exact .of_fixed (fun _ _ _ => substitute_unassigned ..) fun
        | _, _, .unassigned => ⟨rfl, fun _ => .unassigned⟩
    | unary op a => exact .unary (part a (by simp [size]))
    | binary op a b =>
      exact .binary (part a (by simp only [size]; omega)) (part b (by simp only [size]; omega))
    | cond a v b =>
      exact .cond (part a (by simp only [size]; omega)) (part v (by simp only [size]; omega))
        (part b (by simp only [size]; omega))
    | fn y b => exact .fn (smaller b (by simp [size]))
    | letIn y v b =>
      exact .letIn (part v (by simp only [size]; omega)) (smaller b (by simp only [size]; omega))
    | letRec y v b =>
      exact .letRec (smaller v (by simp only [size]; omega))
        (smaller b (by simp only [size]; omega))
    | app f a =>
      exact .app (part f (by simp only [size]; omega)) (part a (by simp only [size]; omega))

/--
Over two tables the same replacement has the same result, in which all names have the same texts,
those of renamed binders as well.
-/
theorem Respelled.substitute (ht : t.Consistent) (ht' : t'.Consistent) (hx : SameText t t' x x')
    (hr : Respelled (SameText t t') r r') (he : Respelled (SameText t t') e e') :
    Respelled (SameText (Expr.substitute x r e t).2 (Expr.substitute x' r' e' t').2)
      (Expr.substitute x r e t).1 (Expr.substitute x' r' e' t').1 :=
  substitutesAlike e ht ht' hx hr he

end LetCalculus
