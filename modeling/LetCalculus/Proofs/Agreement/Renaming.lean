import LetCalculus.Proofs.Agreement.LookUp
import LetCalculus.Proofs.Evaluation.Finished
import LetCalculus.Proofs.Substitution.Opening

/-!
# Names of bound variables do not matter

Two expressions have the same nameless form exactly when one can be turned into the other by
renaming bound variables. `Renames` says this without positions: it relates the occurrences of
free names and, below two binders, also the names of these two. So it fits environments, which
relate names by the cells that they have for them.

Under substitution and under lexical scoping such expressions run alike
(`Discipline.renaming_runsAlike`). The two evaluations rename other binders, or bind other names
in other places of their environments, but the relation between the expressions is kept. Under
dynamic scoping they need not run alike, since a function sees the names of its callers.
-/

namespace LetCalculus

open LetCalculus.Expr

/-- Below two binders their names go together, and other names do as they did outside. -/
inductive Under (x y : Name) (names : Name → Name → Prop) : Name → Name → Prop
  | here : Under x y names x y
  | there {u v : Name} : u ≠ x → v ≠ y → names u v → Under x y names u v

/-- Whether expressions differ in names alone, the free ones being related as given. -/
inductive Renames : (Name → Name → Prop) → Expr → Expr → Prop
  | var {names x y} : names x y → Renames names (.var x) (.var y)
  | int {names n} : Renames names (.int n) (.int n)
  | float {names a} : Renames names (.float a) (.float a)
  | bool {names b} : Renames names (.bool b) (.bool b)
  | raise {names} : Renames names .raise .raise
  | unassigned {names} : Renames names .unassigned .unassigned
  | unary {names op e e'} : Renames names e e' → Renames names (.unary op e) (.unary op e')
  | binary {names op l l' r r'} : Renames names l l' → Renames names r r' →
    Renames names (.binary op l r) (.binary op l' r')
  | cond {names e e' y y' n n'} : Renames names e e' → Renames names y y' → Renames names n n' →
    Renames names (.cond e y n) (.cond e' y' n')
  | app {names f f' a a'} : Renames names f f' → Renames names a a' →
    Renames names (.app f a) (.app f' a')
  | fn {names x y b c} : Renames (Under x y names) b c → Renames names (.fn x b) (.fn y c)
  | letIn {names x y v w b c} : Renames names v w → Renames (Under x y names) b c →
    Renames names (.letIn x v b) (.letIn y w c)
  | letRec {names x y v w b c} : Renames (Under x y names) v w → Renames (Under x y names) b c →
    Renames names (.letRec x v b) (.letRec y w c)

variable {names names' : Name → Name → Prop} {x y u v : Name} {e e' b c r r' : Expr}
  {scope scope' : List Name}

/-! ### Renaming and the nameless form -/

namespace Under

theorem mono (h : Under x y names u v) (hn : u ≠ x → names u v → names' u v) :
    Under x y names' u v := by
  cases h with
  | here => exact .here
  | there hu hv h => exact .there hu hv (hn hu h)

theorem of_resolve_eq (h : resolve (x :: scope) u = resolve (y :: scope') v) :
    Under x y (fun u v => resolve scope u = resolve scope' v) u v := by
  by_cases hu : u = x
  · by_cases hv : v = y
    · subst hu hv
      exact .here
    · rw [hu, resolve_cons_self, resolve_cons_of_ne hv] at h
      rcases resolve_eq_free_or_bound scope' v with hv | ⟨i, hv⟩ <;> simp [hv] at h
  · by_cases hv : v = y
    · rw [hv, resolve_cons_self, resolve_cons_of_ne hu] at h
      rcases resolve_eq_free_or_bound scope u with hu | ⟨i, hu⟩ <;> simp [hu] at h
    · refine .there hu hv ?_
      rw [resolve_cons_of_ne hu, resolve_cons_of_ne hv] at h
      rcases resolve_eq_free_or_bound scope u with hu | ⟨i, hu⟩ <;>
        rcases resolve_eq_free_or_bound scope' v with hv | ⟨j, hv⟩ <;> simp_all

theorem resolve_eq (h : Under x y names u v)
    (hn : ∀ u v, names u v → resolve scope u = resolve scope' v) :
    resolve (x :: scope) u = resolve (y :: scope') v := by
  cases h with
  | here => rw [resolve_cons_self, resolve_cons_self]
  | there hu hv h => rw [resolve_cons_of_ne hu, resolve_cons_of_ne hv, hn u v h]

end Under

theorem Renames.mono (h : Renames names e e')
    (hn : ∀ u v, FreeIn u e → names u v → names' u v) : Renames names' e e' := by
  induction h generalizing names' with
  | var h => exact .var (hn _ _ rfl h)
  | int => exact .int
  | float => exact .float
  | bool => exact .bool
  | raise => exact .raise
  | unassigned => exact .unassigned
  | unary _ ih => exact .unary (ih hn)
  | binary _ _ ihl ihr =>
    exact .binary (ihl fun u v hu => hn u v (.inl hu)) (ihr fun u v hu => hn u v (.inr hu))
  | cond _ _ _ ihe ihy ihn =>
    exact .cond (ihe fun u v hu => hn u v (.inl hu)) (ihy fun u v hu => hn u v (.inr (.inl hu)))
      (ihn fun u v hu => hn u v (.inr (.inr hu)))
  | app _ _ ihf iha =>
    exact .app (ihf fun u v hu => hn u v (.inl hu)) (iha fun u v hu => hn u v (.inr hu))
  | fn _ ih => exact .fn (ih fun u v hb h => h.mono fun hu => hn u v ⟨hu, hb⟩)
  | letIn _ _ ihv ih =>
    exact .letIn (ihv fun u v hu => hn u v (.inl hu))
      (ih fun u v hb h => h.mono fun hu => hn u v (.inr ⟨hu, hb⟩))
  | letRec _ _ ihv ih =>
    exact .letRec (ihv fun u v hv h => h.mono fun hu => hn u v ⟨hu, .inl hv⟩)
      (ih fun u v hb h => h.mono fun hu => hn u v ⟨hu, .inr hb⟩)

theorem Under.exists_of_ne {P : Name → Prop} (h : ∃ v, P v ∧ Under x y names u v) (hu : u ≠ x) :
    ∃ v, (v ≠ y ∧ P v) ∧ names u v := by
  obtain ⟨v, hv, h⟩ := h
  cases h with
  | here => exact absurd rfl hu
  | there _ hy h => exact ⟨v, ⟨hy, hv⟩, h⟩

theorem Renames.exists_of_freeIn (h : Renames names e e') (hu : FreeIn u e) :
    ∃ v, FreeIn v e' ∧ names u v := by
  induction h with
  | var h =>
    obtain rfl : u = _ := hu
    exact ⟨_, rfl, h⟩
  | unary _ ih => exact ih hu
  | binary _ _ ihl ihr | app _ _ ihl ihr =>
    rcases hu with hu | hu
    · exact (ihl hu).imp fun _ => And.imp_left .inl
    · exact (ihr hu).imp fun _ => And.imp_left .inr
  | cond _ _ _ ihe ihy ihn =>
    rcases hu with hu | hu | hu
    · exact (ihe hu).imp fun _ => And.imp_left .inl
    · exact (ihy hu).imp fun _ => And.imp_left fun hv => .inr (.inl hv)
    · exact (ihn hu).imp fun _ => And.imp_left fun hv => .inr (.inr hv)
  | fn _ ih => exact Under.exists_of_ne (ih hu.2) hu.1
  | letIn _ _ ihv ih =>
    rcases hu with hu | ⟨hux, hu⟩
    · exact (ihv hu).imp fun _ => And.imp_left .inl
    · obtain ⟨v, hv, h⟩ := Under.exists_of_ne (ih hu) hux
      exact ⟨v, .inr hv, h⟩
  | letRec _ _ ihv ih =>
    obtain ⟨hux, hu | hu⟩ := hu
    · obtain ⟨v, hv, h⟩ := Under.exists_of_ne (ihv hu) hux
      exact ⟨v, ⟨hv.1, .inl hv.2⟩, h⟩
    · obtain ⟨v, hv, h⟩ := Under.exists_of_ne (ih hu) hux
      exact ⟨v, ⟨hv.1, .inr hv.2⟩, h⟩
  | _ => cases hu

theorem Renames.namelessIn_eq (h : Renames names e e')
    (hn : ∀ u v, names u v → resolve scope u = resolve scope' v) :
    e.namelessIn scope = e'.namelessIn scope' := by
  induction h generalizing scope scope' with
  | var h => exact hn _ _ h
  | unary _ ih => rw [namelessIn, namelessIn, ih hn]
  | binary _ _ ihl ihr => rw [namelessIn, namelessIn, ihl hn, ihr hn]
  | cond _ _ _ ihe ihy ihn => rw [namelessIn, namelessIn, ihe hn, ihy hn, ihn hn]
  | app _ _ ihf iha => rw [namelessIn, namelessIn, ihf hn, iha hn]
  | fn _ ih => rw [namelessIn, namelessIn, ih fun _ _ h => h.resolve_eq hn]
  | letIn _ _ ihv ih => rw [namelessIn, namelessIn, ihv hn, ih fun _ _ h => h.resolve_eq hn]
  | letRec _ _ ihv ih =>
    rw [namelessIn, namelessIn, ihv fun _ _ h => h.resolve_eq hn,
      ih fun _ _ h => h.resolve_eq hn]
  | _ => rfl

def Nameless.isPlace : Nameless → Bool
  | bound _ | free _ => true
  | _ => false

theorem isPlace_namelessIn (scope : List Name) (e : Expr) :
    (e.namelessIn scope).isPlace = e.isVar := by
  cases e with
  | var x =>
    rw [namelessIn]
    rcases resolve_eq_free_or_bound scope x with hx | ⟨i, hx⟩
    · rw [hx]
      rfl
    · rw [hx]
      rfl
  | _ => rfl

theorem isVar_eq_of_namelessIn_eq (h : e.namelessIn scope = e'.namelessIn scope') :
    e.isVar = e'.isVar := by
  rw [← isPlace_namelessIn scope e, h, isPlace_namelessIn]

theorem renames_of_namelessIn_eq (h : e.namelessIn scope = e'.namelessIn scope') :
    Renames (fun u v => resolve scope u = resolve scope' v) e e' := by
  -- The nameless form shows the outermost construct, but that of a variable only once its name is
  -- resolved: hence the case of `var` beside the other impossible ones.
  induction e generalizing e' scope scope' with
  | var x =>
    cases e' with
    | var y => exact .var h
    | _ => cases isVar_eq_of_namelessIn_eq h
  | int n =>
    cases e' with
    | int m =>
      obtain rfl := Nameless.int.inj h
      exact .int
    | var y => cases isVar_eq_of_namelessIn_eq h
    | _ => cases h
  | float a =>
    cases e' with
    | float a' =>
      obtain rfl := Nameless.float.inj h
      exact .float
    | var y => cases isVar_eq_of_namelessIn_eq h
    | _ => cases h
  | bool b =>
    cases e' with
    | bool b' =>
      obtain rfl := Nameless.bool.inj h
      exact .bool
    | var y => cases isVar_eq_of_namelessIn_eq h
    | _ => cases h
  | raise =>
    cases e' with
    | raise => exact .raise
    | var y => cases isVar_eq_of_namelessIn_eq h
    | _ => cases h
  | unassigned =>
    cases e' with
    | unassigned => exact .unassigned
    | var y => cases isVar_eq_of_namelessIn_eq h
    | _ => cases h
  | unary op e ih =>
    cases e' with
    | unary op' e' =>
      obtain ⟨rfl, he⟩ := Nameless.unary.inj h
      exact .unary (ih he)
    | var y => cases isVar_eq_of_namelessIn_eq h
    | _ => cases h
  | binary op l r ihl ihr =>
    cases e' with
    | binary op' l' r' =>
      obtain ⟨rfl, hl, hr⟩ := Nameless.binary.inj h
      exact .binary (ihl hl) (ihr hr)
    | var y => cases isVar_eq_of_namelessIn_eq h
    | _ => cases h
  | cond e y n ihe ihy ihn =>
    cases e' with
    | cond e' y' n' =>
      obtain ⟨he, hy, hn⟩ := Nameless.cond.inj h
      exact .cond (ihe he) (ihy hy) (ihn hn)
    | var y => cases isVar_eq_of_namelessIn_eq h
    | _ => cases h
  | app f a ihf iha =>
    cases e' with
    | app f' a' =>
      obtain ⟨hf, ha⟩ := Nameless.app.inj h
      exact .app (ihf hf) (iha ha)
    | var y => cases isVar_eq_of_namelessIn_eq h
    | _ => cases h
  | fn x b ih =>
    cases e' with
    | fn y c => exact .fn ((ih (Nameless.fn.inj h)).mono fun _ _ _ => .of_resolve_eq)
    | var y => cases isVar_eq_of_namelessIn_eq h
    | _ => cases h
  | letIn x v b ihv ih =>
    cases e' with
    | letIn y w c =>
      obtain ⟨hv, hb⟩ := Nameless.letIn.inj h
      exact .letIn (ihv hv) ((ih hb).mono fun _ _ _ => .of_resolve_eq)
    | var y => cases isVar_eq_of_namelessIn_eq h
    | _ => cases h
  | letRec x v b ihv ih =>
    cases e' with
    | letRec y w c =>
      obtain ⟨hv, hb⟩ := Nameless.letRec.inj h
      exact .letRec ((ihv hv).mono fun _ _ _ => .of_resolve_eq)
        ((ih hb).mono fun _ _ _ => .of_resolve_eq)
    | var y => cases isVar_eq_of_namelessIn_eq h
    | _ => cases h

theorem renames_of_nameless_eq (h : e.nameless = e'.nameless) : Renames Eq e e' := by
  refine (renames_of_namelessIn_eq h).mono ?_
  intro u v _ huv
  rw [resolve_of_notMem List.not_mem_nil, resolve_of_notMem List.not_mem_nil] at huv
  exact Nameless.free.inj huv

theorem Renames.nameless_eq (h : Renames names e e') (hn : ∀ u v, names u v → u = v) :
    e.nameless = e'.nameless := by
  refine h.namelessIn_eq ?_
  intro u v huv
  rw [hn u v huv]

theorem freeIn_of_nameless_eq (h : e.nameless = e'.nameless) (hu : FreeIn u e) : FreeIn u e' := by
  obtain ⟨_, hv, rfl⟩ := (renames_of_nameless_eq h).exists_of_freeIn hu
  exact hv

/-! ### What an evaluation keeps -/

/-- A consistent table that has come by names since `t₀`, though only under substitution. -/
structure Since (s : Discipline) (t₀ t : NameTable) : Prop where
  consistent : t.Consistent
  known : t.Extends t₀
  kept : s ≠ .substitution → t = t₀

/--
Which free names may stand for each other: under substitution a name that was known at the start
stands for itself, and otherwise names stand for each other that have paired cells, or none.
-/
def Discipline.Relates (s : Discipline) (t₀ : NameTable) (cell : Cell → Cell → Prop)
    (env env' : Environment) (x y : Name) : Prop :=
  match s with
  | .substitution => x = y ∧ t₀.knows x = true
  | .dynamic | .lexical => env.Matches cell env' x y

inductive Renamed (s : Discipline) (t₀ : NameTable) (cell : Cell → Cell → Prop) :
    Value → Value → Prop
  | plain {l : Expr} : l.isLiteral = true ∨ l = .unassigned →
      Renamed s t₀ cell (.plain l) (.plain l)
  | function {x y : Name} {b c : Expr} : s = .substitution →
    Renames (fun u v => u = v ∧ t₀.knows u = true) (.fn x b) (.fn y c) →
    Renamed s t₀ cell (.plain (.fn x b)) (.plain (.fn y c))
  | closure {f g : Lambda} {scope scope' : Environment} : s = .lexical →
    Renames (scope.Matches cell scope') f.toExpr g.toExpr →
    Renamed s t₀ cell (.closure f scope) (.closure g scope')

variable {s : Discipline} {t₀ t t' : NameTable} {cell : Cell → Cell → Prop}
  {env env' base : Environment} {P : CellPairing} {w w' : Value}

theorem Since.refl (s : Discipline) (h : t.Consistent) : Since s t t := ⟨h, .refl t, fun _ => rfl⟩

theorem Since.substitute (h : Since .substitution t₀ t) (x : Name) (r e : Expr) :
    Since .substitution t₀ (Expr.substitute x r e t).2 := by
  have hs := substituted_substitute x r e t
  exact ⟨hs.consistent h.consistent, hs.extends.trans h.known, nofun⟩

theorem Since.text_eq (h : Since s t₀ t) (hx : s = .substitution → t₀.knows x = true) :
    t.text x = t₀.text x := by
  by_cases hs : s = .substitution
  · exact (h.known x (hx hs)).2
  · rw [h.kept hs]

theorem Renamed.renames (h : Renamed .substitution t₀ cell w w') :
    Renames (fun u v => u = v ∧ t₀.knows u = true) w.toExpr w'.toExpr := by
  cases h with
  | @plain l hl =>
    rcases hl with hl | rfl
    · cases l with
      | int n => exact .int
      | float a => exact .float
      | bool b => exact .bool
      | _ => cases hl
    · exact .unassigned
  | function _ h => exact h
  | closure hs _ => cases hs

/-- Expressions that differ in names alone do so after a substitution in the scope of binders. -/
theorem renames_substitute (ht : t.Consistent) (ht' : t'.Consistent)
    (hb : Renames (Under x y fun u v => u = v ∧ t₀.knows u = true) b c)
    (hr : Renames (fun u v => u = v ∧ t₀.knows u = true) r r') :
    Renames (fun u v => u = v ∧ t₀.knows u = true) (Expr.substitute x r b t).1
      (Expr.substitute y r' c t').1 := by
  have hn : b.namelessIn [x] = c.namelessIn [y] := by
    refine hb.namelessIn_eq fun u v h => h.resolve_eq ?_
    rintro u _ ⟨rfl, -⟩
    rfl
  have he : (Expr.substitute x r b t).1.nameless = (Expr.substitute y r' c t').1.nameless := by
    rw [nameless_substitute_eq_opened ht, nameless_substitute_eq_opened ht', hn,
      hr.nameless_eq fun _ _ h => h.1]
  refine (renames_of_nameless_eq he).mono ?_
  rintro u _ hu rfl
  refine ⟨rfl, ?_⟩
  rcases (substituted_substitute x r b t).freeIn hu with hu | ⟨hux, hu⟩
  · obtain ⟨_, -, -, hk⟩ := hr.exists_of_freeIn hu
    exact hk
  · obtain ⟨_, -, -, hk⟩ := Under.exists_of_ne (hb.exists_of_freeIn hu) hux
    exact hk

namespace Correspondence

def renamingPairing (s : Discipline) (P : CellPairing) (t₀ : NameTable) (base : Environment) :
    Pairing where
  code e env e' env' := Renames (s.Relates t₀ P.rel env env') e e' ∧
    (s = .substitution → env = base ∧ env' = base)
  value := Renamed s t₀ P.rel
  cell := P.rel
  names t t' := Since s t₀ t ∧ Since s t₀ t'

theorem renames_bind {p q : Cell} {m n : Nat}
    (hb : Renames (Under x y (env.Matches cell env')) b c) (hc : cell p q) :
    Renames (Environment.Matches cell ⟨m, Environment.bind x p env.bindings⟩
      ⟨n, Environment.bind y q env'.bindings⟩) b c := by
  refine hb.mono ?_
  intro u v _ huv
  cases huv with
  | here => exact .bind_self hc
  | there hu hv h => exact h.bind_of_ne hu hv

theorem opens_renaming (hb : Renames (Under x y (s.Relates t₀ P.rel env env')) b c)
    (hbase : s = .substitution → env = base ∧ env' = base) :
    (renamingPairing s P t₀ base).Opens s s x b env y c env' := by
  cases s with
  | substitution =>
    refine .text rfl rfl ?_
    rintro v w t t' hv ⟨ht, ht'⟩
    exact ⟨⟨renames_substitute ht.consistent ht'.consistent hb hv.renames, hbase⟩,
      ht.substitute x v.toExpr b, ht'.substitute y w.toExpr c⟩
  | dynamic | lexical =>
    refine .cell (by simp) (by simp) ?_
    intro p q m n hc
    exact ⟨renames_bind hb hc, nofun⟩

theorem calls_renaming (hw : Renamed s t₀ P.rel w w')
    (hbase : s = .substitution → env = base ∧ env' = base) :
    (renamingPairing s P t₀ base).Calls s s w env w' env' := by
  cases hw with
  | @plain l hl =>
    rcases hl with hl | rfl
    · cases l with
      | int n | float a | bool b => cases s <;> exact .other rfl rfl fun _ _ _ => rfl
      | _ => cases hl
    · cases s <;> exact .other rfl rfl fun _ _ _ => rfl
  | function hs hf =>
    subst hs
    cases hf with
    | fn hb => exact .function rfl rfl (opens_renaming hb hbase)
  | closure hs hf =>
    subst hs
    cases hf with
    | fn hb => exact .function rfl rfl (opens_renaming hb nofun)

theorem node_var_renaming (hP : ∀ x c, base.cell? x = some c → P.rel c c)
    (h : s.Relates t₀ P.rel env env' x y) (hbase : s = .substitution → env = base ∧ env' = base) :
    (renamingPairing s P t₀ base).Node s s (.var x) env (.var y) env' := by
  have same : ∀ {x : Name}, (s = .substitution → t₀.knows x = true) →
      ∀ t t', Since s t₀ t ∧ Since s t₀ t' → t.text x = t'.text x := by
    rintro x hk t t' ⟨ht, ht'⟩
    rw [ht.text_eq hk, ht'.text_eq hk]
  cases s with
  | substitution =>
    obtain ⟨rfl, hk⟩ := h
    obtain ⟨rfl, rfl⟩ := hbase rfl
    cases hx : env'.cell? x with
    | none => exact .unbound hx hx (same fun _ => hk)
    | some c => exact .bound hx hx (hP x c hx)
  | dynamic | lexical =>
    cases h with
    | bound hx hy hc => exact .bound hx hy hc
    | unbound hx hy => exact .unbound hx hy (same nofun)

theorem node_letRec_renaming {v w : Expr}
    (hv : Renames (Under x y (s.Relates t₀ P.rel env env')) v w)
    (hb : Renames (Under x y (s.Relates t₀ P.rel env env')) b c)
    (hbase : s = .substitution → env = base ∧ env' = base) :
    (renamingPairing s P t₀ base).Node s s (.letRec x v b) env (.letRec y w c) env' := by
  cases s with
  | substitution =>
    refine .unroll rfl rfl ?_ (opens_renaming hb hbase)
    rintro t t' ⟨ht, ht'⟩
    have hr := Renames.letRec hv (.var .here)
    exact ⟨⟨renames_substitute ht.consistent ht'.consistent hv hr, hbase⟩,
      ht.substitute x _ v, ht'.substitute y _ w⟩
  | dynamic | lexical =>
    refine .letRec (by simp) (by simp) ?_
    intro p q m n hc
    exact ⟨⟨renames_bind hv hc, nofun⟩, ⟨renames_bind hb hc, nofun⟩⟩

def upToNames (hs : s ≠ .dynamic) (P : CellPairing) (t₀ : NameTable) (base : Environment)
    (hP : ∀ x c, base.cell? x = some c → P.rel c c) : Correspondence s s .indistinct where
  toPairing := renamingPairing s P t₀ base
  node {e env e' env'} hc := by
    obtain ⟨h, hbase⟩ := hc
    cases h with
    | var h => exact node_var_renaming hP h hbase
    | int | float | bool => exact .literal rfl
    | raise => exact .raise
    | unassigned => exact .unassigned
    | unary he => exact .unary ⟨he, hbase⟩
    | binary hl hr => exact .binary ⟨hl, hbase⟩ ⟨hr, hbase⟩
    | cond he hy hn => exact .cond ⟨he, hbase⟩ ⟨hy, hbase⟩ ⟨hn, hbase⟩
    | app hf ha => exact .app ⟨hf, hbase⟩ ⟨ha, hbase⟩ fun v w hv => calls_renaming hv hbase
    | fn hb =>
      refine .fn ?_
      cases s with
      | substitution => exact .function rfl (.fn hb)
      | dynamic => exact absurd rfl hs
      | lexical => exact .closure rfl (.fn hb)
    | letIn hv hb => exact .letIn ⟨hv, hbase⟩ (opens_renaming hb hbase)
    | letRec hv hb => exact node_letRec_renaming hv hb hbase
  like hv := by
    cases hv with
    | plain _ => exact .same _
    | function _ _ => exact .function
    | closure _ _ => exact .closure
  literal hl := .plain (.inl hl)
  placeholder := .plain (.inr rfl)
  distinct := P.distinct

end Correspondence

/-- The same literal, functions with the same nameless form, or closures. -/
inductive Value.SameUpToNames : Value → Value → Prop
  | literal {l : Expr} : l.isLiteral = true → SameUpToNames (.plain l) (.plain l)
  | function {x y : Name} {b c : Expr} : (Expr.fn x b).nameless = (Expr.fn y c).nameless →
    SameUpToNames (.plain (.fn x b)) (.plain (.fn y c))
  | closure (f g : Lambda) (scope scope' : Environment) :
    SameUpToNames (.closure f scope) (.closure g scope')

theorem Renamed.sameUpToNames (h : Renamed s t₀ cell w w') (hw : w ≠ .unassigned) :
    w.SameUpToNames w' := by
  cases h with
  | plain hl =>
    rcases hl with hl | rfl
    · exact .literal hl
    · exact absurd rfl hw
  | function _ h => exact .function (h.nameless_eq fun _ _ h => h.1)
  | closure _ _ => exact .closure _ _ _ _

/--
Two evaluations in one environment of literals correspond, the second one in a state that others
may have left: it has come by cells, and under substitution by names.
-/
structure Rerun (s : Discipline) (e e' : Expr) (env : Environment) (σ τ : State) extends
    Correspondence s s .indistinct where
  start : code e env e' env
  states : toPairing.States σ τ
  result : ∀ {v w : Value}, value v w → v.Finished s → v.SameUpToNames w
  since : ∀ {t t' : NameTable}, names t t' → Since s σ.names t'

namespace Rerun

variable {σ τ : State}

theorem runsAlike (R : Rerun s e e' env σ τ) (hb : LiteralEnv σ.heap env) :
    RunsAlike Value.SameUpToNames Eq s e env σ s e' env τ := by
  refine R.toCorrespondence.runsAlike R.start R.states ?_
  intro d v w σ' τ' hv _ hvw
  exact R.result hvw (Discipline.proper_of_eval hb.properEnv hv).1

def upToNames (hs : s ≠ .dynamic) (he : e.nameless = e'.nameless)
    (hk : ∀ x, FreeIn x e → σ.names.knows x = true) (hb : LiteralEnv σ.heap env)
    (hx : τ.heap.Extends σ.heap) (hσ : σ.names.Consistent) (hn : Since s σ.names τ.names) :
    Rerun s e e' env σ τ where
  toCorrespondence := Correspondence.upToNames hs (CellPairing.next hb hx) σ.names env
    fun _ _ hc => .bound (Environment.mem_of_cell? hc)
  start := by
    refine ⟨(renames_of_nameless_eq he).mono ?_, fun _ => ⟨rfl, rfl⟩⟩
    rintro x _ hf rfl
    cases s with
    | substitution => exact ⟨rfl, hk x hf⟩
    | dynamic | lexical => exact .of_cell?_eq rfl fun c hc => .bound (Environment.mem_of_cell? hc)
  states := Concordance.states_next (fun _ _ => .rfl) hb hx ⟨.refl s hσ, hn⟩
  result hvw hv := hvw.sameUpToNames hv.ne_unassigned
  since hn := hn.2

end Rerun

namespace Discipline

variable {σ : State}

/--
Under substitution and under lexical scoping, expressions with the same nameless form run alike in
an environment of literals, if the name table knows the free names: they come to the same literal,
to functions, to the same error, or to no end both. Functions in which values have been put for
names have again the same nameless form.
-/
theorem runsAlike_of_nameless_eq (hs : s ≠ .dynamic) (hσ : σ.names.Consistent)
    (he : e.nameless = e'.nameless) (hk : ∀ x, FreeIn x e → σ.names.knows x = true)
    (hb : LiteralEnv σ.heap env) : RunsAlike Value.SameUpToNames Eq s e env σ s e' env σ :=
  (Rerun.upToNames hs he hk hb (.refl _) hσ (.refl s hσ)).runsAlike hb

/-- A recursive function, and the same one with the names of function and parameter exchanged. -/
theorem runsAlike_of_nameless_eq_letRec :
    let names := ["x", "f", "n"].foldl (fun t s => (t.intern s).2) NameTable.initial
    let x : Name := ⟨13⟩
    let f : Name := ⟨14⟩
    let n : Name := ⟨15⟩
    let recursive (f n : Name) : Expr :=
      .letRec f (.fn n (.cond (.var n) (.fn f (.var x)) (.app (.var f) (.bool true))))
        (.app (.var f) (.bool false))
    let env : Environment := ⟨0, [(x, ⟨0⟩)]⟩
    let σ : State := ⟨names, ⟨#[.plain (.int 5)], 1⟩⟩
    RunsAlike Value.SameUpToNames Eq substitution (recursive f n) env σ
        substitution (recursive n f) env σ ∧
      RunsAlike Value.SameUpToNames Eq lexical (recursive f n) env σ
        lexical (recursive n f) env σ := by
  intro names x f n recursive env σ
  have hk : ∀ y, FreeIn y (recursive f n) → σ.names.knows y = true := by
    intro y hy
    simp only [recursive, FreeIn] at hy
    obtain rfl : y = x := by grind
    decide +kernel
  have hb : LiteralEnv σ.heap env := by
    intro b hb
    rw [List.mem_singleton.1 hb]
    exact ⟨.int 5, rfl, rfl⟩
  have hσ : σ.names.Consistent := NameTable.consistent_initial.foldl_intern _
  exact ⟨runsAlike_of_nameless_eq (by simp) hσ rfl hk hb,
    runsAlike_of_nameless_eq (by simp) hσ rfl hk hb⟩

end Discipline

end LetCalculus
