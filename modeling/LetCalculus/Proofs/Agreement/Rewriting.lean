import LetCalculus.Proofs.Agreement.Sequence

/-!
# Rewriting definitions

A definition may be written with other constructs that run as it does. A `Rewriting` exchanges
definitions in this way everywhere in an expression, also in the bodies of functions, so the
functions that the two evaluations come to differ in the same way. What is asked of a rewriting
concerns one node at a time. Whatever goes together with the rewritten expression goes together
with the given one (`Rewriting.node_after`), and so the two run alike
(`Rewriting.runsAlike_of_ne`, `Rewriting.runsAlike_substitution`).

Under substitution values are put into a text that has been rewritten or is yet to be. This must
make no difference to the nameless form.
-/

namespace LetCalculus

open LetCalculus.Expr LetCalculus.Discipline

namespace Expr

def mapParts (f : Expr → Expr) : Expr → Expr
  | var x => var x
  | int n => int n
  | float a => float a
  | bool b => bool b
  | raise => raise
  | unassigned => unassigned
  | unary op e => unary op (f e)
  | binary op l r => binary op (f l) (f r)
  | cond c y n => cond (f c) (f y) (f n)
  | fn x b => fn x (f b)
  | letIn x v b => letIn x (f v) (f b)
  | letRec x v b => letRec x (f v) (f b)
  | app g a => app (f g) (f a)

def isDefinition : Expr → Bool
  | letIn .. | letRec .. => true
  | _ => false

end Expr

/--
A way to write definitions differently: `head` exchanges the outermost construct of an expression
for one that runs as it does, and `apply` does so throughout.
-/
structure Rewriting (s : Discipline) where
  apply : Expr → Expr
  head : Expr → Expr
  apply_eq : ∀ e, apply e = (head e).mapParts apply
  head_eq : ∀ {e : Expr}, e.isDefinition = false → head e = e
  runsAs : ∀ e env, s.RunsAs e (head e) env

/-- The same literal, or a function and what has become of it, up to the names of binders. -/
inductive Value.RewrittenBy (rewrite : Expr → Expr) : Value → Value → Prop
  | literal {l : Expr} : l.isLiteral = true → RewrittenBy rewrite (.plain l) (.plain l)
  | function {x y : Name} {b c : Expr} :
    (rewrite (.fn x b)).nameless = (Expr.fn y c).nameless →
    RewrittenBy rewrite (.plain (.fn x b)) (.plain (.fn y c))
  | closure {f g : Lambda} {scope scope' : Environment} :
    (rewrite f.toExpr).nameless = g.toExpr.nameless →
    RewrittenBy rewrite (.closure f scope) (.closure g scope')

variable {s : Discipline} {e e' b c : Expr} {env env' : Environment} {x y : Name} {v w : Value}
  {σ : State}

/-! ### Values -/

theorem SameCode.rewrittenBy {cell : Cell → Cell → Prop} (h : SameCode s cell v w)
    (hv : v.Finished s) : v.RewrittenBy id w := by
  cases h with
  | plain e =>
    rcases Value.finished_plain_iff.1 hv with hl | ⟨-, x, b, rfl⟩
    · exact .literal hl
    · exact .function rfl
  | closure _ => exact .closure rfl

theorem Value.SameUpToNames.rewrittenBy (h : v.SameUpToNames w) (hv : v.Finished .substitution) :
    v.RewrittenBy id w := by
  cases h with
  | literal hl => exact .literal hl
  | function hn => exact .function hn
  | closure => cases hv

theorem Discipline.finished_closeOver (s : Discipline) (f : Lambda) (env : Environment) :
    (s.closeOver f env).Finished s := by
  cases s <;> simp [closeOver, Value.Finished, Lambda.toExpr]

theorem Discipline.indistinct_closeOver (s : Discipline) (f g : Lambda) (env env' : Environment) :
    (s.closeOver f env).Indistinct (s.closeOver g env') := by
  cases s
  · exact .function
  · exact .function
  · exact .closure

namespace Rewriting

variable (R : Rewriting s)

def lambda (f : Lambda) : Lambda := ⟨f.param, R.apply f.body⟩

theorem apply_of_isLiteral {l : Expr} (hl : l.isLiteral = true ∨ l = .unassigned) :
    R.apply l = l := by
  rcases hl with hl | rfl
  · cases l with
    | int n | float a | bool b => rw [apply_eq, R.head_eq rfl, mapParts]
    | _ => cases hl
  · rw [apply_eq, R.head_eq rfl, mapParts]

theorem apply_toExpr (f : Lambda) : R.apply f.toExpr = (R.lambda f).toExpr := by
  rw [apply_eq, R.head_eq rfl]
  rfl

/-! ### The rewritten expression in the place of the given one -/

/-- What evaluation comes to goes together with whatever it does once it is rewritten. -/
inductive Stands (value : Value → Value → Prop) : Value → Value → Prop
  | plain {l : Expr} {w : Value} : l.isLiteral = true ∨ l = .unassigned → value (.plain l) w →
    Stands value (.plain l) w
  | function {f : Lambda} {env : Environment} {w : Value} :
    value (s.closeOver (R.lambda f) env) w → Stands value (s.closeOver f env) w

variable {R} {value : Value → Value → Prop}

theorem Stands.indistinct (h : R.Stands value v w) (hv : ∀ {v w}, value v w → v.Indistinct w) :
    v.Indistinct w := by
  cases h with
  | plain _ hw => exact hv hw
  | function hw => exact (s.indistinct_closeOver _ _ _ _).trans (hv hw)

theorem Stands.exists_toExpr (h : R.Stands value v w) :
    ∃ u, value u w ∧ u.toExpr = R.apply v.toExpr := by
  cases h with
  | @plain l w hl hw => exact ⟨.plain l, hw, (R.apply_of_isLiteral hl).symm⟩
  | @function f env w hw =>
    refine ⟨_, hw, ?_⟩
    cases s <;> exact (R.apply_toExpr f).symm

theorem Stands.rewrittenBy (h : R.Stands value v w) (hv : v ≠ .unassigned)
    (same : ∀ {v w}, value v w → v.Finished s → v.RewrittenBy id w) : v.RewrittenBy R.apply w := by
  cases h with
  | @plain l w hl hw =>
    have hl : l.isLiteral = true := hl.resolve_right (by rintro rfl; exact hv rfl)
    cases same hw (Value.finished_plain_iff.2 (.inl hl)) with
    | literal hl => exact .literal hl
    | function _ => cases hl
  | @function f env w hw =>
    have hf := congrArg nameless (R.apply_toExpr f)
    have hsame := same hw (s.finished_closeOver _ _)
    cases s with
    | lexical =>
      cases hsame with
      | closure hn => exact .closure (hf.trans hn)
    | substitution | dynamic =>
      cases hsame with
      | literal hl => cases hl
      | function hn => exact .function (hf.trans hn)

variable (R) in
def after (C : Concordance .indistinct) : Concordance .indistinct where
  code e env e' env' := C.code (R.apply e) env e' env'
  value := R.Stands C.value
  cell := C.cell
  names := C.names
  like h := h.indistinct C.like
  literal hl := .plain (.inl hl) (C.literal hl)
  placeholder := .plain (.inr rfl) C.placeholder
  distinct := C.distinct

/--
Whether it makes no difference to what goes together with an expression if it is rewritten before
or after a substitution. The definition of a recursive function is put for its name as it is.
-/
structure Textual (R : Rewriting s) (P : Pairing) : Prop where
  letRec : ∀ x v, R.apply (.letRec x v (.var x)) = .letRec x (R.apply v) (.var x)
  code : ∀ {x : Name} {r b e' : Expr} {env env' : Environment} {t t' : NameTable},
    P.names t t' → P.code (substitute x (R.apply r) (R.apply b) t).1 env e' env' →
    P.code (R.apply (substitute x r b t).1) env e' env'
  names : ∀ {x : Name} {r b r' b' : Expr} {t t' t'' : NameTable}, P.names t t' →
    P.names (substitute x r b t).2 t'' → P.names (substitute x r' b' t).2 t''

variable {C : Concordance .indistinct}

theorem opens_after (ht : s = .substitution → R.Textual C.toPairing)
    (h : C.Opens s s x (R.apply b) env y c env') : (R.after C).Opens s s x b env y c env' := by
  cases h with
  | cell hs hs' h => exact .cell hs hs' h
  | text hs hs' h =>
    have ht := ht hs
    refine .text hs hs' ?_
    intro v w t t' hv hn
    obtain ⟨u, hu, hr⟩ := hv.exists_toExpr
    obtain ⟨hc, hn'⟩ := h u w t t' hu hn
    exact ⟨ht.code hn (hr ▸ hc), ht.names hn hn'⟩

theorem calls_after (ht : s = .substitution → R.Textual C.toPairing) (hv : R.Stands C.value v w)
    (h : ∀ u, C.value u w → C.Calls s s u env w env') : (R.after C).Calls s s v env w env' := by
  cases hv with
  | plain hl hw =>
    cases h _ hw with
    | function hf _ _ =>
      rw [callee?_of_isLiteral hl] at hf
      cases hf
    | other hf hg hr => exact .other hf hg hr
  | function hw =>
    have hcall := h _ hw
    cases hcall with
    | function hf hg ho =>
      rw [callee?_closeOver] at hf
      cases hf
      exact .function (s.callee?_closeOver _ _ _) hg (opens_after ht ho)
    | other hf _ _ =>
      rw [callee?_closeOver] at hf
      cases hf

/-- A node goes together with another one if it does once its parts are rewritten. -/
theorem node_after (ht : s = .substitution → R.Textual C.toPairing)
    (h : C.Node s s (e.mapParts R.apply) env e' env') : (R.after C).Node s s e env e' env' := by
  cases e with
  | var x =>
    cases h with
    | bound hx hy hc => exact .bound hx hy hc
    | unbound hx hy hn => exact .unbound hx hy hn
    | literal hl => cases hl
  | int n | float a | bool b =>
    cases h with
    | literal hl => exact .literal hl
  | raise =>
    cases h with
    | raise => exact .raise
    | literal hl => cases hl
  | unassigned =>
    cases h with
    | unassigned => exact .unassigned
    | literal hl => cases hl
  | unary op e =>
    cases h with
    | unary he => exact .unary he
    | literal hl => cases hl
  | binary op l r =>
    cases h with
    | binary hl hr => exact .binary hl hr
    | literal hl => cases hl
  | cond c y n =>
    cases h with
    | cond hc hy hn => exact .cond hc hy hn
    | literal hl => cases hl
  | fn x b =>
    cases h with
    | fn hf => exact .fn (.function hf)
    | literal hl => cases hl
  | letIn x v b =>
    cases h with
    | letIn hv ho => exact .letIn hv (opens_after ht ho)
    | literal hl => cases hl
  | letRec x v b =>
    cases h with
    | unroll hs hs' hu ho =>
      refine .unroll hs hs' ?_ (opens_after ht ho)
      intro t t' hn
      obtain ⟨hc, hn'⟩ := hu t t' hn
      rw [← (ht hs).letRec] at hc
      exact ⟨(ht hs).code hn hc, (ht hs).names hn hn'⟩
    | letRec hs hs' h => exact .letRec hs hs' h
    | literal hl => cases hl
  | app f a =>
    cases h with
    | app hf ha hcall =>
      refine .app hf ha ?_
      intro v w hv
      exact calls_after ht hv fun u hu => hcall u w hu
    | literal hl => cases hl

/-! ### Running alike -/

theorem runsAlike (C : Correspondence s s .indistinct)
    (ht : s = .substitution → R.Textual C.toPairing) (hc : C.code (R.apply e) env (R.apply e) env)
    (hs : (R.after C.toConcordance).States σ σ) (hb : LiteralEnv σ.heap env)
    (same : ∀ {v w}, C.value v w → v.Finished s → v.RewrittenBy id w) :
    RunsAlike (Value.RewrittenBy R.apply) Eq s e env σ s (R.apply e) env σ := by
  refine (R.after C.toConcordance).runsAlike (Concordance.outcomes _ ?_) hc hs ?_
  · intro e env e' env' hc
    refine ⟨R.head e, R.runsAs e env, node_after ht ?_⟩
    rw [← R.apply_eq]
    exact C.node hc
  · intro d v w σ' τ' hv _ hvw
    exact hvw.rewrittenBy (proper_of_eval hb.properEnv hv).1.ne_unassigned same

theorem runsAlike_of_ne (R : Rewriting s) (hs : s ≠ .substitution) (e : Expr)
    (hb : LiteralEnv σ.heap env) :
    RunsAlike (Value.RewrittenBy R.apply) Eq s e env σ s (R.apply e) env σ := by
  refine runsAlike (.sameCode hs (.next hb (.refl _)) σ.names) (absurd · hs) ⟨rfl, ?_⟩
    (Concordance.states_next (fun _ _ => .rfl) hb (.refl _) ⟨rfl, rfl⟩) hb SameCode.rewrittenBy
  intro x _
  exact .of_cell?_eq rfl fun c hc => .bound (Environment.mem_of_cell? hc)

/-- Under substitution the rewriting must not touch recursive definitions and be textual. -/
theorem runsAlike_substitution (R : Rewriting .substitution)
    (hrec : ∀ x v, R.apply (.letRec x v (.var x)) = .letRec x (R.apply v) (.var x))
    (hsub : ∀ x r b t, t.Consistent → (R.apply (substitute x r b t).1).nameless =
      (substitute x (R.apply r) (R.apply b) t).1.nameless)
    (hσ : σ.names.Consistent) (hk : ∀ x, FreeIn x (R.apply e) → σ.names.knows x = true)
    (hb : LiteralEnv σ.heap env) :
    RunsAlike (Value.RewrittenBy R.apply) Eq .substitution e env σ .substitution (R.apply e) env
      σ := by
  let A := Rerun.upToNames (s := .substitution) (by simp) rfl hk hb (.refl _) hσ (.refl _ hσ)
  refine runsAlike A.toCorrespondence (fun _ => ⟨hrec, ?_, ?_⟩) A.start
    (Concordance.states_next (fun _ _ => .rfl) hb (.refl _) ⟨.refl _ hσ, .refl _ hσ⟩) hb
    fun hvw hv => (A.result hvw hv).rewrittenBy hv
  · rintro x r b e' env env' t t' ⟨ht, -⟩ ⟨hc, hbase⟩
    have hn := hsub x r b t ht.consistent
    refine ⟨(renames_of_nameless_eq (hn.trans (hc.nameless_eq fun _ _ h => h.1))).mono ?_, hbase⟩
    rintro u _ hu rfl
    obtain ⟨_, -, -, hk⟩ := hc.exists_of_freeIn (freeIn_of_nameless_eq hn hu)
    exact ⟨rfl, hk⟩
  · rintro x r b r' b' t t' t'' ⟨ht, -⟩ ⟨-, ht'⟩
    exact ⟨ht.substitute x r' b', ht'⟩

end Rewriting

end LetCalculus
