import LetCalculus.Proofs.Agreement.Unfolding
import LetCalculus.Proofs.Evaluation.Unlimited

/-!
# Substitution and lexical scoping agree

Substitution rewrites the text of a program while it is evaluated; lexical scoping leaves the text
alone and keeps environments. If every recursive definition defines a function literal, the two
come to the same (`Discipline.substitution_agrees_lexical`).

The evaluation of an unfolding follows that of the expression in its environment: the values
embody each other, the states stay `Parallel`, and alike errors turn up in the same places. Only
the depths differ. The name of a recursive function is looked up at once, but its definition is
unrolled first, and that takes one level more (`follows_var`). So substitution ends where lexical
scoping does if it is given one level more, and lexical scoping ends where substitution does if it
is given as much. One induction on the depth proves both: `ahead` says which of the two is given
enough, so that only the other one may be exhausted.
-/

namespace LetCalculus

open LetCalculus.Expr LetCalculus.Discipline

/--
The state of substitution and that of lexical scoping, after a common start: the one has only
come by names, and the other only by cells and values.
-/
structure Parallel (σ₀ σ τ : State) : Prop where
  consistent : σ.names.Consistent
  known : σ.names.Extends σ₀.names
  heap : σ.heap = σ₀.heap
  names : τ.names = σ₀.names
  grows : σ₀.heap.Grows τ.heap

/--
How the outcome of substitution follows that of lexical scoping, from a heap on that only grows.
If substitution is `ahead`, lexical scoping may be exhausted, and otherwise substitution may.
-/
inductive Follows (σ₀ : State) (base : Environment) (ahead : Bool) (h : Heap) :
    Machine.Final → Machine.Final → Prop
  | value {v w : Value} {σ τ : State} : Parallel σ₀ σ τ → h.Grows τ.heap →
    Embodies σ₀.names base τ.heap v w → Follows σ₀ base ahead h (.ok v σ) (.ok w τ)
  | error {x y : EvalError} {σ τ : State} : x.Like y →
    Follows σ₀ base ahead h (.error (.failed x) σ) (.error (.failed y) τ)
  | early {r : Machine.Final} {τ : State} : ahead = true →
    Follows σ₀ base ahead h r (.error .exhausted τ)
  | late {r : Machine.Final} {σ : State} : ahead = false →
    Follows σ₀ base ahead h (.error .exhausted σ) r

variable {σ₀ σ τ : State} {base env : Environment} {ahead : Bool} {h h' : Heap} {v w : Value}
  {d d' : Nat} {a : Expr} {n : Nameless}

namespace Parallel

theorem refl (h : σ₀.names.Consistent) : Parallel σ₀ σ₀ σ₀ := ⟨h, .refl _, rfl, rfl, .refl _⟩

theorem substitute (hp : Parallel σ₀ σ τ) (x : Name) (r e : Expr) :
    Parallel σ₀ (σ.substitute x r e).2 τ := by
  have hs := substituted_substitute x r e σ.names
  exact ⟨hs.consistent hp.consistent, hs.extends.trans hp.known, hp.heap, hp.names, hp.grows⟩

theorem grow (hp : Parallel σ₀ σ τ) {τ' : State} (hn : τ'.names = τ.names)
    (hg : τ.heap.Grows τ'.heap) : Parallel σ₀ σ τ' :=
  ⟨hp.consistent, hp.known, hp.heap, hn.trans hp.names, hp.grows.trans hg⟩

end Parallel

namespace Follows

theorem of_grows {r r' : Machine.Final} (hf : Follows σ₀ base ahead h' r r') (hg : h.Grows h') :
    Follows σ₀ base ahead h r r' := by
  cases hf with
  | value hp hg' hv => exact .value hp (hg.trans hg') hv
  | error hx => exact .error hx
  | early ha => exact .early ha
  | late ha => exact .late ha

theorem bind {m m' : EvalM Value} {f f' : Value → EvalM Value}
    (hm : Follows σ₀ base ahead h (m σ) (m' τ))
    (hf : ∀ {v w σ τ}, Parallel σ₀ σ τ → h.Grows τ.heap → Embodies σ₀.names base τ.heap v w →
      Follows σ₀ base ahead τ.heap (f v σ) (f' w τ)) :
    Follows σ₀ base ahead h ((m >>= f) σ) ((m' >>= f') τ) := by
  simp only [Bind.bind, EStateM.bind]
  generalize m σ = r at hm
  generalize m' τ = r' at hm
  cases hm with
  | value hp hg hv => exact (hf hp hg hv).of_grows hg
  | error hx => exact .error hx
  | early ha => exact .early ha
  | late ha => exact .late ha

theorem ofExcept {r r' : Except EvalError Value} (hr : LikeResult r r') (hp : Parallel σ₀ σ τ) :
    Follows σ₀ base ahead τ.heap (EvalM.ofExcept r σ) (EvalM.ofExcept r' τ) := by
  cases hr with
  | literal hl => exact .value hp (.refl _) (.literal hl)
  | error hx => exact .error hx

end Follows

/-- At the given depths, the evaluation of an unfolding follows that of an expression. -/
def Simulates (σ₀ : State) (base : Environment) (ahead : Bool) (d d' : Nat) : Prop :=
  ∀ {a e : Expr} {env : Environment} {σ τ : State},
    Unfolds σ₀.names base τ.heap [] env a.nameless e → Parallel σ₀ σ τ →
    Follows σ₀ base ahead τ.heap (substitution.eval d a base σ) (lexical.eval d' e env τ)

theorem Simulates.enter (ih : Simulates σ₀ base ahead d d') {x y : Name} {b b' : Expr}
    (hb : Unfolds σ₀.names base τ.heap [y] env (b.namelessIn [x]) b') (hp : Parallel σ₀ σ τ)
    (hv : Embodies σ₀.names base τ.heap v w) :
    Follows σ₀ base ahead τ.heap (substitution.enter (substitution.eval d) x v b base σ)
      (lexical.enter (lexical.eval d') y w b' env τ) := by
  obtain ⟨c, hc, hn, hr, hg⟩ := τ.define_spec env y w
  have hb := (hb.grows hg).entered hp.consistent (hv.grows hg) hc hr
  exact (ih hb ((hp.substitute x v.toExpr b).grow hn hg)).of_grows hg

/--
Substitution is given more depth than lexical scoping when it is ahead, and no more otherwise. A
recursive function that names itself is unrolled one level deeper than a variable is looked up.
-/
def Paced (ahead : Bool) (d d' : Nat) : Prop := if ahead then d' < d else d ≤ d'

theorem Paced.succ (hd : Paced ahead (d + 1) (d' + 1)) : Paced ahead d d' := by
  cases ahead <;> simpa [Paced] using hd

theorem Paced.late (hd : Paced ahead 0 d') : ahead = false := by
  cases ahead <;> simp [Paced] at hd ⊢

theorem Paced.early (hd : Paced ahead (d + 1) 0) : ahead = true := by
  cases ahead <;> simp [Paced] at hd ⊢

/-! ### What becomes of literals and of recursive functions -/

theorem eq_of_nameless_eq_literal {a l : Expr} (hl : l.isLiteral = true)
    (h : a.nameless = l.nameless) : a = l := by
  have ha := layer_nameless a
  rw [h] at ha
  cases l with
  | int n | float a | bool b => cases ha; rfl
  | _ => cases hl

theorem eval_var (s : Discipline) (d : Nat) (x : Name) (env : Environment) (σ : State) :
    s.eval (d + 1) (.var x) env σ = EvalM.ofExcept (σ.fetch env x) σ := rfl

/-- Unrolled once, a recursive function is a function with its definition for its name. -/
theorem exists_unroll (hσ : σ.names.Consistent) {x : Name} {v : Expr} {n : Nameless}
    (hv : v.namelessIn [x] = .fn n) :
    ∃ y b, unroll σ x v = (.fn y b, (σ.substitute x (.letRec x v (.var x)) v).2) ∧
      (Expr.fn y b).nameless = Nameless.opened 0 (.letRec (.fn n) (.bound 0)) (.fn n) := by
  have hn := nameless_substitute_eq_opened hσ x (.letRec x v (.var x)) v
  have hr : (Expr.letRec x v (.var x)).nameless = .letRec (.fn n) (.bound 0) := by
    rw [nameless, namelessIn, hv, namelessIn, resolve_cons_self]
  rw [hr, hv] at hn
  obtain ⟨y, b, hb, -⟩ := exists_fn_of_nameless_eq hn
  exact ⟨y, b, Prod.ext hb rfl, hb ▸ hn⟩

theorem eval_letRec_substitution {x : Name} {v b : Expr} {y : Name} {c : Expr} {σ' : State}
    (hu : unroll σ x v = (.fn y c, σ')) (d : Nat) (env : Environment) :
    substitution.eval (d + 2) (.letRec x v b) env σ =
      substitution.enter (substitution.eval (d + 1)) x (.plain (.fn y c)) b env σ' := by
  show (substitution.eval (d + 1) (unroll σ x v).1 env >>= fun a =>
    substitution.enter (substitution.eval (d + 1)) x a b env) (unroll σ x v).2 = _
  rw [hu]
  rfl

theorem enter_var (d : Nat) (x y : Name) (c : Expr) (env : Environment) (σ : State) :
    substitution.enter (substitution.eval (d + 1)) x (.plain (.fn y c)) (.var x) env σ =
      .ok (.plain (.fn y c)) σ := by
  have hs : σ.substitute x (.fn y c) (.var x) = (.fn y c, σ) := by
    rw [State.substitute, substitute_var, if_pos rfl]
  show substitution.eval (d + 1) (σ.substitute x (.fn y c) (.var x)).1 env
    (σ.substitute x (.fn y c) (.var x)).2 = _
  rw [hs]
  rfl

theorem eval_letRec_lexical (d : Nat) (x y : Name) (c b : Expr) (env : Environment) (τ : State) :
    lexical.eval (d + 2) (.letRec x (.fn y c) b) env τ =
      let p := τ.declare env x
      lexical.eval (d + 1) b p.1.2 (p.2.assign p.1.1 (.closure ⟨y, c⟩ p.1.2)) := rfl

/-! ### The simulation -/

/-- The look-up of a name is followed by the evaluation of whatever the name unfolds to. -/
theorem follows_var (hbase : LiteralEnv σ₀.heap base) (hd : Paced ahead d d') (hn : a.nameless = n)
    {x : Name} (hu : Unfolds σ₀.names base τ.heap [] env n (.var x)) (hp : Parallel σ₀ σ τ) :
    Follows σ₀ base ahead τ.heap (substitution.eval (d + 1) a base σ)
      (lexical.eval (d' + 1) (.var x) env τ) := by
  rw [eval_var]
  cases hu with
  | bound hi => exact absurd (lt_length_of_resolve hi) (Nat.not_lt_zero _)
  | free _ hb hk =>
    have ha := layer_nameless a
    rw [hn] at ha
    cases ha
    rw [eval_var]
    refine .ofExcept ?_ hp
    cases hc : base.cell? x with
    | none =>
      have ht : σ.names.text x = τ.names.text x := by
        rw [hp.names, (hp.known x hk).2]
      simp only [State.fetch, Heap.lookup?, hb, hc, Option.map_none, ht]
      exact .error (.same _)
    | some c =>
      obtain ⟨l, hl, hr⟩ := hbase _ (Environment.mem_of_cell? hc)
      have hu := Value.isUnassigned_of_isLiteral hl
      have hr' := (hp.grows c (hr ▸ Value.ne_unassigned_of_isLiteral hl)).trans hr
      rw [State.fetch_of_read hc (hp.heap ▸ hr) hu, State.fetch_of_read (hb.trans hc) hr' hu]
      exact .literal hl
  | value _ hc hr hl =>
    obtain rfl := eq_of_nameless_eq_literal hl hn
    rw [substitution.eval_of_isLiteral hl,
      State.fetch_of_read hc hr (Value.isUnassigned_of_isLiteral hl)]
    exact .value hp (.refl _) (.literal hl)
  | function _ hc hr hf =>
    rw [State.fetch_of_read hc hr rfl]
    obtain ⟨m, rfl, hb⟩ := hf.exists_body
    obtain ⟨y, b, rfl, rfl⟩ := exists_fn_of_nameless_eq hn
    exact .value hp (.refl _) (.function (.fn hb))
  | recursive _ hc hr hy hf =>
    rw [State.fetch_of_read hc hr rfl]
    obtain ⟨z, v, b, rfl, hv, hb⟩ := exists_letRec_of_nameless_eq hn
    obtain rfl := eq_var_of_namelessIn_eq_bound hb
    obtain ⟨m, rfl, -⟩ := hf.exists_body
    obtain ⟨y, b, hl, hm⟩ := exists_unroll hp.consistent hv
    -- Here substitution needs the additional level: at none it is exhausted while unrolling.
    cases d with
    | zero => exact .late hd.late
    | succ d =>
      have hf := hf.unrolled hr hy
      rw [← hm] at hf
      rw [eval_letRec_substitution hl, enter_var]
      exact .value (hp.substitute z _ v) (.refl _) (.function hf)

theorem follows_letRec (ih : Simulates σ₀ base ahead d d') (hd : Paced ahead d d')
    (hn : a.nameless = n) {x : Name} {v' b' : Expr}
    (hu : Unfolds σ₀.names base τ.heap [] env n (.letRec x v' b')) (hp : Parallel σ₀ σ τ) :
    Follows σ₀ base ahead τ.heap (substitution.eval (d + 1) a base σ)
      (lexical.eval (d' + 1) (.letRec x v' b') env τ) := by
  cases hu with
  | @letRec _ _ _ _ _ y c _ hf hb =>
    obtain ⟨z, v, b, rfl, hv, rfl⟩ := exists_letRec_of_nameless_eq hn
    obtain ⟨m, rfl, -⟩ := hf.exists_body
    obtain ⟨z', b', hl, hm⟩ := exists_unroll hp.consistent hv
    cases d with
    | zero => exact .late hd.late
    | succ d =>
      cases d' with
      | zero => exact .early hd.early
      | succ d' =>
        -- A function literal needs no value of its own name, so no code runs before its closure is
        -- assigned, and the environment of the closure unfolds only from then on.
        obtain ⟨hc, hs, hr, hg⟩ :=
          τ.assign_declare_spec env x (.closure ⟨y, c⟩ (τ.declare env x).1.2)
        have hp := hp.substitute z (.letRec z v (.var z)) v
        have hf := ((hf.grows hg).bind hc).unrolled hr hc.self
        rw [← hm] at hf
        have hb := (hb.grows hg).entered hp.consistent (.function hf) hc hr
        rw [eval_letRec_substitution hl, eval_letRec_lexical]
        exact (ih hb ((hp.substitute z _ b).grow hs hg)).of_grows hg

theorem follows_app (ih : Simulates σ₀ base ahead d d') (ha : Layer a n) {f' e' : Expr}
    (hu : Unfolds σ₀.names base τ.heap [] env n (.app f' e')) (hp : Parallel σ₀ σ τ) :
    Follows σ₀ base ahead τ.heap (substitution.eval (d + 1) a base σ)
      (lexical.eval (d' + 1) (.app f' e') env τ) := by
  cases hu with
  | app hf he =>
    cases ha with
    | app f e =>
      refine (ih hf hp).bind ?_
      intro v w σ τ' hp hg hv
      cases hv with
      | @literal l hl =>
        cases l with
        | int n | float x | bool c => exact .error (.same _)
        | _ => cases hl
      | function hb =>
        obtain ⟨m, hm, hb⟩ := hb.exists_body
        cases hm
        refine (ih (he.grows hg) hp).bind ?_
        intro v w σ τ'' hp hg' hv
        exact ih.enter (hb.grows hg') hp hv

theorem Simulates.node (hbase : LiteralEnv σ₀.heap base) (hd : Paced ahead d d')
    (ih : Simulates σ₀ base ahead d d') : Simulates σ₀ base ahead (d + 1) (d' + 1) := by
  intro a e env σ τ hu hp
  have ha := layer_nameless a
  generalize hn : a.nameless = n at hu ha
  cases e with
  | var x => exact follows_var hbase hd hn hu hp
  | letRec x v b => exact follows_letRec ih hd hn hu hp
  | app f e => exact follows_app ih ha hu hp
  | int _ | float _ | bool _ =>
    cases hu
    cases ha
    exact .value hp (.refl _) (.literal rfl)
  | raise | unassigned =>
    cases hu
    cases ha
    exact .error (.same _)
  | unary op e =>
    cases hu with
    | unary he =>
      cases ha
      refine (ih he hp).bind ?_
      intro v w σ τ' hp _ hv
      exact .ofExcept (op.likeResult_apply hv.like) hp
  | binary op e e' =>
    cases hu with
    | binary he he' =>
      cases ha
      refine (ih he hp).bind ?_
      intro v w σ τ' hp hg hv
      refine (ih (he'.grows hg) hp).bind ?_
      intro v' w' σ τ'' hp _ hv'
      exact .ofExcept (op.likeResult_apply hv.like hv'.like) hp
  | cond e y z =>
    cases hu with
    | cond he hy hz =>
      cases ha
      refine (ih he hp).bind ?_
      intro v w σ τ' hp hg hv
      simp only [hv.like.truth?]
      cases w.truth? with
      | none => exact .error (hv.like.likeError _)
      | some c =>
        cases c
        · exact ih (hz.grows hg) hp
        · exact ih (hy.grows hg) hp
  | fn x b =>
    obtain ⟨m, rfl, hb⟩ := hu.exists_body
    obtain ⟨y, c, rfl, rfl⟩ := exists_fn_of_nameless_eq hn
    exact .value hp (.refl _) (.function (.fn hb))
  | letIn x v b =>
    cases hu with
    | letIn hv hb =>
      cases ha
      refine (ih hv hp).bind ?_
      intro w w' σ τ' hp hg hw
      exact ih.enter (hb.grows hg) hp hw

theorem simulates (hbase : LiteralEnv σ₀.heap base) (hd : Paced ahead d d') :
    Simulates σ₀ base ahead d d' := by
  induction d' generalizing d with
  | zero =>
    intro a e env σ τ _ _
    cases d with
    | zero => exact .late hd.late
    | succ d => exact .early hd.early
  | succ d' ih =>
    cases d with
    | zero => exact fun _ _ => .late hd.late
    | succ d => exact Simulates.node hbase hd.succ (ih hd.succ)

theorem Follows.likeOutcome {r r' : Machine.Final} (hf : Follows σ₀ base ahead h r r')
    (hr : if ahead then Ended r' else Ended r) : LikeOutcome r r' := by
  cases hf with
  | value _ _ hv => exact .value hv.like
  | error hx => exact .error hx
  | early ha =>
    rw [if_pos ha] at hr
    exact hr.elim
  | late ha =>
    subst ha
    exact hr.elim

theorem LikeOutcome.ended {r r' : Machine.Final} (h : LikeOutcome r r') : Ended r ∧ Ended r' := by
  cases h <;> exact ⟨trivial, trivial⟩

namespace Discipline

variable {e : Expr} {r : Machine.Final}

/-- What evaluation by substitution comes to, lexical scoping comes to at the same depth. -/
theorem Evaluates.exists_lexical (hσ : σ.names.Consistent) (hb : LiteralEnv σ.heap base)
    (hu : Unfolds σ.names base σ.heap [] base e.nameless e)
    (h : substitution.Evaluates e base σ r) :
    ∃ r', lexical.Evaluates e base σ r' ∧ LikeOutcome r r' := by
  obtain ⟨hn, d, rfl⟩ := h.finishes
  have hd : Paced false d d := Nat.le_refl d
  have hf := (simulates hb hd hu (.refl hσ)).likeOutcome hn
  exact ⟨_, evaluates_eval hf.ended.2, hf⟩

/-- What lexical scoping comes to, evaluation by substitution comes to one level deeper. -/
theorem Evaluates.exists_substitution (hσ : σ.names.Consistent) (hb : LiteralEnv σ.heap base)
    (hu : Unfolds σ.names base σ.heap [] base e.nameless e) (h : lexical.Evaluates e base σ r) :
    ∃ r', substitution.Evaluates e base σ r' ∧ LikeOutcome r' r := by
  obtain ⟨hn, d, rfl⟩ := h.finishes
  have hd : Paced true (d + 1) d := Nat.lt_succ_self d
  have hf := (simulates hb hd hu (.refl hσ)).likeOutcome hn
  exact ⟨_, evaluates_eval hf.ended.1, hf⟩

/--
Substitution and lexical scoping agree on expressions in which recursive definitions define
function literals, in environments of literals, if the name table knows the free names: either
both evaluations end, with the same literal, with functions or with alike errors, or none of them
does.
-/
theorem substitution_agrees_lexical (hσ : σ.names.Consistent) (he : e.RecursiveFunctions)
    (hk : ∀ x, FreeIn x e → σ.names.knows x = true) (hb : LiteralEnv σ.heap base) :
    ((∃ r, substitution.Evaluates e base σ r) ↔ ∃ r, lexical.Evaluates e base σ r) ∧
      ∀ r r', substitution.Evaluates e base σ r → lexical.Evaluates e base σ r' →
        LikeOutcome r r' := by
  have hu : Unfolds σ.names base σ.heap [] base e.nameless e :=
    unfolds_namelessIn base he fun x hx _ => hk x hx
  refine ⟨?_, ?_⟩
  · constructor
    · rintro ⟨r, h⟩
      obtain ⟨r', h', -⟩ := h.exists_lexical hσ hb hu
      exact ⟨r', h'⟩
    · rintro ⟨r, h⟩
      obtain ⟨r', h', -⟩ := h.exists_substitution hσ hb hu
      exact ⟨r', h'⟩
  · intro r r' h h'
    obtain ⟨r'', h'', hl⟩ := h.exists_lexical hσ hb hu
    rwa [h'.unique h'']

/-- A recursive function that calls itself and looks up a name of the environment. -/
theorem substitution_agrees_lexical_letRec :
    let names := ["x", "f", "n"].foldl (fun t s => (t.intern s).2) NameTable.initial
    let x : Name := ⟨13⟩
    let f : Name := ⟨14⟩
    let n : Name := ⟨15⟩
    let body : Expr := .cond (.var n) (.var x) (.app (.var f) (.bool true))
    let e : Expr := .letRec f (.fn n body) (.app (.var f) (.bool false))
    let env : Environment := ⟨0, [(x, ⟨0⟩)]⟩
    let σ : State := ⟨names, ⟨#[.plain (.int 5)], 1⟩⟩
    ∃ r r', substitution.Evaluates e env σ r ∧ lexical.Evaluates e env σ r' ∧ LikeOutcome r r' := by
  intro names x f n body e env σ
  have hk : ∀ y, FreeIn y e → σ.names.knows y = true := by
    intro y hy
    simp only [e, body, FreeIn] at hy
    obtain rfl : y = x := by grind
    decide +kernel
  have hb : LiteralEnv σ.heap env := by
    intro b hb
    rw [List.mem_singleton.1 hb]
    exact ⟨.int 5, rfl, rfl⟩
  have he : e.RecursiveFunctions := ⟨rfl, ⟨trivial, trivial, trivial, trivial⟩, trivial, trivial⟩
  have h := substitution_agrees_lexical (NameTable.consistent_initial.foldl_intern _) he hk hb
  have hl : lexical.Evaluates e env σ (lexical.eval 6 e env σ) := evaluates_eval trivial
  obtain ⟨r, hr⟩ := h.1.2 ⟨_, hl⟩
  exact ⟨r, _, hr, hl, h.2 _ _ hr hl⟩

end Discipline

end LetCalculus
