import LetCalculus.Proofs.Agreement.Correspondence
import LetCalculus.Proofs.Names.Spelling

/-!
# Evaluation over two name tables

Two expressions that differ in names alone are evaluated side by side, each over its own table and
in an environment of the same literals. The two evaluations come to outcomes that no report tells
apart (`only_texts_matter`): names are compared with names, and otherwise only their texts are
ever seen.

What goes together here depends on the tables, and substitution makes these grow. A `Pairing` says
the same of all of a run, so it does not apply: the invariant (`InStep`) is about the tables that
the two runs have come to, and each outcome also says that these came of the tables before
(`Later`). The cells of the two runs go together if they were allocated in the same order, or held
the same literal from the start (`Paired`). Literals need not be shared between cells in the same
way, since no cell that was there from the start is ever written.
-/

namespace LetCalculus

open LetCalculus.Discipline

/-! ### Cells, environments and values -/

/-- Cells that hold the same literal from the start, or that were allocated in the same order. -/
inductive Paired (h h' : Heap) : Cell → Cell → Prop
  | literal {c d : Cell} {l : Expr} : l.isLiteral = true → h.read c = .plain l →
    h'.read d = .plain l → Paired h h' c d
  | next (n : Nat) : Paired h h' ⟨h.cells.size + n⟩ ⟨h'.cells.size + n⟩

/-- Whether environments have paired cells for corresponding names, in the same order. -/
def Environment.Respelled (names : Name → Name → Prop) (cell : Cell → Cell → Prop)
    (env env' : Environment) : Prop :=
  List.Forall₂ (fun b b' => names b.1 b'.1 ∧ cell b.2 b'.2) env.bindings env'.bindings

/-- Whether values differ in names alone, and closures in the cells of their environments. -/
inductive Value.Respelled (names : Name → Name → Prop) (cell : Cell → Cell → Prop) :
    Value → Value → Prop
  | literal {l : Expr} : l.isLiteral = true → Value.Respelled names cell (.plain l) (.plain l)
  | placeholder : Value.Respelled names cell (.plain .unassigned) (.plain .unassigned)
  | function {x y : Name} {b c : Expr} : LetCalculus.Respelled names (.fn x b) (.fn y c) →
    Value.Respelled names cell (.plain (.fn x b)) (.plain (.fn y c))
  | closure {f g : Lambda} {env env' : Environment} :
    LetCalculus.Respelled names f.toExpr g.toExpr → env.Respelled names cell env' →
    Value.Respelled names cell (.closure f env) (.closure g env')

variable {names names' : Name → Name → Prop} {cell : Cell → Cell → Prop} {s : Discipline}
  {h h' : Heap} {t t' t₁ t₁' : NameTable} {σ τ : State} {env env' : Environment} {v w : Value}
  {x x' y : Name} {c d : Cell} {e e' r r' b b' : Expr}

theorem Heap.holds_of_read_literal {l : Expr} (hl : l.isLiteral = true)
    (hc : h.read c = .plain l) : h.Holds c := by
  by_contra hn
  rw [Heap.read_of_not_holds hn] at hc
  exact Value.ne_unassigned_of_isLiteral hl hc.symm

/-- Cells that are allocated at the same time are paired with each other alone. -/
theorem Paired.eq_next_iff (hc : Paired h h' c d) (n : Nat) :
    c = ⟨h.cells.size + n⟩ ↔ d = ⟨h'.cells.size + n⟩ := by
  cases hc with
  | literal hl hr hr' =>
    refine iff_of_false ?_ ?_
    · rintro rfl
      exact absurd (Heap.holds_of_read_literal hl hr) (by simp [Heap.Holds])
    · rintro rfl
      exact absurd (Heap.holds_of_read_literal hl hr') (by simp [Heap.Holds])
  | next m => simp

namespace Environment.Respelled

theorem mono (he : env.Respelled names cell env') (hn : ∀ {x y}, names x y → names' x y) :
    env.Respelled names' cell env' :=
  he.imp fun _ _ hb => ⟨hn hb.1, hb.2⟩

theorem cell? (one : OneToOne names) (he : env.Respelled names cell env') (hx : names x y) :
    Option.Rel cell (env.cell? x) (env'.cell? y) := by
  obtain ⟨_, bs⟩ := env
  obtain ⟨_, bs'⟩ := env'
  simp only [Environment.Respelled, Environment.cell?] at he ⊢
  induction he with
  | nil => exact .none
  | @cons p q _ _ hb _ ih =>
    rw [List.lookup_cons, List.lookup_cons]
    by_cases hp : x = p.1
    · rw [beq_iff_eq.2 hp, beq_iff_eq.2 ((one _ _ _ _ hx hb.1).1 hp)]
      exact .some hb.2
    · rw [beq_false_of_ne hp, beq_false_of_ne (mt (one _ _ _ _ hx hb.1).2 hp)]
      exact ih

theorem bind (one : OneToOne names) (he : env.Respelled names cell env') (hx : names x y)
    (hc : cell c d) (m n : Nat) :
    Environment.Respelled names cell ⟨m, Environment.bind x c env.bindings⟩
      ⟨n, Environment.bind y d env'.bindings⟩ := by
  obtain ⟨_, bs⟩ := env
  obtain ⟨_, bs'⟩ := env'
  simp only [Environment.Respelled] at he ⊢
  induction he with
  | nil => exact .cons ⟨hx, hc⟩ .nil
  | @cons p q _ _ hb hbs ih =>
    simp only [Environment.bind]
    by_cases hp : p.1 = x
    · rw [if_pos hp, if_pos ((one _ _ _ _ hb.1 hx).1 hp)]
      exact .cons ⟨hb.1, hc⟩ hbs
    · rw [if_neg hp, if_neg (mt (one _ _ _ _ hb.1 hx).2 hp)]
      exact .cons hb ih

end Environment.Respelled

namespace Value.Respelled

theorem mono (hv : v.Respelled names cell w) (hn : ∀ {x y}, names x y → names' x y) :
    v.Respelled names' cell w := by
  cases hv with
  | literal hl => exact .literal hl
  | placeholder => exact .placeholder
  | function hf => exact .function (hf.mono hn)
  | closure hf he => exact .closure (hf.mono hn) (he.mono hn)

theorem indistinct (hv : v.Respelled names cell w) : v.Indistinct w := by
  cases hv with
  | literal _ | placeholder => exact .same _
  | function _ => exact .function
  | closure _ _ => exact .closure

theorem toExpr (hv : v.Respelled names cell w) :
    LetCalculus.Respelled names v.toExpr w.toExpr := by
  cases hv with
  | @literal l hl =>
    cases l with
    | int => exact .int
    | float => exact .float
    | bool => exact .bool
    | _ => cases hl
  | placeholder => exact .unassigned
  | function hf => exact hf
  | closure hf _ => exact hf

theorem render_eq (hv : v.Respelled names cell w)
    (hn : ∀ {x y}, names x y → t.text x = t'.text y) : v.render t = w.render t' := by
  have hr := hv.toExpr.render_eq hn
  cases hv with
  | literal _ | placeholder | function _ => exact hr
  | closure _ _ => exact congrArg (fun s => "<" ++ s ++ ">") hr

theorem callee? (hv : v.Respelled names cell w) (he : env.Respelled names cell env') :
    Option.Rel (fun p q => LetCalculus.Respelled names p.1.toExpr q.1.toExpr ∧
      p.2.Respelled names cell q.2) (s.callee? v env) (s.callee? w env') := by
  cases hv with
  | literal hl =>
    rw [callee?_of_isLiteral (.inl hl), callee?_of_isLiteral (.inl hl)]
    exact .none
  | placeholder =>
    rw [callee?_of_isLiteral (.inr rfl), callee?_of_isLiteral (.inr rfl)]
    exact .none
  | function hf =>
    cases s with
    | lexical => exact .none
    | substitution | dynamic => exact .some ⟨hf, he⟩
  | closure hf hscope =>
    cases s with
    | lexical => exact .some ⟨hf, hscope⟩
    | substitution | dynamic => exact .none

end Value.Respelled

theorem Value.respelled_closeOver (s : Discipline)
    (hf : LetCalculus.Respelled names (.fn x b) (.fn y r)) (he : env.Respelled names cell env') :
    (s.closeOver ⟨x, b⟩ env).Respelled names cell (s.closeOver ⟨y, r⟩ env') := by
  cases s with
  | lexical => exact .closure hf he
  | substitution | dynamic => exact .function hf

/-! ### States -/

/-- Two states to which runs from the heaps `h` and `h'` have come. -/
structure InStep (h h' : Heap) (σ τ : State) : Prop where
  consistent : σ.names.Consistent
  consistent' : τ.names.Consistent
  size : ∃ n, σ.heap.cells.size = h.cells.size + n ∧ τ.heap.cells.size = h'.cells.size + n
  read : ∀ c d, Paired h h' c d →
    (σ.heap.read c).Respelled (SameText σ.names τ.names) (Paired h h') (τ.heap.read d)

namespace InStep

theorem initial (ht : t.Consistent) (ht' : t'.Consistent) (h h' : Heap) :
    InStep h h' ⟨t, h⟩ ⟨t', h'⟩ := by
  refine ⟨ht, ht', ⟨0, rfl, rfl⟩, ?_⟩
  intro c d hc
  cases hc with
  | literal hl hr hr' =>
    rw [hr, hr']
    exact .literal hl
  | next n =>
    rw [Heap.read_of_not_holds (by simp [Heap.Holds]),
      Heap.read_of_not_holds (by simp [Heap.Holds])]
    exact .placeholder

theorem one (hs : InStep h h' σ τ) : OneToOne (SameText σ.names τ.names) :=
  oneToOne_sameText hs.consistent hs.consistent'

theorem later (hs : InStep h h' σ τ) : Later σ.names τ.names σ.names τ.names :=
  .refl hs.consistent hs.consistent'

theorem fresh (hs : InStep h h' σ τ) :
    Paired h h' ⟨σ.heap.cells.size⟩ ⟨τ.heap.cells.size⟩ := by
  obtain ⟨n, hn, hn'⟩ := hs.size
  rw [hn, hn']
  exact .next n

theorem holds_iff (hs : InStep h h' σ τ) (hc : Paired h h' c d) :
    σ.heap.Holds c ↔ τ.heap.Holds d := by
  obtain ⟨n, hn, hn'⟩ := hs.size
  simp only [Heap.Holds, hn, hn']
  cases hc with
  | literal hl hr hr' =>
    have hc : c.address < h.cells.size := Heap.holds_of_read_literal hl hr
    have hd : d.address < h'.cells.size := Heap.holds_of_read_literal hl hr'
    omega
  | next m => simp

theorem alloc (hs : InStep h h' σ τ)
    (hv : v.Respelled (SameText σ.names τ.names) (Paired h h') w) :
    InStep h h' { σ with heap := (σ.heap.alloc v).2 } { τ with heap := (τ.heap.alloc w).2 } := by
  obtain ⟨n, hn, hn'⟩ := hs.size
  refine ⟨hs.consistent, hs.consistent', ⟨n + 1, ?_, ?_⟩, ?_⟩
  · simp [Heap.alloc, hn, Nat.add_assoc]
  · simp [Heap.alloc, hn', Nat.add_assoc]
  · intro c d hc
    have hnew := hc.eq_next_iff n
    rw [← hn, ← hn'] at hnew
    by_cases he : c = (σ.heap.alloc v).1
    · rw [he, hnew.1 he]
      exact (Heap.read_alloc_self σ.heap v).symm ▸ (Heap.read_alloc_self τ.heap w).symm ▸ hv
    · rw [Heap.read_alloc_of_ne he, Heap.read_alloc_of_ne (mt hnew.2 he)]
      exact hs.read c d hc

theorem stamp (hs : InStep h h' σ τ) (m n : Nat) :
    InStep h h' { σ with heap := ⟨σ.heap.cells, m⟩ } { τ with heap := ⟨τ.heap.cells, n⟩ } :=
  ⟨hs.consistent, hs.consistent', hs.size, hs.read⟩

theorem assign (hs : InStep h h' σ τ) (n : Nat)
    (hv : v.Respelled (SameText σ.names τ.names) (Paired h h') w) :
    InStep h h' (σ.assign ⟨h.cells.size + n⟩ v) (τ.assign ⟨h'.cells.size + n⟩ w) := by
  obtain ⟨m, hm, hm'⟩ := hs.size
  refine ⟨hs.consistent, hs.consistent', ⟨m, ?_, ?_⟩, ?_⟩
  · simp [State.assign, Heap.write, hm]
  · simp [State.assign, Heap.write, hm']
  · intro c d hc
    simp only [State.assign]
    by_cases he : c = ⟨h.cells.size + n⟩
    · have he' := (hc.eq_next_iff n).1 he
      subst he he'
      by_cases hold : σ.heap.Holds ⟨h.cells.size + n⟩
      · rw [Heap.read_write_self hold, Heap.read_write_self ((hs.holds_iff hc).1 hold)]
        exact hv
      · have hold' := mt (hs.holds_iff hc).2 hold
        rw [Heap.read_of_not_holds (mt (Heap.holds_write v).1 hold),
          Heap.read_of_not_holds (mt (Heap.holds_write w).1 hold')]
        exact .placeholder
    · rw [Heap.read_write_of_ne he, Heap.read_write_of_ne (mt (hc.eq_next_iff n).2 he)]
      exact hs.read c d hc

theorem withNames (hs : InStep h h' σ τ) (hl : Later σ.names τ.names t t') :
    InStep h h' { σ with names := t } { τ with names := t' } :=
  ⟨hl.consistent, hl.consistent', hs.size,
    fun c d hc => (hs.read c d hc).mono fun hx => hx.later hl⟩

end InStep

/-! ### Outcomes -/

/-- Outcomes of runs that have been in step, from tables `t` and `t'` on. -/
inductive Together (h h' : Heap) (t t' : NameTable) : Machine.Final → Machine.Final → Prop
  | value {v w : Value} {σ τ : State} :
    v.Respelled (SameText σ.names τ.names) (Paired h h') w → InStep h h' σ τ →
    Later t t' σ.names τ.names → Together h h' t t' (.ok v σ) (.ok w τ)
  | error {x : EvalError} {σ τ : State} :
    Together h h' t t' (.error (.failed x) σ) (.error (.failed x) τ)
  | exhausted {σ τ : State} : Together h h' t t' (.error .exhausted σ) (.error .exhausted τ)

namespace Together

variable {p q : Machine.Final} {m m' : EvalM Value} {f f' : Value → EvalM Value}

theorem later (hp : Together h h' t₁ t₁' p q) (hl : Later t t' t₁ t₁') :
    Together h h' t t' p q := by
  cases hp with
  | value hv hs hl' => exact .value hv hs (hl.trans hl')
  | error => exact .error
  | exhausted => exact .exhausted

theorem bind (hm : Together h h' t t' (m σ) (m' τ))
    (hf : ∀ {v w σ τ}, v.Respelled (SameText σ.names τ.names) (Paired h h') w →
      InStep h h' σ τ → Later t t' σ.names τ.names →
      Together h h' σ.names τ.names (f v σ) (f' w τ)) :
    Together h h' t t' ((m >>= f) σ) ((m' >>= f') τ) := by
  simp only [Bind.bind, EStateM.bind]
  generalize m σ = p at hm
  generalize m' τ = q at hm
  cases hm with
  | value hv hs hl => exact (hf hv hs hl).later hl
  | error => exact .error
  | exhausted => exact .exhausted

theorem ofExcept {r r' : Except EvalError Value} (hr : AlikeResult Eq r r')
    (hs : InStep h h' σ τ) :
    Together h h' σ.names τ.names (EvalM.ofExcept r σ) (EvalM.ofExcept r' τ) := by
  cases hr with
  | literal hl => exact .value (.literal hl) hs hs.later
  | error hx =>
    cases hx
    exact .error

theorem ended_iff (hp : Together h h' t t' p q) : Ended p ↔ Ended q := by
  cases hp <;> rfl

end Together

/-! ### One node -/

def IgnoresTable (h h' : Heap) (recur : Expr → Environment → EvalM Value) : Prop :=
  ∀ {e e' env env' σ τ}, InStep h h' σ τ → Respelled (SameText σ.names τ.names) e e' →
    env.Respelled (SameText σ.names τ.names) (Paired h h') env' →
    Together h h' σ.names τ.names (recur e env σ) (recur e' env' τ)

variable {recur : Expr → Environment → EvalM Value}

theorem together_fetch (hs : InStep h h' σ τ) (hx : SameText σ.names τ.names x y)
    (he : env.Respelled (SameText σ.names τ.names) (Paired h h') env') :
    Together h h' σ.names τ.names (EvalM.ofExcept (σ.fetch env x) σ)
      (EvalM.ofExcept (τ.fetch env' y) τ) := by
  have hc := he.cell? hs.one hx
  simp only [State.fetch, Heap.lookup?]
  generalize env.cell? x = p at hc
  generalize env'.cell? y = q at hc
  cases hc with
  | none =>
    simp only [Option.map_none, hx.text_eq]
    exact .error
  | some hcd =>
    have hv := hs.read _ _ hcd
    simp only [Option.map_some, hv.indistinct.isUnassigned_eq]
    split
    · exact .error
    · exact .value hv hs hs.later

theorem IgnoresTable.enter (ih : IgnoresTable h h' recur) (hs : InStep h h' σ τ)
    (hv : v.Respelled (SameText σ.names τ.names) (Paired h h') w)
    (hx : SameText σ.names τ.names x y) (hb : Respelled (SameText σ.names τ.names) b b')
    (he : env.Respelled (SameText σ.names τ.names) (Paired h h') env') :
    Together h h' σ.names τ.names (s.enter recur x v b env σ)
      (s.enter recur y w b' env' τ) := by
  by_cases hd : s = .substitution
  · subst hd
    have hl := later_substitute hs.consistent hs.consistent' x y v.toExpr w.toExpr b b'
    have hb := hv.toExpr.substitute hs.consistent hs.consistent' hx hb
    exact (ih (hs.withNames hl) hb (he.mono fun hx => hx.later hl)).later hl
  · rw [enter_of_ne hd, enter_of_ne hd]
    exact ih ((hs.alloc hv).stamp _ _) hb (he.bind hs.one hx hs.fresh _ _)

theorem IgnoresTable.letRec (ih : IgnoresTable h h' recur) (hs : InStep h h' σ τ)
    (hx : SameText σ.names τ.names x y) (hr : Respelled (SameText σ.names τ.names) r r')
    (hb : Respelled (SameText σ.names τ.names) b b')
    (he : env.Respelled (SameText σ.names τ.names) (Paired h h') env') :
    Together h h' σ.names τ.names (s.evalNode recur (.letRec x r b) env σ)
      (s.evalNode recur (.letRec y r' b') env' τ) := by
  by_cases hd : s = .substitution
  · subst hd
    let p := Expr.substitute x (.letRec x r (.var x)) r σ.names
    let q := Expr.substitute y (.letRec y r' (.var y)) r' τ.names
    have hl : Later σ.names τ.names p.2 q.2 := later_substitute hs.consistent hs.consistent' ..
    have hp : Respelled (SameText p.2 q.2) p.1 q.1 :=
      Respelled.substitute hs.consistent hs.consistent' hx (.letRec hx hr (.var hx)) hr
    have hstep : Together h h' p.2 q.2
        ((recur p.1 env >>= fun a => Discipline.substitution.enter recur x a b env)
          { σ with names := p.2 })
        ((recur q.1 env' >>= fun a => Discipline.substitution.enter recur y a b' env')
          { τ with names := q.2 }) := by
      refine Together.bind (ih (hs.withNames hl) hp (he.mono fun hx => hx.later hl)) ?_
      intro v w σ₁ τ₁ hv hs₁ hl₁
      have hl₂ := hl.trans hl₁
      exact ih.enter hs₁ hv (hx.later hl₂) (hb.later hl₂) (he.mono fun hx => hx.later hl₂)
    exact hstep.later hl
  · rw [evalNode_letRec_of_ne hd, evalNode_letRec_of_ne hd]
    have he₁ := he.bind hs.one hx hs.fresh σ.heap.nextStamp τ.heap.nextStamp
    obtain ⟨n, hn, hn'⟩ := hs.size
    refine Together.bind (ih ((hs.alloc .placeholder).stamp _ _) hr he₁) ?_
    intro v w σ₁ τ₁ hv hs₁ hl₁
    have hs₂ := hs₁.assign n hv
    rw [← hn, ← hn'] at hs₂
    exact ih hs₂ (hb.later hl₁) (he₁.mono fun hx => hx.later hl₁)

/-- The rules for a node never look at more of a name than its text. -/
theorem IgnoresTable.evalNode (ih : IgnoresTable h h' recur) :
    IgnoresTable h h' (s.evalNode recur) := by
  intro e e' env env' σ τ hs he henv
  cases he with
  | var hx => exact together_fetch hs hx henv
  | int | float | bool => exact .value (.literal rfl) hs hs.later
  | raise | unassigned => exact .error
  | @unary op _ _ he =>
    refine Together.bind (ih hs he henv) ?_
    intro v w σ τ hv hs _
    exact .ofExcept (Likeness.indistinct.unary hv.indistinct op) hs
  | @binary op _ _ _ _ hl hr =>
    refine Together.bind (ih hs hl henv) ?_
    intro v w σ₁ τ₁ hv hs₁ hl₁
    refine Together.bind (ih hs₁ (hr.later hl₁) (henv.mono fun hx => hx.later hl₁)) ?_
    intro v' w' σ₂ τ₂ hv' hs₂ _
    exact .ofExcept (Likeness.indistinct.binary hv.indistinct hv'.indistinct op) hs₂
  | cond he hy hn =>
    refine Together.bind (ih hs he henv) ?_
    intro v w σ₁ τ₁ hv hs₁ hl₁
    have henv₁ := henv.mono fun hx => hx.later hl₁
    simp only [hv.indistinct.truth?_eq, hv.indistinct.typeName_eq]
    cases w.truth? with
    | none => exact .error
    | some b =>
      cases b
      · exact ih hs₁ (hn.later hl₁) henv₁
      · exact ih hs₁ (hy.later hl₁) henv₁
  | fn hx hb => exact .value (Value.respelled_closeOver s (.fn hx hb) henv) hs hs.later
  | letIn hx hr hb =>
    refine Together.bind (ih hs hr henv) ?_
    intro v w σ₁ τ₁ hv hs₁ hl₁
    exact ih.enter hs₁ hv (hx.later hl₁) (hb.later hl₁) (henv.mono fun hx => hx.later hl₁)
  | letRec hx hr hb => exact ih.letRec hs hx hr hb henv
  | app hf ha =>
    refine Together.bind (ih hs hf henv) ?_
    intro v w σ₁ τ₁ hv hs₁ hl₁
    have henv₁ := henv.mono fun hx => hx.later hl₁
    have hcall := hv.callee? (s := s) henv₁
    generalize s.callee? v env = p at hcall
    generalize s.callee? w env' = q at hcall
    cases hcall with
    | none =>
      show Together h h' _ _ (.error (.failed (.notAFunction (v.render σ₁.names))) σ₁)
        (.error (.failed (.notAFunction (w.render τ₁.names))) τ₁)
      rw [hv.render_eq fun hx => hx.text_eq]
      exact .error
    | some hg =>
      obtain ⟨hg, hscope⟩ := hg
      cases hg with
      | fn hx hb =>
        refine Together.bind (ih hs₁ (ha.later hl₁) henv₁) ?_
        intro v w σ₂ τ₂ hv hs₂ hl₂
        exact ih.enter hs₂ hv (hx.later hl₂) (hb.later hl₂) (hscope.mono fun hx => hx.later hl₂)

theorem ignoresTable_eval (s : Discipline) (h h' : Heap) (d : Nat) :
    IgnoresTable h h' (s.eval d) := by
  induction d with
  | zero => exact fun _ _ _ => .exhausted
  | succ d ih => exact ih.evalNode

/-! ### What is reported -/

/-- Whether two values read the same, each by the table and the heap that an evaluation left. -/
structure Value.ReadsAs (σ τ : State) (v w : Value) : Prop where
  typeName_eq : v.typeName = w.typeName
  render_eq : v.render σ.names = w.render τ.names
  renderEnv_eq : v.renderEnv σ.names σ.heap = w.renderEnv τ.names τ.heap

theorem InStep.renderBindings_eq (hs : InStep h h' σ τ)
    (he : env.Respelled (SameText σ.names τ.names) (Paired h h') env') :
    Value.renderBindings σ.names σ.heap env = Value.renderBindings τ.names τ.heap env' := by
  obtain ⟨_, bs⟩ := env
  obtain ⟨_, bs'⟩ := env'
  simp only [Environment.Respelled, Value.renderBindings] at he ⊢
  refine congrArg (", ".intercalate ·) ?_
  induction he with
  | nil => rfl
  | cons hb _ ih =>
    rw [List.map_cons, List.map_cons, ih, hb.1.text_eq,
      (hs.read _ _ hb.2).render_eq fun hx => hx.text_eq]

theorem InStep.readsAs (hs : InStep h h' σ τ)
    (hv : v.Respelled (SameText σ.names τ.names) (Paired h h') w) : Value.ReadsAs σ τ v w := by
  have hr := hv.render_eq fun hx => hx.text_eq
  refine ⟨hv.indistinct.typeName_eq, hr, ?_⟩
  cases hv with
  | literal _ | placeholder | function _ => exact hr
  | closure hf he =>
    simp only [Value.renderEnv, Lambda.render]
    rw [hf.render_eq fun hx => hx.text_eq, hs.renderBindings_eq he]

theorem Respelled.readsAs (he : Respelled (SameText t t') e e') (h h' : Heap) :
    Value.ReadsAs ⟨t, h⟩ ⟨t', h'⟩ (.plain e) (.plain e') := by
  have hr := he.render_eq fun hx => hx.text_eq
  refine ⟨?_, hr, hr⟩
  cases he <;> rfl

theorem Together.alike_ofUnlimited {p q : Machine.Final} (hp : Together h h' t t' p q) :
    Outcome.Alike (Value.ReadsAs (Outcome.ofUnlimited p).2 (Outcome.ofUnlimited q).2) Eq
      (Outcome.ofUnlimited p).1 (Outcome.ofUnlimited q).1 := by
  cases hp with
  | value hv hs _ => exact .value (hs.readsAs hv)
  | error => exact .error rfl
  | exhausted => exact .unfinished

theorem Together.alike_ofLimited {p q : Machine.Final} (hp : Together h h' t t' p q) (m : Nat) :
    Outcome.Alike (Value.ReadsAs (Outcome.ofLimited m p).2 (Outcome.ofLimited m q).2) Eq
      (Outcome.ofLimited m p).1 (Outcome.ofLimited m q).1 := by
  cases hp with
  | value hv hs _ => exact .value (hs.readsAs hv)
  | error | exhausted => exact .error rfl

/-- Whether two cells hold the same literal in two heaps. -/
def SameLiteral (h h' : Heap) (c d : Cell) : Prop :=
  ∃ l : Expr, l.isLiteral = true ∧ h.read c = .plain l ∧ h'.read d = .plain l

theorem Environment.Respelled.paired (he : env.Respelled names (SameLiteral h h') env') :
    env.Respelled names (Paired h h') env' := by
  refine he.imp ?_
  rintro b b' ⟨hx, l, hl, hr, hr'⟩
  exact ⟨hx, .literal hl hr hr'⟩

theorem alike_eval (ht : t.Consistent) (ht' : t'.Consistent)
    (he : Respelled (SameText t t') e e')
    (henv : env.Respelled (SameText t t') (SameLiteral h h') env') (i : Interpreter)
    (allowance : Nat) :
    let p := i.eval allowance e env ⟨t, h⟩
    let q := i.eval allowance e' env' ⟨t', h'⟩
    Outcome.Alike (Value.ReadsAs p.2 q.2) Eq p.1 q.1 := by
  obtain ⟨strategy, limit⟩ := i
  cases strategy with
  | trivial => exact .value (he.readsAs h h')
  | reducing s =>
    have hd := fun d => ignoresTable_eval s h h' d (.initial ht ht' h h') he henv.paired
    cases limit with
    | none =>
      rw [Interpreter.eval_unlimited, Interpreter.eval_unlimited]
      exact (hd allowance).alike_ofUnlimited
    | some m =>
      rw [Interpreter.eval_limited, Interpreter.eval_limited]
      exact (hd m).alike_ofLimited m

/--
Over two tables, whatever else these know and in which order, the same program comes to values that
read the same or to the same error, or to no end in both cases, and the same substitution has the
same result up to the indices of names.
-/
theorem only_texts_matter {t t' : NameTable} (ht : t.Consistent) (ht' : t'.Consistent) :
    (∀ h h' e e' env env', Respelled (SameText t t') e e' →
      Environment.Respelled (SameText t t') (SameLiteral h h') env env' →
      (∀ (i : Interpreter) (allowance : Nat),
        let p := i.eval allowance e env ⟨t, h⟩
        let q := i.eval allowance e' env' ⟨t', h'⟩
        Outcome.Alike (Value.ReadsAs p.2 q.2) Eq p.1 q.1) ∧
      ∀ s : Discipline, (∃ r, s.Evaluates e env ⟨t, h⟩ r) ↔ ∃ r, s.Evaluates e' env' ⟨t', h'⟩ r) ∧
    ∀ x x' r r' e e', SameText t t' x x' → Respelled (SameText t t') r r' →
      Respelled (SameText t t') e e' →
      let p := Expr.substitute x r e t
      let q := Expr.substitute x' r' e' t'
      Respelled (SameText p.2 q.2) p.1 q.1 := by
  constructor
  · intro h h' e e' env env' he henv
    refine ⟨alike_eval ht ht' he henv, ?_⟩
    intro s
    exact exists_evaluates_iff fun d =>
      (ignoresTable_eval s h h' d (.initial ht ht' h h') he henv.paired).ended_iff
  · intro x x' r r' e e' hx hr he
    exact hr.substitute ht ht' hx he

/-- The fresh name `y'1` is new to one table and old to the other, at another index. -/
theorem only_texts_matter_old_candidate :
    let t := ["x", "y"].foldl (fun t s => (t.intern s).2) NameTable.initial
    let t' := ["y'1", "y", "x"].foldl (fun t s => (t.intern s).2) NameTable.initial
    let p := Expr.substitute ⟨13⟩ (.var ⟨14⟩) (.fn ⟨14⟩ (.var ⟨13⟩)) t
    let q := Expr.substitute ⟨15⟩ (.var ⟨14⟩) (.fn ⟨14⟩ (.var ⟨15⟩)) t'
    let program : Name → Name → Expr := fun x y =>
      .app (.fn x (.fn y (.var x))) (.fn x (.var y))
    let r := Interpreter.eval ⟨.reducing .substitution, none⟩ 3 (program ⟨13⟩ ⟨14⟩)
      ⟨0, [(⟨14⟩, ⟨0⟩)]⟩ ⟨t, ⟨#[.plain (.int 7)], 1⟩⟩
    let r' := Interpreter.eval ⟨.reducing .substitution, none⟩ 3 (program ⟨15⟩ ⟨14⟩)
      ⟨2, [(⟨14⟩, ⟨1⟩)]⟩ ⟨t', ⟨#[.plain .raise, .plain (.int 7)], 3⟩⟩
    (p.1 = .fn ⟨15⟩ (.var ⟨14⟩) ∧ q.1 = .fn ⟨13⟩ (.var ⟨14⟩) ∧
      Respelled (SameText p.2 q.2) p.1 q.1) ∧
    Outcome.Alike (Value.ReadsAs r.2 r'.2) Eq r.1 r'.1 := by
  intro t t' p q program r r'
  have ht : t.Consistent := NameTable.consistent_initial.foldl_intern _
  have ht' : t'.Consistent := NameTable.consistent_initial.foldl_intern _
  have hx : SameText t t' ⟨13⟩ ⟨15⟩ := ⟨by decide +kernel, by decide +kernel, by decide +kernel⟩
  have hy : SameText t t' ⟨14⟩ ⟨14⟩ := ⟨by decide +kernel, by decide +kernel, by decide +kernel⟩
  have hp : Respelled (SameText t t') (program ⟨13⟩ ⟨14⟩) (program ⟨15⟩ ⟨14⟩) :=
    .app (.fn hx (.fn hy (.var hx))) (.fn hx (.var hy))
  have henv : Environment.Respelled (SameText t t')
      (SameLiteral ⟨#[.plain (.int 7)], 1⟩ ⟨#[.plain .raise, .plain (.int 7)], 3⟩)
      ⟨0, [(⟨14⟩, ⟨0⟩)]⟩ ⟨2, [(⟨14⟩, ⟨1⟩)]⟩ :=
    .cons ⟨hy, .int 7, rfl, rfl, rfl⟩ .nil
  refine ⟨⟨by decide +kernel, by decide +kernel, ?_⟩, ?_⟩
  · exact (only_texts_matter ht ht').2 _ _ _ _ _ _ hx (.var hy) (.fn hy (.var hx))
  · exact ((only_texts_matter ht ht').1 _ _ _ _ _ _ hp henv).1 _ _

end LetCalculus
