import LetCalculus.Interpreter
import LetCalculus.Proofs.Evaluation.Provenance
import LetCalculus.Proofs.Substitution.Course

/-!
# Raising and early use have a source

An evaluation ends in `raise` only if some code that it was given contains one. It ends in the
placeholder fault only if that code contains the placeholder, or a recursive definition of something
other than a function literal (`Interpreter.failures_have_sources`). Code multiplies as a run goes
on: it is substituted, renamed, unrolled, and taken out of cells.

For one of the two errors, the constructs above are its sources (`Expr.IsSource`), and the
invariant is that no source is in what is evaluated nor in any cell in sight. The placeholder is a
source of its own fault. So for this fault the invariant also says that every cell in sight has its
value. A recursive definition breaks it only while it evaluates its function literal, which looks
nothing up.
-/

namespace LetCalculus

/-- Whether a construct gives occasion for an error that no other code can cause. -/
def Expr.IsSource (x : EvalError) : Expr → Prop
  | .raise => x = .raised
  | .unassigned => x = .unassigned
  | .letRec _ v _ => x = .unassigned ∧ v.isFn = false
  | _ => False

/-- Whether no part of an expression is a source of an error. -/
def Expr.Sourceless (x : EvalError) (e : Expr) : Prop := ∀ a ∈ e.parts, ¬a.IsSource x

/-- Whether a value has no source of an error, and as a closure sees only certain cells. -/
structure Value.Sourceless (x : EvalError) (seen : Cell → Prop) (v : Value) : Prop where
  code : v.toExpr.Sourceless x
  within : ∀ f scope, v = .closure f scope → scope.Within seen

/-- Certain cells, and the one that is allocated next. -/
def Heap.AndNext (h : Heap) (seen : Cell → Prop) (c : Cell) : Prop := seen c ∨ c = ⟨h.cells.size⟩

/-- Whether certain cells have no source of an error, and lead to no others. -/
def Heap.Sourceless (x : EvalError) (h : Heap) (seen : Cell → Prop) : Prop :=
  ∀ c, seen c → (h.read c).Sourceless x seen

variable {s : Discipline} {x : EvalError} {a b e e' r : Expr} {y : Name} {t t' : NameTable}
  {h : Heap} {env : Environment} {σ : State} {seen seen' : Cell → Prop} {c : Cell} {v : Value}

namespace Expr

theorem sourceless_iff :
    e.Sourceless x ↔ ¬e.IsSource x ∧ ∀ b ∈ e.children, b.Sourceless x := by
  constructor
  · intro he
    refine ⟨he e (mem_parts_iff.2 (.inl rfl)), ?_⟩
    intro b hb a ha
    exact he a (mem_parts_iff.2 (.inr ⟨b, hb, ha⟩))
  · rintro ⟨he, hb⟩ a ha
    rcases mem_parts_iff.1 ha with rfl | ⟨b, hc, ha⟩
    · exact he
    · exact hb b hc a ha

theorem Sourceless.child (he : e.Sourceless x) (hb : b ∈ e.children) : b.Sourceless x :=
  (sourceless_iff.1 he).2 b hb

theorem sourceless_letRec : (letRec y a b).Sourceless x ↔
    (x = .unassigned → a.isFn = true) ∧ a.Sourceless x ∧ b.Sourceless x := by
  rw [sourceless_iff]
  simp [IsSource]

theorem sourceless_var (x : EvalError) (y : Name) : (var y).Sourceless x :=
  sourceless_iff.2 ⟨id, by simp⟩

theorem sourceless_of_isLiteral (hl : e.isLiteral = true) : e.Sourceless x := by
  cases e with
  | int n | float a | bool b => exact sourceless_iff.2 ⟨id, by simp⟩
  | _ => cases hl

theorem Substituted.isFn (h : Substituted y r e t e' t') (he : e.isFn = true) : e'.isFn = true := by
  cases h <;> first | rfl | cases he

/-- What is substituted brings its own sources, and renaming adds none. -/
theorem Substituted.sourceless (h : Substituted y r e t e' t') (hr : r.Sourceless x)
    (he : e.Sourceless x) : e'.Sourceless x := by
  have hz := sourceless_var x
  -- Only at a recursive definition does being a source depend on what has been substituted in.
  induction h with
  | var_self => exact hr
  | letRec_kept _ _ hv _ ihv ihb =>
    obtain ⟨hf, ha, hb⟩ := sourceless_letRec.1 he
    exact sourceless_letRec.2 ⟨fun hx => hv.isFn (hf hx), ihv hr ha, ihb hr hb⟩
  | letRec_renamed _ _ _ hv hv' _ _ ihv ihv' ihb ihb' =>
    obtain ⟨hf, ha, hb⟩ := sourceless_letRec.1 he
    exact sourceless_letRec.2 ⟨fun hx => hv'.isFn (hv.isFn (hf hx)), ihv' hr (ihv (hz _) ha),
      ihb' hr (ihb (hz _) hb)⟩
  | _ =>
    rw [sourceless_iff] at he ⊢
    simp_all [IsSource]

theorem Sourceless.substitute (he : e.Sourceless x) (hr : r.Sourceless x) (y : Name)
    (t : NameTable) : (Expr.substitute y r e t).1.Sourceless x :=
  (substituted_substitute y r e t).sourceless hr he

end Expr

theorem Value.Sourceless.mono (hv : v.Sourceless x seen) (hs : ∀ c, seen c → seen' c) :
    v.Sourceless x seen' := ⟨hv.code, fun f scope hf => (hv.within f scope hf).mono hs⟩

theorem Value.sourceless_plain (he : e.Sourceless x) : (Value.plain e).Sourceless x seen :=
  ⟨he, fun _ _ hf => Value.noConfusion hf⟩

namespace Heap.Sourceless

theorem alloc (hh : h.Sourceless x seen) (hv : v.Sourceless x (h.AndNext seen)) :
    (h.alloc v).2.Sourceless x (h.AndNext seen) := by
  intro c hc
  by_cases hnew : c = (h.alloc v).1
  · rw [hnew, read_alloc_self]
    exact hv
  · rw [read_alloc_of_ne hnew]
    exact (hh c (hc.resolve_right hnew)).mono fun _ => .inl

theorem write (hh : h.Sourceless x seen) (hv : v.Sourceless x seen) (c : Cell) :
    (h.write c v).Sourceless x seen := by
  intro d hd
  rcases h.read_write c d v with ⟨hr, -⟩ | hr
  · rw [hr]
    exact hv
  · rw [hr]
    exact hh d hd

end Heap.Sourceless

/-- How an evaluation that never ends in a certain error lands, seeing new cells in the end. -/
inductive Lands (x : EvalError) (seen : Cell → Prop) : Machine.Final → Prop
  | value {seen' : Cell → Prop} {v : Value} {σ : State} : (∀ c, seen c → seen' c) →
    v.Sourceless x seen' → σ.heap.Sourceless x seen' → Lands x seen (.ok v σ)
  | error {y : EvalError} {σ : State} : y ≠ x → Lands x seen (.error (.failed y) σ)
  | exhausted {σ : State} : Lands x seen (.error .exhausted σ)

namespace Lands

theorem mono {q : Machine.Final} (hq : Lands x seen' q) (hs : ∀ c, seen c → seen' c) :
    Lands x seen q := by
  cases hq with
  | value hs' hv hh => exact .value (fun c hc => hs' c (hs c hc)) hv hh
  | error hy => exact .error hy
  | exhausted => exact .exhausted

theorem bind {m : EvalM Value} {f : Value → EvalM Value} (hm : Lands x seen (m σ))
    (hf : ∀ v σ seen', (∀ c, seen c → seen' c) → v.Sourceless x seen' →
      σ.heap.Sourceless x seen' → Lands x seen' (f v σ)) : Lands x seen ((m >>= f) σ) := by
  simp only [Bind.bind, EStateM.bind]
  generalize m σ = q at hm
  cases hm with
  | value hs hv hh => exact (hf _ _ _ hs hv hh).mono hs
  | error hy => exact .error hy
  | exhausted => exact .exhausted

theorem ofExcept {q : Except EvalError Value} (hh : σ.heap.Sourceless x seen)
    (hv : ∀ v, q = .ok v → v.Sourceless x seen) (hy : ∀ y, q = .error y → y ≠ x) :
    Lands x seen (EvalM.ofExcept q σ) := by
  cases q with
  | ok v => exact .value (fun _ => id) (hv v rfl) hh
  | error y => exact .error (hy y rfl)

end Lands

def EvalError.HasSource (x : EvalError) : Prop := x = .raised ∨ x = .unassigned

theorem EvalError.HasSource.ne {y : EvalError} (hx : x.HasSource) (hr : y ≠ .raised)
    (hu : y ≠ .unassigned) : y ≠ x := by
  rcases hx with rfl | rfl
  · exact hr
  · exact hu

theorem Lands.operator {q : Except EvalError Value} (hx : x.HasSource) (hq : OperatorResult q)
    (hh : σ.heap.Sourceless x seen) : Lands x seen (EvalM.ofExcept q σ) := by
  refine .ofExcept hh ?_ ?_
  · rintro v rfl
    obtain ⟨l, hl, rfl⟩ := hq
    exact Value.sourceless_plain (Expr.sourceless_of_isLiteral hl)
  · rintro y rfl
    refine hx.ne ?_ ?_
    · rintro rfl
      cases hq
    · rintro rfl
      cases hq

/-- What holds the placeholder is a source of its fault, and so it is not in sight. -/
theorem Lands.fetch (hx : x.HasSource) (he : env.Within seen) (hh : σ.heap.Sourceless x seen)
    (y : Name) : Lands x seen (EvalM.ofExcept (σ.fetch env y) σ) := by
  unfold State.fetch Heap.lookup?
  cases hc : env.cell? y with
  | none => exact .error (hx.ne nofun nofun)
  | some c =>
    have hv := hh c (he _ (Environment.mem_of_cell? hc))
    simp only [Option.map_some]
    split
    · next hu =>
      refine .error ?_
      rintro rfl
      generalize σ.heap.read c = v at hu hv
      unfold Value.isUnassigned at hu
      split at hu
      · exact (Expr.sourceless_iff.1 hv.code).1 rfl
      · cases hu
    · exact .value (fun _ => id) hv hh

/-- An evaluator that never ends in an error, and that takes function literals at face value. -/
structure Keeps (s : Discipline) (x : EvalError) (recur : Expr → Environment → EvalM Value) :
    Prop where
  lands : ∀ {seen e env σ}, e.Sourceless x → env.Within seen → σ.heap.Sourceless x seen →
    Lands x seen (recur e env σ)
  fn : ∀ y b env σ, recur (.fn y b) env σ = .ok (s.closeOver ⟨y, b⟩ env) σ ∨
    recur (.fn y b) env σ = .error .exhausted σ

theorem Value.sourceless_closeOver (s : Discipline) (he : (Expr.fn y b).Sourceless x)
    (hs : env.Within seen) : (s.closeOver ⟨y, b⟩ env).Sourceless x seen := by
  cases s with
  | lexical =>
    refine ⟨he, ?_⟩
    rintro f scope ⟨⟩
    exact hs
  | substitution | dynamic => exact ⟨he, nofun⟩

namespace Keeps

open Discipline

variable {recur : Expr → Environment → EvalM Value}

theorem define (hk : Keeps s x recur) (hb : b.Sourceless x) (he : env.Within seen)
    (hh : σ.heap.Sourceless x seen) (hv : v.Sourceless x (σ.heap.AndNext seen)) (y : Name) :
    Lands x seen (recur b (σ.define env y v).1 (σ.define env y v).2) := by
  have hs : ∀ c, seen c → σ.heap.AndNext seen c := fun _ => .inl
  exact (hk.lands hb ((he.mono hs).bind (.inr rfl) _ y) (hh.alloc hv)).mono hs

theorem enter (hk : Keeps s x recur) (hb : b.Sourceless x) (he : env.Within seen)
    (hh : σ.heap.Sourceless x seen) (hv : v.Sourceless x seen) (y : Name) :
    Lands x seen (s.enter recur y v b env σ) := by
  by_cases hs : s = .substitution
  · subst hs
    exact hk.lands (hb.substitute hv.code y _) he hh
  · rw [enter_of_ne hs]
    exact hk.define hb he hh (hv.mono fun _ => .inl) y

theorem letRec_fn (hk : Keeps s x recur) (hs : s ≠ .substitution) {z : Name} {d : Expr}
    (ha : (Expr.fn z d).Sourceless x) (hb : b.Sourceless x) (he : env.Within seen)
    (hh : σ.heap.Sourceless x seen) (y : Name) :
    Lands x seen (s.evalNode recur (.letRec y (.fn z d) b) env σ) := by
  rw [evalNode_letRec_of_ne hs]
  simp only [Bind.bind, EStateM.bind]
  rcases hk.fn z d (σ.declare env y).1.2 (σ.declare env y).2 with hr | hr
  · rw [hr]
    have hv : (s.closeOver ⟨z, d⟩ (σ.declare env y).1.2).Sourceless x (σ.heap.AndNext seen) :=
      Value.sourceless_closeOver s ha ((he.mono fun _ => .inl).bind (.inr rfl) _ y)
    have hd := hk.define hb he hh hv y
    rw [State.define_eq] at hd
    exact hd
  · rw [hr]
    exact .exhausted

/-- Without regard to the placeholder, a cell that has none yet is like any other. -/
theorem letRec_early (hk : Keeps s .raised recur) (hs : s ≠ .substitution)
    (ha : a.Sourceless .raised) (hb : b.Sourceless .raised) (he : env.Within seen)
    (hh : σ.heap.Sourceless .raised seen) (y : Name) :
    Lands .raised seen (s.evalNode recur (.letRec y a b) env σ) := by
  have hu : Expr.unassigned.Sourceless .raised := Expr.sourceless_iff.2 ⟨nofun, by simp⟩
  have hs' : ∀ c, seen c → σ.heap.AndNext seen c := fun _ => .inl
  have he' : (σ.declare env y).1.2.Within (σ.heap.AndNext seen) :=
    (he.mono hs').bind (.inr rfl) _ y
  have hh' : (σ.declare env y).2.heap.Sourceless .raised (σ.heap.AndNext seen) :=
    hh.alloc (Value.sourceless_plain hu)
  rw [evalNode_letRec_of_ne hs]
  refine ((hk.lands ha he' hh').bind ?_).mono hs'
  intro v τ seen' hs'' hv hτ
  exact hk.lands hb (he'.mono hs'') (hτ.write hv _)

theorem letRec (hk : Keeps s x recur) (hx : x.HasSource) (hd : (Expr.letRec y a b).Sourceless x)
    (he : env.Within seen) (hh : σ.heap.Sourceless x seen) :
    Lands x seen (s.evalNode recur (.letRec y a b) env σ) := by
  obtain ⟨hf, ha, hb⟩ := Expr.sourceless_letRec.1 hd
  by_cases hs : s = .substitution
  · subst hs
    have hy := Expr.sourceless_var x y
    have hr : (Expr.letRec y a (.var y)).Sourceless x := Expr.sourceless_letRec.2 ⟨hf, ha, hy⟩
    have hl : Lands x seen (recur (unroll σ y a).1 env (unroll σ y a).2) :=
      hk.lands (ha.substitute hr y _) he hh
    refine hl.bind (f := fun v => Discipline.enter .substitution recur y v b env) ?_
    intro v τ seen' hs hv hτ
    exact hk.enter hb (he.mono hs) hτ hv y
  · -- The cell of the definition may be looked up early if this is not the error in question.
    rcases hx with rfl | rfl
    · exact hk.letRec_early hs ha hb he hh y
    · cases a with
      | fn z d => exact hk.letRec_fn hs ha hb he hh y
      | _ => cases hf rfl

theorem app (hk : Keeps s x recur) (hx : x.HasSource) (ha : a.Sourceless x) (hb : b.Sourceless x)
    (he : env.Within seen) (hh : σ.heap.Sourceless x seen) :
    Lands x seen (s.evalNode recur (.app a b) env σ) := by
  refine (hk.lands ha he hh).bind ?_
  intro v τ seen' hs hv hτ
  cases hg : s.callee? v env with
  | none => exact .error (hx.ne nofun nofun)
  | some p =>
    obtain ⟨g, scope⟩ := p
    have hc := toExpr_of_callee? hg ▸ hv.code
    have hw := (he.mono hs).callee hv.within hg
    refine (hk.lands hb (he.mono hs) hτ).bind ?_
    intro w τ' seen'' hs' hw' hτ'
    exact hk.enter (hc.child (by simp [Lambda.toExpr])) (hw.mono hs') hτ' hw' g.param

theorem node (hk : Keeps s x recur) (hx : x.HasSource) (hd : e.Sourceless x)
    (he : env.Within seen) (hh : σ.heap.Sourceless x seen) :
    Lands x seen (s.evalNode recur e env σ) := by
  cases e with
  | var y => exact .fetch hx he hh y
  | int n | float r | bool b =>
    exact .value (fun _ => id) (Value.sourceless_plain (Expr.sourceless_of_isLiteral rfl)) hh
  | unary op a =>
    refine (hk.lands (hd.child (by simp)) he hh).bind ?_
    intro v τ seen' hs hv hτ
    exact .operator hx (op.operatorResult_apply v) hτ
  | binary op a b =>
    refine (hk.lands (hd.child (by simp)) he hh).bind ?_
    intro v τ seen' hs hv hτ
    refine (hk.lands (hd.child (by simp)) (he.mono hs) hτ).bind ?_
    intro w τ' seen'' hs' hw hτ'
    exact .operator hx (op.operatorResult_apply v w) hτ'
  | cond c a b =>
    refine (hk.lands (hd.child (by simp)) he hh).bind ?_
    intro v τ seen' hs hv hτ
    cases hv : v.truth? with
    | none => exact .error (hx.ne nofun nofun)
    | some g =>
      refine hk.lands (hd.child ?_) (he.mono hs) hτ
      cases g <;> simp
  | fn y b => exact .value (fun _ => id) (Value.sourceless_closeOver s hd he) hh
  | letIn y a b =>
    refine (hk.lands (hd.child (by simp)) he hh).bind ?_
    intro v τ seen' hs hv hτ
    exact hk.enter (hd.child (by simp)) (he.mono hs) hτ hv y
  | letRec y a b => exact hk.letRec hx hd he hh
  | raise | unassigned =>
    refine .error ?_
    rintro rfl
    exact (Expr.sourceless_iff.1 hd).1 rfl
  | app a b => exact hk.app hx (hd.child (by simp)) (hd.child (by simp)) he hh

end Keeps

theorem Discipline.keeps_eval (s : Discipline) (hx : x.HasSource) (d : Nat) :
    Keeps s x (s.eval d) := by
  induction d with
  | zero => exact ⟨fun _ _ _ => .exhausted, fun _ _ _ _ => .inr rfl⟩
  | succ d ih => exact ⟨ih.node hx, fun _ _ _ _ => .inl rfl⟩

theorem Heap.sourceless_of_supplied (hs : ∀ a, Supplied h env e a → ¬a.IsSource x) :
    h.Sourceless x (h.Reaches env) := by
  intro c hc
  refine ⟨fun a ha => hs a (.held hc (Expr.part_iff_mem_parts.2 ha)), ?_⟩
  intro f scope hf b hb
  exact hc.captured hf hb

namespace Interpreter

theorem ne_error_of_supplied (hx : x.HasSource) (hs : ∀ a, Supplied σ.heap env e a → ¬a.IsSource x)
    (limit : Option Nat) (m : Nat) : (eval ⟨.reducing s, limit⟩ m e env σ).1 ≠ .error x := by
  intro h
  obtain ⟨σ', h⟩ := exists_failed_of_eval h (by rcases hx with rfl | rfl <;> nofun)
  have he : e.Sourceless x := fun a ha => hs a (.program (Expr.part_iff_mem_parts.2 ha))
  have hl := (s.keeps_eval hx (limit.getD m)).lands he (fun _ hb => .bound hb)
    (Heap.sourceless_of_supplied hs)
  rw [h] at hl
  cases hl with
  | error hy => exact hy rfl

/--
If no `raise` is in an expression or in what can be seen from its environment, the evaluation never
ends in one, and it is a fault whenever it fails. If no placeholder is there, and hence none in a
cell that can be seen, and if all recursive definitions there define functions, the evaluation never
comes upon the placeholder, whether or not something raises.
-/
theorem failures_have_sources (s : Discipline) (limit : Option Nat) (m : Nat) (e : Expr)
    (env : Environment) (σ : State) :
    let r := (eval ⟨.reducing s, limit⟩ m e env σ).1
    (¬Supplied σ.heap env e .raise → ∀ x, r = .error x → x ≠ .raised ∧ x.failureClass = .fault) ∧
    (¬Supplied σ.heap env e .unassigned →
      (∀ y v b, Supplied σ.heap env e (.letRec y v b) → v.isFn = true) →
      r ≠ .error .unassigned) := by
  intro r
  constructor
  · intro hs x hr
    have hx : x ≠ .raised := by
      rintro rfl
      refine ne_error_of_supplied (.inl rfl) ?_ limit m hr
      intro a ha hsrc
      cases a with
      | raise => exact hs ha
      | letRec y v b => cases hsrc.1
      | _ => cases hsrc
    refine ⟨hx, ?_⟩
    cases x with
    | raised => exact absurd rfl hx
    | _ => rfl
  · intro hs hf
    refine ne_error_of_supplied (.inr rfl) ?_ limit m
    intro a ha hsrc
    cases a with
    | unassigned => exact hs ha
    | letRec y v b => exact Bool.noConfusion ((hf y v b ha).symm.trans hsrc.2)
    | _ => cases hsrc

/-- A function that sees itself and has a recursive definition of its own is added to a number. -/
theorem failures_have_sources_letRec :
    let f : Name := ⟨13⟩
    let g : Name := ⟨14⟩
    let x : Name := ⟨15⟩
    let inner : Lambda := ⟨x, .letRec g (.fn x (.var g)) (.binary .add (.var x) (.var f))⟩
    let e : Expr := .letRec g (.fn x (.app (.var f) (.var x))) (.app (.var g) (.int 1))
    let env : Environment := ⟨0, [(f, ⟨0⟩)]⟩
    let σ : State := ⟨.initial, ⟨#[.closure inner env], 1⟩⟩
    (¬Supplied σ.heap env e .raise ∧ ¬Supplied σ.heap env e .unassigned ∧
      ∀ y v b, Supplied σ.heap env e (.letRec y v b) → v.isFn = true) ∧
      ∃ y, (eval ⟨.reducing .lexical, some 6⟩ 0 e env σ).1 = .error y ∧
        (y ≠ .raised ∧ y.failureClass = .fault) ∧ y ≠ .unassigned := by
  intro f g x inner e env σ
  have hs : ∀ a, Supplied σ.heap env e a → a ∈ e.parts ++ inner.toExpr.parts := by
    intro a ha
    cases ha with
    | program ha => exact List.mem_append_left _ (Expr.part_iff_mem_parts.1 ha)
    | held hr ha =>
      rw [hr.eq_of_loop rfl rfl] at ha
      exact List.mem_append_right _ (Expr.part_iff_mem_parts.1 ha)
  have hraise : ¬Supplied σ.heap env e .raise := fun h => absurd (hs _ h) (by decide)
  have hun : ¬Supplied σ.heap env e .unassigned := fun h => absurd (hs _ h) (by decide)
  have hdef : ∀ a ∈ e.parts ++ inner.toExpr.parts, ∀ y v b, a = .letRec y v b →
      v.isFn = true := by
    simp [e, inner, Lambda.toExpr, Expr.parts, Expr.isFn]
  have hfn : ∀ y v b, Supplied σ.heap env e (.letRec y v b) → v.isFn = true := by
    intro y v b h
    exact hdef _ (hs _ h) y v b rfl
  obtain ⟨hi, hii⟩ := failures_have_sources .lexical (some 6) 0 e env σ
  obtain ⟨y, hy⟩ : ∃ y, (eval ⟨.reducing .lexical, some 6⟩ 0 e env σ).1 = .error y := by
    rw [eval_limited]
    exact ⟨_, rfl⟩
  refine ⟨⟨hraise, hun, hfn⟩, y, hy, hi hraise y hy, ?_⟩
  rintro rfl
  exact hii hun hfn hy

/-- A definition of anything but a function may look itself up before it has its value. -/
example :
    let x : Name := ⟨13⟩
    ∃ σ', Discipline.eval .lexical 3 (.letRec x (.var x) (.var x)) ⟨0, []⟩ .initial =
      .error (.failed .unassigned) σ' := ⟨_, rfl⟩

end Interpreter

end LetCalculus
