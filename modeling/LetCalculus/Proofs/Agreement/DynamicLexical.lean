import LetCalculus.Proofs.Agreement.Likeness
import LetCalculus.Proofs.Agreement.LookUp
import LetCalculus.Proofs.Evaluation.Finished

/-!
# Dynamic and lexical scoping agree on closed functions

During a call dynamic scoping shows the body of a function the environment of its caller, and
lexical scoping that of its definition. A body that has no free variable but the parameter cannot
tell the two apart, whatever else they bind. So an expression all of whose function literals are of
this kind runs alike under both disciplines (`Discipline.dynamic_agrees_lexical`). Definitions may
still refer to one another, and a recursive one may ask for its own value too early.

The two environments are compared at the free variables of the expression that is being evaluated
and nowhere else: after a call they need not agree on any other name.
-/

namespace LetCalculus

open LetCalculus.Expr LetCalculus.Discipline

/-- Whether no function literal has a free variable in its body but its parameter. -/
def Expr.ClosedFunctions : Expr → Prop
  | var _ | int _ | float _ | bool _ | raise | unassigned => True
  | unary _ e => e.ClosedFunctions
  | binary _ l r => l.ClosedFunctions ∧ r.ClosedFunctions
  | cond c y n => c.ClosedFunctions ∧ y.ClosedFunctions ∧ n.ClosedFunctions
  | fn x b => (∀ y, FreeIn y b → y = x) ∧ b.ClosedFunctions
  | letIn _ v b => v.ClosedFunctions ∧ b.ClosedFunctions
  | letRec _ v b => v.ClosedFunctions ∧ b.ClosedFunctions
  | app f a => f.ClosedFunctions ∧ a.ClosedFunctions

/-! ### Values of the two disciplines -/

inductive Value.Comparable : Value → Value → Prop
  | same (v : Value) : Comparable v v
  | function {x : Name} {b : Expr} {f : Lambda} {scope : Environment} :
    Comparable (.plain (.fn x b)) (.closure f scope)

theorem AlikeResult.imp {error error' : EvalError → EvalError → Prop}
    {r r' : Except EvalError Value} (h : AlikeResult error r r')
    (he : ∀ x y, error x y → error' x y) : AlikeResult error' r r' := by
  cases h with
  | literal hl => exact .literal hl
  | error hx => exact .error (he _ _ hx)

namespace Value.Comparable

variable {v v' w w' : Value}

theorem likeWord (h : v.Comparable w) : LikeWord v.typeName w.typeName := by
  cases h with
  | same v => exact .same _
  | function => exact .function

theorem unaryApply (h : v.Comparable w) (op : UnaryOp) :
    AlikeResult EvalError.Like (op.apply v) (op.apply w) := by
  cases h with
  | same v => exact (op.operatorResult_apply v).alikeResult.imp fun x _ h => h ▸ .same x
  | function => cases op <;> exact .error (.operand _ (.one .function))

theorem binaryApply (h : v.Comparable w) (h' : v'.Comparable w') (op : BinaryOp) :
    AlikeResult EvalError.Like (op.apply v v') (op.apply w w') := by
  have mismatch : AlikeResult EvalError.Like
      (.error (.typeMismatch (operatorContext op.symbol) (v.typeName ++ " and " ++ v'.typeName)))
      (.error (.typeMismatch (operatorContext op.symbol) (w.typeName ++ " and " ++ w'.typeName))) :=
    .error (.operand _ (.two h.likeWord h'.likeWord))
  cases h with
  | function => exact mismatch
  | same v =>
    cases h' with
    | same v' =>
      exact (op.operatorResult_apply v v').alikeResult.imp fun x _ h => h ▸ .same x
    | function =>
      cases v with
      | plain e => cases e <;> exact mismatch
      | closure f scope => exact mismatch

end Value.Comparable

/-- No rule tells apart what differs in the form of functions, up to the word for them. -/
def Likeness.comparable : Likeness where
  value := Value.Comparable
  error := EvalError.Like
  refl := .same
  isUnassigned h := by cases h <;> rfl
  truth? h := by cases h <;> rfl
  mismatch h context := .operand context (.one h.likeWord)
  unary h op := h.unaryApply op
  binary h h' op := h.binaryApply h' op

inductive Value.Closes : Value → Value → Prop
  | literal {l : Expr} : l.isLiteral = true → Closes (.plain l) (.plain l)
  | function (f : Lambda) (scope : Environment) : Closes (.plain f.toExpr) (.closure f scope)

/-- What evaluation comes to where all functions are closed, and the placeholder. -/
inductive ClosesAlike : Value → Value → Prop
  | plain {l : Expr} : l.isLiteral = true ∨ l = .unassigned → ClosesAlike (.plain l) (.plain l)
  | function {f : Lambda} (scope : Environment) : f.toExpr.ClosedFunctions →
    ClosesAlike (.plain f.toExpr) (.closure f scope)

variable {P : CellPairing} {t₀ : NameTable} {e b : Expr} {x : Name} {env env' : Environment}
  {v w : Value} {σ : State}

theorem ClosesAlike.comparable (h : ClosesAlike v w) : v.Comparable w := by
  cases h with
  | plain _ => exact .same _
  | function _ _ => exact .function

theorem ClosesAlike.closes (h : ClosesAlike v w) (hv : v ≠ .unassigned) : v.Closes w := by
  cases h with
  | plain hl =>
    rcases hl with hl | rfl
    · exact .literal hl
    · exact absurd rfl hv
  | function scope _ => exact .function _ scope

/-! ### Evaluations side by side -/

namespace Correspondence

def closedFunctionsPairing (P : CellPairing) (t₀ : NameTable) : Pairing where
  code e env e' env' := e = e' ∧ e.ClosedFunctions ∧ SameView .lexical P.rel e env env'
  value := ClosesAlike
  cell := P.rel
  names t t' := t = t₀ ∧ t' = t₀

theorem opens_closedFunctions (hb : b.ClosedFunctions) (h : SameView .lexical P.rel e env env')
    (he : ∀ u, u ≠ x → FreeIn u b → FreeIn u e) :
    (closedFunctionsPairing P t₀).Opens .dynamic .lexical x b env x b env' := by
  refine .cell (by simp) (by simp) ?_
  intro p q m n hc
  exact ⟨rfl, hb, h.bind he hc⟩

/-- A call takes the body elsewhere, but all that it looks up there is the argument. -/
theorem calls_closedFunctions (hv : ClosesAlike v w) :
    (closedFunctionsPairing P t₀).Calls .dynamic .lexical v env w env' := by
  cases hv with
  | plain hl =>
    exact .other (callee?_of_isLiteral hl) (callee?_of_isLiteral hl) fun _ _ => render_eq_of_kept
  | @function f scope hf =>
    obtain ⟨hx, hb⟩ := hf
    refine .function rfl rfl (.cell (by simp) (by simp) ?_)
    intro p q m n hc
    refine ⟨rfl, hb, ?_⟩
    intro y hy
    obtain rfl := hx y (hy rfl)
    exact .bind_self hc

def closedFunctions (P : CellPairing) (t₀ : NameTable) :
    Correspondence .dynamic .lexical .comparable where
  toPairing := closedFunctionsPairing P t₀
  node {e env e' env'} hc := by
    obtain ⟨rfl, he, h⟩ := hc
    cases e with
    | var x =>
      cases h x fun _ => rfl with
      | bound hx hy hc => exact .bound hx hy hc
      | unbound hx hy => exact .unbound hx hy fun t t' ht => by rw [ht.1, ht.2]
    | int n | float a | bool b => exact .literal rfl
    | raise => exact .raise
    | unassigned => exact .unassigned
    | unary op e => exact .unary ⟨rfl, he, h⟩
    | binary op l r =>
      exact .binary ⟨rfl, he.1, h.part fun _ => .inl⟩ ⟨rfl, he.2, h.part fun _ => .inr⟩
    | cond c y n =>
      exact .cond ⟨rfl, he.1, h.part fun _ => .inl⟩
        ⟨rfl, he.2.1, h.part fun _ hx => .inr (.inl hx)⟩
        ⟨rfl, he.2.2, h.part fun _ hx => .inr (.inr hx)⟩
    | fn x b => exact .fn (.function env' he)
    | letIn x v b =>
      exact .letIn ⟨rfl, he.1, h.part fun _ => .inl⟩
        (opens_closedFunctions he.2 h fun _ hu hb => .inr ⟨hu, hb⟩)
    | letRec x v b =>
      refine .letRec (by simp) (by simp) ?_
      intro p q m n hc
      exact ⟨⟨rfl, he.1, h.bind (fun _ hu hv => ⟨hu, .inl hv⟩) hc⟩,
        ⟨rfl, he.2, h.bind (fun _ hu hb => ⟨hu, .inr hb⟩) hc⟩⟩
    | app f a =>
      refine .app ⟨rfl, he.1, h.part fun _ => .inl⟩ ⟨rfl, he.2, h.part fun _ => .inr⟩ ?_
      intro v w hv
      exact calls_closedFunctions hv
  like hv := hv.comparable
  literal hl := .plain (.inl hl)
  placeholder := .plain (.inr rfl)
  distinct := P.distinct

end Correspondence

namespace Discipline

/--
Dynamic and lexical scoping agree on expressions whose function literals have no free variables
but their parameters, in environments of literals: both come to the same literal, to a function and
a closure of it, to errors that are alike, or to no end.
-/
theorem dynamic_agrees_lexical (he : e.ClosedFunctions) (hb : LiteralEnv σ.heap env) :
    RunsAlike Value.Closes EvalError.Like dynamic e env σ lexical e env σ := by
  have start : SameView .lexical (CellPairing.next hb (.refl σ.heap)).rel e env env := by
    intro x _
    exact .of_cell?_eq rfl fun c hc => .bound (Environment.mem_of_cell? hc)
  refine (Correspondence.closedFunctions (CellPairing.next hb (.refl _)) σ.names).runsAlike
    ⟨rfl, he, start⟩ (Concordance.states_next (fun _ _ => .rfl) hb (.refl _) ⟨rfl, rfl⟩) ?_
  intro d v w σ' τ' hv _ hvw
  exact hvw.closes (proper_of_eval hb.properEnv hv).1.ne_unassigned

/-- The function is called where `f` is bound again, and then a definition needs its own value. -/
theorem dynamic_agrees_lexical_letRec :
    let x : Name := ⟨13⟩
    let f : Name := ⟨14⟩
    let env : Environment := ⟨0, [(x, ⟨0⟩)]⟩
    let σ : State := ⟨.initial, ⟨#[.plain (.bool true)], 1⟩⟩
    let double : Expr := .fn x (.letIn f (.var x) (.binary .add (.var x) (.var f)))
    let e : Expr := .letIn f double (.binary .add (.app (.var f) (.int 2))
      (.letRec x (.cond (.var x) (.var f) (.fn f (.var f))) (.var x)))
    e.ClosedFunctions ∧ LiteralEnv σ.heap env ∧
      RunsAlike Value.Closes EvalError.Like dynamic e env σ lexical e env σ := by
  intro x f env σ double e
  have he : e.ClosedFunctions := by
    grind [Expr.ClosedFunctions, FreeIn]
  have hb : LiteralEnv σ.heap env := by
    intro b hb
    rw [List.mem_singleton.1 hb]
    exact ⟨.bool true, rfl, rfl⟩
  exact ⟨he, hb, dynamic_agrees_lexical he hb⟩

end Discipline

end LetCalculus
