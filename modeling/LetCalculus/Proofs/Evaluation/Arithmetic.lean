import Mathlib.Algebra.Group.Int.Defs
import LetCalculus.Interpreter
import LetCalculus.Proofs.Evaluation.Unlimited

/-!
# Integer arithmetic is exact

A tree of integer literals, negations and the four operations has a value in the integers, unless
it divides by zero. Evaluation finds this value if the values of all nodes on the way fit into 64
bits, and otherwise it fails at the first node of which this is not true
(`Interpreter.exact_arithmetic`). Nodes come in the order in which they are computed, each after its
operands (`Expr.postorder`).

A node whose operands are in order gives its exact value or an error of its own
(`Expr.NodeResult`). A tree gets through all of its nodes or stops at one of them
(`Expr.TreeResult`); an operand that stops decides for the tree, the left one before the right one.
-/

namespace LetCalculus

/-- The four operations on all integers. Only division can be without a result. -/
def BinaryOp.integer? : BinaryOp → Int → Int → Option Int
  | .add, a, b => some (a + b)
  | .sub, a, b => some (a - b)
  | .mul, a, b => some (a * b)
  | .div, a, b => if b = 0 then none else some (a.tdiv b)
  | _, _, _ => none

namespace Expr

/-- Trees of integer literals, negations and the four operations. -/
inductive IsArithmetic : Expr → Prop
  | int (n : Int64) : IsArithmetic (int n)
  | neg {e : Expr} : IsArithmetic e → IsArithmetic (unary .neg e)
  | binary {op : BinaryOp} {l r : Expr} : op ∈ [BinaryOp.add, .sub, .mul, .div] →
    IsArithmetic l → IsArithmetic r → IsArithmetic (binary op l r)

/-- The value of a tree in the integers, without regard to what fits into 64 bits. -/
def integer? : Expr → Option Int
  | int n => some n.toInt
  | unary .neg e => e.integer?.map fun a => -a
  | binary op l r => do op.integer? (← l.integer?) (← r.integer?)
  | _ => none

/-- Whether a tree has an exact value, and one that fits into 64 bits. -/
def fits (e : Expr) : Bool := e.integer?.any fun n => -2 ^ 63 ≤ n ∧ n ≤ 2 ^ 63 - 1

/-- The parts of an expression from left to right, each after its own parts. -/
def postorder : Expr → List Expr
  | unary op e => e.postorder ++ [unary op e]
  | binary op l r => l.postorder ++ r.postorder ++ [binary op l r]
  | cond c y n => c.postorder ++ y.postorder ++ n.postorder ++ [cond c y n]
  | fn x b => b.postorder ++ [fn x b]
  | letIn x v b => v.postorder ++ b.postorder ++ [letIn x v b]
  | letRec x v b => v.postorder ++ b.postorder ++ [letRec x v b]
  | app f a => f.postorder ++ a.postorder ++ [app f a]
  | e => [e]

/-- The first node in this order that does not fit. -/
def misfit? (e : Expr) : Option Expr := e.postorder.find? fun a => !a.fits

/-- The error of a node that does not fit, while its operands do. -/
def fault : Expr → EvalError
  | binary .add _ _ => .integerOverflow "addition"
  | binary .sub _ _ => .integerOverflow "subtraction"
  | binary .mul _ _ => .integerOverflow "multiplication"
  | binary .div _ r => if r.integer? = some 0 then .divisionByZero else .integerOverflow "division"
  | _ => .integerOverflow "negation"

/-- What a node gives whose operands fit: its exact value, or else an error of its own. -/
inductive NodeResult (e : Expr) : Except EvalError Value → Prop
  | value (n : Int64) : e.integer? = some n.toInt → NodeResult e (.ok (.plain (.int n)))
  | fault : e.fits = false → NodeResult e (.error e.fault)

/-- What a tree gives: its exact value, or else the error of the first node that does not fit. -/
inductive TreeResult (e : Expr) : Except EvalError Value → Prop
  | value (n : Int64) : e.misfit? = none → e.integer? = some n.toInt →
    TreeResult e (.ok (.plain (.int n)))
  | fault {a : Expr} : e.misfit? = some a → TreeResult e (.error a.fault)

variable {e l r : Expr} {m n : Int64} {p q : Except EvalError Value}

theorem fits_iff : e.fits = true ↔ ∃ n, e.integer? = some n ∧ -2 ^ 63 ≤ n ∧ n ≤ 2 ^ 63 - 1 := by
  simp [fits, Option.any_eq_true]

theorem fits_of_integer? (h : e.integer? = some n.toInt) : e.fits = true :=
  fits_iff.2 ⟨n.toInt, h, n.le_toInt, Int.le_sub_one_of_lt n.toInt_lt⟩

theorem nodeResult_intResult {a : Int} {operation : String} (ha : e.integer? = some a)
    (hf : e.fault = .integerOverflow operation) : e.NodeResult (intResult operation a) := by
  have hfit : e.fits = decide (-2 ^ 63 ≤ a ∧ a ≤ 2 ^ 63 - 1) := by rw [fits, ha, Option.any_some]
  unfold intResult
  rw [Int64.toInt_minValue, Int64.toInt_maxValue]
  split
  · next h =>
    have ht : (Int64.ofInt a).toInt = a :=
      Int64.toInt_ofInt_of_le h.1 (Int.lt_of_le_sub_one h.2)
    exact .value _ (by rw [ht, ha])
  · next h =>
    rw [← hf]
    exact .fault (hfit.trans (decide_eq_false h))

theorem nodeResult_neg (he : e.integer? = some n.toInt) :
    (unary .neg e).NodeResult (UnaryOp.neg.apply (.plain (.int n))) :=
  nodeResult_intResult (by rw [integer?, he, Option.map_some]) rfl

theorem integer?_binary (op : BinaryOp) (hl : l.integer? = some m.toInt)
    (hr : r.integer? = some n.toInt) : (binary op l r).integer? = op.integer? m.toInt n.toInt := by
  rw [integer?, hl, hr]
  rfl

theorem nodeResult_div (hl : l.integer? = some m.toInt) (hr : r.integer? = some n.toInt) :
    (binary .div l r).NodeResult (BinaryOp.div.onInts m n) := by
  have hv := integer?_binary .div hl hr
  simp only [BinaryOp.integer?] at hv
  simp only [BinaryOp.onInts]
  split
  · next hn =>
    have hf : (binary .div l r).fault = .divisionByZero := by rw [fault, hr, hn, if_pos rfl]
    rw [← hf]
    exact .fault (by rw [fits, hv, if_pos hn, Option.any_none])
  · next hn =>
    rw [if_neg hn] at hv
    have hz : r.integer? ≠ some 0 := by
      rw [hr]
      exact fun h => hn (Option.some.inj h)
    exact nodeResult_intResult hv (by rw [fault, if_neg hz])

theorem nodeResult_binary {op : BinaryOp} (hop : op ∈ [BinaryOp.add, .sub, .mul, .div])
    (hl : l.integer? = some m.toInt) (hr : r.integer? = some n.toInt) :
    (binary op l r).NodeResult (op.apply (.plain (.int m)) (.plain (.int n))) := by
  cases op with
  | add | sub | mul => exact nodeResult_intResult (integer?_binary _ hl hr) rfl
  | div => exact nodeResult_div hl hr
  | _ => simp at hop

theorem misfit?_eq_none_iff : e.misfit? = none ↔ ∀ a ∈ e.postorder, a.fits = true := by
  simp [misfit?]

namespace TreeResult

/-- Once all operands have got through, a tree gives what its root gives. -/
theorem root (before : List Expr) (hp : e.postorder = before ++ [e])
    (hb : before.find? (fun a => !a.fits) = none) (h : e.NodeResult q) : e.TreeResult q := by
  have hm : e.misfit? = [e].find? fun a => !a.fits := by
    rw [misfit?, hp, List.find?_append, hb, Option.none_or]
  cases h with
  | value n hn => exact .value n (by simp [hm, fits_of_integer? hn]) hn
  | fault hn => exact .fault (by simp [hm, hn])

/-- An operand that stops, after others that have got through, decides for the tree. -/
theorem operand {x : EvalError} (before : List Expr) {rest : List Expr}
    (h : l.TreeResult (.error x)) (hp : e.postorder = before ++ (l.postorder ++ rest))
    (hb : before.find? (fun a => !a.fits) = none) : e.TreeResult (.error x) := by
  cases h with
  | fault hl =>
    rw [misfit?] at hl
    refine .fault ?_
    rw [misfit?, hp, List.find?_append, hb, Option.none_or, List.find?_append, hl, Option.some_or]

theorem neg (h : e.TreeResult q) : (unary .neg e).TreeResult (q >>= UnaryOp.neg.apply) := by
  cases q with
  | error x => exact h.operand [] rfl rfl
  | ok v =>
    cases h with
    | value n he hn => exact .root _ rfl he (nodeResult_neg hn)

theorem binary {op : BinaryOp} (hop : op ∈ [BinaryOp.add, .sub, .mul, .div])
    (hl : l.TreeResult p) (hr : r.TreeResult q) :
    (Expr.binary op l r).TreeResult (p >>= fun a => q >>= fun b => op.apply a b) := by
  cases p with
  | error x => exact hl.operand [] (List.append_assoc ..) rfl
  | ok v =>
    cases hl with
    | value m hl hm =>
      cases q with
      | error x => exact hr.operand _ (List.append_assoc ..) hl
      | ok w =>
        cases hr with
        | value n hr hn =>
          refine .root _ rfl ?_ (nodeResult_binary hop hm hn)
          rw [misfit?] at hl hr
          rw [List.find?_append, hl, hr, Option.none_or]

end TreeResult

end Expr

namespace Discipline

open LetCalculus.Expr

variable {s : Discipline} {e l r : Expr} {env : Environment} {σ : State}
  {p q : Except EvalError Value}

/-- Within a depth for all of its nodes an expression comes to `q` and leaves the state as it is. -/
def Gives (s : Discipline) (env : Environment) (σ : State) (e : Expr) (q : Except EvalError Value) :
    Prop := ∀ d ≥ e.size, s.eval d e env σ = EvalM.ofExcept q σ

theorem bind_of_eq_ofExcept {m : EvalM Value} (h : m σ = EvalM.ofExcept q σ)
    (f : Value → EvalM Value) : (m >>= f) σ = (EvalM.ofExcept q >>= f) σ := by
  simp only [Bind.bind, EStateM.bind, h]

theorem Gives.unary (h : s.Gives env σ e q) (op : UnaryOp) :
    s.Gives env σ (.unary op e) (q >>= op.apply) := by
  intro d hd
  obtain ⟨d, rfl⟩ := Nat.exists_eq_add_of_le' (Nat.le_trans (size_pos _) hd)
  refine (bind_of_eq_ofExcept (h d (Nat.le_of_succ_le_succ hd)) _).trans ?_
  cases q <;> rfl

theorem Gives.binary (hl : s.Gives env σ l p) (hr : s.Gives env σ r q) (op : BinaryOp) :
    s.Gives env σ (.binary op l r) (p >>= fun a => q >>= fun b => op.apply a b) := by
  intro d hd
  obtain ⟨d, rfl⟩ := Nat.exists_eq_add_of_le' (Nat.le_trans (size_pos _) hd)
  have hd : l.size + r.size ≤ d := Nat.le_of_succ_le_succ hd
  refine (bind_of_eq_ofExcept (hl d (Nat.le_of_add_right_le hd)) _).trans ?_
  cases p with
  | error x => rfl
  | ok v =>
    refine (bind_of_eq_ofExcept (hr d (Nat.le_trans (Nat.le_add_left _ _) hd)) _).trans ?_
    cases q <;> rfl

/-- What a tree of integer arithmetic gives is its exact value or the first fault in it. -/
theorem exists_gives (he : e.IsArithmetic) (s : Discipline) (env : Environment) (σ : State) :
    ∃ q, e.TreeResult q ∧ s.Gives env σ e q := by
  induction he with
  | int n =>
    refine ⟨_, .root [] rfl rfl (.value n rfl), ?_⟩
    intro d hd
    obtain ⟨d, rfl⟩ := Nat.exists_eq_add_of_le' (show 1 ≤ d from hd)
    rfl
  | neg _ ih =>
    obtain ⟨q, ht, hg⟩ := ih
    exact ⟨_, ht.neg, hg.unary .neg⟩
  | @binary op _ _ hop _ _ ihl ihr =>
    obtain ⟨p, htl, hgl⟩ := ihl
    obtain ⟨q, htr, hgr⟩ := ihr
    exact ⟨_, htl.binary hop htr, hgl.binary hgr op⟩

theorem Gives.evaluates (h : s.Gives env σ e q) : s.Evaluates e env σ (EvalM.ofExcept q σ) := by
  have hd := h e.size (Nat.le_refl _)
  rw [← hd]
  refine evaluates_eval ?_
  rw [hd]
  cases q <;> trivial

end Discipline

namespace Interpreter

open LetCalculus.Expr

/--
A tree of integer arithmetic has an end to its evaluation, under every discipline and in every
environment, and leaves the state as it is. If the exact value of every node fits into 64 bits, the
tree comes to its exact value. Otherwise it comes to the error of the first node in postorder that
does not fit: division by zero if it divides by zero, and an overflow in its operation if not.
A value that is not the exact one is never returned, whatever the limit.
-/
theorem exact_arithmetic {e : Expr} (he : e.IsArithmetic) (s : Discipline) (env : Environment)
    (σ : State) :
    ∃ r, s.Evaluates e env σ r ∧
      (∀ a ≥ e.size, eval ⟨.reducing s, none⟩ a e env σ = Outcome.ofUnlimited r) ∧
      ((∀ b ∈ e.postorder, b.fits = true) →
        ∃ n : Int64, e.integer? = some n.toInt ∧ r = .ok (.plain (.int n)) σ) ∧
      (∀ b, e.misfit? = some b → r = .error (.failed b.fault) σ) ∧
      ∀ limit a v σ', eval ⟨.reducing s, limit⟩ a e env σ = (.value v, σ') →
        ∃ n : Int64, e.integer? = some n.toInt ∧ v = .plain (.int n) := by
  obtain ⟨q, ht, hg⟩ := Discipline.exists_gives he s env σ
  refine ⟨EvalM.ofExcept q σ, hg.evaluates, ?_, ?_, ?_, ?_⟩
  · intro a ha
    rw [eval_unlimited, hg a ha]
  · intro hf
    cases ht with
    | value n _ hn => exact ⟨n, hn, rfl⟩
    | fault hm =>
      rw [misfit?_eq_none_iff.2 hf] at hm
      cases hm
  · intro b hb
    cases ht with
    | value n hm _ =>
      rw [hm] at hb
      cases hb
    | fault hm =>
      rw [hm] at hb
      cases hb
      rfl
  · intro limit a v σ' h
    have h := eval_eq_value_iff.1 h
    have hv : s.Evaluates e env σ (.ok v σ') := by
      rw [← h]
      exact Discipline.evaluates_eval (by rw [h]; trivial)
    have hr := hv.unique hg.evaluates
    cases ht with
    | value n _ hn =>
      cases hr
      exact ⟨n, hn, rfl⟩
    | fault _ => cases hr

/-- The least integer divided by minus one does not fit, and it comes before a division by zero. -/
theorem exact_arithmetic_min :
    let least : Expr := .int Int64.minValue
    let quotient : Expr := .binary .div least (.unary .neg (.int 1))
    let e : Expr := .binary .add quotient (.binary .div least (.int 0))
    e.IsArithmetic ∧ e.misfit? = some quotient ∧
      eval ⟨.reducing .dynamic, none⟩ 8 e ⟨0, []⟩ .initial =
        (.error (.integerOverflow "division"), .initial) := by
  intro least quotient e
  have hq : quotient.IsArithmetic := .binary (by decide) (.int _) (.neg (.int 1))
  have he : e.IsArithmetic := .binary (by decide) hq (.binary (by decide) (.int _) (.int 0))
  have hm : e.misfit? = some quotient := by decide
  obtain ⟨r, -, heval, -, hfault, -⟩ := exact_arithmetic he .dynamic ⟨0, []⟩ .initial
  refine ⟨he, hm, ?_⟩
  rw [heval 8 (by decide), hfault quotient hm]
  rfl

end Interpreter

end LetCalculus
