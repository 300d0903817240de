import Mathlib.Data.Finset.Card
import LetCalculus.Proofs.Evaluation.Provenance

/-!
# Environments do not grow with recursion

A call extends an environment by a parameter, and under dynamic scoping this is the environment of
the caller, so deep recursion extends environments again and again. But a name that is bound already
keeps its place, and no run invents names: it binds the names that its code has for parameters and
definitions, and all its code has been there at the start (`Invariant.supplied`). So there are
finitely many names that can ever be bound, and no environment is longer than their number
(`Interpreter.bounded_environments`).

The invariant has to speak of environments together with the code that is evaluated in them, for the
next name to be bound is one that this code binds.
-/

namespace LetCalculus

def Expr.binder? : Expr → Option Name
  | fn x _ | letIn x _ _ | letRec x _ _ => some x
  | _ => none

def Expr.binders (e : Expr) : List Name := e.parts.filterMap binder?

/-- The names that a value comes with: those of its environment, and those that its code binds. -/
def Value.names : Value → List Name
  | .plain e => e.binders
  | .closure f scope => scope.names ++ f.toExpr.binders

/-- The environments that can be made: empty ones, and others with a further binding. -/
inductive Environment.Made : Environment → Prop
  | empty (stamp : Nat) : Made ⟨stamp, []⟩
  | bind {env : Environment} (stamp : Nat) (x : Name) (c : Cell) :
    Made env → Made ⟨stamp, Environment.bind x c env.bindings⟩

/-- Whether an environment has been made, and so have those of the closures that can be seen. -/
structure Heap.Made (h : Heap) (env : Environment) : Prop where
  self : env.Made
  captured : ∀ {c f scope}, h.Reaches env c → h.read c = .closure f scope → scope.Made

/-- The names bound in an environment and in those that can be seen, and those that code binds. -/
inductive Nameable (h : Heap) (env : Environment) (e : Expr) (x : Name) : Prop
  | bound : x ∈ env.names → Nameable h env e x
  | captured {c : Cell} {f : Lambda} {scope : Environment} : h.Reaches env c →
    h.read c = .closure f scope → x ∈ scope.names → Nameable h env e x
  | program : x ∈ e.binders → Nameable h env e x
  | held {c : Cell} : h.Reaches env c → x ∈ (h.read c).toExpr.binders → Nameable h env e x

structure Environment.Over (name : Name → Prop) (env : Environment) : Prop where
  made : env.Made
  names : ∀ x ∈ env.names, name x

variable {s : Discipline} {h : Heap} {env env₀ : Environment} {a b e : Expr} {σ : State} {x : Name}
  {c : Cell} {v : Value} {name : Name → Prop}

theorem Environment.Made.nodup (he : env.Made) : env.names.Nodup := by
  induction he with
  | empty stamp => exact List.nodup_nil
  | bind stamp x c _ ih => exact nodup_bind ih x c

namespace Environment.Over

theorem bind (he : env.Over name) (hx : name x) (stamp : Nat) (c : Cell) :
    Over name ⟨stamp, Environment.bind x c env.bindings⟩ where
  made := he.made.bind stamp x c
  names y hy := by
    rcases mem_names_bind.1 hy with rfl | hy
    · exact hx
    · exact he.names y hy

theorem opens {code : Expr → Environment → Prop} {value value' : Value → Prop} {cell : Cell → Prop}
    (he : env.Over name) (hx : name x) (ho : Machine.Opens s code value cell x b env)
    (hs : s ≠ .substitution) :
    Machine.Opens s (fun e env => code e env ∧ env.Over name) value' cell x b env := by
  cases s with
  | substitution => exact absurd rfl hs
  | dynamic | lexical => exact fun c stamp hc => ⟨ho c stamp hc, he.bind hx stamp c⟩

theorem length_le {names : Finset Name} (he : env.Over (· ∈ names)) : env.length ≤ names.card :=
  calc
    env.length = env.names.toFinset.card := by
      rw [List.toFinset_card_of_nodup he.made.nodup, Environment.names, List.length_map, length]
    _ ≤ names.card := Finset.card_le_card fun x hx => he.names x (List.mem_toFinset.1 hx)

end Environment.Over

theorem Expr.mem_binders (ha : e.Part a) (hx : a.binder? = some x) : x ∈ e.binders :=
  List.mem_filterMap.2 ⟨a, part_iff_mem_parts.1 ha, hx⟩

theorem Supplied.nameable (ha : Supplied h env e a) (hx : a.binder? = some x) :
    Nameable h env e x := by
  cases ha with
  | program ha => exact .program (Expr.mem_binders ha hx)
  | held hc ha => exact .held hc (Expr.mem_binders ha hx)

theorem Value.mem_names (hx : x ∈ v.toExpr.binders) : x ∈ v.names := by
  cases v with
  | plain e => exact hx
  | closure f scope => exact List.mem_append_right _ hx

theorem Heap.exists_names_of_read (hx : x ∈ (h.read c).names) :
    ∃ v ∈ h.cells.toList, x ∈ v.names := by
  by_cases hc : h.Holds c
  · refine ⟨_, ?_, hx⟩
    rw [Heap.read, Array.getElem?_eq_getElem hc]
    exact Array.mem_toList_iff.2 (Array.getElem_mem hc)
  · rw [Heap.read_of_not_holds hc] at hx
    exact absurd hx List.not_mem_nil

/-- All names that can be bound are in the environment, in the expression or in some cell. -/
theorem Nameable.mem (hx : Nameable h env e x) :
    x ∈ env.names ++ (e.binders ++ h.cells.toList.flatMap Value.names) := by
  have cell : ∀ c, x ∈ (h.read c).names → x ∈ h.cells.toList.flatMap Value.names :=
    fun _ hx => List.mem_flatMap.2 (Heap.exists_names_of_read hx)
  rw [List.mem_append, List.mem_append]
  cases hx with
  | bound hx => exact .inl hx
  | program hx => exact .inr (.inl hx)
  | @captured c _ _ _ hr hx =>
    refine .inr (.inr (cell c ?_))
    rw [hr]
    exact List.mem_append_left _ hx
  | held _ hx => exact .inr (.inr (cell _ (Value.mem_names hx)))

theorem exists_nameable (h : Heap) (env : Environment) (e : Expr) :
    ∃ names : Finset Name, ∀ x, x ∈ names ↔ Nameable h env e x := by
  classical
  let all := env.names ++ (e.binders ++ h.cells.toList.flatMap Value.names)
  refine ⟨all.toFinset.filter (Nameable h env e), ?_⟩
  intro x
  rw [Finset.mem_filter, List.mem_toFinset]
  exact and_iff_right_of_imp Nameable.mem

namespace Machine

def Invariant.over (I : Invariant s) (hs : s ≠ .substitution)
    (code : ∀ {e env x}, I.code e env → e.binder? = some x → name x)
    (call : ∀ {v env g scope}, I.value v → s.callee? v env = some (g, scope) → name g.param) :
    Invariant s where
  code e env := I.code e env ∧ env.Over name
  value v := I.value v ∧ ∀ f scope, v = .closure f scope → scope.Over name
  cell := I.cell
  literal l hl := ⟨I.literal l hl, nofun⟩
  var ha := I.var ha.1
  unary ha := ⟨I.unary ha.1, ha.2⟩
  binary ha := ⟨⟨(I.binary ha.1).1, ha.2⟩, (I.binary ha.1).2, ha.2⟩
  cond ha := ⟨⟨(I.cond ha.1).1, ha.2⟩, ⟨(I.cond ha.1).2.1, ha.2⟩, (I.cond ha.1).2.2, ha.2⟩
  fn ha := by
    refine ⟨I.fn ha.1, ?_⟩
    intro f scope hv
    cases s with
    | substitution | dynamic => cases hv
    | lexical =>
      cases hv
      exact ha.2
  letIn ha := by
    obtain ⟨hv, hb⟩ := I.letIn ha.1
    exact ⟨⟨hv, ha.2⟩, ha.2.opens (code ha.1 rfl) hb hs⟩
  unroll hu := absurd hu hs
  letRec _ ha hp := by
    obtain ⟨hv, hb⟩ := I.letRec hs ha.1 hp
    have hx := code ha.1 rfl
    exact ⟨⟨hv, ha.2.bind hx _ _⟩, hb, ha.2.bind hx _ _⟩
  app ha := by
    obtain ⟨hf, hx, hg⟩ := I.app ha.1
    refine ⟨⟨hf, ha.2⟩, ⟨hx, ha.2⟩, ?_⟩
    intro v g scope hv hc
    have he : scope.Over name := Discipline.holds_of_callee? ha.2 hv.2 hc
    exact he.opens (call hv.1 hc) (hg v g scope hv.1 hc) hs

def Invariant.nameable (hs : s ≠ .substitution) (h : Heap) (env₀ : Environment) (e₀ : Expr) :
    Invariant s :=
  (Invariant.supplied hs h env₀ e₀).over hs (fun ha hx => ha.code.nameable hx)
    fun hv hg => (hv.1.callee hg).nameable rfl

theorem Invariant.onHeap_nameable (hs : s ≠ .substitution) (hm : h.Made env₀) (e₀ : Expr) :
    (Invariant.nameable hs h env₀ e₀).OnHeap h where
  read c hc := by
    rcases (Invariant.onHeap_supplied hs h env₀ e₀).read c hc with hr | hr
    · exact .inl hr
    · refine .inr ⟨hr, ?_⟩
      intro f scope hv
      -- A closure can only be read from a cell that could be seen.
      rcases hc with hc | hc
      · exact ⟨hm.captured hc hv, fun x hx => .captured hc hv hx⟩
      · rw [Heap.read_of_not_holds hc] at hv
        cases hv
  fresh := (Invariant.onHeap_supplied hs h env₀ e₀).fresh

theorem over_of_leads (hs : s ≠ .substitution) (hm : σ.heap.Made env) {d d' : Nat} {c : Config}
    {e' : Expr} {env' : Environment} (hl : Leads s ⟨.eval d e env, [], σ⟩ c)
    (hc : c.control = .eval d' e' env') : env'.Over (Nameable σ.heap env e) := by
  have start : (Invariant.nameable hs σ.heap env e).OnConfig ⟨.eval d e env, [], σ⟩ :=
    Invariant.config_start
      ⟨⟨.program .self, fun _ hb => .inl (.bound hb)⟩, hm.self, fun _ => .bound⟩
      (Invariant.onHeap_nameable hs hm e)
  have now := (start.leads hl).control
  rw [hc] at now
  exact now.2

end Machine

namespace Interpreter

/--
Under dynamic and under lexical scoping there are finitely many names that a run can bind, whatever
the limit on its depth: those that are bound in its environment or in that of a closure which can be
seen from there, and those that its expression or the code of a value which can be seen binds.
Wherever the run comes to evaluate an expression, the environment has each of its names once, has no
others than these, and so is not longer than their number.
-/
theorem bounded_environments (hs : s ≠ .substitution) (e : Expr) (env : Environment) (σ : State)
    (hm : σ.heap.Made env) :
    ∃ names : Finset Name, (∀ x, x ∈ names ↔ Nameable σ.heap env e x) ∧
      ∀ d c, Machine.Leads s ⟨.eval d e env, [], σ⟩ c →
        ∀ d' e' env', c.control = .eval d' e' env' →
          env'.names.Nodup ∧ (∀ x ∈ env'.names, x ∈ names) ∧ env'.length ≤ names.card := by
  obtain ⟨names, hn⟩ := exists_nameable σ.heap env e
  refine ⟨names, hn, ?_⟩
  intro d c hl d' e' env' hc
  obtain ⟨hmade, hnames⟩ := Machine.over_of_leads hs hm hl hc
  have ho : env'.Over (· ∈ names) := ⟨hmade, fun x hx => (hn x).2 (hnames x hx)⟩
  exact ⟨ho.made.nodup, ho.names, ho.length_le⟩

/-- A function that calls itself for ever: three names, however deep it gets. -/
theorem bounded_environments_loop :
    let x : Name := ⟨13⟩
    let f : Name := ⟨14⟩
    let g : Name := ⟨15⟩
    let e : Expr := .letIn g (.var f) (.app (.var g) (.bool true))
    let env : Environment := ⟨1, [(f, ⟨0⟩)]⟩
    let σ : State := ⟨.initial, ⟨#[.closure ⟨x, .app (.var f) (.var x)⟩ env], 2⟩⟩
    σ.heap.Made env ∧ ∀ d c, Machine.Leads .lexical ⟨.eval d e env, [], σ⟩ c →
      ∀ d' e' env', c.control = .eval d' e' env' → env'.names.Nodup ∧ env'.length ≤ 3 := by
  intro x f g e env σ
  have he : env.Made := .bind 1 f ⟨0⟩ (.empty 0)
  have hm : σ.heap.Made env := by
    refine ⟨he, ?_⟩
    intro c h scope hc hr
    obtain rfl : c = ⟨0⟩ := hc.eq_of_loop rfl rfl
    cases hr
    exact he
  refine ⟨hm, ?_⟩
  intro d c hl d' e' env' hc
  obtain ⟨names, hn, hb⟩ := bounded_environments (s := .lexical) (by decide) e env σ hm
  obtain ⟨hnodup, -, hlen⟩ := hb d c hl d' e' env' hc
  have hsub : names ⊆ {f, g, x} := by
    intro y hy
    have hy : y ∈ [f, g, f, x] := ((hn y).1 hy).mem
    simp only [List.mem_cons, List.not_mem_nil, or_false] at hy
    grind
  exact ⟨hnodup, hlen.trans (Finset.card_le_card hsub)⟩

end Interpreter

end LetCalculus
