import LetCalculus.Interpreter
import LetCalculus.Proofs.Evaluation.HeapSteps
import LetCalculus.Proofs.Evaluation.Invariant

/-!
# Evaluation leaves old cells alone

A run writes a cell only to assign its value to a recursive definition of its own. The cells that
wait for such a value are new since the start of the run, have no value yet, and are all different
(`Undisturbed`). Every step keeps this, so no cell that was there before is ever written, wherever
the run ends and however (`extends_of_eval`), and no cell is written twice, since what is assigned
is never the placeholder (`Undisturbed.ne_of_backpatches`).
-/

namespace LetCalculus.Machine

structure Declares (c : Config) (p : Cell) : Prop where
  control : ∃ d x v b env, c.control = .eval (d + 1) (.letRec x v b) env
  cell : p = (c.state.heap.alloc .unassigned).1

/-- The value of the recursive definition that waits at the top of the stack is assigned to it. -/
structure Backpatches (c c' : Config) (p : Cell) (v : Value) : Prop where
  returned : c.control = .ret v
  waiting : pending c.stack = p :: pending c'.stack
  written : c'.state.heap = c.state.heap.write p v

/-- What a run that starts from the heap `h₀` keeps at every step. -/
structure Undisturbed (h₀ : Heap) (c : Config) : Prop where
  old : c.state.heap.Extends h₀
  distinct : (pending c.stack).Nodup
  waiting : ∀ p ∈ pending c.stack,
    ¬h₀.Holds p ∧ c.state.heap.Holds p ∧ c.state.heap.read p = .unassigned

variable {s : Discipline} {c c' : Config} {h₀ : Heap} {σ : State} {p : Cell} {v : Value}

theorem Touches.extends_or_backpatches (h : Touches c c') :
    c'.state.heap.Extends c.state.heap ∨ ∃ p v, Backpatches c c' p v := by
  cases h with
  | nothing hc _ => exact .inl (Heap.extends_of_cells_eq hc)
  | defines v _ hc _ => exact .inl ((Heap.extends_of_cells_eq hc).trans (Heap.extends_alloc _ v))
  | declares hc _ => exact .inl ((Heap.extends_of_cells_eq hc).trans (Heap.extends_alloc _ _))
  | assigns v p hr hc hk => exact .inr ⟨p, v, hr, hk, hc⟩

theorem Backpatches.mem_pending (hb : Backpatches c c' p v) : p ∈ pending c.stack := by
  rw [hb.waiting]
  exact List.mem_cons_self

namespace Undisturbed

theorem start {ctrl : Control} (hσ : σ.heap = h₀) : Undisturbed h₀ ⟨ctrl, [], σ⟩ where
  old := Heap.extends_of_cells_eq (congrArg Heap.cells hσ)
  distinct := List.nodup_nil
  waiting _ hp := absurd hp List.not_mem_nil

theorem extend (hu : Undisturbed h₀ c) (hx : c'.state.heap.Extends c.state.heap)
    (hk : pending c'.stack = pending c.stack) : Undisturbed h₀ c' where
  old := hx.trans hu.old
  distinct := hk ▸ hu.distinct
  waiting p hp := by
    obtain ⟨hn, hold, hr⟩ := hu.waiting p (hk ▸ hp)
    obtain ⟨hold', hr'⟩ := hx p hold
    exact ⟨hn, hold', hr'.trans hr⟩

theorem declare (hu : Undisturbed h₀ c)
    (hc : c'.state.heap.cells = (c.state.heap.alloc .unassigned).2.cells)
    (hk : pending c'.stack = (c.state.heap.alloc .unassigned).1 :: pending c.stack) :
    Undisturbed h₀ c' := by
  have hx := (Heap.extends_of_cells_eq hc).trans (Heap.extends_alloc c.state.heap .unassigned)
  have hnew : ¬c.state.heap.Holds (c.state.heap.alloc .unassigned).1 := Nat.lt_irrefl _
  refine ⟨hx.trans hu.old, ?_, ?_⟩
  · rw [hk]
    exact List.nodup_cons.2 ⟨fun hm => hnew (hu.waiting _ hm).2.1, hu.distinct⟩
  · rw [hk]
    refine List.forall_mem_cons.2 ⟨⟨fun hold => hnew (hu.old _ hold).1, ?_, ?_⟩, ?_⟩
    · exact (Heap.holds_congr hc).2 (Heap.holds_alloc_iff.2 (.inr rfl))
    · exact (Heap.read_congr hc _).trans (Heap.read_alloc_self _ _)
    · intro p hp
      obtain ⟨hn, hold, hr⟩ := hu.waiting p hp
      exact ⟨hn, (hx p hold).1, (hx p hold).2.trans hr⟩

theorem assign (hu : Undisturbed h₀ c) (hb : Backpatches c c' p v) : Undisturbed h₀ c' := by
  obtain ⟨hn, -, -⟩ := hu.waiting p hb.mem_pending
  have hd := hu.distinct
  rw [hb.waiting] at hd
  obtain ⟨hp, hd⟩ := List.nodup_cons.1 hd
  refine ⟨?_, hd, ?_⟩
  · rw [hb.written]
    exact hu.old.write hn v
  · intro q hq
    obtain ⟨hn, hold, hr⟩ := hu.waiting q (hb.waiting ▸ List.mem_cons_of_mem p hq)
    have hqp : q ≠ p := by
      rintro rfl
      exact hp hq
    rw [hb.written]
    exact ⟨hn, (Heap.holds_write v).2 hold, (Heap.read_write_of_ne hqp v).trans hr⟩

theorem touches (hu : Undisturbed h₀ c) (h : Touches c c') : Undisturbed h₀ c' := by
  cases h with
  | nothing hc hk => exact hu.extend (Heap.extends_of_cells_eq hc) hk
  | defines v _ hc hk =>
    exact hu.extend ((Heap.extends_of_cells_eq hc).trans (Heap.extends_alloc _ v)) hk
  | declares hc hk => exact hu.declare hc hk
  | assigns v p hr hc hk => exact hu.assign ⟨hr, hk, hc⟩

theorem leads (hu : Undisturbed h₀ c) (hl : Leads s c c') : Undisturbed h₀ c' :=
  hl.induction_on (fun _ _ hu hs => hu.touches (touches_of_step hs)) hu

/-- Only cells without a value are written, so values stay where they are. -/
theorem grows (hu : Undisturbed h₀ c) (h : Touches c c') : c.state.heap.Grows c'.state.heap := by
  rcases h.extends_or_backpatches with hx | ⟨p, v, hb⟩
  · exact hx.grows
  · rw [hb.written]
    exact Heap.grows_write (hu.waiting p hb.mem_pending).2.2 v

theorem grows_leads (hu : Undisturbed h₀ c) (hl : Leads s c c') :
    c.state.heap.Grows c'.state.heap := by
  induction hl with
  | refl => exact .refl _
  | head hs _ ih =>
    have ht := touches_of_step hs
    exact (hu.grows ht).trans (ih (hu.touches ht))

/-- Once a value has been assigned to a cell, the run never writes to the cell again. -/
theorem ne_of_backpatches (hu : Undisturbed h₀ c) (hb : Backpatches c c' p v)
    (hv : v ≠ .unassigned) {d d' : Config} (hl : Leads s c' d) {q : Cell} {w : Value}
    (hd : Backpatches d d' q w) : q ≠ p := by
  rintro rfl
  obtain ⟨-, hold, -⟩ := hu.waiting q hb.mem_pending
  have hu' := hu.assign hb
  have hr : c'.state.heap.read q = v := by
    rw [hb.written]
    exact Heap.read_write_self hold v
  have hr' : d.state.heap.read q = v := (hu'.grows_leads hl q (by rwa [hr])).trans hr
  have hw := ((hu'.leads hl).waiting q hd.mem_pending).2.2
  exact hv (hr'.symm.trans hw)

end Undisturbed

/-! ### Where the cells come from -/

theorem mem_pending_of_stepRet {f : Frame} {k : List Frame}
    (h : stepRet s v f k σ = .inr c') (hp : p ∈ pending c'.stack) : p ∈ pending (f :: k) := by
  cases f with
  | unary op | binary op l =>
    obtain ⟨w, rfl⟩ := eq_ret_of_give h
    exact hp
  | right op r env d =>
    cases h
    exact hp
  | branch y n env d =>
    simp only [stepRet] at h
    split at h
    · cases h
      exact hp
    · cases h
  | bind x body env d =>
    cases s with
    | substitution | dynamic | lexical =>
      cases h
      exact hp
  | assign q body env d =>
    cases h
    exact List.mem_cons_of_mem q hp
  | argument arg env d =>
    simp only [stepRet] at h
    split at h
    · cases h
      exact hp
    · cases h

theorem declares_of_step (h : step s c = .inr c') (hp : p ∈ pending c'.stack) :
    p ∈ pending c.stack ∨ Declares c p := by
  obtain ⟨ctrl, k, σ⟩ := c
  match ctrl, k with
  | .eval 0 e env, k => cases h
  | .eval (d + 1) e env, k =>
    cases e with
    | var x =>
      obtain ⟨v, rfl⟩ := eq_ret_of_give h
      exact .inl hp
    | letRec x v b =>
      cases s with
      | substitution =>
        cases h
        exact .inl hp
      | dynamic | lexical =>
        cases h
        rcases List.mem_cons.1 hp with rfl | hp
        · exact .inr ⟨⟨d, x, v, b, env, rfl⟩, rfl⟩
        · exact .inl hp
    | raise | unassigned => cases h
    | _ =>
      cases h
      exact .inl hp
  | .ret v, [] => cases h
  | .ret v, f :: k => exact .inl (mem_pending_of_stepRet h hp)

/-- A cell that waits at the end of a run waited at its start or was declared on the way. -/
theorem Leads.declares (hl : Leads s c c') (hp : p ∈ pending c'.stack) :
    p ∈ pending c.stack ∨ ∃ d, Leads s c d ∧ Leads s d c' ∧ Declares d p := by
  induction hl with
  | refl => exact .inl hp
  | @head c d c' hs hl ih =>
    rcases ih hp with hp | ⟨d', hd, hd', hp⟩
    · rcases declares_of_step hs hp with hp | hp
      · exact .inl hp
      · exact .inr ⟨c, .refl c, .head hs hl, hp⟩
    · exact .inr ⟨d', .head hs hd, hd', hp⟩

/-! ### What is returned, and what a run leaves behind -/

theorem opens_trivial (value : Value → Prop) (cell : Cell → Prop) (x : Name) (body : Expr)
    (env : Environment) : Opens s (fun _ _ => True) value cell x body env := by
  cases s with
  | substitution => exact fun _ _ _ => trivial
  | dynamic | lexical => exact fun _ _ _ => trivial

def Invariant.assigned (s : Discipline) : Invariant s where
  code _ _ := True
  value v := v ≠ .unassigned
  cell _ := True
  literal _ hl := Value.ne_unassigned_of_isLiteral hl
  var _ _ := trivial
  unary _ := trivial
  binary _ := ⟨trivial, trivial⟩
  cond _ := ⟨trivial, trivial, trivial⟩
  fn _ := by cases s <;> nofun
  letIn _ := ⟨trivial, opens_trivial _ _ _ _ _⟩
  unroll _ _ := ⟨fun _ => trivial, opens_trivial _ _ _ _ _⟩
  letRec _ _ _ := ⟨trivial, trivial⟩
  app _ := ⟨trivial, trivial, fun _ _ _ _ _ => opens_trivial _ _ _ _ _⟩

theorem returned_ne_unassigned {d : Nat} {e : Expr} {env : Environment}
    (hl : Leads s ⟨.eval d e env, [], σ⟩ c) (hr : c.control = .ret v) : v ≠ .unassigned := by
  have hh : (Invariant.assigned s).OnHeap σ.heap := ⟨fun c _ => Classical.em _, fun _ _ => trivial⟩
  have hc := ((Invariant.config_start trivial hh).leads hl).control
  rwa [hr] at hc

/-- The state in which a run ends, with a value or without. -/
def endState {α : Type} : EStateM.Result Halt State α → State
  | .ok _ σ | .error _ σ => σ

theorem state_of_give {k : List Frame} {r : Except EvalError Value} {f : Final}
    (h : give k σ r = .inl f) : endState f = σ := by
  cases r with
  | ok v => cases h
  | error x =>
    cases h
    rfl

theorem state_of_step {r : Final} (h : step s c = .inl r) : endState r = c.state := by
  obtain ⟨ctrl, k, σ⟩ := c
  match ctrl, k with
  | .eval 0 e env, k =>
    cases h
    rfl
  | .eval (d + 1) e env, k =>
    cases e with
    | var x => exact state_of_give h
    | letRec x v b => cases s <;> cases h
    | raise | unassigned =>
      cases h
      rfl
    | _ => cases h
  | .ret v, [] =>
    cases h
    rfl
  | .ret v, f :: k =>
    cases f with
    | unary op | binary op l => exact state_of_give h
    | branch y n env d =>
      simp only [step, stepRet] at h
      split at h
      · cases h
      · cases h
        rfl
    | bind x body env d => cases s <;> cases h
    | argument arg env d =>
      simp only [step, stepRet] at h
      split at h
      · cases h
      · cases h
        rfl
    | _ => cases h

theorem exists_leads_endState (s : Discipline) (d : Nat) (e : Expr) (env : Environment)
    (σ : State) : ∃ c, Leads s ⟨.eval d e env, [], σ⟩ c ∧
      endState (s.eval d e env σ) = c.state := by
  obtain ⟨c, hl, hf⟩ := exists_leads_final s ⟨.eval d e env, [], σ⟩
  have hr : runFrom s ⟨.eval d e env, [], σ⟩ = s.eval d e env σ :=
    congrFun (run_eq_eval s d e env) σ
  exact ⟨c, hl, hr ▸ state_of_step hf⟩

/-- Whether it succeeds or fails, an evaluation leaves the cells that were there as they were. -/
theorem extends_of_eval (s : Discipline) (d : Nat) (e : Expr) (env : Environment) (σ : State) :
    (endState (s.eval d e env σ)).heap.Extends σ.heap := by
  obtain ⟨c, hl, hc⟩ := exists_leads_endState s d e env σ
  rw [hc]
  exact ((Undisturbed.start rfl).leads hl).old

end LetCalculus.Machine

namespace LetCalculus.Interpreter

theorem state_eval (s : Discipline) (limit : Option Nat) (a : Nat) (e : Expr) (env : Environment)
    (σ : State) : (eval ⟨.reducing s, limit⟩ a e env σ).2 =
      Machine.endState (s.eval (limit.getD a) e env σ) := by
  cases limit with
  | none =>
    rw [eval_unlimited, Option.getD_none]
    rcases s.eval a e env σ with ⟨v, τ⟩ | ⟨_ | _, τ⟩ <;> rfl
  | some m =>
    rw [eval_limited, Option.getD_some]
    rcases s.eval m e env σ with ⟨v, τ⟩ | ⟨_ | _, τ⟩ <;> rfl

theorem extends_eval (i : Interpreter) (a : Nat) (e : Expr) (env : Environment) (σ : State) :
    (i.eval a e env σ).2.heap.Extends σ.heap := by
  obtain ⟨strategy, limit⟩ := i
  cases strategy with
  | trivial => exact .refl _
  | reducing s =>
    rw [state_eval]
    exact Machine.extends_of_eval s _ e env σ

end LetCalculus.Interpreter
