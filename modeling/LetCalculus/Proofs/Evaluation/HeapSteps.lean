import LetCalculus.Eval.Trace

/-!
# What a step does to the heap

Of all steps few touch the heap (`touches_of_step`): one that enters a body gives the returned
value a new cell, one that begins a recursive definition gives it a cell without a value, and one
that ends the evaluation of its value assigns this cell. The cells without a value wait for the
frames on the stack that will assign them, so what a run has allocated is assigned or waits
(`Awaited.touches`), and where no frame is left nothing waits.
-/

namespace LetCalculus.Machine

def Frame.target? : Frame → Option Cell
  | .assign c .. => some c
  | _ => none

/-- The cells that wait for their values, the last declared first. -/
def pending (k : List Frame) : List Cell := k.filterMap Frame.target?

inductive Touches (c c' : Config) : Prop
  | nothing : c'.state.heap.cells = c.state.heap.cells → pending c'.stack = pending c.stack →
    Touches c c'
  | defines (v : Value) : c.control = .ret v →
    c'.state.heap.cells = (c.state.heap.alloc v).2.cells → pending c'.stack = pending c.stack →
    Touches c c'
  | declares : c'.state.heap.cells = (c.state.heap.alloc .unassigned).2.cells →
    pending c'.stack = (c.state.heap.alloc .unassigned).1 :: pending c.stack → Touches c c'
  | assigns (v : Value) (p : Cell) : c.control = .ret v →
    c'.state.heap = c.state.heap.write p v → pending c.stack = p :: pending c'.stack →
    Touches c c'

variable {s : Discipline} {c c' : Config} {k : List Frame} {σ : State}

theorem eq_ret_of_give {r : Except EvalError Value} (h : give k σ r = .inr c') :
    ∃ v, c' = ⟨.ret v, k, σ⟩ := by
  cases r with
  | ok v => exact ⟨v, (Sum.inr.inj h).symm⟩
  | error e => cases h

theorem touches_of_enter {x : Name} {v : Value} {body : Expr} {env : Environment} {d : Nat}
    {f : Frame} (hf : f.target? = none) (h : enter s x v body env d k σ = .inr c') :
    Touches ⟨.ret v, f :: k, σ⟩ c' := by
  have hk : pending (f :: k) = pending k := by simp [pending, hf]
  cases s with
  | substitution =>
    cases h
    exact .nothing rfl hk.symm
  | dynamic | lexical =>
    cases h
    exact .defines v rfl rfl hk.symm

theorem touches_of_stepEval {d : Nat} {e : Expr} {env : Environment}
    (h : stepEval s d e env k σ = .inr c') : Touches ⟨.eval (d + 1) e env, k, σ⟩ c' := by
  cases e with
  | var x =>
    obtain ⟨v, rfl⟩ := eq_ret_of_give h
    exact .nothing rfl rfl
  | letRec x v b =>
    cases s with
    | substitution =>
      cases h
      exact .nothing rfl rfl
    | dynamic | lexical =>
      cases h
      exact .declares rfl rfl
  | raise | unassigned => cases h
  | _ =>
    cases h
    exact .nothing rfl rfl

theorem touches_of_stepRet {v : Value} {f : Frame} (h : stepRet s v f k σ = .inr c') :
    Touches ⟨.ret v, f :: k, σ⟩ c' := by
  cases f with
  | unary op | binary op l =>
    obtain ⟨w, rfl⟩ := eq_ret_of_give h
    exact .nothing rfl rfl
  | right op r env d =>
    cases h
    exact .nothing rfl rfl
  | branch y n env d =>
    simp only [stepRet] at h
    split at h
    · cases h
      exact .nothing rfl rfl
    · cases h
  | bind x body env d => exact touches_of_enter rfl h
  | assign p body env d =>
    cases h
    exact .assigns v p rfl rfl rfl
  | argument arg env d =>
    simp only [stepRet] at h
    split at h
    · cases h
      exact .nothing rfl rfl
    · cases h

theorem touches_of_step (h : step s c = .inr c') : Touches c c' := by
  obtain ⟨ctrl, k, σ⟩ := c
  match ctrl, k with
  | .eval 0 e env, k => cases h
  | .eval (d + 1) e env, k => exact touches_of_stepEval h
  | .ret v, [] => cases h
  | .ret v, f :: k => exact touches_of_stepRet h

/-- Every cell without a value that is new since `h₀` waits for the value. -/
def Awaited (h₀ : Heap) (c : Config) : Prop :=
  ∀ p, ¬h₀.Holds p → c.state.heap.Holds p → c.state.heap.read p = .unassigned →
    p ∈ pending c.stack

variable {h₀ : Heap}

theorem awaited_start (h₀ : Heap) {ctrl : Control} (hσ : σ.heap = h₀) :
    Awaited h₀ ⟨ctrl, k, σ⟩ := by
  subst hσ
  exact fun p hn hp => absurd hp hn

/-- What is returned is never the placeholder, so nothing gets lost that waits. -/
theorem Awaited.touches (ha : Awaited h₀ c) (h : Touches c c')
    (hv : ∀ v, c.control = .ret v → v ≠ .unassigned) : Awaited h₀ c' := by
  intro p hn hp hu
  cases h with
  | nothing hc hk =>
    rw [hk]
    exact ha p hn ((Heap.holds_congr hc).1 hp) ((Heap.read_congr hc p).symm.trans hu)
  | defines v hr hc hk =>
    rw [Heap.holds_congr hc, Heap.holds_alloc_iff] at hp
    rw [Heap.read_congr hc] at hu
    rw [hk]
    rcases hp with hp | rfl
    · exact ha p hn hp ((Heap.read_alloc_of_holds hp v).symm.trans hu)
    · exact absurd ((Heap.read_alloc_self _ v).symm.trans hu) (hv v hr)
  | declares hc hk =>
    rw [Heap.holds_congr hc, Heap.holds_alloc_iff] at hp
    rw [Heap.read_congr hc] at hu
    rw [hk]
    rcases hp with hp | rfl
    · have hu := (Heap.read_alloc_of_holds hp _).symm.trans hu
      exact List.mem_cons_of_mem _ (ha p hn hp hu)
    · exact List.mem_cons_self
  | assigns v q hr hc hk =>
    rw [hc] at hp hu
    have hold : c.state.heap.Holds p := (Heap.holds_write v).1 hp
    by_cases hq : p = q
    · subst hq
      exact absurd ((Heap.read_write_self hold v).symm.trans hu) (hv v hr)
    · have hm := ha p hn hold ((Heap.read_write_of_ne hq v).symm.trans hu)
      rw [hk] at hm
      exact (List.mem_cons.1 hm).resolve_left hq

end LetCalculus.Machine
