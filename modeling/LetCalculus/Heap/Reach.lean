import LetCalculus.Heap.Basic

/-!
# Reachability

What an evaluation can see from an environment: the cells that it binds, and those that are bound
by the environments of the closures in these cells, and so on. Recursive functions make this
relation cyclic.
-/

namespace LetCalculus.Heap

/-- The cells that can be seen from an environment. -/
inductive Reaches (h : Heap) (env : Environment) : Cell → Prop
  | bound {x : Name} {c : Cell} : (x, c) ∈ env.bindings → Reaches h env c
  | captured {f : Lambda} {scope : Environment} {x : Name} {c d : Cell} :
    Reaches h env c → h.read c = .closure f scope → (x, d) ∈ scope.bindings → Reaches h env d

variable {h h' : Heap} {env scope : Environment} {c d : Cell} {f : Lambda}

theorem Reaches.trans (hc : h.Reaches env c) (hf : h.read c = .closure f scope)
    (hd : h.Reaches scope d) : h.Reaches env d := by
  induction hd with
  | bound hd => exact hc.captured hf hd
  | captured _ hg hd ih => exact ih.captured hg hd

/-- Reachability depends on the contents of the cells that are reached alone. -/
theorem Reaches.congr (hd : h.Reaches env d) (he : ∀ c, h.Reaches env c → h'.read c = h.read c) :
    h'.Reaches env d := by
  induction hd with
  | bound hd => exact .bound hd
  | captured hc hf hd ih => exact ih.captured ((he _ hc).trans hf) hd

theorem Reaches.eq_of_loop {x : Name} (hb : env.bindings = [(x, c)])
    (hf : h.read c = .closure f env) (hd : h.Reaches env d) : d = c := by
  have only : ∀ {y : Name} {d : Cell}, (y, d) ∈ env.bindings → d = c := by
    intro y d hy
    rw [hb] at hy
    exact (Prod.mk.inj (List.mem_singleton.1 hy)).2
  induction hd with
  | bound hy => exact only hy
  | captured _ hr hy ih =>
    subst ih
    cases hf.symm.trans hr
    exact only hy

end LetCalculus.Heap
