import LetCalculus.Expr.Subst

/-!
# Free occurrence

`FreeIn x e` says, construct by construct, that `x` occurs in `e` outside the scope of every
binder of `x`. The traversal that collects free variables finds exactly these names, whatever
binders are in force at the start and whatever has been found before, and it leaves the stack of
binders as it was (`collects_collectFree`). `Collects` says this of any part of the traversal, and
has one lemma for each way in which its parts are put together.
-/

namespace LetCalculus

/--
Whether from `c` to `c'` the names with the property `P` are collected: the stack is as it was, and
to the names found before come those with `P` that are neither on the stack nor found already, each
of them once.
-/
structure Collects (P : Name → Prop) (c c' : Collector) : Prop where
  bound : c'.bound = c.bound
  found : ∃ added, c'.found = added ++ c.found ∧ added.Nodup ∧
    ∀ x, x ∈ added ↔ x ∉ c.found ∧ x ∉ c.bound ∧ P x

namespace Collects

variable {P Q : Name → Prop} {c c₁ c₂ : Collector} {x : Name}

theorem none (c : Collector) : Collects (fun _ => False) c c where
  bound := rfl
  found := ⟨[], by simp⟩

theorem visit (c : Collector) (x : Name) : Collects (· = x) c (c.visit x) := by
  unfold Collector.visit
  split
  · next hx => exact ⟨rfl, [], rfl, List.nodup_nil, by grind⟩
  · next hx =>
    by_cases hf : x ∈ c.found
    · exact ⟨rfl, [], List.insert_of_mem hf, List.nodup_nil, by grind⟩
    · exact ⟨rfl, [x], List.insert_of_not_mem hf, by simp, by grind⟩

theorem append (h : Collects P c c₁) (h' : Collects Q c₁ c₂) :
    Collects (fun x => P x ∨ Q x) c c₂ := by
  obtain ⟨hb, l, hl, hn, hm⟩ := h
  obtain ⟨hb', l', hl', hn', hm'⟩ := h'
  refine ⟨hb'.trans hb, l' ++ l, by rw [hl', hl, List.append_assoc], ?_, ?_⟩
  · grind [List.nodup_append]
  · grind

/-- What is collected between a push and its pop leaves out the name that was pushed. -/
theorem scope (h : Collects P (c.push x) c₁) :
    Collects (fun y => y ≠ x ∧ P y) c c₁.pop := by
  obtain ⟨hb, l, hl, hn, hm⟩ := h
  -- In between the stack has come back to what it was after the push, so this name is popped.
  have hpop : c₁.pop.bound = c.bound := by rw [Collector.pop, hb, Collector.push, List.tail_cons]
  refine ⟨hpop, l, hl, hn, ?_⟩
  intro y
  rw [hm y, Collector.push, List.mem_cons, not_or]
  grind

theorem mem_found_iff (h : Collects P c c₁) :
    x ∈ c₁.found ↔ x ∈ c.found ∨ P x ∧ x ∉ c.bound := by
  obtain ⟨-, l, hl, -, hm⟩ := h
  rw [hl, List.mem_append, hm x]
  grind

end Collects

namespace Expr

/-- Whether `x` occurs outside the scope of every binder of `x`. -/
def FreeIn (x : Name) : Expr → Prop
  | var y => x = y
  | int _ | float _ | bool _ | raise | unassigned => False
  | unary _ e => FreeIn x e
  | binary _ l r => FreeIn x l ∨ FreeIn x r
  | cond c t e => FreeIn x c ∨ FreeIn x t ∨ FreeIn x e
  | fn y b => x ≠ y ∧ FreeIn x b
  | letIn y v b => FreeIn x v ∨ x ≠ y ∧ FreeIn x b
  | letRec y v b => x ≠ y ∧ (FreeIn x v ∨ FreeIn x b)
  | app f a => FreeIn x f ∨ FreeIn x a

variable {x : Name} {e : Expr}

theorem collects_collectFree (e : Expr) (c : Collector) :
    Collects (FreeIn · e) c (e.collectFree c) := by
  induction e generalizing c with
  | var x => exact .visit c x
  | unary op e ih => exact ih c
  | binary op l r ihl ihr | app l r ihl ihr => exact (ihl c).append (ihr _)
  | cond g y n ihg ihy ihn => exact (ihg c).append ((ihy _).append (ihn _))
  | fn y b ih => exact (ih _).scope
  | letIn y v b ihv ih => exact (ihv c).append (ih _).scope
  | letRec y v b ihv ih => exact ((ihv _).append (ih _)).scope
  | _ => exact .none c

theorem mem_freeVars : x ∈ e.freeVars ↔ FreeIn x e := by
  unfold freeVars
  rw [(collects_collectFree e _).mem_found_iff]
  simp

theorem isFree_iff : e.isFree x = true ↔ FreeIn x e := by
  simp [isFree, mem_freeVars]

theorem isClosed_iff : e.isClosed = true ↔ ∀ x, ¬FreeIn x e := by
  simp [isClosed, List.isEmpty_iff, List.eq_nil_iff_forall_not_mem, mem_freeVars]

theorem captures_iff {r : Expr} {y : Name} {scopes : List Expr} :
    captures x r y scopes = true ↔ FreeIn y r ∧ ∃ b ∈ scopes, FreeIn x b := by
  simp [captures, mem_freeVars, isFree_iff]

theorem mem_taken {z : Name} {r : Expr} {scopes : List Expr} :
    z ∈ taken x r scopes ↔ z = x ∨ FreeIn z r ∨ ∃ b ∈ scopes, FreeIn z b := by
  simp [taken, mem_freeVars]

instance : Decidable (FreeIn x e) := decidable_of_iff _ isFree_iff

end Expr

end LetCalculus
