import Mathlib.Data.Nat.Find
import LetCalculus.Interpreter
import LetCalculus.Proofs.Evaluation.Failure
import LetCalculus.Proofs.Evaluation.Unlimited

/-!
# Limits cut evaluation off

A limit on the depth decides whether an evaluation is allowed to come to its end, and never what
the end is. An evaluation that ends needs a certain depth (`Settles`): every limit from there on
is without effect, and every smaller one is exceeded. An evaluation without an end exceeds every
limit (`limit_only_cuts_off`).
-/

namespace LetCalculus

namespace Discipline

variable {s : Discipline} {e : Expr} {env : Environment} {σ : State} {r : Machine.Final}

/-- An evaluation comes to `r`, and `d` is the least depth that it needs for it. -/
structure Settles (s : Discipline) (e : Expr) (env : Environment) (σ : State) (d : Nat)
    (r : Machine.Final) : Prop where
  evaluates : s.Evaluates e env σ r
  enough : ∀ m ≥ d, s.eval m e env σ = r
  short : ∀ m < d, ∃ σ', s.eval m e env σ = .error .exhausted σ'

theorem Evaluates.exists_settles (h : s.Evaluates e env σ r) : ∃ d, s.Settles e env σ d r := by
  classical
  have hd : ∃ d, s.eval d e env σ = r := h.finishes.2
  have hr : s.eval (Nat.find hd) e env σ = r := Nat.find_spec hd
  have hn : Ended (s.eval (Nat.find hd) e env σ) := by
    rw [hr]
    exact h.ended
  refine ⟨Nat.find hd, h, ?_, ?_⟩
  · intro m hm
    exact (eval_of_le hm hn).trans hr
  · intro m hm
    rcases ended_or_exhausted (s.eval m e env σ) with hm' | hx
    · exact absurd ((eval_of_le (Nat.le_of_lt hm) hm').symm.trans hr) (Nat.find_min hd hm)
    · exact hx

theorem Settles.pos {d : Nat} (h : s.Settles e env σ d r) : 1 ≤ d := by
  cases d with
  | zero =>
    have hn := h.evaluates.ended
    rw [← h.enough 0 (Nat.le_refl 0)] at hn
    exact hn.elim
  | succ d => exact Nat.le_add_left 1 d

end Discipline

namespace Outcome

variable {r : Machine.Final}

theorem ofLimited_of_ended (h : Discipline.Ended r) (m : Nat) : ofLimited m r = ofUnlimited r := by
  rcases r with ⟨v, σ⟩ | ⟨h' | _, σ⟩
  · rfl
  · rfl
  · exact h.elim

theorem ofUnlimited_ne_depthExceeded {s : Discipline} {e : Expr} {env : Environment} {σ : State}
    (h : s.Evaluates e env σ r) (n : Nat) : (ofUnlimited r).1 ≠ .error (.depthExceeded n) := by
  obtain ⟨hn, d, hd⟩ := h.finishes
  rcases r with ⟨v, σ'⟩ | ⟨x | _, σ'⟩
  · simp [ofUnlimited]
  · obtain ⟨c, -, hc⟩ := Machine.exists_fails_of_eval hd
    simpa [ofUnlimited] using hc.ne_depthExceeded n
  · exact hn.elim

end Outcome

namespace Interpreter

open Discipline

/--
A limit only cuts an evaluation off and never changes what it comes to. Either the evaluation ends
without a limit, in a value or an error that is not about depth, and then there is a least depth
for it: with a limit from there on it comes to the same and leaves the same state behind, and with
a smaller one it exceeds the limit. Or it has no end, and it exceeds every limit. Without a limit,
an allowance from that depth on has the same result and a smaller one has none.
-/
theorem limit_only_cuts_off (s : Discipline) (e : Expr) (env : Environment) (σ : State) :
    Xor
      (∃ d ≥ 1, ∃ r, s.Evaluates e env σ r ∧
        (∀ n, (Outcome.ofUnlimited r).1 ≠ .error (.depthExceeded n)) ∧
        (∀ m ≥ d, ∀ a, eval ⟨.reducing s, some m⟩ a e env σ = Outcome.ofUnlimited r) ∧
        (∀ m < d, ∀ a, (eval ⟨.reducing s, some m⟩ a e env σ).1 = .error (.depthExceeded m)) ∧
        (∀ a ≥ d, eval ⟨.reducing s, none⟩ a e env σ = Outcome.ofUnlimited r) ∧
        ∀ a < d, (eval ⟨.reducing s, none⟩ a e env σ).1 = .unfinished)
      ((¬∃ r, s.Evaluates e env σ r) ∧
        (∀ m a, (eval ⟨.reducing s, some m⟩ a e env σ).1 = .error (.depthExceeded m)) ∧
        ∀ a, (eval ⟨.reducing s, none⟩ a e env σ).1 = .unfinished) := by
  simp only [eval_limited, eval_unlimited]
  by_cases h : ∃ r, s.Evaluates e env σ r
  · refine .inl ⟨?_, fun h' => h'.1 h⟩
    obtain ⟨r, hr⟩ := h
    obtain ⟨d, hd⟩ := hr.exists_settles
    refine ⟨d, hd.pos, r, hr, Outcome.ofUnlimited_ne_depthExceeded hr, ?_, ?_, ?_, ?_⟩
    · intro m hm _
      rw [hd.enough m hm, Outcome.ofLimited_of_ended hr.ended]
    · intro m hm _
      obtain ⟨σ', hx⟩ := hd.short m hm
      rw [hx, Outcome.ofLimited]
    · intro a ha
      rw [hd.enough a ha]
    · intro a ha
      obtain ⟨σ', hx⟩ := hd.short a ha
      rw [hx, Outcome.ofUnlimited]
  · refine .inr ⟨⟨h, ?_, ?_⟩, ?_⟩
    · intro m _
      obtain ⟨σ', hx⟩ := exhausted_of_not_evaluates h m
      rw [hx, Outcome.ofLimited]
    · intro a
      obtain ⟨σ', hx⟩ := exhausted_of_not_evaluates h a
      rw [hx, Outcome.ofUnlimited]
    · rintro ⟨-, -, r, hr, -⟩
      exact h ⟨r, hr⟩

end Interpreter

end LetCalculus
