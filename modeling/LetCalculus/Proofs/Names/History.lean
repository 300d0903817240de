import Mathlib.Data.List.Nodup
import LetCalculus.Proofs.Agreement.ClosedPrograms

/-!
# Histories of a name table

A program asks its name table for the names of texts, one by one or in the course of a substitution
or an evaluation. Whatever it asks and in whatever order, texts and indices determine each other in
the table that it has come to, and nothing that the table has said before is ever taken back
(`NameTable.bijective_serve`).

A substitution changes the table by choices of fresh names alone. An evaluation changes it by
substitutions alone, and hence not at all under dynamic and lexical scoping.
-/

namespace LetCalculus

open LetCalculus.Expr

/-! ### What an evaluation does to the table -/

namespace Discipline

variable {s : Discipline} {e : Expr} {env : Environment} {σ : State} {t₀ : NameTable}

/-- Without substitution an evaluation follows itself, and then it has no use for names. -/
theorem names_eval_of_ne (hs : s ≠ .substitution) (d : Nat) (e : Expr) (env : Environment)
    (σ : State) : (Machine.endState (s.eval d e env σ)).names = σ.names := by
  let C := Correspondence.sameCode hs .same σ.names
  have view : SameView s Eq e env env := by
    intro x _
    exact .of_cell?_eq rfl fun _ _ => rfl
  have same : C.States σ σ := by
    refine ⟨⟨rfl, rfl⟩, ?_, ?_, fun _ => rfl⟩
    · rintro c _ rfl
      rfl
    · rintro c _ rfl
      exact sameCode_refl _
  exact (C.outcomes d ⟨rfl, view⟩ same).names_endState.1

theorem since_leads {c c' : Machine.Config} (hl : Machine.Leads .substitution c c')
    (h : Since .substitution t₀ c.state.names) : Since .substitution t₀ c'.state.names := by
  refine hl.induction_on (P := fun c => Since .substitution t₀ c.state.names) ?_ h
  intro c c' hc hs
  rcases Machine.puts_or_names_eq hs with ⟨x, r, a, hp⟩ | hn
  · rw [hp.names_eq]
    exact hc.substitute x r a
  · rwa [hn]

theorem since_eval (h : Since s t₀ σ.names) (d : Nat) (e : Expr) (env : Environment) :
    Since s t₀ (Machine.endState (s.eval d e env σ)).names := by
  by_cases hs : s = .substitution
  · subst hs
    obtain ⟨c, hl, hc⟩ := Machine.exists_leads_endState .substitution d e env σ
    rw [hc]
    exact since_leads hl h
  · rwa [names_eval_of_ne hs]

end Discipline

namespace NameTable

/-! ### Requests -/

/-- What a program can ask of its name table, by itself or in the course of something larger. -/
inductive Request where
  | intern (s : String)
  | tryIntern (s : String)
  | substitute (x : Name) (r e : Expr)
  | evaluate (i : Interpreter) (allowance : Nat) (e : Expr) (env : Environment) (heap : Heap)

/-- The table after a request; one that refuses a text stays what it was. -/
def answer (t : NameTable) : Request → NameTable
  | .intern s => (t.intern s).2
  | .tryIntern s =>
    match t.intern? s with
    | .ok p => p.2
    | .error _ => t
  | .substitute x r e => (Expr.substitute x r e t).2
  | .evaluate i a e env heap => (i.eval a e env ⟨t, heap⟩).2.names

/-- The table after a history of requests. -/
def serve (t : NameTable) (history : List Request) : NameTable := history.foldl answer t

variable {t : NameTable} {s : String} {i : Nat}

theorem Consistent.since_answer (h : t.Consistent) (r : Request) :
    Since .substitution t (t.answer r) := by
  cases r with
  | intern s => exact ⟨h.intern s, extends_intern t s, nofun⟩
  | tryIntern s =>
    rw [answer, intern?_eq h]
    split_ifs
    · exact ⟨h.intern s, extends_intern t s, nofun⟩
    · exact .refl _ h
  | substitute x r e => exact (Since.refl _ h).substitute x r e
  | evaluate i a e env heap =>
    obtain ⟨strategy, limit⟩ := i
    cases strategy with
    | trivial => exact .refl _ h
    | reducing d =>
      have hs := Discipline.since_eval (σ := ⟨t, heap⟩) (.refl d h) (limit.getD a) e env
      rw [answer, Interpreter.state_eval]
      exact ⟨hs.consistent, hs.known, nofun⟩

theorem Consistent.since_serve (h : t.Consistent) (history : List Request) :
    Since .substitution t (t.serve history) := by
  induction history generalizing t with
  | nil => exact .refl _ h
  | cons r history ih =>
    have hr := h.since_answer r
    have hs := ih hr.consistent
    exact ⟨hs.consistent, hs.known.trans hr.known, nofun⟩

/-! ### What histories have in common -/

theorem Consistent.nodup_texts (h : t.Consistent) : t.texts.toList.Nodup := by
  rw [List.nodup_iff_injective_get]
  intro i j hij
  have hi : t.texts[i.1]? = some (t.texts.toList.get i) := by simp
  have hj : t.texts[j.1]? = some (t.texts.toList.get i) := by
    rw [hij]
    simp
  have hn := ((h _ i.1).2 hi).symm.trans ((h _ j.1).2 hj)
  exact Fin.ext (Option.some.inj hn)

theorem Extends.getElem?_texts {t' : NameTable} (h : t'.Extends t) (hi : t.texts[i]? = some s) :
    t'.texts[i]? = some s := by
  obtain ⟨hlt, hs⟩ := Array.getElem?_eq_some_iff.1 hi
  have hx : t.knows ⟨i⟩ = true := decide_eq_true hlt
  obtain ⟨hk, ht⟩ := h ⟨i⟩ hx
  have hlt' : i < t'.texts.size := of_decide_eq_true hk
  rw [text, text, Array.getElem?_eq_getElem hlt', hi] at ht
  rw [Array.getElem?_eq_getElem hlt']
  exact congrArg some ht

theorem Consistent.intern_eq_iff (h : t.Consistent) (history : List Request) (s u : String) :
    (((t.intern s).2.serve history).intern u).1 = (t.intern s).1 ↔ u = s := by
  have hs := (h.intern s).since_serve history
  obtain ⟨hk, ht⟩ := hs.known _ (knows_intern_self h s)
  rw [text_intern h] at ht
  constructor
  · intro hu
    have hu := congrArg ((t.intern s).2.serve history |>.intern u).2.text hu
    rw [text_intern hs.consistent, text_intern_of_knows u hk, ht] at hu
    exact hu
  · rintro rfl
    have hi := congrArg Prod.fst (intern_text hs.consistent hk)
    rwa [ht] at hi

theorem intern_of_notMem (h : t.Consistent) (hs : s ∉ t.texts) :
    t.intern s = (⟨t.size⟩, t.push s) := by
  rw [intern, (find?_eq_none_iff h).2 hs]

/--
After any history of requests the texts and the indices of the table are inverse to each other.
The name of a text has this text from then on, is the name of no other text, and remains the name
of this one. Interning the text of a name that the table has issued adds nothing. A text that the
table has not seen gets the next index, and is refused only if there is none. What the table holds
it holds for ever, in its place.
-/
theorem bijective_serve (history : List Request) :
    let t := initial.serve history
    t.Consistent ∧ t.texts.toList.Nodup ∧
    (∀ s later, ((t.intern s).2.serve later).text (t.intern s).1 = s ∧
      ∀ u, (((t.intern s).2.serve later).intern u).1 = (t.intern s).1 ↔ u = s) ∧
    (∀ x, t.knows x = true → t.intern (t.text x) = (x, t)) ∧
    (∀ s, s ∉ t.texts → (t.intern s).1 = ⟨t.size⟩ ∧ (t.intern s).2.texts = t.texts.push s) ∧
    (∀ s, t.intern? s =
      if s ∈ t.texts ∨ t.size < capacity then .ok (t.intern s) else .error (.overflow t.size)) ∧
    ∀ later (s : String) (i : Nat), t.texts[i]? = some s →
      (t.serve later).texts[i]? = some s ∧ (t.serve later).indices[s]? = some i := by
  intro t
  have h : t.Consistent := (consistent_initial.since_serve history).consistent
  refine ⟨h, h.nodup_texts, ?_, fun x => intern_text h, ?_, intern?_eq h, ?_⟩
  · intro s later
    have hs := (h.intern s).since_serve later
    refine ⟨?_, h.intern_eq_iff later s⟩
    rw [(hs.known _ (knows_intern_self h s)).2, text_intern h]
  · intro s hs
    rw [intern_of_notMem h hs]
    exact ⟨rfl, rfl⟩
  · intro later s i hi
    have hl := h.since_serve later
    have hi := hl.known.getElem?_texts hi
    exact ⟨hi, (hl.consistent s i).2 hi⟩

/-- A binder is renamed for the first time, and later the text of its new name is asked for. -/
theorem bijective_serve_renamed :
    let x : Name := ⟨13⟩
    let y : Name := ⟨14⟩
    let history : List Request :=
      [.intern "x", .tryIntern "y", .substitute x (.var y) (.fn y (.var x))]
    let t := initial.serve history
    t.knows ⟨15⟩ = true ∧ t.intern "y'1" = (⟨15⟩, t) ∧
      ∀ later, (t.serve later).texts[15]? = some "y'1" := by
  intro x y history t
  have hk : t.knows ⟨15⟩ = true := by decide +kernel
  have ht : t.text ⟨15⟩ = "y'1" := by decide +kernel
  have hi : t.texts[15]? = some "y'1" := by decide +kernel
  obtain ⟨-, -, -, hknown, -, -, hkept⟩ := bijective_serve history
  have hn := hknown ⟨15⟩ hk
  rw [ht] at hn
  exact ⟨hk, hn, fun later => (hkept later _ _ hi).1⟩

end NameTable

end LetCalculus
