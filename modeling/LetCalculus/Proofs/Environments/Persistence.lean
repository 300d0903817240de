import Mathlib.Data.List.Forall2
import LetCalculus.Heap.Basic

/-!
# Environments are persistent maps over shared cells

A program makes environments from others, any number from the same one, and writes to the cells that
they share. What it did says by itself what each of its environments has to be: it lists the names
that have been bound on the way to it, in the order in which each was bound first, with the cell to
which each was bound last; and a cell holds what was written to it last. The environments and the
heap that come of any history are what the history says, and no environment changes once it is there
(`Workspace.persistent_maps`).

What a history says is kept in a `Ledger`, a list of extensions for each environment and one list of
writes for all cells. To these lists things are only ever added. Every deed keeps the workspace and
the ledger in agreement (`Workspace.Agrees.perform`).
-/

namespace LetCalculus

/--
What a program does with environments and cells. Environments are numbered in the order in which
they are made. A cell is its own handle, so a copy of a handle is the same cell.
-/
inductive Deed where
  | empty
  | fromBindings (bindings : List (Name × Value))
  | extend (env : Nat) (x : Name) (c : Cell)
  | clone (env : Nat)
  | cell (v : Value)
  | set (c : Cell) (v : Value)

structure Workspace where
  heap : Heap
  envs : List Environment

namespace Workspace

def initial : Workspace := ⟨.empty, []⟩

def add (w : Workspace) (made : Environment × Heap) : Workspace := ⟨made.2, w.envs ++ [made.1]⟩

/-- A deed that refers to an environment or a cell that does not exist cannot be done. -/
def perform (w : Workspace) : Deed → Workspace
  | .empty => w.add w.heap.emptyEnv
  | .fromBindings bindings => w.add (w.heap.environment bindings)
  | .extend i x c =>
    match w.envs[i]? with
    | some env => if c.address < w.heap.cells.size then w.add (w.heap.extend env x c) else w
    | none => w
  | .clone i =>
    match w.envs[i]? with
    | some env => w.add (env, w.heap)
    | none => w
  | .cell v => ⟨(w.heap.alloc v).2, w.envs⟩
  | .set c v => ⟨w.heap.write c v, w.envs⟩

def performAll (w : Workspace) (history : List Deed) : Workspace := history.foldl perform w

end Workspace

/--
What a history says by itself: how many cells there are, for each environment the extensions on the
way to it, and all that has been written to cells, the oldest first.
-/
structure Ledger where
  cells : Nat
  chains : List (List (Name × Cell))
  writes : List (Cell × Value)

namespace Ledger

def initial : Ledger := ⟨0, [], []⟩

def add (l : Ledger) (chain : List (Name × Cell)) : Ledger :=
  { l with chains := l.chains ++ [chain] }

def allot (l : Ledger) (new : List (Cell × Value)) : Ledger :=
  ⟨l.cells + new.length, l.chains, l.writes ++ new⟩

def numbered (n : Nat) (bindings : List (Name × Value)) : List (Name × Cell × Value) :=
  (bindings.zipIdx n).map fun b => (b.1.1, ⟨b.2⟩, b.1.2)

def record (l : Ledger) : Deed → Ledger
  | .empty => l.add []
  | .fromBindings bindings =>
    let new := numbered l.cells bindings
    (l.allot (new.map fun b => b.2)).add (new.map fun b => (b.1, b.2.1))
  | .extend i x c =>
    match l.chains[i]? with
    | some chain => if c.address < l.cells then l.add (chain ++ [(x, c)]) else l
    | none => l
  | .clone i =>
    match l.chains[i]? with
    | some chain => l.add chain
    | none => l
  | .cell v => l.allot [(⟨l.cells⟩, v)]
  | .set c v => if c.address < l.cells then { l with writes := l.writes ++ [(c, v)] } else l

def recordAll (l : Ledger) (history : List Deed) : Ledger := history.foldl record l

/-- What was written to a cell last. -/
def last? (l : Ledger) (c : Cell) : Option Value := l.writes.reverse.lookup c

end Ledger

/-- Whether an environment is what a chain of extensions makes of the empty one. -/
structure Environment.Follows (env : Environment) (chain : List (Name × Cell)) : Prop where
  nodup : env.names.Nodup
  names : env.names = (chain.map Prod.fst).eraseDups
  cells : ∀ x, env.cell? x = chain.reverse.lookup x

/-- Whether a heap has the cells of a ledger, with what was written to them last. -/
structure Ledger.Kept (l : Ledger) (h : Heap) : Prop where
  size : h.cells.size = l.cells
  read : ∀ c, h.Holds c → l.last? c = some (h.read c)

def Ledger.Covers (l : Ledger) (chain : List (Name × Cell)) : Prop :=
  ∀ b ∈ chain, b.2.address < l.cells

/-- Whether a workspace is what a ledger says. -/
structure Workspace.Agrees (w : Workspace) (l : Ledger) : Prop where
  heap : l.Kept w.heap
  envs : List.Forall₂ (fun env chain => env.Follows chain ∧ l.Covers chain) w.envs l.chains

variable {env : Environment} {chain : List (Name × Cell)} {h h' : Heap} {l l' : Ledger}
  {w : Workspace} {c : Cell}

theorem eraseDups_concat (names : List Name) (x : Name) :
    (names ++ [x]).eraseDups = if x ∈ names then names.eraseDups else names.eraseDups ++ [x] := by
  rw [List.eraseDups_append]
  by_cases hx : x ∈ names <;> simp [List.removeAll, hx, List.eraseDups_cons]

namespace Environment.Follows

theorem empty (stamp : Nat) : Follows ⟨stamp, []⟩ [] := ⟨List.nodup_nil, rfl, fun _ => rfl⟩

theorem bind (hf : env.Follows chain) (stamp : Nat) (x : Name) (c : Cell) :
    Follows ⟨stamp, Environment.bind x c env.bindings⟩ (chain ++ [(x, c)]) where
  nodup := nodup_bind hf.nodup x c
  names := by
    have hn : env.bindings.map Prod.fst = (chain.map Prod.fst).eraseDups := hf.names
    rw [Environment.names, map_fst_bind, List.map_append, List.map_singleton, eraseDups_concat]
    simp only [hn, List.mem_eraseDups]
  cells y := by
    rw [List.reverse_concat, cell?]
    by_cases hy : y = x
    · subst hy
      rw [lookup_bind_self, List.lookup_cons_self]
    · rw [lookup_bind_of_ne hy, List.lookup_cons, beq_false_of_ne hy]
      exact hf.cells y

end Environment.Follows

namespace Ledger

theorem last?_concat (n : Nat) (chains : List (List (Name × Cell))) (writes : List (Cell × Value))
    (c d : Cell) (v : Value) :
    last? ⟨n, chains, writes ++ [(d, v)]⟩ c =
      if c = d then some v else writes.reverse.lookup c := by
  rw [last?, List.reverse_concat, List.lookup_cons]
  by_cases hc : c = d
  · simp [hc]
  · simp [hc, beq_false_of_ne hc]

theorem allot_allot (l : Ledger) (new new' : List (Cell × Value)) :
    (l.allot new).allot new' = l.allot (new ++ new') := by
  simp [allot, Nat.add_assoc]

theorem numbered_cons (n : Nat) (b : Name × Value) (bindings : List (Name × Value)) :
    numbered n (b :: bindings) = (b.1, ⟨n⟩, b.2) :: numbered (n + 1) bindings := by
  rw [numbered, List.zipIdx_cons, List.map_cons, numbered]

theorem length_numbered (n : Nat) (bindings : List (Name × Value)) :
    (numbered n bindings).length = bindings.length := by
  rw [numbered, List.length_map, List.length_zipIdx]

theorem covers_numbered (l : Ledger) (bindings : List (Name × Value)) :
    let new := numbered l.cells bindings
    (l.allot (new.map fun b => b.2)).Covers (new.map fun b => (b.1, b.2.1)) := by
  intro new b hb
  obtain ⟨b', hb', rfl⟩ := List.mem_map.1 hb
  obtain ⟨⟨b, i⟩, hi, rfl⟩ := List.mem_map.1 hb'
  have := (List.mem_zipIdx hi).2.1
  simpa [allot, new, length_numbered] using this

namespace Kept

theorem congr (hk : l.Kept h) (hc : h'.cells = h.cells) : l.Kept h' where
  size := by rw [hc, hk.size]
  read c hold := by
    rw [Heap.read_congr hc]
    exact hk.read c ((Heap.holds_congr hc).1 hold)

theorem add (hk : l.Kept h) (chain : List (Name × Cell)) : (l.add chain).Kept h :=
  ⟨hk.size, hk.read⟩

theorem alloc (hk : l.Kept h) (v : Value) : (l.allot [(⟨l.cells⟩, v)]).Kept (h.alloc v).2 where
  size := by
    rw [Heap.alloc, Array.size_push, hk.size]
    rfl
  read c hc := by
    have hnew : (h.alloc v).1 = ⟨l.cells⟩ := congrArg Cell.mk hk.size
    rw [allot, last?_concat]
    rcases Heap.holds_alloc_iff.1 hc with hold | rfl
    · have hne : c ≠ ⟨l.cells⟩ := by
        rintro rfl
        exact Nat.lt_irrefl _ (hk.size ▸ hold)
      rw [if_neg hne, Heap.read_alloc_of_holds hold]
      exact hk.read c hold
    · rw [if_pos hnew, Heap.read_alloc_self]

theorem write (hk : l.Kept h) (hc : c.address < l.cells) (v : Value) :
    Kept { l with writes := l.writes ++ [(c, v)] } (h.write c v) where
  size := by rw [Heap.write, Array.size_setIfInBounds, hk.size]
  read d hd := by
    have hold : h.Holds d := (Heap.holds_write v).1 hd
    rw [last?_concat]
    by_cases hdc : d = c
    · subst hdc
      rw [if_pos rfl, Heap.read_write_self hold]
    · rw [if_neg hdc, Heap.read_write_of_ne hdc]
      exact hk.read d hold

end Kept

end Ledger

/-- The bindings of a new environment extend it one after the other, each with a new cell. -/
theorem Ledger.Kept.foldl_define (hk : l.Kept h) (hf : env.Follows chain)
    (bindings : List (Name × Value)) :
    let made := bindings.foldl (fun p b => p.2.define p.1 b.1 b.2) (env, h)
    let new := numbered l.cells bindings
    made.1.Follows (chain ++ new.map fun b => (b.1, b.2.1)) ∧
      (l.allot (new.map fun b => b.2)).Kept made.2 := by
  induction bindings generalizing env h chain l with
  | nil => simpa [numbered, allot] using ⟨hf, hk⟩
  | cons b bindings ih =>
    have hk' : (l.allot [(⟨l.cells⟩, b.2)]).Kept (h.define env b.1 b.2).2 :=
      (hk.alloc b.2).congr rfl
    have hf' : (h.define env b.1 b.2).1.Follows (chain ++ [(b.1, ⟨l.cells⟩)]) := by
      rw [← hk.size]
      exact hf.bind _ b.1 _
    obtain ⟨hf', hk'⟩ := ih hk' hf'
    rw [allot_allot] at hk'
    rw [List.append_assoc] at hf'
    simp only [numbered_cons, List.map_cons]
    exact ⟨hf', hk'⟩

namespace Workspace.Agrees

theorem initial : Workspace.initial.Agrees .initial where
  heap := ⟨rfl, fun _ hc => absurd hc (Nat.not_lt_zero _)⟩
  envs := .nil

theorem keep (ha : w.Agrees l) (hk : l'.Kept h) (hl : l'.chains = l.chains)
    (hn : l.cells ≤ l'.cells) : (⟨h, w.envs⟩ : Workspace).Agrees l' where
  heap := hk
  envs := by
    rw [hl]
    exact ha.envs.imp fun _ _ hc => ⟨hc.1, fun b hb => Nat.lt_of_lt_of_le (hc.2 b hb) hn⟩

theorem add (ha : w.Agrees l) (hf : env.Follows chain) (hc : l.Covers chain) :
    (w.add (env, w.heap)).Agrees (l.add chain) where
  heap := ha.heap.add chain
  envs := List.rel_append ha.envs (.cons ⟨hf, hc⟩ .nil)

theorem getElem? (ha : w.Agrees l) (i : Nat) :
    (w.envs[i]? = none ∧ l.chains[i]? = none) ∨
      ∃ env chain, w.envs[i]? = some env ∧ l.chains[i]? = some chain ∧ env.Follows chain ∧
        l.Covers chain := by
  have hlen := ha.envs.length_eq
  by_cases hi : i < w.envs.length
  · have hi' : i < l.chains.length := hlen ▸ hi
    exact .inr ⟨_, _, List.getElem?_eq_getElem hi, List.getElem?_eq_getElem hi',
      ha.envs.get hi hi'⟩
  · have hi := Nat.le_of_not_lt hi
    exact .inl ⟨List.getElem?_eq_none hi, List.getElem?_eq_none (hlen ▸ hi)⟩

theorem stamp (ha : w.Agrees l) (n : Nat) : (⟨⟨w.heap.cells, n⟩, w.envs⟩ : Workspace).Agrees l :=
  ha.keep (ha.heap.congr rfl) rfl (Nat.le_refl _)

/-- Every deed does to the workspace what it does to the ledger. -/
theorem perform (ha : w.Agrees l) (d : Deed) : (w.perform d).Agrees (l.record d) := by
  cases d with
  | empty => exact (ha.stamp _).add (.empty _) (List.forall_mem_nil _)
  | fromBindings bindings =>
    have hk : l.Kept w.heap.emptyEnv.2 := ha.heap.congr rfl
    obtain ⟨hf, hk⟩ := hk.foldl_define (.empty w.heap.nextStamp) bindings
    exact (ha.keep hk rfl (Nat.le_add_right _ _)).add hf (l.covers_numbered bindings)
  | extend i x c =>
    simp only [Workspace.perform, Ledger.record]
    rcases ha.getElem? i with ⟨hw, hl⟩ | ⟨env, chain, hw, hl, hf, hc⟩
    · rw [hw, hl]
      exact ha
    · rw [hw, hl]
      simp only [ha.heap.size]
      split
      · next hb =>
        refine (ha.stamp _).add (hf.bind _ x c) ?_
        exact List.forall_mem_append.2 ⟨hc, List.forall_mem_singleton.2 hb⟩
      · exact ha
  | clone i =>
    simp only [Workspace.perform, Ledger.record]
    rcases ha.getElem? i with ⟨hw, hl⟩ | ⟨env, chain, hw, hl, hf, hc⟩
    · rw [hw, hl]
      exact ha
    · rw [hw, hl]
      exact ha.add hf hc
  | cell v => exact ha.keep (ha.heap.alloc v) rfl (Nat.le_succ _)
  | set c v =>
    simp only [Ledger.record]
    split
    · next hc => exact ha.keep (ha.heap.write hc v) rfl (Nat.le_refl _)
    · next hc =>
      have hc : w.heap.cells.size ≤ c.address := ha.heap.size ▸ Nat.le_of_not_lt hc
      exact ha.keep (ha.heap.congr (Array.setIfInBounds_eq_of_size_le hc)) rfl (Nat.le_refl _)

theorem performAll (ha : w.Agrees l) (history : List Deed) :
    (w.performAll history).Agrees (l.recordAll history) := by
  induction history generalizing w l with
  | nil => exact ha
  | cons d history ih => exact ih (ha.perform d)

end Workspace.Agrees

namespace Workspace

/-- What has been made stays what it is, and where it is. -/
theorem exists_envs_perform (w : Workspace) (d : Deed) :
    ∃ new, (w.perform d).envs = w.envs ++ new := by
  have same : ∃ new, w.envs = w.envs ++ new := ⟨[], (List.append_nil _).symm⟩
  cases d with
  | empty | fromBindings bindings => exact ⟨_, rfl⟩
  | cell v | set c v => exact same
  | extend i x c =>
    simp only [perform]
    split
    · split
      · exact ⟨_, rfl⟩
      · exact same
    · exact same
  | clone i =>
    simp only [perform]
    split
    · exact ⟨_, rfl⟩
    · exact same

theorem exists_envs_performAll (w : Workspace) (history : List Deed) :
    ∃ new, (w.performAll history).envs = w.envs ++ new := by
  induction history generalizing w with
  | nil => exact ⟨[], (List.append_nil _).symm⟩
  | cons d history ih =>
    obtain ⟨new, hd⟩ := w.exists_envs_perform d
    obtain ⟨later, hl⟩ := ih (w.perform d)
    exact ⟨new ++ later, by rw [← List.append_assoc, ← hd]; exact hl⟩

theorem holds_of_follows (hk : l.Kept h) (hf : env.Follows chain) (hc : l.Covers chain) {x : Name}
    (hx : env.cell? x = some c) : h.Holds c := by
  rw [hf.cells] at hx
  obtain ⟨front, rest, he, -⟩ := List.lookup_eq_some_iff.1 hx
  have hm : (x, c) ∈ chain.reverse := he ▸ List.mem_append_right front List.mem_cons_self
  rw [Heap.Holds, hk.size]
  exact hc _ (List.mem_reverse.1 hm)

/-- A look-up finds what was written last to the cell of the name. -/
theorem lookup?_eq_last? (hk : l.Kept h) (hf : env.Follows chain) (hc : l.Covers chain) (x : Name) :
    h.lookup? env x = (env.cell? x).bind l.last? := by
  unfold Heap.lookup?
  cases hx : env.cell? x with
  | none => rfl
  | some c =>
    rw [Option.map_some, Option.bind_some, hk.read c (holds_of_follows hk hf hc hx)]

theorem lookup?_write (hk : l.Kept h) (hf : env.Follows chain) (hc : l.Covers chain) (c : Cell)
    (v : Value) (x : Name) : (h.write c v).lookup? env x =
      if env.cell? x = some c then some v else h.lookup? env x := by
  unfold Heap.lookup?
  cases hx : env.cell? x with
  | none => rfl
  | some d =>
    rw [Option.map_some, Option.map_some]
    by_cases hd : d = c
    · subst hd
      rw [if_pos rfl, Heap.read_write_self (holds_of_follows hk hf hc hx)]
    · rw [if_neg fun h => hd (Option.some.inj h), Heap.read_write_of_ne hd]

/--
After any history, an environment lists each of its names once, in the order in which they were
first bound on the way to it. A name has the cell of the last extension by it on this way, and a
look-up finds what was written to this cell last. A write is seen by those entries of all
environments that have the cell, and by no others. Whatever is done later, the environments that
have been made remain as they are.
-/
theorem persistent_maps (history : List Deed) :
    let w := initial.performAll history
    let l := Ledger.initial.recordAll history
    List.Forall₂ (fun env chain =>
        env.names.Nodup ∧ env.names = (chain.map Prod.fst).eraseDups ∧
        ∀ x, env.cell? x = chain.reverse.lookup x ∧
          w.heap.lookup? env x = (env.cell? x).bind l.last? ∧
          ∀ c v, (w.perform (.set c v)).heap.lookup? env x =
            if env.cell? x = some c then some v else w.heap.lookup? env x)
      w.envs l.chains ∧
    ∀ later, ∃ new, (w.performAll later).envs = w.envs ++ new := by
  intro w l
  have ha : w.Agrees l := Agrees.initial.performAll history
  refine ⟨ha.envs.imp ?_, w.exists_envs_performAll⟩
  rintro env chain ⟨hf, hc⟩
  refine ⟨hf.nodup, hf.names, ?_⟩
  intro x
  exact ⟨hf.cells x, lookup?_eq_last? ha.heap hf hc x, fun c v => lookup?_write ha.heap hf hc c v x⟩

/-- Two environments come of the second one, and in each of them one name has another cell. -/
example :
    let x : Name := ⟨13⟩
    let y : Name := ⟨14⟩
    let history : List Deed := [.fromBindings [(x, .plain (.int 1))], .cell (.plain (.int 2)),
      .extend 0 y ⟨1⟩, .extend 1 x ⟨1⟩, .extend 1 y ⟨0⟩, .set ⟨1⟩ (.plain (.int 3))]
    let l := Ledger.initial.recordAll history
    l.chains = [[(x, ⟨0⟩)], [(x, ⟨0⟩), (y, ⟨1⟩)], [(x, ⟨0⟩), (y, ⟨1⟩), (x, ⟨1⟩)],
      [(x, ⟨0⟩), (y, ⟨1⟩), (y, ⟨0⟩)]] ∧
    l.last? ⟨0⟩ = some (.plain (.int 1)) ∧ l.last? ⟨1⟩ = some (.plain (.int 3)) := ⟨rfl, rfl, rfl⟩

end Workspace

end LetCalculus
