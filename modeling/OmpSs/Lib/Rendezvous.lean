import OmpSs.Lib.Run
import Mathlib.Algebra.BigOperators.Group.Finset.Piecewise
import Mathlib.Algebra.BigOperators.Ring.Finset
import Mathlib.Data.Fintype.Basic

/-!
# Threads that call a procedure over shared memory

Threads `ι` share a memory `M`; each calls one procedure again and again. A call starts at the
procedure's entry position and goes on by atomic steps, any steps of the other threads between two of
them. A position whose step is not enabled is a wait. A thread is described by the number of calls it
has entered and by its position, if it is inside a call.

A rendezvous lets no thread return from its `k`-th call before every thread has entered its `k`-th call
(`Separates`), and does not block while all threads are inside (`Enabled`).
-/

namespace OmpSs.Lib.Rendezvous

/-- A procedure: where a call starts, and what a thread at a position does with the memory in one
atomic step, the number of its current call given. `none` is a wait; a step to no position returns. -/
structure Procedure (ι M P : Type*) where
  entry : ι → P
  exec : ι → Nat → M → P → Option (M × Option P)

/-- The memory, and for each thread how many calls it has entered and where it is. -/
structure Team (ι M P : Type*) where
  mem : M
  calls : ι → Nat
  pos : ι → Option P

section
variable {ι M P : Type*} [DecidableEq ι] (proc : Procedure ι M P)

/-- One atomic step of the thread `i`; outside the procedure it enters its next call. -/
def step (s : Team ι M P) (i : ι) : Option (Team ι M P) :=
  match s.pos i with
  | none =>
    some { s with
      calls := Function.update s.calls i (s.calls i + 1)
      pos := Function.update s.pos i (some (proc.entry i)) }
  | some p =>
    (proc.exec i (s.calls i) s.mem p).map fun r =>
      { s with mem := r.1, pos := Function.update s.pos i r.2 }

/-- All threads before their first call. -/
def start (ι : Type*) {M : Type*} (P : Type*) (m : M) : Team ι M P :=
  { mem := m, calls := fun _ => 0, pos := fun _ => none }

end

section
variable {ι M P : Type*}

/-- The calls of `i` that have returned. -/
def Team.returned (s : Team ι M P) (i : ι) : Nat :=
  if (s.pos i).isSome then s.calls i - 1 else s.calls i

/-- No thread has returned from a call that some thread has not entered. -/
def Separates (s : Team ι M P) : Prop := ∀ i j, s.returned i ≤ s.calls j

/-- Some thread can take a step. -/
def Enabled [DecidableEq ι] (proc : Procedure ι M P) (s : Team ι M P) : Prop :=
  ∃ i, (step proc s i).isSome

variable [DecidableEq ι] {proc : Procedure ι M P} {s s' : Team ι M P} {i : ι}

/-- Everything a step can do. -/
theorem step_cases (h : step proc s i = some s') :
    (s.pos i = none ∧ s' =
      { s with
        calls := Function.update s.calls i (s.calls i + 1)
        pos := Function.update s.pos i (some (proc.entry i)) }) ∨
    ∃ p m p', s.pos i = some p ∧ proc.exec i (s.calls i) s.mem p = some (m, p') ∧
      s' = { s with mem := m, pos := Function.update s.pos i p' } := by
  simp only [Rendezvous.step] at h
  split at h
  · next hpos => exact .inl ⟨hpos, (Option.some.inj h).symm⟩
  · next p hpos =>
    obtain ⟨⟨m, p'⟩, hexec, rfl⟩ := Option.map_eq_some_iff.1 h
    exact .inr ⟨p, m, p', hpos, hexec, rfl⟩

/-- A thread inside whose position is not a wait can take a step. -/
theorem enabled_of_exec {p : P} (hpos : s.pos i = some p)
    (h : (proc.exec i (s.calls i) s.mem p).isSome) : Enabled proc s := by
  refine ⟨i, ?_⟩
  simp only [Rendezvous.step, hpos, Option.isSome_map, h]

/-- The number of threads whose value satisfies `p` changes by the one thread that is updated. -/
theorem card_filter_update [Fintype ι] {α : Type*} (p : α → Prop) [DecidablePred p] (f : ι → α)
    (i : ι) (x : α) :
    (Finset.univ.filter fun j => p (Function.update f i x j)).card + (if p (f i) then 1 else 0) =
      (Finset.univ.filter fun j => p (f j)).card + (if p x then 1 else 0) := by
  have hrest : ∑ j ∈ Finset.univ.erase i, (if p (Function.update f i x j) then 1 else 0) =
      ∑ j ∈ Finset.univ.erase i, if p (f j) then 1 else 0 :=
    Finset.sum_congr rfl fun j hj => by
      rw [Function.update_of_ne (Finset.ne_of_mem_erase hj)]
  rw [Finset.card_filter, Finset.card_filter, ← Finset.add_sum_erase _ _ (Finset.mem_univ i),
    ← Finset.add_sum_erase _ (fun j => if p (f j) then 1 else 0) (Finset.mem_univ i), hrest,
    Function.update_self]
  omega

end

end OmpSs.Lib.Rendezvous
