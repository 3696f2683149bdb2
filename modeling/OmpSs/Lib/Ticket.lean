import OmpSs.Lib.Run
import Mathlib.Data.List.Perm.Basic
import Mathlib.Data.List.Perm.Subperm

/-!
# Work handed out by a shared counter

A list of workers draws tickets from one counter: a worker fetches the next ticket (an atomic
fetch-and-increment), then looks up the ticket's item on its own, and stops at the first ticket that
has none. Between the two steps of one worker any steps of the others may come. In every
interleaving no ticket is drawn twice and none is left out, so when all workers have stopped the items
handed out are those of the tickets `0`, `1`, ... up to the first without an item, each once
(`Drawn.items_perm`); every interleaving comes to that end (`Drawn.measure_lt`, `exists_step`).
-/

namespace OmpSs.Lib.Ticket

/-- Where a worker is: between two calls, holding the ticket it has drawn, or stopped. -/
inductive Phase
  | ready
  | holding (ticket : Nat)
  | stopped
deriving DecidableEq

/-- The counter, the workers and the items handed out so far, in order. -/
structure Desk (ι : Type*) where
  next : Nat := 0
  workers : List Phase
  items : List ι := []

inductive Event
  | fetch (worker : Nat)
  | serve (worker : Nat)

section
variable {ι : Type*} (item : Nat → Option ι)

/-- One atomic step of one worker. -/
def step (s : Desk ι) : Event → Option (Desk ι)
  | .fetch i =>
    match s.workers[i]? with
    | some .ready => some { s with next := s.next + 1, workers := s.workers.set i (.holding s.next) }
    | _ => none
  | .serve i =>
    match s.workers[i]? with
    | some (.holding k) =>
      match item k with
      | some x => some { s with workers := s.workers.set i .ready, items := s.items ++ [x] }
      | none => some { s with workers := s.workers.set i .stopped }
    | _ => none

/-- `n` workers before their first call. -/
def start (ι : Type*) (n : Nat) : Desk ι := { workers := List.replicate n .ready }

end

/-- The ticket a worker holds. -/
def Phase.held : Phase → Option Nat
  | .holding k => some k
  | _ => none

@[simp] theorem Phase.held_ready : Phase.held .ready = none := rfl
@[simp] theorem Phase.held_holding (k : Nat) : Phase.held (.holding k) = some k := rfl
@[simp] theorem Phase.held_stopped : Phase.held .stopped = none := rfl

section
variable {ι : Type*} {item : Nat → Option ι} {s s' : Desk ι} {e : Event} {N : Nat}

/-- Replacing one entry of a list, up to order. -/
theorem exists_perm_cons_set {α : Type*} {l : List α} {i : Nat} {q : α} (h : l[i]? = some q)
    (p : α) : ∃ rest, l.Perm (q :: rest) ∧ (l.set i p).Perm (p :: rest) := by
  obtain ⟨hi, rfl⟩ := List.getElem?_eq_some_iff.1 h
  exact ⟨l.eraseIdx i, (List.getElem_cons_eraseIdx_perm hi).symm, List.set_perm_cons_eraseIdx hi p⟩

/-- Everything a step can do, up to the order of the workers. -/
theorem step_cases (h : step item s e = some s') :
    (∃ rest, s.workers.Perm (.ready :: rest) ∧ s'.workers.Perm (.holding s.next :: rest) ∧
      s'.next = s.next + 1 ∧ s'.items = s.items) ∨
    (∃ k rest, s.workers.Perm (.holding k :: rest) ∧ s'.next = s.next ∧
      ((∃ x, item k = some x ∧ s'.workers.Perm (.ready :: rest) ∧ s'.items = s.items ++ [x]) ∨
        (item k = none ∧ s'.workers.Perm (.stopped :: rest) ∧ s'.items = s.items))) := by
  cases e with
  | fetch i =>
    simp only [Ticket.step] at h
    split at h
    · next hi =>
      obtain ⟨rest, h₁, h₂⟩ := exists_perm_cons_set hi (.holding s.next)
      cases h
      exact .inl ⟨rest, h₁, h₂, rfl, rfl⟩
    · cases h
  | serve i =>
    simp only [Ticket.step] at h
    split at h
    · next k hi =>
      split at h
      · next x hx =>
        obtain ⟨rest, h₁, h₂⟩ := exists_perm_cons_set hi .ready
        cases h
        exact .inr ⟨k, rest, h₁, rfl, .inl ⟨x, hx, h₂, rfl⟩⟩
      · next hx =>
        obtain ⟨rest, h₁, h₂⟩ := exists_perm_cons_set hi .stopped
        cases h
        exact .inr ⟨k, rest, h₁, rfl, .inr ⟨hx, h₂, rfl⟩⟩
    · cases h

theorem length_workers_of_step (h : step item s e = some s') :
    s'.workers.length = s.workers.length := by
  rcases step_cases h with ⟨rest, hw, hw', -⟩ | ⟨k, rest, hw, -, ⟨x, -, hw', -⟩ | ⟨-, hw', -⟩⟩ <;>
    rw [hw.length_eq, hw'.length_eq] <;> rfl

/-- What the tickets drawn so far have become: some are held, the others are `answered`, those with
an item by that item and those without by a stopped worker. -/
structure Drawn (item : Nat → Option ι) (answered : List Nat) (s : Desk ι) : Prop where
  perm : (answered ++ s.workers.filterMap Phase.held).Perm (List.range s.next)
  items : s.items = answered.filterMap item
  stopped : s.workers.count .stopped = answered.countP fun k => (item k).isNone

theorem drawn_start (item : Nat → Option ι) (n : Nat) : Drawn item [] (start ι n) where
  perm := by simp [start]
  items := rfl
  stopped := by simp [start, List.count_replicate]

theorem Drawn.step {answered : List Nat} (hs : Drawn item answered s)
    (h : step item s e = some s') : ∃ answered', Drawn item answered' s' := by
  have hperm := hs.perm
  have hstopped := hs.stopped
  rcases step_cases h with ⟨rest, hw, hw', hnext, hitems⟩ | ⟨k, rest, hw, hnext, hcase⟩
  · refine ⟨answered, ⟨?_, hitems.trans hs.items, ?_⟩⟩
    · have hrest : (s.workers.filterMap Phase.held).Perm (rest.filterMap Phase.held) :=
        hw.filterMap _
      rw [hnext, List.range_succ]
      refine ((hw'.filterMap _).append_left answered).trans ?_
      refine List.perm_middle.trans ?_
      exact (List.Perm.cons _ ((hrest.symm.append_left answered).trans hperm)).trans
        (List.perm_append_singleton _ _).symm
    · rw [hw'.count_eq]
      rw [hw.count_eq] at hstopped
      simpa using hstopped
  · -- a ticket is answered
    have hheld : (answered ++ [k] ++ rest.filterMap Phase.held).Perm (List.range s'.next) := by
      rw [hnext, List.append_assoc]
      exact ((hw.filterMap Phase.held).append_left answered).symm.trans hperm
    rw [hw.count_eq] at hstopped
    refine ⟨answered ++ [k], ?_⟩
    rcases hcase with ⟨x, hx, hw', hitems⟩ | ⟨hx, hw', hitems⟩
    · refine ⟨?_, ?_, ?_⟩
      · exact ((hw'.filterMap Phase.held).append_left _).trans hheld
      · rw [hitems, hs.items]
        simp [hx]
      · rw [hw'.count_eq]
        simpa [hx] using hstopped
    · refine ⟨?_, ?_, ?_⟩
      · exact ((hw'.filterMap Phase.held).append_left _).trans hheld
      · rw [hitems, hs.items]
        simp [hx]
      · rw [hw'.count_eq]
        simpa [hx] using hstopped

/-- A step is possible as long as some worker has not stopped. -/
theorem exists_step {w : Phase} (hw : w ∈ s.workers) (hrun : w ≠ .stopped) :
    ∃ e s', Ticket.step item s e = some s' := by
  obtain ⟨i, hi, rfl⟩ := List.getElem_of_mem hw
  have hget := List.getElem?_eq_getElem hi
  cases hphase : s.workers[i] with
  | ready => exact ⟨.fetch i, _, by simp [Ticket.step, hget, hphase]; rfl⟩
  | holding k =>
    cases hitem : item k with
    | none => exact ⟨.serve i, _, by simp [Ticket.step, hget, hphase, hitem]; rfl⟩
    | some x => exact ⟨.serve i, _, by simp [Ticket.step, hget, hphase, hitem]; rfl⟩
  | stopped => exact absurd hphase hrun

/-! ## Safety and progress

From here on the tickets with an item are those below `N`. -/

section
variable {answered : List Nat} (hN : ∀ k, (item k).isSome = true ↔ k < N)
include hN

/-- At most `N` tickets are answered by an item. -/
theorem Drawn.countP_isSome_le (hs : Drawn item answered s) :
    answered.countP (fun k => (item k).isSome) ≤ N := by
  have hnodup : answered.Nodup :=
    (hs.perm.nodup_iff.2 List.nodup_range).sublist (List.sublist_append_left _ _)
  have hsub : answered.filter (fun k => (item k).isSome) ⊆ List.range N := fun k hk =>
    List.mem_range.2 ((hN k).1 (List.mem_filter.1 hk).2)
  rw [List.countP_eq_length_filter]
  simpa using (List.subperm_of_subset (hnodup.filter _) hsub).length_le

theorem Drawn.length_items_le (hs : Drawn item answered s) : s.items.length ≤ N := by
  rw [hs.items, List.length_filterMap_eq_countP]
  exact hs.countP_isSome_le hN

/-- When every worker has stopped, the items are those of the tickets below `N`. -/
theorem Drawn.items_perm (hs : Drawn item answered s) (hne : s.workers ≠ [])
    (hall : ∀ w ∈ s.workers, w = .stopped) :
    s.items.Perm ((List.range N).filterMap item) := by
  have hheld : s.workers.filterMap Phase.held = [] := by
    rw [List.filterMap_eq_nil_iff]
    intro w hw
    rw [hall w hw]
    rfl
  have hperm := hs.perm
  rw [hheld, List.append_nil] at hperm
  -- the ticket at which some worker stopped is drawn, so all tickets below `N` are
  have hpos : 0 < answered.countP fun k => (item k).isNone := by
    rw [← hs.stopped, List.count_eq_length.2 fun w hw => (hall w hw).symm]
    exact List.length_pos_iff.2 hne
  obtain ⟨k, hk, hnone⟩ := List.countP_pos_iff.1 hpos
  have hle : N ≤ s.next := by
    have hlt := List.mem_range.1 (hperm.mem_iff.1 hk)
    rw [Option.isNone_iff_eq_none, ← Option.not_isSome_iff_eq_none, hN] at hnone
    omega
  obtain ⟨m, hm⟩ := Nat.exists_eq_add_of_le hle
  rw [hs.items]
  refine (hperm.filterMap item).trans (.of_eq ?_)
  have hpast : ((List.range m).map fun j => N + j).filterMap item = [] := by
    rw [List.filterMap_eq_nil_iff]
    intro k hk
    obtain ⟨j, _, rfl⟩ := List.mem_map.1 hk
    rw [← Option.not_isSome_iff_eq_none, hN]
    omega
  rw [hm, List.range_add, List.filterMap_append, hpast, List.append_nil]

/-- Every step decreases it: twice the tickets that can still be drawn, and the tickets held. -/
def measure (N : Nat) (s : Desk ι) : Nat :=
  2 * (N + s.workers.length - s.next) + (s.workers.filterMap Phase.held).length

omit hN in
/-- The workers that hold a ticket or have stopped. -/
theorem length_held_add_count_le (l : List Phase) :
    (l.filterMap Phase.held).length + l.count .stopped ≤ l.length := by
  induction l with
  | nil => simp
  | cons w l ih => cases w <;> simp [List.filterMap_cons] <;> omega

theorem Drawn.measure_lt (hs : Drawn item answered s) (h : Ticket.step item s e = some s') :
    measure N s' < measure N s := by
  rcases step_cases h with ⟨rest, hw, hw', hnext, -⟩ | ⟨k, rest, hw, hnext, hcase⟩
  · -- a worker that draws is not stopped, so fewer than `N` plus the workers are drawn
    have hlt : s.next < N + s.workers.length := by
      have hdrawn := hs.perm.length_eq
      have hstopped := hs.stopped
      rw [List.length_append, (hw.filterMap _).length_eq, List.length_range] at hdrawn
      rw [hw.count_eq] at hstopped
      have hsome := hs.countP_isSome_le hN
      have hsum := List.length_eq_countP_add_countP (fun k => (item k).isSome) (l := answered)
      have hrest := length_held_add_count_le rest
      rw [hw.length_eq]
      simp only [Bool.not_eq_true, Option.isSome_eq_false_iff, Bool.decide_eq_true] at hsum
      simp [List.filterMap_cons] at hdrawn hstopped ⊢
      omega
    unfold measure
    rw [(hw.filterMap _).length_eq, (hw'.filterMap _).length_eq, hw'.length_eq, hnext]
    rw [hw.length_eq] at hlt ⊢
    simp [List.filterMap_cons] at hlt ⊢
    omega
  · unfold measure
    have hheld : (s'.workers.filterMap Phase.held).length < (s.workers.filterMap Phase.held).length := by
      rw [(hw.filterMap _).length_eq]
      rcases hcase with ⟨x, -, hw', -⟩ | ⟨-, hw', -⟩ <;> rw [(hw'.filterMap _).length_eq] <;>
        simp [List.filterMap_cons]
    rw [length_workers_of_step h, hnext]
    omega

/-- Runs from a state: the workers stay, what was drawn stays accounted for, and the run is no longer
than the measure allows. -/
theorem Drawn.run : ∀ (es : List Event) {answered : List Nat} {s : Desk ι}, Drawn item answered s →
    Lib.run (Ticket.step item) s es = some s' →
    (∃ answered', Drawn item answered' s') ∧ s'.workers.length = s.workers.length ∧
      es.length + measure N s' ≤ measure N s
  | [], answered, s, hs, hrun => by
    cases hrun
    exact ⟨⟨answered, hs⟩, rfl, by simp⟩
  | e :: es, answered, s, hs, hrun => by
    obtain ⟨s₁, hstep, hrun⟩ := Option.bind_eq_some_iff.1 hrun
    obtain ⟨answered₁, hs₁⟩ := hs.step hstep
    obtain ⟨hdrawn, hworkers, hlen⟩ := Drawn.run es hs₁ hrun
    have hlt := hs.measure_lt hN hstep
    refine ⟨hdrawn, hworkers.trans (length_workers_of_step hstep), ?_⟩
    rw [List.length_cons]
    omega

end

end

end OmpSs.Lib.Ticket
