import OmpSs.Core.WDPriorityQueue
import OmpSs.Lib.Run

/-!
# The bounds that a priority queue publishes

A `WDPriorityQueue` (`nanox-mx/src/core/wddeque.hpp:559`) keeps the priorities of its first and its last
work descriptor in two fields, for schedulers that ask without the lock. An insertion writes the field of the
end it inserts at, a pop writes both. `removeWD` writes none, and a reordering takes the work descriptor out
without a look at the ends before it inserts it again. `boundsExact_of_reach` says when the fields are right
all the same, whatever the order and the settings of the queue are.
-/

namespace OmpSs.Core.PriorityQueue

open Lib

section
variable {W : Type*} [DecidableEq W]

/-- The priority of the first work descriptor, 0 if there is none. -/
def firstPriority (priority : W → Int) (dq : List W) : Int := (dq.head?.map priority).getD 0

/-- The priority of the last work descriptor, 0 if there is none. -/
def lastPriority (priority : W → Int) (dq : List W) : Int := (dq.getLast?.map priority).getD 0

/-- The two fields are the priorities of the ends. -/
structure BoundsExact (s : State W) : Prop where
  max : s.queue.maxPriority = firstPriority s.priority s.queue.dq
  min : s.queue.minPriority = lastPriority s.priority s.queue.dq

/-- Without `wd` the ends of the queue have the same priorities as with it. -/
def RemoveKeeps (s : State W) (wd : W) : Prop :=
  firstPriority s.priority (s.queue.dq.erase wd) = firstPriority s.priority s.queue.dq ∧
    lastPriority s.priority (s.queue.dq.erase wd) = lastPriority s.priority s.queue.dq

/-- With the priority `p`, `wd` goes to the front, or the first of the others has the priority of the old
front; and likewise at the back. -/
def ReorderKeeps (s : State W) (wd : W) (p : Int) : Prop :=
  let others := { s.queue with dq := s.queue.dq.erase wd }
  let priority := Function.update s.priority wd p
  (position others priority wd true = 0 ∨
      firstPriority priority others.dq = firstPriority s.priority s.queue.dq) ∧
    (others.dq.length ≤ position others priority wd true ∨
      lastPriority priority others.dq = lastPriority s.priority s.queue.dq)

/-- A call that takes a work descriptor out of the queue, other than a pop, finds the ends unchanged without
it. -/
def BoundsKept (s : State W) : Call W → Prop
  | .removeWD v toRem => v.admits toRem = true → toRem ∈ s.queue.dq → v.dequeue toRem = none →
      RemoveKeeps s toRem
  | .reorderWD wd => wd ∈ s.queue.dq → ReorderKeeps s wd (s.priority wd)
  | .setPriority wd p => wd ∈ s.queue.dq → ReorderKeeps s wd p
  | _ => True

instance (s : State W) (wd : W) : Decidable (RemoveKeeps s wd) := inferInstanceAs (Decidable (_ ∧ _))

instance (s : State W) (wd : W) (p : Int) : Decidable (ReorderKeeps s wd p) :=
  inferInstanceAs (Decidable ((_ ∨ _) ∧ (_ ∨ _)))

instance (s : State W) : DecidablePred (BoundsKept s)
  | .push_front _ => isTrue trivial
  | .push_back _ => isTrue trivial
  | .push_front_batch _ => isTrue trivial
  | .push_back_batch _ => isTrue trivial
  | .pop_front _ => isTrue trivial
  | .pop_back _ => isTrue trivial
  | .removeWD v toRem => inferInstanceAs (Decidable (v.admits toRem = true → toRem ∈ s.queue.dq →
      v.dequeue toRem = none → RemoveKeeps s toRem))
  | .reorderWD wd => inferInstanceAs (Decidable (wd ∈ s.queue.dq → ReorderKeeps s wd (s.priority wd)))
  | .setPriority wd p => inferInstanceAs (Decidable (wd ∈ s.queue.dq → ReorderKeeps s wd p))

/-- The queue makes the step that the call says. -/
def stepOption (s : State W) (c : Call W) : Option (State W) := some (step s c)

/-! ## Insertions -/

variable {s s' : State W} {q : WDPriorityQueue W} {priority : W → Int} {wd : W} {fifo : Bool} {p : Int}

omit [DecidableEq W] in
theorem position_le (q : WDPriorityQueue W) (priority : W → Int) (wd : W) (fifo : Bool) :
    position q priority wd fifo ≤ q.dq.length := by
  unfold position upperBound lowerBound
  have hle (right : W → Bool) : partitionPoint right q.dq.length q.dq ≤ q.dq.length :=
    partitionPoint_le (le_refl _)
  split
  · split
    · exact le_refl _
    · exact hle _
  · split
    · exact Nat.zero_le _
    · exact hle _

/-- The field of the first priority after an insertion. -/
theorem insertOrdered_max_iff (hwd : wd ∉ q.dq) :
    (insertOrdered q priority wd fifo).maxPriority =
        firstPriority priority (insertOrdered q priority wd fifo).dq ↔
      position q priority wd fifo = 0 ∨ q.maxPriority = firstPriority priority q.dq := by
  have hle := position_le q priority wd fifo
  unfold insertOrdered firstPriority
  dsimp only
  generalize position q priority wd fifo = it at hle
  cases it with
  | zero => simp
  | succ it =>
    cases hdq : q.dq with
    | nil =>
      rw [hdq] at hle
      exact absurd hle (Nat.not_succ_le_zero _)
    | cons front dq =>
      have hne : front ≠ wd := fun heq => hwd (by rw [hdq, heq]; exact List.mem_cons_self)
      simp [hne]

/-- The field of the last priority after an insertion. -/
theorem insertOrdered_min_iff (hwd : wd ∉ q.dq) :
    (insertOrdered q priority wd fifo).minPriority =
        lastPriority priority (insertOrdered q priority wd fifo).dq ↔
      q.dq.length ≤ position q priority wd fifo ∨ q.minPriority = lastPriority priority q.dq := by
  unfold insertOrdered lastPriority
  dsimp only
  generalize position q priority wd fifo = it
  rcases Nat.lt_or_ge it q.dq.length with hlt | hge
  · have hback : (q.dq.take it ++ wd :: q.dq.drop it).getLast? = q.dq.getLast? := by
      have hne : q.dq.drop it ≠ [] := fun hnil => by
        have := List.drop_eq_nil_iff.1 hnil
        omega
      obtain ⟨back, hback⟩ : ∃ back, (q.dq.drop it).getLast? = some back :=
        Option.ne_none_iff_exists'.1 fun hnone => hne (List.getLast?_eq_none_iff.1 hnone)
      rw [List.getLast?_append, List.getLast?_cons, hback]
      conv_rhs => rw [← List.take_append_drop it q.dq, List.getLast?_append, hback]
      rfl
    have hne : q.dq.getLast? ≠ some wd := fun heq => hwd (List.mem_of_getLast? heq)
    rw [hback, if_neg hne, or_iff_right (not_le.2 hlt)]
  · simp [List.take_of_length_le hge, List.drop_eq_nil_iff.2 hge, hge]

theorem BoundsExact.attach (hs : BoundsExact s) (hwd : wd ∉ s.queue.dq) : BoundsExact (attach fifo s wd) :=
  ⟨(insertOrdered_max_iff hwd).2 (.inr hs.max), (insertOrdered_min_iff hwd).2 (.inr hs.min)⟩

theorem BoundsExact.foldl_attach {wds : List W} (hs : BoundsExact s) (hnodup : wds.Nodup)
    (hwds : ∀ wd ∈ wds, wd ∉ s.queue.dq) : BoundsExact (wds.foldl (PriorityQueue.attach fifo) s) := by
  induction wds generalizing s with
  | nil => exact hs
  | cons wd wds ih =>
    exact ih (hs.attach (hwds wd List.mem_cons_self)) (List.nodup_cons.1 hnodup).2
      (not_mem_attach hnodup hwds)

/-! ## The other operations -/

/-- A pop writes both fields, or leaves the queue alone. -/
theorem BoundsExact.pop (hs : BoundsExact s) (v : Visit W) : BoundsExact (pop s v).2 := by
  unfold PriorityQueue.pop
  split
  · exact hs
  · split
    · exact hs
    · next wd _ =>
      split
      · refine ⟨?_, ?_⟩
        · unfold firstPriority
          dsimp only [updateBounds, detach]
          split <;> simp_all
        · unfold lastPriority
          dsimp only [updateBounds, detach]
          split <;> simp_all
      · exact ⟨hs.max, hs.min⟩

theorem BoundsExact.removeWD_iff (howned : Owned s) (hs : BoundsExact s) (v : Visit W) (toRem : W) :
    BoundsExact (removeWD s v toRem).2 ↔ BoundsKept s (.removeWD v toRem) := by
  unfold PriorityQueue.removeWD BoundsKept
  split
  · next hnil => exact iff_of_true hs fun _ hmem => absurd hmem (by rw [hnil]; exact List.not_mem_nil)
  · split
    · next hadmits => exact iff_of_true hs fun hadmits' => absurd hadmits' (by simpa using hadmits)
    · next hadmits =>
      have hadmits : v.admits toRem = true := by simpa using hadmits
      split
      · next hmem =>
        split
        · next hwhole =>
          have hexact : BoundsExact { s with
              queue := detach s.queue toRem
              myQueue := Function.update s.myQueue toRem false } ↔
              s.queue.maxPriority = firstPriority s.priority (s.queue.dq.erase toRem) ∧
                s.queue.minPriority = lastPriority s.priority (s.queue.dq.erase toRem) :=
            ⟨fun h => ⟨h.max, h.min⟩, fun h => ⟨h.1, h.2⟩⟩
          rw [hexact, hs.max, hs.min]
          exact ⟨fun h _ _ _ => ⟨h.1.symm, h.2.symm⟩, fun h =>
            ⟨(h hadmits hmem.2 hwhole).1.symm, (h hadmits hmem.2 hwhole).2.symm⟩⟩
        · next slice hslice =>
          refine iff_of_true ⟨hs.max, hs.min⟩ fun _ _ hwhole => ?_
          rw [hslice] at hwhole
          cases hwhole
      · next hnot => exact iff_of_true hs fun _ hmem => absurd ⟨howned.mine toRem hmem, hmem⟩ hnot

/-- A change of priority and the reordering after it. -/
theorem BoundsExact.reorder_iff (howned : Owned s) (hs : BoundsExact s) (hwd : wd ∈ s.queue.dq) (p : Int) :
    BoundsExact (reorderWD { s with priority := Function.update s.priority wd p } wd).2 ↔
      ReorderKeeps s wd p := by
  have hnot := howned.not_mem_erase wd
  have hmax := @insertOrdered_max_iff _ _ { s.queue with dq := s.queue.dq.erase wd }
    (Function.update s.priority wd p) wd true hnot
  have hmin := @insertOrdered_min_iff _ _ { s.queue with dq := s.queue.dq.erase wd }
    (Function.update s.priority wd p) wd true hnot
  rw [reorderWD_of_mem hwd]
  exact ⟨fun h => ⟨(hmax.1 h.max).imp_right fun heq => heq.symm.trans hs.max,
      (hmin.1 h.min).imp_right fun heq => heq.symm.trans hs.min⟩,
    fun h => ⟨hmax.2 (h.1.imp_right fun heq => hs.max.trans heq.symm),
      hmin.2 (h.2.imp_right fun heq => hs.min.trans heq.symm)⟩⟩

/-- The ends do not see the priority of a work descriptor that is not queued. -/
theorem BoundsExact.setPriority_of_not_mem (hs : BoundsExact s) (hwd : wd ∉ s.queue.dq) (p : Int) :
    BoundsExact { s with priority := Function.update s.priority wd p } := by
  have hends : ∀ o : Option W, (∀ x ∈ o, x ∈ s.queue.dq) →
      o.map (Function.update s.priority wd p) = o.map s.priority := fun o ho =>
    Option.map_congr fun x hx => Function.update_of_ne (fun heq : x = wd => hwd (heq ▸ ho x hx)) _ _
  refine ⟨hs.max.trans ?_, hs.min.trans ?_⟩
  · show _ = ((s.queue.dq.head?).map (Function.update s.priority wd p)).getD 0
    rw [hends _ fun x hx => List.mem_of_head? hx]
    rfl
  · show _ = ((s.queue.dq.getLast?).map (Function.update s.priority wd p)).getD 0
    rw [hends _ fun x hx => List.mem_of_getLast? hx]
    rfl

/-- One call. -/
theorem BoundsExact.step_iff {c : Call W} (howned : Owned s) (hs : BoundsExact s) (hc : Legal s c) :
    BoundsExact (step s c) ↔ BoundsKept s c := by
  cases c with
  | push_front wd => exact iff_of_true ⟨(hs.attach hc).max, (hs.attach hc).min⟩ trivial
  | push_back wd => exact iff_of_true ⟨(hs.attach hc).max, (hs.attach hc).min⟩ trivial
  | push_front_batch wds =>
    exact iff_of_true ⟨(hs.foldl_attach hc.1 hc.2).max, (hs.foldl_attach hc.1 hc.2).min⟩ trivial
  | push_back_batch wds =>
    exact iff_of_true ⟨(hs.foldl_attach hc.1 hc.2).max, (hs.foldl_attach hc.1 hc.2).min⟩ trivial
  | pop_front v => exact iff_of_true (hs.pop v) trivial
  | pop_back v => exact iff_of_true (hs.pop v) trivial
  | removeWD v toRem => exact hs.removeWD_iff howned v toRem
  | reorderWD wd =>
    simp only [step, BoundsKept]
    by_cases hwd : wd ∈ s.queue.dq
    · have h := hs.reorder_iff howned hwd (s.priority wd)
      rw [Function.update_eq_self] at h
      rw [h]
      exact ⟨fun hkeeps _ => hkeeps, fun hkeeps => hkeeps hwd⟩
    · rw [PriorityQueue.reorderWD, if_neg hwd]
      exact iff_of_true hs fun hmem => absurd hmem hwd
  | setPriority wd p =>
    simp only [step, BoundsKept]
    by_cases hwd : wd ∈ s.queue.dq
    · rw [setPriority_of_mem howned hwd, hs.reorder_iff howned hwd p]
      exact ⟨fun hkeeps _ => hkeeps, fun hkeeps => hkeeps hwd⟩
    · rw [PriorityQueue.setPriority_of_not_mem hwd]
      exact iff_of_true (hs.setPriority_of_not_mem hwd p) fun hmem => absurd hmem hwd

/-! ## Runs -/

/-- An empty queue with any settings. -/
def empty (optimise reverse : Bool) (priority : W → Int) : State W :=
  { queue := { optimise := optimise, reverse := reverse }, priority := priority }

/-- **The published bounds are exact** in every run where callers keep their promises and no work descriptor
at an end of the queue leaves it unnoticed; and the next call keeps them exact just if it does not do that. -/
theorem boundsExact_of_reach (optimise reverse : Bool) (priority : W → Int) (s : State W)
    (h : Reach stepOption (fun s c => Legal s c ∧ BoundsKept s c) (empty optimise reverse priority) s) :
    BoundsExact s ∧ ∀ c, Legal s c → (BoundsExact (step s c) ↔ BoundsKept s c) := by
  have hinv : Owned s ∧ BoundsExact s := by
    refine h.invariant (I := fun s => Owned s ∧ BoundsExact s) ?_ fun s c s' hs hc hstep => ?_
    · exact ⟨⟨List.nodup_nil, fun _ h => nomatch h⟩, rfl, rfl⟩
    · obtain rfl : step s c = s' := Option.some.inj hstep
      exact ⟨hs.1.step hc.1, (hs.2.step_iff hs.1 hc.1).2 hc.2⟩
  exact ⟨hinv.2, fun c hc => hinv.2.step_iff hinv.1 hc⟩

end

/-- Of three work descriptors the middle one is removed, and after a fourth one came the new middle one is
raised to the front. -/
theorem boundsExact_of_reach_four : ∃ s : State Nat,
    s.queue.dq = [3, 1, 4] ∧ s.queue.maxPriority = 20 ∧ BoundsExact s := by
  obtain ⟨s, hs, hp⟩ := exists_reach_of_guarded_run stepOption (fun s c => Legal s c ∧ BoundsKept s c)
    (empty true false fun wd : Nat => 10 - (wd : Int))
    [.push_back 1, .push_back 2, .push_back 3, .removeWD ⟨fun _ => true, fun _ => none⟩ 2, .push_back 4,
      .setPriority 3 20]
    (fun s => decide (s.queue.dq = [3, 1, 4] ∧ s.queue.maxPriority = 20)) (by decide)
  obtain ⟨hdq, hmax⟩ := of_decide_eq_true hp
  exact ⟨s, hdq, hmax, (boundsExact_of_reach true false (fun wd : Nat => 10 - (wd : Int)) s hs).1⟩

/-- The first of two work descriptors is removed, and its priority stays published. -/
theorem not_boundsExact_of_removeWD : ∃ s : State Nat,
    Reach stepOption Legal (empty true false fun wd : Nat => 10 - (wd : Int)) s ∧ ¬ BoundsExact s := by
  obtain ⟨s, hs, hp⟩ := exists_reach_of_guarded_run stepOption Legal
    (empty true false fun wd : Nat => 10 - (wd : Int))
    [.push_back 1, .push_back 2, .removeWD ⟨fun _ => true, fun _ => none⟩ 1]
    (fun s => decide (s.queue.maxPriority ≠ firstPriority s.priority s.queue.dq)) (by decide)
  exact ⟨s, hs, fun hexact => of_decide_eq_true hp hexact.max⟩

end OmpSs.Core.PriorityQueue
