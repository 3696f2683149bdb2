import OmpSs.Lib.BinarySearch
import Mathlib.Data.List.Perm.Basic
import Mathlib.Logic.Function.Basic
import Mathlib.Algebra.Order.Ring.Int

/-!
# Priority queues of work descriptors

`WDPriorityQueue` (`nanox-mx/src/core/wddeque.hpp:559`): a list of work descriptors by decreasing priority.
An insertion looks for its place with `std::upper_bound` or `std::lower_bound`; the setting `_optimise`
compares with one end of the list first. The priority of a queued work descriptor changes in
`WorkDescriptor::setPriority`, which has the queue take it out and insert it again.

On a sorted list the position of an insertion is the number of elements that stay before it, whatever the
setting is (`position_eq_countP`). So both settings give the same queue, and work descriptors of one priority
stand in the order of their arrivals, the ones that came to the front counted backwards (`queue_ordered`).
-/

namespace OmpSs.Core.PriorityQueue

open Lib

/-! ## The program -/

/-- Source: `WDPriorityQueue` (`wddeque_decl.hpp:305`), in its default configuration. The device counters are
not read by the operations. -/
structure WDPriorityQueue (W : Type*) where
  dq : List W := []
  nelems : Int := 0
  optimise : Bool := true
  reverse : Bool := false
  maxPriority : Int := 0
  minPriority : Int := 0

/-- A queue, the priorities of the work descriptors, and of their fields `_myQueue` whether it is this
queue. -/
structure State (W : Type*) where
  queue : WDPriorityQueue W := {}
  priority : W → Int
  myQueue : W → Bool := fun _ => false

/-- What a call of a pop or of `removeWD` finds: `Scheduler::checkBasicConstraints` and `Constraints::check`
of the work descriptors, and the answer of each one's slicer: the work descriptor itself (`none`), or a slice
while it stays. -/
structure Visit (W : Type*) where
  admits : W → Bool
  dequeue : W → Option W

section
variable {W : Type*} [DecidableEq W]

/-- The comparison of two work descriptors. Source: `WDPriorityComparison` and `WDPriorityComparisonReverse`
(`wddeque_decl.hpp:266`, `:283`). -/
def compare (reverse : Bool) (priority : W → Int) (wd1 wd2 : W) : Bool :=
  if reverse then decide (priority wd1 ≤ priority wd2) else decide (priority wd1 > priority wd2)

/-- Source: `WDPriorityQueue::upper_bound` (`wddeque.hpp:664`). -/
def upperBound (q : WDPriorityQueue W) (priority : W → Int) (wd : W) : Nat :=
  partitionPoint (fun e => !compare q.reverse priority wd e) q.dq.length q.dq

/-- Source: `WDPriorityQueue::lower_bound` (`wddeque.hpp:673`). -/
def lowerBound (q : WDPriorityQueue W) (priority : W → Int) (wd : W) : Nat :=
  partitionPoint (fun e => compare q.reverse priority e wd) q.dq.length q.dq

/-- Where `insertOrdered` inserts (`wddeque.hpp:583` to `:603`). -/
def position (q : WDPriorityQueue W) (priority : W → Int) (wd : W) (fifo : Bool) : Nat :=
  if fifo then
    if q.optimise && q.dq.getLast?.all fun back => decide (priority back ≥ priority wd) then q.dq.length
    else upperBound q priority wd
  else if q.optimise && q.dq.head?.all fun front => decide (priority front < priority wd) then 0
  else lowerBound q priority wd

/-- Source: `WDPriorityQueue::insertOrdered` (`wddeque.hpp:580`). -/
def insertOrdered (q : WDPriorityQueue W) (priority : W → Int) (wd : W) (fifo : Bool) : WDPriorityQueue W :=
  let it := position q priority wd fifo
  let dq := q.dq.take it ++ wd :: q.dq.drop it
  { q with
    dq := dq
    minPriority := if dq.getLast? = some wd then priority wd else q.minPriority
    maxPriority := if dq.head? = some wd then priority wd else q.maxPriority }

/-- A work descriptor gets the queue and a place in it. -/
def attach (fifo : Bool) (s : State W) (wd : W) : State W :=
  { s with
    queue := insertOrdered s.queue s.priority wd fifo
    myQueue := Function.update s.myQueue wd true }

/-- Source: `WDPriorityQueue::push_back` (`fifo`) and `WDPriorityQueue::push_front` (`wddeque.hpp:686`,
`:704`). -/
def push (fifo : Bool) (s : State W) (wd : W) : State W :=
  let s := attach fifo s wd
  { s with queue := { s.queue with nelems := s.queue.nelems + 1 } }

/-- Source: `WDPriorityQueue::push_back` and `WDPriorityQueue::push_front` of a batch (`wddeque.hpp:758`,
`:743`). -/
def pushBatch (fifo : Bool) (s : State W) (wds : List W) : State W :=
  let s := wds.foldl (attach fifo) s
  { s with queue := { s.queue with nelems := s.queue.nelems + wds.length } }

/-- The queue without the first `wd`. -/
def detach (q : WDPriorityQueue W) (wd : W) : WDPriorityQueue W :=
  { q with dq := q.dq.erase wd, nelems := q.nelems - 1 }

/-- The priorities of the two ends, as a pop writes them (`wddeque.hpp:828`). -/
def updateBounds (q : WDPriorityQueue W) (priority : W → Int) : WDPriorityQueue W :=
  { q with
    maxPriority := match q.dq.head? with
      | none => 0
      | some front => priority front
    minPriority := match q.dq.getLast? with
      | none => 0
      | some back => priority back }

/-- Source: `WDPriorityQueue::popFrontWithConstraints` and `WDPriorityQueue::popBackWithConstraints`
(`wddeque.hpp:808`, `:857`), which are the same. -/
def pop (s : State W) (v : Visit W) : Option W × State W :=
  if s.queue.dq = [] then (none, s)
  else match s.queue.dq.find? v.admits with
    | none => (none, s)
    | some wd => match v.dequeue wd with
      | none =>
        (some wd, { s with
          queue := updateBounds (detach s.queue wd) s.priority
          myQueue := Function.update s.myQueue wd false })
      | some slice => (some slice, { s with myQueue := Function.update s.myQueue slice false })

/-- Source: `WDPriorityQueue::removeWDWithConstraints` (`wddeque.hpp:906`). -/
def removeWD (s : State W) (v : Visit W) (toRem : W) : Option W × State W :=
  if s.queue.dq = [] then (none, s)
  else if !v.admits toRem then (none, s)
  else if s.myQueue toRem = true ∧ toRem ∈ s.queue.dq then
    match v.dequeue toRem with
    | none =>
      (some toRem, { s with
        queue := detach s.queue toRem
        myQueue := Function.update s.myQueue toRem false })
    | some slice => (some slice, { s with myQueue := Function.update s.myQueue slice false })
  else (none, s)

/-- Source: `WDPriorityQueue::reorderWD` (`wddeque.hpp:943`). -/
def reorderWD (s : State W) (wd : W) : Bool × State W :=
  if wd ∈ s.queue.dq then
    (true, { s with
      queue := insertOrdered { s.queue with dq := s.queue.dq.erase wd } s.priority wd true })
  else (false, s)

/-- Source: `WorkDescriptor::setPriority` (`workdescriptor.hpp:459`), where the policy hands the work
descriptor to its queue. -/
def setPriority (s : State W) (wd : W) (priority : Int) : State W :=
  let s := { s with priority := Function.update s.priority wd priority }
  if s.myQueue wd then (reorderWD s wd).2 else s

/-- The operations on the queue, and the change of a priority. -/
inductive Call (W : Type*)
  | push_front (wd : W)
  | push_back (wd : W)
  | push_front_batch (wds : List W)
  | push_back_batch (wds : List W)
  | pop_front (v : Visit W)
  | pop_back (v : Visit W)
  | removeWD (v : Visit W) (toRem : W)
  | reorderWD (wd : W)
  | setPriority (wd : W) (priority : Int)

/-- The state after a call. -/
def step (s : State W) : Call W → State W
  | .push_front wd => push false s wd
  | .push_back wd => push true s wd
  | .push_front_batch wds => pushBatch false s wds
  | .push_back_batch wds => pushBatch true s wds
  | .pop_front v => (pop s v).2
  | .pop_back v => (pop s v).2
  | .removeWD v toRem => (removeWD s v toRem).2
  | .reorderWD wd => (reorderWD s wd).2
  | .setPriority wd priority => setPriority s wd priority

/-- What callers and slicers promise: a work descriptor that is pushed is not queued (a batch names each
once), and a slice that is handed out is not queued. -/
def Legal (s : State W) : Call W → Prop
  | .push_front wd => wd ∉ s.queue.dq
  | .push_back wd => wd ∉ s.queue.dq
  | .push_front_batch wds => wds.Nodup ∧ ∀ wd ∈ wds, wd ∉ s.queue.dq
  | .push_back_batch wds => wds.Nodup ∧ ∀ wd ∈ wds, wd ∉ s.queue.dq
  | .pop_front v => ∀ wd ∈ s.queue.dq, ∀ slice ∈ (v.dequeue wd).toList, slice ∉ s.queue.dq
  | .pop_back v => ∀ wd ∈ s.queue.dq, ∀ slice ∈ (v.dequeue wd).toList, slice ∉ s.queue.dq
  | .removeWD v toRem => ∀ slice ∈ (v.dequeue toRem).toList, slice ∉ s.queue.dq
  | .reorderWD _ => True
  | .setPriority .. => True

instance (s : State W) : DecidablePred (Legal s)
  | .push_front _ => inferInstanceAs (Decidable (_ ∉ _))
  | .push_back _ => inferInstanceAs (Decidable (_ ∉ _))
  | .push_front_batch wds => inferInstanceAs (Decidable (wds.Nodup ∧ ∀ wd ∈ wds, wd ∉ s.queue.dq))
  | .push_back_batch wds => inferInstanceAs (Decidable (wds.Nodup ∧ ∀ wd ∈ wds, wd ∉ s.queue.dq))
  | .pop_front v => inferInstanceAs
    (Decidable (∀ wd ∈ s.queue.dq, ∀ slice ∈ (v.dequeue wd).toList, slice ∉ s.queue.dq))
  | .pop_back v => inferInstanceAs
    (Decidable (∀ wd ∈ s.queue.dq, ∀ slice ∈ (v.dequeue wd).toList, slice ∉ s.queue.dq))
  | .removeWD v toRem => inferInstanceAs
    (Decidable (∀ slice ∈ (v.dequeue toRem).toList, slice ∉ s.queue.dq))
  | .reorderWD _ => isTrue trivial
  | .setPriority .. => isTrue trivial

/-! ## The place of an insertion -/

/-- The queue is sorted by non-increasing priority. -/
def Sorted (priority : W → Int) (dq : List W) : Prop := dq.Pairwise fun a b => priority b ≤ priority a

/-- The work descriptor `a` stays before an inserted `wd`. -/
def staysBefore (priority : W → Int) (fifo : Bool) (wd a : W) : Bool :=
  if fifo then decide (priority wd ≤ priority a) else decide (priority wd < priority a)

variable {s s' : State W} {q : WDPriorityQueue W} {priority : W → Int} {wd : W} {fifo : Bool} {dq : List W}

omit [DecidableEq W] in
theorem staysBefore_mono {a b : W} (h : priority b ≤ priority a)
    (hb : staysBefore priority fifo wd b = true) :
    staysBefore priority fifo wd a = true := by
  unfold staysBefore at hb ⊢
  split at hb <;> simp_all <;> omega

omit [DecidableEq W] in
theorem Sorted.partitioned (h : Sorted priority dq) (fifo : Bool) (wd : W) :
    dq.Pairwise fun a b => staysBefore priority fifo wd b = true → staysBefore priority fifo wd a = true :=
  h.imp fun hab hb => staysBefore_mono hab hb

omit [DecidableEq W] in
/-- The last element of a sorted queue has the least priority. -/
theorem Sorted.le_of_getLast? (h : Sorted priority dq) {back : W} (hback : dq.getLast? = some back) :
    ∀ a ∈ dq, priority back ≤ priority a := by
  obtain ⟨l, rfl⟩ := List.getLast?_eq_some_iff.1 hback
  intro a ha
  rcases List.mem_append.1 ha with ha | ha
  · exact (List.pairwise_append.1 h).2.2 a ha back (by simp)
  · rw [List.mem_singleton.1 ha]

omit [DecidableEq W] in
/-- The first element of a sorted queue has the greatest priority. -/
theorem Sorted.le_of_head? (h : Sorted priority dq) {front : W} (hfront : dq.head? = some front) :
    ∀ a ∈ dq, priority a ≤ priority front := by
  obtain ⟨l, rfl⟩ := List.head?_eq_some_iff.1 hfront
  intro a ha
  rcases List.mem_cons.1 ha with rfl | ha
  · exact le_refl _
  · exact List.rel_of_pairwise_cons h ha

omit [DecidableEq W] in
/-- An insertion into a sorted queue goes behind the elements that stay before it, with both settings of
`_optimise`. -/
theorem position_eq_countP (hreverse : q.reverse = false) (h : Sorted priority q.dq) :
    position q priority wd fifo = q.dq.countP (staysBefore priority fifo wd) := by
  have hsearch : partitionPoint (staysBefore priority fifo wd) q.dq.length q.dq =
      q.dq.countP (staysBefore priority fifo wd) :=
    partitionPoint_eq_countP (h.partitioned fifo wd) (le_refl _)
  cases fifo with
  | true =>
    have hupper : upperBound q priority wd = q.dq.countP (staysBefore priority true wd) := by
      rw [← hsearch]
      refine congrArg (partitionPoint · _ _) (funext fun a => ?_)
      rw [Bool.eq_iff_iff]
      simp [compare, hreverse, staysBefore]
    unfold position
    rw [if_pos rfl]
    split
    · next hback =>
      -- the shortcut: everything stays before
      refine (List.countP_eq_length.2 fun a ha => ?_).symm
      cases hlast : q.dq.getLast? with
      | none =>
        rw [List.getLast?_eq_none_iff.1 hlast] at ha
        cases ha
      | some back =>
        have hle := h.le_of_getLast? hlast a ha
        simp only [hlast, Option.all_some, Bool.and_eq_true, decide_eq_true_eq] at hback
        simp only [staysBefore, if_true, decide_eq_true_eq]
        omega
    · exact hupper
  | false =>
    have hlower : lowerBound q priority wd = q.dq.countP (staysBefore priority false wd) := by
      rw [← hsearch]
      refine congrArg (partitionPoint · _ _) (funext fun a => ?_)
      simp [compare, hreverse, staysBefore]
    unfold position
    rw [if_neg Bool.false_ne_true]
    split
    · next hfront =>
      -- the shortcut: nothing stays before
      refine (List.countP_eq_zero.2 fun a ha => ?_).symm
      cases hhead : q.dq.head? with
      | none =>
        rw [List.head?_eq_none_iff.1 hhead] at ha
        cases ha
      | some front =>
        have hle := h.le_of_head? hhead a ha
        simp only [hhead, Option.all_some, Bool.and_eq_true, decide_eq_true_eq] at hfront
        simp only [staysBefore, Bool.false_eq_true, if_false, decide_eq_true_eq]
        omega
    · exact hlower

/-- The list after an insertion into a sorted queue. -/
theorem insertOrdered_dq (hreverse : q.reverse = false) (h : Sorted priority q.dq) :
    (insertOrdered q priority wd fifo).dq = q.dq.filter (staysBefore priority fifo wd) ++
      wd :: q.dq.filter fun a => !staysBefore priority fifo wd a := by
  have hsplit := eq_filter_append (h.partitioned fifo wd)
  have hlen : position q priority wd fifo = (q.dq.filter (staysBefore priority fifo wd)).length := by
    rw [position_eq_countP hreverse h, List.countP_eq_length_filter]
  show q.dq.take _ ++ wd :: q.dq.drop _ = _
  rw [hlen]
  generalize q.dq.filter (staysBefore priority fifo wd) = l₁ at hsplit ⊢
  generalize q.dq.filter (fun a => !staysBefore priority fifo wd a) = l₂ at hsplit ⊢
  rw [hsplit, List.take_left, List.drop_left]

/-! ## Work descriptors and the queue -/

/-- A work descriptor is queued once, and its queue is the one that holds it. -/
structure Owned (s : State W) : Prop where
  nodup : s.queue.dq.Nodup
  mine : ∀ wd ∈ s.queue.dq, s.myQueue wd = true

theorem insertOrdered_perm (q : WDPriorityQueue W) (priority : W → Int) (wd : W) (fifo : Bool) :
    (insertOrdered q priority wd fifo).dq.Perm (wd :: q.dq) := by
  show (q.dq.take _ ++ wd :: q.dq.drop _).Perm _
  refine List.perm_middle.trans ?_
  rw [List.take_append_drop]

theorem Owned.attach (hs : Owned s) (hwd : wd ∉ s.queue.dq) : Owned (attach fifo s wd) := by
  have hperm := insertOrdered_perm s.queue s.priority wd fifo
  refine ⟨hperm.nodup_iff.2 (List.nodup_cons.2 ⟨hwd, hs.nodup⟩), fun x hx => ?_⟩
  show Function.update s.myQueue wd true x = true
  rcases List.mem_cons.1 (hperm.mem_iff.1 hx) with rfl | hx
  · exact Function.update_self _ _ _
  · rw [Function.update_of_ne fun heq : x = wd => hwd (heq ▸ hx)]
    exact hs.mine x hx

/-- What is left of a batch is not queued once the first of it is. -/
theorem not_mem_attach {wds : List W} (hnodup : (wd :: wds).Nodup) (hwds : ∀ x ∈ wd :: wds, x ∉ s.queue.dq) :
    ∀ x ∈ wds, x ∉ (attach fifo s wd).queue.dq := by
  intro x hx hmem
  rcases List.mem_cons.1 ((insertOrdered_perm ..).mem_iff.1 hmem) with rfl | hmem
  · exact (List.nodup_cons.1 hnodup).1 hx
  · exact hwds x (List.mem_cons_of_mem _ hx) hmem

theorem Owned.foldl_attach {wds : List W} (hs : Owned s) (hnodup : wds.Nodup)
    (hwds : ∀ wd ∈ wds, wd ∉ s.queue.dq) : Owned (wds.foldl (PriorityQueue.attach fifo) s) := by
  induction wds generalizing s with
  | nil => exact hs
  | cons wd wds ih =>
    exact ih (hs.attach (hwds wd List.mem_cons_self)) (List.nodup_cons.1 hnodup).2
      (not_mem_attach hnodup hwds)

/-- What a pop or a removal can do: nothing, one work descriptor leaves, or one hands out a slice. -/
inductive Taken (s : State W) : State W → Prop
  | nothing : Taken s s
  | left {wd : W} {q : WDPriorityQueue W} : wd ∈ s.queue.dq → q.dq = s.queue.dq.erase wd →
      q.reverse = s.queue.reverse →
      Taken s { s with queue := q, myQueue := Function.update s.myQueue wd false }
  | slice {slice : W} : slice ∉ s.queue.dq →
      Taken s { s with myQueue := Function.update s.myQueue slice false }

theorem taken_pop {v : Visit W}
    (hslice : ∀ wd ∈ s.queue.dq, ∀ slice ∈ (v.dequeue wd).toList, slice ∉ s.queue.dq) :
    Taken s (pop s v).2 := by
  unfold pop
  split
  · exact .nothing
  · split
    · exact .nothing
    · next wd hfind =>
      have hmem := List.mem_of_find?_eq_some hfind
      split
      · exact .left hmem rfl rfl
      · next slice hdequeue => exact .slice (hslice wd hmem slice (by simp [hdequeue]))

theorem taken_removeWD {v : Visit W} {toRem : W}
    (hslice : ∀ slice ∈ (v.dequeue toRem).toList, slice ∉ s.queue.dq) : Taken s (removeWD s v toRem).2 := by
  unfold removeWD
  split
  · exact .nothing
  · split
    · exact .nothing
    · split
      · next hmem =>
        split
        · exact .left hmem.2 rfl rfl
        · next slice hdequeue => exact .slice (hslice slice (by simp [hdequeue]))
      · exact .nothing

theorem Owned.taken (hs : Owned s) (h : Taken s s') : Owned s' := by
  cases h with
  | nothing => exact hs
  | @left wd q hwd hdq _ =>
    refine ⟨by rw [hdq]; exact hs.nodup.erase wd, fun x hx => ?_⟩
    rw [hdq] at hx
    obtain ⟨hne, hx⟩ := hs.nodup.mem_erase_iff.1 hx
    exact (Function.update_of_ne hne _ _).trans (hs.mine x hx)
  | @slice slice hnot =>
    refine ⟨hs.nodup, fun x hx => ?_⟩
    exact (Function.update_of_ne (fun heq : x = slice => hnot (heq ▸ hx)) _ _).trans (hs.mine x hx)

theorem Owned.reorderWD (hs : Owned s) (wd : W) : Owned (reorderWD s wd).2 := by
  unfold PriorityQueue.reorderWD
  split
  · next hmem =>
    have hperm := (insertOrdered_perm { s.queue with dq := s.queue.dq.erase wd } s.priority wd true).trans
      (List.perm_cons_erase hmem).symm
    exact ⟨hperm.nodup_iff.2 hs.nodup, fun x hx => hs.mine x (hperm.mem_iff.1 hx)⟩
  · exact hs

theorem Owned.setPriority (hs : Owned s) (wd : W) (p : Int) : Owned (setPriority s wd p) := by
  have hset : Owned { s with priority := Function.update s.priority wd p } := ⟨hs.nodup, hs.mine⟩
  unfold PriorityQueue.setPriority
  dsimp only
  split
  · exact hset.reorderWD wd
  · exact hset

theorem Owned.step {c : Call W} (hs : Owned s) (hc : Legal s c) : Owned (step s c) := by
  cases c with
  | push_front wd => exact ⟨(hs.attach hc).nodup, (hs.attach hc).mine⟩
  | push_back wd => exact ⟨(hs.attach hc).nodup, (hs.attach hc).mine⟩
  | push_front_batch wds => exact ⟨(hs.foldl_attach hc.1 hc.2).nodup, (hs.foldl_attach hc.1 hc.2).mine⟩
  | push_back_batch wds => exact ⟨(hs.foldl_attach hc.1 hc.2).nodup, (hs.foldl_attach hc.1 hc.2).mine⟩
  | pop_front v => exact hs.taken (taken_pop hc)
  | pop_back v => exact hs.taken (taken_pop hc)
  | removeWD v toRem => exact hs.taken (taken_removeWD hc)
  | reorderWD wd => exact hs.reorderWD wd
  | setPriority wd p => exact hs.setPriority wd p

/-! ## The order of arrival -/

/-- When the work descriptors came to their places: a later arrival at the back has a greater number, a later
arrival at the front a smaller one. -/
structure Arrivals (W : Type*) where
  clock : Int := 1
  rank : W → Int := fun _ => 0

def arrive (fifo : Bool) (a : Arrivals W) (wd : W) : Arrivals W where
  clock := a.clock + 1
  rank := Function.update a.rank wd (if fifo then a.clock else -a.clock)

/-- The arrivals of a call. A work descriptor that is reordered arrives at the back again. -/
def arrivals (s : State W) (a : Arrivals W) : Call W → Arrivals W
  | .push_front wd => arrive false a wd
  | .push_back wd => arrive true a wd
  | .push_front_batch wds => wds.foldl (arrive false) a
  | .push_back_batch wds => wds.foldl (arrive true) a
  | .reorderWD wd => if wd ∈ s.queue.dq then arrive true a wd else a
  | .setPriority wd _ => if wd ∈ s.queue.dq then arrive true a wd else a
  | _ => a

/-- The work descriptor `x` is to be before `y`: it has a higher priority, or the same and came first. -/
def Before (priority rank : W → Int) (x y : W) : Prop :=
  priority y < priority x ∨ (priority x = priority y ∧ rank x < rank y)

/-- The queue is in order. -/
structure Ordered (s : State W) (a : Arrivals W) : Prop extends Owned s where
  plain : s.queue.reverse = false
  before : s.queue.dq.Pairwise (Before s.priority a.rank)
  clock : 0 < a.clock
  ranks : ∀ wd ∈ s.queue.dq, -a.clock < a.rank wd ∧ a.rank wd < a.clock

variable {a : Arrivals W}

omit [DecidableEq W] in
theorem sorted_of_before {rank : W → Int} (h : dq.Pairwise (Before priority rank)) : Sorted priority dq :=
  h.imp fun hab => by
    rcases hab with hlt | ⟨heq, -⟩
    · exact hlt.le
    · exact heq.ge

theorem rank_arrive_of_ne {x : W} (h : x ≠ wd) : (arrive fifo a wd).rank x = a.rank x :=
  Function.update_of_ne h _ _

theorem rank_arrive_self : (arrive fifo a wd).rank wd = if fifo then a.clock else -a.clock :=
  Function.update_self _ _ _

/-- An arrival leaves the order of the others as it is. -/
theorem before_arrive (fifo : Bool) (h : dq.Pairwise (Before priority a.rank)) (hwd : wd ∉ dq) :
    dq.Pairwise (Before priority (arrive fifo a wd).rank) := by
  refine h.imp_of_mem fun {x y} hx hy hxy => ?_
  unfold Before at hxy ⊢
  rw [rank_arrive_of_ne fun heq : x = wd => hwd (heq ▸ hx),
    rank_arrive_of_ne fun heq : y = wd => hwd (heq ▸ hy)]
  exact hxy

/-- The place of an arrival: behind those of its priority at the back, before them at the front. -/
theorem before_insert (h : dq.Pairwise (Before priority a.rank)) (hwd : wd ∉ dq)
    (hranks : ∀ x ∈ dq, -a.clock < a.rank x ∧ a.rank x < a.clock) :
    (dq.filter (staysBefore priority fifo wd) ++
      wd :: dq.filter fun x => !staysBefore priority fifo wd x).Pairwise
        (Before priority (arrive fifo a wd).rank) := by
  have hothers := before_arrive fifo h hwd
  have hne : ∀ x ∈ dq, x ≠ wd := fun x hx heq => hwd (heq ▸ hx)
  have hleft : ∀ x ∈ dq, staysBefore priority fifo wd x = true →
      Before priority (arrive fifo a wd).rank x wd := by
    intro x hx hstays
    have hrank := hranks x hx
    unfold Before
    rw [rank_arrive_self, rank_arrive_of_ne (hne x hx)]
    unfold staysBefore at hstays
    cases fifo with
    | true =>
      have hle : priority wd ≤ priority x := by simpa using hstays
      rw [if_pos rfl]
      omega
    | false => exact .inl (by simpa using hstays)
  have hright : ∀ x ∈ dq, staysBefore priority fifo wd x = false →
      Before priority (arrive fifo a wd).rank wd x := by
    intro x hx hstays
    have hrank := hranks x hx
    unfold Before
    rw [rank_arrive_self, rank_arrive_of_ne (hne x hx)]
    unfold staysBefore at hstays
    cases fifo with
    | true => exact .inl (by simpa using hstays)
    | false =>
      have hle : priority x ≤ priority wd := by simpa using hstays
      rw [if_neg Bool.false_ne_true]
      omega
  refine List.pairwise_append.2
    ⟨hothers.filter _, List.pairwise_cons.2 ⟨fun y hy => ?_, hothers.filter _⟩, ?_⟩
  · obtain ⟨hy, hstays⟩ := List.mem_filter.1 hy
    exact hright y hy (by simpa using hstays)
  · intro x hx y hy
    have hxwd := hleft x (List.mem_filter.1 hx).1 (List.mem_filter.1 hx).2
    rcases List.mem_cons.1 hy with rfl | hy
    · exact hxwd
    · -- `x` is before `wd` and `wd` before `y`
      obtain ⟨hy, hnot⟩ := List.mem_filter.1 hy
      have hwdy := hright y hy (by simpa using hnot)
      unfold Before at hxwd hwdy ⊢
      omega

theorem ranks_arrive (fifo : Bool) (wd : W) (hclock : 0 < a.clock)
    (hranks : ∀ x ∈ dq, -a.clock < a.rank x ∧ a.rank x < a.clock) :
    0 < (arrive fifo a wd).clock ∧ ∀ x ∈ wd :: dq, -(arrive fifo a wd).clock < (arrive fifo a wd).rank x ∧
      (arrive fifo a wd).rank x < (arrive fifo a wd).clock := by
  have hnext : (arrive fifo a wd).clock = a.clock + 1 := rfl
  refine ⟨by omega, fun x hx => ?_⟩
  by_cases heq : x = wd
  · rw [heq, rank_arrive_self, hnext]
    split <;> omega
  · have hx := hranks x ((List.mem_cons.1 hx).resolve_left heq)
    rw [rank_arrive_of_ne heq, hnext]
    omega

theorem Ordered.attach (hs : Ordered s a) (hwd : wd ∉ s.queue.dq) :
    Ordered (attach fifo s wd) (arrive fifo a wd) := by
  have hranks := ranks_arrive fifo wd hs.clock hs.ranks
  refine ⟨hs.toOwned.attach hwd, hs.plain, ?_, hranks.1, fun x hx => hranks.2 x ?_⟩
  · show (insertOrdered s.queue s.priority wd fifo).dq.Pairwise _
    rw [insertOrdered_dq hs.plain (sorted_of_before hs.before)]
    exact before_insert hs.before hwd hs.ranks
  · exact (insertOrdered_perm ..).mem_iff.1 hx

theorem Ordered.foldl_attach {wds : List W} (hs : Ordered s a) (hnodup : wds.Nodup)
    (hwds : ∀ wd ∈ wds, wd ∉ s.queue.dq) :
    Ordered (wds.foldl (PriorityQueue.attach fifo) s) (wds.foldl (arrive fifo) a) := by
  induction wds generalizing s a with
  | nil => exact hs
  | cons wd wds ih =>
    exact ih (hs.attach (hwds wd List.mem_cons_self)) (List.nodup_cons.1 hnodup).2
      (not_mem_attach hnodup hwds)

theorem Ordered.taken (hs : Ordered s a) (h : Taken s s') : Ordered s' a := by
  have howned := hs.toOwned.taken h
  cases h with
  | nothing => exact hs
  | @left wd q _ hdq hreverse =>
    have hsub : q.dq.Sublist s.queue.dq := hdq ▸ List.erase_sublist
    exact ⟨howned, hreverse.trans hs.plain, hs.before.sublist hsub, hs.clock,
      fun x hx => hs.ranks x (hsub.subset hx)⟩
  | slice _ => exact ⟨howned, hs.plain, hs.before, hs.clock, hs.ranks⟩

/-- The others, once the priority of a work descriptor has changed. -/
theorem Ordered.before_erase (hs : Ordered s a) (wd : W) (p : Int) :
    (s.queue.dq.erase wd).Pairwise (Before (Function.update s.priority wd p) a.rank) := by
  refine (hs.before.sublist List.erase_sublist).imp_of_mem fun {x y} hx hy hxy => ?_
  unfold Before at hxy ⊢
  rw [Function.update_of_ne (hs.nodup.mem_erase_iff.1 hx).1,
    Function.update_of_ne (hs.nodup.mem_erase_iff.1 hy).1]
  exact hxy

theorem Owned.not_mem_erase (hs : Owned s) (wd : W) : wd ∉ s.queue.dq.erase wd :=
  fun h => (hs.nodup.mem_erase_iff.1 h).1 rfl

/-- A queued work descriptor is put back where its new priority belongs. -/
theorem reorderWD_of_mem (hwd : wd ∈ s.queue.dq) (p : Int) :
    reorderWD { s with priority := Function.update s.priority wd p } wd =
      (true, { s with
        priority := Function.update s.priority wd p
        queue := insertOrdered { s.queue with dq := s.queue.dq.erase wd }
          (Function.update s.priority wd p) wd true }) :=
  if_pos hwd

/-- A change of priority and the reordering after it. -/
theorem Ordered.reorder (hs : Ordered s a) (hwd : wd ∈ s.queue.dq) (p : Int) :
    Ordered (reorderWD { s with priority := Function.update s.priority wd p } wd).2 (arrive true a wd) := by
  have howned := (show Owned { s with priority := Function.update s.priority wd p } from
    ⟨hs.nodup, hs.mine⟩).reorderWD wd
  have hothers := hs.before_erase wd p
  have hnot := hs.not_mem_erase wd
  have hranks : ∀ x ∈ s.queue.dq.erase wd, -a.clock < a.rank x ∧ a.rank x < a.clock := fun x hx =>
    hs.ranks x (List.mem_of_mem_erase hx)
  have hnew := ranks_arrive true wd hs.clock hranks
  rw [reorderWD_of_mem hwd] at howned ⊢
  refine ⟨howned, hs.plain, ?_, hnew.1, fun x hx => hnew.2 x ((insertOrdered_perm ..).mem_iff.1 hx)⟩
  show (insertOrdered { s.queue with dq := s.queue.dq.erase wd }
    (Function.update s.priority wd p) wd true).dq.Pairwise _
  rw [insertOrdered_dq (q := { s.queue with dq := s.queue.dq.erase wd }) hs.plain (sorted_of_before hothers)]
  exact before_insert hothers hnot hranks

/-- A change of the priority of a work descriptor that is not queued. -/
theorem Ordered.setPriority_of_not_mem (hs : Ordered s a) (hwd : wd ∉ s.queue.dq) (p : Int) :
    Ordered { s with priority := Function.update s.priority wd p } a := by
  refine ⟨⟨hs.nodup, hs.mine⟩, hs.plain, ?_, hs.clock, hs.ranks⟩
  have h := hs.before_erase wd p
  rwa [List.erase_of_not_mem hwd] at h

theorem setPriority_of_mem (hs : Owned s) (hwd : wd ∈ s.queue.dq) (p : Int) : setPriority s wd p =
    (reorderWD { s with priority := Function.update s.priority wd p } wd).2 := by
  unfold setPriority
  dsimp only
  rw [if_pos (hs.mine wd hwd)]

theorem setPriority_of_not_mem (hwd : wd ∉ s.queue.dq) (p : Int) :
    setPriority s wd p = { s with priority := Function.update s.priority wd p } := by
  unfold setPriority reorderWD
  dsimp only
  rw [if_neg hwd, ite_self]

/-- One call. -/
theorem Ordered.step {c : Call W} (hs : Ordered s a) (hc : Legal s c) :
    Ordered (step s c) (arrivals s a c) := by
  cases c with
  | push_front wd =>
    obtain ⟨howned, hplain, hbefore, hclock, hranks⟩ : Ordered (PriorityQueue.attach false s wd) _ :=
      hs.attach hc
    exact ⟨⟨howned.nodup, howned.mine⟩, hplain, hbefore, hclock, hranks⟩
  | push_back wd =>
    obtain ⟨howned, hplain, hbefore, hclock, hranks⟩ : Ordered (PriorityQueue.attach true s wd) _ :=
      hs.attach hc
    exact ⟨⟨howned.nodup, howned.mine⟩, hplain, hbefore, hclock, hranks⟩
  | push_front_batch wds =>
    obtain ⟨howned, hplain, hbefore, hclock, hranks⟩ : Ordered (wds.foldl (PriorityQueue.attach false) s) _ :=
      hs.foldl_attach hc.1 hc.2
    exact ⟨⟨howned.nodup, howned.mine⟩, hplain, hbefore, hclock, hranks⟩
  | push_back_batch wds =>
    obtain ⟨howned, hplain, hbefore, hclock, hranks⟩ : Ordered (wds.foldl (PriorityQueue.attach true) s) _ :=
      hs.foldl_attach hc.1 hc.2
    exact ⟨⟨howned.nodup, howned.mine⟩, hplain, hbefore, hclock, hranks⟩
  | pop_front v => exact hs.taken (taken_pop hc)
  | pop_back v => exact hs.taken (taken_pop hc)
  | removeWD v toRem => exact hs.taken (taken_removeWD hc)
  | reorderWD wd =>
    simp only [PriorityQueue.step, arrivals]
    split
    · next hwd =>
      have h := hs.reorder hwd (s.priority wd)
      rwa [Function.update_eq_self] at h
    · next hwd =>
      rw [PriorityQueue.reorderWD, if_neg hwd]
      exact hs
  | setPriority wd p =>
    simp only [PriorityQueue.step, arrivals]
    split
    · next hwd =>
      rw [setPriority_of_mem hs.toOwned hwd]
      exact hs.reorder hwd p
    · next hwd =>
      rw [PriorityQueue.setPriority_of_not_mem hwd]
      exact hs.setPriority_of_not_mem hwd p

/-! ## The two settings of the optimisation -/

/-- The state with the other setting, or the same. -/
def withOptimise (optimise : Bool) (s : State W) : State W :=
  { s with queue := { s.queue with optimise := optimise } }

theorem insertOrdered_optimise (hreverse : q.reverse = false) (h : Sorted priority q.dq) (optimise : Bool) :
    insertOrdered { q with optimise := optimise } priority wd fifo =
      { insertOrdered q priority wd fifo with optimise := optimise } := by
  have hposition : position { q with optimise := optimise } priority wd fifo =
      position q priority wd fifo := by
    rw [position_eq_countP hreverse h, position_eq_countP (q := { q with optimise := optimise }) hreverse h]
  unfold insertOrdered
  dsimp only
  rw [hposition]

theorem Ordered.attach_optimise (hs : Ordered s a) (wd : W) (optimise : Bool) :
    PriorityQueue.attach fifo (withOptimise optimise s) wd =
      withOptimise optimise (PriorityQueue.attach fifo s wd) := by
  have hinsert := @insertOrdered_optimise _ _ _ _ wd fifo hs.plain (sorted_of_before hs.before) optimise
  unfold PriorityQueue.attach withOptimise
  dsimp only
  rw [hinsert]

theorem Ordered.foldl_attach_optimise {wds : List W} (hs : Ordered s a) (hnodup : wds.Nodup)
    (hwds : ∀ wd ∈ wds, wd ∉ s.queue.dq) (optimise : Bool) :
    wds.foldl (PriorityQueue.attach fifo) (withOptimise optimise s) =
      withOptimise optimise (wds.foldl (PriorityQueue.attach fifo) s) := by
  induction wds generalizing s a with
  | nil => rfl
  | cons wd wds ih =>
    rw [List.foldl_cons, List.foldl_cons, hs.attach_optimise]
    exact ih (hs.attach (hwds wd List.mem_cons_self)) (List.nodup_cons.1 hnodup).2
      (not_mem_attach hnodup hwds)

theorem Ordered.reorder_optimise (hs : Ordered s a) (wd : W) (p : Int) (optimise : Bool) :
    (reorderWD (withOptimise optimise { s with priority := Function.update s.priority wd p }) wd).2 =
      withOptimise optimise (reorderWD { s with priority := Function.update s.priority wd p } wd).2 := by
  have hsorted := sorted_of_before (hs.before_erase wd p)
  unfold reorderWD withOptimise
  dsimp only
  split
  · rw [← insertOrdered_optimise (q := { s.queue with dq := s.queue.dq.erase wd }) hs.plain hsorted]
  · rfl

theorem pop_optimise (v : Visit W) (optimise : Bool) :
    pop (withOptimise optimise s) v = ((pop s v).1, withOptimise optimise (pop s v).2) := by
  unfold pop withOptimise
  dsimp only
  split
  · rfl
  · split
    · rfl
    · split <;> rfl

theorem removeWD_optimise (v : Visit W) (toRem : W) (optimise : Bool) :
    removeWD (withOptimise optimise s) v toRem =
      ((removeWD s v toRem).1, withOptimise optimise (removeWD s v toRem).2) := by
  unfold removeWD withOptimise
  dsimp only
  split
  · rfl
  · split
    · rfl
    · split
      · split <;> rfl
      · rfl

/-- A call does the same with both settings. -/
theorem Ordered.step_optimise {c : Call W} (hs : Ordered s a) (hc : Legal s c) (optimise : Bool) :
    PriorityQueue.step (withOptimise optimise s) c = withOptimise optimise (PriorityQueue.step s c) := by
  cases c with
  | push_front wd =>
    simp only [PriorityQueue.step, push, hs.attach_optimise]
    rfl
  | push_back wd =>
    simp only [PriorityQueue.step, push, hs.attach_optimise]
    rfl
  | push_front_batch wds =>
    simp only [PriorityQueue.step, pushBatch, hs.foldl_attach_optimise hc.1 hc.2]
    rfl
  | push_back_batch wds =>
    simp only [PriorityQueue.step, pushBatch, hs.foldl_attach_optimise hc.1 hc.2]
    rfl
  | pop_front v => exact congrArg Prod.snd (pop_optimise v optimise)
  | pop_back v => exact congrArg Prod.snd (pop_optimise v optimise)
  | removeWD v toRem => exact congrArg Prod.snd (removeWD_optimise v toRem optimise)
  | reorderWD wd =>
    have h := hs.reorder_optimise wd (s.priority wd) optimise
    rwa [Function.update_eq_self] at h
  | setPriority wd p =>
    have h := hs.reorder_optimise wd p optimise
    simp only [PriorityQueue.step, setPriority]
    split
    · next hmine =>
      rw [if_pos (show s.myQueue wd = true from hmine)]
      exact h
    · next hmine =>
      rw [if_neg (show ¬ s.myQueue wd = true from hmine)]
      rfl

/-! ## Runs -/

/-- An empty queue. -/
def start (optimise : Bool) (priority : W → Int) : State W :=
  { queue := { optimise := optimise }, priority := priority }

/-- The calls one after the other, with the arrivals they make. -/
def runCalls (t : State W × Arrivals W) (calls : List (Call W)) : State W × Arrivals W :=
  calls.foldl (fun t c => (step t.1 c, arrivals t.1 t.2 c)) t

/-- Every call of the run keeps what callers promise. -/
def LegalRun : State W → List (Call W) → Prop
  | _, [] => True
  | s, c :: calls => Legal s c ∧ LegalRun (step s c) calls

instance : ∀ (s : State W) (calls : List (Call W)), Decidable (LegalRun s calls)
  | _, [] => isTrue trivial
  | s, c :: calls =>
    have := instDecidableLegalRun (step s c) calls
    inferInstanceAs (Decidable (Legal s c ∧ LegalRun (step s c) calls))

omit [DecidableEq W] in
theorem ordered_start (optimise : Bool) (priority : W → Int) : Ordered (start optimise priority) {} :=
  ⟨⟨List.nodup_nil, fun _ h => nomatch h⟩, rfl, List.Pairwise.nil, Int.zero_lt_one, fun _ h => nomatch h⟩

theorem Ordered.runCalls {calls : List (Call W)} (hs : Ordered s a) (hcalls : LegalRun s calls) :
    Ordered (runCalls (s, a) calls).1 (runCalls (s, a) calls).2 := by
  induction calls generalizing s a with
  | nil => exact hs
  | cons c calls ih => exact ih (hs.step hcalls.1) hcalls.2

theorem Ordered.runCalls_optimise {calls : List (Call W)} (hs : Ordered s a) (hcalls : LegalRun s calls)
    (a' : Arrivals W) (optimise : Bool) :
    (PriorityQueue.runCalls (withOptimise optimise s, a') calls).1 =
      withOptimise optimise (PriorityQueue.runCalls (s, a) calls).1 := by
  induction calls generalizing s a a' with
  | nil => rfl
  | cons c calls ih =>
    rw [PriorityQueue.runCalls, List.foldl_cons, hs.step_optimise hcalls.1]
    exact ih (hs.step hcalls.1) hcalls.2 _

/-- **The queue is in order.** After every run of calls the queue is sorted by non-increasing priority, work
descriptors of equal priority stand in the order of arrival (first in, first out at the back; last in, first
out at the front), and the run leaves the same queue with both settings of the optimisation. -/
theorem queue_ordered (priority : W → Int) (optimise : Bool) (calls : List (Call W))
    (hcalls : LegalRun (start optimise priority) calls) :
    let t := runCalls (start optimise priority, {}) calls
    Sorted t.1.priority t.1.queue.dq ∧ t.1.queue.dq.Pairwise (Before t.1.priority t.2.rank) ∧
      ∀ optimise', (runCalls (start optimise' priority, {}) calls).1.queue.dq = t.1.queue.dq := by
  have hstart := ordered_start optimise priority
  have hs := hstart.runCalls hcalls
  refine ⟨sorted_of_before hs.before, hs.before, fun optimise' => ?_⟩
  have hsame := hstart.runCalls_optimise hcalls {} optimise'
  have hdq := congrArg (fun s : State W => s.queue.dq) hsame
  exact hdq

end

/-- Two work descriptors of one priority at each end, a third one whose priority is raised past theirs, and a
pop that takes it. -/
theorem queue_ordered_five :
    let calls : List (Call Nat) := [.push_back 1, .push_back 2, .push_front 3, .push_front 4, .push_back 5,
      .setPriority 5 9, .pop_front ⟨fun _ => true, fun _ => none⟩]
    let t := runCalls (start true fun wd => if wd = 5 then 2 else 7, {}) calls
    t.1.queue.dq = [4, 3, 1, 2] ∧ Sorted t.1.priority t.1.queue.dq :=
  ⟨by decide, (queue_ordered (fun wd => if wd = 5 then 2 else 7) true _ (by decide)).1⟩

end OmpSs.Core.PriorityQueue
