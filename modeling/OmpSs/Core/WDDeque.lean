import OmpSs.Lib.Run
import Mathlib.Data.List.Perm.Basic
import Mathlib.Logic.Function.Basic
import Mathlib.Algebra.Order.Ring.Int
import Mathlib.Tactic.Ring

/-!
# Deques of work descriptors

`WDDeque` (`nanox-mx/src/core/wddeque.hpp`): a list of work descriptors with three pieces of
bookkeeping beside it, the element count, a counter for each device, and in each work descriptor the
queue that holds it. The pops look at the device counters first and leave the list alone when these say
that there is nothing for the thread.

Every operation but one moves a work descriptor together with its bookkeeping (`Balanced.attach`,
`Balanced.detach`). `transferElemsFrom` moves the list only: the element count is overwritten, the device
counters of both deques and the work descriptors' queues stay as they were. Operations are atomic (the
source holds the deque's lock).
-/

namespace OmpSs.Core

open Lib

/-! ## The program -/

/-- Source: `WDDeque` (`wddeque_decl.hpp:109`). -/
structure WDDeque (W D : Type*) where
  dq : List W := []
  nelems : Int := 0
  ndevs : D → Int := fun _ => 0
  deviceCounter : Bool := true

/-- A set of deques, the field `_myQueue` of the work descriptors, and the scheduler's count of ready
tasks. -/
structure Queues (ι W D : Type*) where
  deque : ι → WDDeque W D
  myQueue : W → Option ι := fun _ => none
  readyTasks : Int := 0

/-- What a call of `pop_front`, `pop_back` or `removeWD` finds: the devices of the thread's processing
element and which of them is active, the active device of each work descriptor (an index into its
devices), the other conditions of `Scheduler::checkBasicConstraints` and of `Constraints::check`, and
the answer of each work descriptor's slicer: the work descriptor itself (`none`), or a slice while it
stays. -/
structure Visit (W D : Type*) where
  peDevices : List D
  peActive : Option D
  wdActive : W → Option Nat
  admits : W → Bool
  dequeue : W → Option W

namespace WDDeque

section
variable {ι W D : Type*} [DecidableEq ι] [DecidableEq W] [DecidableEq D] (devices : W → List D)

/-- Source: `WDDeque::increaseDeviceCounter` (`wddeque.hpp:337`). -/
def increaseDeviceCounter (q : WDDeque W D) (wd : W) : WDDeque W D :=
  if q.deviceCounter then
    { q with ndevs := (devices wd).foldl (fun n d => Function.update n d (n d + 1)) q.ndevs }
  else q

/-- Source: `WDDeque::decreaseDeviceCounter` (`wddeque.hpp:349`). -/
def decreaseDeviceCounter (q : WDDeque W D) (wd : W) : WDDeque W D :=
  if q.deviceCounter then
    { q with ndevs := (devices wd).foldl (fun n d => Function.update n d (n d - 1)) q.ndevs }
  else q

/-- The list with `wd` at its front or its back, and its device counters. -/
def attach (front : Bool) (q : WDDeque W D) (wd : W) : WDDeque W D :=
  increaseDeviceCounter devices { q with dq := if front then wd :: q.dq else q.dq ++ [wd] } wd

/-- The list without the first or the last `wd`, its device counters and the element count. -/
def detach (front : Bool) (q : WDDeque W D) (wd : W) : WDDeque W D :=
  let q := { q with dq := if front then q.dq.erase wd else (q.dq.reverse.erase wd).reverse }
  let q := decreaseDeviceCounter devices q wd
  { q with nelems := q.nelems - 1 }

/-- Source: `WDDeque::push_front` and `WDDeque::push_back` of one work descriptor
(`wddeque.hpp:66`, `:79`). -/
def push (front : Bool) (s : Queues ι W D) (i : ι) (wd : W) : Queues ι W D :=
  let q := attach devices front (s.deque i) wd
  { deque := Function.update s.deque i { q with nelems := q.nelems + 1 }
    myQueue := Function.update s.myQueue wd (some i)
    readyTasks := s.readyTasks + 1 }

/-- Source: `WDDeque::push_front` and `WDDeque::push_back` of a batch (`wddeque.hpp:97`, `:111`). -/
def pushBatch (front : Bool) (s : Queues ι W D) (i : ι) (wds : List W) : Queues ι W D :=
  let q := wds.foldl (attach devices front) (s.deque i)
  { deque := Function.update s.deque i { q with nelems := q.nelems + wds.length }
    myQueue := wds.foldl (fun queue wd => Function.update queue wd (some i)) s.myQueue
    readyTasks := s.readyTasks + wds.length }

/-- Source: `WorkDescriptor::canRunIn` (`workdescriptor.cpp:221`). -/
def canRunIn (v : Visit W D) (wd : W) (device : D) : Bool :=
  match v.wdActive wd with
  | some k => decide ((devices wd)[k]? = some device)
  | none => decide (device ∈ devices wd)

/-- Source: `ProcessingElement::canRun` (`processingelement.hpp:42`), without the test of the work
descriptor's state. -/
def canRun (v : Visit W D) (wd : W) : Bool :=
  match v.peActive with
  | none => v.peDevices.any (canRunIn devices v wd)
  | some d => canRunIn devices v wd d

/-- Source: `Scheduler::checkBasicConstraints` (`schedule.hpp:39`) and `Constraints::check`. -/
def check (v : Visit W D) (wd : W) : Bool := canRun devices v wd && v.admits wd

/-- The test of the device counters before a pop (`wddeque.hpp:158` to `:175`). -/
def hasTasks (q : WDDeque W D) (v : Visit W D) : Bool :=
  match v.peActive with
  | some d => decide (0 < q.ndevs d)
  | none => v.peDevices.any fun d => decide (0 < q.ndevs d)

/-- The work descriptor `wd` of deque `i` is dequeued: it leaves the deque, or hands out a slice. -/
def take (front : Bool) (s : Queues ι W D) (i : ι) (v : Visit W D) (wd : W) : W × Queues ι W D :=
  match v.dequeue wd with
  | none =>
    (wd, { deque := Function.update s.deque i (detach devices front (s.deque i) wd)
           myQueue := Function.update s.myQueue wd none
           readyTasks := s.readyTasks - 1 })
  | some slice => (slice, { s with myQueue := Function.update s.myQueue slice none })

/-- Source: `WDDeque::popFrontWithConstraints` and `WDDeque::popBackWithConstraints`
(`wddeque.hpp:152`, `:231`). -/
def pop (front : Bool) (s : Queues ι W D) (i : ι) (v : Visit W D) : Option W × Queues ι W D :=
  let q := s.deque i
  if q.dq = [] then (none, s)
  else if q.deviceCounter && !hasTasks q v then (none, s)
  else
    match (if front then q.dq else q.dq.reverse).find? (check devices v) with
    | none => (none, s)
    | some wd => ((take devices front s i v wd).1, (take devices front s i v wd).2)

/-- Source: `WDDeque::removeWDWithConstraints` (`wddeque.hpp:288`). -/
def removeWD (s : Queues ι W D) (i : ι) (v : Visit W D) (toRem : W) : Option W × Queues ι W D :=
  let q := s.deque i
  if q.dq = [] then (none, s)
  else if !check devices v toRem then (none, s)
  else if s.myQueue toRem = some i ∧ toRem ∈ q.dq then
    ((take devices true s i v toRem).1, (take devices true s i v toRem).2)
  else (none, s)

/-- Source: `WDDeque::transferElemsFrom` (`wddeque.hpp:386`). A non-empty deque transferred to itself
makes the loop run for ever. -/
def transferElemsFrom (s : Queues ι W D) (i dq : ι) : Option (Queues ι W D) :=
  if i = dq then
    if (s.deque i).dq = [] then
      some { s with deque := Function.update s.deque i { s.deque i with nelems := 0 } }
    else none
  else
    let target := { s.deque i with
      dq := (s.deque i).dq ++ (s.deque dq).dq
      nelems := (s.deque dq).nelems }
    let source := { s.deque dq with dq := [], nelems := 0 }
    some { s with deque := Function.update (Function.update s.deque i target) dq source }

end

end WDDeque

/-- The operations on the deques. -/
inductive QueueCall (ι W D : Type*)
  | push_front (i : ι) (wd : W)
  | push_back (i : ι) (wd : W)
  | push_front_batch (i : ι) (wds : List W)
  | push_back_batch (i : ι) (wds : List W)
  | pop_front (i : ι) (v : Visit W D)
  | pop_back (i : ι) (v : Visit W D)
  | removeWD (i : ι) (v : Visit W D) (toRem : W)
  | transferElemsFrom (i dq : ι)

namespace WDDeque

section
variable {ι W D : Type*} [DecidableEq ι] [DecidableEq W] [DecidableEq D] (devices : W → List D)

/-- The deques after a call that returns. -/
def step (s : Queues ι W D) : QueueCall ι W D → Option (Queues ι W D)
  | .push_front i wd => some (push devices true s i wd)
  | .push_back i wd => some (push devices false s i wd)
  | .push_front_batch i wds => some (pushBatch devices true s i wds)
  | .push_back_batch i wds => some (pushBatch devices false s i wds)
  | .pop_front i v => some (pop devices true s i v).2
  | .pop_back i v => some (pop devices false s i v).2
  | .removeWD i v toRem => some (removeWD devices s i v toRem).2
  | .transferElemsFrom i dq => transferElemsFrom s i dq

/-- Empty deques, with or without device counters. -/
def start (counters : ι → Bool) : Queues ι W D := { deque := fun i => { deviceCounter := counters i } }

/-! ## The bookkeeping -/

/-- Size, device counters and queues of the work descriptors are those of the lists. -/
structure Accounted (s : Queues ι W D) : Prop where
  size : ∀ i, (s.deque i).nelems = (s.deque i).dq.length
  counter : ∀ i, (s.deque i).deviceCounter = true → ∀ d,
    (s.deque i).ndevs d = (s.deque i).dq.countP fun wd => decide (d ∈ devices wd)
  queue : ∀ i, ∀ wd ∈ (s.deque i).dq, s.myQueue wd = some i

/-- The bookkeeping of one deque, its element count being `k` behind. -/
structure Balanced (k : Int) (q : WDDeque W D) : Prop where
  size : q.nelems + k = q.dq.length
  counter : q.deviceCounter = true → ∀ d, q.ndevs d = q.dq.countP fun wd => decide (d ∈ devices wd)
  nodup : q.dq.Nodup
  plain : q.deviceCounter = true → ∀ wd ∈ q.dq, (devices wd).Nodup

/-- What holds of all deques. -/
structure Kept (s : Queues ι W D) : Prop where
  balanced : ∀ i, Balanced devices 0 (s.deque i)
  queue : ∀ i, ∀ wd ∈ (s.deque i).dq, s.myQueue wd = some i

variable {devices} {s s' : Queues ι W D} {q : WDDeque W D} {i : ι} {wd : W} {front : Bool} {k : Int}
  {v : Visit W D}

omit [DecidableEq ι] [DecidableEq W] in
theorem Kept.accounted (hs : Kept devices s) : Accounted devices s where
  size i := by simpa using (hs.balanced i).size
  counter i := (hs.balanced i).counter
  queue := hs.queue

theorem foldl_update_add (c : Int) (l : List D) (n : D → Int) (d : D) :
    l.foldl (fun n d => Function.update n d (n d + c)) n d = n d + c * l.count d := by
  induction l generalizing n with
  | nil => simp
  | cons a l ih =>
    rw [List.foldl_cons, ih, List.count_cons]
    by_cases had : a = d
    · subst had
      simp
      ring
    · simp [had, Function.update_of_ne (Ne.symm had)]

theorem count_eq_of_nodup {l : List D} (h : l.Nodup) (d : D) :
    (l.count d : Int) = if d ∈ l then 1 else 0 := by
  rw [h.count]
  split <;> simp

section
variable (devices) (front : Bool) (q : WDDeque W D) (wd : W)

omit [DecidableEq W] in
theorem increaseDeviceCounter_frame :
    (increaseDeviceCounter devices q wd).dq = q.dq ∧
      (increaseDeviceCounter devices q wd).nelems = q.nelems ∧
      (increaseDeviceCounter devices q wd).deviceCounter = q.deviceCounter := by
  unfold increaseDeviceCounter
  split <;> exact ⟨rfl, rfl, rfl⟩

omit [DecidableEq W] in
theorem decreaseDeviceCounter_frame :
    (decreaseDeviceCounter devices q wd).dq = q.dq ∧
      (decreaseDeviceCounter devices q wd).nelems = q.nelems ∧
      (decreaseDeviceCounter devices q wd).deviceCounter = q.deviceCounter := by
  unfold decreaseDeviceCounter
  split <;> exact ⟨rfl, rfl, rfl⟩

omit [DecidableEq W] in
theorem attach_perm : (attach devices front q wd).dq.Perm (wd :: q.dq) := by
  rw [attach, (increaseDeviceCounter_frame ..).1]
  cases front with
  | true => exact .refl _
  | false => exact List.perm_append_comm

omit [DecidableEq W] in
theorem attach_fields : (attach devices front q wd).nelems = q.nelems ∧
    (attach devices front q wd).deviceCounter = q.deviceCounter :=
  (increaseDeviceCounter_frame ..).2

omit [DecidableEq W] in
theorem attach_ndevs (h : q.deviceCounter = true) (d : D) :
    (attach devices front q wd).ndevs d = q.ndevs d + (devices wd).count d := by
  unfold attach increaseDeviceCounter
  rw [if_pos h]
  exact (foldl_update_add 1 _ _ _).trans (by rw [one_mul])

theorem detach_fields : (detach devices front q wd).nelems = q.nelems - 1 ∧
    (detach devices front q wd).deviceCounter = q.deviceCounter := by
  obtain ⟨-, hnelems, hcounter⟩ := decreaseDeviceCounter_frame devices
    { q with dq := if front then q.dq.erase wd else (q.dq.reverse.erase wd).reverse } wd
  exact ⟨congrArg (· - 1) hnelems, hcounter⟩

theorem detach_ndevs (h : q.deviceCounter = true) (d : D) :
    (detach devices front q wd).ndevs d = q.ndevs d - (devices wd).count d := by
  unfold detach decreaseDeviceCounter
  dsimp only
  rw [if_pos h]
  simp only [sub_eq_add_neg]
  exact (foldl_update_add (-1) _ _ _).trans (by rw [neg_one_mul])

end

theorem detach_perm (h : wd ∈ q.dq) : q.dq.Perm (wd :: (detach devices front q wd).dq) := by
  have hdq : (detach devices front q wd).dq =
      if front then q.dq.erase wd else (q.dq.reverse.erase wd).reverse :=
    (decreaseDeviceCounter_frame ..).1
  rw [hdq]
  cases front with
  | true => exact List.perm_cons_erase h
  | false =>
    have hrev := List.perm_cons_erase (List.mem_reverse.2 h)
    exact (List.reverse_perm q.dq).symm.trans (hrev.trans ((List.reverse_perm _).symm.cons wd))

omit [DecidableEq W] in
/-- A work descriptor that comes into the list with its device counters. -/
theorem Balanced.attach (h : Balanced devices k q) (hnew : wd ∉ q.dq)
    (hplain : q.deviceCounter = true → (devices wd).Nodup) :
    Balanced devices (k + 1) (attach devices front q wd) := by
  obtain ⟨hnelems, hcounter⟩ := attach_fields devices front q wd
  have hperm := attach_perm devices front q wd
  refine ⟨?_, fun hc d => ?_, ?_, fun hc w hw => ?_⟩
  · have hsize := h.size
    rw [hnelems, hperm.length_eq, List.length_cons]
    push_cast
    omega
  · rw [hcounter] at hc
    rw [attach_ndevs _ _ _ _ hc, count_eq_of_nodup (hplain hc), h.counter hc, hperm.countP_eq,
      List.countP_cons]
    by_cases hd : d ∈ devices wd <;> simp [hd]
  · exact hperm.nodup_iff.2 (List.nodup_cons.2 ⟨hnew, h.nodup⟩)
  · rw [hcounter] at hc
    rcases List.mem_cons.1 (hperm.mem_iff.1 hw) with rfl | hw
    · exact hplain hc
    · exact h.plain hc w hw

/-- A work descriptor that leaves the list with its device counters. -/
theorem Balanced.detach (h : Balanced devices 0 q) (hmem : wd ∈ q.dq) :
    Balanced devices 0 (detach devices front q wd) := by
  obtain ⟨hnelems, hcounter⟩ := detach_fields devices front q wd
  have hperm : q.dq.Perm (wd :: (WDDeque.detach devices front q wd).dq) := detach_perm hmem
  refine ⟨?_, fun hc d => ?_, ?_, fun hc w hw => ?_⟩
  · have hsize := h.size
    rw [hperm.length_eq, List.length_cons] at hsize
    push_cast at hsize
    omega
  · rw [hcounter] at hc
    have hold := h.counter hc d
    rw [hperm.countP_eq, List.countP_cons] at hold
    rw [detach_ndevs _ _ _ _ hc, count_eq_of_nodup (h.plain hc wd hmem), hold]
    by_cases hd : d ∈ devices wd <;> simp [hd]
  · exact (List.nodup_cons.1 (hperm.nodup_iff.1 h.nodup)).2
  · rw [hcounter] at hc
    exact h.plain hc w (hperm.mem_iff.2 (List.mem_cons_of_mem _ hw))

omit [DecidableEq W] in
/-- A batch that comes into the list. -/
theorem Balanced.attachAll (wds : List W) (h : Balanced devices k q) (hnodup : wds.Nodup)
    (hnew : ∀ wd ∈ wds, wd ∉ q.dq)
    (hplain : ∀ wd ∈ wds, q.deviceCounter = true → (devices wd).Nodup) :
    Balanced devices (k + wds.length) (wds.foldl (WDDeque.attach devices front) q) ∧
      (∀ wd, wd ∈ (wds.foldl (WDDeque.attach devices front) q).dq ↔ wd ∈ wds ∨ wd ∈ q.dq) := by
  induction wds generalizing q k with
  | nil => simpa using h
  | cons a wds ih =>
    obtain ⟨ha, hnodup⟩ := List.nodup_cons.1 hnodup
    have hmem : ∀ wd, wd ∈ (WDDeque.attach devices front q a).dq ↔ wd = a ∨ wd ∈ q.dq := fun wd => by
      rw [(attach_perm devices front q a).mem_iff, List.mem_cons]
    obtain ⟨hb, hm⟩ := ih (Balanced.attach h (hnew a (by simp)) (hplain a (by simp))) hnodup
      (fun wd hwd hbad => by
        rcases (hmem wd).1 hbad with rfl | hbad
        · exact ha hwd
        · exact hnew wd (by simp [hwd]) hbad)
      (fun wd hwd hc => hplain wd (by simp [hwd]) ((attach_fields devices front q a).2.symm.trans hc))
    refine ⟨?_, fun wd => ?_⟩
    · rw [List.foldl_cons, List.length_cons]
      have hk : k + ((wds.length + 1 : Nat) : Int) = k + 1 + wds.length := by
        push_cast
        ring
      rwa [hk]
    · rw [List.foldl_cons, hm wd, hmem wd, List.mem_cons]
      tauto

omit [DecidableEq ι] in
theorem foldl_update_queue (wds : List W) (queue : W → Option ι) (w : W) :
    wds.foldl (fun queue wd => Function.update queue wd (some i)) queue w =
      if w ∈ wds then some i else queue w := by
  induction wds generalizing queue with
  | nil => simp
  | cons a wds ih =>
    rw [List.foldl_cons, ih]
    by_cases hw : w ∈ wds
    · simp [hw]
    · by_cases ha : w = a
      · simp [ha]
      · simp [hw, ha]

/-! ## Every sequence of calls -/

/-- Some deque holds `wd`. -/
def Held (s : Queues ι W D) (wd : W) : Prop := ∃ i, wd ∈ (s.deque i).dq

/-- What the callers and the slicers promise: a work descriptor is pushed only while no deque holds it,
and a slice that is handed out is held by no deque. -/
def Promised (s : Queues ι W D) : QueueCall ι W D → Prop
  | .push_front _ wd | .push_back _ wd => ¬ Held s wd
  | .push_front_batch _ wds | .push_back_batch _ wds => wds.Nodup ∧ ∀ wd ∈ wds, ¬ Held s wd
  | .pop_front _ v | .pop_back _ v | .removeWD _ v _ =>
    ∀ wd slice, v.dequeue wd = some slice → ¬ Held s slice
  | .transferElemsFrom _ _ => True

variable (devices) in
/-- A work descriptor that goes into a deque with device counters names no device twice, and a transfer
has nothing to transfer to or from. -/
def Plain (s : Queues ι W D) : QueueCall ι W D → Prop
  | .push_front i wd | .push_back i wd => (s.deque i).deviceCounter = true → (devices wd).Nodup
  | .push_front_batch i wds | .push_back_batch i wds =>
    ∀ wd ∈ wds, (s.deque i).deviceCounter = true → (devices wd).Nodup
  | .pop_front _ _ | .pop_back _ _ | .removeWD _ _ _ => True
  | .transferElemsFrom i dq => (s.deque i).dq = [] ∧ (s.deque dq).dq = []

omit [DecidableEq W] in
/-- Replacing one deque, and the queues of the work descriptors that come or go. -/
theorem Kept.update {readyTasks : Int} {q : WDDeque W D} {myQueue : W → Option ι} (hs : Kept devices s)
    (hq : Balanced devices 0 q) (hmem : ∀ wd ∈ q.dq, myQueue wd = some i)
    (hothers : ∀ j, j ≠ i → ∀ wd ∈ (s.deque j).dq, myQueue wd = some j) :
    Kept devices ⟨Function.update s.deque i q, myQueue, readyTasks⟩ where
  balanced j := by
    obtain rfl | hj := eq_or_ne j i
    · simpa using hq
    · simpa [hj] using hs.balanced j
  queue j wd hwd := by
    obtain rfl | hj := eq_or_ne j i
    · exact hmem wd (by simpa using hwd)
    · exact hothers j hj wd (by simpa [hj] using hwd)

omit [DecidableEq W] in
theorem Balanced.settle (h : Balanced devices k q) :
    Balanced devices 0 { q with nelems := q.nelems + k } :=
  ⟨by simpa using h.size, h.counter, h.nodup, h.plain⟩

theorem Kept.push (hs : Kept devices s) (hnew : ¬ Held s wd)
    (hplain : (s.deque i).deviceCounter = true → (devices wd).Nodup) :
    Kept devices (push devices front s i wd) := by
  have hq : Balanced devices (0 + 1) (WDDeque.attach devices front (s.deque i) wd) :=
    (hs.balanced i).attach (fun hmem => hnew ⟨i, hmem⟩) hplain
  refine hs.update (by simpa using hq.settle) (fun w hw => ?_) fun j _ w hw => ?_
  · rcases List.mem_cons.1 ((attach_perm devices front _ wd).mem_iff.1 hw) with rfl | hw
    · simp
    · have hne : w ≠ wd := fun heq => hnew ⟨i, heq ▸ hw⟩
      simpa [hne] using hs.queue i w hw
  · have hne : w ≠ wd := fun heq => hnew ⟨j, heq ▸ hw⟩
    simpa [hne] using hs.queue j w hw

theorem Kept.pushBatch {wds : List W} (hs : Kept devices s) (hnodup : wds.Nodup)
    (hnew : ∀ wd ∈ wds, ¬ Held s wd)
    (hplain : ∀ wd ∈ wds, (s.deque i).deviceCounter = true → (devices wd).Nodup) :
    Kept devices (pushBatch devices front s i wds) := by
  obtain ⟨hq, hmem⟩ : Balanced devices (0 + wds.length)
      (wds.foldl (WDDeque.attach devices front) (s.deque i)) ∧ _ :=
    (hs.balanced i).attachAll wds hnodup (fun wd hwd hbad => hnew wd hwd ⟨i, hbad⟩) hplain
  refine hs.update (by simpa using hq.settle) (fun w hw => ?_) fun j _ w hw => ?_
  · rw [foldl_update_queue]
    split
    · rfl
    · next hw' => exact hs.queue i w (((hmem w).1 hw).resolve_left hw')
  · rw [foldl_update_queue, if_neg fun hw' => hnew w hw' ⟨j, hw⟩]
    exact hs.queue j w hw

theorem Kept.take (hs : Kept devices s) (hmem : wd ∈ (s.deque i).dq)
    (hslice : ∀ wd slice, v.dequeue wd = some slice → ¬ Held s slice) :
    Kept devices (take devices front s i v wd).2 := by
  unfold WDDeque.take
  split
  · have hperm : (s.deque i).dq.Perm (wd :: (WDDeque.detach devices front (s.deque i) wd).dq) :=
      detach_perm hmem
    have hnot : wd ∉ (WDDeque.detach devices front (s.deque i) wd).dq :=
      (List.nodup_cons.1 (hperm.nodup_iff.1 (hs.balanced i).nodup)).1
    refine hs.update ((hs.balanced i).detach hmem) (fun w hw => ?_) fun j hj w hw => ?_
    · have hne : w ≠ wd := fun heq => hnot (heq ▸ hw)
      simpa [hne] using hs.queue i w (hperm.mem_iff.2 (List.mem_cons_of_mem _ hw))
    · -- the work descriptor is held by deque `i` only
      have hne : w ≠ wd := by
        rintro rfl
        exact hj (Option.some.inj ((hs.queue j w hw).symm.trans (hs.queue i w hmem)))
      simpa [hne] using hs.queue j w hw
  · next slice hd =>
    refine ⟨hs.balanced, fun j w hw => ?_⟩
    have hne : w ≠ slice := fun heq => hslice wd slice hd ⟨j, heq ▸ hw⟩
    simpa [hne] using hs.queue j w hw

theorem Kept.pop (hs : Kept devices s)
    (hslice : ∀ wd slice, v.dequeue wd = some slice → ¬ Held s slice) :
    Kept devices (pop devices front s i v).2 := by
  unfold WDDeque.pop
  dsimp only
  split
  · exact hs
  · split
    · exact hs
    · split
      · exact hs
      · next wd hfind =>
        refine hs.take ?_ hslice
        have hmem := List.mem_of_find?_eq_some hfind
        cases front with
        | true => exact hmem
        | false => exact List.mem_reverse.1 hmem

theorem Kept.removeWD {toRem : W} (hs : Kept devices s)
    (hslice : ∀ wd slice, v.dequeue wd = some slice → ¬ Held s slice) :
    Kept devices (removeWD devices s i v toRem).2 := by
  unfold WDDeque.removeWD
  dsimp only
  split
  · exact hs
  · split
    · exact hs
    · split
      · next hmem => exact hs.take hmem.2 hslice
      · exact hs

omit [DecidableEq W] in
/-- A transfer between empty deques. -/
theorem Kept.transferElemsFrom {j : ι} (hs : Kept devices s) (hi : (s.deque i).dq = [])
    (hj : (s.deque j).dq = []) (h : transferElemsFrom s i j = some s') : Kept devices s' := by
  have hzero : ∀ k, (s.deque k).dq = [] → (s.deque k).nelems = 0 := fun k hk => by
    simpa [hk] using (hs.balanced k).size
  -- nothing changes
  have hsame : ∀ (k : ι) (l : List W) (n : Int), (s.deque k).dq = [] → l = [] → n = 0 →
      (⟨l, n, (s.deque k).ndevs, (s.deque k).deviceCounter⟩ : WDDeque W D) = s.deque k := by
    intro k l n hk hl hn
    rw [hl, hn, ← hzero k hk, ← hk]
  have hs' : s' = s := by
    unfold WDDeque.transferElemsFrom at h
    split at h
    · obtain rfl := Option.some.inj h
      refine congrArg (Queues.mk · s.myQueue s.readyTasks) ?_
      exact (congrArg (Function.update s.deque i) (hsame i _ 0 hi hi rfl)).trans
        (Function.update_eq_self i _)
    · obtain rfl := Option.some.inj h
      refine congrArg (Queues.mk · s.myQueue s.readyTasks) ?_
      have htarget := hsame i ((s.deque i).dq ++ (s.deque j).dq) _ hi (by rw [hi, hj]; rfl) (hzero j hj)
      dsimp only
      rw [htarget, Function.update_eq_self]
      exact (congrArg (Function.update s.deque j) (hsame j _ 0 hj rfl rfl)).trans
        (Function.update_eq_self j _)
  rw [hs']
  exact hs

theorem Kept.step {e : QueueCall ι W D} (hs : Kept devices s) (hpromised : Promised s e)
    (hplain : Plain devices s e) (h : step devices s e = some s') : Kept devices s' := by
  cases e with
  | push_front i wd | push_back i wd =>
    cases h
    exact hs.push hpromised hplain
  | push_front_batch i wds | push_back_batch i wds =>
    cases h
    exact hs.pushBatch hpromised.1 hpromised.2 hplain
  | pop_front i v | pop_back i v =>
    cases h
    exact hs.pop hpromised
  | removeWD i v toRem =>
    cases h
    exact hs.removeWD hpromised
  | transferElemsFrom i dq => exact hs.transferElemsFrom hplain.1 hplain.2 h

omit [DecidableEq ι] [DecidableEq W] in
theorem kept_start (counters : ι → Bool) : Kept devices (start counters : Queues ι W D) where
  balanced i := ⟨rfl, fun _ _ => rfl, List.nodup_nil, by simp [start]⟩
  queue i wd h := by simp [start] at h

omit [DecidableEq ι] [DecidableEq W] in
/-- Where the counters are right, the test before a pop does not hide a work descriptor that the
thread can run. -/
theorem Accounted.hasTasks (hs : Accounted devices s) (hc : (s.deque i).deviceCounter = true)
    (hmem : wd ∈ (s.deque i).dq) (hrun : canRun devices v wd = true) :
    hasTasks (s.deque i) v = true := by
  have hpos : ∀ d, canRunIn devices v wd d = true → 0 < (s.deque i).ndevs d := by
    intro d hd
    rw [hs.counter i hc d]
    refine Int.natCast_pos.2 (List.countP_pos_iff.2 ⟨wd, hmem, decide_eq_true ?_⟩)
    unfold canRunIn at hd
    split at hd
    · exact List.mem_of_getElem? (of_decide_eq_true hd)
    · exact of_decide_eq_true hd
  unfold canRun at hrun
  unfold WDDeque.hasTasks
  cases hpe : v.peActive with
  | none =>
    rw [hpe] at hrun
    obtain ⟨d, hd, hrun⟩ := List.any_eq_true.1 hrun
    exact List.any_eq_true.2 ⟨d, hd, decide_eq_true (hpos d hrun)⟩
  | some d =>
    rw [hpe] at hrun
    exact decide_eq_true (hpos d hrun)

/-- In every sequence of calls in which no work descriptor with a repeated device goes into a counted
deque and transfers find both deques empty: sizes, device counters and queues are those of the lists,
and the test before a pop hides nothing the thread can run. -/
theorem deques_accounted (devices : W → List D) (counters : ι → Bool) (s : Queues ι W D)
    (h : Reach (step devices) (fun s e => Promised s e ∧ Plain devices s e) (start counters) s) :
    Accounted devices s ∧ ∀ i wd v, (s.deque i).deviceCounter = true → wd ∈ (s.deque i).dq →
      canRun devices v wd = true → WDDeque.hasTasks (s.deque i) v = true := by
  have hs : Kept devices s :=
    h.invariant (kept_start counters) fun _ _ _ hs hok hstep => hs.step hok.1 hok.2 hstep
  exact ⟨hs.accounted, fun i wd v hc hmem hrun => hs.accounted.hasTasks hc hmem hrun⟩

end

/-- A thread whose processing element has the one device `true`. -/
def smpVisit : Visit Nat Bool :=
  { peDevices := [true], peActive := none, wdActive := fun _ => none, admits := fun _ => true,
    dequeue := fun _ => none }

/-- Two work descriptors pushed and the first popped again. -/
theorem deques_accounted_two : ∃ s : Queues Bool Nat Bool,
    ((s.deque true).dq = [2] ∧ s.myQueue 1 = none) ∧ Accounted (fun _ => [true]) s := by
  let s₁ : Queues Bool Nat Bool := pushBatch (fun _ => [true]) false (start fun _ => true) true [1, 2]
  have h₁ : Reach (step fun _ => [true]) (fun s e => Promised s e ∧ Plain (fun _ => [true]) s e)
      (start fun _ => true) s₁ :=
    Reach.refl.tail (e := .push_back_batch true [1, 2])
      ⟨⟨by decide, by simp [Held, start]⟩, by simp [Plain]⟩ rfl
  have h₂ := h₁.tail (e := .pop_front true smpVisit)
    ⟨by simp [Promised, smpVisit], by simp [Plain]⟩ rfl
  exact ⟨_, ⟨by decide, by decide⟩, (deques_accounted _ _ _ h₂).1⟩

/-- A work descriptor transferred from one deque to another: the device counter of the deque that holds
it is 0, and a thread that could run it is told that there is nothing. -/
theorem not_accounted_of_transfer : ∃ s : Queues Bool Nat Bool,
    Reach (step fun _ => [true]) Promised (start fun _ => true) s ∧
      (s.deque false).dq = [1] ∧ canRun (fun _ => [true]) smpVisit 1 = true ∧
      (pop (fun _ => [true]) true s false smpVisit).1 = none ∧ ¬ Accounted (fun _ => [true]) s := by
  let s₁ : Queues Bool Nat Bool := push (fun _ => [true]) false (start fun _ => true) true 1
  have h₁ : Reach (step fun _ => [true]) Promised (start fun _ => true) s₁ :=
    Reach.refl.tail (e := .push_back true 1) (by simp [Promised, Held, start]) rfl
  have h₂ := h₁.tail (e := .transferElemsFrom false true) (by simp [Promised]) rfl
  refine ⟨_, h₂, rfl, rfl, rfl, fun hs => ?_⟩
  have hqueue := hs.queue false 1 (by decide)
  exact absurd hqueue (by decide)

end WDDeque

end OmpSs.Core
