import OmpSs.Loops.DynamicFor
import OmpSs.Loops.GuidedFor
import OmpSs.Loops.StaticWorksharing
import Mathlib.Algebra.BigOperators.Group.List.Basic

/-!
# The last item of a worksharing loop

The code of a `for` with `lastprivate` variables (`mcxx/src/tl/omp/nanox-nodecl/tl-lower-for.cpp:85`,
`tl-lower-for-worksharing.cpp:82`) asks the worksharing plugin for items until one is not to be executed,
and copies the variables out behind an item whose flag `last` is set. The static plugin computes the flag
from the bounds of the item; the dynamic and the guided plugin never write it, so that it keeps what the
thread's memory held before. `flagsLast_iff` says for which loops the flag is set on the one item with
the final iteration. Integers are exact.
-/

namespace OmpSs.Loops

open Lib

/-! ## The program -/

/-- The worksharing plugins. -/
inductive Plugin
  | static
  | dynamic
  | guided
deriving DecidableEq

/-- The item after a call of the dynamic or the guided plugin: they write the bounds and `execute`. -/
def LoopItem.write (loop_item : LoopItem) : Option WsItemLoop → LoopItem
  | none => { loop_item with execute := false }
  | some bounds => { loop_item with lower := bounds.lower, upper := bounds.upper, execute := true }

/-- A thread of the team: its descriptor (for the dynamic and the guided plugin all threads have the
same), its variable `nanos_item_loop`, whether it is still asking for items, the items it has executed and
those after which it has copied the lastprivate variables out. -/
structure Thread where
  data : WorkSharingLoopInfo
  item : LoopItem
  running : Bool := true
  executed : List LoopItem := []
  copiedOut : List LoopItem := []

/-- The generated loop from one call to the next: the item is executed and the lastprivate variables are
copied out under the flag. Source: `tl-lower-for-worksharing.cpp:82`, `update_lastprivates`
(`tl-lower-for.cpp:85`). -/
def Thread.resume (th : Thread) (data : WorkSharingLoopInfo) (item : LoopItem) : Thread :=
  if item.execute then
    { th with
      data, item
      executed := th.executed ++ [item]
      copiedOut := th.copiedOut ++ if item.last then [item] else [] }
  else { th with data, item, running := false }

/-- The threads and the counter the dynamic and the guided plugin share. -/
structure Team where
  currentChunk : Nat := 0
  threads : List Thread

namespace Plugin

/-- The descriptor for a team of `num_threads`. -/
def create (info : WsInfoLoop) (num_threads : Nat) : Plugin → Option WorkSharingLoopInfo
  | static => some (StaticWs.create info)
  | dynamic => some (DynamicFor.create info)
  | guided => GuidedFor.create info num_threads

/-- A call of `nextItem` and what the thread does with its item. -/
def call (num_threads thid currentChunk : Nat) (th : Thread) : Plugin → Thread
  | static =>
    let r := StaticWs.nextItem num_threads thid th.data th.item
    th.resume r.1 r.2
  | dynamic => th.resume th.data (th.item.write (DynamicFor.nextItem th.data currentChunk))
  | guided => th.resume th.data (th.item.write (GuidedFor.nextItem th.data currentChunk))

/-- The counter after a call. -/
def draw (currentChunk : Nat) : Plugin → Nat
  | static => currentChunk
  | dynamic | guided => currentChunk + 1

/-- Thread `i` makes its next call. -/
def step (plugin : Plugin) (s : Team) (i : Nat) : Option Team :=
  match s.threads[i]? with
  | some th =>
    if th.running then
      some ⟨plugin.draw s.currentChunk,
        s.threads.set i (plugin.call s.threads.length i s.currentChunk th)⟩
    else none
  | none => none

/-- The team before the loop; `memory` is what the variables `nanos_item_loop`, which are not
initialised, happen to hold. -/
def start (data : WorkSharingLoopInfo) (memory : List LoopItem) : Team where
  threads := memory.map fun item => { data, item }

/-- In every run to the end, whatever the memory held, exactly one executed item has the flag, it has the
loop's final iteration, and the lastprivate variables are copied out after it and no other. -/
def FlagsLast (plugin : Plugin) (info : WsInfoLoop) (threads : Nat) : Prop :=
  ∀ data, plugin.create info threads = some data → ∀ memory : List LoopItem, memory.length = threads →
    ∀ es s, run plugin.step (start data memory) es = some s → (∀ th ∈ s.threads, th.running = false) →
      ∃ item v, (iterations info.lower_bound info.upper_bound info.loop_step).getLast? = some v ∧
        (s.threads.flatMap (·.executed)).filter (·.last) = [item] ∧ v ∈ item.values info.loop_step ∧
        s.threads.flatMap (·.copiedOut) = [item]

/-- The loops whose last item the plugin flags: with the static plugin, if the step reaches the upper
bound, or the last chunk is cut short. -/
def ReachesLast (info : WsInfoLoop) : Plugin → Prop
  | static => 0 ≤ info.chunk_size ∧ (info.loop_step ∣ info.upper_bound - info.lower_bound ∨
      0 < info.chunk_size ∧
        ¬ info.chunk_size ∣ tripCount info.lower_bound info.upper_bound info.loop_step)
  | dynamic | guided => False

instance (info : WsInfoLoop) : (plugin : Plugin) → Decidable (plugin.ReachesLast info)
  | static => inferInstanceAs (Decidable (_ ∧ _))
  | dynamic | guided => inferInstanceAs (Decidable False)

end Plugin

/-! ## Runs of a team -/

section
variable {plugin : Plugin} {th : Thread} {data : WorkSharingLoopInfo} {item : LoopItem} {s s' : Team}
  {T B t i : Nat}

theorem Thread.resume_of_execute (h : item.execute = true) : th.resume data item =
    { th with
      data, item
      executed := th.executed ++ [item]
      copiedOut := th.copiedOut ++ if item.last then [item] else [] } := if_pos h

theorem Thread.resume_of_not_execute (h : item.execute = false) :
    th.resume data item = { th with data, item, running := false } := by
  rw [Thread.resume, h]
  rfl

/-- A thread copies out after the flagged items it has executed. -/
def Thread.CopiesFlagged (th : Thread) : Prop := th.copiedOut = th.executed.filter (·.last)

theorem Thread.CopiesFlagged.resume (h : th.CopiesFlagged) : (th.resume data item).CopiesFlagged := by
  unfold Thread.CopiesFlagged at h ⊢
  cases hitem : item.execute with
  | true =>
    rw [Thread.resume_of_execute hitem]
    simp only [h, List.filter_append, List.filter_cons, List.filter_nil]
  | false =>
    rw [Thread.resume_of_not_execute hitem]
    exact h

namespace Plugin

theorem exists_resume (plugin : Plugin) (T t chunk : Nat) (th : Thread) :
    ∃ data item, plugin.call T t chunk th = th.resume data item := by
  cases plugin <;> exact ⟨_, _, rfl⟩

/-- Everything a step can do. -/
theorem step_cases (h : plugin.step s i = some s') : ∃ th, s.threads[i]? = some th ∧ th.running = true ∧
    s'.currentChunk = plugin.draw s.currentChunk ∧
    s'.threads = s.threads.set i (plugin.call s.threads.length i s.currentChunk th) := by
  unfold step at h
  split at h
  · next th hth =>
    split at h
    · next hrunning =>
      cases h
      exact ⟨th, hth, hrunning, rfl, rfl⟩
    · cases h
  · cases h

/-- Every thread of a team of `T` has the property `P` of its number. -/
structure Threads (T : Nat) (P : Nat → Thread → Prop) (s : Team) : Prop where
  length : s.threads.length = T
  each : ∀ t th, s.threads[t]? = some th → P t th

theorem Threads.step {P : Nat → Thread → Prop}
    (hcall : ∀ t th chunk, t < T → th.running = true → P t th → P t (plugin.call T t chunk th))
    (hs : Threads T P s) (h : plugin.step s i = some s') : Threads T P s' := by
  obtain ⟨th, hth, hrunning, -, hthreads⟩ := step_cases h
  have hlt := (List.getElem?_eq_some_iff.1 hth).1
  refine ⟨by rw [hthreads, List.length_set, hs.length], fun t th' hth' => ?_⟩
  rw [hthreads, hs.length] at hth'
  rcases eq_or_ne i t with rfl | hne
  · rw [List.getElem?_set_self hlt] at hth'
    cases hth'
    exact hcall i th _ (hs.length ▸ hlt) hrunning (hs.each i th hth)
  · rw [List.getElem?_set_ne hne] at hth'
    exact hs.each t th' hth'

theorem threads_start {P : Nat → Thread → Prop} {memory : List LoopItem} (hlen : memory.length = T)
    (h : ∀ t item, P t { data, item }) : Threads T P (start data memory) := by
  refine ⟨by rw [start, List.length_map, hlen], fun t th hth => ?_⟩
  rw [start, List.getElem?_map, Option.map_eq_some_iff] at hth
  obtain ⟨item, -, rfl⟩ := hth
  exact h t item

theorem Threads.run {P : Nat → Thread → Prop} {es : List Nat}
    (hcall : ∀ t th chunk, t < T → th.running = true → P t th → P t (plugin.call T t chunk th))
    (hs : Threads T P s) (h : Lib.run plugin.step s es = some s') : Threads T P s' := by
  have hreach : Reach plugin.step (fun _ _ => True) s s' :=
    Reach.refl.of_run es (fun _ _ _ => trivial) h
  exact hreach.invariant hs fun _ _ _ hs _ h => hs.step hcall h

/-- A bound on what a thread may still do. -/
def rank (B : Nat) (th : Thread) : Nat := if th.running then B + 1 - th.executed.length else 0

theorem rank_call (hrunning : th.running = true) {chunk : Nat} (hold : th.executed.length ≤ B)
    (hB : (plugin.call T t chunk th).executed.length ≤ B) :
    rank B (plugin.call T t chunk th) < rank B th := by
  obtain ⟨data, item, hcall⟩ := exists_resume plugin T t chunk th
  rw [hcall] at hB ⊢
  cases hitem : item.execute with
  | true =>
    rw [Thread.resume_of_execute hitem] at hB ⊢
    simp only [rank, hrunning, if_true, List.length_append, List.length_singleton] at hB ⊢
    omega
  | false =>
    rw [Thread.resume_of_not_execute hitem]
    simp only [rank, hrunning, if_true, Bool.false_eq_true, if_false]
    omega

/-- While no thread executes more than `B` items, the team comes to an end. -/
theorem exists_end {I : Team → Prop} (hstep : ∀ s i s', I s → plugin.step s i = some s' → I s')
    (hB : ∀ s, I s → ∀ th ∈ s.threads, th.executed.length ≤ B) (hs : I s) :
    ∃ es s', Lib.run plugin.step s es = some s' ∧ I s' ∧ ∀ th ∈ s'.threads, th.running = false := by
  induction hn : (s.threads.map (rank B)).sum using Nat.strong_induction_on generalizing s with
  | _ n ih =>
    by_cases hall : ∀ th ∈ s.threads, th.running = false
    · exact ⟨[], s, rfl, hs, hall⟩
    push Not at hall
    obtain ⟨th, hmem, hrunning⟩ := hall
    rw [ne_eq, Bool.not_eq_false] at hrunning
    obtain ⟨i, hi⟩ := List.getElem?_of_mem hmem
    have hsome : plugin.step s i = some ⟨plugin.draw s.currentChunk,
        s.threads.set i (plugin.call s.threads.length i s.currentChunk th)⟩ := by
      simp only [step, hi, hrunning, if_true]
    have hI := hstep s i _ hs hsome
    obtain ⟨rest, hperm, hperm'⟩ := Ticket.exists_perm_cons_set hi
      (plugin.call s.threads.length i s.currentChunk th)
    have hnew := hB _ hI _ (hperm'.symm.subset List.mem_cons_self)
    have hlt := rank_call hrunning (hB s hs th hmem) hnew
    obtain ⟨es, s', hrun, hend⟩ := ih _ (by
      rw [← hn, (hperm.map _).sum_eq, (hperm'.map _).sum_eq, List.map_cons, List.map_cons, List.sum_cons,
        List.sum_cons]
      omega) hI rfl
    exact ⟨i :: es, s', by rw [Lib.run, hsome, Option.bind_some, hrun], hend⟩

end Plugin

end

/-! ## The items each thread executes -/

section
variable {info : WsInfoLoop} {th : Thread} {T t c chunk : Nat}

/-- What a thread of the static plugin has done, one item for each thread. -/
structure Shared (info : WsInfoLoop) (T t : Nat) (th : Thread) : Prop where
  copies : th.CopiesFlagged
  executed : th.running = true ∧ th.data = StaticWs.create info ∧ th.executed = [] ∨
    (th.running = true → th.data =
      { StaticWs.create info with lowerBound := info.upper_bound + info.loop_step }) ∧
    th.executed = if 0 < StaticWs.shareSize info T t then
      [StaticWs.itemOn info (StaticWs.shareStart info T t) (StaticWs.shareSize info T t)] else []

/-- What a thread of the static plugin has done, the chunks in turns. -/
structure Interleaved (info : WsInfoLoop) (T c t : Nat) (th : Thread) : Prop where
  copies : th.CopiesFlagged
  executed : ∃ j, th.executed = (List.range j).map (fun i => StaticWs.itemOn info ((i * T + t) * c) c) ∧
    (∀ i < j, (i * T + t) * c < StaticWs.trips info) ∧
    (th.running = true → th.data = StaticWs.movedTo info (j * T * c)) ∧
    (th.running = false → StaticWs.trips info ≤ (j * T + t) * c)

/-- What a thread of the static plugin has done when the chunk size is negative. -/
structure Idle (info : WsInfoLoop) (th : Thread) : Prop where
  copies : th.CopiesFlagged
  executed : th.executed = []
  data : th.running = true → th.data = StaticWs.create info

theorem Thread.CopiesFlagged.call (plugin : Plugin) (h : th.CopiesFlagged) :
    (plugin.call T t chunk th).CopiesFlagged := by
  obtain ⟨data, item, hcall⟩ := plugin.exists_resume T t chunk th
  rw [hcall]
  exact h.resume

section
variable (hstep : info.loop_step ≠ 0) (hpos : 0 < StaticWs.trips info)
include hstep hpos

theorem Shared.call (hchunk : info.chunk_size = 0) (ht : t < T) (hrunning : th.running = true)
    (h : Shared info T t th) : Shared info T t (Plugin.static.call T t chunk th) := by
  refine ⟨h.copies.call _, .inr ?_⟩
  simp only [Plugin.call]
  rcases h.executed with ⟨-, hdata, hnone⟩ | ⟨hdata, hall⟩
  · rw [hdata, StaticWs.nextItem_start hstep hpos, if_pos hchunk]
    obtain ⟨hmoved, hsome, hzero⟩ := StaticWs.distribute_eq hstep hpos (by omega : 0 < T) ht
    split
    · next hsize =>
      rw [hsome hsize, Thread.resume_of_execute rfl]
      exact ⟨fun _ => hmoved, by rw [hnone, List.nil_append]⟩
    · next hsize =>
      rw [Thread.resume_of_not_execute (hzero (by omega))]
      exact ⟨fun hrun => (by cases hrun), hnone⟩
  · -- the second call
    have hout : ¬ th.data.lowerBound * info.loop_step ≤ th.data.upperBound * info.loop_step := by
      rw [hdata hrunning]
      have hsquare : 0 < info.loop_step * info.loop_step := mul_self_pos.2 hstep
      show ¬ (info.upper_bound + info.loop_step) * info.loop_step ≤ info.upper_bound * info.loop_step
      rw [add_mul]
      omega
    have hexec := StaticWs.nextItem_behind (T := T) (t := t) hstep th.item
      (by rw [hdata hrunning]; rfl) hout
    rw [Thread.resume_of_not_execute hexec]
    exact ⟨fun hrun => (by cases hrun), hall⟩

omit hpos in
theorem Interleaved.call (hchunk : info.chunk_size = c) (hc : 0 < c) (hrunning : th.running = true)
    (h : Interleaved info T c t th) : Interleaved info T c t (Plugin.static.call T t chunk th) := by
  refine ⟨h.copies.call _, ?_⟩
  obtain ⟨j, hexecuted, hin, hdata, -⟩ := h.executed
  obtain ⟨hnext, hlast⟩ := StaticWs.nextItem_chunk (T := T) (t := t) hstep th.item hchunk hc
    (j * T * c)
  have hturn : j * T * c + t * c = (j * T + t) * c := by ring
  rw [hturn] at hnext hlast
  simp only [Plugin.call]
  rw [hdata hrunning]
  rcases Nat.lt_or_ge ((j * T + t) * c) (StaticWs.trips info) with hlt | hge
  · rw [hnext hlt, Thread.resume_of_execute rfl]
    refine ⟨j + 1, ?_, fun i hi => ?_, fun _ => ?_, fun hstop => ?_⟩
    · simp only [hexecuted, List.range_succ, List.map_append, List.map_cons, List.map_nil]
    · rcases Nat.lt_succ_iff_lt_or_eq.1 hi with hi | rfl
      · exact hin i hi
      · exact hlt
    · have hmove : (j + 1) * T * c = j * T * c + T * c := by ring
      rw [hmove]
    · exact absurd hstop (by simp [hrunning])
  · rw [Thread.resume_of_not_execute (hlast hge)]
    exact ⟨j, hexecuted, hin, fun hrun => (by cases hrun), fun _ => hge⟩

omit hstep hpos in
theorem Interleaved.start {item : LoopItem} :
    Interleaved info T c t { data := StaticWs.create info, item } := by
  refine ⟨rfl, 0, rfl, fun i hi => absurd hi (Nat.not_lt_zero i), fun _ => ?_, fun hstop => ?_⟩
  · simp [StaticWs.movedTo, StaticWs.create]
  · cases hstop

omit hstep hpos in
/-- The items of a thread start at different iterations. -/
theorem Interleaved.length_executed (hT : 1 ≤ T) (hc : 0 < c) (h : Interleaved info T c t th) :
    th.executed.length ≤ StaticWs.trips info := by
  obtain ⟨j, hexecuted, hin, -⟩ := h.executed
  rw [hexecuted, List.length_map, List.length_range]
  by_contra hlong
  have hlt := hin (StaticWs.trips info) (not_le.1 hlong)
  have hle : StaticWs.trips info * 1 ≤ (StaticWs.trips info * T + t) * c :=
    Nat.mul_le_mul (le_trans (Nat.le_mul_of_pos_right _ hT) (Nat.le_add_right _ _)) hc
  omega

omit hstep hpos in
/-- A call that returns no item ends an idle thread. -/
theorem Idle.call_of_not_execute (hexec : (StaticWs.nextItem T t th.data th.item).2.execute = false)
    (h : Idle info th) : Idle info (Plugin.static.call T t chunk th) := by
  have hcall : Plugin.static.call T t chunk th = { th with
      data := (StaticWs.nextItem T t th.data th.item).1
      item := (StaticWs.nextItem T t th.data th.item).2
      running := false } := Thread.resume_of_not_execute hexec
  rw [hcall]
  exact ⟨h.copies, h.executed, fun hrun => by cases hrun⟩

theorem Idle.call (hchunk : info.chunk_size < 0) (hrunning : th.running = true) (h : Idle info th) :
    Idle info (Plugin.static.call T t chunk th) := by
  refine h.call_of_not_execute ?_
  rw [h.data hrunning, StaticWs.nextItem_start hstep hpos, if_neg (by omega)]
  exact StaticWs.interleave_neg hstep hpos hchunk

end

end

/-! ## Which item has the flag -/

section
variable {α β : Type*}

/-- One place of a range is picked out. -/
theorem filter_map_range {g : Nat → α} {p : α → Bool} {n a : Nat} (ha : a < n)
    (h : ∀ i < n, p (g i) = true ↔ i = a) : ((List.range n).map g).filter p = [g a] := by
  have hcongr : (List.range n).filter (p ∘ g) = (List.range n).filter (· == a) := by
    refine List.filter_congr fun i hi => ?_
    rw [Function.comp_apply, Bool.eq_iff_iff, h i (List.mem_range.1 hi), beq_iff_eq]
  rw [List.filter_map, hcongr, List.filter_beq,
    List.count_eq_one_of_mem List.nodup_range (List.mem_range.2 ha)]
  rfl

theorem flatMap_range_single {f : Nat → List α} {x : α} {n a : Nat} (ha : a < n)
    (h : ∀ t < n, f t = if t = a then [x] else []) : (List.range n).flatMap f = [x] := by
  obtain ⟨m, rfl⟩ := Nat.exists_eq_add_of_lt ha
  have hbefore : (List.range a).flatMap f = [] := by
    refine List.flatMap_eq_nil_iff.2 fun t ht => ?_
    have := List.mem_range.1 ht
    rw [h t (by omega), if_neg (by omega)]
  have hbehind : ((List.range m).map fun t => a + 1 + t).flatMap f = [] := by
    refine List.flatMap_eq_nil_iff.2 fun t ht => ?_
    obtain ⟨k, hk, rfl⟩ := List.mem_map.1 ht
    have := List.mem_range.1 hk
    rw [h _ (by omega), if_neg (by omega)]
  rw [show a + m + 1 = a + 1 + m by omega, List.range_add, List.flatMap_append, hbehind, List.append_nil,
    List.range_succ, List.flatMap_append, hbefore, List.nil_append, List.flatMap_singleton, h a ha,
    if_pos rfl]

end

section
variable {info : WsInfoLoop} {s : Team} {T c : Nat}

/-- What the threads executed, by their numbers. -/
theorem Plugin.Threads.flatMap_eq {α : Type*} {P : Nat → Thread → Prop} {f : Thread → List α}
    {g : Nat → List α} (h : Plugin.Threads T P s) (hf : ∀ t < T, ∀ th, P t th → th ∈ s.threads → f th = g t) :
    s.threads.flatMap f = (List.range T).flatMap g := by
  have hmap : s.threads.map f = (List.range T).map g := by
    refine List.ext_getElem (by rw [List.length_map, List.length_map, List.length_range, h.length]) ?_
    intro t ht ht'
    rw [List.length_map] at ht
    rw [List.getElem_map, List.getElem_map, List.getElem_range]
    exact hf t (h.length ▸ ht) _ (h.each t _ (List.getElem?_eq_getElem ht)) (List.getElem_mem ht)
  rw [List.flatMap_def, hmap, ← List.flatMap_def]

/-- The last thread that gets an iteration when each thread gets one item. -/
theorem StaticWs.share_ends_iff {t : Nat} (hpos : 0 < StaticWs.trips info) (ht : t < T) :
    (0 < StaticWs.shareSize info T t ∧
      StaticWs.shareStart info T t + StaticWs.shareSize info T t = StaticWs.trips info) ↔
        t = min T (StaticWs.trips info) - 1 := by
  rcases Nat.lt_or_ge (StaticWs.trips info) T with hfew | hmany
  · simp only [StaticWs.shareStart, StaticWs.shareSize, Nat.div_eq_of_lt hfew, Nat.mod_eq_of_lt hfew]
    split <;> omega
  · have hone : 1 ≤ StaticWs.trips info / T := (Nat.one_le_div_iff (by omega)).2 hmany
    have hsize : 1 ≤ StaticWs.shareSize info T (t + 1) := le_trans hone (Nat.le_add_right _ _)
    rw [min_eq_left hmany, ← StaticWs.shareStart_succ]
    constructor
    · rintro ⟨-, heq⟩
      by_contra hne
      have hmono := StaticWs.shareStart_mono info T (show t + 1 + 1 ≤ T by omega)
      rw [StaticWs.shareStart_succ, StaticWs.shareStart_team info (by omega), heq] at hmono
      omega
    · rintro rfl
      rw [Nat.sub_add_cancel (by omega), StaticWs.shareStart_team info (by omega)]
      exact ⟨lt_of_lt_of_le hone (Nat.le_add_right _ _), rfl⟩

theorem filter_flatMap_executed (s : Team) :
    (s.threads.flatMap (·.executed)).filter (·.last) =
      s.threads.flatMap fun th => th.executed.filter (·.last) := by
  rw [List.flatMap_def, List.filter_flatten, List.map_map, List.flatMap_def]
  rfl

section
variable (hstep : info.loop_step ≠ 0) (hpos : 0 < StaticWs.trips info)
include hstep hpos

/-- The flag in the interleaved distribution. -/
theorem last_chunk_iff {q : Nat} (hc : 0 < c) (hq : q * c < StaticWs.trips info) :
    (StaticWs.itemOn info (q * c) c).last = true ↔ q = (StaticWs.trips info - 1) / c ∧
      (info.loop_step ∣ info.upper_bound - info.lower_bound ∨ ¬ c ∣ StaticWs.trips info) := by
  rw [StaticWs.last_itemOn hstep hpos _ hc]
  have hfinal : q = (StaticWs.trips info - 1) / c ↔ StaticWs.trips info ≤ q * c + c := by
    rw [eq_comm, Nat.div_eq_iff hc]
    have : q * c + c = (q + 1) * c := (Nat.succ_mul q c).symm
    omega
  have hdvd : StaticWs.trips info ≤ q * c + c →
      (q * c + c = StaticWs.trips info ↔ c ∣ StaticWs.trips info) := by
    intro hle
    constructor
    · intro heq
      exact ⟨q + 1, by rw [← heq]; ring⟩
    · rintro ⟨m, hm⟩
      have hlt : q < m := by
        rw [hm, Nat.mul_comm c] at hq
        exact Nat.lt_of_mul_lt_mul_right hq
      have hmul := Nat.mul_le_mul_right c (Nat.succ_le_of_lt hlt)
      rw [Nat.succ_mul] at hmul
      rw [hm, Nat.mul_comm c] at hle ⊢
      omega
  rw [hfinal]
  constructor
  · rintro (hlt | ⟨heq, hstepdvd⟩)
    · exact ⟨hlt.le, .inr fun hd => absurd ((hdvd hlt.le).2 hd) (by omega)⟩
    · exact ⟨heq.ge, .inl hstepdvd⟩
  · rintro ⟨hle, hstepdvd | hnot⟩
    · rcases Nat.eq_or_lt_of_le hle with heq | hlt
      · exact .inr ⟨heq.symm, hstepdvd⟩
      · exact .inl hlt
    · exact .inl (lt_of_le_of_ne hle fun heq => hnot ((hdvd hle).1 heq.symm))

/-- A thread that has stopped, in the interleaved distribution: the thread of the last chunk has the
flag. -/
theorem Interleaved.filter_last {t : Nat} {th : Thread} (hc : 0 < c) (ht : t < T)
    (h : Interleaved info T c t th) (hstop : th.running = false) :
    th.executed.filter (·.last) =
      if t = (StaticWs.trips info - 1) / c % T ∧
        (info.loop_step ∣ info.upper_bound - info.lower_bound ∨ ¬ c ∣ StaticWs.trips info) then
        [StaticWs.itemOn info ((StaticWs.trips info - 1) / c * c) c] else [] := by
  obtain ⟨j, hexecuted, hin, -, hend⟩ := h.executed
  have hflag : ∀ i < j, (StaticWs.itemOn info ((i * T + t) * c) c).last = true ↔
      i * T + t = (StaticWs.trips info - 1) / c ∧
        (info.loop_step ∣ info.upper_bound - info.lower_bound ∨ ¬ c ∣ StaticWs.trips info) :=
    fun i hi => last_chunk_iff hstep hpos hc (hin i hi)
  set Q := (StaticWs.trips info - 1) / c with hQ
  have hdivmod : ∀ i, i * T + t = Q → i = Q / T ∧ t = Q % T := by
    intro i hi
    rw [← hi, Nat.add_comm, Nat.add_mul_div_right _ _ (by omega), Nat.add_mul_mod_self_right,
      Nat.div_eq_of_lt ht, Nat.mod_eq_of_lt ht]
    exact ⟨(Nat.zero_add i).symm, rfl⟩
  rw [hexecuted]
  split
  · next hcond =>
    obtain ⟨htQ, hreach⟩ := hcond
    have hback : Q / T * T + t = Q := by rw [htQ]; exact Nat.div_add_mod' Q T
    have hlt : Q / T < j := by
      have hge := hend hstop
      have hQlt : Q * c < StaticWs.trips info := by
        have := Nat.div_mul_le_self (StaticWs.trips info - 1) c
        rw [← hQ] at this
        omega
      have := Nat.lt_of_mul_lt_mul_right (lt_of_lt_of_le hQlt hge)
      rw [← hback] at this
      exact Nat.lt_of_mul_lt_mul_right (Nat.lt_of_add_lt_add_right this)
    rw [filter_map_range (a := Q / T) hlt fun i hi => ?_, hback]
    rw [hflag i hi]
    constructor
    · rintro ⟨heq, -⟩
      exact (hdivmod i heq).1
    · rintro rfl
      exact ⟨hback, hreach⟩
  · next hcond =>
    refine List.filter_eq_nil_iff.2 fun item hitem hlast => hcond ?_
    obtain ⟨i, hi, rfl⟩ := List.mem_map.1 hitem
    obtain ⟨heq, hreach⟩ := (hflag i (List.mem_range.1 hi)).1 hlast
    exact ⟨(hdivmod i heq).2, hreach⟩

/-- A thread that has stopped, one item for each thread: the last thread that gets an iteration has the
flag. -/
theorem Shared.filter_last {t : Nat} {th : Thread} (ht : t < T) (h : Shared info T t th)
    (hstop : th.running = false) :
    th.executed.filter (·.last) =
      if t = min T (StaticWs.trips info) - 1 ∧ info.loop_step ∣ info.upper_bound - info.lower_bound then
        [StaticWs.itemOn info (StaticWs.shareStart info T t) (StaticWs.shareSize info T t)] else [] := by
  have hend : StaticWs.shareStart info T t + StaticWs.shareSize info T t ≤ StaticWs.trips info := by
    rw [← StaticWs.shareStart_succ, ← StaticWs.shareStart_team info (by omega : 0 < T)]
    exact StaticWs.shareStart_mono info T ht
  have hexecuted : th.executed = if 0 < StaticWs.shareSize info T t then
      [StaticWs.itemOn info (StaticWs.shareStart info T t) (StaticWs.shareSize info T t)] else [] := by
    rcases h.executed with ⟨hrunning, -⟩ | ⟨-, hexecuted⟩
    · rw [hstop] at hrunning
      cases hrunning
    · exact hexecuted
  have hlast := StaticWs.share_ends_iff hpos ht
  rw [hexecuted]
  by_cases hsize : 0 < StaticWs.shareSize info T t
  · have hflag := StaticWs.last_itemOn hstep hpos (StaticWs.shareStart info T t) hsize
    rw [if_pos hsize]
    by_cases hcond : t = min T (StaticWs.trips info) - 1 ∧
        info.loop_step ∣ info.upper_bound - info.lower_bound
    · rw [if_pos hcond, List.filter_cons_of_pos, List.filter_nil]
      exact hflag.2 (.inr ⟨(hlast.2 hcond.1).2, hcond.2⟩)
    · rw [if_neg hcond, List.filter_cons_of_neg, List.filter_nil]
      rw [hflag]
      rintro (hlt | ⟨heq, hdvd⟩)
      · omega
      · exact hcond ⟨hlast.1 ⟨hsize, heq⟩, hdvd⟩
  · rw [if_neg hsize, List.filter_nil, if_neg]
    rintro ⟨heq, -⟩
    exact hsize (hlast.2 heq).1

end

end

section
variable {info : WsInfoLoop} {T B : Nat}

theorem Plugin.copiedOut_eq {P : Nat → Thread → Prop} {s : Team} (h : Plugin.Threads T P s)
    (hcopies : ∀ t th, P t th → th.CopiesFlagged) :
    s.threads.flatMap (·.copiedOut) = (s.threads.flatMap (·.executed)).filter (·.last) := by
  rw [filter_flatMap_executed]
  refine List.flatMap_congr fun th hth => ?_
  obtain ⟨t, ht⟩ := List.getElem?_of_mem hth
  exact hcopies t th (h.each t th ht)

/-- The flag is right when exactly one thread of those that have stopped has a flagged item, and it has
the final iteration. -/
theorem Plugin.flagsLast_static_iff {P : Nat → Thread → Prop} {cond : Prop} [Decidable cond] {a : Nat}
    {x : LoopItem}
    (hcall : ∀ t th chunk, t < T → th.running = true → P t th → P t (Plugin.static.call T t chunk th))
    (hstart : ∀ t item, P t { data := StaticWs.create info, item })
    (hB : ∀ t th, P t th → th.executed.length ≤ B) (hcopies : ∀ t th, P t th → th.CopiesFlagged)
    (ha : a < T)
    (hfilter : ∀ t < T, ∀ th, P t th → th.running = false →
      th.executed.filter (·.last) = if t = a ∧ cond then [x] else [])
    (hpos : 0 < StaticWs.trips info)
    (hfinal : cond → info.lower_bound + (StaticWs.trips info - 1 : Nat) * info.loop_step ∈
      x.values info.loop_step) :
    Plugin.static.FlagsLast info T ↔ cond := by
  have hflags : ∀ s, Plugin.Threads T P s → (∀ th ∈ s.threads, th.running = false) →
      (s.threads.flatMap (·.executed)).filter (·.last) =
        (List.range T).flatMap fun t => if t = a ∧ cond then [x] else [] := by
    intro s hs hstop
    rw [filter_flatMap_executed]
    exact hs.flatMap_eq fun t ht th hP hmem => hfilter t ht th hP (hstop th hmem)
  constructor
  · intro hall
    by_contra hnot
    have hs : Threads T P (start (StaticWs.create info) (List.replicate T ⟨0, 0, false, false⟩)) :=
      threads_start List.length_replicate hstart
    have hstep : ∀ s i s', Threads T P s → Plugin.static.step s i = some s' → Threads T P s' :=
      fun _ _ _ hs h => hs.step hcall h
    have hbound : ∀ s, Threads T P s → ∀ th ∈ s.threads, th.executed.length ≤ B := by
      intro s hs th hth
      obtain ⟨t, ht⟩ := List.getElem?_of_mem hth
      exact hB t th (hs.each t th ht)
    obtain ⟨es, s, hrun, hs', hstop⟩ := exists_end hstep hbound hs
    obtain ⟨item, v, -, hitem, -⟩ := hall _ rfl _ List.length_replicate es s hrun hstop
    rw [hflags s hs' hstop, List.flatMap_eq_nil_iff.2 fun t _ => if_neg fun h => hnot h.2] at hitem
    cases hitem
  · intro hcond data hdata memory hlen es s hrun hstop
    obtain rfl : StaticWs.create info = data := Option.some.inj hdata
    have hs : Threads T P s := (threads_start hlen hstart).run hcall hrun
    have hone : (s.threads.flatMap (·.executed)).filter (·.last) = [x] := by
      rw [hflags s hs hstop]
      exact flatMap_range_single ha fun t _ => if_congr (and_iff_left hcond) rfl rfl
    refine ⟨x, info.lower_bound + (StaticWs.trips info - 1 : Nat) * info.loop_step, ?_, hone,
      hfinal hcond, ?_⟩
    · rw [iterations, List.getLast?_map, List.getLast?_range,
        if_neg (by show ¬ StaticWs.trips info = 0; omega)]
      rfl
    · rw [Plugin.copiedOut_eq hs hcopies, hone]

end

/-! ## The plugins that never write the flag -/

section
variable {plugin : Plugin} {info : WsInfoLoop} {data : WorkSharingLoopInfo} {T : Nat}

@[simp] theorem LoopItem.write_none (item : LoopItem) : (item.write none).execute = false := rfl

@[simp] theorem LoopItem.write_last (item : LoopItem) (bounds : Option WsItemLoop) :
    (item.write bounds).last = item.last := by
  cases bounds <;> rfl

/-- The plugin writes an item's bounds for the chunks of the loop, and never the flag. -/
structure Plugin.Unwritten (plugin : Plugin) (data : WorkSharingLoopInfo) : Prop where
  call : ∀ T t chunk th, th.data = data → ∃ bounds : Option WsItemLoop,
    plugin.call T t chunk th = th.resume data (th.item.write bounds) ∧
      (bounds ≠ none → (chunk : Int) < data.numOfChunks)
  draw : ∀ chunk, plugin.draw chunk = chunk + 1

/-- A thread whose memory never held the flag, when `chunk` chunks are drawn. -/
structure Unflagged (data : WorkSharingLoopInfo) (chunk : Nat) (th : Thread) : Prop where
  descriptor : th.data = data
  last : th.item.last = false
  executed : ∀ item ∈ th.executed, item.last = false
  length : th.executed.length ≤ min chunk data.numOfChunks.toNat

theorem Unflagged.mono {chunk : Nat} {th : Thread} (h : Unflagged data chunk th) :
    Unflagged data (chunk + 1) th :=
  ⟨h.descriptor, h.last, h.executed, h.length.trans (min_le_min_right _ (Nat.le_succ _))⟩

theorem Unflagged.call {chunk t : Nat} {th : Thread} (hplugin : plugin.Unwritten data)
    (h : Unflagged data chunk th) : Unflagged data (chunk + 1) (plugin.call T t chunk th) := by
  obtain ⟨bounds, hcall, hchunk⟩ := hplugin.call T t chunk th h.descriptor
  have hlast : (th.item.write bounds).last = false := (th.item.write_last bounds).trans h.last
  rw [hcall]
  cases bounds with
  | none =>
    rw [Thread.resume_of_not_execute (th.item.write_none)]
    exact ⟨rfl, hlast, h.executed, h.mono.length⟩
  | some b =>
    rw [Thread.resume_of_execute rfl]
    refine ⟨rfl, hlast, fun item hitem => ?_, ?_⟩
    · rcases List.mem_append.1 hitem with hold | hnew
      · exact h.executed item hold
      · rw [List.mem_singleton.1 hnew, hlast]
    · have hin := hchunk (by simp)
      have hold := h.length
      simp only [List.length_append, List.length_singleton]
      omega

/-- Some run hands out no flagged item: one in which the memory of no thread holds the flag. -/
theorem Plugin.Unwritten.not_flagsLast (hplugin : plugin.Unwritten data)
    (hcreate : plugin.create info T = some data) : ¬ plugin.FlagsLast info T := by
  intro hall
  have hinit : ∀ th ∈ (start data (List.replicate T ⟨0, 0, false, false⟩)).threads,
      Unflagged data (start data (List.replicate T ⟨0, 0, false, false⟩)).currentChunk th := by
    intro th hth
    obtain ⟨item, hitem, rfl⟩ := List.mem_map.1 hth
    refine ⟨rfl, ?_, fun item' h => (List.not_mem_nil h).elim, Nat.zero_le _⟩
    rw [(List.mem_replicate.1 hitem).2]
  have hstep : ∀ (s : Team) (i : Nat) (s' : Team), (∀ th ∈ s.threads, Unflagged data s.currentChunk th) →
      plugin.step s i = some s' → ∀ th ∈ s'.threads, Unflagged data s'.currentChunk th := by
    intro s i s' hs h th' hth'
    obtain ⟨th, hth, -, hchunk, hthreads⟩ := step_cases h
    rw [hchunk, hplugin.draw]
    rw [hthreads] at hth'
    rcases List.mem_or_eq_of_mem_set hth' with hold | rfl
    · exact (hs th' hold).mono
    · exact (hs th (List.mem_of_getElem? hth)).call hplugin
  have hbound : ∀ s : Team, (∀ th ∈ s.threads, Unflagged data s.currentChunk th) →
      ∀ th ∈ s.threads, th.executed.length ≤ data.numOfChunks.toNat :=
    fun s hs th hth => (hs th hth).length.trans (min_le_right _ _)
  obtain ⟨es, s, hrun, hs, hstop⟩ := exists_end hstep hbound hinit
  obtain ⟨item, v, -, hitem, -⟩ := hall data hcreate _ List.length_replicate es s hrun hstop
  have hnone : (s.threads.flatMap (·.executed)).filter (·.last) = [] := by
    refine List.filter_eq_nil_iff.2 fun item hitem hlast => ?_
    obtain ⟨th, hth, hexecuted⟩ := List.mem_flatMap.1 hitem
    rw [(hs th hth).executed item hexecuted] at hlast
    cases hlast
  rw [hnone] at hitem
  cases hitem

theorem Plugin.unwritten_dynamic (data : WorkSharingLoopInfo) : Plugin.dynamic.Unwritten data where
  call T t chunk th hdata := by
    refine ⟨DynamicFor.nextItem data chunk, by rw [Plugin.call, hdata], fun hsome => ?_⟩
    by_contra hge
    exact hsome (if_pos (not_lt.1 hge))
  draw _ := rfl

theorem Plugin.unwritten_guided (data : WorkSharingLoopInfo) : Plugin.guided.Unwritten data where
  call T t chunk th hdata := by
    refine ⟨GuidedFor.nextItem data chunk, by rw [Plugin.call, hdata], fun hsome => ?_⟩
    by_contra hge
    exact hsome (if_pos (not_lt.1 hge))
  draw _ := rfl

/-- The guided plugin has a descriptor for every team. -/
theorem GuidedFor.exists_create (info : WsInfoLoop) (hT : 1 ≤ T) :
    ∃ data, GuidedFor.create info T = some data := by
  have hchunk : 1 ≤ (GuidedFor.initial info T).chunkSize := le_max_right _ _
  obtain ⟨N, hcount, -⟩ := GuidedFor.countChunks_eq hchunk
    (GuidedFor.previous (GuidedFor.initial info T) 0).1.toNat 0 (Int.self_le_toNat _)
  have hdivisor : ¬ (T : Int) * GuidedFor.GUIDED_FACTOR = 0 := by
    unfold GuidedFor.GUIDED_FACTOR
    omega
  refine ⟨{ GuidedFor.initial info T with numOfChunks := N }, ?_⟩
  rw [GuidedFor.create]
  simp only [if_neg hdivisor]
  rw [Option.map_eq_some_iff]
  exact ⟨N, hcount, rfl⟩

end

/-! ## The loops whose last item is flagged -/

section
variable {info : WsInfoLoop} {T : Nat}

section
variable (hstep : info.loop_step ≠ 0) (hpos : 0 < StaticWs.trips info) (hT : 1 ≤ T)
include hstep hpos hT

theorem flagsLast_negative (hchunk : info.chunk_size < 0) : ¬ Plugin.static.FlagsLast info T := by
  refine (Plugin.flagsLast_static_iff (P := fun _ th => Idle info th) (B := 0) (a := 0)
    (x := ⟨0, 0, false, false⟩) (fun t th chunk _ hrunning h => h.call hstep hpos hchunk hrunning)
    (fun t item => ⟨rfl, rfl, fun _ => rfl⟩) (fun t th h => by rw [h.executed]; exact le_refl _)
    (fun t th h => h.copies) hT (fun t _ th h _ => ?_) hpos False.elim).not.2 id
  rw [h.executed, if_neg fun hcond => hcond.2]
  rfl

theorem flagsLast_shared (hchunk : info.chunk_size = 0) :
    Plugin.static.FlagsLast info T ↔ info.loop_step ∣ info.upper_bound - info.lower_bound := by
  have ha : min T (StaticWs.trips info) - 1 < T := by omega
  obtain ⟨hsize, hend⟩ := (StaticWs.share_ends_iff hpos ha).2 rfl
  refine Plugin.flagsLast_static_iff (P := Shared info T) (B := 1) (a := min T (StaticWs.trips info) - 1)
    (x := StaticWs.itemOn info (StaticWs.shareStart info T (min T (StaticWs.trips info) - 1))
      (StaticWs.shareSize info T (min T (StaticWs.trips info) - 1)))
    (fun t th chunk ht hrunning h => h.call hstep hpos hchunk ht hrunning)
    (fun t item => ⟨rfl, .inl ⟨rfl, rfl, rfl⟩⟩) (fun t th h => ?_) (fun t th h => h.copies) ha
    (fun t ht th h hstop => ?_) hpos fun hdvd => ?_
  · rcases h.executed with ⟨-, -, hnone⟩ | ⟨-, hexecuted⟩
    · rw [hnone]
      exact Nat.zero_le _
    · rw [hexecuted]
      split
      · exact le_refl _
      · exact Nat.zero_le _
  · rw [h.filter_last hstep hpos ht hstop]
    split
    · next hcond => rw [hcond.1]
    · rfl
  · refine StaticWs.final_mem_values hstep hpos (by omega) ?_
    exact (StaticWs.last_itemOn hstep hpos _ hsize).2 (.inr ⟨hend, hdvd⟩)

theorem flagsLast_interleaved {c : Nat} (hchunk : info.chunk_size = c) (hc : 0 < c) :
    Plugin.static.FlagsLast info T ↔
      (info.loop_step ∣ info.upper_bound - info.lower_bound ∨ ¬ c ∣ StaticWs.trips info) := by
  have hstart : (StaticWs.trips info - 1) / c * c < StaticWs.trips info := by
    have := Nat.div_mul_le_self (StaticWs.trips info - 1) c
    omega
  refine Plugin.flagsLast_static_iff (P := Interleaved info T c) (B := StaticWs.trips info)
    (a := (StaticWs.trips info - 1) / c % T) (x := StaticWs.itemOn info ((StaticWs.trips info - 1) / c * c) c)
    (fun t th chunk _ hrunning h => h.call hstep hchunk hc hrunning)
    (fun t item => Interleaved.start) (fun t th h => h.length_executed hT hc) (fun t th h => h.copies)
    (Nat.mod_lt _ hT)
    (fun t ht th h hstop => h.filter_last hstep hpos hc ht hstop) hpos fun hreach => ?_
  exact StaticWs.final_mem_values hstep hpos hstart
    ((last_chunk_iff hstep hpos hc hstart).2 ⟨rfl, hreach⟩)

theorem flagsLast_static : Plugin.static.FlagsLast info T ↔ Plugin.static.ReachesLast info := by
  simp only [Plugin.ReachesLast]
  rcases lt_trichotomy info.chunk_size 0 with hneg | hzero | hpositive
  · exact iff_of_false (flagsLast_negative hstep hpos hT hneg) fun h => absurd h.1 (not_le.2 hneg)
  · rw [flagsLast_shared hstep hpos hT hzero, hzero]
    simp
  · obtain ⟨c, hc⟩ := Int.eq_ofNat_of_zero_le hpositive.le
    rw [flagsLast_interleaved hstep hpos hT hc (by omega), hc, Int.natCast_dvd_natCast]
    simp only [Int.natCast_nonneg, true_and, show (0 : Int) < c by omega]
    rfl

end

/-- **The flag of the last item.** The plugin flags exactly the item with the final iteration, in every
interleaving of the threads' calls, if and only if it is the static one, the chunk size is not negative,
and the step reaches the upper bound or the last chunk is cut short. -/
theorem flagsLast_iff (plugin : Plugin) (info : WsInfoLoop) (threads : Nat) (hstep : info.loop_step ≠ 0)
    (hne : iterations info.lower_bound info.upper_bound info.loop_step ≠ []) (hthreads : 1 ≤ threads) :
    plugin.FlagsLast info threads ↔ plugin.ReachesLast info := by
  have hpos : 0 < StaticWs.trips info := by
    by_contra hzero
    refine hne ?_
    rw [iterations, show tripCount info.lower_bound info.upper_bound info.loop_step = 0 from
      Nat.eq_zero_of_not_pos hzero]
    rfl
  cases plugin with
  | static => exact flagsLast_static hstep hpos hthreads
  | dynamic =>
    exact iff_of_false ((Plugin.unwritten_dynamic _).not_flagsLast rfl) id
  | guided =>
    obtain ⟨data, hcreate⟩ := GuidedFor.exists_create info hthreads
    exact iff_of_false ((Plugin.unwritten_guided data).not_flagsLast hcreate) id

/-- Five iterations in chunks of two for two threads. -/
theorem static_flags_last : Plugin.static.FlagsLast ⟨0, 9, 2, 2⟩ 2 :=
  (flagsLast_iff .static ⟨0, 9, 2, 2⟩ 2 (by decide) (by decide) (by decide)).2 (by decide)

/-- The dynamic plugin on the same loop, and the static one on `0, 2` up to 3 in one chunk of two. -/
theorem not_flagsLast :
    ¬ Plugin.dynamic.FlagsLast ⟨0, 9, 2, 2⟩ 2 ∧ ¬ Plugin.static.FlagsLast ⟨0, 3, 2, 2⟩ 1 := by
  refine ⟨(Plugin.unwritten_dynamic _).not_flagsLast rfl, fun h => ?_⟩
  have hstatic := (@flagsLast_interleaved ⟨0, 3, 2, 2⟩ 1 (by decide) (by decide) (by decide) 2
    rfl (by decide)).1 h
  exact absurd hstatic (by decide)

end

end OmpSs.Loops
