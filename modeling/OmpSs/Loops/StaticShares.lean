import OmpSs.Loops.LastPrivate
import OmpSs.Loops.StaticFor

/-!
# The items of the static worksharing loop

The threads of a team call `nextItem` of `WorkSharingStaticFor`
(`nanox-mx/src/plugins/worksharing/static.cpp`) until they get an item that is not to be executed. Whatever
the order of the calls, they come to an end, and the items they execute have every iteration of the loop
once (`static_shares`): the blocks of the static distribution follow one another, and the turns of the
interleaved one deal out every chunk. Integers are exact.
-/

namespace OmpSs.Loops

open Lib

/-- A loop that the static plugin shares: whatever the variables of the threads held before it, a run of the
calls of `nextItem` ends after a bounded number of calls with all threads stopped, and then the items they
executed contain every iteration of the loop once and no other value. -/
structure StaticShares (info : WsInfoLoop) (threads : Nat) : Prop where
  ends : ∀ memory : List LoopItem, memory.length = threads → ∀ es s,
    run Plugin.static.step (Plugin.start (StaticWs.create info) memory) es = some s →
      es.length ≤ threads * (StaticWs.trips info + 1) ∧
        ((∀ th ∈ s.threads, th.running = false) ∨ ∃ i, (Plugin.static.step s i).isSome = true)
  once : ∀ memory : List LoopItem, memory.length = threads → ∀ es s,
    run Plugin.static.step (Plugin.start (StaticWs.create info) memory) es = some s →
      (∀ th ∈ s.threads, th.running = false) →
      ((s.threads.flatMap (·.executed)).flatMap (·.values info.loop_step)).Perm
        (iterations info.lower_bound info.upper_bound info.loop_step)

/-! ## Runs to the end -/

namespace Plugin

section
variable {plugin : Plugin} {s s' : Team} {T B : Nat} {P : Nat → Thread → Prop}

/-- A thread that has not stopped can make its next call. -/
theorem exists_step {th : Thread} (hth : th ∈ s.threads) (hrunning : th.running = true) :
    ∃ i, (plugin.step s i).isSome = true := by
  obtain ⟨i, hi⟩ := List.getElem?_of_mem hth
  exact ⟨i, by simp [step, hi, hrunning]⟩

/-- Each call takes one from what the threads may still do. -/
theorem Threads.run_length {es : List Nat}
    (hcall : ∀ t th chunk, t < T → th.running = true → P t th → P t (plugin.call T t chunk th))
    (hB : ∀ t th, P t th → th.executed.length ≤ B) (hs : Threads T P s)
    (h : Lib.run plugin.step s es = some s') : es.length ≤ (s.threads.map (rank B)).sum := by
  induction es generalizing s with
  | nil => exact Nat.zero_le _
  | cons i es ih =>
    obtain ⟨s₁, hstep, hrun⟩ := Option.bind_eq_some_iff.1 h
    have hs₁ := hs.step hcall hstep
    have hrest := ih hs₁ hrun
    obtain ⟨th, hth, hrunning, -, hthreads⟩ := step_cases hstep
    rw [hthreads] at hrest
    obtain ⟨rest, hperm, hperm'⟩ := Ticket.exists_perm_cons_set hth
      (plugin.call s.threads.length i s.currentChunk th)
    have hlt := (List.getElem?_eq_some_iff.1 hth).1
    have hnew : P i (plugin.call s.threads.length i s.currentChunk th) :=
      hs₁.each i _ (by rw [hthreads, List.getElem?_set_self hlt])
    have hless := rank_call hrunning (hB i th (hs.each i th hth)) (hB i _ hnew)
    rw [(hperm.map _).sum_eq, List.map_cons, List.sum_cons]
    rw [(hperm'.map _).sum_eq, List.map_cons, List.sum_cons] at hrest
    rw [List.length_cons]
    omega

end

/-- The plugin shares a loop when the thread `t` that has stopped has executed the iterations numbered
`work t`, and these are all numbers of the loop. -/
theorem staticShares {info : WsInfoLoop} {T : Nat} {P : Nat → Thread → Prop} {work : Nat → List Nat}
    (hcall : ∀ t th chunk, t < T → th.running = true → P t th → P t (Plugin.static.call T t chunk th))
    (hstart : ∀ t item, P t { data := StaticWs.create info, item })
    (hB : ∀ t th, P t th → th.executed.length ≤ StaticWs.trips info)
    (hexecuted : ∀ t < T, ∀ th, P t th → th.running = false →
      th.executed.flatMap (·.values info.loop_step) =
        (work t).map fun k : Nat => info.lower_bound + (k : Int) * info.loop_step)
    (hwork : ((List.range T).flatMap work).Perm (List.range (StaticWs.trips info))) :
    StaticShares info T where
  ends memory hlen es s hrun := by
    have hinit : Threads T P (start (StaticWs.create info) memory) := threads_start hlen hstart
    refine ⟨?_, ?_⟩
    · have hle := hinit.run_length hcall hB hrun
      have hsum : ((start (StaticWs.create info) memory).threads.map (rank (StaticWs.trips info))).sum =
          T * (StaticWs.trips info + 1) := by
        rw [start, List.map_map, ← hlen]
        simp [rank, Function.comp_def]
      omega
    · rw [or_iff_not_imp_left]
      intro hrunning
      push Not at hrunning
      obtain ⟨th, hth, hne⟩ := hrunning
      exact exists_step hth (by simpa using hne)
  once memory hlen es s hrun hstop := by
    have hs : Threads T P s := (threads_start hlen hstart).run hcall hrun
    rw [List.flatMap_assoc, hs.flatMap_eq fun t ht th hP hmem => hexecuted t ht th hP (hstop th hmem)]
    exact pieces_perm (List.range T) work hwork

end Plugin

/-! ## The three kinds of loops -/

section
variable {info : WsInfoLoop} {th : Thread} {T t c chunk : Nat}

/-- The values of an item. -/
theorem StaticWs.values_itemOn (hstep : info.loop_step ≠ 0) (start : Nat) {size : Nat} (hsize : 0 < size) :
    (StaticWs.itemOn info start size).values info.loop_step =
      (piece (StaticWs.trips info) (start, size)).map
        fun k : Nat => info.lower_bound + (k : Int) * info.loop_step := by
  have hvalues := values_checkBounds (StaticWs.create info) (i := start) hstep hsize
  have hlast : info.lower_bound + start * info.loop_step + size * info.loop_step - info.loop_step =
      info.lower_bound + (start + size - 1 : Nat) * info.loop_step := by
    have : ((start + size - 1 : Nat) : Int) = start + size - 1 := by omega
    rw [this]
    ring
  refine Eq.trans ?_ hvalues
  simp only [checkBounds, StaticWs.create, hlast, LoopItem.values, WsItemLoop.values, StaticWs.itemOn]
  -- the two clip alike but for an item that ends with the upper bound
  rcases lt_trichotomy ((info.lower_bound + (start + size - 1 : Nat) * info.loop_step) * info.loop_step)
    (info.upper_bound * info.loop_step) with hlt | heq | hgt
  · rw [if_neg (not_le.2 hlt), if_neg (not_lt.2 hlt.le)]
  · rw [if_pos heq.ge, if_neg (not_lt.2 heq.le), mul_right_cancel₀ hstep heq]
  · rw [if_pos hgt.le, if_pos hgt]

/-- On an empty loop the first call returns no item. -/
theorem Idle.call_empty (hstep : info.loop_step ≠ 0) (hzero : StaticWs.trips info = 0)
    (hrunning : th.running = true) (h : Idle info th) : Idle info (Plugin.static.call T t chunk th) := by
  have hout : ¬ th.data.lowerBound * info.loop_step ≤ th.data.upperBound * info.loop_step := by
    rw [h.data hrunning]
    intro hle
    have hpos := (iterate_le_iff (m := 0) hstep).1 (by simpa [StaticWs.create] using hle)
    exact absurd hpos (by rw [StaticWs.trips] at hzero; simp [hzero])
  exact h.call_of_not_execute
    (StaticWs.nextItem_behind hstep th.item (by rw [h.data hrunning]; rfl) hout)

/-- Calls `d` iterations apart that are all in the loop, up to the first that is not. -/
theorem starts_eq_map {n d : Nat} (hd : 0 < d) : ∀ {j i : Nat}, (∀ m < j, i + m * d < n) → n ≤ i + j * d →
    starts n i d = (List.range j).map fun m => i + m * d
  | 0, i, _, hend => starts_of_le hd (by omega)
  | j + 1, i, hin, hend => by
    have hnext : ∀ m, i + d + m * d = i + (m + 1) * d := fun m => by ring
    have hrest := starts_eq_map hd (j := j) (i := i + d)
      (fun m hm => hnext m ▸ hin (m + 1) (Nat.succ_lt_succ hm)) (hnext j ▸ hend)
    have hfirst : i < n := by simpa using hin 0 (Nat.succ_pos j)
    rw [starts_of_lt hd hfirst, hrest, List.range_succ_eq_map, List.map_cons, List.map_map]
    refine congrArg₂ List.cons (by simp) (List.map_congr_left fun m _ => ?_)
    exact hnext m

theorem static_shares_empty (hstep : info.loop_step ≠ 0) (hzero : StaticWs.trips info = 0) :
    StaticShares info T := by
  refine @Plugin.staticShares info T (fun _ th => Idle info th) (fun _ => [])
    (fun t th chunk _ hrunning h => h.call_empty hstep hzero hrunning)
    (fun t item => ⟨rfl, rfl, fun _ => rfl⟩) (fun t th h => ?_) (fun t _ th h _ => ?_) ?_
  · rw [h.executed]
    exact Nat.zero_le _
  · rw [h.executed]
    rfl
  · rw [hzero]
    simp

section
variable (hstep : info.loop_step ≠ 0) (hpos : 0 < StaticWs.trips info) (hT : 1 ≤ T)
include hstep hpos hT

theorem static_shares_blocks (hchunk : info.chunk_size = 0) : StaticShares info T := by
  refine @Plugin.staticShares info T (Shared info T)
    (fun t => piece (StaticWs.trips info) (StaticWs.shareStart info T t, StaticWs.shareSize info T t))
    (fun t th chunk ht hrunning h => h.call hstep hpos hchunk ht hrunning)
    (fun t item => ⟨rfl, .inl ⟨rfl, rfl, rfl⟩⟩) (fun t th h => ?_) (fun t ht th h hstop => ?_) ?_
  · rcases h.executed with ⟨-, -, hnone⟩ | ⟨-, hexecuted⟩
    · rw [hnone]
      exact Nat.zero_le _
    · rw [hexecuted]
      split
      · exact hpos
      · exact Nat.zero_le _
  · rcases h.executed with ⟨hrunning, -⟩ | ⟨-, hexecuted⟩
    · rw [hstop] at hrunning
      cases hrunning
    rw [hexecuted]
    split
    · next hsize => rw [List.flatMap_singleton, StaticWs.values_itemOn hstep _ hsize]
    · next hsize =>
      -- a thread without iterations
      rw [piece, Nat.eq_zero_of_not_pos hsize, Nat.add_zero, Nat.sub_eq_zero_of_le (min_le_left _ _)]
      rfl
  · rw [flatMap_pieces (StaticWs.shareStart info T) (StaticWs.shareSize info T)
      (by simp [StaticWs.shareStart]) (StaticWs.shareStart_succ info T), StaticWs.shareStart_team info hT,
      min_self]

omit hpos in
theorem static_shares_turns (hchunk : info.chunk_size = c) (hc : 0 < c) : StaticShares info T := by
  have hwork : ((List.range T).flatMap fun t => (starts (StaticWs.trips info) (t * c) (T * c)).flatMap
      fun s => piece (StaticWs.trips info) (s, c)).Perm (List.range (StaticWs.trips info)) := by
    rw [← List.flatMap_assoc]
    refine ((interleaved_starts hc hT _).flatMap_right _).trans (.of_eq ?_)
    exact flatMap_piece_starts hc _
  refine Plugin.staticShares (fun t th chunk _ hrunning h => h.call hstep hchunk hc hrunning)
    (fun t item => Interleaved.start) (fun t th h => h.length_executed hT hc) (fun t _ th h hstop => ?_)
    hwork
  obtain ⟨j, hexecuted, hin, -, hend⟩ := h.executed
  have hturn : ∀ i, (i * T + t) * c = t * c + i * (T * c) := fun i => by ring
  have hstarts := starts_eq_map (i := t * c) (Nat.mul_pos hT hc) (fun i hi => hturn i ▸ hin i hi)
    (hturn j ▸ hend hstop)
  rw [hexecuted, hstarts, List.flatMap_map, List.flatMap_map, List.map_flatMap]
  refine List.flatMap_congr fun i _ => ?_
  rw [StaticWs.values_itemOn hstep _ hc, hturn]

end

end

/-- **The items of the static plugin.** For a chunk size that is not negative and every number of threads,
the calls of the threads come to an end, and the items handed out have every iteration once. -/
theorem static_shares (info : WsInfoLoop) (threads : Nat) (hstep : info.loop_step ≠ 0)
    (hchunk : 0 ≤ info.chunk_size) (hthreads : 1 ≤ threads) : StaticShares info threads := by
  rcases Nat.eq_zero_or_pos (StaticWs.trips info) with hzero | hpos
  · exact static_shares_empty hstep hzero
  obtain ⟨c, hc⟩ := Int.eq_ofNat_of_zero_le hchunk
  rcases Nat.eq_zero_or_pos c with rfl | hcpos
  · exact static_shares_blocks hstep hpos hthreads hc
  · exact static_shares_turns hstep hthreads hc hcpos

/-- Ten iterations downwards in chunks of three for two threads. -/
theorem static_shares_down : StaticShares ⟨20, 2, -2, 3⟩ 2 :=
  static_shares ⟨20, 2, -2, 3⟩ 2 (by decide) (by decide) (by decide)

end OmpSs.Loops
