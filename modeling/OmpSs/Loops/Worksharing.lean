import OmpSs.Lib.CountedLoop
import OmpSs.Lib.Ticket

/-!
# Worksharing loops

What the dynamic and the guided worksharing plugins share: the loop descriptor
(`nanox-mx/src/plugins/worksharing/loop.hpp`), the items they hand out, and the threads of a team
that call `nextItem` until they get an item that is not to be executed. `nextItem` starts with
`currentChunk++`, one atomic fetch-and-increment; the rest of it reads only fields that do not change
after `create`. The threads are therefore workers that draw tickets (`Lib.Ticket`), the chunk
numbers. `Shares` says what the items of such a loop have to achieve in every interleaving, and
`shares_of_pieces` that they do when chunk number `k` is the `k`-th of consecutive pieces of the loop.
-/

namespace OmpSs.Loops

open Lib

/-- Source: `nanos_ws_info_loop_t` (`core/nanos-int.h:211`). -/
structure WsInfoLoop where
  lower_bound : Int
  upper_bound : Int
  loop_step : Int
  chunk_size : Int

/-- Source: `WorkSharingLoopInfo` (`loop.hpp:26`), less the counter `currentChunk`, which is the one
field that changes. -/
structure WorkSharingLoopInfo where
  lowerBound : Int
  upperBound : Int
  loopStep : Int
  chunkSize : Int
  numOfChunks : Int
  numParticipants : Int := 0
deriving DecidableEq

/-- Source: `nanos_ws_item_loop_t` (`core/nanos-int.h:218`), less the field `last`, which the plugins
leave alone. -/
structure WsItemLoop where
  lower : Int
  upper : Int
deriving DecidableEq

/-- The bound check of both `nextItem`. -/
def checkBounds (data : WorkSharingLoopInfo) (item : WsItemLoop) : WsItemLoop :=
  if item.upper * data.loopStep > data.upperBound * data.loopStep then
    { item with upper := data.upperBound }
  else item

/-! ## Arithmetic of 64 bits -/

def Fits64 (v : Int) : Prop := -9223372036854775808 ≤ v ∧ v < 9223372036854775808

instance : DecidablePred Fits64 := fun _ => inferInstanceAs (Decidable (_ ∧ _))

/-- The value of an operation on `int64_t`; `none`: it overflows. -/
def int64 (v : Int) : Option Int := if Fits64 v then some v else none

/-- The value an operation on `int64_t` leaves in the machine's word. -/
def wrap64 (v : Int) : Int := (v + 9223372036854775808) % 18446744073709551616 - 9223372036854775808

/-- The number of iterations both `create` compute. `none`: the division traps. Source: `dynamic.cpp:60`,
`guided.cpp:71`. -/
def niters64 (info : WsInfoLoop) : Option Int :=
  let distance := wrap64 (info.upper_bound - info.lower_bound)
  if info.loop_step = 0 ∨ distance = -9223372036854775808 ∧ info.loop_step = -1 then none
  else some (wrap64 (distance.tdiv info.loop_step + 1))

theorem wrap64_of_fits {v : Int} (h : Fits64 v) : wrap64 v = v := by
  unfold wrap64
  unfold Fits64 at h
  omega

/-- Where nothing overflows, the number is that over exact integers. -/
theorem niters64_of_fits {info : WsInfoLoop} (hstep : info.loop_step ≠ 0)
    (hdistance : Fits64 (info.upper_bound - info.lower_bound))
    (hniters : Fits64 ((info.upper_bound - info.lower_bound).tdiv info.loop_step + 1)) :
    niters64 info = some ((info.upper_bound - info.lower_bound).tdiv info.loop_step + 1) := by
  have htrap : ¬ (info.upper_bound - info.lower_bound = -9223372036854775808 ∧ info.loop_step = -1) := by
    rintro ⟨hmin, hneg⟩
    rw [hmin, hneg] at hniters
    exact absurd hniters (by decide)
  unfold niters64
  rw [wrap64_of_fits hdistance, if_neg (not_or.2 ⟨hstep, htrap⟩), wrap64_of_fits hniters]

/-- The values an item runs the loop body on. -/
def WsItemLoop.values (item : WsItemLoop) (loopStep : Int) : List Int :=
  iterations item.lower item.upper loopStep

/-- A worksharing loop that works: `nextItem k` is what the call that draws chunk number `k` returns,
`none` standing for `execute == false`. Whatever the interleaving of the calls of `threads` threads,
at most `numOfChunks` items are handed out, the threads come to an end, and then the items contain
every iteration of the loop `info` once and no other value. -/
structure Shares (info : WsInfoLoop) (data : WorkSharingLoopInfo)
    (nextItem : Nat → Option WsItemLoop) (threads : Nat) : Prop where
  atMost : ∀ es s, run (Ticket.step nextItem) (Ticket.start _ threads) es = some s →
    (s.items.length : Int) ≤ data.numOfChunks
  ends : ∀ es s, run (Ticket.step nextItem) (Ticket.start _ threads) es = some s →
    (es.length : Int) ≤ 2 * (data.numOfChunks + threads) ∧
      ((∀ w ∈ s.workers, w = .stopped) ∨ ∃ e, (Ticket.step nextItem s e).isSome = true)
  once : ∀ es s, run (Ticket.step nextItem) (Ticket.start _ threads) es = some s →
    (∀ w ∈ s.workers, w = .stopped) →
    (s.items.flatMap (·.values info.loop_step)).Perm
      (iterations info.lower_bound info.upper_bound info.loop_step)

section
variable {info : WsInfoLoop} {data : WorkSharingLoopInfo} {nextItem : Nat → Option WsItemLoop}
  {threads N i c : Nat}

/-- The item on the iterations from `i` to `i + c`. -/
theorem values_checkBounds (data : WorkSharingLoopInfo) (h : data.loopStep ≠ 0) (hc : 0 < c) :
    (checkBounds data ⟨data.lowerBound + i * data.loopStep,
      data.lowerBound + i * data.loopStep + c * data.loopStep - data.loopStep⟩).values data.loopStep =
    (piece (tripCount data.lowerBound data.upperBound data.loopStep) (i, c)).map
      fun k : Nat => data.lowerBound + (k : Int) * data.loopStep := by
  obtain ⟨c, rfl⟩ : ∃ d, c = d + 1 := ⟨c - 1, by omega⟩
  have hupper : data.lowerBound + i * data.loopStep + (c + 1 : Nat) * data.loopStep - data.loopStep =
      data.lowerBound + (i + c : Nat) * data.loopStep := by
    push_cast
    ring
  have hclip : i + c < tripCount data.lowerBound data.upperBound data.loopStep ↔ _ :=
    (lt_tripCount_iff h).trans (within_iff h)
  rw [hupper, checkBounds]
  split
  · next hpast =>
    refine iterations_piece h fun k => ?_
    dsimp only at hpast ⊢
    rw [← lt_tripCount_iff h]
    omega
  · next hin =>
    refine iterations_piece h fun k => ?_
    dsimp only at hin ⊢
    rw [within_iterate_iff h]
    omega

/-- Chunks that are consecutive pieces and reach the end of the loop share it. -/
theorem shares_of_pieces (hthreads : 1 ≤ threads) (start size : Nat → Nat) (hzero : start 0 = 0)
    (hsucc : ∀ k, start (k + 1) = start k + size k)
    (hN : data.numOfChunks = N) (hsome : ∀ k, (nextItem k).isSome = true ↔ k < N)
    (hvalues : ∀ k item, nextItem k = some item → item.values info.loop_step =
      (piece (tripCount info.lower_bound info.upper_bound info.loop_step) (start k, size k)).map
        fun k : Nat => info.lower_bound + (k : Int) * info.loop_step)
    (hend : tripCount info.lower_bound info.upper_bound info.loop_step ≤ start N) :
    Shares info data nextItem threads := by
  have hdrawn := Ticket.drawn_start nextItem threads
  have hlength : (Ticket.start WsItemLoop threads).workers.length = threads := List.length_replicate
  refine ⟨?_, ?_, ?_⟩
  · intro es s hrun
    obtain ⟨⟨answered, hs⟩, -, -⟩ := hdrawn.run hsome es hrun
    have := hs.length_items_le hsome
    omega
  · intro es s hrun
    obtain ⟨-, -, hlen⟩ := hdrawn.run hsome es hrun
    have hstart : Ticket.measure N (Ticket.start WsItemLoop threads) = 2 * (N + threads) := by
      simp [Ticket.measure, Ticket.start]
    refine ⟨by omega, ?_⟩
    rw [or_iff_not_imp_left]
    intro hrunning
    push Not at hrunning
    obtain ⟨w, hw, hne⟩ := hrunning
    obtain ⟨e, s', hstep⟩ := Ticket.exists_step hw hne
    exact ⟨e, by rw [hstep]; rfl⟩
  · intro es s hrun hall
    obtain ⟨⟨answered, hs⟩, hworkers, -⟩ := hdrawn.run hsome es hrun
    have hne : s.workers ≠ [] := fun hnil => by
      rw [hnil, hlength] at hworkers
      simp at hworkers
      omega
    have hitems : (List.range N).filterMap nextItem =
        (List.range N).map fun k => (nextItem k).getD ⟨0, 0⟩ := by
      rw [← List.filterMap_eq_map]
      refine List.filterMap_congr fun k hk => ?_
      obtain ⟨item, hitem⟩ := Option.isSome_iff_exists.1 ((hsome k).2 (List.mem_range.1 hk))
      simp [hitem]
    refine ((hs.items_perm hsome hne hall).flatMap_right _).trans ?_
    rw [hitems, List.flatMap_map]
    have hpieces := flatMap_pieces start size hzero hsucc
      (tripCount info.lower_bound info.upper_bound info.loop_step) N
    rw [min_eq_right hend] at hpieces
    refine .trans (.of_eq (List.flatMap_congr fun k hk => ?_)) (pieces_perm _ _ (.of_eq hpieces))
    obtain ⟨item, hitem⟩ := Option.isSome_iff_exists.1 ((hsome k).2 (List.mem_range.1 hk))
    rw [hitem]
    exact hvalues k item hitem

end

end OmpSs.Loops
