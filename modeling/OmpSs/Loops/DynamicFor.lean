import OmpSs.Loops.Worksharing

/-!
# The dynamic worksharing loop

`WorkSharingDynamicFor` (`nanox-mx/src/plugins/worksharing/dynamic.cpp`): `create` counts the chunks
of `chunkSize` iterations, `nextItem` turns a chunk number back into bounds. Integers are exact, but for
`create64`.
-/

namespace OmpSs.Loops.DynamicFor

open Lib

/-- The descriptor of a loop for its number of iterations. -/
def descriptor (info : WsInfoLoop) (niters : Int) : WorkSharingLoopInfo :=
  let chunk_size := max info.chunk_size 1
  let chunks := niters.tdiv chunk_size
  { lowerBound := info.lower_bound
    upperBound := info.upper_bound
    loopStep := info.loop_step
    chunkSize := chunk_size
    numOfChunks := if niters.tmod chunk_size ≠ 0 then chunks + 1 else chunks }

/-- Source: `WorkSharingDynamicFor::create` (`dynamic.cpp:38`), the branch of the thread that
initialises the descriptor. -/
def create (info : WsInfoLoop) : WorkSharingLoopInfo :=
  descriptor info ((info.upper_bound - info.lower_bound).tdiv info.loop_step + 1)

/-- The same in `int64_t`: the divisions by the chunk size do not leave its range. -/
def create64 (info : WsInfoLoop) : Option WorkSharingLoopInfo := (niters64 info).map (descriptor info)

/-- Source: `WorkSharingDynamicFor::nextItem` (`dynamic.cpp:78`), after `currentChunk++` has returned
`mychunk`. -/
def nextItem (data : WorkSharingLoopInfo) (mychunk : Nat) : Option WsItemLoop :=
  if (mychunk : Int) ≥ data.numOfChunks then none
  else
    let lower := data.lowerBound + data.chunkSize * data.loopStep * mychunk
    some (checkBounds data ⟨lower, lower + data.chunkSize * data.loopStep - data.loopStep⟩)

section
variable {info : WsInfoLoop} {c n : Nat}

/-- The number of chunks is the trip count over the chunk size, rounded up. -/
theorem numOfChunks_create (h : info.loop_step ≠ 0)
    (hin : within info.upper_bound info.loop_step info.lower_bound = true)
    (hc : max info.chunk_size 1 = c)
    (hn : n = tripCount info.lower_bound info.upper_bound info.loop_step) :
    (create info).numOfChunks = ((n + c - 1) / c : Nat) := by
  have hpos : 0 < c := by omega
  simp only [create, descriptor, tdiv_add_one_eq h hin, ← hn, hc, ← Int.ofNat_tdiv, ← Int.ofNat_tmod]
  have hsum := Nat.div_add_mod' n c
  have hlt := Nat.mod_lt n hpos
  have hone : (n / c + 1) * c = n / c * c + c := by ring
  have htwo : (n / c + 1 + 1) * c = n / c * c + c + c := by ring
  split
  · next hrem =>
    have hup : (n + c - 1) / c = n / c + 1 := Nat.div_eq_of_lt_le (by omega) (by omega)
    omega
  · next hrem =>
    have hdown : (n + c - 1) / c = n / c := Nat.div_eq_of_lt_le (by omega) (by omega)
    omega

end

/-- For every loop with an iteration, every chunk size and every team, in every interleaving of the
calls of `nextItem`. -/
theorem dynamic_for_shares (info : WsInfoLoop) (threads : Nat) (hstep : info.loop_step ≠ 0)
    (hne : iterations info.lower_bound info.upper_bound info.loop_step ≠ [])
    (hthreads : 1 ≤ threads) : Shares info (create info) (nextItem (create info)) threads := by
  obtain ⟨c, hc⟩ : ∃ c : Nat, max info.chunk_size 1 = c := ⟨(max info.chunk_size 1).toNat, by omega⟩
  have hpos : 0 < c := by omega
  have hchunk : (create info).chunkSize = c := hc
  have hN := numOfChunks_create hstep (within_of_iterations_ne_nil hne) hc rfl
  refine shares_of_pieces hthreads (fun k => k * c) (fun _ => c) (Nat.zero_mul c)
    (fun k => Nat.succ_mul k c) hN (fun k => ?_) (fun k item hitem => ?_) ?_
  · rw [nextItem, hN]
    split
    · next hge => simp; omega
    · next hlt => simp; omega
  · have hlower : (create info).lowerBound + c * (create info).loopStep * k =
        (create info).lowerBound + (k * c : Nat) * (create info).loopStep := by
      push_cast
      ring
    unfold nextItem at hitem
    split at hitem
    · cases hitem
    · cases hitem
      simp only [hchunk, hlower]
      exact values_checkBounds (create info) hstep hpos
  · show tripCount info.lower_bound info.upper_bound info.loop_step ≤ _ / c * c
    have hlt := Nat.lt_div_mul_add
      (a := tripCount info.lower_bound info.upper_bound info.loop_step + c - 1) hpos
    omega

/-- Five iterations in chunks of two for two threads. -/
theorem dynamic_for_shares_two_threads :
    (create ⟨0, 9, 2, 2⟩).numOfChunks = 3 ∧
    Shares ⟨0, 9, 2, 2⟩ (create ⟨0, 9, 2, 2⟩) (nextItem (create ⟨0, 9, 2, 2⟩)) 2 :=
  ⟨by decide, dynamic_for_shares ⟨0, 9, 2, 2⟩ 2 (by decide) (by decide) (by decide)⟩

end OmpSs.Loops.DynamicFor
