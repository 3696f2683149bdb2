import OmpSs.Loops.Worksharing

/-!
# The guided worksharing loop

`WorkSharingGuidedFor` (`nanox-mx/src/plugins/worksharing/guided.cpp`): the chunks shrink with the
iterations that are left. `create` walks the whole series to count them, `nextItem` walks it up to its
own chunk; `countChunks_eq` says that the two walks agree on where the series ends. Integers are
exact, but for `create64`.
-/

namespace OmpSs.Loops.GuidedFor

open Lib

def GUIDED_FACTOR : Int := 2

/-- The loop of `create` over `niters`, with `numOfChunks` counted so far. `none` is a loop that has
not ended after `fuel` rounds. -/
def countChunks (guided_divisor chunk_size : Int) : Nat → Int → Int → Option Int
  | 0, niters, numOfChunks => if niters > 0 then none else some numOfChunks
  | fuel + 1, niters, numOfChunks =>
    if niters > 0 then
      countChunks guided_divisor chunk_size fuel
        (niters - max (niters.tdiv guided_divisor) chunk_size) (numOfChunks + 1)
    else some numOfChunks

/-- The descriptor before the chunks are counted. -/
def initial (info : WsInfoLoop) (num_participants : Nat) : WorkSharingLoopInfo where
  lowerBound := info.lower_bound
  upperBound := info.upper_bound
  loopStep := info.loop_step
  chunkSize := max info.chunk_size 1
  numOfChunks := 0
  numParticipants := num_participants

/-- Source: `WorkSharingGuidedFor::create` (`guided.cpp:40`), the branch of the thread that
initialises the descriptor, in a team of `num_participants`. A team without threads, whose
`guided_divisor` would be 0, has no result. -/
def create (info : WsInfoLoop) (num_participants : Nat) : Option WorkSharingLoopInfo :=
  let data := initial info num_participants
  let guided_divisor := num_participants * GUIDED_FACTOR
  let niters := (info.upper_bound - info.lower_bound).tdiv info.loop_step + 1
  if guided_divisor = 0 then none
  else
    (countChunks guided_divisor data.chunkSize niters.toNat niters data.numOfChunks).map
      fun numOfChunks => { data with numOfChunks := numOfChunks }

/-- The same in `int64_t`: the loop does not leave its range. `none`: a division traps. -/
def create64 (info : WsInfoLoop) (num_participants : Nat) : Option WorkSharingLoopInfo :=
  let data := initial info num_participants
  let guided_divisor := wrap64 (num_participants * GUIDED_FACTOR)
  (niters64 info).bind fun niters =>
    if niters > 0 ∧ guided_divisor = 0 then none
    else
      (countChunks guided_divisor data.chunkSize niters.toNat niters data.numOfChunks).map
        fun numOfChunks => { data with numOfChunks := numOfChunks }

/-- The loop of `nextItem` over the previous chunks: the iterations left and the lower bound after
`i` of them. -/
def previous (data : WorkSharingLoopInfo) : Nat → Int × Int
  | 0 => ((data.upperBound - data.lowerBound).tdiv data.loopStep + 1, data.lowerBound)
  | i + 1 =>
    let (niters, lower) := previous data i
    let current := max (niters.tdiv (data.numParticipants * GUIDED_FACTOR)) data.chunkSize
    (niters - current, lower + current * data.loopStep)

/-- Source: `WorkSharingGuidedFor::nextItem` (`guided.cpp:83`), after `currentChunk++` has returned
`mychunk`. -/
def nextItem (data : WorkSharingLoopInfo) (mychunk : Nat) : Option WsItemLoop :=
  if (mychunk : Int) ≥ data.numOfChunks then none
  else
    let (niters, lower) := previous data mychunk
    some (checkBounds data ⟨lower,
      lower + max (niters.tdiv (data.numParticipants * GUIDED_FACTOR)) data.chunkSize * data.loopStep -
        data.loopStep⟩)

/-! ## The shrinking series -/

/-- The size of chunk `k`. -/
def chunkAt (data : WorkSharingLoopInfo) (k : Nat) : Int :=
  max ((previous data k).1.tdiv (data.numParticipants * GUIDED_FACTOR)) data.chunkSize

section
variable {data : WorkSharingLoopInfo}

theorem previous_succ (data : WorkSharingLoopInfo) (k : Nat) : previous data (k + 1) =
    ((previous data k).1 - chunkAt data k, (previous data k).2 + chunkAt data k * data.loopStep) :=
  rfl

/-- The series does not look at the number of chunks. -/
theorem previous_numOfChunks (data : WorkSharingLoopInfo) (m : Int) (k : Nat) :
    previous { data with numOfChunks := m } k = previous data k := by
  induction k with
  | zero => rfl
  | succ k ih =>
    rw [previous_succ, previous_succ, chunkAt, chunkAt, ih]

section
variable (hchunk : 1 ≤ data.chunkSize)
include hchunk

theorem one_le_chunkAt (k : Nat) : 1 ≤ chunkAt data k := hchunk.trans (le_max_right _ _)

/-- Once the series is used up it stays so. -/
theorem previous_le_of_le {k j : Nat} (h : (previous data k).1 ≤ 0) (hle : k ≤ j) :
    (previous data j).1 ≤ 0 := by
  induction j, hle using Nat.le_induction with
  | base => exact h
  | succ j _ ih =>
    have hpos := one_le_chunkAt hchunk j
    rw [previous_succ]
    exact (sub_le_self _ (by omega)).trans ih

/-- The loop of `create` counts the chunks before the series is used up. -/
theorem countChunks_eq (fuel k : Nat) (hfuel : (previous data k).1 ≤ fuel) : ∃ N : Nat,
    countChunks (data.numParticipants * GUIDED_FACTOR) data.chunkSize fuel (previous data k).1 k =
      some (N : Int) ∧ k ≤ N ∧ ∀ j, k ≤ j → (j < N ↔ 0 < (previous data j).1) := by
  have hend : ∀ {k : Nat}, ¬ (previous data k).1 > 0 → ∀ j, k ≤ j → (j < k ↔ 0 < (previous data j).1) := by
    intro k hk j hj
    have := previous_le_of_le hchunk (not_lt.1 hk) hj
    omega
  induction fuel generalizing k with
  | zero =>
    have hnot : ¬ (previous data k).1 > 0 := by simpa using hfuel
    exact ⟨k, by rw [countChunks, if_neg hnot], le_rfl, hend hnot⟩
  | succ fuel ih =>
    by_cases hpos : (previous data k).1 > 0
    · have hone := one_le_chunkAt hchunk k
      have hnext : (previous data (k + 1)).1 ≤ fuel := by
        rw [previous_succ]
        push_cast at hfuel
        dsimp only
        omega
      obtain ⟨N, hN, hle, hiff⟩ := ih (k + 1) hnext
      refine ⟨N, ?_, by omega, fun j hj => ?_⟩
      · rw [countChunks, if_pos hpos]
        exact hN
      · rcases Nat.eq_or_lt_of_le hj with rfl | hlt
        · exact ⟨fun _ => hpos, fun _ => hle⟩
        · exact hiff j hlt
    · exact ⟨k, by rw [countChunks, if_neg hpos], le_rfl, hend hpos⟩

end

/-- The lower bound of chunk `k` is that of the iterations before it. -/
theorem previous_eq {n : Nat} (hn : (data.upperBound - data.lowerBound).tdiv data.loopStep + 1 = n)
    (k : Nat) : (previous data k).2 = data.lowerBound + (n - (previous data k).1) * data.loopStep := by
  induction k with
  | zero => simp [previous, hn]
  | succ k ih =>
    rw [previous_succ]
    dsimp only
    rw [ih]
    ring

/-- A descriptor with the right number of chunks shares the loop. -/
theorem shares_of_numOfChunks {info : WsInfoLoop} {threads N : Nat} (hstep : info.loop_step ≠ 0)
    (hne : iterations info.lower_bound info.upper_bound info.loop_step ≠ []) (hthreads : 1 ≤ threads)
    (hlower : data.lowerBound = info.lower_bound) (hupper : data.upperBound = info.upper_bound)
    (hloopStep : data.loopStep = info.loop_step) (hchunk : 1 ≤ data.chunkSize)
    (hnum : data.numOfChunks = N) (hN : ∀ k, k < N ↔ 0 < (previous data k).1) :
    Shares info data (nextItem data) threads := by
  have hniters := tdiv_add_one_eq hstep (within_of_iterations_ne_nil hne)
  obtain ⟨n, hn⟩ : ∃ n, n = tripCount info.lower_bound info.upper_bound info.loop_step := ⟨_, rfl⟩
  rw [← hn, ← hlower, ← hupper, ← hloopStep] at hniters
  -- the iterations before chunk `k`, as a number
  have hleft : ∀ k, (previous data k).1 ≤ n := by
    intro k
    induction k with
    | zero => exact hniters.le
    | succ k ih =>
      have hone := one_le_chunkAt hchunk k
      rw [previous_succ]
      dsimp only
      omega
  have hstart : ∀ k, ((n - (previous data k).1).toNat : Int) = n - (previous data k).1 := fun k =>
    Int.toNat_of_nonneg (by have := hleft k; omega)
  have hsize : ∀ k, ((chunkAt data k).toNat : Int) = chunkAt data k := fun k =>
    Int.toNat_of_nonneg (by have := one_le_chunkAt hchunk k; omega)
  refine shares_of_pieces hthreads (fun k => (n - (previous data k).1).toNat)
    (fun k => (chunkAt data k).toNat) ?_ (fun k => ?_) hnum (fun k => ?_) (fun k item hitem => ?_) ?_
  · show (n - (previous data 0).1).toNat = 0
    rw [show (previous data 0).1 = n from hniters]
    omega
  · have h₁ := hstart k
    have h₂ := hstart (k + 1)
    have h₃ := hsize k
    rw [previous_succ] at h₂ ⊢
    dsimp only at h₂ ⊢
    omega
  · rw [nextItem, hnum]
    split
    · next hge => simp; omega
    · next hlt => simp; omega
  · unfold nextItem at hitem
    split at hitem
    · cases hitem
    · cases hitem
      have hvalues := values_checkBounds data (i := (n - (previous data k).1).toNat)
        (c := (chunkAt data k).toNat) (by rwa [hloopStep]) (by have := one_le_chunkAt hchunk k; omega)
      rw [hstart, hsize, ← previous_eq hniters k] at hvalues
      rw [← hloopStep, ← hlower, ← hupper]
      exact hvalues
  · have hlast := (hN N).not.1 (lt_irrefl N)
    have := hstart N
    omega

end

/-- For every loop with an iteration, every minimum chunk size and every team: `create` counts as many
chunks as the series of `nextItem` has before it is used up, and the loop is shared in every
interleaving of the calls of `nextItem`. -/
theorem guided_for_shares (info : WsInfoLoop) (num_participants threads : Nat)
    (hstep : info.loop_step ≠ 0)
    (hne : iterations info.lower_bound info.upper_bound info.loop_step ≠ [])
    (hparticipants : 1 ≤ num_participants) (hthreads : 1 ≤ threads) :
    ∃ data, create info num_participants = some data ∧
      (∀ k : Nat, (k : Int) < data.numOfChunks ↔ 0 < (previous data k).1) ∧
      Shares info data (nextItem data) threads := by
  have hchunk : 1 ≤ (initial info num_participants).chunkSize := le_max_right _ _
  obtain ⟨N, hcount, -, hN⟩ := countChunks_eq hchunk
    (previous (initial info num_participants) 0).1.toNat 0 (Int.self_le_toNat _)
  have hseries : ∀ k, k < N ↔
      0 < (previous { initial info num_participants with numOfChunks := N } k).1 := by
    intro k
    rw [previous_numOfChunks]
    exact hN k (Nat.zero_le k)
  refine ⟨{ initial info num_participants with numOfChunks := N }, ?_, fun k => ?_, ?_⟩
  · have hdivisor : ¬ (num_participants : Int) * GUIDED_FACTOR = 0 := by
      unfold GUIDED_FACTOR
      omega
    rw [create]
    simp only [if_neg hdivisor]
    rw [Option.map_eq_some_iff]
    exact ⟨N, hcount, rfl⟩
  · exact Nat.cast_lt.trans (hseries k)
  · exact shares_of_numOfChunks hstep hne hthreads rfl rfl rfl hchunk rfl hseries

/-- Ten iterations for two participants. -/
theorem guided_for_shares_two_participants :
    (create ⟨1, 10, 1, 2⟩ 2).map (·.numOfChunks) = some 5 ∧
    ∃ data, create ⟨1, 10, 1, 2⟩ 2 = some data ∧
      (∀ k : Nat, (k : Int) < data.numOfChunks ↔ 0 < (previous data k).1) ∧
      Shares ⟨1, 10, 1, 2⟩ data (nextItem data) 2 :=
  ⟨by decide, guided_for_shares ⟨1, 10, 1, 2⟩ 2 2 (by decide) (by decide) (by decide) (by decide)⟩

end OmpSs.Loops.GuidedFor
