import OmpSs.Loops.StaticFor

/-!
# The dynamic and the guided slicer

`SlicerDynamicFor` and `SlicerGuidedFor` (`nanox-mx/src/plugins/slicers/dynamic_for.cpp`,
`guided_for.cpp`) keep the iterations that are pending in the loop information of a work descriptor. A call
of `dequeue` cuts a slice off their front, or hands out the descriptor itself as the last slice. The two
differ in where the slice ends; either end is an iteration of the loop, so that what is left starts with the
next one (`slices_partition`). Integers are exact.
-/

namespace OmpSs.Loops

open Lib

/-- What a call of `dequeue` does: the value it returns, the loop information of the slice, and that of the
work descriptor afterwards. -/
structure Dequeue where
  retval : Bool
  slice : LoopInfo
  pending : LoopInfo

namespace Slicer

/-- The chunk size that `submit` of both slicers stores. Source: `dynamic_for.cpp:50`,
`guided_for.cpp:50`. -/
def submit (nli : LoopInfo) : LoopInfo := { nli with chunk := if 1 > nli.chunk then 1 else nli.chunk }

/-- The body of both `dequeue` behind the computation of `_upper`. The slice is a duplicate of the work
descriptor, made before its lower bound is advanced. -/
def dequeueTo (upper : Int) (nli : LoopInfo) : Dequeue :=
  let empty := (nli.step > 0 ∧ nli.lower > nli.upper) ∨ (nli.step < 0 ∧ nli.lower < nli.upper)
  if empty ∨ (upper ≥ nli.upper ∧ nli.step > 0) ∨ (upper ≤ nli.upper ∧ nli.step < 0) then
    ⟨true, nli, nli⟩
  else ⟨false, { nli with upper := upper }, { nli with lower := upper + nli.step }⟩

end Slicer

/-- Source: `SlicerDynamicFor::dequeue` (`dynamic_for.cpp:56`). -/
def SlicerDynamicFor.dequeue (nli : LoopInfo) : Dequeue :=
  Slicer.dequeueTo (nli.lower + nli.chunk * nli.step - nli.step) nli

/-- Source: `SlicerGuidedFor::dequeue` (`guided_for.cpp:67`), where `submit` has counted `threads` valid
threads. A division by zero has no result. -/
def SlicerGuidedFor.dequeue (threads : Nat) (nli : LoopInfo) : Option Dequeue :=
  if nli.step = 0 ∨ 2 * threads = 0 then none
  else
    let niters := (nli.upper - nli.lower).tdiv nli.step + 1
    let chunk := max (niters.tdiv (2 * threads)) nli.chunk
    some (Slicer.dequeueTo (nli.lower + chunk * nli.step) nli)

/-- The slicers that cut while the loop runs. -/
inductive Slicer
  | dynamic_for
  | guided_for
deriving DecidableEq

namespace Slicer

def dequeue (threads : Nat) : Slicer → LoopInfo → Option Dequeue
  | dynamic_for, nli => some (SlicerDynamicFor.dequeue nli)
  | guided_for, nli => SlicerGuidedFor.dequeue threads nli

/-- The slices that calls of `dequeue` return until one returns `true`. `none` is a sequence that has not
ended after so many calls. -/
def slices (slicer : Slicer) (threads : Nat) : Nat → LoopInfo → Option (List LoopInfo)
  | 0, _ => none
  | calls + 1, nli =>
    (slicer.dequeue threads nli).bind fun r =>
      if r.retval then some [r.slice] else (slices slicer threads calls r.pending).map (r.slice :: ·)

/-! ## One slice -/

section
variable {slicer : Slicer} {threads : Nat} {nli : LoopInfo} {m : Nat}

/-- A slice that ends with iteration `m` is the last one if this is not before the final iteration. -/
theorem dequeueTo_eq (hstep : nli.step ≠ 0) (m : Nat) :
    dequeueTo (nli.lower + m * nli.step) nli = ⟨true, nli, nli⟩ ∨
      m < tripCount nli.lower nli.upper nli.step ∧
        dequeueTo (nli.lower + m * nli.step) nli =
          ⟨false, { nli with upper := nli.lower + m * nli.step },
            { nli with lower := nli.lower + m * nli.step + nli.step }⟩ := by
  by_cases hlast : ((nli.step > 0 ∧ nli.lower > nli.upper) ∨ (nli.step < 0 ∧ nli.lower < nli.upper)) ∨
      (nli.lower + m * nli.step ≥ nli.upper ∧ nli.step > 0) ∨
        (nli.lower + m * nli.step ≤ nli.upper ∧ nli.step < 0)
  · exact .inl (if_pos hlast)
  · refine .inr ⟨?_, if_neg hlast⟩
    rw [lt_tripCount_iff hstep, within]
    split <;> rw [decide_eq_true_iff] <;> omega

/-- Both slicers end a slice with an iteration of the loop. -/
theorem exists_dequeue (hstep : nli.step ≠ 0) (hchunk : 1 ≤ nli.chunk) (hthreads : 1 ≤ threads) :
    ∃ m : Nat, slicer.dequeue threads nli = some (dequeueTo (nli.lower + m * nli.step) nli) := by
  cases slicer with
  | dynamic_for =>
    obtain ⟨m, hm⟩ := Int.eq_ofNat_of_zero_le (show 0 ≤ nli.chunk - 1 by omega)
    refine ⟨m, ?_⟩
    have hupper : nli.lower + nli.chunk * nli.step - nli.step = nli.lower + m * nli.step := by
      rw [← hm]
      ring
    rw [dequeue, SlicerDynamicFor.dequeue, hupper]
  | guided_for =>
    have hnonneg : 0 ≤ max (((nli.upper - nli.lower).tdiv nli.step + 1).tdiv (2 * threads)) nli.chunk :=
      le_max_of_le_right (by omega)
    obtain ⟨m, hm⟩ := Int.eq_ofNat_of_zero_le hnonneg
    refine ⟨m, ?_⟩
    rw [dequeue, SlicerGuidedFor.dequeue, if_neg (by omega)]
    simp only [hm]

/-! ## All slices -/

/-- Calls enough for every iteration and one more come to the last slice, and the slices run the loop. -/
theorem exists_slices (hthreads : 1 ≤ threads) {calls : Nat} (hstep : nli.step ≠ 0) (hchunk : 1 ≤ nli.chunk)
    (hcalls : tripCount nli.lower nli.upper nli.step < calls) :
    ∃ parts, slicer.slices threads calls nli = some parts ∧
      (parts.flatMap fun s => iterations s.lower s.upper s.step) =
        iterations nli.lower nli.upper nli.step ∧
      (tripCount nli.lower nli.upper nli.step = 0 → parts = [nli]) := by
  induction calls generalizing nli with
  | zero => exact absurd hcalls (Nat.not_lt_zero _)
  | succ calls ih =>
    obtain ⟨m, hdequeue⟩ := @exists_dequeue slicer threads nli hstep hchunk hthreads
    rcases dequeueTo_eq hstep m with hlast | ⟨hm, hcut⟩
    · refine ⟨[nli], ?_, List.flatMap_singleton _ _, fun _ => rfl⟩
      simp only [slices, hdequeue, hlast, Option.bind_some, if_true]
    · -- the slice takes at least one iteration from what is pending
      have hnext : nli.lower + m * nli.step + nli.step = nli.lower + (m + 1 : Nat) * nli.step := by
        push_cast
        ring
      have hpending : tripCount (nli.lower + m * nli.step + nli.step) nli.upper nli.step < calls := by
        rw [hnext, tripCount_add hstep]
        omega
      obtain ⟨parts, hparts, hall, -⟩ :=
        @ih { nli with lower := nli.lower + m * nli.step + nli.step } hstep hchunk hpending
      refine ⟨{ nli with upper := nli.lower + m * nli.step } :: parts, ?_, ?_, fun hzero => ?_⟩
      · simp only [slices, hdequeue, hcut, Option.bind_some, Bool.false_eq_true, if_false, hparts,
          Option.map_some]
      · rw [List.flatMap_cons, hall]
        exact iterations_append hstep hm
      · omega

/-- **The slices of a loop.** The calls of `dequeue` of either slicer come to the last slice after at most
one call more than the loop has iterations; run in order, the slices run the iterations of the loop, and the
one slice of an empty loop runs none. -/
theorem slices_partition (slicer : Slicer) (threads : Nat) (nli : LoopInfo) (hstep : nli.step ≠ 0)
    (hchunk : 1 ≤ nli.chunk) (hthreads : 1 ≤ threads) :
    ∃ parts, slicer.slices threads (tripCount nli.lower nli.upper nli.step + 1) nli = some parts ∧
      (parts.flatMap fun s => iterations s.lower s.upper s.step) =
        iterations nli.lower nli.upper nli.step ∧
      (iterations nli.lower nli.upper nli.step = [] →
        ∃ s, parts = [s] ∧ iterations s.lower s.upper s.step = []) := by
  obtain ⟨parts, hparts, hall, hempty⟩ :=
    @exists_slices slicer threads nli hthreads _ hstep hchunk (Nat.lt_succ_self _)
  exact ⟨parts, hparts, hall, fun hnil => ⟨nli, hempty (iterations_eq_nil hnil), hnil⟩⟩

/-- Nine iterations downwards for two threads. -/
theorem slices_down : ∃ parts, guided_for.slices 2 10 ⟨20, 3, -2, false, 1, 0⟩ = some parts ∧
    (parts.flatMap fun s => iterations s.lower s.upper s.step) = iterations 20 3 (-2) ∧
    (iterations 20 3 (-2) = [] → ∃ s, parts = [s] ∧ iterations s.lower s.upper s.step = []) :=
  slices_partition .guided_for 2 ⟨20, 3, -2, false, 1, 0⟩ (by decide) (by decide) (by decide)

end

end Slicer

end OmpSs.Loops
