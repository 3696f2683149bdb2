import OmpSs.Lib.LoopSplit
import OmpSs.Mcxx.SlicerLoop

/-!
# Loops over the Intel run time

A loop under `omp for` or `taskloop` passes its bounds and its step to the Intel run time and runs what it gets
back: `lower_for` of `mcxx/src/tl/omp/intel/tl-lower-for.cpp`, in a static variant and in one that asks for a next
part as long as there is one, and `move_for_loop_to_task` of `tl-lower-taskloop.cpp`. Each part is run by a loop
with the test `<=`; for a `taskloop` the bounds and the step have been through fields of type `kmp_uint64`. The
run time is assumed to split the loop that it is given into loops of the same form (`HandsOut`).

`handled_lowering_iff` says for which loops with an `int` variable every such split runs the iterations of the
loop, each once. A loop with a step below zero does not, unless the run time finds out first that it has no
iterations, and but for one loop of a task; in a task the bounds are compared as unsigned numbers, so a loop that
starts below zero has to stay there.
-/

namespace OmpSs.Mcxx.IntelLoop

open Lib Cexpr
open LoopHeader (assigned inRange_convert convert_modEq convert_congr)
open CollapseCount (zero_inRange)
open SlicerLoop (int64 assigned_add_eq)

def uint64 : IntType := ⟨.eight, false⟩

/-- A loop `for (i = lower; i <= upper; i += step)`, `i >= upper` for a step below zero, with an `int i`. -/
structure Loop where
  lower : Int
  upper : Int
  step : Int
  lower_inRange : IntType.signedInt.InRange lower
  upper_inRange : IntType.signedInt.InRange upper
  step_inRange : IntType.signedInt.InRange step
  step_ne_zero : step ≠ 0

/-- What the loop is lowered to: a static or another schedule of `omp for`, or a `taskloop`. -/
inductive Lowering
  | static
  | dispatch
  | taskloop
deriving DecidableEq

/-- The bounds of a part: the variables `lower` and `upper`, or the fields `lb` and `ub`, read as signed numbers. -/
def Lowering.bounds : Lowering → IntType
  | .static => .signedInt
  | .dispatch => .signedInt
  | .taskloop => int64

namespace Loop

variable (l : Loop)

def values : List Int := iterations l.lower l.upper l.step

/-- `for (i = lower; i <= upper; i += step)`, for `kmp_int32` bounds and step. Source: `tl-lower-for.cpp:351`,
`:422`. -/
def RunsFor (p : LoopPart) (out : List Int) : Prop :=
  Visits (fun i => decide (i ≤ p.upper)) (assigned .signedInt .add .signedInt l.step) p.lower out

/-- The same loop for `kmp_uint64` bounds and step. Source: `tl-lower-taskloop.cpp:69`. -/
def RunsTask (p : LoopPart) (out : List Int) : Prop :=
  Visits (fun i => decide (uint64.convert i ≤ uint64.convert p.upper))
    (assigned .signedInt .add uint64 (uint64.convert l.step)) (IntType.signedInt.convert (uint64.convert p.lower)) out

def RunsPart : Lowering → LoopPart → List Int → Prop
  | .static => l.RunsFor
  | .dispatch => l.RunsFor
  | .taskloop => l.RunsTask

/-- What the run time hands out: parts that have together the iterations of the loop. With a static schedule
each thread is given a part, perhaps one without iterations. -/
def HandsOut (lowering : Lowering) (parts : List LoopPart) : Prop :=
  (∀ p ∈ parts, lowering.bounds.InRange p.lower ∧ lowering.bounds.InRange p.upper) ∧
    (lowering ≠ .static → ∀ p ∈ parts, p.values l.step ≠ []) ∧ Splits l.step parts l.lower l.upper

/-- However the loop is handed out its iterations are run, each once. -/
def Handled (lowering : Lowering) : Prop :=
  ∀ parts, l.HandsOut lowering parts → Yields (l.RunsPart lowering) parts l.values

/-! ## When it is right -/

/-- The value behind the last iteration. -/
def behind : Int := lastIteration l.lower l.upper l.step + l.step

/-- The loop runs upwards without overflow at its end, or has no iterations. In a task there is no overflow, but
the loop must not pass from below zero to zero; one loop with a step below zero ends because -1 is large. -/
def Exact : Lowering → Prop
  | .static => 0 < l.step ∧ (l.values ≠ [] → IntType.signedInt.InRange l.behind)
  | .dispatch => l.values ≠ [] → 0 < l.step ∧ IntType.signedInt.InRange l.behind
  | .taskloop => l.values ≠ [] → 0 < l.step ∧ (0 ≤ l.lower ∨ l.behind < 0) ∨
      l.lower = 0 ∧ l.upper = 0 ∧ l.step = -1

end Loop

/-! ## Words -/

section
variable {i x y : Int}

theorem inRange_signedInt : IntType.signedInt.InRange x ↔ -2147483648 ≤ x ∧ x < 2147483648 :=
  CollapseCount.inRange_int_iff

theorem inRange_int64 : int64.InRange x ↔ -9223372036854775808 ≤ x ∧ x < 9223372036854775808 :=
  inRange_of_sign rfl

theorem convert_signedInt (x : Int) :
    IntType.signedInt.convert x = (x + 2147483648) % 4294967296 - 2147483648 :=
  CollapseCount.convert_int32 true x

theorem convert_uint64 (x : Int) : uint64.convert x = x % 18446744073709551616 := convert_unsigned rfl x

/-- As words, the values below zero come last. -/
theorem convert_uint64_le_iff (hx : int64.InRange x) (hy : int64.InRange y) :
    uint64.convert x ≤ uint64.convert y ↔ (0 ≤ x ∧ y < 0) ∨ ((x < 0 ↔ y < 0) ∧ x ≤ y) := by
  rw [inRange_int64] at hx hy
  rw [convert_uint64, convert_uint64]
  omega

end

namespace Loop

variable {l : Loop} {p : LoopPart} {parts : List LoopPart} {i : Int}

theorem next_for (hi : IntType.signedInt.InRange i) : assigned .signedInt .add .signedInt l.step i =
    if IntType.signedInt.InRange (i + l.step) then some (i + l.step) else none := by
  rw [assigned_add_eq hi l.step_inRange]
  split_ifs with hnot hin hin
  · exact absurd hin hnot.2
  · rfl
  · rw [convert_of_inRange hin]
  · exact absurd ⟨rfl, hin⟩ hnot

theorem next_task (hi : IntType.signedInt.InRange i) :
    assigned .signedInt .add uint64 (uint64.convert l.step) i = some (IntType.signedInt.convert (i + l.step)) := by
  rw [assigned_add_eq hi (inRange_convert uint64 l.step), if_neg fun h => Bool.false_ne_true h.1]
  have hstep : uint64.convert l.step ≡ l.step [ZMOD (2 : Int) ^ IntType.signedInt.bits] :=
    (convert_modEq uint64 l.step).of_dvd (pow_dvd_pow 2 (by decide))
  rw [convert_congr (hstep.add_left i)]

/-! ## Splits that are handed out -/

/-- A part that is the whole loop, perhaps with another bound. -/
theorem handsOut_singleton {lowering : Lowering}
    (hbounds : lowering.bounds.InRange p.lower ∧ lowering.bounds.InRange p.upper)
    (hne : lowering ≠ .static → l.values ≠ []) (hvalues : p.values l.step = l.values) : l.HandsOut lowering [p] := by
  refine ⟨fun q hq => ?_, fun h q hq => ?_, ?_⟩
  · rw [List.mem_singleton.1 hq]
    exact hbounds
  · rw [List.mem_singleton.1 hq, hvalues]
    exact hne h
  · rw [Splits, List.flatMap_singleton, hvalues, values]

/-- Nothing is handed out of a loop without iterations, except to the threads of a static schedule. -/
theorem eq_nil_of_handsOut {lowering : Lowering} (h : l.HandsOut lowering parts) (hne : lowering ≠ .static)
    (hnil : l.values = []) : parts = [] := by
  refine List.eq_nil_iff_forall_not_mem.2 fun p hp => ?_
  obtain ⟨v, hv⟩ := List.exists_mem_of_ne_nil _ (h.2.1 hne p hp)
  have hmem := h.2.2.mem hp hv
  rw [← values, hnil] at hmem
  cases hmem

theorem inRange_values {v : Int} (hv : v ∈ l.values) : IntType.signedInt.InRange v := by
  have hbetween := between_of_mem l.step_ne_zero hv
  have hlower := l.lower_inRange
  have hupper := l.upper_inRange
  rw [inRange_signedInt] at *
  omega

/-! ## Loops of the run time's type -/

/-- The step behind the last iteration does not overflow. -/
theorem yields_for (hparts : Splits l.step parts l.lower l.upper) (hpos : 0 < l.step)
    (hbehind : l.values ≠ [] → IntType.signedInt.InRange l.behind) : Yields l.RunsFor parts l.values := by
  refine yields_of_forall hparts fun p hp => visits_upward hpos fun v hv => ?_
  have hmem : v ∈ l.values := hparts.mem hp hv
  have hin := inRange_values hmem
  rw [next_for hin, if_pos]
  have hend := hbehind (List.ne_nil_of_mem hmem)
  have hbounds := bounds_of_mem hpos hmem
  rw [inRange_signedInt] at hin hend ⊢
  rw [behind] at hend
  omega

/-- What the whole loop as a part tells. -/
theorem for_ends {out : List Int} (h : l.RunsFor ⟨l.lower, l.upper⟩ out) (hperm : out.Perm l.values)
    (hne : l.values ≠ []) : 0 < l.step ∧ IntType.signedInt.InRange l.behind := by
  have hnext : ∀ v ∈ l.values, v + l.step ∈ l.values →
      assigned .signedInt .add .signedInt l.step v = some (v + l.step) := by
    intro v hv hsucc
    rw [next_for (inRange_values hv), if_pos (inRange_values hsucc)]
  obtain ⟨-, u, hu, hend⟩ := ends_of_visits l.step_ne_zero hne h hperm hnext
  have hlast := inRange_values (lastIteration_mem l.step_ne_zero hne)
  rw [next_for hlast, Option.ite_none_right_eq_some] at hu
  obtain ⟨hbehind, hu⟩ := hu
  rw [← Option.some.inj hu] at hend
  have hupper := of_decide_eq_false hend
  refine ⟨lt_of_le_of_ne (not_lt.1 fun hneg => hupper ?_) l.step_ne_zero.symm, hbehind⟩
  exact (lastIteration_downward hneg hne).2.2.le

/-! ## Tasks -/

/-- A part of an upward loop. -/
theorem runsTask_upward (hpos : 0 < l.step) (hne : p.values l.step ≠ []) (hsub : p.values l.step ⊆ l.values)
    (hp : int64.InRange p.upper) (h : 0 ≤ l.lower ∨ l.behind < 0) : l.RunsTask p (p.values l.step) := by
  have hin : ∀ v ∈ p.values l.step, IntType.signedInt.InRange v := fun v hv => inRange_values (hsub hv)
  have hbounds : ∀ v ∈ p.values l.step, l.lower ≤ v ∧ v + l.step ≤ l.behind := by
    intro v hv
    have hmem := bounds_of_mem hpos (hsub hv)
    exact ⟨hmem.1, add_le_add_left hmem.2 l.step⟩
  have hend := lastIteration_upward hpos hne
  have hlast := lastIteration_mem hpos.ne' hne
  have hlastIn := inRange_signedInt.1 (hin _ hlast)
  have hlastBounds := hbounds _ hlast
  have hstep := inRange_signedInt.1 l.step_inRange
  rw [inRange_int64] at hp
  have hstart : IntType.signedInt.convert (uint64.convert p.lower) = p.lower := by
    have hlower := inRange_signedInt.1 (hin _ (lower_mem hpos.ne' hne))
    rw [convert_signedInt, convert_uint64]
    omega
  rw [RunsTask, hstart]
  refine visits_of_ends hpos.ne' hne (fun v hv => decide_eq_true ?_) (fun v hv hsucc => ?_)
    ⟨_, next_task (hin _ hlast), ?_⟩
  · have hv' := bounds_of_mem hpos hv
    have hvIn := inRange_signedInt.1 (hin v hv)
    have hvBounds := hbounds v hv
    rw [convert_uint64, convert_uint64]
    omega
  · rw [next_task (hin v hv), convert_of_inRange (hin _ hsucc)]
  · refine decide_eq_false ?_
    rw [convert_signedInt, convert_uint64, convert_uint64]
    omega

/-- The one iteration of a loop from 0 to 0, downwards by one. -/
theorem runsTask_zero (h : l.lower = 0 ∧ l.upper = 0 ∧ l.step = -1) (hne : p.values l.step ≠ [])
    (hsub : p.values l.step ⊆ l.values) : l.RunsTask p (p.values l.step) := by
  have hzero : ∀ v ∈ p.values l.step, v = 0 := by
    intro v hv
    have hbetween := between_of_mem l.step_ne_zero (hsub hv)
    omega
  have hlast := lastIteration_mem l.step_ne_zero hne
  have hend := lastIteration_downward (by omega) hne
  have hlower := hzero _ (lower_mem l.step_ne_zero hne)
  rw [hzero _ hlast] at hend
  have hupper : p.upper = 0 := by omega
  have hstart : IntType.signedInt.convert (uint64.convert p.lower) = p.lower := by
    rw [hlower]
    decide
  rw [RunsTask, hstart, hupper]
  refine visits_of_ends l.step_ne_zero hne (fun v hv => ?_) (fun v hv hsucc => ?_) ⟨-1, ?_, ?_⟩
  · rw [hzero v hv]
    decide
  · have hstep := hzero _ hsucc
    rw [hzero v hv] at hstep
    omega
  · rw [hzero _ hlast, next_task (by decide), h.2.2]
    rfl
  · decide

/-- What a part tells that has all iterations. -/
theorem task_ends {out : List Int} (h : l.RunsTask p out) (hperm : out.Perm l.values) (hne : l.values ≠ [])
    (hlower : p.lower = l.lower) : (∀ v ∈ l.values, uint64.convert v ≤ uint64.convert p.upper) ∧
      uint64.convert p.upper < uint64.convert (IntType.signedInt.convert l.behind) := by
  have hstart : IntType.signedInt.convert (uint64.convert p.lower) = l.lower := by
    have hin := inRange_signedInt.1 l.lower_inRange
    rw [hlower, convert_signedInt, convert_uint64]
    omega
  have hnext : ∀ v ∈ l.values, v + l.step ∈ l.values →
      assigned .signedInt .add uint64 (uint64.convert l.step) v = some (v + l.step) := by
    intro v hv hsucc
    rw [next_task (inRange_values hv), convert_of_inRange (inRange_values hsucc)]
  rw [RunsTask, hstart] at h
  obtain ⟨htest, u, hu, hend⟩ := ends_of_visits l.step_ne_zero hne h hperm hnext
  rw [next_task (inRange_values (lastIteration_mem l.step_ne_zero hne))] at hu
  rw [← Option.some.inj hu] at hend
  exact ⟨fun v hv => of_decide_eq_true (htest v hv), not_le.1 (of_decide_eq_false hend)⟩

/-- The bound of a single iteration downwards may be anywhere before the next value. -/
theorem values_eq_of_single (hneg : l.step < 0) (h : l.lower = l.upper) :
    iterations l.lower (l.lower + l.step + 1) l.step = l.values := by
  have hsingle : ∀ upper, upper ≤ l.lower → l.lower + l.step < upper →
      iterations l.lower upper l.step = [l.lower] := by
    intro upper hin hout
    refine iterations_eq_singleton hneg.ne ?_ ?_
    · rw [within, if_pos hneg]
      exact decide_eq_true hin
    · rw [within, if_pos hneg]
      exact decide_eq_false (not_le.2 hout)
  rw [values, hsingle _ (by omega) (by omega), hsingle _ (by omega) (by omega)]

theorem exact_task (h : l.Handled .taskloop) : l.Exact .taskloop := by
  intro hne
  have hends : ∀ upper, int64.InRange upper → iterations l.lower upper l.step = l.values →
      (∀ v ∈ l.values, uint64.convert v ≤ uint64.convert upper) ∧
        uint64.convert upper < uint64.convert (IntType.signedInt.convert l.behind) := by
    intro upper hupper hvalues
    have hlower : int64.InRange l.lower := l.lower_inRange.widen rfl (by decide) nofun
    have hhands : l.HandsOut .taskloop [⟨l.lower, upper⟩] :=
      handsOut_singleton ⟨hlower, hupper⟩ (fun _ => hne) hvalues
    obtain ⟨out, hruns, hperm⟩ := yields_singleton_iff.1 (h _ hhands)
    exact task_ends hruns hperm hne rfl
  have hin : ∀ {v}, IntType.signedInt.InRange v → int64.InRange v := fun hv => hv.widen rfl (by decide) nofun
  have hlastMem := lastIteration_mem l.step_ne_zero hne
  have hwhole := hends l.upper (hin l.upper_inRange) rfl
  have hfirst := (convert_uint64_le_iff (hin l.lower_inRange) (hin l.upper_inRange)).1
    (hwhole.1 _ (lower_mem l.step_ne_zero hne))
  have hlast := (convert_uint64_le_iff (hin (inRange_values hlastMem)) (hin l.upper_inRange)).1
    (hwhole.1 _ hlastMem)
  have hend := (convert_uint64_le_iff (hin (inRange_convert _ _)) (hin l.upper_inRange)).not.1 hwhole.2.not_ge
  rw [convert_signedInt, behind] at hend
  have hlower := inRange_signedInt.1 l.lower_inRange
  have hupper := inRange_signedInt.1 l.upper_inRange
  have hstep := inRange_signedInt.1 l.step_inRange
  rcases lt_or_gt_of_ne l.step_ne_zero with hneg | hpos
  · have hbounds := lastIteration_downward hneg hne
    have hsingle : l.lower = l.upper := by omega
    have hup : int64.InRange (l.lower + l.step + 1) := inRange_int64.2 (by omega)
    have hother := hends (l.lower + l.step + 1) hup (values_eq_of_single hneg hsingle)
    have hfirst' := (convert_uint64_le_iff (hin l.lower_inRange) hup).1
      (hother.1 _ (lower_mem l.step_ne_zero hne))
    have hend' := (convert_uint64_le_iff (hin (inRange_convert _ _)) hup).not.1 hother.2.not_ge
    rw [convert_signedInt, behind] at hend'
    exact .inr (by omega)
  · have hbounds := lastIteration_upward hpos hne
    refine .inl ⟨hpos, ?_⟩
    rw [behind]
    omega

/-! ## Which loops are right -/

theorem handled_of_exact {lowering : Lowering} (h : l.Exact lowering) : l.Handled lowering := by
  intro parts hands
  cases lowering with
  | static => exact yields_for hands.2.2 h.1 h.2
  | dispatch =>
    by_cases hne : l.values = []
    · rw [eq_nil_of_handsOut hands nofun hne, hne]
      exact yields_nil_iff.2 rfl
    · exact yields_for hands.2.2 (h hne).1 fun _ => (h hne).2
  | taskloop =>
    refine yields_of_forall hands.2.2 fun p hp => ?_
    have hpne := hands.2.1 nofun p hp
    have hsub : p.values l.step ⊆ l.values := fun v hv => hands.2.2.mem hp hv
    obtain ⟨v, hv⟩ := List.exists_mem_of_ne_nil _ hpne
    rcases h (List.ne_nil_of_mem (hsub hv)) with ⟨hpos, hside⟩ | hzero
    · exact runsTask_upward hpos hpne hsub (hands.1 p hp).2 hside
    · exact runsTask_zero hzero hpne hsub

/-- The loop in one part. -/
theorem exists_runsFor {lowering : Lowering} (h : l.Handled lowering) (hruns : l.RunsPart lowering = l.RunsFor)
    (hbounds : lowering.bounds = .signedInt) (hne : lowering ≠ .static → l.values ≠ []) :
    ∃ out, l.RunsFor ⟨l.lower, l.upper⟩ out ∧ out.Perm l.values := by
  have hin : lowering.bounds.InRange l.lower ∧ lowering.bounds.InRange l.upper := by
    rw [hbounds]
    exact ⟨l.lower_inRange, l.upper_inRange⟩
  have hhands : l.HandsOut lowering [⟨l.lower, l.upper⟩] := handsOut_singleton hin hne rfl
  exact hruns ▸ yields_singleton_iff.1 (h _ hhands)

/-- A static schedule runs a loop downwards that has no iterations. -/
theorem step_pos_of_static (hruns : l.RunsFor ⟨l.lower, l.upper⟩ []) (hnil : l.values = []) : 0 < l.step := by
  have htest := visits_nil_iff.1 hruns
  have hout := of_decide_eq_false htest
  rw [values, iterations_eq_nil_iff] at hnil
  by_contra hpos
  rw [within, if_pos (lt_of_le_of_ne (not_lt.1 hpos) l.step_ne_zero), decide_eq_true_eq] at hnil
  exact hout (le_of_not_ge hnil)

/-- **A loop over the Intel run time is right**, however it is split, exactly in these cases. -/
theorem handled_lowering_iff (lowering : Lowering) (l : Loop) : l.Handled lowering ↔ l.Exact lowering := by
  refine ⟨fun h => ?_, handled_of_exact⟩
  cases lowering with
  | static =>
    obtain ⟨out, hruns, hperm⟩ := exists_runsFor h rfl rfl nofun
    refine ⟨?_, fun hne => (for_ends hruns hperm hne).2⟩
    by_cases hne : l.values = []
    · obtain rfl := List.perm_nil.1 (hne ▸ hperm)
      exact step_pos_of_static hruns hne
    · exact (for_ends hruns hperm hne).1
  | dispatch =>
    intro hne
    obtain ⟨out, hruns, hperm⟩ := exists_runsFor h rfl rfl fun _ => hne
    exact for_ends hruns hperm hne
  | taskloop => exact exact_task h

/-- Two iterations, downwards. -/
def countdown : Loop where
  lower := 1
  upper := 0
  step := -1
  lower_inRange := by decide
  upper_inRange := zero_inRange
  step_inRange := by decide
  step_ne_zero := by decide

/-- None of them is run by the one loop of a thread, because 1 is not below 0. -/
theorem not_handled_countdown : ¬ countdown.Handled .static := by
  intro h
  have hhands : countdown.HandsOut .static [⟨1, 0⟩] := handsOut_singleton (by decide) nofun rfl
  obtain ⟨out, hruns, hperm⟩ := yields_singleton_iff.1 (h _ hhands)
  have hruns : countdown.RunsFor ⟨1, 0⟩ out := hruns
  obtain ⟨hpos, -⟩ := for_ends hruns hperm (by decide)
  exact absurd hpos (by decide)

end Loop

end OmpSs.Mcxx.IntelLoop
