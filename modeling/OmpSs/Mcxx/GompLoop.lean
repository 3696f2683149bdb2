import OmpSs.Lib.LoopSplit
import OmpSs.Mcxx.SlicerLoop

/-!
# Loops over libgomp

A loop under `omp for` asks libgomp for ranges and runs each of them, `lower_for` of
`mcxx/src/tl/omp/gomp/tl-lower-for.cpp`. A range is half-open, so the upper bound is passed as `1 + (upper)`. The
loop over a range tests with `<`, and whether the variables of a `lastprivate` clause are copied out is decided
afterwards, by `if (i == upper)`. The library is assumed to hand out ranges of the half-open loop that it was
asked for, which have the iterations of that loop, each once (`HandsOut`).

`handled_iff` says for which loops every such distribution runs the iterations of the loop, each once, and is
copied out by the thread that ran the last one. For steps below zero both the bound and the test are those of
an upward loop, and a loop over a range leaves its variable behind the upper bound, never at it.
-/

namespace OmpSs.Mcxx.GompLoop

open Lib Cexpr
open LoopHeader (assigned convert_congr)
open SlicerLoop (int64 assigned_add_eq)

/-- A loop `for (i = lower; i <= upper; i += step)`, `i >= upper` for a step below zero; the bounds and the step
have the type of the induction variable. -/
structure Loop where
  num_bytes : Bytes
  lower : Int
  upper : Int
  step : Int
  lastprivate : Bool
  lower_inRange : (IntType.mk num_bytes true).InRange lower
  upper_inRange : (IntType.mk num_bytes true).InRange upper
  step_inRange : (IntType.mk num_bytes true).InRange step
  step_ne_zero : step ≠ 0

/-- What `istart` and `iend` are set to. -/
structure Range where
  istart : Int
  iend : Int
  istart_inRange : int64.InRange istart
  iend_inRange : int64.InRange iend

/-- The iterations of a half-open loop: `i < stop`, `i > stop` for a step below zero. -/
def halfOpen (start stop incr : Int) : List Int :=
  iterations start (if incr < 0 then stop + 1 else stop - 1) incr

def Range.values (incr : Int) (r : Range) : List Int := halfOpen r.istart r.iend incr

/-- A thread of the team: the ranges that it is given, and the indeterminate value that its private copy of the
induction variable has before. -/
structure Thread (var : IntType) where
  ranges : List Range
  initial : Int
  initial_inRange : var.InRange initial

namespace Loop

variable (l : Loop)

def var : IntType := ⟨l.num_bytes, true⟩

/-- The type of an operand of the type of the variable. -/
def promoted : IntType := commonBytes l.var .signedInt

def values : List Int := iterations l.lower l.upper l.step

/-- `1 + (upper)`; `none`: the sum overflows. -/
def stop : Option Int := l.promoted.result (1 + l.upper)

/-- `i += step` -/
def next (i : Int) : Option Int := assigned l.var .add l.promoted l.step i

/-- `for (i = istart; i < iend; i += step)`, with the values for which the body is run and the one that the
variable is left with. Source: `tl-lower-for.cpp:374`. -/
def RunsRange (r : Range) (out : List Int) (i : Int) : Prop :=
  LoopTrace (fun i => some (decide (i < r.iend))) (fun i => some [i]) l.next (l.var.convert r.istart) out i

/-- The ranges of a thread one after the other, from one value of the variable to another. -/
inductive RunsRanges : List Range → Int → List Int → Int → Prop
  | nil {i : Int} : RunsRanges [] i [] i
  | cons {r : Range} {rs : List Range} {i j k : Int} {out rest : List Int} : l.RunsRange r out j →
      RunsRanges rs j rest k → RunsRanges (r :: rs) i (out ++ rest) k

/-- The body is run for the last iteration of the loop. -/
def RunsLast (out : List Int) : Prop := ∃ i, l.values.getLast? = some i ∧ i ∈ out

/-- What a thread does: `lastprivate` variables are copied out, `if (i == upper)`, exactly if it ran the last
iteration. -/
def RunsThread (thread : Thread l.var) (out : List Int) : Prop :=
  ∃ i, l.RunsRanges thread.ranges thread.initial out i ∧
    (l.lastprivate = true → (i = l.upper ↔ l.RunsLast out))

/-- What `GOMP_loop_*_start` and `GOMP_loop_*_next` hand out: ranges that are not empty and have together the
iterations that were asked for. -/
def HandsOut (stop : Int) (team : List (Thread l.var)) : Prop :=
  (∀ thread ∈ team, ∀ r ∈ thread.ranges, r.values l.step ≠ []) ∧
    (team.flatMap fun thread => thread.ranges.flatMap (Range.values l.step)).Perm (halfOpen l.lower stop l.step)

/-- The loop is asked for, and however it is handed out its iterations are run, each once. -/
def Handled : Prop := ∃ stop, l.stop = some stop ∧ ∀ team, l.HandsOut stop team → Yields l.RunsThread team l.values

/-! ## When it is right -/

/-- There is no `lastprivate` clause, the bound does not overflow, and the loop runs upwards without leaving its
type, or has no iterations. -/
def Exact : Prop :=
  l.lastprivate = false ∧ l.promoted.InRange (1 + l.upper) ∧
    (l.values = [] ∨ 0 < l.step ∧ l.var.InRange (lastIteration l.lower l.upper l.step + l.step))

end Loop

namespace Loop

variable {l : Loop} {r : Range} {rs : List Range} {out : List Int} {i j k stop : Int} {n : ℕ}

theorem promoted_sign (l : Loop) : l.promoted.sign = true := by
  unfold promoted var
  cases l.num_bytes <;> rfl

theorem common_promoted (l : Loop) : commonBytes l.var l.promoted = l.promoted := by
  unfold promoted var
  cases l.num_bytes <;> rfl

theorem inRange_promoted (h : l.var.InRange i) : l.promoted.InRange i :=
  have hwide := (commonBytes_signed l.promoted_sign).1
  h.widen l.promoted_sign hwide.1 hwide.2

theorem inRange_int64 (h : l.promoted.InRange i) : int64.InRange i := by
  refine h.widen rfl ?_ fun hsign => ?_
  · unfold promoted var
    cases l.num_bytes <;> decide
  · rw [promoted_sign] at hsign
    cases hsign

theorem stop_eq_some_iff : l.stop = some stop ↔ l.promoted.InRange (1 + l.upper) ∧ stop = 1 + l.upper := by
  rw [Loop.stop, IntType.result, if_pos l.promoted_sign, Option.ite_none_right_eq_some, Option.some_inj, eq_comm]

theorem next_eq (h : l.var.InRange i) : l.next i =
    if l.promoted.InRange (i + l.step) then some (l.var.convert (i + l.step)) else none := by
  rw [next, assigned_add_eq h (inRange_promoted l.step_inRange), common_promoted, promoted_sign]
  split_ifs with hnot hin hin
  · exact absurd hin hnot.2
  · rfl
  · rfl
  · exact absurd ⟨rfl, hin⟩ hnot

theorem next_exact (h : l.var.InRange i) (hnext : l.var.InRange (i + l.step)) : l.next i = some (i + l.step) := by
  rw [next_eq h, if_pos (inRange_promoted hnext), convert_of_inRange hnext]

theorem inRange_of_le {lower upper : Int} (hlower : l.var.InRange lower) (hupper : l.var.InRange upper)
    (h : lower ≤ i) (h' : i ≤ upper) : l.var.InRange i := by
  rw [inRange_of_sign rfl] at *
  omega

/-- A sum that is too large for the type of the variable comes out smaller. -/
theorem convert_add_lt (hi : l.var.InRange i) (hpos : 0 < l.step) (hout : ¬ l.var.InRange (i + l.step)) :
    l.var.convert (i + l.step) < i := by
  have hstep := l.step_inRange
  change l.var.InRange l.step at hstep
  have hpow : (2 : Int) ^ l.var.bits = 2 ^ (l.var.bits - 1) * 2 := by
    rw [← Int.pow_succ, Nat.succ_eq_add_one, Nat.sub_add_cancel l.var.bits_pos]
  have hmod : i + l.step ≡ i + l.step - 2 ^ l.var.bits [ZMOD (2 : Int) ^ l.var.bits] := by
    rw [Int.ModEq, Int.sub_emod_right]
  rw [inRange_of_sign rfl] at hi hstep hout
  rw [convert_congr hmod, convert_of_inRange ((inRange_of_sign rfl).2 (by omega))]
  omega

/-! ## Threads -/

theorem runsRanges_nil_iff : l.RunsRanges [] i out j ↔ out = [] ∧ j = i := by
  constructor
  · rintro ⟨⟩
    exact ⟨rfl, rfl⟩
  · rintro ⟨rfl, rfl⟩
    exact .nil

theorem runsRanges_singleton_iff : l.RunsRanges [r] i out j ↔ l.RunsRange r out j := by
  constructor
  · intro h
    cases h with
    | cons hrange hrest =>
      obtain ⟨rfl, rfl⟩ := runsRanges_nil_iff.1 hrest
      rwa [List.append_nil]
  · intro h
    rw [← List.append_nil out]
    exact .cons h .nil

theorem exists_runsRanges (h : ∀ r ∈ rs, ∃ j, l.RunsRange r (r.values l.step) j) (i : Int) :
    ∃ j, l.RunsRanges rs i (rs.flatMap (Range.values l.step)) j := by
  induction rs generalizing i with
  | nil => exact ⟨i, .nil⟩
  | cons r rs ih =>
    obtain ⟨j, hrange⟩ := h r List.mem_cons_self
    obtain ⟨k, hrest⟩ := ih (fun r hr => h r (List.mem_cons_of_mem _ hr)) j
    exact ⟨k, .cons hrange hrest⟩

/-- Upwards the half-open range up to `1 + (upper)` is the closed one. -/
theorem halfOpen_eq (hpos : 0 < l.step) : halfOpen l.lower (1 + l.upper) l.step = l.values := by
  rw [halfOpen, if_neg (not_lt.2 hpos.le), add_sub_cancel_left, values]

theorem halfOpen_eq_nil (h : l.values = []) : halfOpen l.lower (1 + l.upper) l.step = [] := by
  rcases lt_or_gt_of_ne l.step_ne_zero with hneg | hpos
  · rw [values, iterations_eq_nil_iff, within, if_pos hneg, decide_eq_true_eq] at h
    rw [halfOpen, if_pos hneg, iterations_eq_nil_iff, within, if_pos hneg, decide_eq_true_eq]
    omega
  · rw [halfOpen_eq hpos, h]

/-- A range of an upward loop is run. -/
theorem exists_runsRange (hpos : 0 < l.step) (hne : r.values l.step ≠ [])
    (hvalues : ∀ v ∈ r.values l.step, l.var.InRange v ∧ l.var.InRange (v + l.step)) :
    ∃ i, l.RunsRange r (r.values l.step) i := by
  have hr : r.values l.step = iterations r.istart (r.iend - 1) l.step := by
    rw [Range.values, halfOpen, if_neg (not_lt.2 hpos.le)]
  rw [hr] at hne hvalues ⊢
  have hstart := (hvalues _ (lower_mem hpos.ne' hne)).1
  have hvisits := visits_upward hpos fun v hv => next_exact (hvalues v hv).1 (hvalues v hv).2
  simp only [Int.le_sub_one_iff] at hvisits
  obtain ⟨i, htrace⟩ := hvisits
  exact ⟨i, by rwa [RunsRange, convert_of_inRange hstart]⟩

/-- Where it is right, each thread runs the iterations of its ranges. -/
theorem yields_of_exact {team : List (Thread l.var)} (h : l.Exact) (hands : l.HandsOut (1 + l.upper) team) :
    Yields l.RunsThread team l.values := by
  obtain ⟨hcopy, -, hvalues⟩ := h
  have hopen : halfOpen l.lower (1 + l.upper) l.step = l.values := by
    rcases hvalues with hnil | ⟨hpos, -⟩
    · rw [halfOpen_eq_nil hnil, hnil]
    · exact halfOpen_eq hpos
  have hmem : ∀ thread ∈ team, ∀ r ∈ thread.ranges, ∀ v ∈ r.values l.step, v ∈ l.values := by
    intro thread hthread r hr v hv
    rw [← hopen]
    exact hands.2.subset (List.mem_flatMap.2 ⟨thread, hthread, List.mem_flatMap.2 ⟨r, hr, hv⟩⟩)
  refine yields_of_forall (hopen ▸ hands.2) fun thread hthread => ?_
  have hranges : ∀ r ∈ thread.ranges, ∃ i, l.RunsRange r (r.values l.step) i := by
    intro r hr
    have hne := hands.1 thread hthread r hr
    have hall := hmem thread hthread r hr
    obtain ⟨v, hv⟩ := List.exists_mem_of_ne_nil _ hne
    rcases hvalues with hnil | ⟨hpos, hlast⟩
    · exact absurd (hall v hv) (hnil ▸ List.not_mem_nil)
    · refine exists_runsRange hpos hne fun v hv => ?_
      have hbounds := bounds_of_mem hpos (hall v hv)
      have hin := inRange_of_le l.lower_inRange hlast hbounds.1 (by omega)
      exact ⟨hin, inRange_of_le hin hlast (by omega) (by omega)⟩
  obtain ⟨i, hruns⟩ := exists_runsRanges hranges thread.initial
  refine ⟨i, hruns, fun h => ?_⟩
  rw [hcopy] at h
  cases h

/-! ## One thread -/

theorem handsOut_nil (h : halfOpen l.lower stop l.step = []) (hi : l.var.InRange i) :
    l.HandsOut stop [⟨[], i, hi⟩] := by
  refine ⟨fun thread hthread r hr => ?_, ?_⟩
  · rw [List.mem_singleton.1 hthread] at hr
    cases hr
  · rw [h]
    rfl

/-- All that is asked for, in one range. -/
def wholeRange (l : Loop) (h : l.promoted.InRange (1 + l.upper)) : Range :=
  ⟨l.lower, 1 + l.upper, inRange_int64 (inRange_promoted l.lower_inRange), inRange_int64 h⟩

theorem handsOut_wholeRange (hin : l.promoted.InRange (1 + l.upper))
    (h : halfOpen l.lower (1 + l.upper) l.step ≠ []) (hi : l.var.InRange i) :
    l.HandsOut (1 + l.upper) [⟨[l.wholeRange hin], i, hi⟩] := by
  refine ⟨fun thread hthread r hr => ?_, ?_⟩
  · rw [List.mem_singleton.1 hthread] at hr
    rw [List.mem_singleton.1 hr]
    exact h
  · rw [List.flatMap_singleton, List.flatMap_singleton]
    rfl

theorem runsRange_wholeRange {hin : l.promoted.InRange (1 + l.upper)} : l.RunsRange (l.wholeRange hin) out i ↔
    LoopTrace (fun i => some (decide (i < 1 + l.upper))) (fun i => some [i]) l.next l.lower out i := by
  have hlower : l.var.convert (l.wholeRange hin).istart = l.lower := convert_of_inRange l.lower_inRange
  rw [RunsRange, hlower]
  rfl

/-- A loop whose increment overflows after the last iteration is not left there. -/
theorem inRange_last (hpos : 0 < l.step) (hne : l.values ≠ []) (hperm : out.Perm l.values)
    (hvisits : Visits (fun i => decide (i < 1 + l.upper)) l.next l.lower out) :
    l.var.InRange (lastIteration l.lower l.upper l.step + l.step) := by
  have hlast := lastIteration_upward hpos hne
  have hin : ∀ v ∈ l.values, l.var.InRange v := fun v hv =>
    have hbounds := bounds_of_mem hpos hv
    inRange_of_le l.lower_inRange l.upper_inRange hbounds.1 (hbounds.2.trans hlast.2.1)
  obtain ⟨-, u, hu, hend⟩ := ends_of_visits hpos.ne' hne hvisits hperm fun v hv hsucc =>
    next_exact (hin v hv) (hin _ hsucc)
  have hlastIn := hin _ (lastIteration_mem hpos.ne' hne)
  rw [next_eq hlastIn, Option.ite_none_right_eq_some] at hu
  by_contra hover
  have hlt := convert_add_lt hlastIn hpos hover
  rw [Option.some.inj hu.2] at hlt
  have hle := of_decide_eq_false hend
  omega

theorem runsLast_of_perm (hne : l.values ≠ []) (hperm : out.Perm l.values) : l.RunsLast out :=
  ⟨l.values.getLast hne, List.getLast?_eq_some_getLast hne, hperm.mem_iff.2 (List.getLast_mem hne)⟩

theorem not_runsLast_nil : ¬ l.RunsLast [] := by
  rintro ⟨i, -, hi⟩
  cases hi

theorem exact_of_handled (h : l.Handled) : l.Exact := by
  obtain ⟨stop, hstop, hteams⟩ := h
  obtain ⟨hin, rfl⟩ := stop_eq_some_iff.1 hstop
  by_cases hopen : halfOpen l.lower (1 + l.upper) l.step = []
  · -- A thread that is given nothing, with the upper bound in its variable.
    obtain ⟨out, ⟨i, hruns, hcopy⟩, hperm⟩ :=
      yields_singleton_iff.1 (hteams _ (handsOut_nil hopen l.upper_inRange))
    obtain ⟨rfl, rfl⟩ := runsRanges_nil_iff.1 hruns
    refine ⟨Bool.eq_false_iff.2 fun hlast => ?_, hin, .inl (List.nil_perm.1 hperm)⟩
    exact not_runsLast_nil ((hcopy hlast).1 rfl)
  · -- A thread that is given everything.
    have hne : l.values ≠ [] := fun hnil => hopen (halfOpen_eq_nil hnil)
    obtain ⟨out, ⟨i, hruns, hcopy⟩, hperm⟩ :=
      yields_singleton_iff.1 (hteams _ (handsOut_wholeRange hin hopen l.lower_inRange))
    have htrace := runsRange_wholeRange.1 (runsRanges_singleton_iff.1 hruns)
    refine ⟨Bool.eq_false_iff.2 fun hlast => ?_, hin, .inr ?_⟩
    · -- The variable is behind the upper bound.
      have hbehind := of_decide_eq_false (Option.some.inj htrace.test_eq_false)
      have hupper := (hcopy hlast).2 (runsLast_of_perm hne hperm)
      omega
    · rcases lt_or_gt_of_ne l.step_ne_zero with hneg | hpos
      · -- The first test fails.
        rw [halfOpen, if_pos hneg, iterations_eq_nil_iff, not_not, within, if_pos hneg, decide_eq_true_eq] at hopen
        have hnone := htrace.unique (.stop (congrArg some (decide_eq_false (by omega))))
        exact absurd (List.nil_perm.1 (hnone.1 ▸ hperm)) hne
      · exact ⟨hpos, inRange_last hpos hne hperm ⟨i, htrace⟩⟩

/-- **A loop over libgomp is right** exactly where its header is as the generated code takes it to be and
nothing is to be copied out. -/
theorem handled_iff (l : Loop) : l.Handled ↔ l.Exact :=
  ⟨exact_of_handled, fun h => ⟨1 + l.upper, stop_eq_some_iff.2 ⟨h.2.1, rfl⟩, fun _ => yields_of_exact h⟩⟩

/-- Four iterations, and a `lastprivate` clause. -/
def lastprivateLoop : Loop where
  num_bytes := .four
  lower := 0
  upper := 3
  step := 1
  lastprivate := true
  lower_inRange := by decide
  upper_inRange := by decide
  step_inRange := by decide
  step_ne_zero := Int.one_ne_zero

/-- A thread that runs all of them leaves its variable at 4, and nobody copies out. -/
theorem not_handled_lastprivateLoop : ¬ lastprivateLoop.Handled := by
  rintro ⟨stop, hstop, hteams⟩
  obtain ⟨hin, rfl⟩ := stop_eq_some_iff.1 hstop
  obtain ⟨out, ⟨i, hruns, hcopy⟩, hperm⟩ := yields_singleton_iff.1
    (hteams _ (handsOut_wholeRange hin (by decide) lastprivateLoop.lower_inRange))
  have htrace := runsRange_wholeRange.1 (runsRanges_singleton_iff.1 hruns)
  have hbehind := of_decide_eq_false (Option.some.inj htrace.test_eq_false)
  have hupper := (hcopy rfl).2 (runsLast_of_perm (by decide) hperm)
  omega

end Loop

end OmpSs.Mcxx.GompLoop
