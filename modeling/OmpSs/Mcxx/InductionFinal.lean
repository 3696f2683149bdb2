import OmpSs.Lib.LoopTrace
import OmpSs.Mcxx.LoopNormalize

/-!
# The induction variable after the loop

Where the induction variable outlives the loop, normalisation and collapsing assign it
`L + ((U - L + S) / S) * S` afterwards (`compute_induction_variable_final_expr`,
`mcxx/src/tl/hlt/hlt-utils.cpp:31`). The quotient is the number of iterations of a loop that has some. Of one
that has none it may be negative, and unlike the number of iterations of a collapsed loop
(`hlt-loop-collapse.cpp:277`) it is not raised to zero: the variable of such a loop moves backwards, except
where the bounds are less than two steps apart (`eval_finalExpr_iff`).
-/

namespace OmpSs.Mcxx.LoopNormalize

open Lib

/-- The variable has this value after the original loop. -/
def ForStatement.Leaves (ρ : Nat → Int) (loop : ForStatement) (w : Int) : Prop :=
  ∃ values, LoopTrace (fun v => some (within (loop.upper_bound.value ρ) (loop.step.value ρ) v))
    (fun v => some [v]) (fun v => some (v + loop.step.value ρ)) (loop.lower_bound.value ρ) values w

section
variable {ρ : Nat → Int} {loop : ForStatement} {lower upper step w : Int}

/-- Every loop with a step comes to its end. -/
theorem leaves_iff (h : loop.step.value ρ ≠ 0) : loop.Leaves ρ w ↔
    w = loop.lower_bound.value ρ + tripCount (loop.lower_bound.value ρ) (loop.upper_bound.value ρ)
      (loop.step.value ρ) * loop.step.value ρ := by
  constructor
  · rintro ⟨values, hvalues⟩
    exact (hvalues.unique (loopTrace_iterations h)).2
  · rintro rfl
    exact ⟨_, loopTrace_iterations h⟩

theorem eval_finalExpr (h : Regular ρ loop) (i : Int) :
    (computeInductionVariableFinalExpr loop).eval ρ i = loop.lower_bound.value ρ +
      (loop.upper_bound.value ρ - loop.lower_bound.value ρ + loop.step.value ρ).tdiv (loop.step.value ρ) *
        loop.step.value ρ := by
  have hvalue : ∀ e ∈ [loop.lower_bound, loop.upper_bound, loop.step], e.eval ρ i = e.value ρ :=
    fun e he => (h.invariant e he).eval_eq i
  rw [← hvalue loop.lower_bound (by simp), ← hvalue loop.upper_bound (by simp),
    ← hvalue loop.step (by simp)]
  rfl

/-- The quotient counts the iterations of a loop that has one. -/
theorem tdiv_eq_tripCount (h : step ≠ 0) (hin : within upper step lower = true) :
    (upper - lower + step).tdiv step = tripCount lower upper step := by
  rw [← tdiv_add_one_eq h hin]
  have hmul : upper - lower + step = upper - lower + 1 * step := by ring
  rw [hmul]
  rcases lt_or_gt_of_ne h with hneg | hpos
  · have hle : upper ≤ lower := by simpa [within, hneg] using hin
    have hflip (a : Int) : a.tdiv step = (-a).tdiv (-step) := (Int.neg_tdiv_neg ..).symm
    rw [hflip, hflip (upper - lower), Int.tdiv_eq_ediv_of_nonneg (by omega),
      Int.tdiv_eq_ediv_of_nonneg (by omega), neg_add, ← mul_neg,
      Int.add_mul_ediv_right _ _ (by omega)]
  · have hle : lower ≤ upper := by simpa [within, not_lt.2 hpos.le] using hin
    rw [Int.tdiv_eq_ediv_of_nonneg (by omega), Int.tdiv_eq_ediv_of_nonneg (by omega),
      Int.add_mul_ediv_right _ _ h]

/-- Without iterations the quotient is zero where the bounds are less than two steps apart. -/
theorem tdiv_eq_zero_iff_of_not_within (h : step ≠ 0) (hout : ¬ within upper step lower = true) :
    (upper - lower + step).tdiv step = 0 ↔ (upper - lower).natAbs < 2 * step.natAbs := by
  have hquot : ((upper - lower + step).tdiv step).natAbs =
      (upper - lower + step).natAbs / step.natAbs := Int.natAbs_tdiv ..
  rw [← Int.natAbs_eq_zero, hquot, Nat.div_eq_zero_iff, Int.natAbs_eq_zero, or_iff_right h]
  unfold within at hout
  split at hout
  · next hneg =>
    rw [decide_eq_true_iff, not_le] at hout
    omega
  · next hpos =>
    rw [decide_eq_true_iff, not_le] at hout
    omega

/-- **The value assigned after the loop is the one the loop leaves** exactly if the loop has an iteration or
its bounds are less than two steps apart. -/
theorem eval_finalExpr_iff (loop : ForStatement) (ρ : Nat → Int) (i : Int) (h : Regular ρ loop) :
    loop.Leaves ρ ((computeInductionVariableFinalExpr loop).eval ρ i) ↔
      within (loop.upper_bound.value ρ) (loop.step.value ρ) (loop.lower_bound.value ρ) = true ∨
        (loop.upper_bound.value ρ - loop.lower_bound.value ρ).natAbs < 2 * (loop.step.value ρ).natAbs := by
  have hstep := h.step_ne_zero
  rw [leaves_iff hstep, eval_finalExpr h, add_right_inj, mul_left_inj' hstep]
  by_cases hin : within (loop.upper_bound.value ρ) (loop.step.value ρ) (loop.lower_bound.value ρ) = true
  · exact iff_of_true (tdiv_eq_tripCount hstep hin) (.inl hin)
  · rw [or_iff_right hin, ← tdiv_eq_zero_iff_of_not_within hstep hin, tripCount, if_neg hin]
    rfl

end

/-- `for (i = 10; i >= n; i -= 3)` with one for `n` leaves minus two. -/
theorem eval_finalExpr_iff_down :
    let loop : ForStatement := ⟨.lit 10, .var 0, .lit (-3), [.induction], false⟩
    (computeInductionVariableFinalExpr loop).eval (fun _ => 1) 0 = -2 ∧ loop.Leaves (fun _ => 1) (-2) := by
  intro loop
  have hregular : Regular (fun _ => 1) loop := by
    refine ⟨?_, ?_, by decide⟩
    · simp [loop, Expr.Invariant]
    · simp [loop, Expr.constant, Expr.value, Expr.eval]
  exact ⟨by decide, (eval_finalExpr_iff loop (fun _ => 1) 0 hregular).2 (.inl (by decide))⟩

/-- `for (i = 10; i <= 5; i++)` leaves ten, and six is assigned. -/
theorem not_leaves_finalExpr :
    let loop : ForStatement := ⟨.lit 10, .lit 5, .lit 1, [.induction], false⟩
    Regular (fun _ => 0) loop ∧ loop.Leaves (fun _ => 0) 10 ∧
      (computeInductionVariableFinalExpr loop).eval (fun _ => 0) 0 = 6 ∧
        ¬ loop.Leaves (fun _ => 0) 6 := by
  intro loop
  have hstep : loop.step.value (fun _ => 0) ≠ 0 := by decide
  refine ⟨⟨?_, ?_, hstep⟩, ?_, by decide, ?_⟩
  · simp [loop, Expr.Invariant]
  · simp [loop, Expr.constant, Expr.value, Expr.eval]
  · exact (leaves_iff hstep).2 (by decide)
  · exact fun hleaves => absurd ((leaves_iff hstep).1 hleaves) (by decide)

end OmpSs.Mcxx.LoopNormalize
