import OmpSs.Mcxx.LoopCollapse

/-!
# Loop normalisation

`LoopNormalize::normalize` (`mcxx/src/tl/hlt/hlt-loop-normalize.cpp:142`) turns the loop over
`L, L + S, .., U` into one over `0, 1, .., (U - L) / S` whose body reads `S * i + L` for the index. The
division truncates, so for a loop without iterations the new bound is negative only if the bounds are a step
apart: `i = 5; i <= 4; i += 2` becomes a loop that runs once. `normalize_iff` is the exact condition.

Integers are exact. The bounds and the step are expressions over variables that the loop does not change.
-/

namespace OmpSs.Mcxx.LoopNormalize

open Lib
open LoopCollapse (Language)

/-! ## Loops -/

inductive Op
  | add
  | minus
  | mul
  | div
  | lowerOrEqualThan
deriving DecidableEq

/-- Expressions over the induction variable and other variables. A node may have a constant, the value the
compiler computed for it. -/
inductive Expr
  | lit (v : Int)
  | induction
  | var (x : Nat)
  | binary (op : Op) (cv : Option Int) (lhs rhs : Expr)
deriving DecidableEq

/-- The constant of a node. Source: `is_constant` and `get_constant`. -/
def Expr.constant : Expr → Option Int
  | .lit v => some v
  | .induction => none
  | .var _ => none
  | .binary _ cv _ _ => cv

/-- The division of C. By zero, where C has no result, it gives zero. -/
def Op.eval : Op → Int → Int → Int
  | .add, a, b => a + b
  | .minus, a, b => a - b
  | .mul, a, b => a * b
  | .div, a, b => a.tdiv b
  | .lowerOrEqualThan, a, b => if a ≤ b then 1 else 0

/-- The value with `i` for the induction variable. -/
def Expr.eval (ρ : Nat → Int) (i : Int) : Expr → Int
  | .lit v => v
  | .induction => i
  | .var x => ρ x
  | .binary op _ l r => op.eval (l.eval ρ i) (r.eval ρ i)

/-- The expression does not read the induction variable. -/
def Expr.Invariant : Expr → Prop
  | .lit _ => True
  | .induction => False
  | .var _ => True
  | .binary _ _ l r => l.Invariant ∧ r.Invariant

/-- The value of an expression that does not read the induction variable. -/
def Expr.value (ρ : Nat → Int) (e : Expr) : Int := e.eval ρ 0

/-- Source: `TL::ForStatement`, with its closed bounds, its step, the expressions of its body, and
`induction_variable_in_separate_scope`. -/
structure ForStatement where
  lower_bound : Expr
  upper_bound : Expr
  step : Expr
  body : List Expr
  separate_scope : Bool
deriving DecidableEq

/-- The control of a loop: a `for` of C and C++, or a `DO` of Fortran with its range. -/
inductive LoopControl
  | for (init cond next : Expr)
  | range (lower upper step : Expr)
deriving DecidableEq

/-- The loop as it was, or a new one. -/
inductive Transformation
  | same (loop : ForStatement)
  | normalized (control : LoopControl) (body : List Expr)
deriving DecidableEq

/-! ## The transformation -/

/-- The loop is normalised already. -/
def ForStatement.Normalized (loop : ForStatement) : Prop :=
  loop.lower_bound.constant = some 0 ∧ loop.step.constant = some 1

instance : DecidablePred ForStatement.Normalized := fun _ => inferInstanceAs (Decidable (_ ∧ _))

/-- The upper bound of the new loop. Source: `hlt-loop-normalize.cpp:168`. -/
def newUpper (loop : ForStatement) : Expr :=
  match loop.upper_bound.constant, loop.lower_bound.constant with
  | some upper, some lower => match loop.step.constant with
    | some step => .lit ((upper - lower).tdiv step)
    | none => .binary .div none (.lit (upper - lower)) loop.step
  | _, _ => .binary .div none (.binary .minus none loop.upper_bound loop.lower_bound) loop.step

/-- The literal of a constant expression. Source: the constructor of `ReplaceInductionVar`
(`hlt-loop-normalize.cpp:64`). -/
def literal (e : Expr) : Expr := match e.constant with
  | some c => .lit c
  | none => e

/-- What the induction variable is replaced by. Source: `ReplaceInductionVar::replace_symbol`
(`hlt-loop-normalize.cpp:77`). -/
def newValue (lower step : Expr) : Expr :=
  let scaled := if step.constant ≠ some 1 then .binary .mul none step .induction else .induction
  if lower.constant ≠ some 0 then .binary .add none scaled lower else scaled

/-- Source: `ReplaceInductionVar` (`hlt-loop-normalize.cpp:60`). -/
def replaceInductionVar (lower step : Expr) : Expr → Expr
  | .lit v => .lit v
  | .induction => newValue (literal lower) (literal step)
  | .var x => .var x
  | .binary op cv l r =>
    .binary op cv (replaceInductionVar lower step l) (replaceInductionVar lower step r)

/-- The control of the new loop. Source: `hlt-loop-normalize.cpp:211`. -/
def loopControl (language : Language) (new_upper : Expr) : LoopControl := match language with
  | .fortran => .range (.lit 0) new_upper (.lit 1)
  | .c => .for (.lit 0) (.binary .lowerOrEqualThan none .induction new_upper)
    (.binary .add none .induction (.lit 1))

/-- Source: `HLT::Utils::compute_induction_variable_final_expr` (`hlt-utils.cpp:31`). -/
def computeInductionVariableFinalExpr (loop : ForStatement) : Expr :=
  .binary .add none loop.lower_bound
    (.binary .mul none
      (.binary .div none
        (.binary .add none (.binary .minus none loop.upper_bound loop.lower_bound) loop.step) loop.step)
      loop.step)

/-- The transformation, and the values that the induction variable is assigned after it. Source:
`LoopNormalize::normalize` (`hlt-loop-normalize.cpp:142`). -/
def normalize (language : Language) (loop : ForStatement) : Transformation × List Expr :=
  if loop.Normalized then (.same loop, [])
  else
    (.normalized (loopControl language (newUpper loop))
        (loop.body.map (replaceInductionVar loop.lower_bound loop.step)),
      if loop.separate_scope then [] else [computeInductionVariableFinalExpr loop])

/-! ## What the loops run -/

/-- What the body computes with `i` for the induction variable. -/
def runBody (ρ : Nat → Int) (body : List Expr) (i : Int) : List Int := body.map (Expr.eval ρ i)

/-- The original loop: what its body computes in each iteration. -/
def ForStatement.run (ρ : Nat → Int) (loop : ForStatement) : List (List Int) :=
  (iterations (loop.lower_bound.value ρ) (loop.upper_bound.value ρ) (loop.step.value ρ)).map
    (runBody ρ loop.body)

/-- A `for` of C from the test on. `none`: no end after `fuel` tests. -/
def runFor (ρ : Nat → Int) (cond next : Expr) (body : List Expr) : Nat → Int → Option (List (List Int))
  | 0, _ => none
  | fuel + 1, i =>
    if cond.eval ρ i = 0 then some []
    else (runFor ρ cond next body fuel (next.eval ρ i)).map (runBody ρ body i :: ·)

/-- What the body computes in each iteration of the loop that is left. -/
def Transformation.run (ρ : Nat → Int) (fuel : Nat) : Transformation → Option (List (List Int))
  | .same loop => some (loop.run ρ)
  | .normalized (.for init cond next) body => runFor ρ cond next body fuel (init.value ρ)
  | .normalized (.range lower upper step) body =>
    some ((iterations (lower.value ρ) (upper.value ρ) (step.value ρ)).map (runBody ρ body))

/-- The bounds and the step do not read the induction variable, their constants are their values, and the
step is not zero. -/
structure Regular (ρ : Nat → Int) (loop : ForStatement) : Prop where
  invariant : ∀ e ∈ [loop.lower_bound, loop.upper_bound, loop.step], e.Invariant
  annotated : ∀ e ∈ [loop.lower_bound, loop.upper_bound, loop.step], ∀ c ∈ e.constant, e.value ρ = c
  step_ne_zero : loop.step.value ρ ≠ 0

/-! ## The new upper bound and the new body -/

section
variable {ρ : Nat → Int} {loop : ForStatement} {e lower step : Expr} {i n : Int} {body : List Expr}

theorem Expr.Invariant.eval_eq (h : e.Invariant) (i : Int) : e.eval ρ i = e.value ρ := by
  induction e with
  | lit v => rfl
  | induction => exact h.elim
  | var x => rfl
  | binary op cv l r ihl ihr =>
    show op.eval (l.eval ρ i) (r.eval ρ i) = op.eval (l.value ρ) (r.value ρ)
    rw [ihl h.1, ihr h.2]

theorem eval_literal (hannotated : ∀ c ∈ e.constant, e.value ρ = c) (hinvariant : e.Invariant) (i : Int) :
    (literal e).eval ρ i = e.value ρ := by
  unfold literal
  split
  · next c hc => exact (hannotated c hc).symm
  · exact hinvariant.eval_eq i

theorem constant_literal (e : Expr) : (literal e).constant = e.constant := by
  unfold literal
  split
  · next c hc => exact hc.symm
  · rfl

theorem eval_newUpper (h : Regular ρ loop) (i : Int) : (newUpper loop).eval ρ i =
    (loop.upper_bound.value ρ - loop.lower_bound.value ρ).tdiv (loop.step.value ρ) := by
  obtain ⟨hlower, hupper, hstep⟩ := (by simpa using h.invariant :
    loop.lower_bound.Invariant ∧ loop.upper_bound.Invariant ∧ loop.step.Invariant)
  have hconst := h.annotated
  unfold newUpper
  split
  · next u l hu hl =>
    have hu : loop.upper_bound.value ρ = u := hconst _ (by simp) u hu
    have hl : loop.lower_bound.value ρ = l := hconst _ (by simp) l hl
    split
    · next s hs =>
      have hs : loop.step.value ρ = s := hconst _ (by simp) s hs
      rw [hu, hl, hs]
      rfl
    · rw [hu, hl, ← hstep.eval_eq i]
      rfl
  · rw [← hupper.eval_eq i, ← hlower.eval_eq i, ← hstep.eval_eq i]
    rfl

theorem eval_newValue (lower step : Expr) (ρ : Nat → Int) (i : Int)
    (hlower : ∀ c ∈ lower.constant, lower.eval ρ i = c) (hstep : ∀ c ∈ step.constant, step.eval ρ i = c) :
    (newValue lower step).eval ρ i = step.eval ρ i * i + lower.eval ρ i := by
  have hscaled : (if step.constant ≠ some 1 then Expr.binary .mul none step .induction
      else .induction).eval ρ i = step.eval ρ i * i := by
    split
    · rfl
    · next hone => rw [hstep 1 (not_not.1 hone), Int.one_mul, Expr.eval]
  unfold newValue
  dsimp only
  split
  · exact congrArg (· + lower.eval ρ i) hscaled
  · next hzero => rw [hlower 0 (not_not.1 hzero), Int.add_zero, hscaled]

/-- The body of the new loop computes in iteration `i` what the old one does for the index `S * i + L`. -/
theorem eval_replaceInductionVar (h : Regular ρ loop) (e : Expr) (i : Int) :
    (replaceInductionVar loop.lower_bound loop.step e).eval ρ i =
      e.eval ρ (loop.step.value ρ * i + loop.lower_bound.value ρ) := by
  have hlit : ∀ b ∈ [loop.lower_bound, loop.upper_bound, loop.step], (literal b).eval ρ i = b.value ρ :=
    fun b hb => eval_literal (h.annotated b hb) (h.invariant b hb) i
  have hlower := hlit loop.lower_bound (by simp)
  have hstep := hlit loop.step (by simp)
  induction e with
  | lit v => rfl
  | induction =>
    rw [replaceInductionVar, eval_newValue, hlower, hstep, Expr.eval]
    · rw [hlower, constant_literal]
      exact h.annotated _ (by simp)
    · rw [hstep, constant_literal]
      exact h.annotated _ (by simp)
  | var x => rfl
  | binary op cv l r ihl ihr =>
    rw [replaceInductionVar, Expr.eval, ihl, ihr, Expr.eval]

/-! ## The new loop -/

/-- A loop from `i` to `n` by one. -/
theorem runFor_eq {upper : Expr} (hupper : ∀ i, upper.eval ρ i = n) (fuel : Nat)
    (hfuel : (n + 1 - i).toNat < fuel) :
    runFor ρ (.binary .lowerOrEqualThan none .induction upper) (.binary .add none .induction (.lit 1)) body
      fuel i = some ((List.range (n + 1 - i).toNat).map fun k : Nat => runBody ρ body (i + k)) := by
  induction fuel generalizing i with
  | zero => exact absurd hfuel (Nat.not_lt_zero _)
  | succ fuel ih =>
    have hcond : (Expr.binary .lowerOrEqualThan none .induction upper).eval ρ i = 0 ↔ n < i := by
      show (if i ≤ upper.eval ρ i then (1 : Int) else 0) = 0 ↔ _
      rw [hupper]
      split <;> omega
    have hnext : (Expr.binary .add none .induction (.lit 1)).eval ρ i = i + 1 := rfl
    rw [runFor]
    split
    · next hend =>
      have hnone : (n + 1 - i).toNat = 0 := by
        have := hcond.1 hend
        omega
      rw [hnone]
      rfl
    · next hgo =>
      have hlt : ¬ n < i := fun hlt => hgo (hcond.2 hlt)
      have hsucc : (n + 1 - i).toNat = (n + 1 - (i + 1)).toNat + 1 := by omega
      rw [hnext, ih (by omega), hsucc, List.range_succ_eq_map, List.map_cons, List.map_map, Option.map_some]
      refine congrArg some (congrArg₂ List.cons (by simp) (List.map_congr_left fun k _ => ?_))
      show runBody ρ body (i + 1 + k) = runBody ρ body (i + (k + 1 : Nat))
      congr 1
      push_cast
      omega

/-- More tests make no difference once the loop has ended. -/
theorem runFor_mono {cond next : Expr} {fuel fuel' : Nat} {r : List (List Int)} (hle : fuel ≤ fuel')
    (h : runFor ρ cond next body fuel i = some r) : runFor ρ cond next body fuel' i = some r := by
  induction fuel generalizing fuel' i r with
  | zero => cases h
  | succ fuel ih =>
    obtain ⟨fuel', rfl⟩ : ∃ m, fuel' = m + 1 := ⟨fuel' - 1, by omega⟩
    rw [runFor] at h ⊢
    split at h
    · next hend => rw [if_pos hend, h]
    · next hgo =>
      obtain ⟨rest, hrest, rfl⟩ := Option.map_eq_some_iff.1 h
      rw [if_neg hgo, ih (by omega) hrest]
      rfl

theorem Transformation.run_mono {t : Transformation} {fuel fuel' : Nat} {r : List (List Int)}
    (hle : fuel ≤ fuel') (h : t.run ρ fuel = some r) : t.run ρ fuel' = some r := by
  match t, h with
  | .same _, h => exact h
  | .normalized (.for _ _ _) _, h => exact runFor_mono hle h
  | .normalized (.range _ _ _) _, h => exact h

theorem tripCount_zero_one (n : Int) : tripCount 0 n 1 = (n + 1).toNat := by
  simp only [tripCount, within, Int.tdiv_one, Int.sub_zero, Int.reduceLT, if_false, decide_eq_true_eq]
  split <;> omega

/-- The number of iterations of the new loop. -/
def newCount (ρ : Nat → Int) (loop : ForStatement) : Nat :=
  ((loop.upper_bound.value ρ - loop.lower_bound.value ρ).tdiv (loop.step.value ρ) + 1).toNat

/-- What the new loop runs, in both languages. -/
theorem run_normalize (language : Language) (h : Regular ρ loop) (hnot : ¬ loop.Normalized) {fuel : Nat}
    (hfuel : newCount ρ loop < fuel) : (normalize language loop).1.run ρ fuel =
      some ((List.range (newCount ρ loop)).map fun k : Nat =>
        runBody ρ loop.body (loop.lower_bound.value ρ + k * loop.step.value ρ)) := by
  have hbody (k : Nat) : runBody ρ (loop.body.map (replaceInductionVar loop.lower_bound loop.step)) k =
      runBody ρ loop.body (loop.lower_bound.value ρ + k * loop.step.value ρ) := by
    unfold runBody
    rw [List.map_map, Int.add_comm, Int.mul_comm]
    exact List.map_congr_left fun e _ => eval_replaceInductionVar h e k
  rw [normalize, if_neg hnot, ← List.map_congr_left fun k _ => hbody k]
  cases language with
  | c =>
    show runFor ρ _ _ _ fuel 0 = _
    rw [runFor_eq (eval_newUpper h) fuel (by simpa [newCount] using hfuel)]
    simp only [Int.sub_zero, Int.zero_add]
    rfl
  | fortran =>
    show some ((iterations 0 ((newUpper loop).eval ρ 0) 1).map _) = _
    rw [eval_newUpper h, iterations, tripCount_zero_one, List.map_map]
    refine congrArg some (List.map_congr_left fun k _ => ?_)
    simp

/-- The new loop ends, always with the same result. -/
theorem exists_run_normalize_iff (language : Language) (h : Regular ρ loop) (hnot : ¬ loop.Normalized)
    {r : List (List Int)} : (∃ fuel, (normalize language loop).1.run ρ fuel = some r) ↔
      r = (List.range (newCount ρ loop)).map fun k : Nat =>
        runBody ρ loop.body (loop.lower_bound.value ρ + k * loop.step.value ρ) := by
  constructor
  · rintro ⟨fuel, hfuel⟩
    have hlong := Transformation.run_mono (Nat.le_add_right fuel (newCount ρ loop + 1)) hfuel
    rw [run_normalize language h hnot (by omega)] at hlong
    exact (Option.some.inj hlong).symm
  · rintro rfl
    exact ⟨_, run_normalize language h hnot (Nat.lt_succ_self _)⟩

/-! ## The number of iterations -/

/-- The quotient of a loop without iterations is not positive. -/
theorem tdiv_nonpos_of_not_within {lower upper step : Int} (h : step ≠ 0)
    (hout : ¬ within upper step lower = true) : (upper - lower).tdiv step ≤ 0 := by
  rcases lt_or_gt_of_ne h with hneg | hpos
  · simp only [within, hneg, if_true, decide_eq_true_eq] at hout
    exact Int.tdiv_nonpos_of_nonneg_of_nonpos (by omega) hneg.le
  · simp only [within, not_lt.2 hpos.le, if_false, decide_eq_true_eq] at hout
    have := Int.tdiv_nonneg (a := lower - upper) (by omega) hpos.le
    rw [← Int.neg_sub, Int.neg_tdiv]
    omega

/-- The new number of iterations is the old one, except for a loop without iterations whose bounds are less
than a step apart. -/
theorem count_eq_iff {lower upper step : Int} (h : step ≠ 0) :
    ((upper - lower).tdiv step + 1).toNat = tripCount lower upper step ↔
      within upper step lower = true ∨ step.natAbs ≤ (upper - lower).natAbs := by
  by_cases hin : within upper step lower = true
  · have hcount := tdiv_add_one_eq h hin
    exact iff_of_true (by omega) (.inl hin)
  · have hle := tdiv_nonpos_of_not_within h hin
    have hzero : (upper - lower).tdiv step = 0 ↔ (upper - lower).natAbs < step.natAbs := by
      have hquot : ((upper - lower).tdiv step).natAbs = (upper - lower).natAbs / step.natAbs :=
        Int.natAbs_tdiv ..
      rw [← Int.natAbs_eq_zero, hquot, Nat.div_eq_zero_iff, Int.natAbs_eq_zero]
      exact or_iff_right h
    rw [tripCount, if_neg hin, or_iff_right hin, ← not_lt, ← hzero]
    omega

end

end OmpSs.Mcxx.LoopNormalize
