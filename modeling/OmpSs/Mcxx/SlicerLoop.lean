import OmpSs.Mcxx.LoopHeaderExact

/-!
# The loop of a slice

A loop under `omp for` with a slicer becomes a loop over the slice that the run time hands out
(`mcxx/src/tl/omp/nanox-nodecl/tl-lower-for-slicer.cpp:78`). The slice is in the 64-bit fields of the slicer
descriptor; the generated code copies them to `nanos_lower`, `nanos_upper` and, where the step is not a
constant, `nanos_step`, which are of type `int` whatever the type of the induction variable. `runs_slice_iff` says
for which slices the loop runs its body for the iterations of the slice: the bounds that the loop uses have to
survive the conversion to `int`, and the increment after the last iteration must not overflow and must end the
loop. The loop that is generated for a worksharing (`tl-lower-for-worksharing.cpp:92`) uses the 64-bit fields.
-/

namespace OmpSs.Mcxx.SlicerLoop

open Lib Cexpr
open LoopUnroll (minimalInteger)
open LoopHeader (assigned assigned_add inRange_convert convert_convert convert_modEq convert_congr)

def int64 : IntType := ⟨.eight, true⟩

/-! ## The generated code -/

/-- A constant of the front end, or a value that is known at run time only. -/
inductive Step
  | constant (sign : Bool) (value : Int)
  | runtime (value : Int)
deriving DecidableEq

/-- A constant has up to 64 bits; at run time there is the field of the descriptor. -/
def Step.InRange : Step → Prop
  | .constant sign value => (IntType.mk .eight sign).InRange value
  | .runtime value => int64.InRange value

/-- The field of the slicer descriptor. Source: `tl-loop-spawn-slicer.cpp:193`. -/
def Step.field : Step → Int
  | .constant _ value => int64.convert value
  | .runtime value => value

/-- What is added to the induction variable: a literal, or `nanos_step`. Source:
`tl-lower-for-slicer.cpp:75`, `:119`. -/
def Step.type : Step → IntType
  | .constant sign value => minimalInteger sign value
  | .runtime _ => .signedInt

def Step.amount : Step → Int
  | .constant _ value => value
  | .runtime value => IntType.signedInt.convert value

/-- A loop with an induction variable of 32 or 64 bits, and a slice of it. -/
structure Loop where
  wide : Bool
  lower : Int
  upper : Int
  step : Step
  lower_inRange : int64.InRange lower
  upper_inRange : int64.InRange upper
  step_inRange : step.InRange
  step_ne_zero : step.field ≠ 0

namespace Loop

variable (l : Loop)

def var : IntType := ⟨if l.wide then .eight else .four, true⟩

/-- `int nanos_lower = sdesc.lower;` -/
def nanosLower : Int := IntType.signedInt.convert l.lower

/-- `int nanos_upper = sdesc.upper;` -/
def nanosUpper : Int := IntType.signedInt.convert l.upper

/-- The test of the variant that is generated, or chosen at run time: for steps above zero, or for the
others. -/
def passes (i : Int) : Bool :=
  if 0 < l.step.amount then decide (i ≤ l.nanosUpper) else decide (l.nanosUpper ≤ i)

def next (i : Int) : Option Int := assigned l.var .add l.step.type l.step.amount i

/-- The generated loop runs its body for the iterations of the slice, and ends. -/
def Runs : Prop :=
  Visits l.passes l.next (l.var.convert l.nanosLower) (iterations l.lower l.upper l.step.field)

/-! ## When it is right -/

/-- The last iteration of a slice that has one. -/
def last : Int := l.lower + (tripCount l.lower l.upper l.step.field - 1 : ℕ) * l.step.field

/-- The type in which the increment is computed. -/
def common : IntType := commonBytes l.var l.step.type

/-- The increment after the last iteration does not overflow and ends the loop. -/
def Stops : Prop :=
  (l.common.sign = true → l.common.InRange (l.last + l.step.amount)) ∧
    l.passes (l.var.convert (l.last + l.step.amount)) = false

/-- With iterations the lower bound is an `int`, the first and the last one pass the test, and the increment
after the last one ends the loop. Where there are several, the step of the slice is the amount that is added
and the induction variable has the last iteration. -/
def Exact : Prop := match tripCount l.lower l.upper l.step.field with
  | 0 => l.passes l.nanosLower = false
  | n + 1 => l.nanosLower = l.lower ∧ l.passes l.lower = true ∧ l.passes l.last = true ∧ l.Stops ∧
    (0 < n → l.step.field = int64.convert l.step.amount ∧ l.var.InRange l.last)

end Loop

/-! ## The increment -/

section
variable {var t : IntType} {i v : Int}

/-- `i += v`: exact addition, and a conversion to the type of the variable. -/
theorem assigned_add_eq (hi : var.InRange i) (hv : t.InRange v) : assigned var .add t v i =
    if (commonBytes var t).sign = true ∧ ¬ (commonBytes var t).InRange (i + v) then none
    else some (var.convert (i + v)) := by
  cases hs : (commonBytes var t).sign with
  | true =>
    have hwide := commonBytes_signed hs
    rw [assigned, Arith.value, convert_of_inRange (hi.widen hs hwide.1.1 hwide.1.2),
      convert_of_inRange (hv.widen hs hwide.2.1 hwide.2.2), IntType.result, if_pos hs]
    split
    · next h => rw [if_neg (by simp [h]), Option.map_some]
    · next h => rw [if_pos ⟨rfl, h⟩, Option.map_none]
  | false =>
    have hsum : ∃ u, assigned var .add t v i = some u := by
      rw [assigned, Arith.value, IntType.result, if_neg (by rw [hs]; decide)]
      exact ⟨_, rfl⟩
    obtain ⟨u, hu⟩ := hsum
    rw [hu, assigned_add hu, if_neg (by simp)]

end

namespace Loop

variable {l : Loop} {i u : Int} {k n : Nat}

theorem amount_inRange (l : Loop) : l.step.type.InRange l.step.amount := by
  have h := l.step_inRange
  cases hstep : l.step with
  | constant sign value =>
    rw [hstep] at h
    rw [Step.type, Step.amount, minimalInteger]
    split
    · next hint => exact hint
    · exact h
  | runtime value => exact inRange_convert .signedInt value

theorem var_sign (l : Loop) : l.var.sign = true := rfl

theorem var_bits (l : Loop) : 32 ≤ l.var.bits ∧ l.var.bits ≤ 64 := by
  unfold var
  cases l.wide <;> decide

theorem nanosLower_inRange (l : Loop) : l.var.InRange l.nanosLower :=
  (inRange_convert .signedInt l.lower).widen l.var_sign l.var_bits.1 nofun

theorem next_eq_some_iff (hi : l.var.InRange i) : l.next i = some u ↔
    (l.common.sign = true → l.common.InRange (i + l.step.amount)) ∧ u = l.var.convert (i + l.step.amount) := by
  rw [next, assigned_add_eq hi l.amount_inRange]
  split
  · next h => exact iff_of_false nofun fun hin => h.2 (hin.1 h.1)
  · next h =>
    rw [not_and, not_not] at h
    rw [Option.some_inj, eq_comm]
    exact (and_iff_right h).symm

theorem stops_iff (hlast : l.var.InRange l.last) : l.Stops ↔ ∃ u, l.next l.last = some u ∧ l.passes u = false := by
  simp only [next_eq_some_iff hlast]
  constructor
  · rintro ⟨hin, hend⟩
    exact ⟨_, ⟨hin, rfl⟩, hend⟩
  · rintro ⟨u, ⟨hin, rfl⟩, hend⟩
    exact ⟨hin, hend⟩

/-- In a signed common type the amount is an integer of 64 bits. -/
theorem convert_amount (h : l.common.sign = true) : int64.convert l.step.amount = l.step.amount := by
  have hwide := (commonBytes_signed h).2
  have hin := l.amount_inRange.widen h hwide.1 hwide.2
  have hbits : l.common.bits ≤ int64.bits := by
    have hbytes : ∀ b : Bytes, 8 * b.toNat ≤ 64 := by
      intro b
      cases b <;> decide
    exact hbytes l.common.num_bytes
  refine convert_of_inRange (hin.widen rfl hbits fun hsign => ?_)
  rw [h] at hsign
  cases hsign

/-- An increment by the step of the slice. -/
theorem next_exact (hstep : l.step.field = int64.convert l.step.amount) (hi : l.var.InRange i)
    (hu : l.var.InRange (i + l.step.field)) : l.next i = some (i + l.step.field) := by
  refine (next_eq_some_iff hi).2 ⟨fun hsign => ?_, ?_⟩
  · rw [convert_amount hsign] at hstep
    rw [← hstep]
    have hwide := (commonBytes_signed hsign).1
    exact hu.widen hsign hwide.1 hwide.2
  · have hmod : i + l.step.field ≡ i + l.step.amount [ZMOD (2 : Int) ^ l.var.bits] := by
      rw [hstep]
      exact ((convert_modEq int64 _).of_dvd (pow_dvd_pow 2 l.var_bits.2)).add_left i
    rw [← convert_congr hmod, convert_of_inRange hu]

theorem inRange_of_next (h : l.next i = some u) : l.var.InRange u := by
  obtain ⟨r, -, rfl⟩ := Option.map_eq_some_iff.1 h
  exact inRange_convert _ _

/-- Where one increment is by the step of the slice, that step is the amount that is added. -/
theorem step_kept (hi : l.var.InRange i) (h : l.next i = some (i + l.step.field)) :
    l.step.field = int64.convert l.step.amount := by
  obtain ⟨hin, hu⟩ := (next_eq_some_iff hi).1 h
  cases hstep : l.step with
  | constant sign value => rfl
  | runtime value =>
    have hcommon : l.common = l.var := by
      rw [common, var, hstep]
      cases l.wide <;> rfl
    have hsign : l.common.sign = true := hcommon ▸ l.var_sign
    have hsum := hin hsign
    rw [hcommon] at hsum
    rw [convert_of_inRange hsum] at hu
    rw [← hstep, convert_amount hsign]
    exact add_left_cancel hu

/-- Iterations lie between the first and the last one. -/
theorem le_of_ends {a b s : Int} (hk : k ≤ n) (hfirst : a ≤ b) (hlast : a + n * s ≤ b) : a + k * s ≤ b := by
  rcases le_total 0 s with hs | hs
  · have := mul_le_mul_of_nonneg_right (Nat.cast_le (α := Int).2 hk) hs
    omega
  · have := mul_nonpos_of_nonneg_of_nonpos (Nat.cast_nonneg (α := Int) k) hs
    omega

theorem ge_of_ends {a b s : Int} (hk : k ≤ n) (hfirst : b ≤ a) (hlast : b ≤ a + n * s) : b ≤ a + k * s := by
  have h := le_of_ends (a := -a) (b := -b) (s := -s) hk (by omega) (by rw [mul_neg]; omega)
  rw [mul_neg] at h
  omega

theorem passes_of_ends {a s : Int} (hk : k ≤ n) (hfirst : l.passes a = true) (hlast : l.passes (a + n * s) = true) :
    l.passes (a + k * s) = true := by
  unfold passes at *
  split_ifs at *
  · rw [decide_eq_true_eq] at *
    exact le_of_ends hk hfirst hlast
  · rw [decide_eq_true_eq] at *
    exact ge_of_ends hk hfirst hlast

theorem inRange_of_ends {a s : Int} (hk : k ≤ n) (hfirst : l.var.InRange a) (hlast : l.var.InRange (a + n * s)) :
    l.var.InRange (a + k * s) := by
  rw [inRange_of_sign l.var_sign] at *
  exact ⟨ge_of_ends hk hfirst.1 hlast.1, Int.lt_of_le_sub_one
    (le_of_ends hk (Int.le_sub_one_of_lt hfirst.2) (Int.le_sub_one_of_lt hlast.2))⟩

/-- The generated loop runs its body for the iterations of the slice exactly if what it makes of the bounds
and of the step is right as far as the slice needs it. -/
theorem runs_slice_iff (l : Loop) : l.Runs ↔ l.Exact := by
  rw [Runs, Exact, visits_iterations_iff, convert_of_inRange l.nanosLower_inRange]
  have hlast : ∀ n, tripCount l.lower l.upper l.step.field = n + 1 →
      l.last = l.lower + n * l.step.field := by
    intro n hcount
    rw [last, hcount, Nat.add_sub_cancel]
  cases hcount : tripCount l.lower l.upper l.step.field with
  | zero => exact Iff.rfl
  | succ n =>
    have hlast := hlast n hcount
    simp only
    rw [← hlast]
    constructor
    · rintro ⟨hlower, htest, hnext, hend⟩
      have hlowerIn : l.var.InRange l.lower := hlower ▸ l.nanosLower_inRange
      have hfirst := htest 0 (Nat.zero_le n)
      rw [Nat.cast_zero, Int.zero_mul, Int.add_zero] at hfirst
      have hseveral : 0 < n → l.step.field = int64.convert l.step.amount ∧ l.var.InRange l.last := by
        intro hn
        refine ⟨step_kept hlowerIn ?_, ?_⟩
        · have hstep := hnext 0 hn
          rwa [Nat.cast_zero, Int.zero_mul, Int.add_zero, Nat.zero_add, Nat.cast_one, Int.one_mul] at hstep
        · have hstep := hnext (n - 1) (by omega)
          rw [Nat.sub_add_cancel hn, ← hlast] at hstep
          exact inRange_of_next hstep
      have hlastIn : l.var.InRange l.last := by
        rcases Nat.eq_zero_or_pos n with rfl | hn
        · rwa [hlast, Nat.cast_zero, Int.zero_mul, Int.add_zero]
        · exact (hseveral hn).2
      exact ⟨hlower, hfirst, hlast ▸ htest n le_rfl, (stops_iff hlastIn).2 hend, hseveral⟩
    · rintro ⟨hlower, hfirst, hlastPasses, hstops, hseveral⟩
      have hlowerIn : l.var.InRange l.lower := hlower ▸ l.nanosLower_inRange
      have hlastIn : l.var.InRange l.last := by
        rcases Nat.eq_zero_or_pos n with rfl | hn
        · rwa [hlast, Nat.cast_zero, Int.zero_mul, Int.add_zero]
        · exact (hseveral hn).2
      have hin : ∀ k ≤ n, l.var.InRange (l.lower + k * l.step.field) :=
        fun k hk => inRange_of_ends hk hlowerIn (hlast ▸ hlastIn)
      refine ⟨hlower, fun k hk => passes_of_ends hk hfirst (hlast ▸ hlastPasses), fun k hk => ?_,
        (stops_iff hlastIn).1 hstops⟩
      have hnext := hin (k + 1) hk
      have hadd : l.lower + (k + 1 : ℕ) * l.step.field = l.lower + k * l.step.field + l.step.field := by
        push_cast
        ring
      rw [hadd] at hnext ⊢
      exact next_exact (hseveral (Nat.zero_lt_of_lt hk)).1 (hin k hk.le) hnext

/-- One iteration of a 64-bit variable, at 2^32. -/
def wideSlice : Loop where
  wide := true
  lower := 4294967296
  upper := 4294967296
  step := .constant true 1
  lower_inRange := by decide
  upper_inRange := by decide
  step_inRange := by
    change int64.InRange 1
    decide
  step_ne_zero := by decide

/-- The generated loop runs its body for 0. -/
theorem not_runs_wideSlice : ¬ wideSlice.Runs := by
  rw [Runs, visits_iterations_iff]
  rintro ⟨hlower, -⟩
  exact absurd hlower (by decide)

end Loop

end OmpSs.Mcxx.SlicerLoop
