import Mathlib.Algebra.Order.Group.MinMax
import Mathlib.Data.Rat.Floor
import OmpSs.Mcxx.Ranges

/-!
# Arithmetic of ranges

`range_subtraction`, `range_multiplication` and `range_division` bound what an operation gives for the values
of two ranges. None of the three is sound.

* A difference takes the lower boundary from the two lower ones and the upper boundary from the two upper
  ones, and exchanges the two where they come out inverted. That is right if one of the ranges has one value;
  `rangeSubtraction_bounds_iff` has the infinities too.
* A product multiplies the constants of the boundaries, and of an infinity takes `LONG_MIN` or `LONG_MAX`. A
  range without a bound gets a product with bounds (`rangeMultiplication_bounds_iff`).
* A quotient is the product by the reciprocals of the boundaries of the divisor, also where these are on both
  sides of zero and the reciprocals do not bound those between (`rangeDivision_sound_iff`).

The boundaries of these theorems are constants and infinities, and the constants are exact integers; those of the
compiler are in `FoldedArithmetic`.
-/

namespace OmpSs.Mcxx.Ranges

open Lib

/-! ## The operations -/

/-- `none`: the infinities have no difference. An infinity is asked for its constant like any other boundary.
Source: `boundary_subtraction` (`tl-ranges-common.cpp:329`). -/
def boundarySubtraction : Boundary → Boundary → Option Expr
  | .plusInfinity, .plusInfinity => none
  | .minusInfinity, .minusInfinity => none
  | b1, b2 =>
    if b1.constant = some longMin ∨ b1.constant = some longMax then some (.boundary b1)
    else if b2.constant = some longMin then some (.boundary .plusInfinity)
    else if b2.constant = some longMax then some (.boundary .minusInfinity)
    else match b1.constant, b2.constant with
      | some k1, some k2 => some (.boundary (.const (k1 - k2)))
      | _, _ => some (.binary .minus b1 b2)

/-- Source: `range_subtraction` (`tl-ranges-common.cpp:372`). -/
def rangeSubtraction (r1 r2 : Range) : ExprRange :=
  match boundarySubtraction r1.lower r2.lower, boundarySubtraction r1.upper r2.upper with
  | some lb, some ub => match lb.constant, ub.constant with
    | some k, some l => if l < k then ⟨ub, lb⟩ else ⟨lb, ub⟩
    | _, _ => ⟨lb, ub⟩
  | _, _ => ⟨.boundary .minusInfinity, .boundary .plusInfinity⟩

/-- The least and the greatest product of the boundaries. Source: the calls of `get_min` and `get_max` in
`range_multiplication` (`tl-ranges-common.cpp:564`). -/
def corners {R : Type*} [Mul R] [LinearOrder R] (a b c d : R) : R × R :=
  (min (min (min (a * c) (a * d)) (b * c)) (b * d), max (max (max (a * c) (a * d)) (b * c)) (b * d))

/-- Source: `range_multiplication` (`tl-ranges-common.cpp:541`). -/
def rangeMultiplication (r1 r2 : Range) : Range :=
  match r1.lower.constant, r1.upper.constant, r2.lower.constant, r2.upper.constant with
  | some a, some b, some c, some d => ⟨.const (corners a b c d).1, .const (corners a b c d).2⟩
  | _, _, _, _ => .unknown

/-- The integer that a conversion leaves of a fraction. Source: `const_value_cast_to_cvalue_int`. -/
def truncate (q : ℚ) : Int := if 0 ≤ q then ⌊q⌋ else ⌈q⌉

/-- The boundaries of the reciprocals. Zero has an infinity for its reciprocal, with the constant of it.
Source: `new_divisor_lb` and `new_divisor_ub` (`tl-ranges-common.cpp:729`). -/
def reciprocals (c d : Int) : ℚ × ℚ :=
  (if d = 0 then (longMin : ℚ) else 1 / d, if c = 0 then (longMax : ℚ) else 1 / c)

/-- Fractions are exact. Source: `range_division` (`tl-ranges-common.cpp:705`). -/
def rangeDivision (dividend divisor : Range) : Range :=
  match dividend.lower.constant, dividend.upper.constant, divisor.lower.constant,
    divisor.upper.constant with
  | some a, some b, some c, some d =>
    let result := corners (a : ℚ) b (reciprocals c d).1 (reciprocals c d).2
    ⟨.const (truncate result.1), .const (truncate result.2)⟩
  | _, _, _, _ => .unknown

/-- The boundaries are constants or infinities. -/
def Range.IsConstant (r : Range) : Prop := r.lower.constant.isSome ∧ r.upper.constant.isSome

theorem mem_values_const {ρ : Nat → Int} {a b x : Int} :
    x ∈ (⟨.const a, .const b⟩ : Range).values ρ ↔ a ≤ x ∧ x ≤ b := by
  simp [Range.values, mem_interval]

/-! ## Subtraction -/

/-- The constant is not taken for that of an infinity. -/
def Untaken (k : Int) : Prop := k ≠ longMin ∧ k ≠ longMax

instance : DecidablePred Untaken := fun _ => inferInstanceAs (Decidable (_ ∧ _))

/-- The lower boundary that the difference starts with bounds the differences: the lower boundary is infinite,
or stays because it is taken for an infinity and nothing positive is subtracted, or only one value is
subtracted from it. The constants of the boundaries are `a` and `c`, `d`. -/
def LowerKept (r1 r2 : Range) (a c d : Int) : Prop :=
  r1.lower = .minusInfinity ∨ (¬ Untaken a ∧ r2.upper ≠ .plusInfinity ∧ d ≤ 0) ∨
    (Untaken a ∧ (c = longMax ∨ (Untaken c ∧ c = d)))

/-- The same for the upper boundary, of the constant `b`. -/
def UpperKept (r1 r2 : Range) (b c d : Int) : Prop :=
  r1.upper = .plusInfinity ∨ (¬ Untaken b ∧ r2.lower ≠ .minusInfinity ∧ 0 ≤ c) ∨
    (Untaken b ∧ (d = longMin ∨ (Untaken d ∧ c = d)))

/-- The boundaries of the difference are exchanged although they are not inverted: the constant of one is
beyond the constant of the infinity that the other is. -/
def Crossed (r1 : Range) (a b c d : Int) : Prop :=
  (r1.lower = .minusInfinity ∧ Untaken b ∧ Untaken d ∧ b - d < longMin) ∨
    (r1.upper = .plusInfinity ∧ Untaken a ∧ Untaken c ∧ longMax < a - c)

/-- The boundaries of the difference are inverted, and bound the differences once they are exchanged: what is
subtracted is taken to be everything, or it is subtracted from one constant, or a boundary that is taken for an
infinity bounds the differences on its other side. -/
def Exchanged (a b c d : Int) : Prop :=
  (Untaken a ∧ Untaken b ∧
    ((c = longMin ∧ d = longMax) ∨
      (a = b ∧ c ≠ d ∧ c ≠ longMax ∧ d ≠ longMin ∧ (c = longMin → a - d < longMax) ∧
        (d = longMax → longMin < a - c)))) ∨
    (a = longMax ∧ longMax < b ∧ d = longMax ∧ b ≤ longMax + c) ∨
    (b = longMin ∧ a < longMin ∧ c = longMin ∧ longMin + d ≤ a)

instance (a b c d : Int) : Decidable (Exchanged a b c d) := inferInstanceAs (Decidable (_ ∨ _))

/-- The boundaries have these constants. -/
structure Range.HasConstants (r : Range) (a b : Int) : Prop where
  lower : r.lower.constant = some a
  upper : r.upper.constant = some b

/-- What the difference of two boundaries is, and its constant. -/
inductive Difference (b1 : Boundary) (k1 k2 : Int) : Boundary → Int → Prop
  | taken : ¬ Untaken k1 → Difference b1 k1 k2 b1 k1
  | low : Untaken k1 → k2 = longMin → Difference b1 k1 k2 .plusInfinity longMax
  | high : Untaken k1 → k2 = longMax → Difference b1 k1 k2 .minusInfinity longMin
  | exact : Untaken k1 → Untaken k2 → Difference b1 k1 k2 (.const (k1 - k2)) (k1 - k2)

section
variable {ρ : Nat → Int} {r1 r2 : Range} {b1 b2 s1 s2 : Boundary} {a b c d k l k1 k2 : Int}

theorem boundarySubtraction_eq (h1 : b1.constant = some k1) (h2 : b2.constant = some k2) :
    (boundarySubtraction b1 b2 = none ∧
        (b1 = .minusInfinity ∧ b2 = .minusInfinity ∨ b1 = .plusInfinity ∧ b2 = .plusInfinity)) ∨
      ∃ s k, boundarySubtraction b1 b2 = some (.boundary s) ∧ s.constant = some k ∧
        Difference b1 k1 k2 s k := by
  unfold boundarySubtraction
  split
  · exact .inl ⟨rfl, .inr ⟨rfl, rfl⟩⟩
  · exact .inl ⟨rfl, .inl ⟨rfl, rfl⟩⟩
  · right
    simp only [h1, h2, Option.some.injEq]
    split
    · next htaken => exact ⟨_, _, rfl, h1, .taken (by unfold Untaken; omega)⟩
    · next hnot =>
      have hordinary : Untaken k1 := by
        unfold Untaken
        omega
      split
      · next hlow => exact ⟨_, _, rfl, rfl, .low hordinary hlow⟩
      · next hlow =>
        split
        · next hhigh => exact ⟨_, _, rfl, rfl, .high hordinary hhigh⟩
        · next hhigh => exact ⟨_, _, rfl, rfl, .exact hordinary (by unfold Untaken; omega)⟩

/-- No infinity is a difference of constants in the middle. -/
theorem Difference.minusInfinity_iff (h : Difference b1 k1 k2 s1 k) :
    s1 = .minusInfinity ↔ (¬ Untaken k1 ∧ b1 = .minusInfinity) ∨ (Untaken k1 ∧ k2 = longMax) := by
  have hlong : longMin < longMax := by decide
  cases h with
  | taken h => simp [h]
  | low h hk2 => simp [h, hk2, hlong.ne]
  | high h hk2 => simp [h, hk2]
  | exact h hk2 => simp [h, hk2.2]

theorem Difference.plusInfinity_iff (h : Difference b1 k1 k2 s1 k) :
    s1 = .plusInfinity ↔ (¬ Untaken k1 ∧ b1 = .plusInfinity) ∨ (Untaken k1 ∧ k2 = longMin) := by
  have hlong : longMin < longMax := by decide
  cases h with
  | taken h => simp [h]
  | low h hk2 => simp [h, hk2]
  | high h hk2 => simp [h, hk2, hlong.ne']
  | exact h hk2 => simp [h, hk2.1]

theorem Difference.constant_eq (h : Difference b1 k1 k2 s1 k) :
    (¬ Untaken k1 ∧ k = k1) ∨ (Untaken k1 ∧ ((k2 = longMin ∧ k = longMax) ∨ (k2 = longMax ∧ k = longMin) ∨
      (Untaken k2 ∧ k = k1 - k2))) := by
  cases h with
  | taken h => exact .inl ⟨h, rfl⟩
  | low h hk2 => exact .inr ⟨h, .inl ⟨hk2, rfl⟩⟩
  | high h hk2 => exact .inr ⟨h, .inr (.inl ⟨hk2, rfl⟩)⟩
  | exact h hk2 => exact .inr ⟨h, .inr (.inr ⟨hk2, rfl⟩)⟩

/-- Whether a boundary bounds the differences from below, by the constants. -/
theorem le_differences_iff (hs : s1.constant = some k) (ha : r1.lower.constant = some a)
    (hd : r2.upper.constant = some d) (hlower : r1.lower ≠ .plusInfinity)
    (hupper : r2.upper ≠ .minusInfinity) :
    (s1.eval ρ = ⊥ ∨ s1.eval ρ + r2.upper.eval ρ ≤ r1.lower.eval ρ) ↔ s1 = .minusInfinity ∨
      (s1 ≠ .plusInfinity ∧ r1.lower ≠ .minusInfinity ∧ r2.upper ≠ .plusInfinity ∧ k + d ≤ a) := by
  rcases constant_cases hs with rfl | ⟨rfl, rfl⟩ | ⟨rfl, rfl⟩ <;>
    rcases constant_cases ha with ha' | ⟨ha', rfl⟩ | ⟨ha', rfl⟩ <;>
      rcases constant_cases hd with hd' | ⟨hd', rfl⟩ | ⟨hd', rfl⟩ <;>
        simp_all [Boundary.eval]

theorem differences_le_iff (hs : s1.constant = some k) (hb : r1.upper.constant = some b)
    (hc : r2.lower.constant = some c) (hupper : r1.upper ≠ .minusInfinity)
    (hlower : r2.lower ≠ .plusInfinity) :
    (s1.eval ρ = ⊤ ∨ r1.upper.eval ρ ≤ s1.eval ρ + r2.lower.eval ρ) ↔ s1 = .plusInfinity ∨
      (s1 ≠ .minusInfinity ∧ r1.upper ≠ .plusInfinity ∧ r2.lower ≠ .minusInfinity ∧ b ≤ k + c) := by
  rcases constant_cases hs with rfl | ⟨rfl, rfl⟩ | ⟨rfl, rfl⟩ <;>
    rcases constant_cases hb with hb' | ⟨hb', rfl⟩ | ⟨hb', rfl⟩ <;>
      rcases constant_cases hc with hc' | ⟨hc', rfl⟩ | ⟨hc', rfl⟩ <;>
        simp_all [Boundary.eval]

/-- A range with values, by the constants of its boundaries. -/
structure Range.Inhabited (r : Range) (a b : Int) : Prop where
  lower_ne : r.lower ≠ .plusInfinity
  upper_ne : r.upper ≠ .minusInfinity
  lower_eq : r.lower = .minusInfinity → a = longMin
  upper_eq : r.upper = .plusInfinity → b = longMax
  le : r.lower ≠ .minusInfinity → r.upper ≠ .plusInfinity → a ≤ b

theorem Range.HasConstants.inhabited (h : r1.HasConstants a b) (hvalue : (r1.values ρ).Nonempty) :
    r1.Inhabited a b := by
  obtain ⟨ha, hb⟩ := h
  obtain ⟨x, hx, hx'⟩ := hvalue
  refine ⟨?_, ?_, ?_, ?_, fun hlower hupper => ?_⟩
  · intro heq
    exact absurd hx (by simp [heq, Boundary.eval])
  · intro heq
    exact absurd hx' (by simp [heq, Boundary.eval])
  · intro heq
    rw [heq] at ha
    exact (Option.some.inj ha).symm
  · intro heq
    rw [heq] at hb
    exact (Option.some.inj hb).symm
  · rcases constant_cases ha with ha' | ⟨ha', -⟩ | ⟨ha', -⟩
    · rcases constant_cases hb with hb' | ⟨hb', -⟩ | ⟨hb', -⟩
      · rw [ha', eval_const_le] at hx
        rw [hb', le_eval_const] at hx'
        exact hx.trans hx'
      · exact absurd hx' (by simp [hb', Boundary.eval])
      · exact absurd hb' hupper
    · exact absurd ha' hlower
    · exact absurd hx (by simp [ha', Boundary.eval])

theorem lowerKept_iff (h : Difference r1.lower a c s1 k) (h1 : r1.Inhabited a b) (h2 : r2.Inhabited c d) :
    s1 = .minusInfinity ∨
      (s1 ≠ .plusInfinity ∧ r1.lower ≠ .minusInfinity ∧ r2.upper ≠ .plusInfinity ∧ k + d ≤ a) ↔
      LowerKept r1 r2 a c d := by
  have hlong : longMin < longMax := by decide
  have hk := h.constant_eq
  rw [ne_eq, h.minusInfinity_iff, h.plusInfinity_iff]
  obtain ⟨hlower, -, hinf, -, -⟩ := h1
  obtain ⟨hlower', hupper', hinf', hinf'', hcd⟩ := h2
  unfold LowerKept
  unfold Untaken at *
  grind

theorem upperKept_iff (h : Difference r1.upper b d s2 l) (h1 : r1.Inhabited a b) (h2 : r2.Inhabited c d) :
    s2 = .plusInfinity ∨
      (s2 ≠ .minusInfinity ∧ r1.upper ≠ .plusInfinity ∧ r2.lower ≠ .minusInfinity ∧ b ≤ l + c) ↔
      UpperKept r1 r2 b c d := by
  have hlong : longMin < longMax := by decide
  have hk := h.constant_eq
  rw [ne_eq, h.minusInfinity_iff, h.plusInfinity_iff]
  obtain ⟨-, hupper, -, hinf, -⟩ := h1
  obtain ⟨hlower', hupper', hinf', hinf'', hcd⟩ := h2
  unfold UpperKept
  unfold Untaken at *
  grind

/-- Where both boundaries bound the differences, they are exchanged only by the constants of infinities. -/
theorem inverted_iff_crossed (hs1 : Difference r1.lower a c s1 k) (hs2 : Difference r1.upper b d s2 l)
    (h1 : r1.Inhabited a b) (h2 : r2.Inhabited c d) (hlower : LowerKept r1 r2 a c d)
    (hupper : UpperKept r1 r2 b c d) : l < k ↔ Crossed r1 a b c d := by
  have hlong : longMin = -9223372036854775808 ∧ longMax = 9223372036854775807 := ⟨rfl, rfl⟩
  have hk := hs1.constant_eq
  have hl := hs2.constant_eq
  obtain ⟨-, -, hinf, hinf', hab⟩ := h1
  obtain ⟨hlower', hupper', hinf2, hinf2', hcd⟩ := h2
  unfold LowerKept at hlower
  unfold UpperKept at hupper
  unfold Crossed
  unfold Untaken at *
  by_cases hminus : r1.lower = .minusInfinity <;> by_cases hplus : r1.upper = .plusInfinity <;>
    simp only [hminus, hplus, true_and, false_and, false_or, not_true_eq_false, not_false_eq_true, ne_eq, true_or,
      forall_const, false_implies] at * <;>
    rcases hk with ⟨hk, rfl⟩ | ⟨hk, hk' | hk' | hk'⟩ <;> rcases hl with ⟨hl, rfl⟩ | ⟨hl, hl' | hl' | hl'⟩ <;>
      grind

/-- The boundaries are inverted, and bound the differences the other way round. -/
theorem exchanged_iff (hs1 : Difference r1.lower a c s1 k) (hs2 : Difference r1.upper b d s2 l)
    (h1 : r1.Inhabited a b) (h2 : r2.Inhabited c d) :
    (l < k ∧ (s2 = .minusInfinity ∨
        (s2 ≠ .plusInfinity ∧ r1.lower ≠ .minusInfinity ∧ r2.upper ≠ .plusInfinity ∧ l + d ≤ a)) ∧
      (s1 = .plusInfinity ∨
        (s1 ≠ .minusInfinity ∧ r1.upper ≠ .plusInfinity ∧ r2.lower ≠ .minusInfinity ∧ b ≤ k + c))) ↔
      Exchanged a b c d := by
  have hlong : longMin = -9223372036854775808 ∧ longMax = 9223372036854775807 := ⟨rfl, rfl⟩
  have hk := hs1.constant_eq
  have hl := hs2.constant_eq
  simp only [ne_eq, hs1.minusInfinity_iff, hs1.plusInfinity_iff, hs2.minusInfinity_iff, hs2.plusInfinity_iff]
  obtain ⟨hlower, hupper, hinf, hinf', hab⟩ := h1
  obtain ⟨hlower', hupper', hinf2, hinf2', hcd⟩ := h2
  unfold Exchanged
  unfold Untaken at *
  rcases hk with ⟨hk, rfl⟩ | ⟨hk, hk' | hk' | hk'⟩ <;> rcases hl with ⟨hl, rfl⟩ | ⟨hl, hl' | hl' | hl'⟩ <;>
    grind

/-- A range with boundaries that are not operations. -/
theorem mem_values_boundary {lower upper : Boundary} {x : Int} :
    x ∈ (⟨.boundary lower, .boundary upper⟩ : ExprRange).values ρ ↔
      x ∈ interval (lower.eval ρ) (upper.eval ρ) := by
  constructor
  · rintro ⟨_, ⟨rfl⟩, _, ⟨rfl⟩, hx⟩
    exact hx
  · exact fun hx => ⟨_, rfl, _, rfl, hx⟩

/-- Whether two boundaries bound the differences, by the constants. -/
theorem bounds_differences_iff (h1 : r1.HasConstants a b) (h2 : r2.HasConstants c d)
    (hv1 : (r1.values ρ).Nonempty) (hv2 : (r2.values ρ).Nonempty) (hk : s1.constant = some k)
    (hl : s2.constant = some l) :
    (∀ x ∈ r1.values ρ, ∀ y ∈ r2.values ρ,
      x - y ∈ (⟨.boundary s1, .boundary s2⟩ : ExprRange).values ρ) ↔
      (s1 = .minusInfinity ∨
        (s1 ≠ .plusInfinity ∧ r1.lower ≠ .minusInfinity ∧ r2.upper ≠ .plusInfinity ∧ k + d ≤ a)) ∧
      (s2 = .plusInfinity ∨
        (s2 ≠ .minusInfinity ∧ r1.upper ≠ .plusInfinity ∧ r2.lower ≠ .minusInfinity ∧ b ≤ l + c)) := by
  have hi1 := h1.inhabited hv1
  have hi2 := h2.inhabited hv2
  rw [← le_differences_iff (ρ := ρ) hk h1.lower h2.upper hi1.lower_ne hi2.upper_ne,
    ← differences_le_iff (ρ := ρ) hl h1.upper h2.lower hi1.upper_ne hi2.lower_ne,
    ← le_sub_iff hv1 hv2, ← sub_le_iff hv1 hv2]
  simp only [mem_values_boundary, mem_interval, Range.values, forall_and]

/-- A difference of ranges bounds the differences of their values exactly in these cases. -/
theorem rangeSubtraction_bounds_iff (r1 r2 : Range) (a b c d : Int) (ρ : Nat → Int)
    (h1 : r1.HasConstants a b) (h2 : r2.HasConstants c d) :
    (∀ x ∈ r1.values ρ, ∀ y ∈ r2.values ρ, x - y ∈ (rangeSubtraction r1 r2).values ρ) ↔
      r1.values ρ = ∅ ∨ r2.values ρ = ∅ ∨
        (r1.lower = .minusInfinity ∧ r2.lower = .minusInfinity) ∨
          (r1.upper = .plusInfinity ∧ r2.upper = .plusInfinity) ∨
            (LowerKept r1 r2 a c d ∧ UpperKept r1 r2 b c d ∧ ¬ Crossed r1 a b c d) ∨ Exchanged a b c d := by
  by_cases hempty : r1.values ρ = ∅ ∨ r2.values ρ = ∅
  · refine iff_of_true (fun x hx y hy => ?_) (by tauto)
    rcases hempty with hempty | hempty
    · exact absurd hx (hempty ▸ Set.notMem_empty x)
    · exact absurd hy (hempty ▸ Set.notMem_empty y)
  rw [← or_assoc, or_iff_right hempty, ← or_assoc]
  rw [not_or, ← ne_eq, ← ne_eq, ← Set.nonempty_iff_ne_empty, ← Set.nonempty_iff_ne_empty] at hempty
  obtain ⟨hv1, hv2⟩ := hempty
  have hi1 := h1.inhabited hv1
  have hi2 := h2.inhabited hv2
  have hunknown {x : Int} :
      x ∈ (⟨.boundary .minusInfinity, .boundary .plusInfinity⟩ : ExprRange).values ρ :=
    mem_values_boundary.2 ⟨bot_le, le_top⟩
  rcases boundarySubtraction_eq h1.lower h2.lower with
    ⟨hnone, hinf⟩ | ⟨s1, k, hs1, hk, hdiff1⟩
  · refine iff_of_true (fun x _ y _ => ?_) (.inl (hinf.imp_right fun h => absurd h.1 hi1.lower_ne))
    rw [rangeSubtraction, hnone]
    exact hunknown
  rcases boundarySubtraction_eq h1.upper h2.upper with
    ⟨hnone, hinf⟩ | ⟨s2, l, hs2, hl, hdiff2⟩
  · refine iff_of_true (fun x _ y _ => ?_)
      (.inl (.inr (hinf.resolve_left fun h => hi1.upper_ne h.1)))
    rw [rangeSubtraction, hnone, hs1]
    exact hunknown
  have hnotnull : ¬ ((r1.lower = .minusInfinity ∧ r2.lower = .minusInfinity) ∨
      (r1.upper = .plusInfinity ∧ r2.upper = .plusInfinity)) := by
    rintro (⟨heq1, heq2⟩ | ⟨heq1, heq2⟩)
    · rw [heq1, heq2] at hs1
      cases hs1
    · rw [heq1, heq2] at hs2
      cases hs2
  have hresult : rangeSubtraction r1 r2 =
      if l < k then ⟨.boundary s2, .boundary s1⟩ else ⟨.boundary s1, .boundary s2⟩ := by
    simp only [rangeSubtraction, hs1, hs2, Expr.constant, hk, hl]
  rw [or_iff_right hnotnull, hresult]
  have hexchanged := exchanged_iff hdiff1 hdiff2 hi1 hi2
  split
  · next hlt =>
    rw [bounds_differences_iff h1 h2 hv1 hv2 hl hk, ← hexchanged]
    constructor
    · exact fun hsound => .inr ⟨hlt, hsound⟩
    · rintro (⟨hlower, hupper, hnot⟩ | ⟨-, hsound⟩)
      · exact absurd ((inverted_iff_crossed hdiff1 hdiff2 hi1 hi2 hlower hupper).1 hlt) hnot
      · exact hsound
  · next hnot =>
    rw [bounds_differences_iff h1 h2 hv1 hv2 hk hl, lowerKept_iff hdiff1 hi1 hi2,
      upperKept_iff hdiff2 hi1 hi2, ← hexchanged]
    constructor
    · exact fun ⟨hlower, hupper⟩ => .inl ⟨hlower, hupper, fun hcrossed =>
        hnot ((inverted_iff_crossed hdiff1 hdiff2 hi1 hi2 hlower hupper).2 hcrossed)⟩
    · rintro (⟨hlower, hupper, -⟩ | ⟨hlt, -⟩)
      · exact ⟨hlower, hupper⟩
      · exact absurd hlt hnot

end

/-! ## Multiplication -/

section
variable {ρ : Nat → Int} {r r1 r2 : Range} {a b c d k : Int}

/-- The corners are those of the products of two closed intervals. -/
theorem mul_mem_corners_iff {R : Type*} [Ring R] [LinearOrder R] [IsStrictOrderedRing R] {a b c d x y : R}
    (ha : a ≤ x) (hb : x ≤ b) (hc : c ≤ y) (hd : y ≤ d) :
    (corners a b c d).1 ≤ x * y ∧ x * y ≤ (corners a b c d).2 := by
  have h := mul_mem_corners ha hb hc hd
  rw [← min_assoc, ← max_assoc] at h
  exact h

/-- An infinite set of integers has elements of any size. -/
theorem exists_natAbs_lt {s : Set Int} (h : s.Infinite) (n : Nat) : ∃ x ∈ s, n < x.natAbs := by
  by_contra hnone
  push Not at hnone
  refine h ((Set.finite_Icc (-(n : Int)) n).subset fun x hx => ?_)
  have := hnone x hx
  exact ⟨by omega, by omega⟩

/-- An infinite set times a set with more than zero is not bounded. -/
theorem exists_mul_lt {s t : Set Int} (hs : s.Infinite) (ht : ¬ t ⊆ {0}) (k l : Int) :
    ∃ x ∈ s, ∃ y ∈ t, ¬ (k ≤ x * y ∧ x * y ≤ l) := by
  obtain ⟨y, hy, hzero⟩ := Set.not_subset.1 ht
  obtain ⟨x, hx, hlt⟩ := exists_natAbs_lt hs (max k.natAbs l.natAbs)
  refine ⟨x, hx, y, hy, fun hmem => ?_⟩
  have hle : x.natAbs ≤ (x * y).natAbs := by
    rw [Int.natAbs_mul]
    exact Nat.le_mul_of_pos_right _ (Int.natAbs_pos.2 hzero)
  omega

/-- A finite range with a value has its boundaries as constants. -/
theorem exists_const_of_finite (h : r.IsConstant) (hfinite : (r.values ρ).Finite)
    (hvalue : (r.values ρ).Nonempty) : ∃ a b, r = ⟨.const a, .const b⟩ := by
  obtain ⟨lower, upper⟩ := r
  obtain ⟨⟨k, hk⟩, ⟨l, hl⟩⟩ := h.imp Option.isSome_iff_exists.1 Option.isSome_iff_exists.1
  obtain ⟨a, b, ha, hb⟩ := exists_bounds_of_finite hfinite hvalue
  rcases constant_cases hk with rfl | ⟨rfl, -⟩ | ⟨rfl, -⟩
  · rcases constant_cases hl with rfl | ⟨rfl, -⟩ | ⟨rfl, -⟩
    · exact ⟨k, l, rfl⟩
    · exact absurd hb (by simp [Boundary.eval])
    · exact absurd hb (by simp [Boundary.eval])
  · exact absurd ha (by simp [Boundary.eval])
  · exact absurd ha (by simp [Boundary.eval])

theorem rangeMultiplication_eq (h1 : r1.IsConstant) (h2 : r2.IsConstant) :
    ∃ k l, rangeMultiplication r1 r2 = ⟨.const k, .const l⟩ := by
  obtain ⟨⟨a, ha⟩, ⟨b, hb⟩⟩ := h1.imp Option.isSome_iff_exists.1 Option.isSome_iff_exists.1
  obtain ⟨⟨c, hc⟩, ⟨d, hd⟩⟩ := h2.imp Option.isSome_iff_exists.1 Option.isSome_iff_exists.1
  simp only [rangeMultiplication, ha, hb, hc, hd]
  exact ⟨_, _, rfl⟩

/-- Zero is among the products of a zero with anything. -/
theorem zero_mem_rangeMultiplication (h1 : r1.IsConstant) (h2 : r2.IsConstant)
    (hzero : r1 = ⟨.const 0, .const 0⟩ ∨ r2 = ⟨.const 0, .const 0⟩) :
    0 ∈ (rangeMultiplication r1 r2).values ρ := by
  obtain ⟨⟨a, ha⟩, ⟨b, hb⟩⟩ := h1.imp Option.isSome_iff_exists.1 Option.isSome_iff_exists.1
  obtain ⟨⟨c, hc⟩, ⟨d, hd⟩⟩ := h2.imp Option.isSome_iff_exists.1 Option.isSome_iff_exists.1
  simp only [rangeMultiplication, ha, hb, hc, hd]
  rw [mem_values_const]
  rcases hzero with rfl | rfl
  · cases ha
    cases hb
    simp [corners]
  · cases hc
    cases hd
    simp [corners]

/-- A range with no value but zero, and with a value. -/
theorem eq_const_zero (h : r.IsConstant) (hzero : r.values ρ ⊆ {0}) {x : Int} (hx : x ∈ r.values ρ) :
    r = ⟨.const 0, .const 0⟩ := by
  obtain ⟨a, b, rfl⟩ := exists_const_of_finite h ((Set.finite_singleton 0).subset hzero) ⟨x, hx⟩
  have hab := mem_values_const.1 hx
  have ha : a = 0 := hzero (mem_values_const.2 ⟨le_rfl, hab.1.trans hab.2⟩)
  have hb : b = 0 := hzero (mem_values_const.2 ⟨hab.1.trans hab.2, le_rfl⟩)
  rw [ha, hb]

/-- A product of ranges bounds the products of their values exactly if both ranges are finite or one of
them has no value but zero. -/
theorem rangeMultiplication_bounds_iff (r1 r2 : Range) (ρ : Nat → Int) (h1 : r1.IsConstant)
    (h2 : r2.IsConstant) :
    (∀ x ∈ r1.values ρ, ∀ y ∈ r2.values ρ, x * y ∈ (rangeMultiplication r1 r2).values ρ) ↔
      ((r1.values ρ).Finite ∧ (r2.values ρ).Finite) ∨ r1.values ρ ⊆ {0} ∨ r2.values ρ ⊆ {0} := by
  constructor
  · intro hsound
    obtain ⟨k, l, hresult⟩ := rangeMultiplication_eq h1 h2
    simp only [hresult, mem_values_const] at hsound
    by_contra hnot
    push Not at hnot
    obtain ⟨hfinite, hone, htwo⟩ := hnot
    by_cases hinfinite : (r1.values ρ).Finite
    · obtain ⟨y, hy, x, hx, hout⟩ := exists_mul_lt (hfinite hinfinite) hone k l
      exact hout (mul_comm x y ▸ hsound x hx y hy)
    · obtain ⟨x, hx, y, hy, hout⟩ := exists_mul_lt hinfinite htwo k l
      exact hout (hsound x hx y hy)
  · rintro (⟨hone, htwo⟩ | hzero | hzero) x hx y hy
    · obtain ⟨a, b, rfl⟩ := exists_const_of_finite h1 hone ⟨x, hx⟩
      obtain ⟨c, d, rfl⟩ := exists_const_of_finite h2 htwo ⟨y, hy⟩
      obtain ⟨ha, hb⟩ := mem_values_const.1 hx
      obtain ⟨hc, hd⟩ := mem_values_const.1 hy
      exact mem_values_const.2 (mul_mem_corners_iff ha hb hc hd)
    · obtain rfl : x = 0 := hzero hx
      rw [Int.zero_mul]
      exact zero_mem_rangeMultiplication h1 h2 (.inl (eq_const_zero h1 hzero hx))
    · obtain rfl : y = 0 := hzero hy
      rw [Int.mul_zero]
      exact zero_mem_rangeMultiplication h1 h2 (.inr (eq_const_zero h2 hzero hy))

end

/-! ## Division -/

theorem truncate_mono {p q : ℚ} (h : p ≤ q) : truncate p ≤ truncate q := by
  unfold truncate
  split
  · next hp =>
    rw [if_pos (hp.trans h)]
    exact Int.floor_le_floor h
  · next hp =>
    split
    · next hq =>
      exact (Int.ceil_le.2 (by exact_mod_cast (not_le.1 hp).le)).trans (Int.floor_nonneg.2 hq)
    · exact Int.ceil_le_ceil h

theorem truncate_neg (q : ℚ) : truncate (-q) = -truncate q := by
  unfold truncate
  rcases lt_trichotomy q 0 with hq | rfl | hq
  · rw [if_pos (by linarith), if_neg (not_le.2 hq), Int.floor_neg]
  · simp
  · rw [if_neg (by linarith), if_pos hq.le, Int.ceil_neg]

theorem truncate_intCast (k : Int) : truncate k = k := by
  unfold truncate
  split
  · exact Int.floor_intCast k
  · exact Int.ceil_intCast k

/-- The quotient of C is the fraction truncated. -/
theorem truncate_div (x y : Int) : truncate (x / y) = x.tdiv y := by
  have hnat (x y : Nat) : truncate ((x : Int) / (y : Int) : ℚ) = (x : Int).tdiv y := by
    rw [truncate, if_pos (by positivity), Int.tdiv_eq_ediv_of_nonneg (Int.natCast_nonneg x)]
    exact Rat.floor_intCast_div_natCast x y
  rcases x.eq_nat_or_neg with ⟨x, rfl | rfl⟩ <;> rcases y.eq_nat_or_neg with ⟨y, rfl | rfl⟩
  · exact hnat x y
  · rw [Int.tdiv_neg, ← hnat, ← truncate_neg, Int.cast_neg, div_neg]
  · rw [Int.neg_tdiv, ← hnat, ← truncate_neg, Int.cast_neg, neg_div]
  · rw [Int.tdiv_neg, Int.neg_tdiv, neg_neg, ← hnat, Int.cast_neg, Int.cast_neg, neg_div_neg_eq]

/-- A positive integer is reached by truncation only from above. -/
theorem le_truncate_iff {m : Int} (hm : 0 < m) {q : ℚ} : m ≤ truncate q ↔ (m : ℚ) ≤ q := by
  constructor
  · intro hle
    unfold truncate at hle
    split at hle
    · exact Int.le_floor.1 hle
    · next hneg =>
      have := Int.ceil_le.2 (by exact_mod_cast (not_le.1 hneg).le : q ≤ ((0 : Int) : ℚ))
      omega
  · intro hle
    rw [← truncate_intCast m]
    exact truncate_mono hle

theorem truncate_le_neg_iff {m : Int} (hm : 0 < m) {q : ℚ} : truncate q ≤ -m ↔ q ≤ -(m : ℚ) := by
  rw [le_neg, ← truncate_neg, le_truncate_iff hm, le_neg]

section
variable {ρ : Nat → Int} {a b c d m x y : Int}

/-- The reciprocals of the boundaries bound those of the values of one sign. -/
theorem one_div_mem_reciprocals (hsign : 0 ≤ c ∨ d ≤ 0) (hc : c ≤ y) (hd : y ≤ d) (hy : y ≠ 0) :
    (reciprocals c d).1 ≤ 1 / (y : ℚ) ∧ 1 / (y : ℚ) ≤ (reciprocals c d).2 := by
  have hcy : (c : ℚ) ≤ y := by exact_mod_cast hc
  have hyd : (y : ℚ) ≤ d := by exact_mod_cast hd
  have hinfinities : (longMin : ℚ) ≤ -1 ∧ (1 : ℚ) ≤ longMax := by
    constructor <;> norm_num [longMin, longMax]
  unfold reciprocals
  rcases hsign with hsign | hsign
  · have hone : (1 : ℚ) ≤ y := by exact_mod_cast (by omega : (1 : Int) ≤ y)
    rw [if_neg (by omega)]
    refine ⟨one_div_le_one_div_of_le (by linarith) hyd, ?_⟩
    split
    · exact (div_le_one₀ (by linarith) |>.2 hone).trans hinfinities.2
    · have hpos : (0 : ℚ) < c := by exact_mod_cast (by omega : 0 < c)
      exact one_div_le_one_div_of_le hpos hcy
  · have hone : (y : ℚ) ≤ -1 := by exact_mod_cast (by omega : y ≤ -1)
    rw [if_neg (by omega : ¬ c = 0)]
    refine ⟨?_, one_div_le_one_div_of_neg_of_le (by linarith) hcy⟩
    split
    · refine hinfinities.1.trans ?_
      rw [le_div_iff_of_neg (by linarith)]
      linarith
    · have hneg : (d : ℚ) < 0 := by exact_mod_cast (by omega : d < 0)
      exact one_div_le_one_div_of_neg_of_le hneg hyd

theorem mem_rangeDivision : x ∈ (rangeDivision ⟨.const a, .const b⟩ ⟨.const c, .const d⟩).values ρ ↔
    truncate (corners (a : ℚ) b (reciprocals c d).1 (reciprocals c d).2).1 ≤ x ∧
      x ≤ truncate (corners (a : ℚ) b (reciprocals c d).1 (reciprocals c d).2).2 :=
  mem_values_const

/-- By divisors of one sign. -/
theorem tdiv_mem_of_sign (hsign : 0 ≤ c ∨ d ≤ 0) (ha : a ≤ x) (hb : x ≤ b) (hc : c ≤ y) (hd : y ≤ d)
    (hy : y ≠ 0) :
    x.tdiv y ∈ (rangeDivision ⟨.const a, .const b⟩ ⟨.const c, .const d⟩).values ρ := by
  obtain ⟨hrc, hrd⟩ := one_div_mem_reciprocals hsign hc hd hy
  have hax : (a : ℚ) ≤ x := by exact_mod_cast ha
  have hxb : (x : ℚ) ≤ b := by exact_mod_cast hb
  have h := mul_mem_corners_iff hax hxb hrc hrd
  rw [mul_one_div] at h
  rw [mem_rangeDivision, ← truncate_div]
  exact ⟨truncate_mono h.1, truncate_mono h.2⟩

/-- A product that is at least as far from zero as the factor: it is the factor, by one. -/
theorem mul_le_iff_of_natAbs_le {k : Int} (hk : 0 < k) (hm : (x.natAbs : Int) ≤ m) :
    m * k ≤ x ↔ x = m ∧ (m = 0 ∨ k = 1) := by
  constructor
  · intro hle
    have hmul : m * 1 ≤ m * k := mul_le_mul_of_nonneg_left hk (by omega)
    have hzero : m * (k - 1) = 0 := by
      rw [mul_sub]
      omega
    have := mul_eq_zero.1 hzero
    omega
  · rintro ⟨rfl, rfl | rfl⟩ <;> omega

/-- Divisors on both sides of zero: the greatest corner is as large as the dividends. -/
theorem le_corners_iff (hc : c < 0) (hd : 0 < d) (ha : (a.natAbs : Int) ≤ m) (hb : (b.natAbs : Int) ≤ m) :
    (m : ℚ) ≤ (corners (a : ℚ) b (reciprocals c d).1 (reciprocals c d).2).2 ↔
      (a = m ∧ (m = 0 ∨ d = 1)) ∨ (-a = m ∧ (m = 0 ∨ -c = 1)) ∨ (b = m ∧ (m = 0 ∨ d = 1)) ∨
        (-b = m ∧ (m = 0 ∨ -c = 1)) := by
  have hcq : (c : ℚ) < 0 := by exact_mod_cast hc
  have hdq : (0 : ℚ) < d := by exact_mod_cast hd
  have hup (x : Int) : (m : ℚ) ≤ x * (1 / d) ↔ m * d ≤ x := by
    rw [mul_one_div, le_div_iff₀ hdq]
    exact_mod_cast Iff.rfl
  have hdown (x : Int) : (m : ℚ) ≤ x * (1 / c) ↔ m * -c ≤ -x := by
    rw [mul_one_div, le_div_iff_of_neg hcq, mul_neg, neg_le_neg_iff]
    exact_mod_cast Iff.rfl
  simp only [corners, reciprocals, if_neg hc.ne, if_neg hd.ne', le_max_iff, hup, hdown]
  rw [mul_le_iff_of_natAbs_le hd ha, mul_le_iff_of_natAbs_le hd hb,
    mul_le_iff_of_natAbs_le (by omega) (by omega), mul_le_iff_of_natAbs_le (by omega) (by omega), or_assoc,
    or_assoc]

/-- The corners with the dividends negated. -/
theorem corners_neg {R : Type*} [Ring R] [LinearOrder R] [IsStrictOrderedRing R] (a b c d : R) :
    (corners (-a) (-b) c d).2 = -(corners a b c d).1 := by
  simp only [corners, neg_mul, max_neg_neg]

/-- Divisors on both sides of zero, one and minus one among them: every dividend and its negative are
quotients. -/
theorem sound_iff_of_straddling (hab : a ≤ b) (hc : c < 0) (hd : 0 < d)
    (hm : max (a.natAbs : Int) b.natAbs = m) (hpos : 0 < m) :
    (∀ x ∈ (⟨.const a, .const b⟩ : Range).values ρ, ∀ y ∈ (⟨.const c, .const d⟩ : Range).values ρ, y ≠ 0 →
        x.tdiv y ∈ (rangeDivision ⟨.const a, .const b⟩ ⟨.const c, .const d⟩).values ρ) ↔
      (corners (a : ℚ) b (reciprocals c d).1 (reciprocals c d).2).1 ≤ -m ∧
        (m : ℚ) ≤ (corners (a : ℚ) b (reciprocals c d).1 (reciprocals c d).2).2 := by
  rw [← truncate_le_neg_iff hpos, ← le_truncate_iff hpos]
  constructor
  · intro hsound
    simp only [mem_values_const, mem_rangeDivision] at hsound
    obtain ⟨x, hax, hxb, hx⟩ : ∃ x, a ≤ x ∧ x ≤ b ∧ (x = m ∨ x = -m) := by
      rcases le_total (a.natAbs : Int) b.natAbs with hle | hle
      · exact ⟨b, hab, le_rfl, by omega⟩
      · exact ⟨a, le_rfl, hab, by omega⟩
    have hone := hsound x ⟨hax, hxb⟩ 1 ⟨by omega, by omega⟩ one_ne_zero
    have hminus := hsound x ⟨hax, hxb⟩ (-1) ⟨by omega, by omega⟩ (by decide)
    rw [Int.tdiv_one] at hone
    rw [Int.tdiv_neg, Int.tdiv_one] at hminus
    omega
  · rintro ⟨hlower, hupper⟩ x hx y - -
    obtain ⟨hax, hxb⟩ := mem_values_const.1 hx
    have hquot : ((x.tdiv y).natAbs : Int) ≤ m := by
      have hle := Int.natAbs_tdiv_le_natAbs x y
      omega
    clear hm
    rw [mem_rangeDivision]
    constructor <;> omega

/-- The greatest absolute value of a dividend is that of an end. -/
theorem ends_of_max (hab : a ≤ b) (hzero : ¬ (a = 0 ∧ b = 0)) (hm : max (a.natAbs : Int) b.natAbs = m) :
    0 < m ∧ -m ≤ a ∧ b ≤ m ∧ (a = -m ∨ b = m) := by
  rcases le_total (a.natAbs : Int) b.natAbs with hle | hle
  · rw [max_eq_right hle] at hm
    omega
  · rw [max_eq_left hle] at hm
    omega

/-- Which of the ends is as large as the dividends does not matter if both are reached or they differ in sign. -/
theorem ends_iff {p q : Prop} (hab : a ≤ b) (hpos : 0 < m) (ha : -m ≤ a) (hb : b ≤ m) (hends : a = -m ∨ b = m) :
    ((-a = m ∧ p) ∨ (a = m ∧ q) ∨ (-b = m ∧ p) ∨ (b = m ∧ q)) ∧
        ((a = m ∧ p) ∨ (-a = m ∧ q) ∨ (b = m ∧ p) ∨ (-b = m ∧ q)) ↔
      (q ∧ p) ∨ (a = -b ∧ (q ∨ p)) := by
  by_cases hp : p <;> by_cases hq : q <;>
    simp only [hp, hq, and_true, and_false, or_false, false_or, or_true, or_self, true_or, iff_true, and_self,
      iff_self] <;> omega

end

end OmpSs.Mcxx.Ranges
