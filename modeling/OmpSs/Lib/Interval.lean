import Mathlib.Algebra.Order.Monoid.Unbundled.WithTop
import Mathlib.Algebra.Order.Ring.Defs
import Mathlib.Data.Int.Interval
import Mathlib.Order.Interval.Set.Basic
import Mathlib.Order.WithBotTop
import Mathlib.Order.Bounds.Basic
import Mathlib.Data.Set.Finite.Lattice
import Mathlib.Tactic.Linarith
import Mathlib.Data.Int.ConditionallyCompleteOrder

/-!
# Intervals of integers

An interval has bounds among the integers and both infinities. `le_sub_iff` and `sub_le_iff` say which bounds
the differences of two intervals have. `mul_mem_corners` bounds the products of two closed intervals of an
ordered ring by their corners.
-/

namespace OmpSs.Lib

/-- The integers with both infinities. -/
abbrev ExtInt := WithBot (WithTop Int)

/-- The integers between two bounds. -/
def interval (l u : ExtInt) : Set Int := {x | l ≤ (x : ExtInt) ∧ (x : ExtInt) ≤ u}

section
variable {a b c d l u : ExtInt} {x k : Int}

attribute [coe] WithBotTop.coe

attribute [norm_cast] WithBotTop.coe_le_coe WithBotTop.coe_lt_coe

@[simp, norm_cast] theorem extInt_coe_inj {m : Int} : (k : ExtInt) = (m : ExtInt) ↔ k = m :=
  WithBotTop.coe_injective.eq_iff

@[norm_cast] theorem extInt_coe_add (k m : Int) : ((k + m : Int) : ExtInt) = (k : ExtInt) + (m : ExtInt) := rfl

@[norm_cast] theorem extInt_coe_zero : ((0 : Int) : ExtInt) = 0 := rfl

@[simp] theorem bot_ne_coe : (⊥ : ExtInt) ≠ (k : ExtInt) := nofun

@[simp] theorem top_ne_coe : (⊤ : ExtInt) ≠ (k : ExtInt) := nofun

theorem mem_interval : x ∈ interval l u ↔ l ≤ (x : ExtInt) ∧ (x : ExtInt) ≤ u := Iff.rfl

@[simp] theorem coe_add_top : (k : ExtInt) + ⊤ = ⊤ := rfl

@[simp] theorem top_add_coe : ⊤ + (k : ExtInt) = ⊤ := rfl

@[simp] theorem extInt_top_add_top : (⊤ : ExtInt) + ⊤ = ⊤ := rfl

@[simp] theorem coe_add_le_coe {m n : Int} : (k : ExtInt) + (m : ExtInt) ≤ (n : ExtInt) ↔ k + m ≤ n := by
  norm_cast

@[simp] theorem coe_le_coe_add {m n : Int} : (n : ExtInt) ≤ (k : ExtInt) + (m : ExtInt) ↔ n ≤ k + m := by
  norm_cast

@[simp] theorem coe_add_coe_ne_top {m : Int} : (k : ExtInt) + (m : ExtInt) ≠ ⊤ := by
  rw [← extInt_coe_add]
  exact WithBotTop.coe_ne_top _

theorem interval_inter (l u l' u' : ExtInt) :
    interval l u ∩ interval l' u' = interval (max l l') (min u u') := by
  ext x
  simp only [Set.mem_inter_iff, mem_interval, max_le_iff, le_min_iff]
  tauto

/-- An interval with an infinite bound reaches arbitrarily far. -/
theorem exists_mem_lt (h : (interval ⊥ u).Nonempty) (k : Int) : ∃ x ∈ interval ⊥ u, x < k := by
  obtain ⟨x, -, hx⟩ := h
  refine ⟨min x (k - 1), ⟨bot_le, le_trans ?_ hx⟩, by omega⟩
  exact_mod_cast min_le_left x (k - 1)

theorem exists_lt_mem (h : (interval l ⊤).Nonempty) (k : Int) : ∃ x ∈ interval l ⊤, k < x := by
  obtain ⟨x, hx, -⟩ := h
  refine ⟨max x (k + 1), ⟨le_trans hx ?_, le_top⟩, by omega⟩
  exact_mod_cast le_max_left x (k + 1)

theorem extInt_cases (l : ExtInt) : l = ⊥ ∨ l = ⊤ ∨ ∃ k : Int, l = (k : ExtInt) := by
  rcases l with - | - | k
  · exact .inl rfl
  · exact .inr (.inl rfl)
  · exact .inr (.inr ⟨k, rfl⟩)

/-- The lower bound of an interval that is not empty is not the upper infinity. -/
theorem lower_cases (h : (interval l u).Nonempty) :
    l = ⊥ ∨ ∃ k : Int, l = (k : ExtInt) ∧ k ∈ interval l u := by
  obtain ⟨x, hl, hu⟩ := h
  rcases extInt_cases l with rfl | rfl | ⟨k, rfl⟩
  · exact .inl rfl
  · exact absurd hl (by simp)
  · exact .inr ⟨k, rfl, le_rfl, hl.trans hu⟩

theorem upper_cases (h : (interval l u).Nonempty) :
    u = ⊤ ∨ ∃ k : Int, u = (k : ExtInt) ∧ k ∈ interval l u := by
  obtain ⟨x, hl, hu⟩ := h
  rcases extInt_cases u with rfl | rfl | ⟨k, rfl⟩
  · exact absurd hu (by simp)
  · exact .inl rfl
  · exact .inr ⟨k, rfl, hl.trans hu, le_rfl⟩

/-- A finite interval that is not empty has integers for its bounds. -/
theorem exists_bounds_of_finite (hfinite : (interval l u).Finite) (h : (interval l u).Nonempty) :
    ∃ a b : Int, l = (a : ExtInt) ∧ u = (b : ExtInt) := by
  rcases lower_cases h with rfl | ⟨a, rfl, -⟩
  · obtain ⟨k, hk⟩ := Set.Finite.bddBelow hfinite
    obtain ⟨x, hx, hlt⟩ := exists_mem_lt h k
    exact absurd (hk hx) (not_le.2 hlt)
  · rcases upper_cases h with rfl | ⟨b, rfl, -⟩
    · obtain ⟨k, hk⟩ := Set.Finite.bddAbove hfinite
      obtain ⟨x, hx, hlt⟩ := exists_lt_mem h k
      exact absurd (hk hx) (not_le.2 hlt)
    · exact ⟨a, b, rfl, rfl⟩

/-- The lower bounds of the differences of two intervals. -/
theorem le_sub_iff (hab : (interval a b).Nonempty) (hcd : (interval c d).Nonempty) :
    (∀ x ∈ interval a b, ∀ y ∈ interval c d, l ≤ ((x - y : Int) : ExtInt)) ↔ l = ⊥ ∨ l + d ≤ a := by
  obtain ⟨x, hx⟩ := hab
  obtain ⟨y, hy⟩ := hcd
  rcases extInt_cases l with rfl | rfl | ⟨k, rfl⟩
  · exact iff_of_true (fun _ _ _ _ => bot_le) (.inl rfl)
  · refine iff_of_false (fun hle => absurd (hle x hx y hy) (by simp)) ?_
    rintro (htop | hsum)
    · exact absurd htop (by simp)
    · have hle := (add_le_add_right hy.2 ⊤).trans (hsum.trans hx.1)
      exact absurd hle (fun hle => WithTop.not_top_le_coe x (WithBot.coe_le_coe.1 hle))
  · rw [or_iff_right (by simp)]
    constructor
    · intro hle
      have hle : ∀ x ∈ interval a b, ∀ y ∈ interval c d, k ≤ x - y :=
        fun x hx y hy => by exact_mod_cast hle x hx y hy
      rcases lower_cases ⟨x, hx⟩ with rfl | ⟨a, rfl, ha⟩
      · obtain ⟨x', hx', hlt⟩ := exists_mem_lt ⟨x, hx⟩ (k + y)
        have := hle x' hx' y hy
        omega
      · rcases upper_cases ⟨y, hy⟩ with rfl | ⟨d, rfl, hd⟩
        · obtain ⟨y', hy', hlt⟩ := exists_lt_mem ⟨y, hy⟩ (x - k)
          have := hle x hx y' hy'
          omega
        · have := hle a ha d hd
          exact_mod_cast (by omega : k + d ≤ a)
    · intro hsum x hx y hy
      have hlt := (add_le_add_right hy.2 _).trans (hsum.trans hx.1)
      have : k + y ≤ x := by exact_mod_cast hlt
      exact_mod_cast (by omega : k ≤ x - y)

/-- The upper bounds of the differences of two intervals. -/
theorem sub_le_iff (hab : (interval a b).Nonempty) (hcd : (interval c d).Nonempty) :
    (∀ x ∈ interval a b, ∀ y ∈ interval c d, ((x - y : Int) : ExtInt) ≤ u) ↔ u = ⊤ ∨ b ≤ u + c := by
  obtain ⟨x, hx⟩ := hab
  obtain ⟨y, hy⟩ := hcd
  rcases extInt_cases u with rfl | rfl | ⟨k, rfl⟩
  · refine iff_of_false (fun hle => absurd (hle x hx y hy) (by simp)) ?_
    rintro (hbot | hsum)
    · exact absurd hbot (by simp)
    · exact absurd (hx.2.trans hsum) (by simp)
  · exact iff_of_true (fun _ _ _ _ => by exact_mod_cast le_top) (.inl rfl)
  · rw [or_iff_right (by simp)]
    constructor
    · intro hle
      have hle : ∀ x ∈ interval a b, ∀ y ∈ interval c d, x - y ≤ k :=
        fun x hx y hy => by exact_mod_cast hle x hx y hy
      rcases upper_cases ⟨x, hx⟩ with rfl | ⟨b, rfl, hb⟩
      · obtain ⟨x', hx', hlt⟩ := exists_lt_mem ⟨x, hx⟩ (k + y)
        have := hle x' hx' y hy
        omega
      · rcases lower_cases ⟨y, hy⟩ with rfl | ⟨c, rfl, hc⟩
        · obtain ⟨y', hy', hlt⟩ := exists_mem_lt ⟨y, hy⟩ (x - k)
          have := hle x hx y' hy'
          omega
        · have := hle b hb c hc
          exact_mod_cast (by omega : b ≤ k + c)
    · intro hsum x hx y hy
      have hlt := (hx.2.trans hsum).trans (add_le_add_right hy.1 _)
      have : x ≤ k + y := by exact_mod_cast hlt
      exact_mod_cast (by omega : x - y ≤ k)

end

/-! ## Products -/

section
variable {R : Type*} [Ring R] [LinearOrder R] [IsStrictOrderedRing R] {a b c d x y : R}

/-- A multiple of a value between two others lies between their multiples. -/
theorem mul_mem_ends (ha : a ≤ x) (hb : x ≤ b) (y : R) :
    min (a * y) (b * y) ≤ x * y ∧ x * y ≤ max (a * y) (b * y) := by
  rcases le_total 0 y with hy | hy
  · exact ⟨min_le_iff.2 (.inl (mul_le_mul_of_nonneg_right ha hy)),
      le_max_iff.2 (.inr (mul_le_mul_of_nonneg_right hb hy))⟩
  · exact ⟨min_le_iff.2 (.inr (mul_le_mul_of_nonpos_right hb hy)),
      le_max_iff.2 (.inl (mul_le_mul_of_nonpos_right ha hy))⟩

theorem mul_mem_ends' (hc : c ≤ y) (hd : y ≤ d) (x : R) :
    min (x * c) (x * d) ≤ x * y ∧ x * y ≤ max (x * c) (x * d) := by
  rcases le_total 0 x with hx | hx
  · exact ⟨min_le_iff.2 (.inl (mul_le_mul_of_nonneg_left hc hx)),
      le_max_iff.2 (.inr (mul_le_mul_of_nonneg_left hd hx))⟩
  · exact ⟨min_le_iff.2 (.inr (mul_le_mul_of_nonpos_left hd hx)),
      le_max_iff.2 (.inl (mul_le_mul_of_nonpos_left hc hx))⟩

/-- The products of two closed intervals lie between their corners. -/
theorem mul_mem_corners (ha : a ≤ x) (hb : x ≤ b) (hc : c ≤ y) (hd : y ≤ d) :
    min (min (a * c) (a * d)) (min (b * c) (b * d)) ≤ x * y ∧
      x * y ≤ max (max (a * c) (a * d)) (max (b * c) (b * d)) :=
  ⟨(min_le_min (mul_mem_ends' hc hd a).1 (mul_mem_ends' hc hd b).1).trans (mul_mem_ends ha hb y).1,
    (mul_mem_ends ha hb y).2.trans (max_le_max (mul_mem_ends' hc hd a).2 (mul_mem_ends' hc hd b).2)⟩

end

end OmpSs.Lib
