import Mathlib.Data.List.Perm.Basic
import Mathlib.Data.List.Nodup
import Mathlib.Data.Int.Order.Basic
import Mathlib.Tactic.Ring
import Mathlib.Tactic.Linarith

/-!
# Counted loops

The loop `for ( i = lower; step < 0 ? i >= upper : i <= upper; i += step )` over exact integers, with
an inclusive upper bound: its number of iterations (`tripCount`), its iterations in order
(`iterations`), and how it is cut into pieces. A piece is a loop again; when its bounds single out the
iterations numbered from `i` to `j` it runs exactly those (`iterations_piece`), so a distribution of
the loop is right as soon as the iteration numbers of its pieces partition `0 .. n`
(`pieces_perm`).
-/

namespace OmpSs.Lib

/-- The loop test: `v` has not passed `upper` in the direction of `step`. -/
def within (upper step v : Int) : Bool := if step < 0 then decide (upper ≤ v) else decide (v ≤ upper)

/-- The number of iterations. `Int.tdiv` is the truncating division of C. -/
def tripCount (lower upper step : Int) : Nat :=
  if within upper step lower then ((upper - lower).tdiv step).toNat + 1 else 0

/-- The values of the loop variable, in order. -/
def iterations (lower upper step : Int) : List Int :=
  (List.range (tripCount lower upper step)).map fun k : Nat => lower + (k : Int) * step

section
variable {lower upper step u v : Int} {i j k n : Nat}

/-- For a step other than 0 the test is a comparison of multiples of the step. -/
theorem within_iff (h : step ≠ 0) : within upper step v = true ↔ v * step ≤ upper * step := by
  unfold within
  split
  · next hneg =>
    rw [decide_eq_true_iff]
    exact (mul_le_mul_right_of_neg hneg).symm
  · next hpos =>
    rw [decide_eq_true_iff]
    exact (mul_le_mul_iff_of_pos_right (by omega)).symm

/-- A bound that is an iteration lets through the iterations up to it. -/
theorem within_iterate_iff (h : step ≠ 0) :
    within (lower + j * step) step (lower + k * step) = true ↔ k ≤ j := by
  have hring : ∀ m : Nat, (lower + m * step) * step = lower * step + m * (step * step) := by
    intro m
    ring
  rw [within_iff h, hring, hring, add_le_add_iff_left, mul_le_mul_iff_of_pos_right
    (lt_of_le_of_ne (mul_self_nonneg step) (mul_ne_zero h h).symm), Nat.cast_le]

/-- The division in `tripCount`, where there is an iteration. -/
theorem le_tdiv_iff (h : step ≠ 0) (hin : within upper step lower = true) :
    (k : Int) ≤ (upper - lower).tdiv step ↔ within upper step (lower + k * step) = true := by
  rcases lt_or_gt_of_ne h with hneg | hpos
  · have hle : upper ≤ lower := by simpa [within, hneg] using hin
    have hdiv : (upper - lower).tdiv step = (lower - upper) / (-step) := by
      rw [← Int.neg_sub lower upper, ← Int.neg_neg step, Int.neg_tdiv, Int.tdiv_neg, Int.neg_neg,
        Int.neg_neg, Int.tdiv_eq_ediv_of_nonneg (by omega)]
    rw [hdiv, Int.le_ediv_iff_mul_le (by omega)]
    simp only [within, hneg, if_true, decide_eq_true_eq, Int.mul_neg]
    omega
  · have hle : lower ≤ upper := by
      have : ¬ step < 0 := by omega
      simpa [within, this] using hin
    rw [Int.tdiv_eq_ediv_of_nonneg (by omega), Int.le_ediv_iff_mul_le hpos]
    have : ¬ step < 0 := by omega
    simp only [within, this, if_false, decide_eq_true_eq]
    omega

/-- Iteration number `k` is run exactly when it passes the test. -/
theorem lt_tripCount_iff (h : step ≠ 0) :
    k < tripCount lower upper step ↔ within upper step (lower + k * step) = true := by
  unfold tripCount
  split
  · next hin =>
    rw [← le_tdiv_iff h hin]
    have h0 := (le_tdiv_iff (k := 0) h hin).2 (by simpa using hin)
    omega
  · next hout =>
    refine ⟨fun hk => absurd hk (Nat.not_lt_zero k), fun hk => absurd ?_ hout⟩
    rw [within_iff h] at hk ⊢
    have : 0 ≤ (k : Int) * (step * step) := mul_nonneg (Int.natCast_nonneg k) (mul_self_nonneg step)
    have hring : (lower + k * step) * step = lower * step + k * (step * step) := by ring
    omega

/-- The trip count as C computes it, where there is an iteration. -/
theorem tdiv_add_one_eq (h : step ≠ 0) (hin : within upper step lower = true) :
    (upper - lower).tdiv step + 1 = tripCount lower upper step := by
  have h0 := (le_tdiv_iff (k := 0) h hin).2 (by simpa using hin)
  rw [tripCount, if_pos hin]
  omega

/-- A loop that starts past its end: moving the start by `m` steps, backwards by no more than the
truncated quotient allows, leaves it past the end. -/
theorem not_within_of_le {m : Int} (h : step ≠ 0) (hout : ¬ within upper step lower = true)
    (hm : min ((upper - lower).tdiv step + 1) 0 ≤ m) :
    ¬ within upper step (lower + m * step) = true := by
  rcases lt_or_gt_of_ne h with hneg | hpos
  · simp only [within, hneg, if_true, decide_eq_true_eq] at hout ⊢
    have hquot : (upper - lower).tdiv step * step ≤ upper - lower := by
      have hdiv : (upper - lower).tdiv step = -((upper - lower) / (-step)) := by
        rw [← Int.tdiv_eq_ediv_of_nonneg (by omega), Int.tdiv_neg, Int.neg_neg]
      have := Int.ediv_mul_le (upper - lower) (by omega : -step ≠ 0)
      rw [hdiv]
      linarith
    rcases min_le_iff.1 hm with hm | hm
    · have := mul_le_mul_of_nonpos_right hm hneg.le
      linarith
    · have := mul_nonpos_of_nonneg_of_nonpos hm hneg.le
      linarith
  · have hnot : ¬ step < 0 := by omega
    simp only [within, hnot, if_false, decide_eq_true_eq] at hout ⊢
    have hquot : upper - lower ≤ (upper - lower).tdiv step * step := by
      have hdiv : (upper - lower).tdiv step = -((lower - upper) / step) := by
        rw [← Int.tdiv_eq_ediv_of_nonneg (by omega), ← Int.neg_tdiv, Int.neg_sub]
      have := Int.ediv_mul_le (lower - upper) h
      rw [hdiv]
      linarith
    rcases min_le_iff.1 hm with hm | hm
    · have := mul_le_mul_of_nonneg_right hm hpos.le
      linarith
    · have := mul_nonneg hm hpos.le
      linarith

/-- The trip count is bounded by the distance of the bounds. -/
theorem tripCount_le : tripCount lower upper step ≤ (upper - lower).natAbs + 1 := by
  unfold tripCount
  have := Int.natAbs_tdiv_le_natAbs (upper - lower) step
  split <;> omega

/-- What is left of the loop from iteration `i` on. -/
theorem tripCount_add (h : step ≠ 0) :
    tripCount (lower + i * step) upper step = tripCount lower upper step - i := by
  refine eq_of_forall_lt_iff fun k => ?_
  have hshift : lower + i * step + k * step = lower + (i + k : Nat) * step := by
    push_cast
    ring
  rw [lt_tripCount_iff h, hshift, ← lt_tripCount_iff h]
  omega

theorem mem_iterations (h : step ≠ 0) : v ∈ iterations lower upper step ↔
    ∃ k : Nat, v = lower + k * step ∧ within upper step v = true := by
  simp only [iterations, List.mem_map, List.mem_range]
  constructor
  · rintro ⟨k, hk, rfl⟩
    exact ⟨k, rfl, (lt_tripCount_iff h).1 hk⟩
  · rintro ⟨k, rfl, hk⟩
    exact ⟨k, (lt_tripCount_iff h).2 hk, rfl⟩

theorem iterate_injective (h : step ≠ 0) (lower : Int) :
    Function.Injective fun k : Nat => lower + (k : Int) * step := by
  intro a b hab
  have := mul_right_cancel₀ h (add_left_cancel hab)
  exact_mod_cast this

/-- No value is taken twice. -/
theorem nodup_iterations (h : step ≠ 0) : (iterations lower upper step).Nodup :=
  List.nodup_range.map (iterate_injective h lower)

/-- A piece whose bound lets through the iterations numbered from `i` to `j`. -/
theorem iterations_piece (h : step ≠ 0)
    (hpiece : ∀ k : Nat, within u step (lower + (i + k : Nat) * step) = true ↔ i + k < j) :
    iterations (lower + i * step) u step =
      (List.range' i (j - i)).map fun k : Nat => lower + (k : Int) * step := by
  have hcount : tripCount (lower + i * step) u step = j - i := by
    refine eq_of_forall_lt_iff fun k => ?_
    rw [lt_tripCount_iff h]
    have hshift : lower + i * step + k * step = lower + (i + k : Nat) * step := by
      push_cast
      ring
    rw [hshift, hpiece]
    omega
  unfold iterations
  rw [hcount, List.range'_eq_map_range, List.map_map]
  refine List.map_congr_left fun k _ => ?_
  simp only [Function.comp]
  push_cast
  ring

/-- The loop up to iteration `m`, and the rest of it. -/
theorem iterations_append (h : step ≠ 0) {m : Nat} (hm : m < tripCount lower upper step) :
    iterations lower (lower + m * step) step ++ iterations (lower + m * step + step) upper step =
      iterations lower upper step := by
  have hfirst := @iterations_piece lower step (lower + m * step) 0 (m + 1) h fun k => by
    rw [Nat.zero_add, within_iterate_iff h, Nat.lt_succ_iff]
  have hnext : lower + m * step + step = lower + (m + 1 : Nat) * step := by
    push_cast
    ring
  have hcount : m + 1 + (tripCount lower upper step - (m + 1)) = tripCount lower upper step := by omega
  rw [Nat.cast_zero, zero_mul, add_zero, Nat.sub_zero, ← List.range_eq_range'] at hfirst
  rw [hfirst, hnext, iterations, tripCount_add h, iterations]
  conv_rhs => rw [← hcount, List.range_add, List.map_append, List.map_map]
  refine congrArg _ (List.map_congr_left fun k _ => ?_)
  simp only [Function.comp]
  push_cast
  ring

/-- The iteration numbers from `i` to `i + c`, cut off at `n`. -/
def piece (n : Nat) (p : Nat × Nat) : List Nat := List.range' p.1 (min (p.1 + p.2) n - p.1)

theorem mem_piece {p : Nat × Nat} : k ∈ piece n p ↔ p.1 ≤ k ∧ k < p.1 + p.2 ∧ k < n := by
  rw [piece, List.mem_range'_1]
  omega

/-- Pieces that follow one another. -/
theorem flatMap_pieces (start size : Nat → Nat) (hzero : start 0 = 0)
    (hsucc : ∀ k, start (k + 1) = start k + size k) (n t : Nat) :
    ((List.range t).flatMap fun k => piece n (start k, size k)) = List.range (min (start t) n) := by
  induction t with
  | zero => simp [hzero]
  | succ t ih =>
    rw [List.range_succ, List.flatMap_append, ih, hsucc, List.flatMap_singleton, piece,
      List.range_eq_range', List.range_eq_range']
    rcases Nat.le_total (start t) n with hle | hle
    · obtain ⟨m, hm⟩ : ∃ m, min (start t + size t) n = start t + m :=
        ⟨min (start t + size t) n - start t, by omega⟩
      rw [min_eq_left hle]
      simp only [hm, Nat.add_sub_cancel_left]
      rw [← List.range'_append_1, Nat.zero_add]
    · rw [min_eq_right hle, min_eq_right (by omega), Nat.sub_eq_zero_of_le hle]
      exact List.append_nil _

/-- Pieces whose iteration numbers partition `0 .. n` run every iteration once. -/
theorem pieces_perm {α : Type*} (l : List α) (number : α → List Nat)
    (hl : (l.flatMap number).Perm (List.range (tripCount lower upper step))) :
    (l.flatMap fun p => (number p).map fun k : Nat => lower + (k : Int) * step).Perm
      (iterations lower upper step) := by
  rw [← List.map_flatMap]
  exact hl.map _

/-- The last value of a loop that has one. -/
theorem getLast?_iterations (h : (iterations lower upper step).getLast? = some v) :
    0 < tripCount lower upper step ∧ v = lower + (tripCount lower upper step - 1 : Nat) * step := by
  unfold iterations at h
  rw [List.getLast?_map, List.getLast?_range] at h
  split at h
  · cases h
  · next hpos =>
    exact ⟨Nat.pos_of_ne_zero hpos, (Option.some.inj h).symm⟩

theorem iterations_eq_nil (h : iterations lower upper step = []) :
    tripCount lower upper step = 0 := by
  simpa [iterations] using h

theorem within_of_iterations_ne_nil (h : iterations lower upper step ≠ []) :
    within upper step lower = true := by
  by_contra hout
  refine h ?_
  rw [iterations, tripCount, if_neg hout]
  rfl

end

/-- Pieces that share nothing: a value of their union is in exactly one of them. -/
theorem exists_filter_eq_singleton {α β : Type*} [DecidableEq β] {f : α → List β} {v : β} :
    ∀ {l : List α}, (l.flatMap f).Nodup → v ∈ l.flatMap f →
      ∃ x, l.filter (fun x => decide (v ∈ f x)) = [x]
  | [], _, hv => absurd hv List.not_mem_nil
  | x :: l, hnodup, hv => by
    rw [List.flatMap_cons] at hnodup hv
    obtain ⟨_, hrest, hdisjoint⟩ := List.nodup_append.1 hnodup
    by_cases hx : v ∈ f x
    · refine ⟨x, ?_⟩
      rw [List.filter_cons_of_pos (by simpa using hx), List.filter_eq_nil_iff.2]
      intro y hy hvy
      exact hdisjoint v hx v (List.mem_flatMap.2 ⟨y, hy, by simpa using hvy⟩) rfl
    · obtain ⟨y, hy⟩ := exists_filter_eq_singleton hrest
        ((List.mem_append.1 hv).resolve_left hx)
      exact ⟨y, by rw [List.filter_cons_of_neg (by simpa using hx), hy]⟩

end OmpSs.Lib
