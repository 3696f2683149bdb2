import OmpSs.Lib.LoopTrace

/-!
# Loops in parts

A counted loop is split into parts that are counted loops of the same step and go through its iterations
together, each once (`Splits`). Something is run for each part and leaves a list; `Yields` says that the lists
are together what is asked for. It is enough that each part leaves its own iterations (`yields_of_forall`), and a
split into one part shows what that part has to leave (`yields_singleton_iff`).
-/

namespace OmpSs.Lib

section
variable {α β : Type*} {R : α → List β → Prop} {xs : List β}

/-- What is run for the parts leaves the values, each as often as it is in the list. -/
def Yields (R : α → List β → Prop) (parts : List α) (values : List β) : Prop :=
  ∃ outs, List.Forall₂ R parts outs ∧ outs.flatten.Perm values

theorem forall₂_map {parts : List α} {values : α → List β} (h : ∀ p ∈ parts, R p (values p)) :
    List.Forall₂ R parts (parts.map values) := by
  rw [List.forall₂_map_right_iff]
  exact List.forall₂_same.2 h

theorem yields_of_forall {parts : List α} {values : α → List β} (hparts : (parts.flatMap values).Perm xs)
    (h : ∀ p ∈ parts, R p (values p)) : Yields R parts xs :=
  ⟨parts.map values, forall₂_map h, by rwa [← List.flatMap_def]⟩

theorem yields_nil_iff : Yields R [] xs ↔ xs = [] := by
  constructor
  · rintro ⟨outs, hrun, hperm⟩
    obtain rfl := List.forall₂_nil_left_iff.1 hrun
    exact List.nil_perm.1 hperm
  · rintro rfl
    exact ⟨[], .nil, .nil⟩

theorem yields_singleton_iff {p : α} : Yields R [p] xs ↔ ∃ out, R p out ∧ out.Perm xs := by
  constructor
  · rintro ⟨outs, hrun, hperm⟩
    obtain ⟨out, rest, hout, hrest, rfl⟩ := List.forall₂_cons_left_iff.1 hrun
    obtain rfl := List.forall₂_nil_left_iff.1 hrest
    rw [List.flatten_singleton] at hperm
    exact ⟨out, hout, hperm⟩
  · rintro ⟨out, hout, hperm⟩
    exact ⟨[out], .cons hout .nil, by rwa [List.flatten_singleton]⟩

end

/-! ## Parts of a counted loop -/

/-- The bounds of a part. -/
structure LoopPart where
  lower : Int
  upper : Int
deriving DecidableEq

def LoopPart.values (step : Int) (p : LoopPart) : List Int := iterations p.lower p.upper step

/-- The parts have the iterations of the loop, each once. -/
def Splits (step : Int) (parts : List LoopPart) (lower upper : Int) : Prop :=
  (parts.flatMap (LoopPart.values step)).Perm (iterations lower upper step)

theorem Splits.mem {lower upper step v : Int} {parts : List LoopPart} {p : LoopPart}
    (h : Splits step parts lower upper) (hp : p ∈ parts) (hv : v ∈ p.values step) :
    v ∈ iterations lower upper step := h.subset (List.mem_flatMap.2 ⟨p, hp, hv⟩)

/-! ## The ends of a counted loop -/

/-- The last iteration of a loop that has one. -/
def lastIteration (lower upper step : Int) : Int := lower + (tripCount lower upper step - 1 : ℕ) * step

section
variable {lower upper step v : Int} {n : ℕ}

theorem iterations_eq_nil_iff : iterations lower upper step = [] ↔ ¬ within upper step lower = true := by
  rw [iterations, List.map_eq_nil_iff, List.range_eq_nil, tripCount]
  split
  · next h => exact iff_of_false (Nat.succ_ne_zero _) (not_not.2 h)
  · next h => exact iff_of_true rfl h

theorem lastIteration_eq (h : tripCount lower upper step = n + 1) :
    lastIteration lower upper step = lower + n * step := by
  rw [lastIteration, h, Nat.add_sub_cancel]

theorem exists_tripCount (h : iterations lower upper step ≠ []) : ∃ n, tripCount lower upper step = n + 1 := by
  refine Nat.exists_eq_succ_of_ne_zero fun hcount => h ?_
  rw [iterations, hcount, List.range_zero, List.map_nil]

theorem iterations_eq_singleton (h : step ≠ 0) (hin : within upper step lower = true)
    (hout : within upper step (lower + step) = false) : iterations lower upper step = [lower] := by
  have hcount : tripCount lower upper step = 1 := by
    have hfirst := (lt_tripCount_iff (k := 0) h).2 (by rwa [Nat.cast_zero, Int.zero_mul, Int.add_zero])
    have hsecond := (lt_tripCount_iff (k := 1) h).not.2 (by
      rw [Nat.cast_one, Int.one_mul, hout]
      decide)
    omega
  rw [iterations, hcount, List.range_one, List.map_singleton, Nat.cast_zero, Int.zero_mul, Int.add_zero]

theorem iterate_mem_iff (h : step ≠ 0) {k : ℕ} :
    lower + k * step ∈ iterations lower upper step ↔ k < tripCount lower upper step := by
  rw [iterations, List.mem_map]
  constructor
  · rintro ⟨j, hj, hjk⟩
    exact iterate_injective h lower hjk ▸ List.mem_range.1 hj
  · exact fun hk => ⟨k, List.mem_range.2 hk, rfl⟩

theorem lower_mem (h : step ≠ 0) (hne : iterations lower upper step ≠ []) : lower ∈ iterations lower upper step := by
  obtain ⟨n, hn⟩ := exists_tripCount hne
  have hfirst := (iterate_mem_iff h).2 (n.succ_pos.trans_eq hn.symm)
  rwa [Nat.cast_zero, Int.zero_mul, Int.add_zero] at hfirst

theorem lastIteration_mem (h : step ≠ 0) (hne : iterations lower upper step ≠ []) :
    lastIteration lower upper step ∈ iterations lower upper step := by
  obtain ⟨n, hn⟩ := exists_tripCount hne
  rw [lastIteration_eq hn, iterate_mem_iff h, hn]
  exact n.lt_succ_self

/-- The upper bound lies behind the last iteration, and before the next value. -/
theorem within_lastIteration (h : step ≠ 0) (hne : iterations lower upper step ≠ []) :
    within upper step (lastIteration lower upper step) = true ∧
      within upper step (lastIteration lower upper step + step) = false := by
  obtain ⟨n, hn⟩ := exists_tripCount hne
  have hnext : lower + n * step + step = lower + (n + 1 : ℕ) * step := by
    push_cast
    ring
  rw [lastIteration_eq hn, hnext, ← Bool.not_eq_true, ← lt_tripCount_iff h, ← lt_tripCount_iff h, hn]
  omega

/-- An iteration lies between the bounds. -/
theorem between_of_mem (h : step ≠ 0) (hv : v ∈ iterations lower upper step) :
    lower ≤ v ∧ v ≤ upper ∨ upper ≤ v ∧ v ≤ lower := by
  obtain ⟨k, hk, hin⟩ := (mem_iterations h).1 hv
  have hk0 := Nat.cast_nonneg (α := Int) k
  unfold within at hin
  split at hin
  · next hneg =>
    rw [decide_eq_true_eq] at hin
    have hsteps := mul_nonpos_of_nonneg_of_nonpos hk0 hneg.le
    exact .inr ⟨hin, by omega⟩
  · next hpos =>
    rw [decide_eq_true_eq] at hin
    have hsteps := mul_nonneg hk0 (not_lt.1 hpos)
    exact .inl ⟨by omega, hin⟩

/-- The iterations of an upward loop. -/
theorem bounds_of_mem (h : 0 < step) (hv : v ∈ iterations lower upper step) :
    lower ≤ v ∧ v ≤ lastIteration lower upper step := by
  obtain ⟨k, hk, rfl⟩ := List.mem_map.1 hv
  have hle : (k : Int) ≤ (tripCount lower upper step - 1 : ℕ) :=
    Nat.cast_le.2 (Nat.le_sub_one_of_lt (List.mem_range.1 hk))
  have hfirst := mul_nonneg (Nat.cast_nonneg (α := Int) k) h.le
  have hlast := mul_le_mul_of_nonneg_right hle h.le
  rw [lastIteration]
  omega

theorem lastIteration_upward (h : 0 < step) (hne : iterations lower upper step ≠ []) :
    lower ≤ lastIteration lower upper step ∧ lastIteration lower upper step ≤ upper ∧
      upper < lastIteration lower upper step + step := by
  have hin := within_lastIteration h.ne' hne
  rw [within, within, if_neg (not_lt.2 h.le), if_neg (not_lt.2 h.le), decide_eq_true_eq, decide_eq_false_iff_not,
    not_le] at hin
  exact ⟨(bounds_of_mem h (lastIteration_mem h.ne' hne)).1, hin⟩

theorem lastIteration_downward (h : step < 0) (hne : iterations lower upper step ≠ []) :
    lastIteration lower upper step ≤ lower ∧ upper ≤ lastIteration lower upper step ∧
      lastIteration lower upper step + step < upper := by
  have hin := within_lastIteration h.ne hne
  rw [within, within, if_pos h, if_pos h, decide_eq_true_eq, decide_eq_false_iff_not, not_le] at hin
  have hsteps := mul_nonneg_of_nonpos_of_nonpos (neg_nonpos.2 (Nat.cast_nonneg (α := Int)
    (tripCount lower upper step - 1))) h.le
  rw [neg_mul] at hsteps
  refine ⟨?_, hin⟩
  rw [lastIteration]
  omega

end

/-! ## A loop over a part -/

section
variable {test : Int → Bool} {next : Int → Option Int} {lower upper step : Int} {out : List Int}

/-- A loop that goes through the iterations, if it goes through them in any order. -/
theorem ends_of_visits (h : step ≠ 0) (hne : iterations lower upper step ≠ []) (hvisits : Visits test next lower out)
    (hperm : out.Perm (iterations lower upper step))
    (hnext : ∀ v ∈ iterations lower upper step, v + step ∈ iterations lower upper step →
      next v = some (v + step)) :
    (∀ v ∈ iterations lower upper step, test v = true) ∧
      ∃ u, next (lastIteration lower upper step) = some u ∧ test u = false := by
  have hsucc : ∀ k : ℕ, lower + (k + 1 : ℕ) * step = lower + k * step + step := by
    intro k
    push_cast
    ring
  have hout := eq_iterations_of_visits hvisits hperm fun k hk u hu => by
    have hin := (iterate_mem_iff h).2 hk
    rw [hsucc] at hin ⊢
    rw [hnext _ ((iterate_mem_iff h).2 (Nat.lt_of_succ_lt hk)) hin] at hu
    exact (Option.some.inj hu).symm
  obtain ⟨n, hn⟩ := exists_tripCount hne
  rw [hout, visits_iterations_iff, hn] at hvisits
  obtain ⟨-, htest, -, hend⟩ := hvisits
  rw [lastIteration_eq hn]
  refine ⟨fun v hv => ?_, hend⟩
  obtain ⟨k, hk, rfl⟩ := List.mem_map.1 hv
  rw [List.mem_range, hn] at hk
  exact htest k (Nat.le_of_lt_succ hk)

theorem visits_of_ends (h : step ≠ 0) (hne : iterations lower upper step ≠ [])
    (htest : ∀ v ∈ iterations lower upper step, test v = true)
    (hnext : ∀ v ∈ iterations lower upper step, v + step ∈ iterations lower upper step → next v = some (v + step))
    (hend : ∃ u, next (lastIteration lower upper step) = some u ∧ test u = false) :
    Visits test next lower (iterations lower upper step) := by
  obtain ⟨n, hn⟩ := exists_tripCount hne
  have hmem : ∀ k ≤ n, lower + k * step ∈ iterations lower upper step := by
    intro k hk
    rw [iterate_mem_iff h, hn]
    omega
  rw [visits_iterations_iff, hn]
  rw [lastIteration_eq hn] at hend
  refine ⟨rfl, fun k hk => htest _ (hmem k hk), fun k hk => ?_, hend⟩
  have hsucc : lower + (k + 1 : ℕ) * step = lower + k * step + step := by
    push_cast
    ring
  have hin := hmem (k + 1) hk
  rw [hsucc] at hin ⊢
  exact hnext _ (hmem k hk.le) hin

/-- The loop of C for an upward counted loop. -/
theorem visits_upward (h : 0 < step) (hnext : ∀ v ∈ iterations lower upper step, next v = some (v + step)) :
    Visits (fun v => decide (v ≤ upper)) next lower (iterations lower upper step) := by
  have htest : ∀ v, decide (v ≤ upper) = within upper step v := by
    intro v
    rw [within, if_neg (not_lt.2 h.le)]
  by_cases hne : iterations lower upper step = []
  · rw [hne, visits_nil_iff, htest, ← Bool.not_eq_true]
    exact iterations_eq_nil_iff.1 hne
  · have hlast := lastIteration_upward h hne
    refine visits_of_ends h.ne' hne (fun v hv => ?_) (fun v hv _ => hnext v hv)
      ⟨_, hnext _ (lastIteration_mem h.ne' hne), decide_eq_false (not_le.2 hlast.2.2)⟩
    exact decide_eq_true ((bounds_of_mem h hv).2.trans hlast.2.1)

end

end OmpSs.Lib
