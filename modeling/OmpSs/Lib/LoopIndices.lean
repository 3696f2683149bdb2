import OmpSs.Lib.CountedLoop

/-!
# The index values of a loop

`indexAt test next k v` is the value that the variable of a loop started at `v` has in iteration number `k`,
and none where the loop has ended before. A loop that never ends has all of them, which a trace of it could
not tell.

The variable of a loop in a machine type is moved on by a `step` and then brought back into the type by
`wrap`. Such a loop has the index values of the range loop over exact integers (`within`) exactly when it
`FollowsRange` it: in all iterations of the range loop it is at the exact value and goes on, and after them it
stops (`indexAt_range_iff`).
-/

namespace OmpSs.Lib

/-- The value of the variable in iteration number `k`. -/
def indexAt {σ : Type*} (test : σ → Bool) (next : σ → Option σ) : ℕ → σ → Option σ
  | 0, v => if test v then some v else none
  | k + 1, v => if test v then (next v).bind (indexAt test next k) else none

/-- The loop can go on from all values that it gets to. -/
def GoesOn {σ : Type*} (test : σ → Bool) (next : σ → Option σ) (v : σ) : Prop :=
  ∀ k u, indexAt test next k v = some u → (next u).isSome

/-- The loop over exact integers with an inclusive bound. -/
def rangeAt (upper step : Int) : ℕ → Int → Option Int := indexAt (within upper step) fun i => some (i + step)

/-- The iterations `0 .. n` of the exact loop are iterations of this one, and they are all. -/
def FollowsRange (test : Int → Bool) (wrap : Int → Int) (start step : Int) (n : ℕ) : Prop :=
  (∀ k < n, wrap (start + k * step) = start + k * step ∧ test (start + k * step) = true) ∧
    test (wrap (start + n * step)) = false

instance (test : Int → Bool) (wrap : Int → Int) (start step : Int) (n : ℕ) :
    Decidable (FollowsRange test wrap start step n) :=
  inferInstanceAs (Decidable (_ ∧ _))

section
variable {σ : Type*} {test : σ → Bool} {next : σ → Option σ} {v u : σ}

theorem indexAt_of_not_test (h : test v = false) : ∀ k, indexAt test next k v = none
  | 0 => by rw [indexAt, h, if_neg Bool.false_ne_true]
  | k + 1 => by rw [indexAt, h, if_neg Bool.false_ne_true]

theorem indexAt_zero_of_test (h : test v = true) : indexAt test next 0 v = some v := by
  rw [indexAt, if_pos h]

theorem indexAt_succ_of_next (h : test v = true) (hnext : next v = some u) (k : ℕ) :
    indexAt test next (k + 1) v = indexAt test next k u := by
  rw [indexAt, if_pos h, hnext, Option.bind_some]

theorem GoesOn.exists_next (h : GoesOn test next v) (htest : test v = true) :
    ∃ u, next v = some u ∧ GoesOn test next u := by
  obtain ⟨u, hu⟩ := Option.isSome_iff_exists.1 (h 0 v (indexAt_zero_of_test htest))
  exact ⟨u, hu, fun k w hw => h (k + 1) w ((indexAt_succ_of_next htest hu k).trans hw)⟩

end

section
variable {test : Int → Bool} {next : Int → Option Int} {wrap : Int → Int} {start step upper : Int} {n m : ℕ}

theorem FollowsRange.le_of (h : FollowsRange test wrap start step n)
    (h' : FollowsRange test wrap start step m) : m ≤ n := by
  by_contra hlt
  obtain ⟨hwrap, htest⟩ := h'.1 n (by omega)
  have hstop := h.2
  rw [hwrap, htest] at hstop
  cases hstop

/-- A loop follows an exact one through one number of iterations only. -/
theorem FollowsRange.unique (h : FollowsRange test wrap start step n)
    (h' : FollowsRange test wrap start step m) : n = m :=
  le_antisymm (h'.le_of h) (h.le_of h')

theorem followsRange_zero_iff (hwrap : wrap start = start) :
    FollowsRange test wrap start step 0 ↔ test start = false := by
  have hzero : start + (0 : ℕ) * step = start := by simp
  unfold FollowsRange
  rw [hzero, hwrap]
  exact and_iff_right fun k hk => absurd hk (Nat.not_lt_zero k)

/-- The first iteration, and the others. -/
theorem followsRange_succ_iff (hwrap : wrap start = start) :
    FollowsRange test wrap start step (n + 1) ↔
      test start = true ∧ FollowsRange test wrap (start + step) step n := by
  have hshift : ∀ k : ℕ, start + (k + 1 : ℕ) * step = start + step + k * step := by
    intro k
    push_cast
    ring
  have hzero : start + (0 : ℕ) * step = start := by simp
  unfold FollowsRange
  rw [hshift, ← and_assoc, Nat.forall_lt_succ_left]
  simp only [hshift, hzero, hwrap, true_and]

theorem followsRange_one_iff (hwrap : wrap start = start) : FollowsRange test wrap start step 1 ↔
    test start = true ∧ test (wrap (start + step)) = false := by
  unfold FollowsRange
  simp [hwrap]

theorem not_followsRange_of_wrap (hnext : wrap (start + step) ≠ start + step) :
    ¬ FollowsRange test wrap start step (n + 2) := by
  intro h
  have hone := (h.1 1 (by omega)).1
  rw [Nat.cast_one, Int.one_mul] at hone
  exact hnext hone

theorem rangeAt_of_within (h : within upper step start = true) (k : ℕ) :
    rangeAt upper step (k + 1) start = rangeAt upper step k (start + step) := by
  unfold rangeAt
  rw [indexAt, if_pos h, Option.bind_some]

/-- A loop that does not start. -/
theorem indexAt_range_of_not_test (h : test start = false) :
    (∀ k, indexAt test next k start = rangeAt upper step k start) ↔ within upper step start = false := by
  constructor
  · intro hall
    have hfirst := hall 0
    rw [indexAt_of_not_test h, rangeAt, indexAt] at hfirst
    simpa using hfirst.symm
  · intro hout k
    rw [indexAt_of_not_test h, rangeAt, indexAt_of_not_test hout]

/-- With the same first value in both loops, what is left of them decides. -/
theorem indexAt_eq_iff_of_test (htest : test start = true) {u : Int} (hu : next start = some u)
    (hin : within upper step start = true) :
    (∀ k, indexAt test next k start = rangeAt upper step k start) ↔
      ∀ k, indexAt test next k u = rangeAt upper step k (start + step) := by
  constructor
  · intro h k
    rw [← indexAt_succ_of_next htest hu, ← rangeAt_of_within hin, h]
  · rintro h (_ | k)
    · rw [indexAt_zero_of_test htest, rangeAt, indexAt_zero_of_test hin]
    · rw [indexAt_succ_of_next htest hu, rangeAt_of_within hin, h]

/-- Loops that are at different values have the same ones left only if both of them stop. -/
theorem indexAt_eq_iff_of_ne {u : Int} (hne : u ≠ start) :
    (∀ k, indexAt test next k u = rangeAt upper step k start) ↔
      test u = false ∧ within upper step start = false := by
  constructor
  · intro h
    have hfirst := h 0
    unfold rangeAt indexAt at hfirst
    cases hu : test u <;> cases hin : within upper step start <;> simp_all
  · rintro ⟨hu, hin⟩ k
    rw [indexAt_of_not_test hu, rangeAt, indexAt_of_not_test hin]

variable (hstart : wrap start = start) (hnext : ∀ v u, next v = some u → u = wrap (v + step))
  (hgoes : GoesOn test next start)
include hstart hnext hgoes

/-- **Range loops**: when a loop of a machine type has the index values of an exact one. -/
theorem indexAt_range_iff (hstep : step ≠ 0) :
    (∀ k, indexAt test next k start = rangeAt upper step k start) ↔
      FollowsRange test wrap start step (tripCount start upper step) := by
  generalize hn : tripCount start upper step = n
  induction n generalizing start with
  | zero =>
    have hout : within upper step start = false := by
      have hnot := (@lt_tripCount_iff start upper step 0 hstep).not.1 (by omega)
      simpa using hnot
    rw [followsRange_zero_iff hstart]
    constructor
    · intro h
      have hfirst := h 0
      rw [rangeAt, indexAt_of_not_test hout, indexAt] at hfirst
      simpa using hfirst
    · exact fun h => (indexAt_range_of_not_test h).2 hout
  | succ n ih =>
    have hin : within upper step start = true := by
      have hpos := (@lt_tripCount_iff start upper step 0 hstep).1 (by omega)
      simpa using hpos
    have hcount : tripCount (start + step) upper step = n := by
      have hadd := @tripCount_add start upper step 1 hstep
      rw [Nat.cast_one, Int.one_mul] at hadd
      omega
    cases htest : test start with
    | false =>
      refine iff_of_false (fun h => ?_) fun h => ?_
      · rw [(indexAt_range_of_not_test htest).1 h] at hin
        cases hin
      · have hzero := (h.1 0 n.succ_pos).2
        rw [Nat.cast_zero, Int.zero_mul, Int.add_zero, htest] at hzero
        cases hzero
    | true =>
      obtain ⟨u, hu, hrest⟩ := hgoes.exists_next htest
      obtain rfl := hnext _ _ hu
      rw [indexAt_eq_iff_of_test htest hu hin]
      by_cases hwrap : wrap (start + step) = start + step
      · rw [hwrap] at hrest ⊢
        rw [ih hwrap hrest hcount, followsRange_succ_iff hstart, htest]
        exact (and_iff_right rfl).symm
      · rw [indexAt_eq_iff_of_ne hwrap]
        -- Once the variable has wrapped around, both loops have to be at their ends.
        cases n with
        | zero =>
          have hout : within upper step (start + step) = false := by
            have hnot := (@lt_tripCount_iff (start + step) upper step 0 hstep).not.1
              (by omega)
            simpa using hnot
          unfold FollowsRange
          simp [hout, htest, hstart]
        | succ n =>
          have hpos := (@lt_tripCount_iff (start + step) upper step 0 hstep).1 (by omega)
          refine iff_of_false (fun h => ?_) (not_followsRange_of_wrap hwrap)
          simp [h.2] at hpos

/-- A loop that stays where it is. -/
theorem indexAt_range_zero_iff (hstep : step = 0) :
    (∀ k, indexAt test next k start = rangeAt upper step k start) ↔
      test start = within upper step start := by
  subst hstep
  constructor
  · intro h
    have hfirst := h 0
    unfold rangeAt indexAt at hfirst
    cases htest : test start <;> cases hin : within upper 0 start <;> simp_all
  · intro heq k
    cases htest : test start with
    | false => rw [indexAt_of_not_test htest, rangeAt, indexAt_of_not_test (heq.symm.trans htest)]
    | true =>
      have hin := heq.symm.trans htest
      obtain ⟨u, hu, -⟩ := hgoes.exists_next htest
      obtain rfl := hnext _ _ hu
      rw [Int.add_zero, hstart] at hu
      induction k with
      | zero => rw [indexAt_zero_of_test htest, rangeAt, indexAt_zero_of_test hin]
      | succ k ih => rw [indexAt_succ_of_next htest hu, rangeAt_of_within hin, ih, Int.add_zero]

end

end OmpSs.Lib
