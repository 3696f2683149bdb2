import Mathlib.Data.Int.Order.Basic
import Mathlib.Tactic.Ring

/-!
# Loops that count

A loop runs its body while `test` holds of its variable, and `next` gives the variable its next value, or
none where the computation is undefined. `Counts test next v n` says that the loop started at `v` ends after
`n` iterations. A machine type enters through `next`, which wraps around or has no value where exact addition
would go on. `Counts.iterate` follows the loop through iterations in which it adds exactly; `Counts.exact` is
for a loop that does so wherever it goes on.
-/

namespace OmpSs.Lib

/-- Started at the value, the loop ends after this many iterations. -/
inductive Counts {σ : Type*} (test : σ → Bool) (next : σ → Option σ) : σ → Nat → Prop
  | stop {v : σ} : test v = false → Counts test next v 0
  | step {v w : σ} {n : Nat} : test v = true → next v = some w → Counts test next w n →
      Counts test next v (n + 1)

section
variable {σ : Type*} {test : σ → Bool} {next : σ → Option σ} {v w : σ} {n : Nat}

theorem counts_of_not_test (h : test v = false) : Counts test next v n ↔ n = 0 := by
  constructor
  · rintro (_ | ⟨htest, -, -⟩)
    · rfl
    · rw [h] at htest
      cases htest
  · rintro rfl
    exact .stop h

theorem counts_of_test (h : test v = true) :
    Counts test next v n ↔ ∃ w m, next v = some w ∧ n = m + 1 ∧ Counts test next w m := by
  constructor
  · rintro (hstop | ⟨-, hnext, hrest⟩)
    · rw [h] at hstop
      cases hstop
    · exact ⟨_, _, hnext, rfl, hrest⟩
  · rintro ⟨w, m, hnext, rfl, hrest⟩
    exact .step h hnext hrest

/-- One iteration whose next value is known. -/
theorem counts_of_next (h : test v = true) (hnext : next v = some w) :
    Counts test next v n ↔ ∃ m, n = m + 1 ∧ Counts test next w m := by
  rw [counts_of_test h]
  constructor
  · rintro ⟨w', m, hw, rfl, hrest⟩
    obtain rfl : w = w' := Option.some.inj (hnext.symm.trans hw)
    exact ⟨m, rfl, hrest⟩
  · rintro ⟨m, rfl, hrest⟩
    exact ⟨w, m, hnext, rfl, hrest⟩

end

section
variable {test : Int → Bool} {next : Int → Option Int} {v step : Int} {n : Nat}

/-- The first `k` iterations, where they add the step exactly and do not end the loop. -/
theorem Counts.iterate {k : Nat} (h : Counts test next v n) (htest : ∀ j < k, test (v + j * step) = true)
    (hnext : ∀ j < k, next (v + j * step) = some (v + (j + 1) * step)) :
    ∃ m, n = k + m ∧ Counts test next (v + k * step) m := by
  induction k with
  | zero => exact ⟨n, (Nat.zero_add n).symm, by simpa using h⟩
  | succ k ih =>
    obtain ⟨m, rfl, hrest⟩ := ih (fun j hj => htest j (Nat.lt_succ_of_lt hj))
      fun j hj => hnext j (Nat.lt_succ_of_lt hj)
    have hk := hnext k (Nat.lt_succ_self k)
    obtain ⟨m, rfl, hlast⟩ := (counts_of_next (htest k (Nat.lt_succ_self k)) hk).1 hrest
    exact ⟨m, by omega, by exact_mod_cast hlast⟩

/-- A loop that adds the step where it goes on: its test holds of the values of its iterations, and not of
the next one. -/
theorem Counts.exact {P : Int → Prop} (h : Counts test next v n) (hv : P v)
    (hnext : ∀ v w, P v → next v = some w → w = v + step ∧ P w) :
    (∀ j < n, test (v + j * step) = true) ∧ test (v + n * step) = false := by
  induction h with
  | stop htest => exact ⟨fun j hj => absurd hj (Nat.not_lt_zero j), by simpa using htest⟩
  | @step v w n htest hvw _ ih =>
    obtain ⟨hw, hPw⟩ := hnext v w hv hvw
    have hshift (j : Nat) : w + j * step = v + (j + 1 : Nat) * step := by
      rw [hw]
      push_cast
      ring
    have ih := ih hPw
    refine ⟨fun j hj => ?_, hshift n ▸ ih.2⟩
    cases j with
    | zero => simpa using htest
    | succ j => exact hshift j ▸ ih.1 j (Nat.lt_of_succ_lt_succ hj)

end

end OmpSs.Lib
