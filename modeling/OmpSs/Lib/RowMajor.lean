import Mathlib.Algebra.BigOperators.Group.List.Basic
import Mathlib.Tactic.Linarith
import Mathlib.Tactic.Ring

/-!
# Row-major offsets

The elements of an array of several dimensions are numbered row by row. The number of an element depends on
the sizes of all dimensions but the first (`rowMajor`), and is what Horner's rule computes from the indices
(`foldl_horner`). Different index tuples have different numbers whatever the first index is
(`rowMajor_injective`), and the numbers are below the product of the sizes (`InBounds.rowMajor_bounds`).
-/

namespace OmpSs.Lib

/-- The number of the element at `index`; `rest` are the sizes of the dimensions after the first. -/
def rowMajor : (rest index : List Int) → Int
  | _, [] => 0
  | rest, i :: index => i * rest.prod + rowMajor rest.tail index

/-- Every index is below the size of its dimension. -/
def InBounds (sizes index : List Int) : Prop := List.Forall₂ (fun size i => 0 ≤ i ∧ i < size) sizes index

variable {sizes rest index index' : List Int} {i i' : Int}

theorem foldl_horner (h : rest.length = index.length) (acc : Int) :
    (rest.zip index).foldl (fun acc p => p.1 * acc + p.2) acc = rowMajor rest (acc :: index) := by
  induction rest generalizing index acc with
  | nil =>
    rw [List.eq_nil_of_length_eq_zero h.symm]
    simp [rowMajor]
  | cons size rest ih =>
    obtain ⟨i, index, rfl⟩ := List.exists_cons_of_length_eq_add_one h.symm
    rw [List.zip_cons_cons, List.foldl_cons, ih (Nat.succ.inj h), rowMajor, rowMajor, List.prod_cons, List.tail_cons,
      rowMajor]
    ring

theorem InBounds.rowMajor_bounds (h : InBounds sizes index) :
    0 ≤ rowMajor sizes.tail index ∧ rowMajor sizes.tail index < sizes.prod := by
  induction h with
  | nil => exact ⟨le_rfl, one_pos⟩
  | @cons size i rest index hi _ ih =>
    obtain ⟨hnonneg, hlt⟩ := ih
    rw [List.tail_cons, rowMajor, List.prod_cons]
    have hprod : 0 < rest.prod := lt_of_le_of_lt hnonneg hlt
    refine ⟨add_nonneg (mul_nonneg hi.1 hprod.le) hnonneg, ?_⟩
    calc i * rest.prod + rowMajor rest.tail index < i * rest.prod + rest.prod := by linarith
      _ = (i + 1) * rest.prod := by ring
      _ ≤ size * rest.prod := mul_le_mul_of_nonneg_right hi.2 hprod.le

/-- A quotient and a remainder. -/
theorem mul_add_injective {q q' r r' b : Int} (hr : 0 ≤ r ∧ r < b) (hr' : 0 ≤ r' ∧ r' < b)
    (h : q * b + r = q' * b + r') : q = q' ∧ r = r' := by
  have hq : ∀ {q r : Int}, 0 ≤ r ∧ r < b → (q * b + r) / b = q := by
    intro q r hr
    rw [add_comm, Int.add_mul_ediv_right _ _ (by omega), Int.ediv_eq_zero_of_lt hr.1 hr.2, zero_add]
  obtain rfl : q = q' := (hq hr).symm.trans ((congrArg (· / b) h).trans (hq hr'))
  exact ⟨rfl, add_left_cancel h⟩

/-- Different index tuples have different numbers. -/
theorem rowMajor_injective (h : InBounds rest index) (h' : InBounds rest index')
    (heq : rowMajor rest (i :: index) = rowMajor rest (i' :: index')) : i = i' ∧ index = index' := by
  induction rest generalizing i i' index index' with
  | nil =>
    cases h
    cases h'
    simpa [rowMajor] using heq
  | cons size rest ih =>
    rw [rowMajor, rowMajor] at heq
    obtain ⟨rfl, hrow⟩ := mul_add_injective h.rowMajor_bounds h'.rowMajor_bounds heq
    cases h with
    | cons hj h =>
      cases h' with
      | cons hj' h' =>
        obtain ⟨rfl, rfl⟩ := ih h h' hrow
        exact ⟨rfl, rfl⟩

end OmpSs.Lib
