import Mathlib.Algebra.BigOperators.Group.List.Basic
import Mathlib.Algebra.GroupWithZero.Nat

/-!
# Coverage by counting

Pieces `ι` are sets of points `α`. The sizes of the pieces together count every point as often as there are
pieces it lies in (`sum_size_eq`). They make up the number of all points exactly where as many points are
counted again as are left out (`sum_size_eq_length_iff`), which for pieces that do not overlap means that
none is left out.
-/

namespace OmpSs.Lib

section
variable {ι α : Type*} (mem : ι → α → Prop) [∀ i x, Decidable (mem i x)]

/-- The number of pieces a point lies in. -/
def timesCovered (l : List ι) (x : α) : Nat := l.countP fun i => mem i x

/-- The number of the points that lie in no piece. -/
def leftOut (l : List ι) (points : List α) : Nat := points.countP fun x => timesCovered mem l x = 0

/-- How often points are counted after the first time. -/
def countedAgain (l : List ι) (points : List α) : Nat := (points.map fun x => timesCovered mem l x - 1).sum

variable {mem} {l : List ι} {points : List α}

theorem timesCovered_eq_zero {x : α} : timesCovered mem l x = 0 ↔ ∀ i ∈ l, ¬ mem i x := by
  simp [timesCovered, List.countP_eq_zero]

/-- The sizes of the pieces count every point as often as it is covered. -/
theorem sum_size_eq (l : List ι) (points : List α) :
    (l.map fun i => points.countP fun x => mem i x).sum = (points.map (timesCovered mem l)).sum := by
  induction points with
  | nil => simp
  | cons x points ih =>
    have hx : (l.map fun i => (x :: points).countP fun y => mem i y).sum =
        (l.map fun i => points.countP fun y => mem i y).sum + timesCovered mem l x := by
      clear ih
      induction l with
      | nil => rfl
      | cons i l ihl =>
        simp only [timesCovered, List.map_cons, List.sum_cons, List.countP_cons] at ihl ⊢
        rw [ihl]
        ac_rfl
    rw [hx, ih, List.map_cons, List.sum_cons, Nat.add_comm]

theorem sum_timesCovered_add (l : List ι) (points : List α) :
    (points.map (timesCovered mem l)).sum + leftOut mem l points =
      points.length + countedAgain mem l points := by
  induction points with
  | nil => rfl
  | cons x points ih =>
    simp only [leftOut, countedAgain, List.map_cons, List.sum_cons, List.countP_cons, List.length_cons,
      decide_eq_true_eq] at ih ⊢
    split <;> omega

/-- The sizes make up the number of points where what is counted again is what is left out. -/
theorem sum_size_eq_length_iff :
    (l.map fun i => points.countP fun x => mem i x).sum = points.length ↔
      countedAgain mem l points = leftOut mem l points := by
  have h : (points.map (timesCovered mem l)).sum + leftOut mem l points =
      points.length + countedAgain mem l points := sum_timesCovered_add l points
  rw [sum_size_eq]
  omega

/-- Pieces that share no point count none again. -/
theorem countedAgain_eq_zero (h : l.Pairwise fun i j => ∀ x, mem i x → ¬ mem j x) :
    countedAgain mem l points = 0 := by
  have hone : ∀ x, timesCovered mem l x ≤ 1 := by
    intro x
    induction h with
    | nil => simp [timesCovered]
    | @cons i l hi _ ih =>
      rw [timesCovered, List.countP_cons]
      split
      · next hx =>
        have hzero : l.countP (fun j => mem j x) = 0 :=
          timesCovered_eq_zero.2 fun j hj => hi j hj x (of_decide_eq_true hx)
        omega
      · exact ih
  rw [countedAgain, List.sum_eq_zero]
  rintro k hk
  obtain ⟨x, -, rfl⟩ := List.mem_map.1 hk
  have := hone x
  omega

end

end OmpSs.Lib
