import Mathlib.Data.Bool.Basic
import Mathlib.Logic.Basic
import Mathlib.Tactic.Push

/-!
# Cubes

A cube fixes some coordinates of the points `ι → Bool` and leaves the others open. Intersection and
inclusion of cubes are decided coordinate by coordinate (`meets_iff`, `subset_iff`). The least cube around
two cubes keeps what both fix alike (`hull`), and it has no other points than theirs if at most one
coordinate separates them (`mem_hull_iff`).
-/

namespace OmpSs.Lib

/-- The values of the fixed coordinates. -/
abbrev Cube (ι : Type*) := ι → Option Bool

namespace Cube

variable {ι : Type*} {c d e : Cube ι} {x : ι → Bool} {i j : ι} {a b : Bool}

/-- The point has the fixed coordinates of the cube. -/
def Mem (c : Cube ι) (x : ι → Bool) : Prop := ∀ i b, c i = some b → x i = b

/-- The point of the cube that is `x` in the open coordinates. -/
def point (c : Cube ι) (x : ι → Bool) : ι → Bool := fun i => (c i).getD (x i)

theorem mem_point (c : Cube ι) (x : ι → Bool) : c.Mem (c.point x) := by
  intro i b h
  rw [point, h, Option.getD_some]

/-- Cubes meet if they fix no coordinate differently. -/
theorem meets_iff :
    (∃ x, c.Mem x ∧ d.Mem x) ↔ ∀ i a b, c i = some a → d i = some b → a = b := by
  constructor
  · rintro ⟨x, hc, hd⟩ i a b ha hb
    rw [← hc i a ha, ← hd i b hb]
  · intro h
    refine ⟨c.point (d.point fun _ => false), mem_point _ _, fun i b hb => ?_⟩
    cases hc : c i with
    | none => simp [point, hc, hb]
    | some a => simp [point, hc, h i a b hc hb]

/-- A cube lies in another one if it fixes at least as much. -/
theorem subset_iff : (∀ x, c.Mem x → d.Mem x) ↔ ∀ i b, d i = some b → c i = some b := by
  constructor
  · intro h i b hb
    have hpoint := h _ (c.mem_point fun _ => !b) i b hb
    cases hc : c i with
    | none => simp [point, hc] at hpoint
    | some a => simpa [point, hc] using hpoint
  · intro h x hx i b hb
    exact hx i b (h i b hb)

/-- What fixes as much as both of two cubes is their intersection. -/
theorem mem_inter_iff (h : ∀ i b, e i = some b ↔ c i = some b ∨ d i = some b) :
    e.Mem x ↔ c.Mem x ∧ d.Mem x := by
  constructor
  · intro hx
    exact ⟨fun i b hb => hx i b ((h i b).2 (.inl hb)), fun i b hb => hx i b ((h i b).2 (.inr hb))⟩
  · rintro ⟨hc, hd⟩ i b hb
    exact ((h i b).1 hb).elim (hc i b) (hd i b)

/-- A cube is its set of points. -/
theorem ext_points (h : ∀ x, c.Mem x ↔ d.Mem x) : c = d := by
  have hcd := subset_iff.1 fun x hx => (h x).1 hx
  have hdc := subset_iff.1 fun x hx => (h x).2 hx
  funext i
  cases hc : c i with
  | some b => exact (hdc i b hc).symm
  | none =>
    cases hd : d i with
    | none => rfl
    | some b => rw [← hc, hcd i b hd]

/-! ## The least cube around two cubes -/

/-- What both cubes fix alike. -/
def hull (c d : Cube ι) : Cube ι := fun i => if c i = d i then c i else none

theorem hull_eq_some_iff : hull c d i = some b ↔ c i = some b ∧ d i = some b := by
  unfold hull
  split
  · next h => rw [← h, and_self]
  · next h =>
    constructor
    · intro hb
      cases hb
    · rintro ⟨hc, hd⟩
      exact absurd (hc.trans hd.symm) h

theorem mem_hull_left (h : c.Mem x) : (hull c d).Mem x :=
  fun i b hb => h i b (hull_eq_some_iff.1 hb).1

theorem mem_hull_right (h : d.Mem x) : (hull c d).Mem x :=
  fun i b hb => h i b (hull_eq_some_iff.1 hb).2

/-- The hull is the least cube around both. -/
theorem hull_least (hc : ∀ x, c.Mem x → e.Mem x) (hd : ∀ x, d.Mem x → e.Mem x) (h : (hull c d).Mem x) :
    e.Mem x := fun i b hb =>
  h i b (hull_eq_some_iff.2 ⟨subset_iff.1 hc i b hb, subset_iff.1 hd i b hb⟩)

/-- The two cubes differ in a coordinate that the first fixes and in one that the second fixes only if these
are the same one. -/
def Joins (c d : Cube ι) : Prop :=
  ∀ i j, c i ≠ none → c i ≠ d i → d j ≠ none → c j ≠ d j → i = j

/-- A coordinate that a cube fixes otherwise than the point does. -/
theorem exists_of_not_mem (h : ¬ c.Mem x) : ∃ i b, c i = some b ∧ x i = !b := by
  unfold Mem at h
  push Not at h
  obtain ⟨i, b, hb, hne⟩ := h
  exact ⟨i, b, hb, Bool.eq_not_of_ne hne⟩

/-- A coordinate that a cube fixes otherwise than a point of the hull does is open in the hull. -/
theorem ne_of_mem_hull (h : (hull c d).Mem x) (hb : c i = some b) (hx : x i = !b) : c i ≠ d i := by
  intro heq
  have := h i b (hull_eq_some_iff.2 ⟨hb, heq ▸ hb⟩)
  rw [hx] at this
  cases b <;> cases this

theorem hull_comm (c d : Cube ι) : hull c d = hull d c := by
  funext i
  unfold hull
  rcases eq_or_ne (c i) (d i) with h | h
  · rw [if_pos h, if_pos h.symm, h]
  · rw [if_neg h, if_neg h.symm]

/-- When the hull has no points but those of the two cubes. -/
theorem mem_hull_iff : (∀ x, (hull c d).Mem x ↔ c.Mem x ∨ d.Mem x) ↔ Joins c d := by
  classical
  constructor
  · intro h i j hi hne hj hne'
    obtain ⟨a, ha⟩ := Option.ne_none_iff_exists'.1 hi
    obtain ⟨b, hb⟩ := Option.ne_none_iff_exists'.1 hj
    by_contra hij
    -- A point that is wrong for the first cube at `i` and for the second at `j`.
    have hpoint := mem_point (hull c d) fun k => if k = i then !a else !b
    rcases (h _).1 hpoint with hc | hd
    · have := hc i a ha
      rw [point, hull, if_neg hne] at this
      simp at this
    · have := hd j b hb
      rw [point, hull, if_neg hne'] at this
      simp [Ne.symm hij] at this
  · intro h x
    refine ⟨fun hx => ?_, fun hx => hx.elim mem_hull_left mem_hull_right⟩
    by_contra hnot
    obtain ⟨hc, hd⟩ := not_or.1 hnot
    obtain ⟨i, a, ha, hxi⟩ := exists_of_not_mem hc
    obtain ⟨j, b, hb, hxj⟩ := exists_of_not_mem hd
    have hnei := ne_of_mem_hull hx ha hxi
    have hnej := ne_of_mem_hull (hull_comm c d ▸ hx) hb hxj
    obtain rfl := h i j (by simp [ha]) hnei (by simp [hb]) hnej.symm
    rw [ha, hb] at hnei
    rw [hxi] at hxj
    exact hnei (congrArg some (Bool.not_inj hxj))

/-- The union of two cubes is a cube only as their hull. -/
theorem union_iff : (∀ x, e.Mem x ↔ c.Mem x ∨ d.Mem x) ↔ e = hull c d ∧ Joins c d := by
  constructor
  · intro h
    have heq : e = hull c d := by
      refine ext_points fun x => ⟨fun hx => ?_, hull_least (fun y hy => (h y).2 (.inl hy))
        fun y hy => (h y).2 (.inr hy)⟩
      exact ((h x).1 hx).elim mem_hull_left mem_hull_right
    exact ⟨heq, mem_hull_iff.1 (heq ▸ h)⟩
  · rintro ⟨rfl, h⟩
    exact mem_hull_iff.2 h

end Cube

end OmpSs.Lib
