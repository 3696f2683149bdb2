import OmpSs.Lib.Box
import Mathlib.Algebra.BigOperators.Group.List.Basic
import Mathlib.Algebra.Order.BigOperators.GroupWithZero.List
import Mathlib.Tactic.Ring

/-!
# Numbers in mixed radices

A list of radices, the least significant first, numbers the positions of an array of that many
dimensions: `place` is the number of a position. Over all positions of the array, the first dimension
varying fastest, the numbers are `0, 1, 2, …` (`map_place_boxes`), and `digits` gets the position back.
-/

namespace OmpSs.Lib

section
variable {n x i : Nat} {ns xs ys : List Nat}

/-- The number of a position. -/
def place : List Nat → List Nat → Nat
  | n :: ns, x :: xs => x + n * place ns xs
  | _, _ => 0

/-- The position with a number. -/
def digits : List Nat → Nat → List Nat
  | [], _ => []
  | n :: ns, i => i % n :: digits ns (i / n)

@[simp] theorem place_nil : place [] xs = 0 := rfl

@[simp] theorem place_cons : place (n :: ns) (x :: xs) = x + n * place ns xs := rfl

theorem place_append_singleton (h : xs.length = ns.length) :
    place (ns ++ [n]) (xs ++ [x]) = place ns xs + ns.prod * x := by
  induction ns generalizing xs with
  | nil =>
    obtain rfl : xs = [] := List.length_eq_zero_iff.1 h
    simp
  | cons m ns ih =>
    cases xs with
    | nil => cases h
    | cons y xs =>
      simp only [List.cons_append, place_cons, List.prod_cons, ih (Nat.succ.inj h)]
      ring

/-- The numbers whose leading digit is from `a` on and below `b`, the others being below `w`. -/
theorem exists_leading_iff {a b w p : Nat} :
    (∃ x q, a ≤ x ∧ x < b ∧ q < w ∧ x * w + q = p) ↔ a * w ≤ p ∧ p < b * w := by
  constructor
  · rintro ⟨x, q, hax, hxb, hq, rfl⟩
    refine ⟨(Nat.mul_le_mul_right w hax).trans (Nat.le_add_right _ _), ?_⟩
    calc x * w + q < x * w + w := Nat.add_lt_add_left hq _
      _ = (x + 1) * w := (Nat.succ_mul x w).symm
      _ ≤ b * w := Nat.mul_le_mul_right w hxb
  · rintro ⟨ha, hb⟩
    have hw : 0 < w := Nat.pos_of_mul_pos_left (Nat.zero_lt_of_lt hb)
    exact ⟨p / w, p % w, (Nat.le_div_iff_mul_le hw).2 ha, (Nat.div_lt_iff_lt_mul hw).2 hb,
      Nat.mod_lt p hw, Nat.div_add_mod' p w⟩

theorem digits_place (h : List.Forall₂ (· < ·) xs ns) : digits ns (place ns xs) = xs := by
  induction h with
  | nil => rfl
  | @cons x n xs ns hx _ ih =>
    have hn : 0 < n := by omega
    rw [place_cons, digits, Nat.add_mul_mod_self_left, Nat.mod_eq_of_lt hx, Nat.add_mul_div_left _ _ hn,
      Nat.div_eq_of_lt hx, Nat.zero_add, ih]

/-- Different positions have different numbers. -/
theorem place_injective (hx : List.Forall₂ (· < ·) xs ns) (hy : List.Forall₂ (· < ·) ys ns)
    (h : place ns xs = place ns ys) : xs = ys := by
  rw [← digits_place hx, h, digits_place hy]

/-- Rows of one length, one behind the other. -/
theorem flatMap_rows (a b c : Nat) :
    ((List.range' a b).flatMap fun i => (List.range c).map (· + c * i)) =
      (List.range (c * b)).map (· + c * a) := by
  induction b with
  | zero => simp
  | succ b ih =>
    rw [List.range'_concat, List.flatMap_append, ih, Nat.mul_succ, List.range_add, List.map_append,
      List.map_map, List.flatMap_singleton]
    congr 1
    refine List.map_congr_left fun o _ => ?_
    simp only [Function.comp_apply]
    ring

/-- The positions of the array, the first dimension varying fastest, are numbered from 0 on. -/
theorem map_place_boxes (ns : List Nat) :
    (boxes (ns.map List.range)).map (place ns) = List.range ns.prod := by
  induction ns with
  | nil => rfl
  | cons n ns ih =>
    have hrows := flatMap_rows 0 ns.prod n
    simp only [← List.range_eq_range', Nat.mul_zero, Nat.add_zero, List.map_id'] at hrows
    rw [List.prod_cons, ← hrows, ← ih]
    simp only [List.map_cons, boxes, List.map_flatMap, List.map_map, List.flatMap_map]
    rfl

theorem nodup_boxes {lists : List (List Nat)} (h : ∀ l ∈ lists, l.Nodup) : (boxes lists).Nodup := by
  induction lists with
  | nil => simp [boxes]
  | cons l lists ih =>
    refine List.pairwise_flatMap.2 ⟨fun box _ => ?_, ?_⟩
    · refine List.pairwise_map.2 ((h l List.mem_cons_self).imp fun hij heq => ?_)
      exact hij (List.cons.inj heq).1
    · refine (ih fun l' hl' => h l' (List.mem_cons_of_mem _ hl')).imp fun hne xs hxs ys hys heq => ?_
      obtain ⟨i, -, rfl⟩ := List.mem_map.1 hxs
      obtain ⟨j, -, rfl⟩ := List.mem_map.1 hys
      exact hne (List.cons.inj heq).2

end

end OmpSs.Lib
