import Mathlib.Data.List.Basic
import Mathlib.Order.Defs.Unbundled

/-!
# Merging from the two ends

Two sorted runs lie in one buffer, the second of them in reverse. A merge takes elements from the two ends of
the buffer, the last one where `back` says so of the first and the last one, and the first one otherwise. It
needs no test for the end of a run: the run that is left is sorted for both ends (`Bitonic.tail`,
`Bitonic.dropLast`), so an element at one of the ends comes before all others (`Bitonic.rel_ends`), and the
elements are taken in order (`pairwise_takeEnds`).
-/

namespace OmpSs.Lib

variable {α : Type*} {back : α → α → Bool} {r : α → α → Prop} {l : List α} {x : α}

/-- `n` elements taken from the two ends. -/
def takeEnds (back : α → α → Bool) : Nat → List α → List α
  | 0, _ => []
  | _ + 1, [] => []
  | n + 1, x :: l =>
    if back x ((x :: l).getLast (List.cons_ne_nil x l)) then
      (x :: l).getLast (List.cons_ne_nil x l) :: takeEnds back n (x :: l).dropLast
    else x :: takeEnds back n l

theorem perm_takeEnds (back : α → α → Bool) {n : Nat} (hn : n = l.length) : (takeEnds back n l).Perm l := by
  induction n generalizing l with
  | zero => rw [List.eq_nil_of_length_eq_zero hn.symm, takeEnds]
  | succ n ih =>
    obtain ⟨x, l, rfl⟩ := List.exists_cons_of_length_eq_add_one hn.symm
    rw [takeEnds]
    split
    · have hlength : n = (x :: l).dropLast.length := by
        rw [List.length_dropLast, ← hn, Nat.add_sub_cancel]
      refine ((ih hlength).cons _).trans ?_
      refine (List.perm_append_singleton _ _).symm.trans ?_
      rw [List.dropLast_append_getLast]
    · exact (ih (Nat.succ.inj hn)).cons x

/-- A sorted run and the reverse of another one. -/
def Bitonic (r : α → α → Prop) (l : List α) : Prop :=
  ∃ xs ys : List α, l = xs ++ ys.reverse ∧ xs.Pairwise r ∧ ys.Pairwise r

theorem Bitonic.tail (h : Bitonic r (x :: l)) : Bitonic r l := by
  obtain ⟨xs, ys, hl, hxs, hys⟩ := h
  cases xs with
  | nil =>
    -- The first element is the last one of the reversed run.
    rw [List.nil_append, eq_comm, List.reverse_eq_cons_iff] at hl
    rw [hl, List.pairwise_append] at hys
    exact ⟨[], l.reverse, by simp, List.Pairwise.nil, hys.1⟩
  | cons y xs =>
    obtain ⟨rfl, rfl⟩ := List.cons.inj hl
    exact ⟨xs, ys, rfl, hxs.of_cons, hys⟩

theorem Bitonic.reverse (h : Bitonic r l) : Bitonic r l.reverse := by
  obtain ⟨xs, ys, rfl, hxs, hys⟩ := h
  exact ⟨ys, xs, by simp, hys, hxs⟩

theorem Bitonic.dropLast (h : Bitonic r l) : Bitonic r l.dropLast := by
  have hdrop : l.dropLast = l.reverse.tail.reverse := by
    rw [List.tail_reverse, List.reverse_reverse]
  rw [hdrop]
  cases hl : l.reverse with
  | nil => exact ⟨[], [], rfl, List.Pairwise.nil, List.Pairwise.nil⟩
  | cons x m => exact (hl ▸ h.reverse).tail.reverse

/-- The first element or the last one comes before all others. -/
theorem Bitonic.rel_ends [Std.Refl r] (h : Bitonic r (x :: l)) {y z : α}
    (hy : (x :: l).getLast (List.cons_ne_nil x l) = y) (hz : z ∈ x :: l) : r x z ∨ r y z := by
  obtain ⟨xs, ys, hl, hxs, hys⟩ := h
  rw [hl, List.mem_append, List.mem_reverse] at hz
  rcases hz with hz | hz
  · obtain ⟨w, xs, rfl⟩ := List.exists_cons_of_ne_nil (List.ne_nil_of_mem hz)
    obtain rfl := (List.cons.inj hl).1
    rcases List.mem_cons.1 hz with rfl | hz
    · exact .inl (refl z)
    · exact .inl (List.rel_of_pairwise_cons hxs hz)
  · obtain ⟨w, ys, rfl⟩ := List.exists_cons_of_ne_nil (List.ne_nil_of_mem hz)
    have hlast : w = y := by
      simp only [hl] at hy
      simpa using hy
    subst hlast
    rcases List.mem_cons.1 hz with rfl | hz
    · exact .inr (refl z)
    · exact .inr (List.rel_of_pairwise_cons hys hz)

/-- Of two elements the one that is taken does not come after the other. -/
def Decides (back : α → α → Bool) (r : α → α → Prop) (x y : α) : Prop :=
  (back x y = true → r y x) ∧ (back x y = false → r x y)

theorem pairwise_takeEnds [Std.Refl r] [IsTrans α r] (h : Bitonic r l)
    (hback : ∀ x ∈ l, ∀ y ∈ l, Decides back r x y) {n : Nat} (hn : n = l.length) :
    (takeEnds back n l).Pairwise r := by
  induction n generalizing l with
  | zero => exact List.Pairwise.nil
  | succ n ih =>
    obtain ⟨x, l, rfl⟩ := List.exists_cons_of_length_eq_add_one hn.symm
    have hlast := List.getLast_mem (List.cons_ne_nil x l)
    have hends := hback x List.mem_cons_self _ hlast
    rw [takeEnds]
    split
    · next hx =>
      have hlength : n = (x :: l).dropLast.length := by
        rw [List.length_dropLast, ← hn, Nat.add_sub_cancel]
      have hmem : ∀ z ∈ (x :: l).dropLast, z ∈ x :: l := fun z => (List.dropLast_subset _ ·)
      refine List.pairwise_cons.2 ⟨fun z hz => ?_,
        ih h.dropLast (fun x hx y hy => hback x (hmem x hx) y (hmem y hy)) hlength⟩
      have hz := hmem z (((perm_takeEnds back hlength).mem_iff).1 hz)
      exact (h.rel_ends rfl hz).elim (Trans.trans (hends.1 hx)) id
    · next hx =>
      have hlength := Nat.succ.inj hn
      have hmem : ∀ z ∈ l, z ∈ x :: l := fun z => List.mem_cons_of_mem x
      refine List.pairwise_cons.2 ⟨fun z hz => ?_,
        ih h.tail (fun x hx y hy => hback x (hmem x hx) y (hmem y hy)) hlength⟩
      have hz := hmem z (((perm_takeEnds back hlength).mem_iff).1 hz)
      exact (h.rel_ends rfl hz).elim id (Trans.trans (hends.2 (Bool.not_eq_true _ ▸ hx)))

end OmpSs.Lib
