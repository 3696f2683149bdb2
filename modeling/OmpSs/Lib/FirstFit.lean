import Mathlib.Data.List.Basic

/-!
# First fit

Requests that are placed one after the other, each in the first bin with room for it, and bins that are
filled one after the other, each with the requests in order that it still has room for: both leave the same
requests without a place (`refused_eq_foldl`). What a request takes of a bin, and whether the bin has room
for it, can be anything; a bin without room left makes no difference (`refused_filter`).
-/

namespace OmpSs.Lib.FirstFit

section
variable {α : Type*} [LE α] [DecidableLE α] [Sub α]

/-- The bins after the request `x`, unless none has room for it. -/
def place (x : α) : List α → Option (List α)
  | [] => none
  | c :: bins => if x ≤ c then some ((c - x) :: bins) else (place x bins).map (c :: ·)

/-- The requests that find no room. -/
def refused (bins : List α) : List α → List α
  | [] => []
  | x :: xs => match place x bins with
    | none => x :: refused bins xs
    | some bins' => refused bins' xs

/-- The requests that one bin has no room for, after the ones before them. -/
def leftover (c : α) : List α → List α
  | [] => []
  | x :: xs => if x ≤ c then leftover (c - x) xs else x :: leftover c xs

variable {c x : α} {bins xs : List α}

theorem place_eq_none (h : ∀ d ∈ bins, ¬ x ≤ d) : place x bins = none := by
  induction bins with
  | nil => rfl
  | cons d bins ih =>
    rw [place, if_neg (h d List.mem_cons_self), ih fun e he => h e (List.mem_cons_of_mem _ he),
      Option.map_none]

theorem place_append (h : ∀ d ∈ bins, ¬ x ≤ d) (hc : x ≤ c) (bins' : List α) :
    place x (bins ++ c :: bins') = some (bins ++ (c - x) :: bins') := by
  induction bins with
  | nil => exact if_pos hc
  | cons d bins ih =>
    rw [List.cons_append, place, if_neg (h d List.mem_cons_self),
      ih fun e he => h e (List.mem_cons_of_mem _ he), Option.map_some, List.cons_append]

theorem refused_of_place_eq_none (h : place x bins = none) :
    refused bins (x :: xs) = x :: refused bins xs := by rw [refused, h]

theorem refused_of_place_eq_some {bins' : List α} (h : place x bins = some bins') :
    refused bins (x :: xs) = refused bins' xs := by rw [refused, h]

theorem refused_nil (xs : List α) : refused [] xs = xs := by
  induction xs with
  | nil => rfl
  | cons x xs ih => rw [refused_of_place_eq_none rfl, ih]

/-- The other bins see the requests that the first one has no room for. -/
theorem refused_cons (c : α) (bins xs : List α) :
    refused (c :: bins) xs = refused bins (leftover c xs) := by
  induction xs generalizing c bins with
  | nil => rfl
  | cons x xs ih =>
    by_cases hfit : x ≤ c
    · have hplace : place x (c :: bins) = some ((c - x) :: bins) := if_pos hfit
      rw [refused_of_place_eq_some hplace, ih, leftover, if_pos hfit]
    · have hplace : place x (c :: bins) = (place x bins).map (c :: ·) := if_neg hfit
      rw [leftover, if_neg hfit]
      cases hrest : place x bins with
      | none =>
        rw [hrest] at hplace
        rw [refused_of_place_eq_none hplace, refused_of_place_eq_none hrest, ih]
      | some bins' =>
        rw [hrest] at hplace
        rw [refused_of_place_eq_some hplace, refused_of_place_eq_some hrest, ih]

/-- **First fit, request by request or bin by bin.** -/
theorem refused_eq_foldl (bins xs : List α) :
    refused bins xs = bins.foldl (fun xs c => leftover c xs) xs := by
  induction bins generalizing xs with
  | nil => exact refused_nil xs
  | cons c bins ih => rw [refused_cons, ih, List.foldl_cons]

theorem leftover_eq_self (h : ∀ x ∈ xs, ¬ x ≤ c) : leftover c xs = xs := by
  induction xs with
  | nil => rfl
  | cons x xs ih =>
    rw [leftover, if_neg (h x List.mem_cons_self), ih fun y hy => h y (List.mem_cons_of_mem _ hy)]

theorem leftover_subset (c : α) (xs : List α) : leftover c xs ⊆ xs := by
  induction xs generalizing c with
  | nil => exact List.Subset.refl _
  | cons x xs ih =>
    rw [leftover]
    split
    · exact List.subset_cons_of_subset x (ih _)
    · exact List.cons_subset_cons x (ih c)

theorem refused_subset (bins xs : List α) : refused bins xs ⊆ xs := by
  rw [refused_eq_foldl]
  induction bins generalizing xs with
  | nil => exact List.Subset.refl _
  | cons c bins ih => exact List.Subset.trans (ih _) (leftover_subset c xs)

/-- Bins with no room for any request are as good as none. -/
theorem refused_filter {p : α → Bool} (hp : ∀ x ∈ xs, ∀ c, p c = false → ¬ x ≤ c) (bins : List α) :
    refused (bins.filter p) xs = refused bins xs := by
  rw [refused_eq_foldl, refused_eq_foldl, List.foldl_filter]
  induction bins generalizing xs with
  | nil => rfl
  | cons c bins ih =>
    rw [List.foldl_cons, List.foldl_cons]
    cases hc : p c with
    | true =>
      rw [if_pos rfl]
      exact ih fun x hx => hp x (leftover_subset c xs hx)
    | false =>
      rw [if_neg Bool.false_ne_true, leftover_eq_self fun x hx => hp x hx c hc]
      exact ih hp

end

end OmpSs.Lib.FirstFit
