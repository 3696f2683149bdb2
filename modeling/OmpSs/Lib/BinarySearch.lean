import Mathlib.Data.List.Basic

/-!
# Binary search for a partition point

The search that a standard library's lower and upper bounds share: halve the list, and go on behind its
middle element or before it, as a test on that element says. On a list that the test splits into a front
part and a back part the search returns the length of the front part (`partitionPoint_append`).
-/

namespace OmpSs.Lib

section
variable {α : Type*} {right : α → Bool} {fuel : Nat} {l l₁ l₂ : List α}

/-- The search in a list of at most `fuel` elements. `right e`: the point is behind `e`. -/
def partitionPoint (right : α → Bool) : Nat → List α → Nat
  | 0, _ => 0
  | fuel + 1, l => match l.drop (l.length / 2) with
    | [] => 0
    | middle :: rest =>
      if right middle then l.length / 2 + 1 + partitionPoint right fuel rest
      else partitionPoint right fuel (l.take (l.length / 2))

theorem partitionPoint_le (hfuel : l.length ≤ fuel) : partitionPoint right fuel l ≤ l.length := by
  induction fuel generalizing l with
  | zero => exact Nat.zero_le _
  | succ fuel ih =>
    unfold partitionPoint
    split
    · exact Nat.zero_le _
    · next middle rest hdrop =>
      have hlen := congrArg List.length hdrop
      rw [List.length_drop, List.length_cons] at hlen
      split
      · have := ih (l := rest) (by omega)
        omega
      · have htake : (l.take (l.length / 2)).length = l.length / 2 := by
          rw [List.length_take]
          omega
        have := ih (l := l.take (l.length / 2)) (by omega)
        omega

/-- The search finds the end of the front part. -/
theorem partitionPoint_append (h₁ : ∀ a ∈ l₁, right a = true) (h₂ : ∀ b ∈ l₂, right b = false)
    (hfuel : (l₁ ++ l₂).length ≤ fuel) : partitionPoint right fuel (l₁ ++ l₂) = l₁.length := by
  induction fuel generalizing l₁ l₂ with
  | zero =>
    rw [List.length_append] at hfuel
    exact (Nat.eq_zero_of_add_eq_zero_right (Nat.le_zero.1 hfuel)).symm
  | succ fuel ih =>
    unfold partitionPoint
    have hlen : (l₁ ++ l₂).length = l₁.length + l₂.length := List.length_append
    generalize hhalf : (l₁ ++ l₂).length / 2 = half
    split
    · next hdrop =>
      have hzero := List.drop_eq_nil_iff.1 hdrop
      omega
    · next middle rest hdrop =>
      rcases Nat.lt_or_ge half l₁.length with hlt | hge
      · -- the middle is in the front part, which goes on behind it
        rw [List.drop_append_of_le_length (Nat.le_of_lt hlt)] at hdrop
        obtain ⟨front, hfront⟩ : ∃ front, l₁.drop half = middle :: front := by
          cases hd : l₁.drop half with
          | nil =>
            have := List.drop_eq_nil_iff.1 hd
            omega
          | cons a front =>
            rw [hd, List.cons_append, List.cons.injEq] at hdrop
            exact ⟨front, by rw [hdrop.1]⟩
        rw [hfront, List.cons_append, List.cons.injEq] at hdrop
        obtain ⟨-, rfl⟩ := hdrop
        have hsub : ∀ a ∈ middle :: front, right a = true := fun a ha =>
          h₁ a (List.mem_of_mem_drop (hfront ▸ ha))
        have hfrontlen := congrArg List.length hfront
        rw [List.length_drop, List.length_cons] at hfrontlen
        rw [if_pos (hsub middle List.mem_cons_self),
          ih (fun a ha => hsub a (List.mem_cons_of_mem _ ha)) h₂ (by rw [List.length_append]; omega)]
        omega
      · -- the middle is in the back part
        have hmiddle : middle ∈ l₂ := by
          have hmem : middle ∈ (l₁ ++ l₂).drop half := hdrop ▸ List.mem_cons_self
          rw [List.drop_append, List.drop_eq_nil_iff.2 hge, List.nil_append] at hmem
          exact List.mem_of_mem_drop hmem
        rw [if_neg (by simp [h₂ middle hmiddle]), List.take_append, List.take_of_length_le hge]
        have hdroplen := congrArg List.length hdrop
        rw [List.length_drop, List.length_cons] at hdroplen
        refine ih h₁ (fun b hb => h₂ b (List.mem_of_mem_take hb)) ?_
        rw [List.length_append, List.length_take]
        omega

/-- A list on which the test, once false, stays false is its elements that pass before those that do not. -/
theorem eq_filter_append (h : l.Pairwise fun a b => right b = true → right a = true) :
    l = l.filter right ++ l.filter fun a => !right a := by
  induction l with
  | nil => rfl
  | cons a l ih =>
    obtain ⟨ha, hl⟩ := List.pairwise_cons.1 h
    cases hright : right a with
    | true =>
      rw [List.filter_cons_of_pos hright, List.filter_cons_of_neg (by simp [hright]), List.cons_append,
        ← ih hl]
    | false =>
      have hnone : l.filter right = [] := List.filter_eq_nil_iff.2 fun b hb hb' => by
        rw [ha b hb hb'] at hright
        cases hright
      have hall : l.filter (fun a => !right a) = l := by
        conv_rhs => rw [ih hl, hnone, List.nil_append]
      rw [List.filter_cons_of_neg (by simp [hright]), hnone, List.filter_cons_of_pos (by simp [hright]),
        hall, List.nil_append]

/-- The search on such a list counts the elements that pass. -/
theorem partitionPoint_eq_countP (h : l.Pairwise fun a b => right b = true → right a = true)
    (hfuel : l.length ≤ fuel) : partitionPoint right fuel l = l.countP right := by
  have hsplit := eq_filter_append h
  have hpoint : partitionPoint right fuel (l.filter right ++ l.filter fun a => !right a) =
      (l.filter right).length :=
    partitionPoint_append (fun a ha => (List.mem_filter.1 ha).2)
      (fun b hb => by simpa using (List.mem_filter.1 hb).2) (by rwa [← hsplit])
  rw [← hsplit] at hpoint
  rw [hpoint, List.countP_eq_length_filter]

end

end OmpSs.Lib
