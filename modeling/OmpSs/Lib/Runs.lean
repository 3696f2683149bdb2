import Mathlib.Data.List.Induction
import Mathlib.Data.List.Pairwise
import Mathlib.Order.Nat
import Mathlib.Algebra.GroupWithZero.Nat

/-!
# Runs of intervals

Pieces `ι` are intervals of natural numbers, with a start `lo` and a length `len`. A run is a list of
pieces each of which starts where the one before it ends (`RunFrom`). Among pieces that are listed in order
and do not overlap, the pieces of a run stand next to each other (`RunFrom.exists_append`), and an interval
that the pieces cover is covered by a run (`exists_runFrom_of_cover`). A run reaches a length as soon as
its pieces together have it (`Shortest`).
-/

namespace OmpSs.Lib

section
variable {ι : Type*} {lo len : ι → Nat}

/-- The pieces follow each other without overlap. -/
def Ordered (lo len : ι → Nat) (l : List ι) : Prop := l.Pairwise fun i j => lo i + len i ≤ lo j

/-- The pieces follow each other without a gap, from `a` on. -/
def RunFrom (lo len : ι → Nat) : Nat → List ι → Prop
  | _, [] => True
  | a, i :: r => lo i = a ∧ RunFrom lo len (a + len i) r

/-- The length of the pieces together. -/
def total (len : ι → Nat) (r : List ι) : Nat := (r.map len).sum

/-- A run from `a` on that reaches the length `n` with its last piece. -/
structure Shortest (lo len : ι → Nat) (n a : Nat) (r : List ι) : Prop where
  run : RunFrom lo len a r
  reaches : n ≤ total len r
  shortest : ∀ p s, r = p ++ s → s ≠ [] → total len p < n

variable {a n : Nat} {i : ι} {l r s : List ι}

@[simp] theorem total_nil : total len [] = 0 := rfl

@[simp] theorem total_cons : total len (i :: r) = len i + total len r := by
  rw [total, List.map_cons, List.sum_cons, total]

@[simp] theorem total_append : total len (r ++ s) = total len r + total len s := by
  rw [total, List.map_append, List.sum_append_nat, total, total]

theorem runFrom_append :
    RunFrom lo len a (r ++ s) ↔ RunFrom lo len a r ∧ RunFrom lo len (a + total len r) s := by
  induction r generalizing a with
  | nil => simp [RunFrom]
  | cons i r ih => rw [List.cons_append, RunFrom, ih, RunFrom, total_cons, Nat.add_assoc, and_assoc]

/-- The pieces of a run start from its start on. -/
theorem RunFrom.le (h : RunFrom lo len a r) (hi : i ∈ r) : a ≤ lo i := by
  induction r generalizing a with
  | nil => cases hi
  | cons j r ih =>
    rcases List.mem_cons.1 hi with rfl | hi
    · exact h.1.ge
    · exact le_trans (Nat.le_add_right _ _) (ih h.2 hi)

theorem total_le_of_prefix (h : r <+: s) : total len r ≤ total len s := by
  obtain ⟨q, rfl⟩ := h
  rw [total_append]
  exact Nat.le_add_right _ _

theorem total_eq_zero (h : ∀ i ∈ r, len i = 0) : total len r = 0 := by
  induction r with
  | nil => rfl
  | cons i r ih =>
    rw [total_cons, h i List.mem_cons_self, ih fun j hj => h j (List.mem_cons_of_mem _ hj)]

/-- The pieces of a run end before its end. -/
theorem RunFrom.stop_le (h : RunFrom lo len a r) (hi : i ∈ r) : lo i + len i ≤ a + total len r := by
  obtain ⟨p, s, rfl⟩ := List.append_of_mem hi
  have hlo := (runFrom_append.1 h).2.1
  rw [total_append, total_cons]
  omega

/-- A run covers the addresses it spans. -/
theorem RunFrom.cover (h : RunFrom lo len a r) {x : Nat} (hx : a ≤ x) (hx' : x < a + total len r) :
    ∃ i ∈ r, lo i ≤ x ∧ x < lo i + len i := by
  induction r generalizing a with
  | nil =>
    rw [total_nil] at hx'
    omega
  | cons i r ih =>
    obtain ⟨hi, hr⟩ := h
    rw [total_cons] at hx'
    rcases Nat.lt_or_ge x (a + len i) with hlt | hge
    · exact ⟨i, List.mem_cons_self, by omega, by omega⟩
    · obtain ⟨j, hj, hjx⟩ := ih hr hge (by omega)
      exact ⟨j, List.mem_cons_of_mem _ hj, hjx⟩

/-- A run from before the first piece of a list, of pieces of the list, is a first part of the list. -/
theorem RunFrom.prefix (hord : Ordered lo len l) (hpos : ∀ i ∈ l, 0 < len i) (hlo : ∀ i ∈ l, a ≤ lo i)
    (hr : RunFrom lo len a r) (hmem : ∀ i ∈ r, i ∈ l) : r <+: l := by
  induction l generalizing a r with
  | nil =>
    cases r with
    | nil => exact List.prefix_refl _
    | cons i r => cases hmem i List.mem_cons_self
  | cons h t ih =>
    cases r with
    | nil => exact List.nil_prefix
    | cons i r =>
      obtain ⟨hi, hr⟩ := hr
      obtain ⟨hht, ht⟩ := List.pairwise_cons.1 hord
      have hhpos := hpos h List.mem_cons_self
      have hha := hlo h List.mem_cons_self
      -- Nothing stands between the start of the run and its first piece.
      have hih : i = h := by
        rcases List.mem_cons.1 (hmem i List.mem_cons_self) with heq | hit
        · exact heq
        · have := hht i hit
          omega
      subst hih
      refine List.cons_prefix_cons.2 ⟨rfl, ?_⟩
      refine ih ht (fun j hj => hpos j (List.mem_cons_of_mem _ hj)) (fun j hj => ?_) hr (fun j hj => ?_)
      · have := hht j hj
        omega
      · rcases List.mem_cons.1 (hmem j (List.mem_cons_of_mem _ hj)) with rfl | hjt
        · have := hr.le hj
          omega
        · exact hjt

/-- The pieces of a run stand next to each other in an ordered list. -/
theorem RunFrom.exists_append (hord : Ordered lo len l) (hpos : ∀ i ∈ l, 0 < len i)
    (hr : RunFrom lo len a r) (hmem : ∀ i ∈ r, i ∈ l) : ∃ p s, l = p ++ r ++ s := by
  induction l with
  | nil =>
    cases r with
    | nil => exact ⟨[], [], rfl⟩
    | cons i r => cases hmem i List.mem_cons_self
  | cons h t ih =>
    cases r with
    | nil => exact ⟨[], h :: t, rfl⟩
    | cons i r =>
      obtain ⟨hht, ht⟩ := List.pairwise_cons.1 hord
      have hhpos := hpos h List.mem_cons_self
      by_cases hih : i = h
      · subst hih
        have hle : ∀ j ∈ i :: t, lo i ≤ lo j := by
          intro j hj
          rcases List.mem_cons.1 hj with rfl | hj
          · exact Nat.le_refl _
          · have := hht j hj
            omega
        rw [← hr.1] at hr
        obtain ⟨s, hs⟩ := hr.prefix hord hpos hle hmem
        exact ⟨[], s, hs.symm⟩
      · have hit : i ∈ t := (List.mem_cons.1 (hmem i List.mem_cons_self)).resolve_left hih
        obtain ⟨p, s, hps⟩ := ih ht (fun j hj => hpos j (List.mem_cons_of_mem _ hj)) (fun j hj => by
          rcases List.mem_cons.1 (hmem j hj) with rfl | hjt
          · have := hr.le hj
            have := hht i hit
            have := hr.1
            omega
          · exact hjt)
        exact ⟨h :: p, s, by rw [hps]; rfl⟩

/-- An interval that ordered pieces cover is covered by a run of them. -/
theorem exists_runFrom_of_cover (hord : Ordered lo len l) (hn : 0 < n)
    (hcover : ∀ x, a ≤ x → x < a + n → ∃ i ∈ l, lo i ≤ x ∧ x < lo i + len i) :
    ∃ r b, r.Sublist l ∧ RunFrom lo len b r ∧ b ≤ a ∧ a + n ≤ b + total len r := by
  induction l generalizing a n with
  | nil =>
    obtain ⟨i, hi, _⟩ := hcover a (Nat.le_refl _) (by omega)
    cases hi
  | cons h t ih =>
    obtain ⟨hht, ht⟩ := List.pairwise_cons.1 hord
    rcases Nat.lt_or_ge a (lo h + len h) with hlt | hge
    · have hha : lo h ≤ a := by
        obtain ⟨i, hi, hia, _⟩ := hcover a (Nat.le_refl _) (by omega)
        rcases List.mem_cons.1 hi with rfl | hi
        · exact hia
        · have := hht i hi
          omega
      rcases Nat.lt_or_ge (lo h + len h) (a + n) with hshort | hlong
      · -- What is left of the interval starts where the first piece ends.
        obtain ⟨r, b, hsub, hrun, hb, hend⟩ := ih (a := lo h + len h) (n := a + n - (lo h + len h)) ht
          (by omega) (fun x hx hx' => by
            obtain ⟨i, hi, hix⟩ := hcover x (by omega) (by omega)
            rcases List.mem_cons.1 hi with rfl | hi
            · omega
            · exact ⟨i, hi, hix⟩)
        have hbe : b = lo h + len h := by
          cases r with
          | nil =>
            rw [total_nil] at hend
            omega
          | cons i r =>
            have := hht i (hsub.mem List.mem_cons_self)
            have := hrun.1
            omega
        subst hbe
        refine ⟨h :: r, lo h, hsub.cons_cons h, ⟨rfl, hrun⟩, hha, ?_⟩
        rw [total_cons]
        omega
      · refine ⟨[h], lo h, List.singleton_sublist.2 List.mem_cons_self, ⟨rfl, trivial⟩, hha, ?_⟩
        rw [total_cons, total_nil]
        omega
    · obtain ⟨r, b, hsub, hrun⟩ := ih ht hn (fun x hx hx' => by
        obtain ⟨i, hi, hix⟩ := hcover x hx hx'
        rcases List.mem_cons.1 hi with rfl | hi
        · omega
        · exact ⟨i, hi, hix⟩)
      exact ⟨r, b, hsub.cons h, hrun⟩

/-- A run that is long enough has a first part that just reaches the length. -/
theorem RunFrom.exists_shortest (h : RunFrom lo len a r) (hn : n ≤ total len r) :
    ∃ p, p <+: r ∧ Shortest lo len n a p := by
  induction r using List.reverseRecOn with
  | nil =>
    refine ⟨[], List.prefix_refl _, trivial, hn, fun p s hps hs => ?_⟩
    exact absurd (List.append_eq_nil_iff.1 hps.symm).2 hs
  | append_singleton r i ih =>
    rcases Nat.lt_or_ge (total len r) n with hlt | hge
    · refine ⟨r ++ [i], List.prefix_refl _, h, hn, fun p s hps hs => ?_⟩
      -- A proper first part is a first part of the run without its last piece.
      have hpr : p <+: r := by
        rcases List.eq_nil_or_concat s with rfl | ⟨s', j, rfl⟩
        · exact absurd rfl hs
        · rw [List.concat_eq_append, ← List.append_assoc] at hps
          exact ⟨s', (List.append_inj_left' hps rfl).symm⟩
      obtain ⟨q, rfl⟩ := hpr
      rw [total_append] at hlt
      omega
    · obtain ⟨p, hp, hshort⟩ := ih (runFrom_append.1 h).1 hge
      exact ⟨p, hp.trans (List.prefix_append _ _), hshort⟩

/-- Of two runs that just reach a length and are first parts of one list, neither is longer. -/
theorem Shortest.eq_of_prefix {b : Nat} {r' : List ι} (h : Shortest lo len n a r)
    (h' : Shortest lo len n b r') (hr : r <+: l) (hr' : r' <+: l) : r = r' := by
  have key : ∀ {a b : Nat} {p q : List ι}, Shortest lo len n a p → Shortest lo len n b q → p <+: q →
      p = q := by
    intro a b p q hp hq hpq
    obtain ⟨s, rfl⟩ := hpq
    rcases eq_or_ne s [] with rfl | hs
    · rw [List.append_nil]
    · exact absurd hp.reaches (Nat.not_le.2 (hq.shortest p s rfl hs))
  rcases List.prefix_or_prefix_of_prefix hr hr' with hpre | hpre
  · exact key h h' hpre
  · exact (key h' h hpre).symm

/-- From one place on, ordered pieces have one run that just reaches a length. -/
theorem Shortest.unique (hord : Ordered lo len l) (hpos : ∀ i ∈ l, 0 < len i) {r' : List ι}
    (h : Shortest lo len n a r) (h' : Shortest lo len n a r') (hr : ∀ i ∈ r, i ∈ l)
    (hr' : ∀ i ∈ r', i ∈ l) : r = r' := by
  -- The two runs are first parts of the pieces from the place on.
  have hpre : ∀ {q : List ι}, RunFrom lo len a q → (∀ i ∈ q, i ∈ l) →
      q <+: l.filter fun i => decide (a ≤ lo i) := by
    intro q hq hmem
    refine hq.prefix (hord.sublist List.filter_sublist) (fun i hi => hpos i (List.mem_filter.1 hi).1)
      (fun i hi => by simpa using (List.mem_filter.1 hi).2) (fun i hi => ?_)
    exact List.mem_filter.2 ⟨hmem i hi, by simpa using hq.le hi⟩
  exact h.eq_of_prefix h' (hpre h.run hr) (hpre h'.run hr')

end

end OmpSs.Lib
