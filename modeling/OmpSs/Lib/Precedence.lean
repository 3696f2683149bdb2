import Mathlib.Logic.Relation
import Mathlib.Data.Finset.Max

/-!
# Precedence relations

Facts about a relation `E : ι → ι → Prop` read as "must finish before", over an arbitrary type of
nodes. A node that no edge enters is a source; taking a source away leaves every path between the
other nodes intact (`transGen_avoid`), so the order a graph imposes survives the completion of its
sources. A relation along which a rank grows has no cycle (`not_transGen_self_of_rank`), and a
finite, non-empty part of it has a source (`exists_source_of_rank`).
-/

namespace OmpSs.Lib

open Relation

section
variable {ι : Type*} {E E' : ι → ι → Prop} {u v w x : ι}

/-- A path ends in an edge. -/
theorem exists_edge_of_transGen (h : TransGen E u v) : ∃ w, E w v := by
  cases h with
  | single h => exact ⟨_, h⟩
  | tail _ h => exact ⟨_, h⟩

/-- A path between nodes other than a source `x` never passes through `x`. -/
theorem transGen_avoid (hx : ∀ w, ¬ E w x) (hE : ∀ a b, E a b → a ≠ x → E' a b)
    (h : TransGen E u v) (hu : u ≠ x) : TransGen E' u v := by
  induction h with
  | single h => exact .single (hE _ _ h hu)
  | @tail b c hub hbc ih =>
    have hb : b ≠ x := by
      rintro rfl
      obtain ⟨w, hw⟩ := exists_edge_of_transGen hub
      exact hx w hw
    exact .tail ih (hE _ _ hbc hb)

/-- The reflexive form of `transGen_avoid`. -/
theorem reflTransGen_avoid (hx : ∀ w, ¬ E w x) (hE : ∀ a b, E a b → a ≠ x → E' a b)
    (h : ReflTransGen E u v) (hu : u ≠ x) : ReflTransGen E' u v := by
  rcases reflTransGen_iff_eq_or_transGen.1 h with rfl | h
  · exact .refl
  · exact (transGen_avoid hx hE h hu).to_reflTransGen

/-- When edges from a source go, a path survives that does not start with one of them. -/
theorem reflTransGen_of_first (hx : ∀ w, ¬ E w x) (hE : ∀ a b, E a b → a ≠ x → E' a b)
    (hfirst : ∀ b, u = x → E u b → E' u b) (h : ReflTransGen E u v) : ReflTransGen E' u v := by
  rcases ReflTransGen.cases_head h with rfl | ⟨w, huw, hwv⟩
  · exact .refl
  · have hw : w ≠ x := by
      rintro rfl
      exact hx u huw
    have hfirst' : E' u w := by
      by_cases hux : u = x
      · exact hfirst w hux huw
      · exact hE u w huw hux
    exact .head hfirst' (reflTransGen_avoid hx hE hwv hw)

/-- A source is reached from itself only. -/
theorem eq_of_reflTransGen_source (hx : ∀ w, ¬ E w x) (h : ReflTransGen E u x) : u = x := by
  rcases reflTransGen_iff_eq_or_transGen.1 h with rfl | h
  · rfl
  · obtain ⟨w, hw⟩ := exists_edge_of_transGen h
    exact absurd hw (hx w)

/-- A path between different nodes has an edge. -/
theorem transGen_of_reflTransGen_ne (h : ReflTransGen E u v) (hne : u ≠ v) : TransGen E u v := by
  rcases reflTransGen_iff_eq_or_transGen.1 h with rfl | h
  · exact absurd rfl hne
  · exact h

/-- A property that edges carry to their ends is carried along paths. -/
theorem of_reflTransGen {p : ι → Prop} (hp : ∀ a b, E a b → p b) (h : ReflTransGen E u v)
    (hu : p u) : p v := by
  cases h with
  | refl => exact hu
  | tail _ h => exact hp _ _ h

/-- Along a path the rank grows. -/
theorem rank_lt_of_transGen {r : ι → Nat} (hr : ∀ a b, E a b → r a < r b)
    (h : TransGen E u v) : r u < r v := by
  induction h with
  | single h => exact hr _ _ h
  | tail _ h ih => exact ih.trans (hr _ _ h)

/-- A relation along which a rank grows has no cycle. -/
theorem not_transGen_self_of_rank {r : ι → Nat} (hr : ∀ a b, E a b → r a < r b) (u : ι) :
    ¬ TransGen E u u :=
  fun h => lt_irrefl _ (rank_lt_of_transGen hr h)

/-- A finite, non-empty set of nodes that holds the source of every edge into it has a node that
no edge enters: the one of least rank. -/
theorem exists_source_of_rank {r : ι → Nat} (hr : ∀ a b, E a b → r a < r b) (S : Finset ι)
    (hS : S.Nonempty) (hclosed : ∀ a b, E a b → b ∈ S → a ∈ S) : ∃ x ∈ S, ∀ w, ¬ E w x := by
  obtain ⟨x, hx, hmin⟩ := S.exists_min_image r hS
  refine ⟨x, hx, fun w hw => ?_⟩
  exact absurd (hr w x hw) (not_lt.2 (hmin w (hclosed w x hw hx)))

end

end OmpSs.Lib
