import Mathlib.Data.List.Forall2
import Mathlib.Data.List.Pairwise
import Mathlib.Data.List.Perm.Basic

/-!
# Tilings

Pieces `ι` are sets of points `α` (`mem i x`: the point `x` lies in the piece `i`). A list of pieces
tiles a set when the pieces are pairwise disjoint and their union is the set. A tiling does not depend on
the order of the pieces, and some of its pieces may be replaced by others that tile the same points
(`Tiles.replace`): cutting a piece and joining neighbours are both replacements.
-/

namespace OmpSs.Lib

section
variable {ι α : Type*}

/-- The pieces of `l` are pairwise disjoint and together make up `S`. -/
structure Tiles (mem : ι → α → Prop) (l : List ι) (S : α → Prop) : Prop where
  disjoint : l.Pairwise fun i j => ∀ x, mem i x → ¬ mem j x
  union : ∀ x, S x ↔ ∃ i ∈ l, mem i x

variable {mem : ι → α → Prop} {l l' old new : List ι} {S : α → Prop} {i j : ι}

theorem Tiles.perm (h : Tiles mem l S) (hp : l.Perm l') : Tiles mem l' S where
  disjoint := (hp.pairwise_iff fun hij x hj hi => hij x hi hj).1 h.disjoint
  union x := by
    rw [h.union x]
    exact exists_congr fun i => and_congr_left fun _ => hp.mem_iff

/-- Two pieces of a tiling share no point. -/
theorem Tiles.not_mem (h : Tiles mem (i :: l) S) (hj : j ∈ l) {x : α} (hx : mem i x) : ¬ mem j x :=
  (List.pairwise_cons.1 h.disjoint).1 j hj x hx

/-- The piece a point lies in. -/
theorem Tiles.eq_of_mem (h : Tiles mem l S) (hi : i ∈ l) (hj : j ∈ l) {x : α} (hx : mem i x)
    (hx' : mem j x) : i = j := by
  have hsymm : Std.Symm fun i j : ι => ∀ x, mem i x → ¬ mem j x := ⟨fun i j hij x hj hi => hij x hi hj⟩
  by_contra hne
  exact h.disjoint.forall hi hj hne x hx hx'

/-- Pieces with the points of others, one for one, tile what these tile. -/
theorem Tiles.congr {κ : Type*} {mem' : κ → α → Prop} {ks : List κ} (h : Tiles mem l S)
    (hks : List.Forall₂ (fun i k => ∀ x, mem i x ↔ mem' k x) l ks) : Tiles mem' ks S := by
  induction hks generalizing S with
  | nil => exact ⟨.nil, fun x => by rw [h.union x]; simp⟩
  | @cons i k l ks hik _ ih =>
    have hrest := ih ⟨(List.pairwise_cons.1 h.disjoint).2, fun _ => Iff.rfl⟩
    refine ⟨List.pairwise_cons.2 ⟨fun k' hk' x hx hx' => ?_, hrest.disjoint⟩, fun x => ?_⟩
    · obtain ⟨j, hj, hjx⟩ := (hrest.union x).2 ⟨k', hk', hx'⟩
      exact h.not_mem hj ((hik x).2 hx) hjx
    · rw [h.union x, List.exists_mem_cons_iff, List.exists_mem_cons_iff, hik x, ← hrest.union x]

/-- Pieces that tile the points of others can take their place. -/
theorem Tiles.replace (h : Tiles mem (old ++ l) S)
    (hnew : Tiles mem new fun x => ∃ i ∈ old, mem i x) : Tiles mem (new ++ l) S where
  disjoint := by
    obtain ⟨-, hl, hcross⟩ := List.pairwise_append.1 h.disjoint
    refine List.pairwise_append.2 ⟨hnew.disjoint, hl, fun i hi j hj x hx => ?_⟩
    obtain ⟨k, hk, hkx⟩ := (hnew.union x).2 ⟨i, hi, hx⟩
    exact hcross k hk j hj x hkx
  union x := by
    have hpoints := hnew.union x
    simp only [h.union x, List.mem_append, or_and_right, exists_or]
    rw [← hpoints]

/-- Tilings of sets that share no point, one behind the other. -/
theorem Tiles.append {S' : α → Prop} (h : Tiles mem l S) (h' : Tiles mem l' S')
    (hdisj : ∀ x, S x → ¬ S' x) : Tiles mem (l ++ l') fun x => S x ∨ S' x where
  disjoint := List.pairwise_append.2 ⟨h.disjoint, h'.disjoint, fun i hi j hj x hx hx' =>
    hdisj x ((h.union x).2 ⟨i, hi, hx⟩) ((h'.union x).2 ⟨j, hj, hx'⟩)⟩
  union x := by
    simp only [List.mem_append, or_and_right, exists_or]
    rw [h.union x, h'.union x]

/-- Some of the pieces of a tiling tile the points that lie in them. -/
theorem Tiles.filter {S' : α → Prop} {p : ι → Bool} (h : Tiles mem l S)
    (hunion : ∀ x, S' x ↔ ∃ i ∈ l, p i = true ∧ mem i x) : Tiles mem (l.filter p) S' where
  disjoint := h.disjoint.sublist List.filter_sublist
  union x := by
    rw [hunion x]
    simp only [List.mem_filter, and_assoc]

/-- Pieces that are cut down each to its points in `P`, again into pieces. -/
theorem Tiles.flatMap {f : ι → List ι} {P : α → Prop} (h : Tiles mem l S)
    (hf : ∀ i ∈ l, Tiles mem (f i) fun x => mem i x ∧ P x) :
    Tiles mem (l.flatMap f) fun x => S x ∧ P x where
  disjoint := by
    refine List.pairwise_flatMap.2 ⟨fun i hi => (hf i hi).disjoint, ?_⟩
    refine List.Pairwise.imp_of_mem ?_ h.disjoint
    intro i j hi hj hij i' hi' j' hj' x hx hx'
    exact hij x (((hf i hi).union x).2 ⟨i', hi', hx⟩).1 (((hf j hj).union x).2 ⟨j', hj', hx'⟩).1
  union x := by
    rw [h.union x]
    simp only [List.mem_flatMap]
    constructor
    · rintro ⟨⟨i, hi, hx⟩, hP⟩
      obtain ⟨i', hi', hx'⟩ := ((hf i hi).union x).1 ⟨hx, hP⟩
      exact ⟨i', ⟨i, hi, hi'⟩, hx'⟩
    · rintro ⟨i', ⟨i, hi, hi'⟩, hx'⟩
      obtain ⟨hx, hP⟩ := ((hf i hi).union x).2 ⟨i', hi', hx'⟩
      exact ⟨⟨i, hi, hx⟩, hP⟩

end

end OmpSs.Lib
