import OmpSs.Lib.Tiling
import Mathlib.Data.List.Forall2
import Mathlib.Algebra.GroupWithZero.Nat

/-!
# Boxes

A box is a list of pieces, one for each dimension, and its points are the lists of coordinates that lie in
them piece by piece. What boxes have in common is decided in each dimension on its own
(`exists_inBox_both`), and tilings of the dimensions make a tiling of the box by the boxes that take one
piece from each (`tiles_boxes`).
-/

namespace OmpSs.Lib

section
variable {ι α : Type*} (mem : ι → α → Prop)

/-- The point `x` lies in the box. -/
def InBox (box : List ι) (x : List α) : Prop := List.Forall₂ mem box x

/-- All boxes that take one piece from each list. -/
def boxes : List (List ι) → List (List ι)
  | [] => [[]]
  | pieces :: rest => (boxes rest).flatMap fun box => pieces.map (· :: box)

variable {mem} {box box' : List ι} {x : List α} {pieces : List ι} {rest : List (List ι)}

theorem mem_boxes_cons {i : ι} :
    i :: box ∈ boxes (pieces :: rest) ↔ i ∈ pieces ∧ box ∈ boxes rest := by
  simp only [boxes, List.mem_flatMap, List.mem_map, List.cons.injEq]
  constructor
  · rintro ⟨b, hb, i', hi', rfl, rfl⟩
    exact ⟨hi', hb⟩
  · rintro ⟨hi, hb⟩
    exact ⟨box, hb, i, hi, rfl, rfl⟩

theorem exists_cons_of_mem_boxes (h : box ∈ boxes (pieces :: rest)) :
    ∃ i box', box = i :: box' ∧ i ∈ pieces ∧ box' ∈ boxes rest := by
  simp only [boxes, List.mem_flatMap, List.mem_map] at h
  obtain ⟨b, hb, i, hi, rfl⟩ := h
  exact ⟨i, b, rfl, hi, hb⟩

/-- The boxes are the choices of a piece from each list. -/
theorem mem_boxes_iff {lists : List (List ι)} :
    box ∈ boxes lists ↔ List.Forall₂ (fun i pieces => i ∈ pieces) box lists := by
  induction lists generalizing box with
  | nil => simp [boxes]
  | cons pieces rest ih =>
    constructor
    · intro h
      obtain ⟨i, box', rfl, hi, hbox⟩ := exists_cons_of_mem_boxes h
      exact .cons hi (ih.1 hbox)
    · intro h
      obtain ⟨i, box', hi, hbox, rfl⟩ := List.forall₂_cons_right_iff.1 h
      exact mem_boxes_cons.2 ⟨hi, ih.2 hbox⟩

theorem length_boxes (lists : List (List ι)) : (boxes lists).length = (lists.map List.length).prod := by
  induction lists with
  | nil => rfl
  | cons pieces rest ih => simp [boxes, List.length_flatMap, ih, Nat.mul_comm]

/-- The last list of pieces varies slowest. -/
theorem boxes_append_singleton (lists : List (List ι)) (pieces : List ι) :
    boxes (lists ++ [pieces]) = pieces.flatMap fun i => (boxes lists).map (· ++ [i]) := by
  induction lists with
  | nil => simp [boxes, List.map_eq_flatMap]
  | cons first lists ih =>
    simp only [List.cons_append, boxes, ih, List.flatMap_assoc, List.flatMap_map, List.map_flatMap,
      List.map_map]
    rfl

/-- Two boxes share a point when their pieces do in every dimension. -/
theorem exists_inBox_both (hlen : box.length = box'.length) :
    (∃ x, InBox mem box x ∧ InBox mem box' x) ↔
      List.Forall₂ (fun i j => ∃ a, mem i a ∧ mem j a) box box' := by
  induction box generalizing box' with
  | nil =>
    obtain rfl : box' = [] := List.length_eq_zero_iff.1 hlen.symm
    simp [InBox]
  | cons i box ih =>
    cases box' with
    | nil => cases hlen
    | cons j box' =>
      rw [List.forall₂_cons, ← ih (Nat.succ.inj hlen)]
      constructor
      · rintro ⟨x, hx, hx'⟩
        obtain ⟨a, y, ha, hy, rfl⟩ := List.forall₂_cons_left_iff.1 hx
        obtain ⟨ha', hy'⟩ := List.forall₂_cons.1 hx'
        exact ⟨⟨a, ha, ha'⟩, y, hy, hy'⟩
      · rintro ⟨⟨a, ha, ha'⟩, y, hy, hy'⟩
        exact ⟨a :: y, .cons ha hy, .cons ha' hy'⟩

theorem exists_inBox (hne : ∀ i ∈ box, ∃ a, mem i a) : ∃ x, InBox mem box x := by
  induction box with
  | nil => exact ⟨[], .nil⟩
  | cons i box ih =>
    obtain ⟨a, ha⟩ := hne i List.mem_cons_self
    obtain ⟨x, hx⟩ := ih fun j hj => hne j (List.mem_cons_of_mem _ hj)
    exact ⟨a :: x, .cons ha hx⟩

/-- A box without an empty piece lies in another when its pieces do in every dimension. -/
theorem inBox_subset_iff (hlen : box.length = box'.length) (hne : ∀ i ∈ box, ∃ a, mem i a) :
    (∀ x, InBox mem box x → InBox mem box' x) ↔
      List.Forall₂ (fun i j => ∀ a, mem i a → mem j a) box box' := by
  induction box generalizing box' with
  | nil =>
    obtain rfl : box' = [] := List.length_eq_zero_iff.1 hlen.symm
    simp
  | cons i box ih =>
    cases box' with
    | nil => cases hlen
    | cons j box' =>
      obtain ⟨a, ha⟩ := hne i List.mem_cons_self
      have hne' : ∀ i ∈ box, ∃ a, mem i a := fun i hi => hne i (List.mem_cons_of_mem _ hi)
      obtain ⟨y, hy⟩ := exists_inBox hne'
      rw [List.forall₂_cons, ← ih (Nat.succ.inj hlen) hne']
      constructor
      · intro h
        refine ⟨fun b hb => (List.forall₂_cons.1 (h (b :: y) (.cons hb hy))).1, fun z hz => ?_⟩
        exact (List.forall₂_cons.1 (h (a :: z) (.cons ha hz))).2
      · rintro ⟨hi, hrest⟩ x hx
        obtain ⟨b, z, hb, hz, rfl⟩ := List.forall₂_cons_left_iff.1 hx
        exact .cons (hi b hb) (hrest z hz)

theorem inBox_reverse : InBox mem box.reverse x ↔ InBox mem box x.reverse := by
  constructor
  · intro h
    have := List.rel_reverse h
    rwa [List.reverse_reverse] at this
  · intro h
    have := List.rel_reverse h
    rwa [List.reverse_reverse] at this

/-- The points whose first coordinate is in `P` and whose others are in `S`. -/
def Prepend (P : α → Prop) (S : List α → Prop) : List α → Prop
  | [] => False
  | a :: y => P a ∧ S y

/-- Boxes of one dimension more, which agree in it. -/
theorem Tiles.map_cons {i : ι} {l : List (List ι)} {S : List α → Prop} (h : Tiles (InBox mem) l S) :
    Tiles (InBox mem) (l.map (i :: ·)) (Prepend (mem i) S) where
  disjoint := by
    refine List.pairwise_map.2 (h.disjoint.imp fun hbox x hx hx' => ?_)
    obtain ⟨a, y, -, hy, rfl⟩ := List.forall₂_cons_left_iff.1 hx
    exact hbox y hy (List.forall₂_cons.1 hx').2
  union x := by
    cases x with
    | nil => simp [Prepend, InBox]
    | cons a y =>
      simp only [Prepend, h.union y, List.mem_map, exists_exists_and_eq_and, InBox, List.forall₂_cons]
      exact ⟨fun ⟨ha, box, hbox, hy⟩ => ⟨box, hbox, ha, hy⟩, fun ⟨box, hbox, ha, hy⟩ => ⟨ha, box, hbox, hy⟩⟩

/-- Boxes with their dimensions in the opposite order. -/
theorem Tiles.map_reverse {l : List (List ι)} {S : List α → Prop}
    (h : Tiles (InBox mem) l fun x => S x.reverse) : Tiles (InBox mem) (l.map List.reverse) S where
  disjoint := by
    refine List.pairwise_map.2 (h.disjoint.imp fun hbox x hx hx' => ?_)
    exact hbox x.reverse (inBox_reverse.1 hx) (inBox_reverse.1 hx')
  union x := by
    have hx := h.union x.reverse
    rw [List.reverse_reverse] at hx
    rw [hx]
    simp only [List.mem_map, exists_exists_and_eq_and, inBox_reverse]

/-- The partner of an element of the second list. -/
theorem exists_left_of_forall₂ {κ : Type*} {R : ι → κ → Prop} {l : List ι} {ks : List κ}
    (h : List.Forall₂ R l ks) {k : κ} (hk : k ∈ ks) : ∃ i ∈ l, R i k := by
  induction h with
  | nil => cases hk
  | cons hR _ ih =>
    rcases List.mem_cons.1 hk with rfl | hk
    · exact ⟨_, List.mem_cons_self, hR⟩
    · obtain ⟨i, hi, hik⟩ := ih hk
      exact ⟨i, List.mem_cons_of_mem _ hi, hik⟩

/-- Tilings of the dimensions give a tiling of the box. -/
theorem tiles_boxes {lists : List (List ι)} {sets : List (α → Prop)}
    (h : List.Forall₂ (fun pieces S => Tiles mem pieces S) lists sets) :
    Tiles (InBox mem) (boxes lists) fun x => List.Forall₂ (fun (S : α → Prop) a => S a) sets x := by
  induction h with
  | nil => exact ⟨by simp [boxes], fun x => by simp [boxes, InBox]⟩
  | @cons pieces S lists sets htile _ ih =>
    refine ⟨?_, fun x => ?_⟩
    · -- boxes over different boxes of the rest, or over different pieces in front
      refine List.pairwise_flatMap.2 ⟨fun box _ => ?_, ?_⟩
      · refine List.pairwise_map.2 (htile.disjoint.imp fun hij x hx hx' => ?_)
        obtain ⟨a, y, ha, -, rfl⟩ := List.forall₂_cons_left_iff.1 hx
        exact hij a ha (List.forall₂_cons.1 hx').1
      · refine ih.disjoint.imp fun hbox b hb b' hb' x hx hx' => ?_
        obtain ⟨i, -, rfl⟩ := List.mem_map.1 hb
        obtain ⟨i', -, rfl⟩ := List.mem_map.1 hb'
        obtain ⟨a, y, -, hy, rfl⟩ := List.forall₂_cons_left_iff.1 hx
        exact hbox y hy (List.forall₂_cons.1 hx').2
    · cases x with
      | nil =>
        constructor
        · intro hx
          cases hx
        · rintro ⟨box, hbox, hx⟩
          obtain ⟨i, box', rfl, -, -⟩ := exists_cons_of_mem_boxes hbox
          cases hx
      | cons a y =>
        rw [List.forall₂_cons, htile.union a, ih.union y]
        constructor
        · rintro ⟨⟨i, hi, ha⟩, box, hbox, hy⟩
          exact ⟨i :: box, mem_boxes_cons.2 ⟨hi, hbox⟩, .cons ha hy⟩
        · rintro ⟨box, hbox, hx⟩
          obtain ⟨i, box', rfl, hi, hbox'⟩ := exists_cons_of_mem_boxes hbox
          obtain ⟨ha, hy⟩ := List.forall₂_cons.1 hx
          exact ⟨⟨i, hi, ha⟩, box', hbox', hy⟩

end

end OmpSs.Lib
