import OmpSs.Core.RegionDict

/-!
# The slab of a region

With the allocation policy `slab` a region is kept in a cache as part of a slab, a region of a fixed number
of bytes that `getSlabRegionId` (`nanox-mx/src/core/globalregt.cpp`) derives from it. Starting from the
innermost dimension the slab takes dimensions whole while its size allows (`slabDimensions`); in the
dimension where it ends it is one of the equal parts of the dimension (`slab_part`). In the dimensions
outside that one it has to hold the region's position, but the source writes the constant 1 there, and it
keeps the lower bounds in variables of 32 bits. `slab_holds_iff` says when the slab contains the region's
first element all the same.
-/

namespace OmpSs.Core

open Lib

namespace RegionDictionary

/-! ## The program -/

/-- What is stored in a variable of type `unsigned int`. -/
def toUnsignedInt (n : Nat) : Nat := n % 2 ^ 32

/-- The loop over the dimensions of the slab, innermost first; `none` is a fatal error. Source:
`globalregt.cpp:201`. -/
def slabDimensions (slabSize : Nat) : Nat → Bool → List (Nat × Span) → Option (List Span)
  | _, _, [] => some []
  | accSize, true, (size, s) :: dims =>
    let accSize' := accSize * size
    if slabSize = accSize' ∨ slabSize > accSize' ∧ slabSize % accSize' = 0 then
      (slabDimensions slabSize accSize' true dims).map (⟨0, size⟩ :: ·)
    else if slabSize < accSize' ∧ accSize' % slabSize = 0 then
      let slabElems := slabSize / (accSize' / size)
      (slabDimensions slabSize accSize' false dims).map
        (⟨toUnsignedInt s.lowerBound / slabElems * slabElems, slabElems⟩ :: ·)
    else none
  | accSize, false, _ :: dims => (slabDimensions slabSize accSize false dims).map (⟨1, 1⟩ :: ·)

/-- The id of the slab of the region `id`, of the shape `s`. Source: `global_reg_t::getSlabRegionId`
(`globalregt.cpp:179`). -/
def getSlabRegionId (d : RegionDictionary) (s : Shape) (id slabSize : Nat) :
    Option (Nat × RegionDictionary) :=
  if slabSize < s.getBreadth then none
  else if s.getBreadth < slabSize ∧ id = 1 then some (id, d)
  else (slabDimensions slabSize 1 true s.dims).map d.addRegion

/-! ## Where the slab holds the region -/

/-- The first element of a region lies in the slab and the slab in the object, dimension by dimension. -/
def SlabOf (dims : List (Nat × Span)) (slab : List Span) : Prop :=
  List.Forall₂ (fun dim part => part.Mem dim.2.lowerBound ∧ part.lowerBound + part.accessedLength ≤ dim.1)
    dims slab

/-- The condition on a region's dimensions, `accSize` being the size of the dimensions inside these: in the
dimension in which the slab ends, the lower bound is in the part of the slab that its last 32 bits are in,
and in the dimensions outside it the lower bound is 1. -/
def HoldsFirst (slabSize : Nat) : Nat → List (Nat × Span) → Prop
  | _, [] => True
  | accSize, (size, s) :: dims =>
    if accSize * size ≤ slabSize then HoldsFirst slabSize (accSize * size) dims
    else toUnsignedInt s.lowerBound / (slabSize / accSize) = s.lowerBound / (slabSize / accSize) ∧
      ∀ dim ∈ dims, dim.2.lowerBound = 1

instance decidableHoldsFirst (slabSize : Nat) :
    (accSize : Nat) → (dims : List (Nat × Span)) → Decidable (HoldsFirst slabSize accSize dims)
  | _, [] => inferInstanceAs (Decidable True)
  | accSize, (size, _) :: dims =>
    have := decidableHoldsFirst slabSize (accSize * size) dims
    inferInstanceAs (Decidable (if accSize * size ≤ slabSize then HoldsFirst slabSize (accSize * size) dims
      else _ ∧ ∀ dim ∈ dims, dim.2.lowerBound = 1))

variable {slabSize accSize : Nat} {dims : List (Nat × Span)} {slab : List Span}

/-- The dimensions outside the one in which the slab ends. -/
theorem slabDimensions_false (h : slabDimensions slabSize accSize false dims = some slab)
    (hin : InObject dims) : SlabOf dims slab ↔ ∀ dim ∈ dims, dim.2.lowerBound = 1 := by
  induction dims generalizing slab with
  | nil =>
    cases h
    simp [SlabOf]
  | cons dim dims ih =>
    obtain ⟨slab', hslab', rfl⟩ := Option.map_eq_some_iff.1 h
    obtain ⟨⟨hpos, hle⟩, hin'⟩ := List.forall_mem_cons.1 hin
    rw [List.forall_mem_cons, ← ih hslab' hin', SlabOf, List.forall₂_cons, ← SlabOf]
    refine and_congr_left fun _ => ?_
    simp only [Span.Mem]
    omega

/-- A part of the size `e` of a dimension whose size is a multiple of `e`, and the parts in which two
positions lie. -/
theorem slab_part {e size x y : Nat} (he : 0 < e) (hdvd : e ∣ size) (hx : x < size) :
    x / e * e + e ≤ size ∧ ((⟨x / e * e, e⟩ : Span).Mem y ↔ x / e = y / e) := by
  obtain ⟨k, rfl⟩ := hdvd
  have hk : x / e < k := Nat.div_lt_of_lt_mul hx
  constructor
  · calc x / e * e + e = (x / e + 1) * e := (Nat.succ_mul _ _).symm
      _ ≤ k * e := Nat.mul_le_mul_right e hk
      _ = e * k := Nat.mul_comm k e
  · rw [Span.Mem, eq_comm, Nat.div_eq_iff he]
    dsimp only
    omega

/-- While the slab takes dimensions whole, its size is a multiple of the size of those it has. -/
theorem slabDimensions_true (h : slabDimensions slabSize accSize true dims = some slab)
    (hin : InObject dims) (hacc : 0 < accSize) (hslab : 0 < slabSize) (hdvd : accSize ∣ slabSize) :
    SlabOf dims slab ↔ HoldsFirst slabSize accSize dims := by
  induction dims generalizing accSize slab with
  | nil =>
    cases h
    simp [SlabOf, HoldsFirst]
  | cons dim dims ih =>
    obtain ⟨size, s⟩ := dim
    obtain ⟨⟨hpos, hle⟩, hin'⟩ := List.forall_mem_cons.1 hin
    dsimp only at hpos hle
    have hacc' : 0 < accSize * size := Nat.mul_pos hacc (by omega)
    rw [slabDimensions] at h
    split at h
    · -- the whole dimension
      next hwhole =>
      obtain ⟨slab', hslab', rfl⟩ := Option.map_eq_some_iff.1 h
      have hle' : accSize * size ≤ slabSize := by omega
      have hdvd' : accSize * size ∣ slabSize := by
        rcases hwhole with heq | ⟨-, hmod⟩
        · exact heq ▸ dvd_rfl
        · exact Nat.dvd_of_mod_eq_zero hmod
      rw [HoldsFirst, if_pos hle', ← ih hslab' hin' hacc' hdvd', SlabOf, List.forall₂_cons, ← SlabOf]
      refine and_iff_right ?_
      simp only [Span.Mem]
      omega
    · next hwhole =>
      split at h
      · -- the slab ends in this dimension
        next hpart =>
        obtain ⟨hlt, hmod⟩ := hpart
        obtain ⟨slab', hslab', rfl⟩ := Option.map_eq_some_iff.1 h
        rw [Nat.mul_div_cancel _ (by omega : 0 < size)]
        obtain ⟨e, rfl⟩ := hdvd
        have he : 0 < e := Nat.pos_of_mul_pos_left hslab
        have hsize : e ∣ size := Nat.dvd_of_mul_dvd_mul_left hacc (Nat.dvd_of_mod_eq_zero hmod)
        have hx : toUnsignedInt s.lowerBound < size :=
          lt_of_le_of_lt (Nat.mod_le _ _) (by omega)
        have hpart := slab_part (y := s.lowerBound) he hsize hx
        rw [HoldsFirst, if_neg (Nat.not_le.2 hlt), Nat.mul_div_cancel_left e hacc, SlabOf,
          List.forall₂_cons, ← SlabOf, slabDimensions_false hslab' hin']
        refine and_congr_left fun _ => ?_
        rw [hpart.2]
        exact and_iff_left hpart.1
      · cases h

/-- The slab takes something of every dimension. -/
theorem slabDimensions_proper {keep : Bool} (h : slabDimensions slabSize accSize keep dims = some slab)
    (hpos : ∀ dim ∈ dims, 0 < dim.1) (hacc : 0 < accSize) (hslab : 0 < slabSize)
    (hdvd : keep = true → accSize ∣ slabSize) : slab.length = dims.length ∧ Proper slab := by
  induction dims generalizing accSize keep slab with
  | nil =>
    rw [slabDimensions] at h
    cases h
    exact ⟨rfl, fun _ hs => by cases hs⟩
  | cons dim dims ih =>
    obtain ⟨size, s⟩ := dim
    obtain ⟨hsize, hpos'⟩ := List.forall_mem_cons.1 hpos
    have hcons : ∀ {part slab' keep' acc'}, slabDimensions slabSize acc' keep' dims = some slab' →
        0 < part.accessedLength → 0 < acc' → (keep' = true → acc' ∣ slabSize) →
        (part :: slab').length = dims.length + 1 ∧ Proper (part :: slab') := by
      intro part slab' keep' acc' hrest hpart hacc' hdvd'
      obtain ⟨hlen, hp⟩ := ih hrest hpos' hacc' hdvd'
      exact ⟨by rw [List.length_cons, hlen], List.forall_mem_cons.2 ⟨hpart, hp⟩⟩
    cases keep with
    | false =>
      obtain ⟨slab', hslab', rfl⟩ := Option.map_eq_some_iff.1 h
      exact hcons hslab' Nat.one_pos hacc fun hf => by cases hf
    | true =>
      have hacc' := Nat.mul_pos hacc hsize
      rw [slabDimensions] at h
      split at h
      · next hwhole =>
        obtain ⟨slab', hslab', rfl⟩ := Option.map_eq_some_iff.1 h
        refine hcons hslab' hsize hacc' fun _ => ?_
        rcases hwhole with heq | ⟨-, hmod⟩
        · exact heq ▸ dvd_rfl
        · exact Nat.dvd_of_mod_eq_zero hmod
      · split at h
        · obtain ⟨slab', hslab', rfl⟩ := Option.map_eq_some_iff.1 h
          refine hcons hslab' ?_ hacc' fun hf => by cases hf
          obtain ⟨e, rfl⟩ := hdvd rfl
          rw [Nat.mul_div_cancel _ hsize, Nat.mul_div_cancel_left e hacc]
          exact Nat.pos_of_mul_pos_left hslab
        · cases h

/-! ## The region that is returned -/

/-- The slab of a region, where there is one, contains the region's first element and lies in the object if
and only if it is the whole object, larger than the region, or the region's lower bounds fit the constants
of the slab. -/
theorem slab_holds_iff {d d' : RegionDictionary} {s : Shape} {id r : Nat} (hdims : s.dims ≠ [])
    (h : Reach step (Call.Ok (s.dims.map (·.1)).length) (new (s.dims.map (·.1))) d)
    (hid : d.HasBox id (s.dims.map (·.2)))
    (hin : ∀ dim ∈ s.dims, dim.2.lowerBound + dim.2.accessedLength ≤ dim.1)
    (hr : d.getSlabRegionId s id slabSize = some (r, d')) :
    (∃ slab, d'.HasBox r slab ∧ SlabOf s.dims slab) ↔
      s.getBreadth < slabSize ∧ id = 1 ∨ HoldsFirst slabSize 1 s.dims := by
  have hpos : ∀ size ∈ s.dims.map (·.1), 0 < size := by
    intro size hsize
    obtain ⟨dim, hdim, rfl⟩ := List.mem_map.1 hsize
    have := s.pos dim hdim
    have := hin dim hdim
    omega
  have hv := reach_valid (by simpa using hdims) hpos h
  have hn : 0 < (s.dims.map (·.1)).length := by simpa using List.length_pos_of_ne_nil hdims
  have hobject : InObject s.dims := fun dim hdim => ⟨s.pos dim hdim, hin dim hdim⟩
  rw [getSlabRegionId] at hr
  split at hr
  · cases hr
  · next hfatal =>
    split at hr
    · -- the whole object is its own slab
      next hwhole =>
      cases hr
      refine ⟨fun _ => .inl hwhole, fun _ => ⟨_, hid, ?_⟩⟩
      rw [SlabOf, List.forall₂_map_right_iff, List.forall₂_same]
      exact fun dim hdim => ⟨⟨le_rfl, Nat.lt_add_of_pos_right (s.pos dim hdim)⟩, hin dim hdim⟩
    · next hwhole =>
      obtain ⟨slab, hslab, heq⟩ := Option.map_eq_some_iff.1 hr
      have hpositive : 0 < slabSize :=
        lt_of_lt_of_le (Nat.succ_pos _ : 0 < s.getBreadth) (Nat.not_lt.1 hfatal)
      obtain ⟨hlen, hproper⟩ := slabDimensions_proper hslab
        (fun dim hdim => hpos _ (List.mem_map_of_mem hdim)) Nat.one_pos hpositive fun _ => one_dvd _
      have hadd := addRegion_spec hv hn (by rw [hlen, List.length_map]) hproper
      rw [heq] at hadd
      rw [← slabDimensions_true hslab hobject Nat.one_pos hpositive (one_dvd _), or_iff_right hwhole]
      constructor
      · rintro ⟨slab', hslab', hof⟩
        rwa [hslab'.unique hadd.hasBox] at hof
      · exact fun hof => ⟨slab, hadd.hasBox, hof⟩

/-- A part of row 1 of an object of 8 by 8: its slab of half a row is in row 1. -/
theorem slab_holds_row :
    ∃ d d', Reach step (Call.Ok 2) (new [8, 8]) d ∧
      d.getSlabRegionId ⟨[(8, ⟨5, 2⟩), (8, ⟨1, 1⟩)], 0, none, by decide⟩ 2 4 = some (3, d') ∧
      ∃ slab, d'.HasBox 3 slab ∧ SlabOf [(8, ⟨5, 2⟩), (8, ⟨1, 1⟩)] slab := by
  obtain ⟨d, hreach, hp⟩ := exists_reach_of_guarded_run step (Call.Ok 2) (new [8, 8])
    [.addRegion [⟨5, 2⟩, ⟨1, 1⟩]]
    (fun d => decide ((d.getRegionNode 2).map Leaf.box = some [⟨5, 2⟩, ⟨1, 1⟩] ∧
      (d.getSlabRegionId ⟨[(8, ⟨5, 2⟩), (8, ⟨1, 1⟩)], 0, none, by decide⟩ 2 4).map (·.1) = some 3))
    (by decide)
  obtain ⟨hbox, hslab⟩ := of_decide_eq_true hp
  obtain ⟨⟨r, d'⟩, hrun, rfl⟩ := Option.map_eq_some_iff.1 hslab
  have hholds := slab_holds_iff (s := ⟨[(8, ⟨5, 2⟩), (8, ⟨1, 1⟩)], 0, none, by decide⟩) (by decide)
    hreach (Option.map_eq_some_iff.1 hbox) (by decide) hrun
  exact ⟨d, d', hreach, hrun, hholds.2 (.inr (by decide))⟩

/-- A part of row 0: its slab is in row 1 as well. -/
theorem slab_of_first_row :
    ∃ d d', Reach step (Call.Ok 2) (new [8, 8]) d ∧ d.HasBox 2 [⟨5, 2⟩, ⟨0, 1⟩] ∧
      d.getSlabRegionId ⟨[(8, ⟨5, 2⟩), (8, ⟨0, 1⟩)], 0, none, by decide⟩ 2 4 = some (3, d') ∧
      ¬ ∃ slab, d'.HasBox 3 slab ∧ SlabOf [(8, ⟨5, 2⟩), (8, ⟨0, 1⟩)] slab := by
  obtain ⟨d, hreach, hp⟩ := exists_reach_of_guarded_run step (Call.Ok 2) (new [8, 8])
    [.addRegion [⟨5, 2⟩, ⟨0, 1⟩]]
    (fun d => decide ((d.getRegionNode 2).map Leaf.box = some [⟨5, 2⟩, ⟨0, 1⟩] ∧
      (d.getSlabRegionId ⟨[(8, ⟨5, 2⟩), (8, ⟨0, 1⟩)], 0, none, by decide⟩ 2 4).map (fun r =>
        (r.1, (r.2.getRegionNode 3).map Leaf.box)) = some (3, some [⟨4, 4⟩, ⟨1, 1⟩])))
    (by decide)
  obtain ⟨hbox, hslab⟩ := of_decide_eq_true hp
  obtain ⟨⟨r, d'⟩, hrun, heq⟩ := Option.map_eq_some_iff.1 hslab
  obtain ⟨rfl, hbox'⟩ := Prod.mk.inj heq
  refine ⟨d, d', hreach, Option.map_eq_some_iff.1 hbox, hrun, ?_⟩
  rintro ⟨slab, hslab, hof⟩
  rw [hslab.unique (Option.map_eq_some_iff.1 hbox')] at hof
  simp [SlabOf, Span.Mem] at hof

end RegionDictionary

end OmpSs.Core
