import OmpSs.Core.RegionDict
import OmpSs.Lib.MixedRadix

/-!
# The region that fits around a region

With the allocation policy `fit` a region is kept in a cache as part of the smallest region around it that
is contiguous: it keeps the outer dimensions of which the region accesses one position and the first of
which it accesses another number, and takes those inside whole. `getFitRegionId`
(`nanox-mx/src/core/globalregt.cpp`) registers it, and `CopyData` (`copydata.cpp`) computes its offset and
size from the dimensions. The two agree (`fit_interval`), but the offset is computed without a test for the
last dimension: of a region of a single byte it reads the dimension with index -1.
-/

namespace OmpSs.Core

open Lib

/-! ## The program -/

namespace CopyData

/-- The size of the dimensions up to the one at hand, outermost first; of none it is 1, as where the source
tests for it. Source: `CopyData::getWideSizeRecursive` (`copydata.cpp:27`). -/
def getWideSizeRecursive : List (Nat × Span) → Nat
  | [] => 1
  | (size, _) :: dims => size * getWideSizeRecursive dims

/-- Source: `CopyData::getFitSizeRecursive` (`copydata.cpp:36`). -/
def getFitSizeRecursive : List (Nat × Span) → Nat
  | [] => 1
  | [(_, s)] => s.accessedLength
  | (_, s) :: dims =>
    if s.accessedLength = 1 then getFitSizeRecursive dims
    else s.accessedLength * getWideSizeRecursive dims

/-- The offset; `none` where the dimension with index -1 is read. Source: `CopyData::getFitOffsetRecursive`
(`copydata.cpp:46`). -/
def getFitOffsetRecursive : List (Nat × Span) → Option Nat
  | [] => none
  | (_, s) :: dims =>
    let off := s.lowerBound * getWideSizeRecursive dims
    if s.accessedLength = 1 then (getFitOffsetRecursive dims).map (off + ·) else some off

end CopyData

namespace RegionDictionary

/-- The dimensions of the fitting region, outermost first. Source: the loop of
`global_reg_t::getFitRegionId` (`globalregt.cpp:159`). -/
def fitDimensions : Bool → List (Nat × Span) → List Span
  | _, [] => []
  | true, (_, s) :: dims => s :: fitDimensions (s.accessedLength == 1) dims
  | false, (size, _) :: dims => ⟨0, size⟩ :: fitDimensions false dims

/-- Source: `global_reg_t::getFitRegionId` (`globalregt.cpp:153`) of a region of the shape `s`. -/
def getFitRegionId (d : RegionDictionary) (s : Shape) : Nat × RegionDictionary :=
  d.addRegion (fitDimensions true s.dims.reverse).reverse

/-! ## The bytes of the fitting region -/

open CopyData

variable {dims : List (Nat × Span)} {keep : Bool} {off p : Nat}

/-- The byte of an element, the dimensions and the coordinates outermost first. -/
def byteOf : List (Nat × Span) → List Nat → Nat
  | _ :: dims, x :: xs => x * getWideSizeRecursive dims + byteOf dims xs
  | _, _ => 0

/-- The bytes of the elements of a box. -/
def Bytes (dims : List (Nat × Span)) (box : List Span) (p : Nat) : Prop :=
  ∃ xs, InBox Span.Mem box xs ∧ byteOf dims xs = p

theorem bytes_cons {dim : Nat × Span} {s : Span} {box : List Span} :
    Bytes (dim :: dims) (s :: box) p ↔
      ∃ x q, s.Mem x ∧ Bytes dims box q ∧ x * getWideSizeRecursive dims + q = p := by
  constructor
  · rintro ⟨xs, hxs, rfl⟩
    obtain ⟨x, ys, hx, hys, rfl⟩ := List.forall₂_cons_left_iff.1 hxs
    exact ⟨x, _, hx, ⟨ys, hys, rfl⟩, rfl⟩
  · rintro ⟨x, q, hx, ⟨ys, hys, rfl⟩, rfl⟩
    exact ⟨x :: ys, .cons hx hys, rfl⟩

/-- The dimensions that are taken whole have all bytes. -/
theorem bytes_whole : Bytes dims (fitDimensions false dims) p ↔ p < getWideSizeRecursive dims := by
  induction dims generalizing p with
  | nil =>
    constructor
    · rintro ⟨xs, -, rfl⟩
      exact Nat.one_pos
    · intro hp
      exact ⟨[], .nil, (Nat.lt_one_iff.1 hp).symm⟩
  | cons dim dims ih =>
    obtain ⟨size, s⟩ := dim
    simp only [fitDimensions, bytes_cons, ih, Span.Mem, Nat.zero_add, and_assoc]
    rw [exists_leading_iff, Nat.zero_mul]
    exact and_iff_right (Nat.zero_le p)

/-- The bytes of the fitting region are an interval, of the offset and the size that `CopyData` computes. -/
theorem fit_interval (hoff : getFitOffsetRecursive dims = some off) :
    Bytes dims (fitDimensions true dims) p ↔ off ≤ p ∧ p < off + getFitSizeRecursive dims := by
  induction dims generalizing off p with
  | nil => cases hoff
  | cons dim dims ih =>
    obtain ⟨size, s⟩ := dim
    rw [getFitOffsetRecursive] at hoff
    rw [fitDimensions, bytes_cons]
    by_cases hone : s.accessedLength = 1
    · -- one position of this dimension
      rw [if_pos hone] at hoff
      obtain ⟨off', hoff', rfl⟩ := Option.map_eq_some_iff.1 hoff
      have hsize : getFitSizeRecursive ((size, s) :: dims) = getFitSizeRecursive dims := by
        cases dims with
        | nil => cases hoff'
        | cons dim dims => rw [getFitSizeRecursive, if_pos hone]; simp
      simp only [hone, beq_self_eq_true, ih hoff', hsize, Span.Mem]
      constructor
      · rintro ⟨x, q, ⟨hle, hlt⟩, ⟨hq, hq'⟩, rfl⟩
        obtain rfl : x = s.lowerBound := by omega
        omega
      · rintro ⟨hle, hlt⟩
        exact ⟨s.lowerBound, p - s.lowerBound * getWideSizeRecursive dims, by omega, by omega, by omega⟩
    · -- several positions, and all of the dimensions inside
      rw [if_neg hone] at hoff
      cases hoff
      have hsize :
          getFitSizeRecursive ((size, s) :: dims) = s.accessedLength * getWideSizeRecursive dims := by
        cases dims with
        | nil => simp [getFitSizeRecursive, getWideSizeRecursive]
        | cons dim dims => rw [getFitSizeRecursive, if_neg hone]; simp
      rw [beq_false_of_ne hone, hsize, ← Nat.add_mul]
      simp only [bytes_whole, Span.Mem, and_assoc]
      exact exists_leading_iff

/-- The offset is computed where the region has a dimension with several positions. -/
theorem getFitOffsetRecursive_isSome_iff :
    (∃ off, getFitOffsetRecursive dims = some off) ↔ ∃ dim ∈ dims, dim.2.accessedLength ≠ 1 := by
  induction dims with
  | nil => simp [getFitOffsetRecursive]
  | cons dim dims ih =>
    rw [getFitOffsetRecursive]
    by_cases hone : dim.2.accessedLength = 1
    · simp [hone, ← ih]
    · simp [hone]

/-- The region lies in the fitting region. -/
theorem inBox_fitDimensions (hin : InObject dims) {xs : List Nat}
    (h : InBox Span.Mem (dims.map (·.2)) xs) : InBox Span.Mem (fitDimensions keep dims) xs := by
  induction dims generalizing keep xs with
  | nil => simpa [fitDimensions] using h
  | cons dim dims ih =>
    obtain ⟨⟨-, hle⟩, hin'⟩ := List.forall_mem_cons.1 hin
    obtain ⟨x, ys, hx, hys, rfl⟩ := List.forall₂_cons_left_iff.1 h
    cases keep with
    | true => exact .cons hx (ih hin' hys)
    | false =>
      have hlt : x < dim.2.lowerBound + dim.2.accessedLength := hx.2
      exact .cons ⟨Nat.zero_le x, by dsimp only; omega⟩ (ih hin' hys)

theorem fitDimensions_proper (hin : InObject dims) :
    (fitDimensions keep dims).length = dims.length ∧ Proper (fitDimensions keep dims) := by
  induction dims generalizing keep with
  | nil => exact ⟨by simp [fitDimensions], fun s hs => by simp [fitDimensions] at hs⟩
  | cons dim dims ih =>
    obtain ⟨⟨hpos, hle⟩, hin'⟩ := List.forall_mem_cons.1 hin
    cases keep with
    | true =>
      obtain ⟨hlen, hp⟩ := @ih (dim.2.accessedLength == 1) hin'
      exact ⟨by simp [fitDimensions, hlen], List.forall_mem_cons.2 ⟨hpos, hp⟩⟩
    | false =>
      obtain ⟨hlen, hp⟩ := @ih false hin'
      exact ⟨by simp [fitDimensions, hlen], List.forall_mem_cons.2 ⟨by dsimp only; omega, hp⟩⟩

theorem getWideSizeRecursive_eq (dims : List (Nat × Span)) :
    getWideSizeRecursive dims = (dims.map (·.1)).reverse.prod := by
  induction dims with
  | nil => rfl
  | cons dim dims ih => simp [getWideSizeRecursive, ih, List.prod_append, Nat.mul_comm]

/-- The byte of an element is its number in the object. -/
theorem byteOf_eq {xs : List Nat} (h : xs.length = dims.length) :
    byteOf dims xs = place (dims.map (·.1)).reverse xs.reverse := by
  induction dims generalizing xs with
  | nil =>
    obtain rfl : xs = [] := List.length_eq_zero_iff.1 h
    rfl
  | cons dim dims ih =>
    cases xs with
    | nil => cases h
    | cons x xs =>
      rw [List.map_cons, List.reverse_cons, List.reverse_cons, place_append_singleton
        (by simpa using h), byteOf, ih (Nat.succ.inj h), getWideSizeRecursive_eq, Nat.add_comm, Nat.mul_comm]

/-! ## The region that is returned -/

/-- What the fitting region of a region is to be: a region `fit` around it, whose bytes are the interval of
the offset `off` and the size `size`. -/
structure Fits (s : Shape) (fit : List Span) (off size : Nat) : Prop where
  contains : ∀ x, InBox Span.Mem (s.dims.map (·.2)) x → InBox Span.Mem fit x
  interval : ∀ p, (∃ x, InBox Span.Mem fit x ∧ place (s.dims.map (·.1)) x = p) ↔ off ≤ p ∧ p < off + size

/-- The fitting region fits, and `CopyData` computes its offset and size without reading outside the
dimensions, if and only if the region has a dimension with several positions. -/
theorem fit_region_iff {d : RegionDictionary} {s : Shape} (hdims : s.dims ≠ [])
    (h : Reach step (Call.Ok (s.dims.map (·.1)).length) (new (s.dims.map (·.1))) d)
    (hin : ∀ dim ∈ s.dims, dim.2.lowerBound + dim.2.accessedLength ≤ dim.1) :
    (∃ fit off, (d.getFitRegionId s).2.HasBox (d.getFitRegionId s).1 fit ∧
        getFitOffsetRecursive s.dims.reverse = some off ∧
        Fits s fit off (getFitSizeRecursive s.dims.reverse)) ↔
      ∃ dim ∈ s.dims, dim.2.accessedLength ≠ 1 := by
  have hobject : InObject s.dims.reverse := fun dim hdim =>
    ⟨s.pos dim (List.mem_reverse.1 hdim), hin dim (List.mem_reverse.1 hdim)⟩
  have hsome := @getFitOffsetRecursive_isSome_iff s.dims.reverse
  simp only [List.mem_reverse] at hsome
  rw [← hsome]
  constructor
  · rintro ⟨fit, off, -, hoff, -⟩
    exact ⟨off, hoff⟩
  · rintro ⟨off, hoff⟩
    have hv := reach_valid (by simpa using hdims) (fun size hsize => by
      obtain ⟨dim, hdim, rfl⟩ := List.mem_map.1 hsize
      have := s.pos dim hdim
      have := hin dim hdim
      omega) h
    obtain ⟨hlen, hp⟩ : (fitDimensions true s.dims.reverse).length = s.dims.reverse.length ∧
      Proper (fitDimensions true s.dims.reverse) := fitDimensions_proper hobject
    have hadd := @addRegion_spec _ _ (fitDimensions true s.dims.reverse).reverse hv
      (by simpa using List.length_pos_of_ne_nil hdims) (by simpa using hlen)
      fun s hs => hp s (List.mem_reverse.1 hs)
    refine ⟨_, off, hadd.hasBox, hoff, fun x hx => ?_, fun p => ?_⟩
    · rw [inBox_reverse]
      refine inBox_fitDimensions hobject ?_
      rw [List.map_reverse, inBox_reverse, List.reverse_reverse]
      exact hx
    · rw [← fit_interval hoff]
      have hbyte : ∀ xs, InBox Span.Mem (fitDimensions true s.dims.reverse) xs →
          byteOf s.dims.reverse xs = place (s.dims.map (·.1)) xs.reverse := by
        intro xs hxs
        rw [byteOf_eq (hxs.length_eq.symm.trans hlen), List.map_reverse, List.reverse_reverse]
      constructor
      · rintro ⟨x, hx, rfl⟩
        rw [inBox_reverse] at hx
        exact ⟨x.reverse, hx, by rw [hbyte _ hx, List.reverse_reverse]⟩
      · rintro ⟨xs, hxs, rfl⟩
        exact ⟨xs.reverse, inBox_reverse.2 (by rwa [List.reverse_reverse]), (hbyte xs hxs).symm⟩

/-- Two rows of an object of 8 by 4, half of each: both rows whole. -/
theorem fit_region_rows :
    ∃ fit off, ((new [8, 4]).getFitRegionId ⟨[(8, ⟨2, 4⟩), (4, ⟨1, 2⟩)], 0, none, by decide⟩).2.HasBox
        ((new [8, 4]).getFitRegionId ⟨[(8, ⟨2, 4⟩), (4, ⟨1, 2⟩)], 0, none, by decide⟩).1 fit ∧
      getFitOffsetRecursive [(4, ⟨1, 2⟩), (8, ⟨2, 4⟩)] = some off ∧
      Fits ⟨[(8, ⟨2, 4⟩), (4, ⟨1, 2⟩)], 0, none, by decide⟩ fit off
        (getFitSizeRecursive [(4, ⟨1, 2⟩), (8, ⟨2, 4⟩)]) :=
  (fit_region_iff (s := ⟨[(8, ⟨2, 4⟩), (4, ⟨1, 2⟩)], 0, none, by decide⟩) (by decide) .refl (by decide)).2
    (by decide)

/-- A single byte of that object: there is no offset, the dimension with index -1 is read. -/
theorem fit_region_byte :
    getFitOffsetRecursive [(4, ⟨1, 1⟩), (8, ⟨2, 1⟩)] = none ∧
      ¬ ∃ fit off, ((new [8, 4]).getFitRegionId ⟨[(8, ⟨2, 1⟩), (4, ⟨1, 1⟩)], 0, none, by decide⟩).2.HasBox
          ((new [8, 4]).getFitRegionId ⟨[(8, ⟨2, 1⟩), (4, ⟨1, 1⟩)], 0, none, by decide⟩).1 fit ∧
        getFitOffsetRecursive [(4, ⟨1, 1⟩), (8, ⟨2, 1⟩)] = some off ∧
        Fits ⟨[(8, ⟨2, 1⟩), (4, ⟨1, 1⟩)], 0, none, by decide⟩ fit off
          (getFitSizeRecursive [(4, ⟨1, 1⟩), (8, ⟨2, 1⟩)]) := by
  have hnone : getFitOffsetRecursive [(4, ⟨1, 1⟩), (8, ⟨2, 1⟩)] = none := by decide
  refine ⟨hnone, ?_⟩
  rintro ⟨fit, off, -, hoff, -⟩
  rw [hnone] at hoff
  cases hoff

end RegionDictionary

end OmpSs.Core
