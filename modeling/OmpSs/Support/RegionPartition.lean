import OmpSs.Support.RegionCut
import OmpSs.Support.RegionSets

/-!
# The outputs of a partition

`RegionPart::partition` of a full-width region, with each choice of outputs and any limit on the levels, and
with 0 for what a shift by 64 gives. The parts tile the region whatever the limit is (`partition_tiles`), and
a choice of outputs keeps some of them: those that meet the other region, or those that do not lie in it.
Without a limit every part lies in the other region or outside.
-/

namespace OmpSs.Support

open Lib

/-- A shift by the width of the words gives 0. -/
def shiftsToZero : BitVec 64 → Option (BitVec 64) := fun _ => some 0#64

namespace FullRegion

open Strings

section
variable {r s f : FullRegion} {x : BitVec 64}

/-- Strings that tile the string of a region, as regions. -/
theorem tiles_ofBits {ls : List (List BitValue)} (h : Strings.Cut r.bits ls) :
    Tiles Contains (ls.map ofBits) r.Contains := by
  have hlen : ∀ l ∈ ls, l.length = 64 := fun l hl => (h.length l hl).trans r.length_bits
  have htiles := h.tiles
  refine ⟨List.pairwise_map.2 (List.Pairwise.imp_of_mem ?_ htiles.disjoint), fun x => ?_⟩
  · intro l l' hl hl' hdisj x hx hx'
    rw [contains_ofBits (hlen l hl)] at hx
    rw [contains_ofBits (hlen l' hl')] at hx'
    exact hdisj _ hx hx'
  · rw [contains_iff, htiles.union]
    simp only [List.mem_map, exists_exists_and_eq_and]
    exact exists_congr fun l => and_congr_right fun hl => by rw [contains_ofBits (hlen l hl)]

/-- A choice of parts by their regions. -/
theorem Stand.filter {parts : List RegionPart} {fs : List FullRegion} (h : Stand parts fs)
    (want : Region → Bool) :
    Stand (parts.filter fun part => want part.region) (fs.filter fun f => want f.toRegion) := by
  calc (parts.filter fun part => want part.region).map (·.region)
      = (parts.map (·.region)).filter want := List.filter_map.symm
    _ = (fs.map toRegion).filter want := congrArg _ h
    _ = (fs.filter fun f => want f.toRegion).map toRegion := List.filter_map

/-- Which parts go to the output: all, those that meet the other region, or those that do not lie in it. -/
theorem wanted_iff {om onm : Bool} : RegionPart.wanted om onm s.toRegion f.toRegion = true ↔
    (om = true ∧ f.Intersects s) ∨ (onm = true ∧ ∃ x, f.Contains x ∧ ¬ s.Contains x) := by
  obtain ⟨hmeet, hthis, -⟩ := compare_iff f s
  obtain ⟨y, hy⟩ := f.exists_contains
  -- A region lies in the other one or leaves it.
  have hcases : f.Intersects s ∨ ∃ x, f.Contains x ∧ ¬ s.Contains x := by
    by_cases hs : s.Contains y
    · exact .inl ⟨y, hy, hs⟩
    · exact .inr ⟨y, hy, hs⟩
  have hleaves : (¬ f.Intersects s ∨ (f.Intersects s ∧ f.Intersects s ∧
      ∃ x, f.Contains x ∧ ¬ s.Contains x)) ↔ ∃ x, f.Contains x ∧ ¬ s.Contains x := by
    constructor
    · rintro (hnot | ⟨-, -, h⟩)
      · exact ⟨y, hy, fun hs => hnot ⟨y, hy, hs⟩⟩
      · exact h
    · intro h
      by_cases hint : f.Intersects s
      · exact .inr ⟨hint, hint, h⟩
      · exact .inl hint
  unfold RegionPart.wanted
  cases om <;> cases onm
  · simp
  · have hnot : f.toRegion.matchesRegion s.toRegion = false ↔ ¬ f.Intersects s := by
      rw [← matchesRegion_iff, Bool.not_eq_true]
    simp only [Bool.and_true, Bool.false_eq_true, if_false, if_true, false_and, false_or, true_and,
      Bool.or_eq_true, Bool.and_eq_true, Bool.not_eq_true', hnot, hmeet, hthis]
    exact hleaves
  · simp [matchesRegion_iff]
  · simpa using hcases

/-- The parts of a region: they tile it, and a choice of outputs keeps those that are wanted. Without a limit
on the levels a part lies in the other region or outside. -/
theorem partition_tiles (r s : FullRegion) (maxPartitioningLevels level : Int) :
    ∃ fs : List FullRegion, Tiles Contains fs r.Contains ∧
      (maxPartitioningLevels = -1 → ∀ f ∈ fs, f.Intersects s → ∀ x, f.Contains x → s.Contains x) ∧
      ∀ om onm, ∃ parts,
        RegionPart.partition shiftsToZero maxPartitioningLevels 65 ⟨r.toRegion, level⟩ s.toRegion 0 om onm =
          some parts ∧
        Stand parts (fs.filter fun f => RegionPart.wanted om onm s.toRegion f.toRegion) := by
  obtain ⟨ls, parts, hparts, hcut, hpieces, hrun⟩ :=
    RegionPart.partition_filter (by omega : 64 < 65) (r.isPart_toRegion level) s.spells rfl r.length_bits
      (by simp) (.inr rfl)
  have hregions := map_region_of_forall₂ hparts fun l hl => (hcut.length l hl).trans r.length_bits
  refine ⟨ls.map ofBits, tiles_ofBits hcut, fun hmax f hf hint x hx => ?_, fun om onm => ⟨_, hrun om onm,
    Stand.filter hregions (RegionPart.wanted om onm s.toRegion)⟩⟩
  obtain ⟨l, hl, rfl⟩ := List.mem_map.1 hf
  rw [hpieces hmax] at hl
  rw [intersects_iff_agree, bits_of_mem_pieces hl] at hint
  obtain ⟨hagree, rfl⟩ := eq_inter_of_mem_pieces (by simp) hl hint
  exact ((contains_meet (intersects_iff_agree.2 hagree)).1 hx).2

/-- The result of a partition: pairwise disjoint regions with the addresses `S`. -/
def Outputs (parts : Option (List RegionPart)) (S : BitVec 64 → Prop) : Prop :=
  ∃ ps fs, parts = some ps ∧ Stand ps fs ∧ Tiles Contains fs S

/-- What the choices of outputs give, and what is left of it with a limit on the levels. -/
structure Partitions (r s : FullRegion) (level : Int) : Prop where
  both : Outputs (RegionPart.partition shiftsToZero (-1) 65 ⟨r.toRegion, level⟩ s.toRegion 0 true true)
    r.Contains
  matching : Outputs
    (RegionPart.partition shiftsToZero (-1) 65 ⟨r.toRegion, level⟩ s.toRegion 0 true false)
    fun x => r.Contains x ∧ s.Contains x
  nonMatching : Outputs
    (RegionPart.partition shiftsToZero (-1) 65 ⟨r.toRegion, level⟩ s.toRegion 0 false true)
    fun x => r.Contains x ∧ ¬ s.Contains x
  limited : ∀ maxPartitioningLevels, ∃ S, Outputs
    (RegionPart.partition shiftsToZero maxPartitioningLevels 65 ⟨r.toRegion, level⟩ s.toRegion 0 false true) S ∧
    (∀ x, r.Contains x → ¬ s.Contains x → S x) ∧ ∀ x, S x → r.Contains x

/-- `partition` of any two regions. -/
theorem partitions (r s : FullRegion) (level : Int) : Partitions r s level where
  both := by
    obtain ⟨fs, htiles, -, hrun⟩ := partition_tiles r s (-1) level
    obtain ⟨parts, hparts, hstand⟩ := hrun true true
    refine ⟨parts, _, hparts, hstand, htiles.filter fun x => ?_⟩
    simp only [htiles.union x, RegionPart.wanted, Bool.and_self, if_true, true_and]
  matching := by
    obtain ⟨fs, htiles, hinside, hrun⟩ := partition_tiles r s (-1) level
    obtain ⟨parts, hparts, hstand⟩ := hrun true false
    refine ⟨parts, _, hparts, hstand, htiles.filter fun x => ?_⟩
    simp only [wanted_iff, true_and, Bool.false_eq_true, false_and, or_false, htiles.union x]
    constructor
    · rintro ⟨⟨f, hf, hx⟩, hs⟩
      exact ⟨f, hf, ⟨x, hx, hs⟩, hx⟩
    · rintro ⟨f, hf, hint, hx⟩
      exact ⟨⟨f, hf, hx⟩, hinside rfl f hf hint x hx⟩
  nonMatching := by
    obtain ⟨fs, htiles, hinside, hrun⟩ := partition_tiles r s (-1) level
    obtain ⟨parts, hparts, hstand⟩ := hrun false true
    refine ⟨parts, _, hparts, hstand, htiles.filter fun x => ?_⟩
    simp only [wanted_iff, true_and, Bool.false_eq_true, false_and, false_or, htiles.union x]
    constructor
    · rintro ⟨⟨f, hf, hx⟩, hs⟩
      exact ⟨f, hf, ⟨x, hx, hs⟩, hx⟩
    · rintro ⟨f, hf, ⟨y, hy, hnot⟩, hx⟩
      exact ⟨⟨f, hf, hx⟩, fun hs => hnot (hinside rfl f hf ⟨x, hx, hs⟩ y hy)⟩
  limited := by
    intro maxPartitioningLevels
    obtain ⟨fs, htiles, -, hrun⟩ := partition_tiles r s maxPartitioningLevels level
    obtain ⟨parts, hparts, hstand⟩ := hrun false true
    refine ⟨fun x => ∃ f ∈ fs, RegionPart.wanted false true s.toRegion f.toRegion = true ∧ f.Contains x,
      ⟨parts, _, hparts, hstand, htiles.filter fun _ => Iff.rfl⟩, fun x hr hs => ?_, fun x h => ?_⟩
    · obtain ⟨f, hf, hx⟩ := (htiles.union x).1 hr
      exact ⟨f, hf, wanted_iff.2 (.inr ⟨rfl, x, hx, hs⟩), hx⟩
    · obtain ⟨f, hf, -, hx⟩ := h
      exact (htiles.union x).2 ⟨f, hf, hx⟩

end

end FullRegion

end OmpSs.Support
