import OmpSs.Lib.Cube
import OmpSs.Support.RegionPart
import Mathlib.Data.BitVec

/-!
# Regions as sets of addresses

A full-width `Region` stands for the addresses that agree with its known bits. These sets are the cubes of
`OmpSs.Lib.Cube` over the 64 address bits (`FullRegion.cube`), and the comparisons of regions, their
intersection, and the two ways to put regions together are operations on cubes: `operator|=` gives the hull,
and `combine` gives the union if there is a region for it.
-/

namespace OmpSs.Support

open Lib

/-! ## The program -/

namespace BitCounter

/-- Source: `BitCounter<uint64_t, BITS>::hasMoreThanOneOne` (`bitcounter.hpp:29`, `:40`), where `BITS` is
`2 ^ (level + 1)`. -/
def hasMoreThanOneOne : Nat → BitVec 64 → Bool
  | 0, value => value &&& 1#64 &&& value >>> 1 ≠ 0#64
  | level + 1, value =>
    let lowMask := (0#64 - 1#64) >>> 2 ^ (level + 1)
    let highPart := value >>> 2 ^ (level + 1)
    let lowPart := value &&& lowMask
    lowPart &&& highPart ≠ 0#64 || hasMoreThanOneOne level (lowPart ^^^ highPart)

end BitCounter

namespace Region

/-- Source: `contains` (`region_decl.hpp:433`). -/
def contains (r other : Region) : Bool :=
  let (matches_, _, otherSubsumes) := r.compare other
  matches_ && !otherSubsumes

/-- Source: `intersect` (`region_decl.hpp:635`). -/
def intersect (r other : Region) : Region :=
  { r with
    mask := r.mask ||| other.mask
    value := (r.value ||| other.value) &&& (r.mask ||| other.mask) }

/-- Source: `operator|=` (`region_decl.hpp:623`). -/
def orAssign (r other : Region) : Region :=
  { r with
    mask := r.mask &&& other.mask &&& ~~~(r.value ^^^ other.value)
    value := r.value &&& other.mask &&& ~~~(r.value ^^^ other.value) }

/-- The region for both, if `combine` (`region.hpp:32`) returns true. -/
def combine (r other : Region) : Option Region :=
  if r.firstBit ≠ other.firstBit ∨ r.nextBit ≠ other.nextBit then none
  else if r.mask ≠ r.mask ||| other.mask ∧ other.mask ≠ r.mask ||| other.mask then none
  else if r.mask ≠ other.mask ∧ r.value &&& r.mask &&& other.mask ≠ other.value &&& r.mask &&& other.mask
  then none
  else
    let mask := r.mask &&& other.mask
    let valueDifferences := (r.value ^^^ other.value) &&& mask
    if BitCounter.hasMoreThanOneOne 5 valueDifferences then none
    else some { r with
      mask := mask &&& ~~~valueDifferences
      value := r.value &&& (mask &&& ~~~valueDifferences) }

end Region

/-! ## Counting bits -/

namespace BitCounter

theorem getLsbD_lowMask (half i : Nat) :
    ((0#64 - 1#64) >>> half).getLsbD i = decide (half + i < 64) := by
  rw [show (0#64 - 1#64 : BitVec 64) = BitVec.allOnes 64 by decide, BitVec.getLsbD_ushiftRight,
    BitVec.getLsbD_allOnes]

theorem ne_zero_of_getLsbD {w : BitVec 64} {i : Nat} (h : w.getLsbD i = true) : w ≠ 0#64 := by
  rintro rfl
  simp at h

section
variable {value folded : BitVec 64} {half i j : Nat}

/-- A bit of either half is still there when the halves are laid over each other, if no two bits meet. -/
theorem getLsbD_folded
    (hfold : ∀ k < half, folded.getLsbD k = (value.getLsbD k ^^ value.getLsbD (half + k)))
    (hover : ∀ k < half, value.getLsbD k = true → value.getLsbD (half + k) = false) (hi : i < 2 * half)
    (hset : value.getLsbD i = true) : folded.getLsbD (i % half) = true := by
  rcases Nat.lt_or_ge i half with hlt | hge
  · rw [Nat.mod_eq_of_lt hlt, hfold i hlt, hset, hover i hlt hset, Bool.xor_false]
  · have hmod : i % half = i - half := by rw [Nat.mod_eq_sub_mod hge, Nat.mod_eq_of_lt (by omega)]
    have hlow : value.getLsbD (i - half) = false := by
      by_contra hlow
      have := hover (i - half) (by omega) (Bool.eq_true_of_not_eq_false hlow)
      rw [Nat.add_sub_cancel' hge, hset] at this
      cases this
    rw [hmod, hfold _ (by omega), Nat.add_sub_cancel' hge, hlow, hset, Bool.false_xor]

/-- Bits that do not meet go to different places. -/
theorem mod_ne_of_over (hover : ∀ k < half, value.getLsbD k = true → value.getLsbD (half + k) = false)
    (hij : i < j) (hj : j < 2 * half) (hi' : value.getLsbD i = true) (hj' : value.getLsbD j = true) :
    i % half ≠ j % half := by
  intro heq
  rcases Nat.lt_or_ge j half with hlt | hge
  · rw [Nat.mod_eq_of_lt hlt, Nat.mod_eq_of_lt (hij.trans hlt)] at heq
    omega
  · rw [Nat.mod_eq_sub_mod hge, Nat.mod_eq_of_lt (show j - half < half by omega)] at heq
    rcases Nat.lt_or_ge i half with hlt | hge'
    · rw [Nat.mod_eq_of_lt hlt] at heq
      have := hover i hlt hi'
      rw [heq, Nat.add_sub_cancel' hge, hj'] at this
      cases this
    · rw [Nat.mod_eq_sub_mod hge', Nat.mod_eq_of_lt (by omega)] at heq
      omega

/-- Two bits are found: they meet when the halves are laid over each other, or both are still there. -/
theorem hasMoreThanOneOne_of_two (level : Nat) (hlevel : level ≤ 5) (hij : i < j)
    (hj : j < 2 ^ (level + 1)) (hi' : value.getLsbD i = true) (hj' : value.getLsbD j = true) :
    hasMoreThanOneOne level value = true := by
  induction level generalizing value i j with
  | zero =>
    obtain rfl : i = 0 := by omega
    obtain rfl : j = 1 := by omega
    rw [hasMoreThanOneOne, decide_eq_true_iff]
    refine ne_zero_of_getLsbD (i := 0) ?_
    simp [hi', hj']
  | succ level ih =>
    have hpow : 2 ^ (level + 1 + 1) = 2 * 2 ^ (level + 1) := by ring
    have hhalf : 2 ^ (level + 1) ≤ 32 := Nat.pow_le_pow_right (by decide) hlevel
    rw [hasMoreThanOneOne, Bool.or_eq_true, decide_eq_true_iff]
    generalize 2 ^ (level + 1) = half at *
    have hlow : ∀ k < half, (value &&& (0#64 - 1#64) >>> half).getLsbD k = value.getLsbD k := by
      intro k hk
      have : half + k < 64 := by omega
      rw [BitVec.getLsbD_and, getLsbD_lowMask, decide_eq_true this, Bool.and_true]
    by_contra hnone
    obtain ⟨hand, hrest⟩ := not_or.1 hnone
    have hover : ∀ k < half, value.getLsbD k = true → value.getLsbD (half + k) = false := by
      intro k hk hk'
      have hzero := congrArg (fun w : BitVec 64 => w.getLsbD k) (not_not.1 hand)
      rw [BitVec.getLsbD_and, hlow k hk, hk', BitVec.getLsbD_ushiftRight, Bool.true_and] at hzero
      simpa using hzero
    have hkept : ∀ k < 2 * half, value.getLsbD k = true →
        ((value &&& (0#64 - 1#64) >>> half) ^^^ value >>> half).getLsbD (k % half) = true := by
      intro k hk hk'
      refine getLsbD_folded (fun m hm => ?_) hover hk hk'
      rw [BitVec.getLsbD_xor, hlow m hm, BitVec.getLsbD_ushiftRight]
    have hi₁ := hkept i (by omega) hi'
    have hj₁ := hkept j (by omega) hj'
    have hilt : i % half < half := Nat.mod_lt _ (by omega)
    have hjlt : j % half < half := Nat.mod_lt _ (by omega)
    rcases Nat.lt_or_gt_of_ne (mod_ne_of_over hover hij (by omega) hi' hj') with hlt | hgt
    · exact hrest (ih (by omega) hlt hjlt hi₁ hj₁)
    · exact hrest (ih (by omega) hgt hilt hj₁ hi₁)

theorem hasMoreThanOneOne_one (i : Fin 64) : hasMoreThanOneOne 5 (1#64 <<< i.val) = false := by
  revert i
  decide

/-- `hasMoreThanOneOne` finds two bits. -/
theorem hasMoreThanOneOne_eq_false_iff : hasMoreThanOneOne 5 value = false ↔
    ∀ i j : Fin 64, value.getLsbD i = true → value.getLsbD j = true → i = j := by
  constructor
  · intro h i j hi hj
    by_contra hne
    have htrue : hasMoreThanOneOne 5 value = true := by
      rcases Nat.lt_or_gt_of_ne (Fin.val_ne_of_ne hne) with hlt | hgt
      · exact hasMoreThanOneOne_of_two 5 le_rfl hlt j.isLt hi hj
      · exact hasMoreThanOneOne_of_two 5 le_rfl hgt i.isLt hj hi
    rw [h] at htrue
    cases htrue
  · intro h
    rcases eq_or_ne value 0#64 with rfl | hne
    · decide
    · obtain ⟨i, hi⟩ : ∃ i : Fin 64, value.getLsbD i = true := by
        by_contra hnone
        refine hne (BitVec.eq_of_getLsbD_eq fun i hi => ?_)
        rw [BitVec.getLsbD_zero]
        exact Bool.eq_false_of_not_eq_true fun hset => hnone ⟨⟨i, hi⟩, hset⟩
      have hone : value = 1#64 <<< i.val := by
        refine BitVec.eq_of_getLsbD_eq fun j hj => ?_
        rw [← BitVec.twoPow_eq, BitVec.getLsbD_twoPow, decide_eq_true i.isLt, Bool.true_and]
        rcases eq_or_ne i ⟨j, hj⟩ with rfl | hij
        · simpa using hi
        · rw [decide_eq_false fun heq => hij (Fin.ext heq)]
          exact Bool.eq_false_of_not_eq_true fun hset => hij (h i ⟨j, hj⟩ hi hset)
      rw [hone]
      exact hasMoreThanOneOne_one i

end

end BitCounter

/-! ## Regions as cubes -/

/-- The address bits. -/
def coords (x : BitVec 64) : Fin 64 → Bool := fun i => x.getLsbD i

theorem coords_surjective : Function.Surjective coords := by
  intro p
  refine ⟨BitVec.ofNat 64 (Nat.ofBits p), ?_⟩
  funext i
  rw [coords, BitVec.getLsbD_ofNat, decide_eq_true i.isLt, Bool.true_and, Nat.testBit_ofBits_lt _ _ i.isLt]

namespace FullRegion

section
variable {r s t : FullRegion} {i : Fin 64}

/-- The known bits. -/
def cube (r : FullRegion) : Cube (Fin 64) := fun i =>
  if r.mask.getLsbD i then some (r.value.getLsbD i) else none

theorem getLsbD_mask_of_value (r : FullRegion) (h : r.value.getLsbD i = true) :
    r.mask.getLsbD i = true := by
  have hbit := congrArg (fun w : BitVec 64 => w.getLsbD i) r.known
  simpa [h] using hbit

theorem cube_eq_some_iff {b : Bool} :
    r.cube i = some b ↔ r.mask.getLsbD i = true ∧ r.value.getLsbD i = b := by
  simp [cube]

theorem cube_ne_none_iff : r.cube i ≠ none ↔ r.mask.getLsbD i = true := by
  simp [cube]

/-- A bit is the same in two regions if both words say so. -/
theorem cube_eq_iff : r.cube i = s.cube i ↔
    r.mask.getLsbD i = s.mask.getLsbD i ∧ r.value.getLsbD i = s.value.getLsbD i := by
  have hr := r.getLsbD_mask_of_value (i := i)
  have hs := s.getLsbD_mask_of_value (i := i)
  unfold cube
  cases hm : r.mask.getLsbD i <;> cases hm' : s.mask.getLsbD i <;> simp_all

theorem cube_injective : Function.Injective cube := by
  intro r s h
  have hmask : r.mask = s.mask := BitVec.eq_of_getLsbD_eq fun i hi =>
    (cube_eq_iff.1 (congrFun h ⟨i, hi⟩)).1
  have hvalue : r.value = s.value := BitVec.eq_of_getLsbD_eq fun i hi =>
    (cube_eq_iff.1 (congrFun h ⟨i, hi⟩)).2
  cases r
  cases s
  simp_all

/-- The addresses of a region are the points of its cube. -/
theorem contains_iff_mem {x : BitVec 64} : r.Contains x ↔ r.cube.Mem (coords x) := by
  constructor
  · intro h i b hb
    obtain ⟨hm, rfl⟩ := cube_eq_some_iff.1 hb
    have hbit := congrArg (fun w : BitVec 64 => w.getLsbD i) h
    rwa [BitVec.getLsbD_and, hm, Bool.and_true] at hbit
  · intro h
    refine BitVec.eq_of_getLsbD_eq fun i hi => ?_
    rw [BitVec.getLsbD_and]
    cases hm : r.mask.getLsbD i with
    | true =>
      rw [Bool.and_true]
      exact h ⟨i, hi⟩ _ (cube_eq_some_iff.2 ⟨hm, rfl⟩)
    | false =>
      rw [Bool.and_false]
      refine (Bool.eq_false_of_not_eq_true fun hv => ?_).symm
      have hknown := r.getLsbD_mask_of_value (i := ⟨i, hi⟩) hv
      rw [hm] at hknown
      cases hknown

theorem forall_address {P : (Fin 64 → Bool) → Prop} : (∀ x, P (coords x)) ↔ ∀ p, P p :=
  coords_surjective.forall.symm

theorem exists_address {P : (Fin 64 → Bool) → Prop} : (∃ x, P (coords x)) ↔ ∃ p, P p :=
  coords_surjective.exists.symm

theorem intersects_iff_cube : r.Intersects s ↔
    ∀ i : Fin 64, r.mask.getLsbD i = true → s.mask.getLsbD i = true →
      r.value.getLsbD i = s.value.getLsbD i := by
  have hmeets : r.Intersects s ↔ ∃ p, r.cube.Mem p ∧ s.cube.Mem p := by
    unfold Intersects
    simp only [contains_iff_mem]
    exact exists_address (P := fun p => r.cube.Mem p ∧ s.cube.Mem p)
  rw [hmeets, Cube.meets_iff]
  simp only [cube_eq_some_iff]
  constructor
  · intro h i hr hs
    exact h i _ _ ⟨hr, rfl⟩ ⟨hs, rfl⟩
  · rintro h i _ _ ⟨hr, rfl⟩ ⟨hs, rfl⟩
    exact h i hr hs

/-- A region lies in another one if it meets it and knows all the bits that the other knows. -/
theorem subset_iff : (∀ x, r.Contains x → s.Contains x) ↔
    r.Intersects s ∧ ∀ i : Fin 64, s.mask.getLsbD i = true → r.mask.getLsbD i = true := by
  have hcube : (∀ x, r.Contains x → s.Contains x) ↔
      ∀ i b, s.cube i = some b → r.cube i = some b := by
    simp only [contains_iff_mem]
    exact (forall_address (P := fun p => r.cube.Mem p → s.cube.Mem p)).trans Cube.subset_iff
  rw [hcube, intersects_iff_cube]
  simp only [cube_eq_some_iff]
  constructor
  · intro h
    refine ⟨fun i _ hs => ?_, fun i hs => ?_⟩
    · exact (h i _ ⟨hs, rfl⟩).2
    · exact (h i _ ⟨hs, rfl⟩).1
  · rintro ⟨h, hmask⟩ i _ ⟨hs, rfl⟩
    exact ⟨hmask i hs, h i (hmask i hs) hs⟩

theorem exists_contains (r : FullRegion) : ∃ x, r.Contains x := by
  simp only [contains_iff_mem]
  exact exists_address.2 ⟨_, r.cube.mem_point fun _ => false⟩

/-! ## Comparisons -/

/-- The words that the comparisons look at. -/
theorem and_and_eq_iff_intersects :
    r.value &&& r.mask &&& s.mask = s.value &&& r.mask &&& s.mask ↔ r.Intersects s := by
  rw [Region.and_and_eq_iff, intersects_iff]

/-- A bit that one word has and the other has not. -/
theorem not_and_eq_zero_iff {m n : BitVec 64} :
    ~~~m &&& n = 0#64 ↔ ∀ i : Fin 64, n.getLsbD i = true → m.getLsbD i = true := by
  constructor
  · intro h i hn
    have hbit := congrArg (fun w : BitVec 64 => w.getLsbD i) h
    rw [BitVec.getLsbD_and, BitVec.getLsbD_not, BitVec.getLsbD_zero, decide_eq_true i.isLt, hn] at hbit
    simpa using hbit
  · intro h
    refine BitVec.eq_of_getLsbD_eq fun i hi => ?_
    have hbit := h ⟨i, hi⟩
    rw [BitVec.getLsbD_and, BitVec.getLsbD_not, BitVec.getLsbD_zero, decide_eq_true hi, Bool.true_and]
    cases hm : m.getLsbD i <;> cases hn : n.getLsbD i <;> simp_all

theorem not_and_xor (m n : BitVec 64) : ~~~m &&& (m ^^^ n) = ~~~m &&& n := by
  refine BitVec.eq_of_getLsbD_eq fun i hi => ?_
  simp only [BitVec.getLsbD_and, BitVec.getLsbD_not, BitVec.getLsbD_xor, hi, decide_true, Bool.true_and]
  cases m.getLsbD i <;> simp

/-- What `compare` gives for regions that meet. -/
theorem compare_of_intersects (h : r.Intersects s) : r.toRegion.compare s.toRegion =
    (true, decide (~~~r.mask &&& s.mask ≠ 0#64), decide (~~~s.mask &&& r.mask ≠ 0#64)) := by
  have hones : ~~~((1#64 <<< ((-1 : Int) + 1).toNat) - 1#64) = BitVec.allOnes 64 := by decide
  have hwords := and_and_eq_iff_intersects.2 h
  have hself : ∀ m : BitVec 64, ~~~m &&& m = 0#64 := fun m => not_and_eq_zero_iff.2 fun _ hm => hm
  unfold Region.compare
  simp only [toRegion, Region.ofValueMask, hones, BitVec.and_allOnes, not_and_xor, hwords, if_true]
  rw [BitVec.xor_comm r.mask, not_and_xor]
  split
  · rfl
  · split
    · next heq => simp [heq, hself]
    · rfl

/-- What it gives for others. -/
theorem compare_of_not_intersects (h : ¬ r.Intersects s) :
    r.toRegion.compare s.toRegion = (false, false, false) := by
  have hones : ~~~((1#64 <<< ((-1 : Int) + 1).toNat) - 1#64) = BitVec.allOnes 64 := by decide
  have hwords := mt and_and_eq_iff_intersects.1 h
  have hcommon : r.mask &&& s.mask ≠ 0#64 := by
    intro hzero
    refine hwords ?_
    rw [BitVec.and_assoc, BitVec.and_assoc, hzero, BitVec.and_zero, BitVec.and_zero]
  unfold Region.compare
  simp only [toRegion, Region.ofValueMask, hones, BitVec.and_allOnes, hwords, hcommon, and_false, if_false]

/-- A region that meets another one leaves it where it leaves open a bit that the other knows. -/
theorem not_and_ne_zero_iff (h : r.Intersects s) :
    ~~~r.mask &&& s.mask ≠ 0#64 ↔ ∃ x, r.Contains x ∧ ¬ s.Contains x := by
  rw [Ne, not_and_eq_zero_iff, ← not_iff_not, not_not]
  push Not
  rw [subset_iff]
  exact ⟨fun hmask => ⟨h, hmask⟩, And.right⟩

theorem Intersects.symm (h : r.Intersects s) : s.Intersects r := by
  obtain ⟨x, hr, hs⟩ := h
  exact ⟨x, hs, hr⟩

/-- What the results of `compare` say about the sets of addresses. -/
theorem compare_iff (r s : FullRegion) :
    ((r.toRegion.compare s.toRegion).1 = true ↔ r.Intersects s) ∧
    ((r.toRegion.compare s.toRegion).2.1 = true ↔
      r.Intersects s ∧ ∃ x, r.Contains x ∧ ¬ s.Contains x) ∧
    ((r.toRegion.compare s.toRegion).2.2 = true ↔
      r.Intersects s ∧ ∃ x, s.Contains x ∧ ¬ r.Contains x) := by
  by_cases h : r.Intersects s
  · rw [compare_of_intersects h]
    simp only [decide_eq_true_iff, not_and_ne_zero_iff h, not_and_ne_zero_iff h.symm, h, true_and,
      and_self]
  · rw [compare_of_not_intersects h]
    simp [h]

/-! ## Intersection and union -/

/-- The region of what two regions have in common. -/
def intersection (r s : FullRegion) : FullRegion where
  mask := r.mask ||| s.mask
  value := (r.value ||| s.value) &&& (r.mask ||| s.mask)
  known := by simp [BitVec.and_assoc]

theorem contains_intersection (h : r.Intersects s) {x : BitVec 64} :
    (r.intersection s).Contains x ↔ r.Contains x ∧ s.Contains x := by
  simp only [contains_iff_mem]
  refine Cube.mem_inter_iff fun i b => ?_
  have hbit := intersects_iff_cube.1 h i
  have hr := r.getLsbD_mask_of_value (i := i)
  have hs := s.getLsbD_mask_of_value (i := i)
  simp only [cube_eq_some_iff, intersection, BitVec.getLsbD_and, BitVec.getLsbD_or]
  cases hm : r.mask.getLsbD i <;> cases hm' : s.mask.getLsbD i <;> simp_all

/-- The least region around two regions. -/
def hull (r s : FullRegion) : FullRegion where
  mask := r.mask &&& s.mask &&& ~~~(r.value ^^^ s.value)
  value := r.value &&& s.mask &&& ~~~(r.value ^^^ s.value)
  known := by
    refine BitVec.eq_of_getLsbD_eq fun i hi => ?_
    have hr := r.getLsbD_mask_of_value (i := ⟨i, hi⟩)
    simp only [BitVec.getLsbD_and, BitVec.getLsbD_not, hi, decide_true, Bool.true_and, BitVec.getLsbD_zero]
    cases hm : r.mask.getLsbD i <;> cases hv : r.value.getLsbD i <;> simp_all

/-- `operator|=` keeps the bits that are the same in both regions. -/
theorem cube_hull : (r.hull s).cube = Cube.hull r.cube s.cube := by
  funext i
  refine Option.ext fun b => ?_
  have hr := r.getLsbD_mask_of_value (i := i)
  have hs := s.getLsbD_mask_of_value (i := i)
  have hi := i.isLt
  rw [Cube.hull_eq_some_iff, cube_eq_some_iff, cube_eq_some_iff, cube_eq_some_iff]
  simp only [hull, BitVec.getLsbD_and, BitVec.getLsbD_not, BitVec.getLsbD_xor, hi, decide_true,
    Bool.true_and]
  cases hm : r.mask.getLsbD i <;> cases hm' : s.mask.getLsbD i <;> cases hv : r.value.getLsbD i <;>
    cases hv' : s.value.getLsbD i <;> simp_all

/-- The conditions under which `combine` returns true. -/
def Combinable (r s : FullRegion) : Prop :=
  (r.mask = r.mask ||| s.mask ∨ s.mask = r.mask ||| s.mask) ∧
  (r.mask = s.mask ∨ r.Intersects s) ∧
  ∀ i j : Fin 64, ((r.value ^^^ s.value) &&& (r.mask &&& s.mask)).getLsbD i = true →
    ((r.value ^^^ s.value) &&& (r.mask &&& s.mask)).getLsbD j = true → i = j

/-- The words of the result. -/
theorem combine_words (r s : FullRegion) :
    r.mask &&& s.mask &&& ~~~((r.value ^^^ s.value) &&& (r.mask &&& s.mask)) = (r.hull s).mask ∧
    r.value &&& (r.hull s).mask = (r.hull s).value := by
  have hbits : ∀ i < 64, r.value.getLsbD i = true → r.mask.getLsbD i = true := fun i hi =>
    r.getLsbD_mask_of_value (i := ⟨i, hi⟩)
  refine ⟨BitVec.eq_of_getLsbD_eq fun i hi => ?_, BitVec.eq_of_getLsbD_eq fun i hi => ?_⟩
  · simp only [hull, BitVec.getLsbD_and, BitVec.getLsbD_not, BitVec.getLsbD_xor, hi, decide_true,
      Bool.true_and]
    cases r.mask.getLsbD i <;> cases s.mask.getLsbD i <;> simp
  · have hr := hbits i hi
    simp only [hull, BitVec.getLsbD_and, BitVec.getLsbD_not, BitVec.getLsbD_xor, hi, decide_true,
      Bool.true_and]
    cases hv : r.value.getLsbD i <;> cases hm : r.mask.getLsbD i <;> cases s.mask.getLsbD i <;> simp_all

theorem combine_eq_some_iff {result : Region} : r.toRegion.combine s.toRegion = some result ↔
    r.Combinable s ∧ result = (r.hull s).toRegion := by
  obtain ⟨hmask, hvalue⟩ := combine_words r s
  unfold Region.combine Combinable
  rw [← BitCounter.hasMoreThanOneOne_eq_false_iff, ← and_and_eq_iff_intersects]
  simp only [toRegion, Region.ofValueMask, hmask, hvalue, ne_eq, not_true_eq_false, or_self, if_false]
  split
  · next h => simp [h]
  · next h =>
    split
    · next h' => simp [h']
    · next h' =>
      split
      · next hmore => simp [hmore]
      · next hmore =>
        have hnested := Decidable.not_and_iff_not_or_not.1 h
        have hvalues := Decidable.not_and_iff_not_or_not.1 h'
        rw [not_not, not_not] at hnested hvalues
        rw [Option.some.injEq]
        constructor
        · rintro rfl
          exact ⟨⟨hnested, hvalues, Bool.eq_false_of_not_eq_true hmore⟩, rfl⟩
        · rintro ⟨-, rfl⟩
          rfl

theorem eq_or_iff {m n : BitVec 64} :
    m = m ||| n ↔ ∀ i : Fin 64, n.getLsbD i = true → m.getLsbD i = true := by
  constructor
  · intro h i hn
    rw [h, BitVec.getLsbD_or, hn, Bool.or_true]
  · intro h
    refine BitVec.eq_of_getLsbD_eq fun i hi => ?_
    have hbit := h ⟨i, hi⟩
    rw [BitVec.getLsbD_or]
    cases hm : m.getLsbD i <;> cases hn : n.getLsbD i <;> simp_all

theorem eq_or_iff' {m n : BitVec 64} :
    n = m ||| n ↔ ∀ i : Fin 64, m.getLsbD i = true → n.getLsbD i = true := by
  rw [BitVec.or_comm, eq_or_iff]

/-- The conditions say that at most one bit separates the regions. -/
theorem combinable_iff : r.Combinable s ↔ Cube.Joins r.cube s.cube := by
  have hdiffer : ∀ i : Fin 64,
      ((r.value ^^^ s.value) &&& (r.mask &&& s.mask)).getLsbD i = true ↔
        r.mask.getLsbD i = true ∧ s.mask.getLsbD i = true ∧ r.cube i ≠ s.cube i := by
    intro i
    rw [Ne, cube_eq_iff]
    simp only [BitVec.getLsbD_and, BitVec.getLsbD_xor]
    cases r.mask.getLsbD i <;> cases s.mask.getLsbD i <;> simp
  -- A bit that only one of the regions knows.
  have hleft : ∀ i : Fin 64, r.mask.getLsbD i = true → ¬ s.mask.getLsbD i = true → r.cube i ≠ s.cube i :=
    fun i hr hs heq => hs ((cube_eq_iff.1 heq).1 ▸ hr)
  have hright : ∀ i : Fin 64, s.mask.getLsbD i = true → ¬ r.mask.getLsbD i = true → r.cube i ≠ s.cube i :=
    fun i hs hr heq => hr ((cube_eq_iff.1 heq).1 ▸ hs)
  unfold Combinable Cube.Joins
  simp only [hdiffer, cube_ne_none_iff, eq_or_iff, eq_or_iff']
  constructor
  · rintro ⟨hnested, hmeet, hone⟩ i j hi hne hj hne'
    rcases eq_or_ne r.mask s.mask with hmask | hmask
    · exact hone i j ⟨hi, hmask ▸ hi, hne⟩ ⟨hmask ▸ hj, hj, hne'⟩
    · -- The regions agree where both know a bit, so each knows a bit that the other leaves open.
      have hcommon := intersects_iff_cube.1 (hmeet.resolve_left hmask)
      have hopen : ∀ k : Fin 64, r.mask.getLsbD k = true → s.mask.getLsbD k = true → r.cube k = s.cube k :=
        fun k hr hs => cube_eq_iff.2 ⟨hr.trans hs.symm, hcommon k hr hs⟩
      rcases hnested with hnested | hnested
      · exact absurd (hopen j (hnested j hj) hj) hne'
      · exact absurd (hopen i hi (hnested i hi)) hne
  · intro h
    refine ⟨?_, ?_, fun i j hi hj => h i j hi.1 hi.2.2 hj.2.1 hj.2.2⟩
    · by_contra hnot
      push Not at hnot
      obtain ⟨⟨j, hsj, hrj⟩, i, hri, hsi⟩ := hnot
      obtain rfl := h i j hri (hleft i hri hsi) hsj (hright j hsj hrj)
      exact hsi hsj
    · refine or_iff_not_imp_left.2 fun hmask => intersects_iff_cube.2 fun i hr hs => ?_
      by_contra hvalue
      have hne : r.cube i ≠ s.cube i := fun heq => hvalue (cube_eq_iff.1 heq).2
      refine hmask (BitVec.eq_of_getLsbD_eq fun k hk => ?_)
      cases hrk : r.mask.getLsbD k <;> cases hsk : s.mask.getLsbD k
      · rfl
      · obtain rfl := h i ⟨k, hk⟩ hr hne hsk (hright ⟨k, hk⟩ hsk (by simp [hrk]))
        exact hrk.symm.trans hr
      · obtain rfl := h ⟨k, hk⟩ i hrk (hleft ⟨k, hk⟩ hrk (by simp [hsk])) hs hne
        exact hs.symm.trans hsk
      · rfl

/-- `combine` succeeds for two regions whose addresses are those of a region, and gives that region. -/
theorem combine_iff {result : Region} : r.toRegion.combine s.toRegion = some result ↔
    ∃ t : FullRegion, result = t.toRegion ∧ ∀ x, t.Contains x ↔ r.Contains x ∨ s.Contains x := by
  have hunion : ∀ t : FullRegion, (∀ x, t.Contains x ↔ r.Contains x ∨ s.Contains x) ↔
      t = r.hull s ∧ r.Combinable s := by
    intro t
    simp only [contains_iff_mem]
    rw [forall_address (P := fun p => t.cube.Mem p ↔ r.cube.Mem p ∨ s.cube.Mem p), Cube.union_iff,
      ← cube_hull, cube_injective.eq_iff, combinable_iff]
  rw [combine_eq_some_iff]
  constructor
  · rintro ⟨h, rfl⟩
    exact ⟨r.hull s, rfl, (hunion _).2 ⟨rfl, h⟩⟩
  · rintro ⟨t, rfl, h⟩
    obtain ⟨rfl, hc⟩ := (hunion t).1 h
    exact ⟨hc, rfl⟩

/-! ## The meaning of the operations -/

theorem compare_subset_iff :
    (r.toRegion.compare s.toRegion).1 = true ∧ (r.toRegion.compare s.toRegion).2.1 = false ↔
      ∀ x, r.Contains x → s.Contains x := by
  obtain ⟨hmatches, hthis, -⟩ := compare_iff r s
  rw [hmatches, ← Bool.not_eq_true, hthis]
  constructor
  · rintro ⟨h, hnone⟩ x hr
    by_contra hs
    exact hnone ⟨h, x, hr, hs⟩
  · intro h
    obtain ⟨x, hr⟩ := r.exists_contains
    refine ⟨⟨x, hr, h x hr⟩, ?_⟩
    rintro ⟨-, y, hy, hnot⟩
    exact hnot (h y hy)

theorem compare_superset_iff :
    (r.toRegion.compare s.toRegion).1 = true ∧ (r.toRegion.compare s.toRegion).2.2 = false ↔
      ∀ x, s.Contains x → r.Contains x := by
  obtain ⟨hmatches, -, hother⟩ := compare_iff r s
  rw [hmatches, ← Bool.not_eq_true, hother]
  constructor
  · rintro ⟨h, hnone⟩ x hs
    by_contra hr
    exact hnone ⟨h, x, hs, hr⟩
  · intro h
    obtain ⟨x, hs⟩ := s.exists_contains
    refine ⟨⟨x, h x hs, hs⟩, ?_⟩
    rintro ⟨-, y, hy, hnot⟩
    exact hnot (h y hy)

theorem contains_eq_true_iff : r.toRegion.contains s.toRegion = true ↔ ∀ x, s.Contains x → r.Contains x := by
  rw [Region.contains, Bool.and_eq_true, Bool.not_eq_true', compare_superset_iff]

/-- What the operations on two regions do with their sets of addresses. `compare` says whether the regions
meet, whether the first has an address that the other has not, and the other way round. -/
structure SetSemantics (r s : FullRegion) : Prop where
  matchesRegion : r.toRegion.matchesRegion s.toRegion = true ↔ ∃ x, r.Contains x ∧ s.Contains x
  contains : r.toRegion.contains s.toRegion = true ↔ ∀ x, s.Contains x → r.Contains x
  compare_meet : (r.toRegion.compare s.toRegion).1 = true ↔ ∃ x, r.Contains x ∧ s.Contains x
  compare_eq : r.toRegion.compare s.toRegion = (true, false, false) ↔ ∀ x, r.Contains x ↔ s.Contains x
  compare_subset : (r.toRegion.compare s.toRegion).1 = true ∧ (r.toRegion.compare s.toRegion).2.1 = false ↔
    ∀ x, r.Contains x → s.Contains x
  compare_superset :
    (r.toRegion.compare s.toRegion).1 = true ∧ (r.toRegion.compare s.toRegion).2.2 = false ↔
      ∀ x, s.Contains x → r.Contains x
  compare_apart : (r.toRegion.compare s.toRegion).1 = false →
    r.toRegion.compare s.toRegion = (false, false, false)
  intersect : (∃ x, r.Contains x ∧ s.Contains x) → ∃ t : FullRegion,
    r.toRegion.intersect s.toRegion = t.toRegion ∧ ∀ x, t.Contains x ↔ r.Contains x ∧ s.Contains x
  combine : ∀ result, r.toRegion.combine s.toRegion = some result ↔ ∃ t : FullRegion,
    result = t.toRegion ∧ ∀ x, t.Contains x ↔ r.Contains x ∨ s.Contains x

/-- The operations of regions are those of their sets of addresses. -/
theorem setSemantics (r s : FullRegion) : SetSemantics r s where
  matchesRegion := matchesRegion_iff
  contains := contains_eq_true_iff
  compare_meet := (compare_iff r s).1
  compare_eq := by
    have hsplit : r.toRegion.compare s.toRegion = (true, false, false) ↔
        ((r.toRegion.compare s.toRegion).1 = true ∧ (r.toRegion.compare s.toRegion).2.1 = false) ∧
        ((r.toRegion.compare s.toRegion).1 = true ∧ (r.toRegion.compare s.toRegion).2.2 = false) := by
      rw [Prod.ext_iff, Prod.ext_iff]
      exact ⟨fun ⟨h, h₁, h₂⟩ => ⟨⟨h, h₁⟩, h, h₂⟩, fun ⟨⟨h, h₁⟩, _, h₂⟩ => ⟨h, h₁, h₂⟩⟩
    rw [hsplit, compare_subset_iff, compare_superset_iff]
    exact ⟨fun h x => ⟨h.1 x, h.2 x⟩, fun h => ⟨fun x => (h x).1, fun x => (h x).2⟩⟩
  compare_subset := compare_subset_iff
  compare_superset := compare_superset_iff
  compare_apart h := compare_of_not_intersects fun hmeet => by
    rw [(compare_iff r s).1.2 hmeet] at h
    cases h
  intersect h := ⟨r.intersection s, rfl, fun _ => contains_intersection h⟩
  combine _ := combine_iff

end

end FullRegion

end OmpSs.Support
