import OmpSs.Lib.Strides
import OmpSs.Support.RegionSets

/-!
# The region of an access

`RegionsDependenciesDomain` (`nanox-mx/src/plugins/deps/regions_deps.cpp:75`) asks `RegionBuilder::build` for
a region for each dimension of an access and puts these together with `operator|=`. A dimension leaves open
the bits below the highest one that its steps reach, except those that `lowMask` keeps for its base.

`lowMask` is right for a base that is a power of two. For other bases the steps change bits that it keeps,
and the region covers the access only if other dimensions leave these bits open or the steps happen not to
change them (`covered_iff`).
-/

namespace OmpSs.Support

open Lib

/-! ## The program -/

/-- Source: `nanos_region_dimension_internal_t` (`nanos-int.h:54`), without the lower bound, which is part of
the offset of the access. -/
structure Dimension where
  size : BitVec 64
  accessed_length : BitVec 64
deriving DecidableEq

/-- Source: `nanos_data_access_internal_t` (`nanos-int.h:86`): the base address, the offset of the first
element, and the dimensions, of which the first is the contiguous one. -/
structure DataAccess where
  address : BitVec 64
  offset : BitVec 64
  contiguous : Dimension
  further : List Dimension

namespace RegionBuilder

/-- The loop over `maskLowest1`. -/
def lowest1 (lowMask : BitVec 64) : Nat → Nat → Nat
  | 0, maskLowest1 => maskLowest1
  | fuel + 1, maskLowest1 =>
    if lowMask &&& (1#64 <<< maskLowest1) ≠ 0#64 then maskLowest1
    else lowest1 lowMask fuel (maskLowest1 + 1)

/-- The bits that a dimension may leave open for its base. -/
def lowMask (base : BitVec 64) : BitVec 64 :=
  if base ≠ 1#64 then
    let lowMask := base - 1#64
    ~~~(lowMask ||| ((1#64 <<< lowest1 lowMask 64 0) - 1#64))
  else ~~~0#64

/-- The loop over `bit`, from the top. -/
def highLoop (address lastAddress : BitVec 64) : Nat → BitVec 64 → BitVec 64
  | 0, highMask => highMask
  | bit + 1, highMask =>
    let bitSelector := 1#64 <<< bit
    if address &&& bitSelector = lastAddress &&& bitSelector then
      highLoop address lastAddress bit (highMask ||| bitSelector)
    else highMask

/-- The bits that a dimension keeps. -/
def dimensionMask (address base lastAddress : BitVec 64) : BitVec 64 :=
  ~~~(lowMask base &&& ~~~highLoop address lastAddress 64 0#64)

/-- Source: `RegionBuilder::build` (`regionbuilder.cpp:31`). The second component is
`additionalContribution`. -/
def build (address base length additionalContribution : BitVec 64) : Region × BitVec 64 :=
  let lastAddress := address + (length - 1#64) * base + additionalContribution
  let mask := dimensionMask address base lastAddress
  (.ofValueMask (address &&& mask) mask, additionalContribution + (length - 1#64) * base)

end RegionBuilder

open RegionBuilder

namespace DataAccess

/-- Source: `getDepAddress` (`dataaccess.hpp:79`). -/
def getDepAddress (a : DataAccess) : BitVec 64 := a.address + a.offset

/-- The loop over the further dimensions (`regions_deps.cpp:92`). -/
def addDimensions (address : BitVec 64) : BitVec 64 → BitVec 64 → Region → List Dimension → Region
  | _, _, region, [] => region
  | base, additionalContribution, region, dimensionData :: rest =>
    let (other, additionalContribution) :=
      build address base dimensionData.accessed_length additionalContribution
    addDimensions address (base * dimensionData.size) additionalContribution (region.orAssign other) rest

/-- The region of an access. Source: `submitDependableObjectInternal` (`regions_deps.cpp:82`). -/
def region (a : DataAccess) : Region :=
  let (region, additionalContribution) :=
    build a.getDepAddress 1#64 a.contiguous.accessed_length 0#64
  addDimensions a.getDepAddress (1#64 * a.contiguous.size) additionalContribution region a.further

end DataAccess

/-! ## The bits of one dimension -/

namespace RegionBuilder

/-- A bit that `lowMask` keeps: it is set in `base - 1`, or lies below the lowest bit that is. -/
def Kept (base i : Nat) : Prop := base ≠ 1 ∧ ((base - 1).testBit i = true ∨ (base - 1) % 2 ^ (i + 1) = 0)

instance (base i : Nat) : Decidable (Kept base i) := inferInstanceAs (Decidable (_ ∧ _))

section
variable {w address lastAddress highMask : BitVec 64} {i n k : Nat}

theorem getLsbD_one_shiftLeft_sub_one (hk : k ≤ 64) (hi : i < 64) :
    ((1#64 <<< k) - 1#64).getLsbD i = decide (i < k) := by
  have hpos : 0 < 2 ^ k := Nat.two_pow_pos k
  have hnum : (1#64 <<< k) - 1#64 = BitVec.ofNat 64 (2 ^ k - 1) := by
    refine BitVec.eq_of_toNat_eq ?_
    rw [BitVec.toNat_sub, BitVec.toNat_shiftLeft, BitVec.toNat_ofNat, BitVec.toNat_ofNat, Nat.shiftLeft_eq]
    rcases Nat.lt_or_eq_of_le hk with hlt | rfl
    · have : 2 ^ k < 2 ^ 64 := Nat.pow_lt_pow_right (by omega) hlt
      omega
    · rfl
  rw [hnum, BitVec.getLsbD_ofNat, Nat.testBit_two_pow_sub_one, decide_eq_true hi, Bool.true_and]

theorem and_one_shiftLeft_ne_zero_iff (hk : k < 64) : w &&& (1#64 <<< k) ≠ 0#64 ↔ w.getLsbD k = true := by
  have hbit := Region.and_one_shiftLeft_ne_zero w (i := 63 - k) (by omega)
  rwa [show 63 - (63 - k) = k by omega, BitVec.getMsbD_eq_getLsbD, decide_eq_true (by omega), Bool.true_and,
    show 64 - 1 - (63 - k) = k by omega] at hbit

theorem and_one_shiftLeft_eq_iff (hk : k < 64) : address &&& (1#64 <<< k) = lastAddress &&& (1#64 <<< k) ↔
    address.getLsbD k = lastAddress.getLsbD k := by
  have hbit := Region.and_one_shiftLeft_eq_iff address lastAddress (i := 63 - k) (by omega)
  rwa [show 63 - (63 - k) = k by omega, BitVec.getMsbD_eq_getLsbD, BitVec.getMsbD_eq_getLsbD,
    decide_eq_true (by omega), Bool.true_and, Bool.true_and, show 64 - 1 - (63 - k) = k by omega] at hbit

/-- The loop stops at the lowest bit that is set. -/
theorem lt_lowest1_iff (hn : n + k = 64) (hi : i < 64) :
    i < lowest1 w n k ↔ ∀ j, k ≤ j → j ≤ i → w.getLsbD j = false := by
  induction n generalizing k with
  | zero =>
    rw [lowest1]
    constructor
    · intro _ j hj hji
      omega
    · intro _
      omega
  | succ n ih =>
    rw [lowest1]
    split
    · next hset =>
      rw [and_one_shiftLeft_ne_zero_iff (by omega)] at hset
      constructor
      · intro hlt j hj hji
        omega
      · intro hall
        by_contra hge
        rw [hall k le_rfl (by omega)] at hset
        cases hset
    · next hset =>
      rw [and_one_shiftLeft_ne_zero_iff (by omega), Bool.not_eq_true] at hset
      rw [ih (by omega)]
      constructor
      · intro hall j hj hji
        rcases Nat.lt_or_eq_of_le hj with hj | rfl
        · exact hall j hj hji
        · exact hset
      · intro hall j hj hji
        exact hall j (by omega) hji

theorem lowest1_le (hn : n + k = 64) : lowest1 w n k ≤ 64 := by
  induction n generalizing k with
  | zero =>
    rw [lowest1]
    omega
  | succ n ih =>
    rw [lowest1]
    split
    · omega
    · exact ih (by omega)

theorem mod_two_pow_succ_eq_zero_iff {m : Nat} :
    m % 2 ^ (i + 1) = 0 ↔ ∀ j ≤ i, m.testBit j = false := by
  constructor
  · intro h j hj
    have hbit := congrArg (fun m : Nat => m.testBit j) h
    rw [Nat.testBit_mod_two_pow, decide_eq_true (by omega), Bool.true_and, Nat.zero_testBit] at hbit
    exact hbit
  · intro h
    refine Nat.eq_of_testBit_eq fun j => ?_
    rw [Nat.testBit_mod_two_pow, Nat.zero_testBit]
    rcases Nat.lt_or_ge j (i + 1) with hj | hj
    · rw [h j (by omega), Bool.and_false]
    · rw [decide_eq_false (by omega), Bool.false_and]

/-- What `lowMask` leaves open. -/
theorem getLsbD_lowMask {base : Nat} (hpos : 0 < base) (hbase : base < 2 ^ 64) (hi : i < 64) :
    (lowMask (BitVec.ofNat 64 base)).getLsbD i = decide (¬ Kept base i) := by
  have hsub : BitVec.ofNat 64 base - 1#64 = BitVec.ofNat 64 (base - 1) := by
    refine BitVec.eq_of_toNat_eq ?_
    rw [BitVec.toNat_sub, BitVec.toNat_ofNat, BitVec.toNat_ofNat, BitVec.toNat_ofNat]
    omega
  have hone : BitVec.ofNat 64 base = 1#64 ↔ base = 1 := by
    constructor
    · intro h
      have := congrArg BitVec.toNat h
      rw [BitVec.toNat_ofNat, Nat.mod_eq_of_lt hbase] at this
      exact this
    · rintro rfl
      rfl
  have hbit : ∀ j < 64, (BitVec.ofNat 64 (base - 1)).getLsbD j = (base - 1).testBit j := by
    intro j hj
    rw [BitVec.getLsbD_ofNat, decide_eq_true hj, Bool.true_and]
  unfold lowMask Kept
  rw [hsub]
  split
  · next hne =>
    have hbelow : i < lowest1 (BitVec.ofNat 64 (base - 1)) 64 0 ↔ (base - 1) % 2 ^ (i + 1) = 0 := by
      rw [lt_lowest1_iff rfl hi, mod_two_pow_succ_eq_zero_iff]
      constructor
      · intro h j hj
        rw [← hbit j (by omega)]
        exact h j (Nat.zero_le _) hj
      · intro h j _ hj
        rw [hbit j (by omega)]
        exact h j hj
    rw [BitVec.getLsbD_not, BitVec.getLsbD_or, getLsbD_one_shiftLeft_sub_one (lowest1_le rfl) hi, hbit i hi,
      decide_eq_true hi, Bool.true_and]
    simp only [hbelow, mt hone.2 hne, ne_eq, not_false_eq_true, true_and]
    cases (base - 1).testBit i <;> simp
  · next heq =>
    rw [BitVec.getLsbD_not, BitVec.getLsbD_zero, decide_eq_true hi, hone.1 (not_not.1 heq)]
    simp

/-- Both addresses agree in the bits from `i` on, below `n`. -/
theorem getLsbD_highLoop (hn : n ≤ 64) (hi : i < 64) :
    (highLoop address lastAddress n highMask).getLsbD i = true ↔ highMask.getLsbD i = true ∨
      (i < n ∧ ∀ j, i ≤ j → j < n → address.getLsbD j = lastAddress.getLsbD j) := by
  induction n generalizing highMask with
  | zero => simp [highLoop]
  | succ n ih =>
    rw [highLoop]
    simp only [and_one_shiftLeft_eq_iff (show n < 64 by omega)]
    split
    · next hsame =>
      have hset : (highMask ||| 1#64 <<< n).getLsbD i = true ↔ highMask.getLsbD i = true ∨ i = n := by
        rw [BitVec.getLsbD_or, Bool.or_eq_true, ← BitVec.twoPow_eq, BitVec.getLsbD_twoPow]
        simp only [Bool.and_eq_true, decide_eq_true_iff]
        constructor
        · exact Or.imp_right fun h => h.2.symm
        · exact Or.imp_right fun h => ⟨by omega, h.symm⟩
      rw [ih (by omega), hset, or_assoc]
      refine or_congr_right ?_
      constructor
      · rintro (rfl | ⟨hlt, hall⟩)
        · refine ⟨by omega, fun j hj hj' => ?_⟩
          obtain rfl : j = i := by omega
          exact hsame
        · refine ⟨by omega, fun j hj hj' => ?_⟩
          rcases Nat.lt_or_eq_of_le (Nat.le_of_lt_succ hj') with hj' | rfl
          · exact hall j hj hj'
          · exact hsame
      · rintro ⟨hlt, hall⟩
        rcases Nat.lt_or_eq_of_le (Nat.le_of_lt_succ hlt) with hlt | rfl
        · exact .inr ⟨hlt, fun j hj hj' => hall j hj (by omega)⟩
        · exact .inl rfl
    · next hdiffer =>
      constructor
      · exact Or.inl
      · rintro (h | ⟨hlt, hall⟩)
        · exact h
        · exact absurd (hall n (by omega) (by omega)) hdiffer

theorem div_two_pow_eq_iff : address.toNat / 2 ^ i = lastAddress.toNat / 2 ^ i ↔
    ∀ j, i ≤ j → j < 64 → address.getLsbD j = lastAddress.getLsbD j := by
  simp only [BitVec.getLsbD]
  constructor
  · intro h j hj _
    have hbit := congrArg (fun m : Nat => m.testBit (j - i)) h
    rwa [Nat.testBit_div_two_pow, Nat.testBit_div_two_pow, Nat.sub_add_cancel hj] at hbit
  · intro h
    refine Nat.eq_of_testBit_eq fun j => ?_
    rw [Nat.testBit_div_two_pow, Nat.testBit_div_two_pow]
    rcases Nat.lt_or_ge (j + i) 64 with hlt | hge
    · exact h (j + i) (by omega) hlt
    · rw [BitVec.testBit_toNat, BitVec.testBit_toNat, BitVec.getLsbD_of_ge _ _ hge,
        BitVec.getLsbD_of_ge _ _ hge]

/-- A dimension leaves open the bits up to the highest one in which its last address differs, but for those
that are kept for its base. -/
theorem getLsbD_dimensionMask {base : Nat} (hpos : 0 < base) (hbase : base < 2 ^ 64) (hi : i < 64) :
    (dimensionMask address (BitVec.ofNat 64 base) lastAddress).getLsbD i = false ↔
      address.toNat / 2 ^ i ≠ lastAddress.toNat / 2 ^ i ∧ ¬ Kept base i := by
  have hhigh : (highLoop address lastAddress 64 0#64).getLsbD i = true ↔
      address.toNat / 2 ^ i = lastAddress.toNat / 2 ^ i := by
    rw [getLsbD_highLoop le_rfl hi, div_two_pow_eq_iff, BitVec.getLsbD_zero]
    simp [hi]
  unfold dimensionMask
  rw [BitVec.getLsbD_not, BitVec.getLsbD_and, BitVec.getLsbD_not, getLsbD_lowMask hpos hbase hi,
    decide_eq_true hi, Bool.true_and, Bool.true_and, Bool.not_eq_false', Bool.and_eq_true,
    decide_eq_true_iff, Bool.not_eq_true', ← Bool.not_eq_true, hhigh, and_comm]

end

/-! ## The bits of an access -/

/-- What the access does in one dimension after another: the stride in bytes, and how many steps. -/
def progressions : Nat → List Dimension → List Progression
  | _, [] => []
  | base, d :: ds => ⟨base, d.accessed_length.toNat⟩ :: progressions (base * d.size.toNat) ds

/-- Some dimension leaves bit `i` open: the last address up to that dimension differs from `address` at the
bit or above, and the bit is not kept for the stride. -/
def Opened (address i : Nat) : Nat → List Progression → Prop
  | _, [] => False
  | reached, p :: ps =>
    (address / 2 ^ i ≠ (address + (reached + (p.count - 1) * p.step)) / 2 ^ i ∧ ¬ Kept p.step i) ∨
      Opened address i (reached + (p.count - 1) * p.step) ps

instance decidableOpened (address i : Nat) : ∀ reached ps, Decidable (Opened address i reached ps)
  | _, [] => inferInstanceAs (Decidable False)
  | reached, p :: ps =>
    haveI := decidableOpened address i (reached + (p.count - 1) * p.step) ps
    inferInstanceAs (Decidable (_ ∨ _))

/-- No step changes bit `i`: below it there is room for what the strides that have the bit take, and for what
the others add. -/
def Unchanged (address i : Nat) (ps : List Progression) : Prop :=
  Progression.fall i ps ≤ address % 2 ^ i ∧ address % 2 ^ i + Progression.rise i ps < 2 ^ i

instance (address i : Nat) (ps : List Progression) : Decidable (Unchanged address i ps) :=
  inferInstanceAs (Decidable (_ ∧ _))

/-- The region that keeps the bits of `mask` as they are in the address. -/
def keeping (address mask : BitVec 64) : FullRegion where
  mask := mask
  value := address &&& mask
  known := by simp [BitVec.and_assoc]

section
variable {address mask mask' x : BitVec 64} {i : Nat}

theorem contains_keeping :
    (keeping address mask).Contains x ↔
      ∀ i < 64, mask.getLsbD i = true → x.getLsbD i = address.getLsbD i := by
  constructor
  · intro h i _ hm
    have hbit := congrArg (fun w : BitVec 64 => w.getLsbD i) h
    simpa [keeping, hm] using hbit
  · intro h
    refine BitVec.eq_of_getLsbD_eq fun i hi => ?_
    have hbit := h i hi
    simp only [keeping, BitVec.getLsbD_and]
    cases hm : mask.getLsbD i <;> simp_all

/-- `operator|=` on regions that keep bits of one address. -/
theorem orAssign_keeping : (keeping address mask).toRegion.orAssign (keeping address mask').toRegion =
    (keeping address (mask &&& mask')).toRegion := by
  have hmask : mask &&& mask' &&& ~~~((address &&& mask) ^^^ (address &&& mask')) = mask &&& mask' := by
    refine BitVec.eq_of_getLsbD_eq fun i hi => ?_
    simp only [BitVec.getLsbD_and, BitVec.getLsbD_not, BitVec.getLsbD_xor, hi, decide_true, Bool.true_and]
    cases mask.getLsbD i <;> cases mask'.getLsbD i <;> simp
  have hvalue : address &&& mask &&& mask' &&& ~~~((address &&& mask) ^^^ (address &&& mask')) =
      address &&& (mask &&& mask') := by
    rw [BitVec.and_assoc address, BitVec.and_assoc address, hmask]
  simp only [Region.orAssign, FullRegion.toRegion, keeping, Region.ofValueMask, hmask, hvalue]

/-- The region of an access keeps bits of its first address. -/
theorem addDimensions_keeping (address mask base additionalContribution : BitVec 64) (ds : List Dimension) :
    ∃ mask', DataAccess.addDimensions address base additionalContribution (keeping address mask).toRegion ds =
      (keeping address mask').toRegion := by
  induction ds generalizing mask base additionalContribution with
  | nil => exact ⟨mask, rfl⟩
  | cons d ds ih =>
    obtain ⟨mask', hmask'⟩ := ih (mask &&& dimensionMask address base
      (address + (d.accessed_length - 1#64) * base + additionalContribution)) (base * d.size)
      (additionalContribution + (d.accessed_length - 1#64) * base)
    rw [← orAssign_keeping] at hmask'
    exact ⟨mask', hmask'⟩

theorem reached_eq {length : BitVec 64} {base reached : Nat} (hlength : 0 < length.toNat) :
    BitVec.ofNat 64 reached + (length - 1#64) * BitVec.ofNat 64 base =
      BitVec.ofNat 64 (reached + (length.toNat - 1) * base) := by
  have hsub : length - 1#64 = BitVec.ofNat 64 (length.toNat - 1) := by
    refine BitVec.eq_of_toNat_eq ?_
    rw [BitVec.toNat_sub, BitVec.toNat_ofNat, BitVec.toNat_ofNat]
    omega
  rw [hsub, BitVec.ofNat_add, BitVec.ofNat_mul]

/-- The last address up to a dimension, without overflow. -/
theorem lastAddress_toNat {length : BitVec 64} {base reached : Nat} (hlength : 0 < length.toNat)
    (hlast : address.toNat + (reached + (length.toNat - 1) * base) < 2 ^ 64) :
    (address + (length - 1#64) * BitVec.ofNat 64 base + BitVec.ofNat 64 reached).toNat =
      address.toNat + (reached + (length.toNat - 1) * base) := by
  rw [BitVec.add_assoc, BitVec.add_comm (_ * _), reached_eq hlength, BitVec.toNat_add, BitVec.toNat_ofNat,
    Nat.add_mod_mod, Nat.mod_eq_of_lt hlast]

/-- The bits that the loop over the further dimensions keeps. -/
theorem addDimensions_spec (mask : BitVec 64) {base reached : Nat} {ds : List Dimension}
    (hlengths : ∀ p ∈ progressions base ds, 0 < p.count)
    (hbases : ∀ p ∈ progressions base ds, 0 < p.step ∧ p.step < 2 ^ 64)
    (hlast : address.toNat + (reached + Progression.last (progressions base ds)) < 2 ^ 64) :
    ∃ mask', DataAccess.addDimensions address (BitVec.ofNat 64 base) (BitVec.ofNat 64 reached)
        (keeping address mask).toRegion ds = (keeping address mask').toRegion ∧
      ∀ i < 64, mask'.getLsbD i = false ↔
        mask.getLsbD i = false ∨ Opened address.toNat i reached (progressions base ds) := by
  induction ds generalizing mask base reached with
  | nil => exact ⟨mask, rfl, fun i _ => by simp [progressions, Opened]⟩
  | cons d ds ih =>
    rw [progressions, List.forall_mem_cons] at hlengths hbases
    rw [progressions, Progression.last_cons] at hlast
    obtain ⟨hlength, hlengths⟩ := hlengths
    obtain ⟨⟨hpos, hbase⟩, hbases⟩ := hbases
    dsimp only at hlength hpos hbase hlast
    have hrest : address.toNat + (reached + (d.accessed_length.toNat - 1) * base +
        Progression.last (progressions (base * d.size.toNat) ds)) < 2 ^ 64 := by omega
    obtain ⟨mask', hrun, hbits⟩ := ih (mask &&& dimensionMask address (BitVec.ofNat 64 base)
      (address + (d.accessed_length - 1#64) * BitVec.ofNat 64 base + BitVec.ofNat 64 reached))
      hlengths hbases hrest
    refine ⟨mask', ?_, fun i hi => ?_⟩
    · rw [← orAssign_keeping, ← reached_eq hlength, BitVec.ofNat_mul, BitVec.ofNat_toNat,
        BitVec.setWidth_eq] at hrun
      exact hrun
    · have hdim : (dimensionMask address (BitVec.ofNat 64 base) (address +
          (d.accessed_length - 1#64) * BitVec.ofNat 64 base + BitVec.ofNat 64 reached)).getLsbD i = false ↔
          _ := getLsbD_dimensionMask hpos hbase hi
      rw [lastAddress_toNat hlength (by omega)] at hdim
      rw [hbits i hi, BitVec.getLsbD_and, Bool.and_eq_false_iff, hdim, or_assoc]
      rfl

end

end RegionBuilder

namespace DataAccess

def dimensions (a : DataAccess) : List Dimension := a.contiguous :: a.further

/-- The strides of the dimensions, in bytes, with the accessed lengths. -/
def progressions (a : DataAccess) : List Progression := RegionBuilder.progressions 1 a.dimensions

/-- The bytes of an access: from the first one, some steps in each dimension. -/
def Touches (a : DataAccess) (x : BitVec 64) : Prop :=
  ∃ s, Progression.Sum a.progressions s ∧ x = BitVec.ofNat 64 (a.getDepAddress.toNat + s)

/-- Nothing overflows, and no dimension is empty. -/
structure Fits (a : DataAccess) : Prop where
  sizes : ∀ d ∈ a.dimensions, 0 < d.size.toNat
  strides : ∀ p ∈ a.progressions, p.step < 2 ^ 64
  last : a.getDepAddress.toNat + Progression.last a.progressions < 2 ^ 64

/-- The region has every byte of the access. -/
def Covered (a : DataAccess) : Prop :=
  ∃ r : FullRegion, a.region = r.toRegion ∧ ∀ x, a.Touches x → r.Contains x

section
variable {a : DataAccess}

theorem progressions_pos {base : Nat} {ds : List Dimension} (hbase : 0 < base)
    (hsizes : ∀ d ∈ ds, 0 < d.size.toNat) : ∀ p ∈ RegionBuilder.progressions base ds, 0 < p.step := by
  induction ds generalizing base with
  | nil => simp [RegionBuilder.progressions]
  | cons d ds ih =>
    obtain ⟨hd, hds⟩ := List.forall_mem_cons.1 hsizes
    exact List.forall_mem_cons.2 ⟨hbase, ih (Nat.mul_pos hbase hd) hds⟩

theorem exists_count_zero_iff {base : Nat} {ds : List Dimension} :
    (∃ p ∈ RegionBuilder.progressions base ds, p.count = 0) ↔ ∃ d ∈ ds, d.accessed_length = 0#64 := by
  induction ds generalizing base with
  | nil => simp [RegionBuilder.progressions]
  | cons d ds ih =>
    have hzero : d.accessed_length.toNat = 0 ↔ d.accessed_length = 0#64 :=
      ⟨fun h => BitVec.eq_of_toNat_eq h, fun h => by rw [h]; rfl⟩
    rw [RegionBuilder.progressions, List.exists_mem_cons_iff, List.exists_mem_cons_iff, ih, hzero]

/-- An access of length 0 in some dimension has no bytes. -/
theorem not_sum_of_count_zero {ps : List Progression} {s : Nat} (h : ∃ p ∈ ps, p.count = 0) :
    ¬ Progression.Sum ps s := by
  induction ps generalizing s with
  | nil => simp at h
  | cons p ps ih =>
    rintro ⟨k, hk, s', hs', -⟩
    rcases (List.exists_mem_cons_iff ..).1 h with hp | hps
    · omega
    · exact ih hps hs'

/-- The first dimension is like the others. -/
theorem region_eq (a : DataAccess) : a.region = addDimensions a.getDepAddress (BitVec.ofNat 64 1)
    (BitVec.ofNat 64 0) (keeping a.getDepAddress (BitVec.allOnes 64)).toRegion a.dimensions := by
  have hfirst : ∀ mask, (keeping a.getDepAddress (BitVec.allOnes 64)).toRegion.orAssign
      (keeping a.getDepAddress mask).toRegion = (keeping a.getDepAddress mask).toRegion := by
    intro mask
    rw [orAssign_keeping, BitVec.allOnes_and]
  rw [dimensions, addDimensions]
  exact congrArg (fun r => addDimensions a.getDepAddress (1#64 * a.contiguous.size)
    (0#64 + (a.contiguous.accessed_length - 1#64) * 1#64) r a.further) (hfirst _).symm

/-- The region keeps bits of the first address. -/
theorem region_keeping (a : DataAccess) :
    ∃ mask, a.region = (keeping a.getDepAddress mask).toRegion := by
  obtain ⟨mask, hmask⟩ := addDimensions_keeping a.getDepAddress (BitVec.allOnes 64) (BitVec.ofNat 64 1)
    (BitVec.ofNat 64 0) a.dimensions
  exact ⟨mask, (region_eq a).trans hmask⟩

/-- Which bits it keeps. -/
theorem region_spec (h : a.Fits) (hlengths : ∀ p ∈ a.progressions, 0 < p.count) :
    ∃ mask, a.region = (keeping a.getDepAddress mask).toRegion ∧
      ∀ i < 64, mask.getLsbD i = false ↔ Opened a.getDepAddress.toNat i 0 a.progressions := by
  have hstrides : ∀ p ∈ a.progressions, 0 < p.step ∧ p.step < 2 ^ 64 := fun p hp =>
    ⟨progressions_pos Nat.one_pos h.sizes p hp, h.strides p hp⟩
  have hlast := h.last
  rw [← Nat.zero_add (Progression.last a.progressions)] at hlast
  obtain ⟨mask, hrun, hbits⟩ := addDimensions_spec (BitVec.allOnes 64) hlengths hstrides hlast
  refine ⟨mask, (region_eq a).trans hrun, fun i hi => ?_⟩
  rw [hbits i hi, BitVec.getLsbD_allOnes, decide_eq_true hi]
  exact or_iff_right (by simp)

/-- The bytes of an access as numbers. -/
theorem touched_toNat (h : a.Fits) {s : Nat} (hs : Progression.Sum a.progressions s) :
    (BitVec.ofNat 64 (a.getDepAddress.toNat + s)).toNat = a.getDepAddress.toNat + s := by
  have hle := hs.le_last
  have hlast := h.last
  rw [BitVec.toNat_ofNat, Nat.mod_eq_of_lt (by omega)]

/-- The region covers the access if no byte differs from the first one in a bit that is kept. -/
theorem contains_touched_iff (h : a.Fits) {mask : BitVec 64} :
    (∀ x, a.Touches x → (keeping a.getDepAddress mask).Contains x) ↔
      ∀ i < 64, mask.getLsbD i = true → ∀ s, Progression.Sum a.progressions s →
        (a.getDepAddress.toNat + s).testBit i = a.getDepAddress.toNat.testBit i := by
  have hbit : ∀ s, Progression.Sum a.progressions s → ∀ i,
      (BitVec.ofNat 64 (a.getDepAddress.toNat + s)).getLsbD i = (a.getDepAddress.toNat + s).testBit i := by
    intro s hs i
    rw [← BitVec.testBit_toNat, touched_toNat h hs]
  constructor
  · intro hall i hi hm s hs
    have hsame := contains_keeping.1 (hall _ ⟨s, hs, rfl⟩) i hi hm
    rwa [hbit s hs, ← BitVec.testBit_toNat] at hsame
  · rintro hall x ⟨s, hs, rfl⟩
    refine contains_keeping.2 fun i hi hm => ?_
    rw [hbit s hs, ← BitVec.testBit_toNat]
    exact hall i hi hm s hs

/-- Every bit is open for some dimension or not changed by any step. -/
def EveryBit (a : DataAccess) : Prop :=
  ∀ i < 64, Opened a.getDepAddress.toNat i 0 a.progressions ∨ Unchanged a.getDepAddress.toNat i a.progressions

theorem covered_iff_everyBit (h : a.Fits) :
    a.Covered ↔ (∃ d ∈ a.dimensions, d.accessed_length = 0#64) ∨ a.EveryBit := by
  by_cases hzero : ∃ d ∈ a.dimensions, d.accessed_length = 0#64
  · obtain ⟨mask, hregion⟩ := region_keeping a
    refine iff_of_true ⟨_, hregion, ?_⟩ (.inl hzero)
    rintro x ⟨s, hs, -⟩
    exact absurd hs (not_sum_of_count_zero (exists_count_zero_iff.2 hzero))
  · have hlengths : ∀ p ∈ a.progressions, 0 < p.count := by
      intro p hp
      by_contra hnot
      exact hzero (exists_count_zero_iff.1 ⟨p, hp, by omega⟩)
    obtain ⟨mask, hregion, hbits⟩ := region_spec h hlengths
    have hcovered : a.Covered ↔ ∀ x, a.Touches x → (keeping a.getDepAddress mask).Contains x := by
      constructor
      · rintro ⟨r, hr, hall⟩
        rw [hregion] at hr
        rwa [FullRegion.toRegion_injective hr]
      · intro hall
        exact ⟨_, hregion, hall⟩
    rw [hcovered, contains_touched_iff h, or_iff_right hzero]
    refine forall₂_congr fun i hi => ?_
    rw [← hbits i hi, Unchanged, ← Progression.testBit_add_iff hlengths]
    cases mask.getLsbD i <;> simp

/-- The region of an access covers it just if some length is 0 or every bit is open for some dimension or not
changed by any step. -/
theorem covered_iff (h : a.Fits) : a.Covered ↔
    (∃ d ∈ a.dimensions, d.accessed_length = 0#64) ∨
    ∀ i < 64, Opened a.getDepAddress.toNat i 0 a.progressions ∨
      Unchanged a.getDepAddress.toNat i a.progressions :=
  covered_iff_everyBit h

/-- The first int of each row of a matrix of three rows, in rows of `size` bytes. -/
def column (size : BitVec 64) : DataAccess := ⟨4096#64, 0#64, ⟨size, 4#64⟩, [⟨3#64, 3#64⟩]⟩

/-- The column of a matrix whose rows are four ints long is covered. -/
theorem covered_column : (column 16#64).Covered :=
  (covered_iff ⟨by decide, by decide, by decide⟩).2 (.inr (by decide))

/-- The column of a matrix whose rows are three ints long is not: the region has not the first byte of the
second row. -/
theorem column_not_covered : ¬ ∀ a : DataAccess, a.Fits → a.Covered := by
  intro h
  obtain ⟨r, hregion, hall⟩ := h (column 12#64) ⟨by decide, by decide, by decide⟩
  have hrow : (column 12#64).Touches 4108#64 :=
    ⟨12, ⟨0, by decide, 12, ⟨1, by decide, 0, rfl, rfl⟩, rfl⟩, rfl⟩
  have hcontains : 4108#64 &&& (column 12#64).region.mask = (column 12#64).region.value := by
    rw [hregion]
    exact hall _ hrow
  revert hcontains
  decide

end

end DataAccess

end OmpSs.Support
