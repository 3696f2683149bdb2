import Mathlib.Data.List.Basic
import Mathlib.Data.List.Forall2
import Mathlib.Data.List.Induction
import Mathlib.Tactic.Ring

/-!
# Regions

A `Region` (`nanox-mx/src/support/region_decl.hpp`) is a string over the bits `0`, `1` and `X`, kept
from the top of two 64-bit words: a bit of `mask` that is set makes the bit known, and `value` then
holds it. The fields `firstBit` and `nextBit` say which part of a 64-bit string it is: where the part
starts, and the position below its last bit. A full-width region stands for the set of addresses that
agree with its known bits.

The operations are those of the source, on words. Each has a lemma about `bits`, the string as a
list, and the rest of the development reasons about these lists. A shift by 64 gives 0, as the word
operations of Lean do; the value is not used where the source shifts by 64.
-/

namespace OmpSs.Support

/-- Source: `Region::bit_value_t` (`region_decl.hpp:58`). -/
inductive BitValue
  | BIT_0
  | BIT_1
  | X
deriving DecidableEq

/-- Two bits agree on some address bit. -/
def BitValue.compat (a b : BitValue) : Bool := a = .X ∨ b = .X ∨ a = b

/-- Source: `Region` (`region_decl.hpp:39`). -/
structure Region where
  firstBit : Nat
  nextBit : Int
  mask : BitVec 64
  value : BitVec 64
deriving DecidableEq

namespace Region

/-- Source: `Region()` and `clear`. -/
def empty : Region := ⟨0, 63, 0#64, 0#64⟩

/-- Source: `Region(size_t value, size_t mask)`. -/
def ofValueMask (value mask : BitVec 64) : Region := ⟨0, -1, mask, value⟩

def isEmpty (r : Region) : Bool := r.firstBit = 0 ∧ r.nextBit = 63

def getLength (r : Region) : Int := 63 - r.nextBit

/-- Source: `operator[]`. -/
def bitAt (r : Region) (index : Nat) : BitValue :=
  if r.mask &&& (1#64 <<< (63 - index)) ≠ 0#64 then
    if r.value &&& (1#64 <<< (63 - index)) ≠ 0#64 then .BIT_1 else .BIT_0
  else .X

def getFirstBit (r : Region) : BitValue := r.bitAt 0

/-- Source: `addBit(bool mask, bool value)`. -/
def addMaskValue (r : Region) (mask value : Bool) : Region :=
  let maskField := (if mask then 1#64 else 0#64) <<< r.nextBit.toNat
  let valueField := (if value then 1#64 else 0#64) <<< r.nextBit.toNat
  { r with
    mask := (r.mask &&& ~~~maskField) ||| maskField
    value := (r.value &&& ~~~valueField) ||| valueField
    nextBit := r.nextBit - 1 }

/-- Source: `addBit(bit_value_t)`, and `operator+` on a bit. -/
def addBit (r : Region) : BitValue → Region
  | .BIT_0 => r.addMaskValue true false
  | .BIT_1 => r.addMaskValue true true
  | .X => r.addMaskValue false false

/-- Source: `advance`, and `operator+` on a number of bits. -/
def advance (r : Region) (bits : Nat) : Region where
  firstBit := r.firstBit + bits
  nextBit := r.nextBit + bits
  mask := r.mask <<< bits
  value := r.value <<< bits

/-- Source: `operator+=`. -/
def append (r other : Region) : Region :=
  { r with
    mask := r.mask + (other.mask >>> r.getLength.toNat)
    value := r.value + (other.value >>> r.getLength.toNat)
    nextBit := r.nextBit - other.getLength }

/-- The mask of the bits below both regions' last bits, as the comparisons compute it. -/
def cleanerMask (shortestLengthIndex : Int) : BitVec 64 :=
  (if shortestLengthIndex = 63 then 0#64 else 1#64 <<< (shortestLengthIndex + 1).toNat) - 1#64

/-- Source: `matches`. -/
def matchesRegion (r other : Region) : Bool :=
  if r.firstBit ≠ other.firstBit ∨ r.nextBit ≠ other.nextBit then false
  else if r.mask &&& other.mask = 0#64 then true
  else r.value &&& r.mask &&& other.mask = other.value &&& r.mask &&& other.mask

/-- Source: `containedMatch`. -/
def containedMatch (r other : Region) : Bool :=
  let cleanerMask := cleanerMask (max r.nextBit other.nextBit)
  let cleanMask1 := r.mask &&& ~~~cleanerMask
  let cleanMask2 := other.mask &&& ~~~cleanerMask
  if cleanMask1 &&& cleanMask2 = 0#64 then true
  else
    let cleanValue1 := r.value &&& ~~~cleanerMask
    let cleanValue2 := other.value &&& ~~~cleanerMask
    cleanValue1 &&& cleanMask1 &&& cleanMask2 = cleanValue2 &&& cleanMask1 &&& cleanMask2

/-- Source: `containedExactMatch`. -/
def containedExactMatch (r other : Region) : Bool :=
  let cleanerMask := cleanerMask (max r.nextBit other.nextBit)
  if r.mask &&& ~~~cleanerMask ≠ other.mask &&& ~~~cleanerMask then false
  else if r.value &&& ~~~cleanerMask ≠ other.value &&& ~~~cleanerMask then false
  else true

/-- Source: `firstBitMatches`. -/
def firstBitMatches (r : Region) (bitValue : BitValue) : Bool :=
  let highestBitMask := 1#64 <<< 63
  if bitValue = .X ∨ ~~~r.mask &&& highestBitMask ≠ 0#64 then true
  else if bitValue = .BIT_1 then r.value &&& highestBitMask ≠ 0#64
  else ¬ r.value &&& highestBitMask ≠ 0#64

/-- The loop of `getCommonPrefix`, over `firstMismatch` and `cleanerMask`. -/
def commonPrefixLoop (r other : Region) (shortestLengthIndex : Int) :
    Nat → Int → BitVec 64 → Int × BitVec 64
  | 0, firstMismatch, cleanerMask => (firstMismatch, cleanerMask)
  | fuel + 1, firstMismatch, cleanerMask =>
    if firstMismatch > shortestLengthIndex ∧
        r.mask &&& (1#64 <<< firstMismatch.toNat) = other.mask &&& (1#64 <<< firstMismatch.toNat) ∧
        r.value &&& (1#64 <<< firstMismatch.toNat) = other.value &&& (1#64 <<< firstMismatch.toNat)
    then
      commonPrefixLoop r other shortestLengthIndex fuel (firstMismatch - 1) (cleanerMask >>> 1)
    else (firstMismatch, cleanerMask)

/-- Source: `getCommonPrefix`. The loop ends after at most 64 rounds, `firstMismatch` being no less
than -1. -/
def getCommonPrefix (r other : Region) : Region :=
  let (firstMismatch, cleanerMask) :=
    commonPrefixLoop r other (max r.nextBit other.nextBit) 64 63 (0#64 - 1#64)
  { firstBit := r.firstBit
    nextBit := firstMismatch
    mask := r.mask &&& ~~~cleanerMask
    value := r.value &&& ~~~cleanerMask }

/-! ## Words bit by bit

Bits are counted from the top, as `bitAt` does. -/

theorem and_one_shiftLeft (m : BitVec 64) {i : Nat} (hi : i < 64) :
    m &&& (1#64 <<< (63 - i)) = if m.getMsbD i then 1#64 <<< (63 - i) else 0#64 := by
  rw [← BitVec.twoPow_eq, BitVec.and_twoPow, BitVec.getMsbD_eq_getLsbD]
  simp [hi]

theorem one_shiftLeft_ne_zero {k : Nat} (hk : k < 64) : 1#64 <<< k ≠ 0#64 := by
  intro h
  have hbit := congrArg (fun m : BitVec 64 => m.getLsbD k) h
  simp [hk] at hbit

theorem and_one_shiftLeft_ne_zero (m : BitVec 64) {i : Nat} (hi : i < 64) :
    m &&& (1#64 <<< (63 - i)) ≠ 0#64 ↔ m.getMsbD i = true := by
  rw [and_one_shiftLeft m hi]
  split
  · next h => simpa [h] using one_shiftLeft_ne_zero (by omega)
  · next h => simpa using h

/-- Comparing one bit of two words. -/
theorem and_one_shiftLeft_eq_iff (m n : BitVec 64) {i : Nat} (hi : i < 64) :
    m &&& (1#64 <<< (63 - i)) = n &&& (1#64 <<< (63 - i)) ↔ m.getMsbD i = n.getMsbD i := by
  have hne := one_shiftLeft_ne_zero (k := 63 - i) (by omega)
  rw [and_one_shiftLeft m hi, and_one_shiftLeft n hi]
  cases m.getMsbD i <;> cases n.getMsbD i <;> simp [hne, hne.symm]

theorem cleanerMask_eq {s : Int} {k : Nat} (hk : s + 1 = k) (hle : k ≤ 64) :
    cleanerMask s = BitVec.ofNat 64 (2 ^ k - 1) := by
  have hpos : 0 < 2 ^ k := Nat.two_pow_pos k
  refine BitVec.eq_of_toNat_eq ?_
  rw [cleanerMask, hk, Int.toNat_natCast]
  split
  · next h =>
    obtain rfl : k = 64 := by omega
    rfl
  · next h =>
    have hlt : 2 ^ k < 2 ^ 64 := Nat.pow_lt_pow_right (by omega) (by omega)
    rw [BitVec.toNat_sub, BitVec.toNat_shiftLeft, BitVec.toNat_ofNat, BitVec.toNat_ofNat,
      Nat.shiftLeft_eq]
    omega

theorem getMsbD_cleanerMask {s : Int} (hlow : -1 ≤ s) (hhigh : s ≤ 63) (i : Nat) :
    (cleanerMask s).getMsbD i = (decide (i < 64) && decide (63 - s ≤ i)) := by
  obtain ⟨k, hk⟩ : ∃ k : Nat, s + 1 = k := ⟨(s + 1).toNat, by omega⟩
  rw [cleanerMask_eq hk (by omega), BitVec.getMsbD_eq_getLsbD, BitVec.getLsbD_ofNat,
    Nat.testBit_two_pow_sub_one]
  rcases Nat.lt_or_ge i 64 with hi | hi
  · simp only [hi, decide_true, Bool.true_and]
    have : 64 - 1 - i < 64 := by omega
    simp only [this, decide_true, Bool.true_and, decide_eq_decide]
    omega
  · simp [Nat.not_lt.2 hi]

/-- What the comparisons keep of a word. -/
theorem getMsbD_clean {s : Int} (hlow : -1 ≤ s) (hhigh : s ≤ 63) (m : BitVec 64) (i : Nat) :
    (m &&& ~~~cleanerMask s).getMsbD i = (decide ((i : Int) < 63 - s) && m.getMsbD i) := by
  rw [BitVec.getMsbD_and, BitVec.getMsbD_not, getMsbD_cleanerMask hlow hhigh]
  rcases Nat.lt_or_ge i 64 with hi | hi
  · rcases lt_or_ge (i : Int) (63 - s) with hlt | hge
    · rw [decide_eq_true hlt, decide_eq_false (not_le.2 hlt), decide_eq_true hi]
      simp
    · rw [decide_eq_false (not_lt.2 hge), decide_eq_true hge, decide_eq_true hi]
      simp
  · simp [BitVec.getMsbD_of_ge m i hi]

/-! ## Regions as strings -/

/-- A string that uses its words as intended: its length is one of 0 to 64, a bit of `value` is set
only where the bit is known, and both words are 0 below the last bit. -/
structure Valid (r : Region) : Prop where
  low : -1 ≤ r.nextBit
  high : r.nextBit ≤ 63
  known : ∀ i, r.value.getMsbD i = true → r.mask.getMsbD i = true
  tail : ∀ i : Nat, r.getLength ≤ i → r.mask.getMsbD i = false

/-- The length, as a number. -/
def len (r : Region) : Nat := r.getLength.toNat

/-- The string. -/
def bits (r : Region) : List BitValue := (List.range r.len).map r.bitAt

section
variable {r other : Region} {i : Nat}

@[simp] theorem length_bits (r : Region) : r.bits.length = r.len := by
  simp [bits]

theorem bitAt_eq (r : Region) (hi : i < 64) : r.bitAt i =
    if r.mask.getMsbD i then if r.value.getMsbD i then .BIT_1 else .BIT_0 else .X := by
  simp only [bitAt, and_one_shiftLeft_ne_zero _ hi]

/-- A bit of a string is given by its two words. -/
theorem bitAt_eq_iff (hr : r.Valid) (ho : other.Valid) (hi : i < 64) {j : Nat} (hj : j < 64) :
    r.bitAt i = other.bitAt j ↔
      r.mask.getMsbD i = other.mask.getMsbD j ∧ r.value.getMsbD i = other.value.getMsbD j := by
  rw [bitAt_eq r hi, bitAt_eq other hj]
  have h₁ := hr.known i
  have h₂ := ho.known j
  cases hm : r.mask.getMsbD i <;> cases hm' : other.mask.getMsbD j <;>
    cases hv : r.value.getMsbD i <;> cases hv' : other.value.getMsbD j <;> simp_all

theorem Valid.len_le (hr : r.Valid) : r.len ≤ 64 := by
  have := hr.low
  unfold len getLength
  omega

theorem Valid.getLength_eq (hr : r.Valid) : r.getLength = r.len := by
  have := hr.high
  unfold len getLength
  omega

theorem Valid.nextBit_eq (hr : r.Valid) : r.nextBit = 63 - r.len := by
  have := hr.getLength_eq
  unfold getLength at this
  omega

theorem Valid.value_tail (hr : r.Valid) (hi : r.len ≤ i) : r.value.getMsbD i = false := by
  have hmask := hr.tail i (by rw [hr.getLength_eq]; exact_mod_cast hi)
  have hknown := hr.known i
  cases hv : r.value.getMsbD i
  · rfl
  · rw [hknown hv] at hmask
    cases hmask

theorem Valid.mask_tail (hr : r.Valid) (hi : r.len ≤ i) : r.mask.getMsbD i = false :=
  hr.tail i (by rw [hr.getLength_eq]; exact_mod_cast hi)

@[simp] theorem getElem_bits (r : Region) (i : Nat) (hi : i < r.bits.length) :
    r.bits[i] = r.bitAt i := by
  simp [bits]

/-- A valid region is its place and its string. -/
theorem Valid.ext (hr : r.Valid) (ho : other.Valid) (hfirst : r.firstBit = other.firstBit)
    (hbits : r.bits = other.bits) : r = other := by
  have hlen : r.len = other.len := by simpa using congrArg List.length hbits
  have hbit : ∀ i, i < r.len → r.bitAt i = other.bitAt i := by
    intro i hi
    rw [← getElem_bits r i (by simpa using hi), ← getElem_bits other i (by simpa [← hlen] using hi)]
    simp only [hbits]
  have hwords : ∀ i, i < 64 → r.mask.getMsbD i = other.mask.getMsbD i ∧
      r.value.getMsbD i = other.value.getMsbD i := by
    intro i hi
    rcases Nat.lt_or_ge i r.len with hlt | hge
    · exact (bitAt_eq_iff hr ho hi hi).1 (hbit i hlt)
    · rw [hr.mask_tail hge, hr.value_tail hge, ho.mask_tail (by omega), ho.value_tail (by omega)]
      exact ⟨rfl, rfl⟩
  have hnext : r.nextBit = other.nextBit := by rw [hr.nextBit_eq, ho.nextBit_eq, hlen]
  have hmask : r.mask = other.mask := BitVec.eq_of_getMsbD_eq fun i hi => (hwords i hi).1
  have hvalue : r.value = other.value := BitVec.eq_of_getMsbD_eq fun i hi => (hwords i hi).2
  cases r
  cases other
  simp_all

theorem valid_empty : empty.Valid where
  low := by decide
  high := by decide
  known i h := by simp [empty] at h
  tail i _ := by simp [empty]

@[simp] theorem bits_empty : empty.bits = [] := rfl

/-- The words of a string, bit by bit. -/
structure Spells (r : Region) (l : List BitValue) : Prop where
  next : r.nextBit = 63 - l.length
  length_le : l.length ≤ 64
  mask : ∀ i, r.mask.getMsbD i = l[i]?.any (· ≠ .X)
  value : ∀ i, r.value.getMsbD i = l[i]?.any (· = .BIT_1)

theorem Valid.spells (hr : r.Valid) : r.Spells r.bits where
  next := by rw [length_bits, hr.nextBit_eq]
  length_le := by rw [length_bits]; exact hr.len_le
  mask i := by
    have hlen := hr.len_le
    rcases Nat.lt_or_ge i r.len with hlt | hge
    · rw [List.getElem?_eq_getElem (by simpa using hlt), getElem_bits, bitAt_eq r (by omega)]
      cases r.mask.getMsbD i <;> cases r.value.getMsbD i <;> simp
    · rw [List.getElem?_eq_none (by simpa using hge), hr.mask_tail hge]
      rfl
  value i := by
    have hlen := hr.len_le
    have hknown := hr.known i
    rcases Nat.lt_or_ge i r.len with hlt | hge
    · rw [List.getElem?_eq_getElem (by simpa using hlt), getElem_bits, bitAt_eq r (by omega)]
      cases hm : r.mask.getMsbD i <;> cases hv : r.value.getMsbD i <;> simp_all
    · rw [List.getElem?_eq_none (by simpa using hge), hr.value_tail hge]
      rfl

section
variable {l l' : List BitValue}

theorem Spells.len_eq (h : r.Spells l) : r.len = l.length := by
  have := h.next
  unfold len getLength
  omega

theorem Spells.valid (h : r.Spells l) : r.Valid where
  low := by
    have := h.next
    have := h.length_le
    omega
  high := by
    have := h.next
    omega
  known i hv := by
    rw [h.value] at hv
    rw [h.mask]
    cases hl : l[i]? with
    | none => simp [hl] at hv
    | some b => cases b <;> simp_all
  tail i hi := by
    have hnext := h.next
    unfold getLength at hi
    rw [h.mask, List.getElem?_eq_none (by omega)]
    rfl

theorem Spells.bits_eq (h : r.Spells l) : r.bits = l := by
  have hlen := h.length_le
  refine List.ext_getElem (by simp [h.len_eq]) fun i _ hi => ?_
  rw [getElem_bits, bitAt_eq r (by omega), h.mask, h.value, List.getElem?_eq_getElem hi]
  cases l[i] <;> simp

/-- `advance` drops bits. -/
theorem Spells.advance (h : r.Spells l) {k : Nat} (hk : k ≤ l.length) :
    (r.advance k).Spells (l.drop k) where
  next := by
    have := h.next
    simp only [Region.advance, List.length_drop]
    omega
  length_le := by
    have := h.length_le
    rw [List.length_drop]
    omega
  mask i := by
    simp [Region.advance, h.mask, Nat.add_comm]
  value i := by
    simp [Region.advance, h.value, Nat.add_comm]

/-- The words of two strings one after the other. -/
theorem add_ushiftRight {m n : BitVec 64} {k : Nat} (hm : ∀ i, k ≤ i → m.getMsbD i = false) (i : Nat) :
    (m + n >>> k).getMsbD i = if i < k then m.getMsbD i else decide (i < 64) && n.getMsbD (i - k) := by
  have hdisjoint : m &&& (n >>> k) = 0#64 := by
    refine BitVec.eq_of_getMsbD_eq fun j _ => ?_
    rw [BitVec.getMsbD_and, BitVec.getMsbD_ushiftRight]
    rcases Nat.lt_or_ge j k with hlt | hge
    · simp [hlt]
    · simp [hm j hge]
  rw [BitVec.add_eq_or_of_and_eq_zero _ _ hdisjoint, BitVec.getMsbD_or, BitVec.getMsbD_ushiftRight]
  split
  · next h => simp [h]
  · next h => simp [h, hm i (by omega)]

theorem bound_any {p : BitValue → Bool} (hlen : l.length + l'.length ≤ 64) :
    (decide (i < 64) && l'[i - l.length]?.any p) = l'[i - l.length]?.any p := by
  rcases Nat.lt_or_ge i 64 with hlt | hge
  · simp [hlt]
  · rw [List.getElem?_eq_none (by omega)]
    simp

/-- `+=` appends. -/
theorem Spells.append (h : r.Spells l) (h' : other.Spells l') (hlen : l.length + l'.length ≤ 64) :
    (r.append other).Spells (l ++ l') where
  next := by
    have h₁ := h.next
    have h₂ := h'.next
    simp only [Region.append, getLength, List.length_append]
    omega
  length_le := by
    rw [List.length_append]
    exact hlen
  mask i := by
    simp only [Region.append]
    rw [show r.getLength.toNat = l.length from h.len_eq, add_ushiftRight, List.getElem?_append]
    · split
      · exact h.mask i
      · rw [h'.mask, bound_any hlen]
    · intro j hj
      rw [h.mask, List.getElem?_eq_none hj]
      rfl
  value i := by
    simp only [Region.append]
    rw [show r.getLength.toNat = l.length from h.len_eq, add_ushiftRight, List.getElem?_append]
    · split
      · exact h.value i
      · rw [h'.value, bound_any hlen]
    · intro j hj
      rw [h.value, List.getElem?_eq_none hj]
      rfl

theorem getMsbD_one_shiftLeft {k : Nat} (hk : k < 64) (i : Nat) :
    (1#64 <<< (63 - k)).getMsbD i = decide (i = k) := by
  rw [BitVec.getMsbD_shiftLeft, BitVec.getMsbD_one]
  simp
  omega

/-- Filling in the next bit of a word. -/
theorem getMsbD_fill (m : BitVec 64) (b : Bool) {k : Nat} (hk : k < 64)
    (hzero : m.getMsbD k = false) (i : Nat) :
    ((m &&& ~~~((if b then 1#64 else 0#64) <<< (63 - k))) |||
      ((if b then 1#64 else 0#64) <<< (63 - k))).getMsbD i = if i = k then b else m.getMsbD i := by
  have hbit := getMsbD_one_shiftLeft hk i
  rcases Nat.lt_or_ge i 64 with hi | hi
  · rcases eq_or_ne i k with rfl | hne
    · cases b
      · simp [hzero]
      · simp [hi, hbit]
    · cases b
      · simp only [BitVec.getMsbD_or, BitVec.getMsbD_and, BitVec.getMsbD_not, Bool.false_eq_true,
          if_false, BitVec.zero_shiftLeft, BitVec.getMsbD_zero, hne]
        simp [hi]
      · simp [hi, hne, hbit]
  · have hne : i ≠ k := by omega
    simp [hne, BitVec.getMsbD_of_ge _ i hi]

/-- `addBit` adds a bit. -/
theorem Spells.addBit (h : r.Spells l) (hlen : l.length < 64) (b : BitValue) :
    (r.addBit b).Spells (l ++ [b]) := by
  have hnext : r.nextBit.toNat = 63 - l.length := by
    have := h.next
    omega
  have hmask : ∀ i, (r.addBit b).mask.getMsbD i =
      if i = l.length then decide (b ≠ .X) else r.mask.getMsbD i := by
    intro i
    have hzero : r.mask.getMsbD l.length = false := by
      rw [h.mask, List.getElem?_eq_none le_rfl]
      rfl
    have hfill := fun b => getMsbD_fill r.mask b hlen hzero i
    rw [← hnext] at hfill
    cases b <;> exact hfill _
  have hvalue : ∀ i, (r.addBit b).value.getMsbD i =
      if i = l.length then decide (b = .BIT_1) else r.value.getMsbD i := by
    intro i
    have hzero : r.value.getMsbD l.length = false := by
      rw [h.value, List.getElem?_eq_none le_rfl]
      rfl
    have hfill := fun b => getMsbD_fill r.value b hlen hzero i
    rw [← hnext] at hfill
    cases b <;> exact hfill _
  have hget : ∀ i, (l ++ [b])[i]? = if i = l.length then some b else l[i]? := by
    intro i
    rw [List.getElem?_append]
    split
    · next hlt => rw [if_neg (by omega)]
    · next hge =>
      split
      · next heq => simp [heq]
      · next hne => rw [List.getElem?_eq_none (by simp; omega), List.getElem?_eq_none (by omega)]
  refine ⟨?_, ?_, fun i => ?_, fun i => ?_⟩
  · have := h.next
    cases b <;> simp [Region.addBit, addMaskValue] <;> omega
  · rw [List.length_append]
    exact hlen
  · rw [hmask, hget, h.mask]
    split <;> simp
  · rw [hvalue, hget, h.value]
    split <;> simp

/-! ## Comparisons -/

theorem clean_eq_iff {s : Int} (hlow : -1 ≤ s) (hhigh : s ≤ 63) (m n : BitVec 64) :
    m &&& ~~~cleanerMask s = n &&& ~~~cleanerMask s ↔
      ∀ i : Nat, (i : Int) < 63 - s → m.getMsbD i = n.getMsbD i := by
  constructor
  · intro h i hi
    have hbit := congrArg (fun w : BitVec 64 => w.getMsbD i) h
    simpa only [getMsbD_clean hlow hhigh, decide_eq_true hi, Bool.true_and] using hbit
  · intro h
    refine BitVec.eq_of_getMsbD_eq fun i _ => ?_
    rw [getMsbD_clean hlow hhigh, getMsbD_clean hlow hhigh]
    rcases lt_or_ge (i : Int) (63 - s) with hlt | hge
    · rw [h i hlt]
    · rw [decide_eq_false (not_lt.2 hge)]
      rfl

/-- The strings agree as far as both go. -/
theorem containedExactMatch_iff (h : r.Spells l) (h' : other.Spells l') :
    r.containedExactMatch other = true ↔ ∀ i, i < l.length → i < l'.length → l[i]? = l'[i]? := by
  have h₁ := h.next
  have h₂ := h'.next
  have hle := h.length_le
  have hle' := h'.length_le
  have hclean := clean_eq_iff (s := max r.nextBit other.nextBit) (by omega) (by omega)
  have hrange : ∀ i : Nat, (i : Int) < 63 - max r.nextBit other.nextBit ↔
      i < l.length ∧ i < l'.length := by omega
  have hbit : ∀ i, i < l.length → i < l'.length → (l[i]? = l'[i]? ↔
      r.mask.getMsbD i = other.mask.getMsbD i ∧ r.value.getMsbD i = other.value.getMsbD i) := by
    intro i hi hi'
    rw [h.mask, h'.mask, h.value, h'.value, List.getElem?_eq_getElem hi, List.getElem?_eq_getElem hi']
    cases l[i] <;> cases l'[i] <;> simp
  have hwords : r.containedExactMatch other = true ↔
      r.mask &&& ~~~cleanerMask (max r.nextBit other.nextBit) =
        other.mask &&& ~~~cleanerMask (max r.nextBit other.nextBit) ∧
      r.value &&& ~~~cleanerMask (max r.nextBit other.nextBit) =
        other.value &&& ~~~cleanerMask (max r.nextBit other.nextBit) := by
    by_cases hm : r.mask &&& ~~~cleanerMask (max r.nextBit other.nextBit) =
        other.mask &&& ~~~cleanerMask (max r.nextBit other.nextBit)
    · by_cases hv : r.value &&& ~~~cleanerMask (max r.nextBit other.nextBit) =
          other.value &&& ~~~cleanerMask (max r.nextBit other.nextBit)
      · simp [containedExactMatch, hm, hv]
      · simp [containedExactMatch, hv]
    · simp [containedExactMatch, hm]
  rw [hwords, hclean, hclean]
  constructor
  · intro ⟨hm, hv⟩ i hi hi'
    exact (hbit i hi hi').2 ⟨hm i ((hrange i).2 ⟨hi, hi'⟩), hv i ((hrange i).2 ⟨hi, hi'⟩)⟩
  · intro hall
    refine ⟨fun i hi => ?_, fun i hi => ?_⟩
    · obtain ⟨hi, hi'⟩ := (hrange i).1 hi
      exact ((hbit i hi hi').1 (hall i hi hi')).1
    · obtain ⟨hi, hi'⟩ := (hrange i).1 hi
      exact ((hbit i hi hi').1 (hall i hi hi')).2

/-- The shorter string is a prefix of the longer one. -/
theorem containedExactMatch_iff_isPrefix (h : r.Spells l) (h' : other.Spells l')
    (hle : l.length ≤ l'.length) : r.containedExactMatch other = true ↔ l <+: l' := by
  rw [containedExactMatch_iff h h', List.prefix_iff_getElem?]
  constructor
  · intro hall i hi
    rw [← hall i hi (by omega), List.getElem?_eq_getElem hi]
  · intro hall i hi _
    rw [hall i hi, List.getElem?_eq_getElem hi]

/-- The words compared by `containedMatch` and `matchesRegion`. -/
theorem and_and_eq_iff (m m' v v' : BitVec 64) : v &&& m &&& m' = v' &&& m &&& m' ↔
    ∀ i, m.getMsbD i = true → m'.getMsbD i = true → v.getMsbD i = v'.getMsbD i := by
  constructor
  · intro h i hm hm'
    have hbit := congrArg (fun w : BitVec 64 => w.getMsbD i) h
    simpa [hm, hm'] using hbit
  · intro h
    refine BitVec.eq_of_getMsbD_eq fun i _ => ?_
    have hi := h i
    simp only [BitVec.getMsbD_and]
    cases hm : m.getMsbD i <;> cases hm' : m'.getMsbD i <;> simp_all

theorem compat_iff_of_getElem (h : r.Spells l) (h' : other.Spells l') {i : Nat} (hi : i < l.length)
    (hi' : i < l'.length) : l[i].compat l'[i] = true ↔
      (r.mask.getMsbD i = true → other.mask.getMsbD i = true →
        r.value.getMsbD i = other.value.getMsbD i) := by
  rw [h.mask, h'.mask, h.value, h'.value, List.getElem?_eq_getElem hi, List.getElem?_eq_getElem hi']
  cases l[i] <;> cases l'[i] <;> simp [BitValue.compat]

/-- No address bit tells the strings apart as far as both go. -/
theorem containedMatch_iff (h : r.Spells l) (h' : other.Spells l') :
    r.containedMatch other = true ↔ ∀ i (hi : i < l.length) (hi' : i < l'.length),
      l[i].compat l'[i] = true := by
  have h₁ := h.next
  have h₂ := h'.next
  have hle := h.length_le
  have hle' := h'.length_le
  have hclean := getMsbD_clean (s := max r.nextBit other.nextBit) (by omega) (by omega)
  have hrange : ∀ i : Nat, (i : Int) < 63 - max r.nextBit other.nextBit ↔
      i < l.length ∧ i < l'.length := by omega
  have hwords : r.containedMatch other = true ↔
      (r.value &&& ~~~cleanerMask (max r.nextBit other.nextBit)) &&&
        (r.mask &&& ~~~cleanerMask (max r.nextBit other.nextBit)) &&&
        (other.mask &&& ~~~cleanerMask (max r.nextBit other.nextBit)) =
      (other.value &&& ~~~cleanerMask (max r.nextBit other.nextBit)) &&&
        (r.mask &&& ~~~cleanerMask (max r.nextBit other.nextBit)) &&&
        (other.mask &&& ~~~cleanerMask (max r.nextBit other.nextBit)) := by
    unfold containedMatch
    dsimp only
    split
    · next hzero => simp [BitVec.and_assoc _ (r.mask &&& _), hzero]
    · rw [decide_eq_true_iff]
  rw [hwords, and_and_eq_iff]
  simp only [hclean, Bool.and_eq_true, decide_eq_true_eq, hrange]
  constructor
  · intro hall i hi hi'
    rw [compat_iff_of_getElem h h' hi hi']
    intro hm hm'
    have := hall i ⟨⟨hi, hi'⟩, hm⟩ ⟨⟨hi, hi'⟩, hm'⟩
    simpa [hi, hi'] using this
  · intro hall i ⟨⟨hi, hi'⟩, hm⟩ ⟨_, hm'⟩
    have := (compat_iff_of_getElem h h' hi hi').1 (hall i hi hi') hm hm'
    simpa [hi, hi'] using this

theorem Spells.getFirstBit {b : BitValue} (h : r.Spells (b :: l)) : r.getFirstBit = b := by
  rw [Region.getFirstBit, bitAt_eq r (by omega), h.mask, h.value]
  cases b <;> simp

theorem Spells.firstBitMatches {b : BitValue} (h : r.Spells (b :: l)) (c : BitValue) :
    r.firstBitMatches c = c.compat b := by
  have hnot : ~~~r.mask &&& (1#64 <<< 63) ≠ 0#64 ↔ b = .X := by
    rw [and_one_shiftLeft_ne_zero (~~~r.mask) (i := 0) (by omega), BitVec.getMsbD_not, h.mask]
    simp
  have hone : r.value &&& (1#64 <<< 63) ≠ 0#64 ↔ b = .BIT_1 := by
    rw [and_one_shiftLeft_ne_zero r.value (i := 0) (by omega), h.value]
    simp
  unfold Region.firstBitMatches
  simp only [hnot, hone]
  cases b <;> cases c <;> decide

/-! ## Common prefixes -/

/-- The loop stops at the first place where the strings differ or one of them ends. -/
theorem commonPrefixLoop_eq (h : r.Spells l) (h' : other.Spells l') (fuel k : Nat)
    (hfuel : min l.length l'.length ≤ fuel + k) (hk : k ≤ min l.length l'.length) :
    ∃ n : Nat, commonPrefixLoop r other (max r.nextBit other.nextBit) fuel (63 - k)
        (BitVec.allOnes 64 >>> k) = (63 - (n : Int), BitVec.allOnes 64 >>> n) ∧
      n ≤ min l.length l'.length ∧ (∀ i, k ≤ i → i < n → l[i]? = l'[i]?) ∧
      (n < min l.length l'.length → l[n]? ≠ l'[n]?) := by
  have hle := h.length_le
  have hleft := min_le_left l.length l'.length
  have hright := min_le_right l.length l'.length
  have hmax : max r.nextBit other.nextBit = 63 - ((min l.length l'.length : Nat) : Int) := by
    rw [h.next, h'.next]
    omega
  rw [hmax]
  generalize min l.length l'.length = n' at *
  induction fuel generalizing k with
  | zero => exact ⟨k, rfl, hk, fun i hi hlt => by omega, fun hlt => by omega⟩
  | succ fuel ih =>
    rcases Nat.lt_or_ge k n' with hlt | hge
    · have hmask := and_one_shiftLeft_eq_iff r.mask other.mask (i := k) (by omega)
      have hvalue := and_one_shiftLeft_eq_iff r.value other.value (i := k) (by omega)
      have htoNat : (63 - (k : Int)).toNat = 63 - k := by omega
      have hbit : (l[k]? = l'[k]?) ↔
          r.mask.getMsbD k = other.mask.getMsbD k ∧ r.value.getMsbD k = other.value.getMsbD k := by
        rw [h.mask, h'.mask, h.value, h'.value, List.getElem?_eq_getElem (by omega),
          List.getElem?_eq_getElem (by omega)]
        cases l[k] <;> cases l'[k] <;> simp
      have hwithin : 63 - (k : Int) > 63 - (n' : Int) := by omega
      rw [commonPrefixLoop]
      simp only [htoNat, hmask, hvalue, hwithin, true_and, ← hbit]
      split
      · next heq =>
        obtain ⟨n, hrun, hn, hagree, hstop⟩ := ih (k + 1) (by omega) (by omega)
        refine ⟨n, ?_, hn, fun i hi hin => ?_, hstop⟩
        · rw [← hrun, BitVec.shiftRight_add]
          congr 1
          push_cast
          ring
        · rcases Nat.eq_or_lt_of_le hi with rfl | hi
          · exact heq
          · exact hagree i hi hin
      · next hne => exact ⟨k, rfl, hk, fun i hi hin => by omega, fun _ => hne⟩
    · refine ⟨k, ?_, hk, fun i hi hlt => by omega, fun hlt => by omega⟩
      rw [commonPrefixLoop, if_neg (by omega)]

/-- The words of the first `n` bits. -/
theorem Spells.take (h : r.Spells l) {n : Nat} (hn : n ≤ l.length) :
    Spells ⟨r.firstBit, 63 - n, r.mask &&& ~~~(BitVec.allOnes 64 >>> n),
      r.value &&& ~~~(BitVec.allOnes 64 >>> n)⟩ (l.take n) := by
  have hle := h.length_le
  have hkeep : ∀ (m : BitVec 64) (p : BitValue → Bool), (∀ i, m.getMsbD i = l[i]?.any p) →
      ∀ i, (m &&& ~~~(BitVec.allOnes 64 >>> n)).getMsbD i = (l.take n)[i]?.any p := by
    intro m p hm i
    rw [BitVec.getMsbD_and, BitVec.getMsbD_not, BitVec.getMsbD_ushiftRight, BitVec.getMsbD_allOnes,
      hm, List.getElem?_take]
    rcases Nat.lt_or_ge i 64 with hi | hi
    · rcases Nat.lt_or_ge i n with hlt | hge
      · simp [hi, hlt]
      · have : i - n < 64 := by omega
        simp [hi, Nat.not_lt.2 hge, this]
    · rw [List.getElem?_eq_none (by omega)]
      simp
  refine ⟨?_, ?_, hkeep _ _ h.mask, hkeep _ _ h.value⟩
  · rw [List.length_take]
    dsimp only
    omega
  · rw [List.length_take]
    omega

/-- `getCommonPrefix` is the longest common prefix. -/
theorem Spells.getCommonPrefix (h : r.Spells l) (h' : other.Spells l') :
    ∃ p, (r.getCommonPrefix other).Spells p ∧ p <+: l ∧ p <+: l' ∧
      ∀ b, ¬ (p ++ [b] <+: l ∧ p ++ [b] <+: l') := by
  have hle := h.length_le
  obtain ⟨n, hrun, hn, hagree, hstop⟩ := commonPrefixLoop_eq h h' 64 0 (by omega) (Nat.zero_le _)
  have hones : (0#64 - 1#64 : BitVec 64) = BitVec.allOnes 64 >>> 0 := by decide
  have hshort : r.getCommonPrefix other = ⟨r.firstBit, 63 - n,
      r.mask &&& ~~~(BitVec.allOnes 64 >>> n), r.value &&& ~~~(BitVec.allOnes 64 >>> n)⟩ := by
    have hrun' : commonPrefixLoop r other (max r.nextBit other.nextBit) 64 63 (0#64 - 1#64) = _ :=
      hones ▸ hrun
    rw [Region.getCommonPrefix, hrun']
  refine ⟨l.take n, ?_, List.take_prefix n l, ?_, fun b hb => ?_⟩
  · rw [hshort]
    exact h.take (by omega)
  · rw [List.prefix_iff_getElem?]
    intro i hi
    rw [List.length_take] at hi
    rw [List.getElem_take, ← hagree i (Nat.zero_le i) (by omega), List.getElem?_eq_getElem]
  · obtain ⟨hb, hb'⟩ := hb
    have hlen := hb.length_le
    have hlen' := hb'.length_le
    rw [List.length_append, List.length_take, List.length_singleton] at hlen hlen'
    refine hstop (by omega) ?_
    rw [List.prefix_iff_getElem?] at hb hb'
    have hat : n < (l.take n ++ [b]).length := by
      rw [List.length_append, List.length_take, List.length_singleton]
      omega
    rw [hb n hat, hb' n hat]

/-- The region at bit 0 with a given string. -/
def ofBits (l : List BitValue) : Region := l.foldl Region.addBit empty

theorem spells_ofBits {l : List BitValue} (h : l.length ≤ 64) : (ofBits l).Spells l := by
  induction l using List.reverseRecOn with
  | nil => exact valid_empty.spells
  | append_singleton l b ih =>
    rw [List.length_append, List.length_singleton] at h
    rw [ofBits, List.foldl_append]
    exact (ih (by omega)).addBit (by omega) b

theorem firstBit_ofBits (l : List BitValue) : (ofBits l).firstBit = 0 := by
  induction l using List.reverseRecOn with
  | nil => rfl
  | append_singleton l b ih =>
    rw [ofBits, List.foldl_append]
    cases b <;> exact ih

theorem Spells.eq_ofBits (h : r.Spells l) (hfirst : r.firstBit = 0) : r = ofBits l := by
  have hof := spells_ofBits h.length_le
  refine h.valid.ext hof.valid (hfirst.trans (firstBit_ofBits l).symm) ?_
  rw [h.bits_eq, hof.bits_eq]

end

end

end Region

/-! ## Full-width regions -/

/-- A region of full width: what the dependency domains and the maps are given. -/
structure FullRegion where
  mask : BitVec 64
  value : BitVec 64
  known : value &&& ~~~mask = 0#64

namespace FullRegion

instance : DecidableEq FullRegion := fun a b =>
  decidable_of_iff (a.mask = b.mask ∧ a.value = b.value) (by cases a; cases b; simp)

/-- Source: `Region(size_t value, size_t mask)`. -/
def toRegion (r : FullRegion) : Region := .ofValueMask r.value r.mask

/-- The addresses of a region. -/
def Contains (r : FullRegion) (x : BitVec 64) : Prop := x &&& r.mask = r.value

/-- Two regions have an address in common. -/
def Intersects (r s : FullRegion) : Prop := ∃ x, r.Contains x ∧ s.Contains x

/-- The string of 64 bits. -/
def bits (r : FullRegion) : List BitValue := r.toRegion.bits

section
variable {r s : FullRegion}

theorem getMsbD_mask_of_value (r : FullRegion) {i : Nat} (h : r.value.getMsbD i = true) :
    r.mask.getMsbD i = true := by
  have hbit := congrArg (fun w : BitVec 64 => w.getMsbD i) r.known
  have hi : i < 64 := by
    by_contra hge
    rw [BitVec.getMsbD_of_ge _ i (by omega)] at h
    cases h
  simpa [h, hi] using hbit

theorem valid (r : FullRegion) : r.toRegion.Valid where
  low := le_rfl
  high := show (-1 : Int) ≤ 63 by decide
  known _ h := r.getMsbD_mask_of_value h
  tail i hi := by
    have hge : (64 : Int) ≤ i := hi
    exact BitVec.getMsbD_of_ge _ i (by omega)

theorem spells (r : FullRegion) : r.toRegion.Spells r.bits := r.valid.spells

@[simp] theorem length_bits (r : FullRegion) : r.bits.length = 64 := by
  rw [bits, Region.length_bits]
  rfl

theorem toRegion_injective : Function.Injective toRegion := by
  intro r s h
  cases r
  cases s
  simp only [toRegion, Region.ofValueMask, Region.mk.injEq] at h
  simp_all

theorem bits_injective : Function.Injective bits := fun r s h =>
  toRegion_injective (r.valid.ext s.valid rfl h)

theorem toRegion_eq (r : FullRegion) : r.toRegion = Region.ofBits r.bits :=
  r.spells.eq_ofBits rfl

/-- Regions intersect when no address bit tells them apart. -/
theorem intersects_iff : r.Intersects s ↔ ∀ i, r.mask.getMsbD i = true → s.mask.getMsbD i = true →
    r.value.getMsbD i = s.value.getMsbD i := by
  constructor
  · rintro ⟨x, hr, hs⟩ i hm hm'
    have h₁ := congrArg (fun w : BitVec 64 => w.getMsbD i) hr
    have h₂ := congrArg (fun w : BitVec 64 => w.getMsbD i) hs
    simp only [BitVec.getMsbD_and, hm, hm', Bool.and_true] at h₁ h₂
    rw [← h₁, ← h₂]
  · intro h
    have hor : ∀ i, (r.value ||| s.value).getMsbD i = (r.value.getMsbD i || s.value.getMsbD i) :=
      fun i => BitVec.getMsbD_or
    refine ⟨r.value ||| s.value, ?_, ?_⟩
    · refine BitVec.eq_of_getMsbD_eq fun i _ => ?_
      have h₁ := h i
      have h₂ := r.getMsbD_mask_of_value (i := i)
      have h₃ := s.getMsbD_mask_of_value (i := i)
      rw [BitVec.getMsbD_and, hor]
      cases hm : r.mask.getMsbD i <;> cases hv : r.value.getMsbD i <;>
        cases hv' : s.value.getMsbD i <;> simp_all
    · refine BitVec.eq_of_getMsbD_eq fun i _ => ?_
      have h₁ := h i
      have h₂ := r.getMsbD_mask_of_value (i := i)
      have h₃ := s.getMsbD_mask_of_value (i := i)
      rw [BitVec.getMsbD_and, hor]
      cases hm : s.mask.getMsbD i <;> cases hv : r.value.getMsbD i <;>
        cases hv' : s.value.getMsbD i <;> simp_all

theorem intersects_iff_forall₂ :
    r.Intersects s ↔ List.Forall₂ (fun a b => BitValue.compat a b = true) r.bits s.bits := by
  rw [intersects_iff, List.forall₂_iff_get]
  constructor
  · intro h
    refine ⟨by simp, fun i hi hi' => ?_⟩
    exact (Region.compat_iff_of_getElem r.spells s.spells hi hi').2 (h i)
  · rintro ⟨hlen, h⟩ i
    rcases Nat.lt_or_ge i 64 with hi | hi
    · exact (Region.compat_iff_of_getElem r.spells s.spells (by simpa using hi)
        (by simpa using hi)).1 (h i (by simpa using hi) (by simpa using hi))
    · intro hm
      rw [BitVec.getMsbD_of_ge _ i hi] at hm
      cases hm

/-- `matches` decides whether full-width regions intersect. -/
theorem matchesRegion_iff : r.toRegion.matchesRegion s.toRegion = true ↔ r.Intersects s := by
  have hwords : r.toRegion.matchesRegion s.toRegion = true ↔
      r.value &&& r.mask &&& s.mask = s.value &&& r.mask &&& s.mask := by
    have hplace : ¬ (r.toRegion.firstBit ≠ s.toRegion.firstBit ∨
        r.toRegion.nextBit ≠ s.toRegion.nextBit) := by simp [toRegion, Region.ofValueMask]
    unfold Region.matchesRegion
    rw [if_neg hplace]
    split
    · next hzero =>
      have hzero' : r.mask &&& s.mask = 0#64 := hzero
      simp [BitVec.and_assoc, hzero']
    · exact decide_eq_true_iff
  rw [hwords, Region.and_and_eq_iff, intersects_iff]

end

end FullRegion

end OmpSs.Support
