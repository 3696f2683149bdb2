import OmpSs.Support.RegionCut

/-!
# The shifts of `partition`

C++ does not define a shift of a 64-bit word by 64 or more, or by a negative count. Here `RegionPart::partition`
(`nanox-mx/src/support/regionpart.hpp:54`) and the operations of `Region` that it uses are written with every
shift checked: without a result, some count was outside 0..63. The comparisons with fewer bits avoid the
count 64 (`containedMatch`, `region_decl.hpp:219`); `advance` and `+=` do not, and get it from a region that is
cut at its last bit (`partitionChecked_eq_none_iff`). `partition` does not call `trim`.
-/

namespace OmpSs.Support

/-- `x << count`. -/
def shl (x : BitVec 64) (count : Int) : Option (BitVec 64) :=
  if 0 ≤ count ∧ count < 64 then some (x <<< count.toNat) else none

/-- `x >> count`. -/
def shr (x : BitVec 64) (count : Int) : Option (BitVec 64) :=
  if 0 ≤ count ∧ count < 64 then some (x >>> count.toNat) else none

namespace Region

/-- Source: `advance` (`region_decl.hpp:129`). -/
def advanceChecked (r : Region) (bits : Int) : Option Region := do
  let mask ← shl r.mask bits
  let value ← shl r.value bits
  some { firstBit := r.firstBit + bits.toNat, nextBit := r.nextBit + bits, mask, value }

/-- Source: `addBit(bool mask, bool value)` (`region_decl.hpp:101`). -/
def addMaskValueChecked (r : Region) (mask value : Bool) : Option Region := do
  let maskField ← shl (if mask then 1#64 else 0#64) r.nextBit
  let valueField ← shl (if value then 1#64 else 0#64) r.nextBit
  some { r with
    mask := (r.mask &&& ~~~maskField) ||| maskField
    value := (r.value &&& ~~~valueField) ||| valueField
    nextBit := r.nextBit - 1 }

/-- Source: `addBit(bit_value_t)` (`region_decl.hpp:110`). -/
def addBitChecked (r : Region) : BitValue → Option Region
  | .BIT_0 => r.addMaskValueChecked true false
  | .BIT_1 => r.addMaskValueChecked true true
  | .X => r.addMaskValueChecked false false

/-- Source: `operator+=` (`region_decl.hpp:158`). -/
def appendChecked (r other : Region) : Option Region := do
  let mask ← shr other.mask r.getLength
  let value ← shr other.value r.getLength
  some { r with mask := r.mask + mask, value := r.value + value, nextBit := r.nextBit - other.getLength }

/-- Source: `operator[]` (`region_decl.hpp:474`). -/
def bitAtChecked (r : Region) (index : Int) : Option BitValue := do
  let bit ← shl 1#64 (63 - index)
  some (if r.mask &&& bit ≠ 0#64 then if r.value &&& bit ≠ 0#64 then .BIT_1 else .BIT_0 else .X)

/-- The loop of `partition` (`regionpart.hpp:88`). -/
def subsumeLoopChecked (r other : Region) (shortestLengthIndex : Int) :
    Nat → Int → BitVec 64 → Option (Bool × Int × BitVec 64)
  | 0, firstMismatch, cleanerMask => some (false, firstMismatch, cleanerMask)
  | fuel + 1, firstMismatch, cleanerMask =>
    if firstMismatch > shortestLengthIndex then do
      let bit ← shl 1#64 firstMismatch
      let next ← shr cleanerMask 1
      if r.mask &&& bit ≠ 0#64 then
        if other.mask &&& bit ≠ 0#64 ∧ r.value &&& bit ≠ other.value &&& bit then
          some (false, firstMismatch, cleanerMask)
        else subsumeLoopChecked r other shortestLengthIndex fuel (firstMismatch - 1) next
      else if other.mask &&& bit ≠ 0#64 then some (true, firstMismatch, cleanerMask)
      else subsumeLoopChecked r other shortestLengthIndex fuel (firstMismatch - 1) next
    else some (false, firstMismatch, cleanerMask)

/-- Source: `compare` (`region_decl.hpp:387`). -/
def compareChecked (r other : Region) : Option (Bool × Bool × Bool) :=
  (shl 1#64 (r.nextBit + 1)).map fun _ => r.compare other

end Region

namespace RegionPart

/-- Source: `regionpart.hpp:60`, `:150`; only a part that matches is compared. -/
def wantedChecked (outputMatching outputNonMatching : Bool) (other part : Region) : Option Bool :=
  if outputMatching && outputNonMatching then some true
  else if outputMatching then some (part.matchesRegion other)
  else if outputNonMatching then
    if part.matchesRegion other then (part.compareChecked other).map fun result => result.1 && result.2.1
    else some true
  else some false

/-- The elements that are wanted, where it is known of all of them. -/
def keep {α : Type*} (wanted : α → Option Bool) : List α → Option (List α)
  | [] => some []
  | a :: l => (wanted a).bind fun first => (keep wanted l).map fun rest => if first then a :: rest else rest

/-- Source: `RegionPart::partition` (`regionpart.hpp:54`). -/
def partitionChecked (maxPartitioningLevels : Int) :
    Nat → RegionPart → Region → Int → Bool → Bool → Option (List RegionPart)
  | 0, _, _, _, _, _ => none
  | fuel + 1, this, other, currentPartitionDepth, outputMatching, outputNonMatching =>
    if maxPartitioningLevels ≠ -1 ∧ currentPartitionDepth + this.partLevel = maxPartitioningLevels then
      keep (fun copy => wantedChecked outputMatching outputNonMatching other copy.region)
        [{ this with partLevel := this.partLevel + currentPartitionDepth }]
    else do
      let (subsumed, firstMismatch, cleanerMask) ← this.region.subsumeLoopChecked other
        (max this.region.nextBit other.nextBit) 64 63 (0#64 - 1#64)
      if subsumed then do
        let skipBits := 64 - firstMismatch
        let rest ← this.region.advanceChecked skipBits
        let otherRest ← other.advanceChecked skipBits
        let subparts ← partitionChecked maxPartitioningLevels fuel ⟨rest, this.partLevel⟩ otherRest
          (currentPartitionDepth + 1) true true
        let subsumedBit ← other.bitAtChecked (skipBits - 1)
        let complementaryBit := if subsumedBit = .BIT_0 then BitValue.BIT_1 else .BIT_0
        let front : Region :=
          { firstBit := this.region.firstBit
            nextBit := firstMismatch
            mask := this.region.mask &&& ~~~cleanerMask
            value := this.region.value &&& ~~~cleanerMask }
        let nonMatchingPart ← (if outputNonMatching then
            (front.addBitChecked complementaryBit).bind fun half =>
            (this.region.advanceChecked skipBits).bind fun rest =>
            (half.appendChecked rest).map fun part => [⟨part, currentPartitionDepth + this.partLevel + 1⟩]
          else some [] : Option (List RegionPart))
        let matchingSubparts ← subparts.mapM fun subpart => do
          let half ← front.addBitChecked subsumedBit
          (half.appendChecked subpart.region).map (⟨·, subpart.partLevel⟩)
        let output ← keep (fun part => wantedChecked outputMatching outputNonMatching other part.region)
          matchingSubparts
        some (nonMatchingPart ++ output)
      else
        let matching := this.region.matchesRegion other
        some (if outputMatching && matching || outputNonMatching && !matching then
          [⟨this.region, this.partLevel + currentPartitionDepth⟩] else [])

end RegionPart

/-! ## The operations -/

theorem shl_eq {x : BitVec 64} {count : Int} (h : 0 ≤ count) (h' : count < 64) :
    shl x count = some (x <<< count.toNat) := if_pos ⟨h, h'⟩

theorem shr_eq {x : BitVec 64} {count : Int} (h : 0 ≤ count) (h' : count < 64) :
    shr x count = some (x >>> count.toNat) := if_pos ⟨h, h'⟩

namespace Region

variable {r other : Region} {bits : Int}

theorem advanceChecked_eq (h : 0 ≤ bits) (h' : bits < 64) : r.advanceChecked bits = some (r.advance bits.toNat) := by
  rw [advanceChecked, shl_eq h h', shl_eq h h']
  simp only [Option.bind_eq_bind, Option.bind_some, advance, Int.toNat_of_nonneg h]

theorem addBitChecked_eq (b : BitValue) (h : 0 ≤ r.nextBit) (h' : r.nextBit < 64) :
    r.addBitChecked b = some (r.addBit b) := by
  have hadd : ∀ mask value, r.addMaskValueChecked mask value = some (r.addMaskValue mask value) := by
    intro mask value
    rw [addMaskValueChecked, shl_eq h h', shl_eq h h']
    rfl
  cases b <;> exact hadd _ _

theorem appendChecked_eq (h : 0 ≤ r.getLength) (h' : r.getLength < 64) :
    r.appendChecked other = some (r.append other) := by
  rw [appendChecked, shr_eq h h', shr_eq h h']
  rfl

theorem getLength_addBit (r : Region) (b : BitValue) : (r.addBit b).getLength = 64 - r.nextBit := by
  have hnext : (r.addBit b).nextBit = r.nextBit - 1 := by cases b <;> rfl
  rw [getLength, hnext]
  ring

theorem appendChecked_addBit (b : BitValue) (s : Region) (h : 0 < r.nextBit) (h' : r.nextBit < 64) :
    (r.addBit b).appendChecked s = some ((r.addBit b).append s) := by
  have hlength := r.getLength_addBit b
  exact appendChecked_eq (by omega) (by omega)

theorem appendWide_addBit {wide : BitVec 64 → Option (BitVec 64)} (b : BitValue) (s : Region) (h : 0 < r.nextBit) :
    (r.addBit b).appendWide wide s = some ((r.addBit b).append s) := by
  have hlength := r.getLength_addBit b
  exact if_neg (by omega)

theorem bitAtChecked_eq {index : Int} (h : 0 ≤ index) (h' : index < 64) :
    r.bitAtChecked index = some (r.bitAt index.toNat) := by
  have hcount : (63 - index).toNat = 63 - index.toNat := by omega
  rw [bitAtChecked, shl_eq (by omega) (by omega), hcount]
  rfl

theorem subsumeLoopChecked_eq {shortestLengthIndex : Int} (hshortest : -1 ≤ shortestLengthIndex) (fuel : Nat)
    {firstMismatch : Int} (hfirst : firstMismatch < 64) (cleanerMask : BitVec 64) :
    r.subsumeLoopChecked other shortestLengthIndex fuel firstMismatch cleanerMask =
      some (r.subsumeLoop other shortestLengthIndex fuel firstMismatch cleanerMask) := by
  induction fuel generalizing firstMismatch cleanerMask with
  | zero => rfl
  | succ fuel ih =>
    rw [subsumeLoopChecked, subsumeLoop]
    split
    · rw [shl_eq (by omega) hfirst, shr_eq (by decide) (by decide)]
      simp only [Option.bind_eq_bind, Option.bind_some]
      rw [ih (by omega), Int.toNat_one]
      split
      · split <;> rfl
      · split <;> rfl
    · rfl

/-- The bit where the loop stops lies above the last bits. -/
theorem subsumeLoop_bounds {shortestLengthIndex : Int} (fuel : Nat) (firstMismatch : Int) (cleanerMask : BitVec 64)
    (h : (r.subsumeLoop other shortestLengthIndex fuel firstMismatch cleanerMask).1 = true) :
    shortestLengthIndex < (r.subsumeLoop other shortestLengthIndex fuel firstMismatch cleanerMask).2.1 ∧
      (r.subsumeLoop other shortestLengthIndex fuel firstMismatch cleanerMask).2.1 ≤ firstMismatch := by
  induction fuel generalizing firstMismatch cleanerMask with
  | zero => simp [subsumeLoop] at h
  | succ fuel ih =>
    have hnext := fun h => (ih (firstMismatch - 1) (cleanerMask >>> 1) h).imp_right fun hle =>
      hle.trans (Int.sub_le_self firstMismatch one_pos.le)
    rw [subsumeLoop] at h ⊢
    dsimp only at h ⊢
    split_ifs at h ⊢ with hlt hmask hother hother
    · exact hnext h
    · exact ⟨hlt, le_rfl⟩
    · exact hnext h

end Region

namespace RegionPart

variable {this : RegionPart} {other : Region} {outputMatching outputNonMatching : Bool}

theorem keep_eq {α : Type*} {p : α → Option Bool} {q : α → Bool} {l : List α} (h : ∀ a ∈ l, p a = some (q a)) :
    keep p l = some (l.filter q) := by
  induction l with
  | nil => rfl
  | cons a l ih =>
    rw [List.forall_mem_cons] at h
    rw [keep, h.1, ih h.2, List.filter_cons]
    rfl

/-- A part with a bit at least is compared with counts in range. -/
theorem wantedChecked_eq {part : Region} (hpart : -1 ≤ part.nextBit)
    (h : (outputMatching && outputNonMatching) = true ∨ part.nextBit < 63) :
    wantedChecked outputMatching outputNonMatching other part =
      some (wanted outputMatching outputNonMatching other part) := by
  unfold wantedChecked wanted
  split
  · rfl
  · next hboth =>
    have hcompare : part.compareChecked other = some (part.compare other) := by
      have hnext := h.resolve_left hboth
      rw [Region.compareChecked, shl_eq (by omega) (by omega)]
      rfl
    rw [hcompare]
    split
    · rfl
    · cases part.matchesRegion other <;> split <;> rfl

theorem mapM_some {α β : Type*} (f : α → β) (l : List α) : (l.mapM fun a => some (f a)) = some (l.map f) :=
  List.mapM_pure

theorem exists_of_mem_mapM {α β : Type*} {f : α → Option β} {l : List α} {m : List β} (h : l.mapM f = some m)
    {b : β} (hb : b ∈ m) : ∃ a ∈ l, f a = some b := by
  induction l generalizing m with
  | nil =>
    obtain rfl := Option.some.inj h
    cases hb
  | cons a l ih =>
    simp only [List.mapM_cons, Option.bind_eq_bind, Option.bind_eq_some_iff] at h
    obtain ⟨c, hc, n, hn, h⟩ := h
    obtain rfl := Option.some.inj h
    rcases List.mem_cons.1 hb with rfl | hb
    · exact ⟨a, List.mem_cons_self, hc⟩
    · obtain ⟨a', ha', hfa'⟩ := ih hn hb
      exact ⟨a', List.mem_cons_of_mem a ha', hfa'⟩

theorem nextBit_advanceWide {wide : BitVec 64 → Option (BitVec 64)} {r s : Region} {bits : Nat}
    (h : r.advanceWide wide bits = some s) : s.nextBit = r.nextBit + bits := by
  unfold Region.advanceWide at h
  split at h
  · simp only [Option.bind_eq_bind, Option.bind_eq_some_iff] at h
    obtain ⟨mask, -, value, -, h⟩ := h
    obtain rfl := Option.some.inj h
    rfl
  · obtain rfl := Option.some.inj h
    rfl

theorem nextBit_appendWide {wide : BitVec 64 → Option (BitVec 64)} {r s part : Region}
    (h : r.appendWide wide s = some part) : part.nextBit = r.nextBit - s.getLength := by
  unfold Region.appendWide at h
  split at h
  · simp only [Option.bind_eq_bind, Option.bind_eq_some_iff] at h
    obtain ⟨mask, -, value, -, h⟩ := h
    obtain rfl := Option.some.inj h
    rfl
  · obtain rfl := Option.some.inj h
    rfl

theorem nextBit_addBit (r : Region) (b : BitValue) : (r.addBit b).nextBit = r.nextBit - 1 := by
  cases b <;> rfl

/-- The parts of a string are as long as the string. -/
theorem nextBit_of_mem_partition {wide : BitVec 64 → Option (BitVec 64)} {maxPartitioningLevels : Int} (fuel : Nat)
    {depth : Int} {parts : List RegionPart}
    (h : partition wide maxPartitioningLevels fuel this other depth outputMatching outputNonMatching = some parts) :
    ∀ part ∈ parts, part.region.nextBit = this.region.nextBit := by
  induction fuel generalizing this other depth outputMatching outputNonMatching parts with
  | zero => cases h
  | succ fuel ih =>
    rw [partition] at h
    split at h
    · obtain rfl := Option.some.inj h
      intro part hpart
      obtain rfl := List.mem_singleton.1 (List.mem_filter.1 hpart).1
      rfl
    · dsimp only at h
      split at h
      · next hsubsumed =>
        have hbounds := (Region.subsumeLoop_bounds _ _ _ hsubsumed).2
        generalize this.region.subsumeLoop other (max this.region.nextBit other.nextBit) 64 63 (0#64 - 1#64) =
          stop at h hbounds
        simp only [Option.bind_eq_bind, Option.bind_eq_some_iff] at h
        obtain ⟨rest, hrest, otherRest, -, subparts, hsubparts, nonMatchingPart, hnonMatching, matchingSubparts,
          hmatching, h⟩ := h
        have hlength := nextBit_advanceWide hrest
        have hskip : ((64 - stop.2.1).toNat : Int) = 64 - stop.2.1 := Int.toNat_of_nonneg (by omega)
        obtain rfl := Option.some.inj h
        intro part hpart
        rcases List.mem_append.1 hpart with hpart | hpart
        · split at hpart
          · obtain rfl := List.mem_singleton.1 hpart
            have hnext := nextBit_appendWide hnonMatching
            rw [nextBit_addBit, Region.getLength, hlength, hskip] at hnext
            exact hnext.trans (by dsimp only; ring)
          · cases hpart
        · obtain ⟨subpart, hmem, hsubpart⟩ :=
            exists_of_mem_mapM hmatching (List.mem_filter.1 hpart).1
          obtain ⟨region, hregion, rfl⟩ := Option.map_eq_some_iff.1 hsubpart
          have hnext := nextBit_appendWide hregion
          have hsub := ih hsubparts subpart hmem
          dsimp only at hsub
          rw [nextBit_addBit, Region.getLength, hsub, hlength, hskip] at hnext
          exact hnext.trans (by dsimp only; ring)
      · obtain rfl := Option.some.inj h
        intro part hpart
        split at hpart
        · obtain rfl := List.mem_singleton.1 hpart
          rfl
        · cases hpart

/-- The shifts of `partition` have counts in range up to where it shifts a word by its width. -/
theorem partitionChecked_eq {maxPartitioningLevels : Int} (fuel : Nat) {depth : Int}
    (hthis : -1 ≤ this.region.nextBit) (hother : -1 ≤ other.nextBit)
    (h : (outputMatching && outputNonMatching) = true ∨ this.region.nextBit < 63) :
    partitionChecked maxPartitioningLevels fuel this other depth outputMatching outputNonMatching =
      partition (fun _ => none) maxPartitioningLevels fuel this other depth outputMatching outputNonMatching := by
  induction fuel generalizing this other depth outputMatching outputNonMatching with
  | zero => rfl
  | succ fuel ih =>
    rw [partitionChecked, Region.subsumeLoopChecked_eq (hthis.trans (le_max_left _ _)) _ (by decide)]
    split
    · next hlevels =>
      rw [partition, if_pos hlevels]
      refine keep_eq fun copy hcopy => ?_
      obtain rfl := List.mem_singleton.1 hcopy
      exact wantedChecked_eq hthis h
    · next hlevels =>
      rw [partition, if_neg hlevels]
      have hbounds := @Region.subsumeLoop_bounds this.region other (max this.region.nextBit other.nextBit) 64 63
        (0#64 - 1#64)
      generalize this.region.subsumeLoop other (max this.region.nextBit other.nextBit) 64 63 (0#64 - 1#64) =
        stop at hbounds ⊢
      obtain ⟨subsumed, firstMismatch, cleanerMask⟩ := stop
      cases subsumed with
      | false => rfl
      | true =>
        obtain ⟨hlower, hupper⟩ := hbounds rfl
        dsimp only at hlower hupper
        rcases (show firstMismatch = 0 ∨ 0 < firstMismatch by omega) with rfl | hpos
        · -- Both are without a result: the first shift is by 64.
          rfl
        · have hadvance : ∀ r : Region, r.advanceChecked (64 - firstMismatch) =
              some (r.advance (64 - firstMismatch).toNat) :=
            fun r => Region.advanceChecked_eq (by omega) (by omega)
          have hadvance' : ∀ r : Region, r.advanceWide (fun _ => none) (64 - firstMismatch).toNat =
              some (r.advance (64 - firstMismatch).toNat) :=
            fun r => if_neg (by omega)
          have hbit : other.bitAtChecked (64 - firstMismatch - 1) =
              some (other.bitAt ((64 - firstMismatch).toNat - 1)) := by
            rw [Region.bitAtChecked_eq (by omega) (by omega)]
            congr
            omega
          have hfront : ∀ (mask value : BitVec 64) (b : BitValue),
              (Region.mk this.region.firstBit firstMismatch mask value).addBitChecked b = some _ :=
            fun mask value b => Region.addBitChecked_eq b hpos.le (Int.lt_add_one_of_le hupper)
          have happend : ∀ (mask value : BitVec 64) (b : BitValue) (s : Region),
              ((Region.mk this.region.firstBit firstMismatch mask value).addBit b).appendChecked s = some _ :=
            fun mask value b s => Region.appendChecked_addBit b s hpos (Int.lt_add_one_of_le hupper)
          have happend' : ∀ (mask value : BitVec 64) (b : BitValue) (s : Region),
              ((Region.mk this.region.firstBit firstMismatch mask value).addBit b).appendWide (fun _ => none) s =
                some _ :=
            fun mask value b s => Region.appendWide_addBit b s hpos
          simp only [Option.bind_eq_bind, Option.bind_some, if_true, hadvance, hadvance', hfront, happend, happend',
            hbit, Option.map_some, mapM_some]
          rw [ih (by dsimp only [Region.advance]; omega) (by dsimp only [Region.advance]; omega) (.inl rfl)]
          cases hsubparts : partition (fun _ => none) maxPartitioningLevels fuel
            ⟨this.region.advance (64 - firstMismatch).toNat, this.partLevel⟩
            (other.advance (64 - firstMismatch).toNat) (depth + 1) true true with
          | none => rfl
          | some subparts =>
            have hnext : ∀ subpart ∈ subparts, ∀ (mask value : BitVec 64) (b : BitValue),
                (((Region.mk this.region.firstBit firstMismatch mask value).addBit b).append subpart.region).nextBit =
                  this.region.nextBit := by
              intro subpart hsubpart mask value b
              have hsub := nextBit_of_mem_partition fuel hsubparts subpart hsubpart
              dsimp only [Region.advance] at hsub
              rw [Region.append, nextBit_addBit, Region.getLength, hsub, Int.toNat_of_nonneg (by omega)]
              dsimp only
              ring
            rw [Option.bind_some, Option.bind_some,
              keep_eq (q := fun part => wanted outputMatching outputNonMatching other part.region) fun part hpart => ?_]
            · cases outputNonMatching <;> rfl
            · obtain ⟨subpart, hsubpart, rfl⟩ := List.mem_map.1 hpart
              refine wantedChecked_eq ?_ (h.imp_right ?_)
              · rw [hnext subpart hsubpart]
                exact hthis
              · rw [hnext subpart hsubpart]
                exact id

end RegionPart

namespace FullRegion

open RegionPart Strings

/-- Some shift has a count outside 0..63 if the region is cut, and for the first time at its last bit: then
`advance` shifts by 64. -/
theorem partitionChecked_eq_none_iff (r s : FullRegion) (level maxPartitioningLevels currentPartitionDepth : Int)
    (outputMatching outputNonMatching : Bool) :
    partitionChecked maxPartitioningLevels 65 ⟨r.toRegion, level⟩ s.toRegion currentPartitionDepth outputMatching
        outputNonMatching = none ↔
      ¬ (maxPartitioningLevels ≠ -1 ∧ currentPartitionDepth + level = maxPartitioningLevels) ∧ r.CutLast s := by
  have hlength : r.bits.length = s.bits.length := by simp
  have hnext : r.toRegion.nextBit < 63 := (Int.negSucc_lt_zero 0).trans (by decide)
  rw [partitionChecked_eq 65 (show -1 ≤ (RegionPart.mk r.toRegion level).region.nextBit from le_rfl) le_rfl
    (.inr hnext)]
  constructor
  · refine fun hnone => by_contra fun hnot => ?_
    rcases Decidable.not_and_iff_not_or_not.1 hnot with hlevels | hcut
    · have hlimit : ¬ Within maxPartitioningLevels currentPartitionDepth ⟨r.toRegion, level⟩ := hlevels
      rw [partition_limit hlimit] at hnone
      cases hnone
    · obtain ⟨ls, parts, -, -, -, hrun⟩ := partition_filter (show 64 < 65 by decide)
        (r.isPart_toRegion level) s.spells rfl r.length_bits hlength (.inl hcut)
      rw [hrun] at hnone
      cases hnone
  · rintro ⟨hlevels, hcut⟩
    have hloop := subsumeLoop_of_splitPos r.spells s.spells hlength hcut
    rw [partition, if_neg hlevels]
    simp only [hloop, if_true]
    rfl

/-- All shifts for full-width regions have counts in 0..63 if and only if the limit of levels is reached at
once or the first cut is not at the last bit. -/
theorem partitionChecked_defined_iff (r s : FullRegion) (level maxPartitioningLevels currentPartitionDepth : Int)
    (outputMatching outputNonMatching : Bool) :
    (∃ parts, partitionChecked maxPartitioningLevels 65 ⟨r.toRegion, level⟩ s.toRegion currentPartitionDepth
        outputMatching outputNonMatching = some parts) ↔
      maxPartitioningLevels ≠ -1 ∧ currentPartitionDepth + level = maxPartitioningLevels ∨ ¬ r.CutLast s := by
  rw [← Option.ne_none_iff_exists', ne_eq, partitionChecked_eq_none_iff, Decidable.not_and_iff_not_or_not, not_not]

/-- All addresses, along the even ones: the lowest bit is the first that is known. -/
theorem partitionChecked_undefined :
    partitionChecked (-1) 65 ⟨(FullRegion.mk 0 0 rfl).toRegion, 0⟩ (FullRegion.mk 1 0 rfl).toRegion 0 true true =
      none :=
  (partitionChecked_eq_none_iff _ _ _ _ _ _ _).2 ⟨by decide, by decide⟩

end FullRegion

end OmpSs.Support
