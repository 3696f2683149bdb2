import OmpSs.Support.RegionCut
import OmpSs.Support.RegionSets

/-!
# Collections of regions

`RegionCollection` (`nanox-mx/src/support/regioncollection.hpp`) is a list of parts that stands for the
union of their addresses. `minus` cuts the parts along the regions to be removed, and `defragment` puts parts
together: a round goes through the parts in order, combines a part with the first later one it can be
combined with, and clears both; the rounds end with the first one that combines nothing. On the parts that
are not empty a round is a sequence of `Round` steps, whatever the regions are; `defragments` says what the
last round leaves, and `collection_iff` says for which regions `minus` is right as well.
-/

namespace OmpSs.Support

open Lib

/-! ## The program -/

namespace RegionPart

def isEmpty (part : RegionPart) : Bool := part.region.isEmpty

/-- Source: `Region::clear` (`region_decl.hpp:89`), which leaves the level of the part. -/
def clear (part : RegionPart) : RegionPart := { part with region := ⟨0, 63, 0#64, 0#64⟩ }

/-- Source: `RegionPart::combine` (`regionpart.hpp:43`). -/
def combine (this other : RegionPart) : Option RegionPart :=
  (this.region.combine other.region).map fun region =>
    ⟨region, if this.partLevel > 0 then this.partLevel - 1 else 0⟩

/-- The inner loop of `defragment` (`regioncollection.hpp:169`): the combined part and the parts behind `it`
afterwards, with the partner cleared. -/
def mergeFirst (it : RegionPart) : List RegionPart → Option (RegionPart × List RegionPart)
  | [] => none
  | it2 :: behind =>
    if it2.isEmpty then (mergeFirst it behind).map fun r => (r.1, it2 :: r.2)
    else
      match it.combine it2 with
      | some combinedRegion => some (combinedRegion, it2.clear :: behind)
      | none => (mergeFirst it behind).map fun r => (r.1, it2 :: r.2)

end RegionPart

/-- A round of `defragment` (`regioncollection.hpp:163`) over `n` parts: whether it was effective, and
`regions2`. The part `it`, which is cleared as well, is not visited again. -/
def defragmentRound : Nat → List RegionPart → Bool × List RegionPart
  | n + 1, it :: behind =>
    if it.isEmpty then defragmentRound n behind
    else
      match it.mergeFirst behind with
      | some (combinedRegion, behind) => (true, combinedRegion :: (defragmentRound n behind).2)
      | none => ((defragmentRound n behind).1, it :: (defragmentRound n behind).2)
  | _, _ => (false, [])

/-- `none` is a loop that has not ended after so many rounds. -/
def defragmentLoop : Nat → List RegionPart → Option (List RegionPart)
  | 0, _ => none
  | rounds + 1, regions =>
    let (effective, regions2) := defragmentRound regions.length regions
    if effective then defragmentLoop rounds regions2 else some regions2

/-- Source: `RegionCollection::defragment` (`regioncollection.hpp:155`). -/
def defragment (parts : List RegionPart) : Option (List RegionPart) :=
  defragmentLoop (parts.length + 1) parts

/-! ## What collections stand for -/

/-- The addresses of a part. -/
def RegionPart.Contains (part : RegionPart) (x : BitVec 64) : Prop :=
  part.isEmpty = false ∧ x &&& part.region.mask = part.region.value

/-- The addresses of a collection. -/
def Covers (parts : List RegionPart) (x : BitVec 64) : Prop := ∃ part ∈ parts, part.Contains x

def RegionPart.Full (part : RegionPart) : Prop := ∃ f : FullRegion, part.region = f.toRegion

/-- A part is empty or a full-width region. -/
def RegionPart.Legal (part : RegionPart) : Prop := part.isEmpty = true ∨ part.Full

/-- What `minus` has to do with parts that are the regions `fs`: the addresses of the regions `ss` are
removed. -/
def Subtracts (wide : BitVec 64 → Option (BitVec 64)) (fs ss : List FullRegion) : Prop :=
  ∀ parts, FullRegion.Stand parts fs →
    ∃ parts', minus wide (-1) parts (ss.map FullRegion.toRegion) = some parts' ∧
      ∀ x, Covers parts' x ↔ Covers parts x ∧ ∀ s ∈ ss, ¬ s.Contains x

/-- What `defragment` has to do: it comes to an end, the addresses are the same, and no two of the parts
that are left can be combined. -/
def Defragments (parts : List RegionPart) : Prop :=
  ∃ parts', defragment parts = some parts' ∧ (∀ x, Covers parts' x ↔ Covers parts x) ∧
    ∀ (i j : Nat) (a b : RegionPart), i ≠ j → parts'[i]? = some a → parts'[j]? = some b →
      a.combine b = none

/-! ## A round -/

/-- The parts that are not empty. -/
def live (parts : List RegionPart) : List RegionPart := parts.filter fun part => !part.isEmpty

/-- What a round does with the parts that are not empty: one is kept if it combines with none of those
behind it, or goes together with one of them. The flag says whether any went together. -/
inductive Round : List RegionPart → Bool → List RegionPart → Prop
  | nil : Round [] false []
  | keep {it : RegionPart} {behind regions2 : List RegionPart} {effective : Bool} :
    (∀ other ∈ behind, it.combine other = none) → Round behind effective regions2 →
    Round (it :: behind) effective (it :: regions2)
  | merge {it other combinedRegion : RegionPart} {l l' regions2 : List RegionPart} {effective : Bool} :
    it.combine other = some combinedRegion → Round (l ++ l') effective regions2 →
    Round (it :: (l ++ other :: l')) true (combinedRegion :: regions2)

section
variable {it other combinedRegion part : RegionPart} {behind behind' parts regions2 : List RegionPart}
  {effective : Bool} {x : BitVec 64}

@[simp] theorem RegionPart.isEmpty_clear : part.clear.isEmpty = true := rfl

@[simp] theorem live_nil : live [] = [] := rfl

theorem live_cons_of_isEmpty (h : part.isEmpty = true) : live (part :: parts) = live parts := by
  rw [live, List.filter_cons_of_neg (by simp [h])]
  rfl

theorem live_cons_of_not_isEmpty (h : part.isEmpty = false) : live (part :: parts) = part :: live parts := by
  rw [live, List.filter_cons_of_pos (by simp [h])]
  rfl

theorem mem_live : part ∈ live parts ↔ part ∈ parts ∧ part.isEmpty = false := by
  simp [live]

theorem live_append (l l' : List RegionPart) : live (l ++ l') = live l ++ live l' := List.filter_append ..

/-- The partner is the first part that is not empty and combines. -/
theorem RegionPart.mergeFirst_eq_some (h : it.mergeFirst behind = some (combinedRegion, behind')) :
    ∃ l other l', behind = l ++ other :: l' ∧ other.isEmpty = false ∧
      it.combine other = some combinedRegion ∧ behind' = l ++ other.clear :: l' := by
  induction behind generalizing behind' with
  | nil => cases h
  | cons it2 behind ih =>
    -- the search went on behind `it2`
    have hrest : (it.mergeFirst behind).map (fun r => (r.1, it2 :: r.2)) = some (combinedRegion, behind') →
        ∃ l other l', it2 :: behind = l ++ other :: l' ∧ other.isEmpty = false ∧
          it.combine other = some combinedRegion ∧ behind' = l ++ other.clear :: l' := by
      intro hmap
      obtain ⟨⟨c, tail⟩, hc, heq⟩ := Option.map_eq_some_iff.1 hmap
      obtain ⟨rfl, rfl⟩ := Prod.mk.inj heq
      obtain ⟨l, other, l', rfl, hother, hcombine, rfl⟩ := ih hc
      exact ⟨it2 :: l, other, l', rfl, hother, hcombine, rfl⟩
    rw [mergeFirst] at h
    split at h
    · exact hrest h
    · next hempty =>
      split at h
      · next c hcombine =>
        obtain ⟨rfl, rfl⟩ := Prod.mk.inj (Option.some.inj h)
        exact ⟨[], it2, behind, rfl, by simpa using hempty, hcombine, rfl⟩
      · exact hrest h

theorem RegionPart.mergeFirst_eq_none (h : it.mergeFirst behind = none) :
    ∀ other ∈ live behind, it.combine other = none := by
  induction behind with
  | nil => simp
  | cons it2 behind ih =>
    rw [mergeFirst] at h
    split at h
    · next hempty =>
      rw [live_cons_of_isEmpty hempty]
      exact ih (Option.map_eq_none_iff.1 h)
    · next hempty =>
      rw [live_cons_of_not_isEmpty (by simpa using hempty)]
      split at h
      · cases h
      · next hcombine => exact List.forall_mem_cons.2 ⟨hcombine, ih (Option.map_eq_none_iff.1 h)⟩

/-- The program goes through the parts as `Round` says. -/
theorem round_defragmentRound {n : Nat} (hn : parts.length ≤ n) :
    Round (live parts) (defragmentRound n parts).1 (defragmentRound n parts).2 := by
  induction n generalizing parts with
  | zero =>
    obtain rfl := List.length_eq_zero_iff.1 (Nat.le_zero.1 hn)
    exact .nil
  | succ n ih =>
    cases parts with
    | nil => exact .nil
    | cons it behind =>
      have hlen : behind.length ≤ n := Nat.le_of_succ_le_succ hn
      rw [defragmentRound]
      split
      · next hempty =>
        rw [live_cons_of_isEmpty hempty]
        exact ih hlen
      · next hempty =>
        rw [live_cons_of_not_isEmpty (by simpa using hempty)]
        split
        · next combinedRegion behind' hmerge =>
          obtain ⟨l, other, l', rfl, hother, hcombine, rfl⟩ := RegionPart.mergeFirst_eq_some hmerge
          rw [live_append, live_cons_of_not_isEmpty hother]
          have hround := @ih (l ++ other.clear :: l') (by simpa using hlen)
          rw [live_append, live_cons_of_isEmpty RegionPart.isEmpty_clear] at hround
          exact .merge hcombine hround
        · next hmerge => exact .keep (RegionPart.mergeFirst_eq_none hmerge) (ih hlen)

/-- A combined part has the bounds of the first of the two. -/
theorem RegionPart.isEmpty_combine (h : it.combine other = some combinedRegion) :
    combinedRegion.isEmpty = it.isEmpty := by
  obtain ⟨region, hregion, rfl⟩ := Option.map_eq_some_iff.1 h
  simp only [Region.combine] at hregion
  split_ifs at hregion
  obtain rfl := Option.some.inj hregion
  rfl

/-- A round leaves no empty part. -/
theorem Round.live_eq (h : Round parts effective regions2) (hparts : ∀ part ∈ parts, part.isEmpty = false) :
    live regions2 = regions2 := by
  induction h with
  | nil => rfl
  | keep _ _ ih =>
    obtain ⟨hit, hbehind⟩ := List.forall_mem_cons.1 hparts
    rw [live_cons_of_not_isEmpty hit, ih hbehind]
  | merge hcombine _ ih =>
    obtain ⟨hit, hbehind⟩ := List.forall_mem_cons.1 hparts
    rw [live_cons_of_not_isEmpty ((RegionPart.isEmpty_combine hcombine).trans hit), ih]
    intro part hpart
    refine hbehind part ?_
    simp only [List.mem_append, List.mem_cons] at hpart ⊢
    exact hpart.imp_right .inr

/-- An effective round leaves fewer parts. -/
theorem Round.length (h : Round parts effective regions2) :
    regions2.length + (if effective then 1 else 0) ≤ parts.length := by
  induction h with
  | nil => exact Nat.le_refl _
  | keep _ _ ih =>
    simp only [List.length_cons]
    omega
  | merge _ _ ih =>
    simp only [List.length_cons, List.length_append, if_true] at ih ⊢
    omega

/-- A round that is not effective leaves the parts as they are, and no part combines with a later one. -/
theorem Round.idle (h : Round parts false regions2) :
    regions2 = parts ∧ parts.Pairwise fun a b => a.combine b = none := by
  generalize heffective : false = effective at h
  induction h with
  | nil => exact ⟨rfl, .nil⟩
  | keep hnone _ ih =>
    obtain ⟨rfl, hpairwise⟩ := ih heffective
    exact ⟨rfl, .cons hnone hpairwise⟩
  | merge => cases heffective

end

/-! ## The addresses of a round -/

section
variable {it other combinedRegion part : RegionPart} {parts parts' regions2 : List RegionPart}
  {effective : Bool} {f : FullRegion} {fs ss : List FullRegion} {x : BitVec 64}

@[simp] theorem covers_nil : ¬ Covers [] x := by simp [Covers]

theorem covers_cons : Covers (part :: parts) x ↔ part.Contains x ∨ Covers parts x := by simp [Covers]

theorem covers_append : Covers (parts ++ parts') x ↔ Covers parts x ∨ Covers parts' x := by
  simp [Covers, or_and_right, exists_or]

/-- The empty parts cover nothing. -/
theorem covers_live : Covers (live parts) x ↔ Covers parts x := by
  simp only [Covers, mem_live]
  constructor
  · rintro ⟨part, ⟨hpart, -⟩, hx⟩
    exact ⟨part, hpart, hx⟩
  · rintro ⟨part, hpart, hx⟩
    exact ⟨part, ⟨hpart, hx.1⟩, hx⟩

theorem RegionPart.contains_iff (h : part.region = f.toRegion) : part.Contains x ↔ f.Contains x := by
  have hnonempty : part.isEmpty = false := by
    rw [isEmpty, h]
    rfl
  rw [Contains, h, and_iff_right hnonempty]
  rfl

/-- Parts that can be combined make one part with the addresses of both. -/
theorem RegionPart.combine_full (hit : it.Full) (hother : other.Full)
    (h : it.combine other = some combinedRegion) :
    combinedRegion.Full ∧ ∀ x, combinedRegion.Contains x ↔ it.Contains x ∨ other.Contains x := by
  obtain ⟨f, hf⟩ := hit
  obtain ⟨g, hg⟩ := hother
  obtain ⟨region, hregion, rfl⟩ := Option.map_eq_some_iff.1 h
  rw [hf, hg] at hregion
  obtain ⟨t, rfl, hunion⟩ := FullRegion.combine_iff.1 hregion
  refine ⟨⟨t, rfl⟩, fun x => ?_⟩
  rw [contains_iff hf, contains_iff hg, ← hunion]
  exact contains_iff rfl

theorem RegionPart.combine_comm (hit : it.Full) (hother : other.Full) (h : it.combine other = none) :
    other.combine it = none := by
  obtain ⟨f, hf⟩ := hit
  obtain ⟨g, hg⟩ := hother
  rw [combine, Option.map_eq_none_iff, hf, hg] at h
  rw [combine, Option.map_eq_none_iff, hf, hg, Option.eq_none_iff_forall_not_mem]
  intro region hregion
  obtain ⟨t, -, hunion⟩ := FullRegion.combine_iff.1 hregion
  rw [FullRegion.combine_iff.2 ⟨t, rfl, fun x => (hunion x).trans or_comm⟩] at h
  cases h

/-- A round leaves full-width regions with the same addresses. -/
theorem Round.covers (h : Round parts effective regions2) (hfull : ∀ part ∈ parts, part.Full) :
    (∀ part ∈ regions2, part.Full) ∧ ∀ x, Covers regions2 x ↔ Covers parts x := by
  induction h with
  | nil => exact ⟨hfull, fun x => Iff.rfl⟩
  | keep _ _ ih =>
    obtain ⟨hit, hbehind⟩ := List.forall_mem_cons.1 hfull
    obtain ⟨hrest, hcovers⟩ := ih hbehind
    exact ⟨List.forall_mem_cons.2 ⟨hit, hrest⟩, fun x => by rw [covers_cons, covers_cons, hcovers]⟩
  | merge hcombine _ ih =>
    obtain ⟨hit, hbehind⟩ := List.forall_mem_cons.1 hfull
    obtain ⟨hl, hother, hl'⟩ := by simpa only [List.forall_mem_append, List.forall_mem_cons] using hbehind
    obtain ⟨hnew, hunion⟩ := RegionPart.combine_full hit hother hcombine
    obtain ⟨hrest, hcovers⟩ := ih (List.forall_mem_append.2 ⟨hl, hl'⟩)
    refine ⟨List.forall_mem_cons.2 ⟨hnew, hrest⟩, fun x => ?_⟩
    rw [covers_cons, covers_cons, covers_append, covers_cons, hunion, hcovers, covers_append]
    tauto

/-! ## All rounds -/

/-- The rounds come to an end with one that is not effective, and keep what every round keeps. -/
theorem exists_defragmentLoop {I : List RegionPart → Prop}
    (hround : ∀ parts effective regions2, I parts → Round parts effective regions2 → I regions2)
    {rounds : Nat} (hrounds : (live parts).length < rounds) (hI : I (live parts)) :
    ∃ parts', defragmentLoop rounds parts = some parts' ∧ I parts' ∧
      parts'.Pairwise fun a b => a.combine b = none := by
  induction rounds generalizing parts with
  | zero => exact absurd hrounds (Nat.not_lt_zero _)
  | succ rounds ih =>
    have h := round_defragmentRound (Nat.le_refl parts.length)
    have hlength := h.length
    have hnext := hround _ _ _ hI h
    have hlive := h.live_eq fun part hpart => (mem_live.1 hpart).2
    rw [defragmentLoop]
    generalize defragmentRound parts.length parts = r at h hlength hnext hlive
    obtain ⟨effective, regions2⟩ := r
    dsimp only at h hlength hnext hlive
    cases effective with
    | true =>
      simp only [if_true] at hlength ⊢
      exact ih (by rw [hlive]; omega) (hlive.symm ▸ hnext)
    | false =>
      obtain ⟨heq, hpairwise⟩ := h.idle
      exact ⟨regions2, rfl, hnext, heq.symm ▸ hpairwise⟩

/-- `defragment` of full-width regions does what it has to. -/
theorem defragments (hlegal : ∀ part ∈ parts, part.Legal) : Defragments parts := by
  have hrounds : (live parts).length < parts.length + 1 := Nat.lt_succ_of_le (List.length_filter_le _ _)
  have hfull : ∀ part ∈ live parts, part.Full := by
    intro part hpart
    obtain ⟨hmem, hnonempty⟩ := mem_live.1 hpart
    exact (hlegal part hmem).resolve_left (by simp [hnonempty])
  obtain ⟨parts', hparts', ⟨hfull', hcovers⟩, hpairwise⟩ := exists_defragmentLoop
    (I := fun l => (∀ part ∈ l, part.Full) ∧ ∀ x, Covers l x ↔ Covers parts x)
    (fun _ _ _ ⟨hl, hx⟩ h => ⟨(h.covers hl).1, fun x => ((h.covers hl).2 x).trans (hx x)⟩) hrounds
    ⟨hfull, fun x => covers_live⟩
  refine ⟨parts', hparts', hcovers, fun i j a b hne ha hb => ?_⟩
  obtain ⟨hi, rfl⟩ := List.getElem?_eq_some_iff.1 ha
  obtain ⟨hj, rfl⟩ := List.getElem?_eq_some_iff.1 hb
  rcases lt_or_gt_of_ne hne with hlt | hgt
  · exact List.pairwise_iff_getElem.1 hpairwise i j hi hj hlt
  · exact RegionPart.combine_comm (hfull' _ (List.getElem_mem hj)) (hfull' _ (List.getElem_mem hi))
      (List.pairwise_iff_getElem.1 hpairwise j i hj hi hgt)

/-! ## Subtraction -/

theorem covers_stand (h : FullRegion.Stand parts fs) : Covers parts x ↔ ∃ f ∈ fs, f.Contains x := by
  induction fs generalizing parts with
  | nil =>
    obtain rfl := List.map_eq_nil_iff.1 h
    simp
  | cons f fs ih =>
    obtain ⟨level, rest, rfl, hrest⟩ := FullRegion.stand_cons h
    rw [covers_cons, ih hrest, RegionPart.contains_iff rfl, List.exists_mem_cons_iff]

/-- What is left of regions, which may overlap, when others are subtracted. -/
theorem contains_minusAll : (∃ g ∈ FullRegion.minusAll fs ss, g.Contains x) ↔
    (∃ f ∈ fs, f.Contains x) ∧ ∀ s ∈ ss, ¬ s.Contains x := by
  induction ss generalizing fs with
  | nil => simp [FullRegion.minusAll]
  | cons s ss ih =>
    have hminus : ∀ f : FullRegion, (∃ g ∈ f.minus s, g.Contains x) ↔ f.Contains x ∧ ¬ s.Contains x :=
      fun f => ((FullRegion.tiles_minus f s).union x).symm
    have hall : (∃ g ∈ fs.flatMap (·.minus s), g.Contains x) ↔ (∃ f ∈ fs, f.Contains x) ∧ ¬ s.Contains x := by
      simp only [List.mem_flatMap]
      constructor
      · rintro ⟨g, ⟨f, hf, hg⟩, hx⟩
        obtain ⟨hfx, hs⟩ := (hminus f).1 ⟨g, hg, hx⟩
        exact ⟨⟨f, hf, hfx⟩, hs⟩
      · rintro ⟨⟨f, hf, hfx⟩, hs⟩
        obtain ⟨g, hg, hx⟩ := (hminus f).2 ⟨hfx, hs⟩
        exact ⟨g, ⟨f, hf, hg⟩, hx⟩
    rw [List.forall_mem_cons, ← and_assoc, ← hall]
    exact ih

theorem subtracts (wide : BitVec 64 → Option (BitVec 64)) (h : FullRegion.NoCutLast fs ss) :
    Subtracts wide fs ss := by
  intro parts hparts
  obtain ⟨parts', hparts', hstand⟩ := FullRegion.minus_eq wide hparts h
  exact ⟨parts', hparts', fun x => by rw [covers_stand hstand, covers_stand hparts, contains_minusAll]⟩

/-- Every list of regions is that of some parts. -/
theorem stand_map (fs : List FullRegion) : FullRegion.Stand (fs.map fun f => ⟨f.toRegion, 0⟩) fs := by
  rw [FullRegion.Stand, List.map_map]
  rfl

/-- **Collections of regions.** `minus` removes the addresses of the subtracted regions, whatever a shift by
64 gives, if and only if no part that is left when a region is subtracted has its first cut at the last bit;
`defragment` of every collection comes to an end, keeps the addresses and leaves no two parts that can be
combined. -/
theorem collection_iff (fs ss : List FullRegion) :
    ((∀ wide, Subtracts wide fs ss) ∧
      ∀ parts : List RegionPart, (∀ part ∈ parts, part.Legal) → Defragments parts) ↔
        FullRegion.NoCutLast fs ss := by
  constructor
  · rintro ⟨hminus, -⟩
    by_contra hcut
    obtain ⟨parts', hparts', -⟩ := hminus (fun _ => none) _ (stand_map fs)
    rw [FullRegion.minus_eq_none (stand_map fs) hcut] at hparts'
    cases hparts'
  · exact fun h => ⟨fun wide => subtracts wide h, fun parts hlegal => defragments hlegal⟩

/-- A part of 2 bytes less its first byte. On x86-64, where a word shifted by 64 stays as it is, what is left
does not have the second byte. -/
theorem second_byte_lost :
    ¬ Subtracts some [⟨~~~1#64, 0x1000#64, by decide⟩] [⟨~~~0#64, 0x1000#64, by decide⟩] := by
  intro h
  obtain ⟨parts', hparts', hcovers⟩ := h _ (stand_map _)
  have hlost : (minus some (-1) [⟨(FullRegion.mk (~~~1#64) 0x1000#64 (by decide)).toRegion, 0⟩]
      [(FullRegion.mk (~~~0#64) 0x1000#64 (by decide)).toRegion]).map
        (·.all fun part => 0x1001#64 &&& part.region.mask ≠ part.region.value) = some true := by
    decide
  have hin : Covers parts' 0x1001#64 := by
    rw [hcovers, covers_stand (stand_map _)]
    refine ⟨⟨_, List.mem_singleton_self _, by rfl⟩, fun s hs => ?_⟩
    rw [List.mem_singleton.1 hs]
    exact fun hx => absurd hx (by decide : ¬ 0x1001#64 &&& ~~~0#64 = 0x1000#64)
  obtain ⟨part, hpart, -, hx⟩ := hin
  obtain ⟨parts, hrun, hall⟩ := Option.map_eq_some_iff.1 hlost
  obtain rfl : parts = parts' := Option.some.inj (hrun.symm.trans hparts')
  exact absurd hx (by simpa using List.all_eq_true.1 hall part hpart)

end

end OmpSs.Support
