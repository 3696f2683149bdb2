import OmpSs.Support.RegionPart

/-!
# Cutting full-width regions

What `RegionPart::partition` and `RegionCollection::minus` do with full-width regions, as sets of
addresses: `cut` gives the parts of a region along another one, `meet` the part that both have in common,
and `minusAll` what is left of regions when others are subtracted. The results hold where no region is cut
at its last bit (`CutLast`); with nothing known of a shift by 64, there is no result where one is.
-/

namespace OmpSs.Support

open Lib

namespace FullRegion

open Strings

/-- The region of a string of 64 bits. -/
def ofBits (l : List BitValue) : FullRegion where
  mask := (Region.ofBits (l.take 64)).mask
  value := (Region.ofBits (l.take 64)).value
  known := by
    have h := Region.spells_ofBits (l := l.take 64) (by simp)
    refine BitVec.eq_of_getMsbD_eq fun i hi => ?_
    rw [BitVec.getMsbD_and, BitVec.getMsbD_not, h.mask, h.value]
    cases (l.take 64)[i]? with
    | none => simp
    | some b => cases b <;> simp

/-- The bits of an address, from the highest to the lowest. -/
def addressBits (x : BitVec 64) : List Bool := (List.range 64).map x.getMsbD

/-- The regions that `partition` cuts a region into. -/
def cut (r s : FullRegion) : List FullRegion := (pieces r.bits s.bits).map ofBits

/-- The addresses that two regions have in common, if there are any. -/
def meet (r s : FullRegion) : FullRegion := ofBits (inter r.bits s.bits)

/-- What is left of a region when another one is subtracted. -/
def minus (r s : FullRegion) : List FullRegion := (without r.bits s.bits).map ofBits

/-- The first cut is at the last bit: up to there the other region leaves open every bit that this one
leaves open, and agrees in the others; and it knows the last bit, which this one leaves open. -/
def CutLast (r s : FullRegion) : Prop := splitPos r.bits s.bits = some 63

instance (r s : FullRegion) : Decidable (r.CutLast s) :=
  inferInstanceAs (Decidable (splitPos r.bits s.bits = some 63))

section
variable {r s f : FullRegion} {l : List BitValue} {x : BitVec 64}

theorem toRegion_ofBits (hl : l.length = 64) : (ofBits l).toRegion = Region.ofBits l := by
  have hnext := (Region.spells_ofBits (l := l) hl.le).next
  have hmask : (ofBits l).mask = (Region.ofBits l).mask := by
    simp [ofBits, List.take_of_length_le hl.le]
  have hvalue : (ofBits l).value = (Region.ofBits l).value := by
    simp [ofBits, List.take_of_length_le hl.le]
  rw [hl] at hnext
  rw [toRegion, Region.ofValueMask, hmask, hvalue, ← Region.firstBit_ofBits l]
  exact congrArg (Region.mk _ · _ _) hnext.symm

@[simp] theorem bits_ofBits (hl : l.length = 64) : (ofBits l).bits = l := by
  rw [bits, toRegion_ofBits hl, (Region.spells_ofBits hl.le).bits_eq]

@[simp] theorem ofBits_bits (r : FullRegion) : ofBits r.bits = r :=
  bits_injective (bits_ofBits r.length_bits)

/-- The addresses of a region are those that its string stands for. -/
theorem contains_iff : r.Contains x ↔ InBox Mem r.bits (addressBits x) := by
  have hword : r.Contains x ↔ ∀ i, i < 64 → (x.getMsbD i && r.mask.getMsbD i) = r.value.getMsbD i := by
    constructor
    · intro h i _
      rw [← BitVec.getMsbD_and, h]
    · intro h
      exact BitVec.eq_of_getMsbD_eq fun i hi => by rw [BitVec.getMsbD_and, h i hi]
  have hbit : ∀ i (hi : i < r.bits.length),
      (x.getMsbD i && r.mask.getMsbD i) = r.value.getMsbD i ↔ Mem r.bits[i] (x.getMsbD i) := by
    intro i hi
    have hm : r.mask.getMsbD i = _ := r.spells.mask i
    have hv : r.value.getMsbD i = _ := r.spells.value i
    rw [hm, hv, List.getElem?_eq_getElem hi]
    cases r.bits[i] <;> simp [Mem]
  rw [hword, InBox, List.forall₂_iff_get]
  simp only [length_bits, addressBits, List.length_map, List.length_range, List.get_eq_getElem,
    List.getElem_map, List.getElem_range, true_and]
  constructor
  · intro h i hi _
    exact (hbit i (by simpa using hi)).1 (h i hi)
  · intro h i hi
    exact (hbit i (by simpa using hi)).2 (h i hi hi)

theorem intersects_iff_agree : r.Intersects s ↔ Node.agree r.bits s.bits = true := by
  rw [intersects_iff_forall₂, Node.agree_iff]

theorem length_inter : (inter r.bits s.bits).length = 64 := by simp [inter]

theorem bits_of_mem_pieces (h : l ∈ pieces r.bits s.bits) : (ofBits l).bits = l :=
  bits_ofBits ((length_of_mem_pieces h).trans r.length_bits)

theorem contains_ofBits (hl : l.length = 64) :
    (ofBits l).Contains x ↔ InBox Mem l (addressBits x) := by
  rw [contains_iff, bits_ofBits hl]

/-- The parts of a region tile it. -/
theorem tiles_cut (r s : FullRegion) : Tiles Contains (r.cut s) r.Contains := by
  have hlen : r.bits.length = s.bits.length := by simp
  have htiles := tiles_pieces hlen
  refine ⟨List.pairwise_map.2 (List.Pairwise.imp_of_mem ?_ htiles.disjoint), fun x => ?_⟩
  · intro l l' hl hl' hdisj x hx hx'
    rw [contains_iff, bits_of_mem_pieces hl] at hx
    rw [contains_iff, bits_of_mem_pieces hl'] at hx'
    exact hdisj _ hx hx'
  · rw [contains_iff, htiles.union, cut]
    simp only [List.mem_map, exists_exists_and_eq_and]
    exact exists_congr fun l => and_congr_right fun hl => by rw [contains_iff, bits_of_mem_pieces hl]

/-- A part lies in the region. -/
theorem contains_of_mem_cut (h : f ∈ r.cut s) (hx : f.Contains x) : r.Contains x :=
  ((tiles_cut r s).union x).2 ⟨f, h, hx⟩

theorem intersects_of_mem_cut {g : FullRegion} (h : f ∈ r.cut s) (hg : f.Intersects g) :
    r.Intersects g := by
  obtain ⟨x, hf, hx⟩ := hg
  exact ⟨x, contains_of_mem_cut h hf, hx⟩

theorem contains_meet (h : r.Intersects s) : (r.meet s).Contains x ↔ r.Contains x ∧ s.Contains x := by
  rw [meet, contains_ofBits length_inter, inBox_inter (by simp) (intersects_iff_agree.1 h),
    contains_iff, contains_iff]

/-- What intersecting regions have in common is the one part that matches. -/
theorem cut_eq (h : r.Intersects s) :
    ∃ outside, r.cut s = outside ++ [r.meet s] ∧ ∀ f ∈ outside, ¬ f.Intersects s := by
  obtain ⟨outside, hpieces, hout⟩ := pieces_of_agree (intersects_iff_agree.1 h)
  refine ⟨outside.map ofBits, by rw [cut, hpieces, List.map_append]; rfl, fun f hf => ?_⟩
  obtain ⟨l, hl, rfl⟩ := List.mem_map.1 hf
  have hmem : l ∈ pieces r.bits s.bits := by rw [hpieces]; exact List.mem_append_left _ hl
  rw [intersects_iff_agree, bits_of_mem_pieces hmem, hout l hl]
  simp

theorem meet_mem_cut (h : r.Intersects s) : r.meet s ∈ r.cut s := by
  obtain ⟨outside, heq, -⟩ := cut_eq h
  rw [heq]
  exact List.mem_append_right _ (List.mem_singleton_self _)

/-- The one part that matches. -/
theorem filter_cut (h : r.Intersects s) :
    (r.cut s).filter (fun f => f.toRegion.matchesRegion s.toRegion) = [r.meet s] := by
  obtain ⟨outside, heq, hnot⟩ := cut_eq h
  obtain ⟨x, hr, hs⟩ := h
  have hmeet : (r.meet s).Intersects s := ⟨x, (contains_meet ⟨x, hr, hs⟩).2 ⟨hr, hs⟩, hs⟩
  have hnone : outside.filter (fun f => f.toRegion.matchesRegion s.toRegion) = [] :=
    List.filter_eq_nil_iff.2 fun f hf hm => hnot f hf (matchesRegion_iff.1 hm)
  rw [heq, List.filter_append, hnone, List.nil_append]
  simp [matchesRegion_iff.2 hmeet]

/-- The parts of a subtraction tile what is left. -/
theorem tiles_minus (r s : FullRegion) :
    Tiles Contains (r.minus s) fun x => r.Contains x ∧ ¬ s.Contains x := by
  have htiles := tiles_cut r s
  have hsub : (r.minus s).Sublist (r.cut s) := List.filter_sublist.map ofBits
  -- a part lies outside, or is what both have in common
  have hmem : ∀ f, f ∈ r.minus s ↔ f ∈ r.cut s ∧ ¬ f.Intersects s := by
    intro f
    simp only [minus, without, cut, List.mem_map, List.mem_filter, Bool.not_eq_true']
    constructor
    · rintro ⟨l, ⟨hl, hagree⟩, rfl⟩
      refine ⟨⟨l, hl, rfl⟩, ?_⟩
      rw [intersects_iff_agree, bits_of_mem_pieces hl, hagree]
      simp
    · rintro ⟨⟨l, hl, rfl⟩, hint⟩
      rw [intersects_iff_agree, bits_of_mem_pieces hl, Bool.not_eq_true] at hint
      exact ⟨l, ⟨hl, hint⟩, rfl⟩
  refine ⟨htiles.disjoint.sublist hsub, fun x => ?_⟩
  constructor
  · rintro ⟨hr, hs⟩
    obtain ⟨f, hf, hfx⟩ := (htiles.union x).1 hr
    refine ⟨f, (hmem f).2 ⟨hf, fun hint => ?_⟩, hfx⟩
    -- a part that matches is the common part
    obtain ⟨l, hl, rfl⟩ := List.mem_map.1 hf
    rw [intersects_iff_agree, bits_of_mem_pieces hl] at hint
    obtain ⟨hagree, rfl⟩ := eq_inter_of_mem_pieces (by simp) hl hint
    exact hs ((contains_meet (intersects_iff_agree.2 hagree)).1 hfx).2
  · rintro ⟨f, hf, hfx⟩
    obtain ⟨hf, hint⟩ := (hmem f).1 hf
    exact ⟨(htiles.union x).2 ⟨f, hf, hfx⟩, fun hs => hint ⟨x, hfx, hs⟩⟩

/-- A region is cut unless it leaves open no bit that the other knows. -/
theorem getPrefixUntilThisSubsumes_eq : r.toRegion.getPrefixUntilThisSubsumes s.toRegion =
    (splitPos r.bits s.bits).isSome := by
  have hlen : r.bits.length = s.bits.length := by simp
  unfold Region.getPrefixUntilThisSubsumes
  cases hj : splitPos r.bits s.bits with
  | none => exact RegionPart.subsumeLoop_of_splitPos_none r.spells s.spells hlen hj
  | some j => rw [RegionPart.subsumeLoop_of_splitPos r.spells s.spells hlen hj]; rfl

/-- A region that is not cut is its own only part, and lies in the other one if it intersects it. -/
theorem cut_eq_self (h : r.toRegion.getPrefixUntilThisSubsumes s.toRegion = false) : r.cut s = [r] := by
  rw [getPrefixUntilThisSubsumes_eq, Option.isSome_eq_false_iff, Option.isNone_iff_eq_none] at h
  rw [cut, pieces_of_splitPos_none h (by simp), List.map_singleton, ofBits_bits]

theorem meet_eq_self (h : r.toRegion.getPrefixUntilThisSubsumes s.toRegion = false)
    (hint : r.Intersects s) : r.meet s = r := by
  obtain ⟨outside, heq, -⟩ := cut_eq hint
  rw [cut_eq_self h] at heq
  cases outside with
  | nil => exact (List.singleton_inj.1 heq).symm
  | cons f outside => simp at heq

theorem toRegion_of_isPart {part : RegionPart} (h : IsPart 0 l part) (hl : l.length = 64) :
    part.region = (ofBits l).toRegion := by
  rw [toRegion_ofBits hl]
  exact h.1.eq_ofBits h.2

theorem isPart_toRegion (r : FullRegion) (level : Int) : IsPart 0 r.bits ⟨r.toRegion, level⟩ :=
  ⟨r.spells, rfl⟩

/-- Parts that stand for strings of 64 bits. -/
theorem map_region_of_forall₂ {ls : List (List BitValue)} {parts : List RegionPart}
    (h : List.Forall₂ (IsPart 0) ls parts) (hls : ∀ l ∈ ls, l.length = 64) :
    parts.map (·.region) = (ls.map ofBits).map toRegion := by
  induction h with
  | nil => rfl
  | @cons l part ls parts hpart _ ih =>
    rw [List.map_cons, List.map_cons, List.map_cons, ih fun l hl => hls l (List.mem_cons_of_mem _ hl),
      toRegion_of_isPart hpart (hls l (List.mem_cons_self ..))]

variable {wide : BitVec 64 → Option (BitVec 64)}

variable (wide) in
/-- `partition` of a region that is not cut at its last bit. -/
theorem partition_eq (h : ¬ r.CutLast s) (level : Int) :
    ∃ parts, RegionPart.partition wide (-1) 65 ⟨r.toRegion, level⟩ s.toRegion 0 true true = some parts ∧
      parts.map (·.region) = (r.cut s).map toRegion := by
  obtain ⟨parts, hrun, hparts⟩ := RegionPart.givesPieces wide 65 _ s.toRegion r.bits s.bits 0 0 (by simp)
    (r.isPart_toRegion level) s.spells (by simp) h
  exact ⟨parts, hrun, map_region_of_forall₂ hparts fun l hl =>
    (length_of_mem_pieces hl).trans r.length_bits⟩

theorem partition_eq_none (h : r.CutLast s) (level : Int) :
    RegionPart.partition (fun _ => none) (-1) 65 ⟨r.toRegion, level⟩ s.toRegion 0 true true = none :=
  RegionPart.partition_undefined (r.isPart_toRegion level) s.spells (by simp) h

/-- Parts and the regions they stand for. -/
def Stand (parts : List RegionPart) (fs : List FullRegion) : Prop :=
  parts.map (·.region) = fs.map toRegion

/-- What is left of regions when others are subtracted one after another. -/
def minusAll (fs ss : List FullRegion) : List FullRegion :=
  ss.foldl (fun fs s => fs.flatMap (·.minus s)) fs

/-- No region that is left is cut at its last bit. -/
def NoCutLast : List FullRegion → List FullRegion → Prop
  | _, [] => True
  | fs, s :: ss => (∀ f ∈ fs, ¬ f.CutLast s) ∧ NoCutLast (fs.flatMap (·.minus s)) ss

instance decidableNoCutLast : ∀ fs ss, Decidable (NoCutLast fs ss)
  | _, [] => inferInstanceAs (Decidable True)
  | fs, s :: ss =>
    @instDecidableAnd _ _ inferInstance (decidableNoCutLast (fs.flatMap (·.minus s)) ss)

/-- What is left is tiled. -/
theorem tiles_minusAll {fs ss : List FullRegion} {S : BitVec 64 → Prop} (h : Tiles Contains fs S) :
    Tiles Contains (minusAll fs ss) fun x => S x ∧ ∀ s ∈ ss, ¬ s.Contains x := by
  induction ss generalizing fs S with
  | nil => simpa [minusAll] using h
  | cons s ss ih =>
    have hrest := ih (h.flatMap fun f _ => tiles_minus f s)
    refine ⟨hrest.disjoint, fun x => ?_⟩
    rw [List.forall_mem_cons, ← and_assoc]
    exact hrest.union x

theorem stand_cons {parts : List RegionPart} {fs : List FullRegion} (h : Stand parts (f :: fs)) :
    ∃ level rest, parts = ⟨f.toRegion, level⟩ :: rest ∧ Stand rest fs := by
  cases parts with
  | nil => cases h
  | cons part rest =>
    obtain ⟨hpart, hrest⟩ := List.cons.inj h
    exact ⟨part.partLevel, rest, by rw [← hpart], hrest⟩

variable (wide) in
/-- `RegionCollection::minus` of a region, where no part is cut at its last bit. -/
theorem minusRegion_eq {parts : List RegionPart} {fs : List FullRegion} (h : Stand parts fs)
    (hcut : ∀ f ∈ fs, ¬ f.CutLast s) : ∃ parts', minusRegion wide (-1) parts s.toRegion = some parts' ∧
      Stand parts' (fs.flatMap (·.minus s)) := by
  induction fs generalizing parts with
  | nil =>
    obtain rfl := List.map_eq_nil_iff.1 h
    exact ⟨[], rfl, rfl⟩
  | cons f fs ih =>
    obtain ⟨level, rest, rfl, hrest⟩ := stand_cons h
    obtain ⟨hf, hfs⟩ := List.forall_mem_cons.1 hcut
    obtain ⟨parts', hparts', hstand⟩ := ih hrest hfs
    have hrun : ∃ outside, RegionPart.partition wide (-1) 65 ⟨f.toRegion, level⟩ s.toRegion 0 false true =
        some outside ∧ List.Forall₂ (IsPart 0) (without f.bits s.bits) outside :=
      RegionPart.partition_outside (by omega) (f.isPart_toRegion level) s.spells rfl f.length_bits (by simp)
        hf
    obtain ⟨outside, hout, hforall⟩ := hrun
    obtain ⟨lists, hlists, rfl⟩ := Option.map_eq_some_iff.1 hparts'
    refine ⟨outside ++ lists.flatten, ?_, ?_⟩
    · rw [minusRegion, List.mapM_cons, hout, hlists]
      rfl
    · have hmap := map_region_of_forall₂ hforall fun l hl =>
        (length_of_mem_pieces (List.mem_of_mem_filter hl)).trans f.length_bits
      rw [Stand, List.map_append, hmap, hstand, List.flatMap_cons, List.map_append]
      rfl

theorem minusRegion_eq_none {parts : List RegionPart} {fs : List FullRegion} (h : Stand parts fs)
    (hf : f ∈ fs) (hcut : f.CutLast s) : minusRegion (fun _ => none) (-1) parts s.toRegion = none := by
  induction fs generalizing parts with
  | nil => cases hf
  | cons g fs ih =>
    obtain ⟨level, rest, rfl, hrest⟩ := stand_cons h
    rw [minusRegion, List.mapM_cons]
    rcases List.mem_cons.1 hf with rfl | hf
    · rw [RegionPart.partition_undefined (f.isPart_toRegion level) s.spells (by simp) hcut]
      rfl
    · have hnone := ih hrest hf
      rw [minusRegion, Option.map_eq_none_iff] at hnone
      rw [hnone]
      cases RegionPart.partition (fun _ => none) (-1) 65 ⟨g.toRegion, level⟩ s.toRegion 0 false true <;> rfl

variable (wide) in
/-- `RegionCollection::minus` of a collection. -/
theorem minus_eq {parts : List RegionPart} {fs ss : List FullRegion} (h : Stand parts fs)
    (hcut : NoCutLast fs ss) : ∃ parts', Support.minus wide (-1) parts (ss.map toRegion) = some parts' ∧
      Stand parts' (minusAll fs ss) := by
  induction ss generalizing parts fs with
  | nil => exact ⟨parts, rfl, h⟩
  | cons s ss ih =>
    obtain ⟨parts₁, hparts₁, hstand⟩ := minusRegion_eq wide h hcut.1
    obtain ⟨parts', hparts', hstand'⟩ := ih hstand hcut.2
    refine ⟨parts', ?_, hstand'⟩
    rw [Support.minus, List.map_cons, List.foldlM_cons, hparts₁]
    exact hparts'

theorem minus_eq_none {parts : List RegionPart} {fs ss : List FullRegion} (h : Stand parts fs)
    (hcut : ¬ NoCutLast fs ss) :
    Support.minus (fun _ => none) (-1) parts (ss.map toRegion) = none := by
  induction ss generalizing parts fs with
  | nil => exact absurd trivial hcut
  | cons s ss ih =>
    rw [Support.minus, List.map_cons, List.foldlM_cons]
    by_cases hs : ∀ f ∈ fs, ¬ f.CutLast s
    · obtain ⟨parts₁, hparts₁, hstand⟩ := minusRegion_eq (fun _ => none) h hs
      rw [hparts₁]
      exact ih hstand fun hrest => hcut ⟨hs, hrest⟩
    · simp only [not_forall, not_not] at hs
      obtain ⟨f, hf, hcut⟩ := hs
      rw [minusRegion_eq_none h hf hcut]
      rfl

end

end FullRegion

end OmpSs.Support
