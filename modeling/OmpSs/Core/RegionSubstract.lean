import OmpSs.Core.RegionDict

/-!
# Subtraction of regions

`substract` (`nanox-mx/src/core/regiondict.hpp`) cuts the base in each dimension into the part below the
other region, the part inside it and the part above it, and registers the boxes that take one part from
each dimension, but for the one that takes the inner part from all (`_combine`). These boxes tile the base
without the other region (`pieces_tiles`).
-/

namespace OmpSs.Core

open Lib

namespace RegionDictionary

/-! ## The program -/

/-- What one dimension of the base is cut into, a part of length 0 being none. Source: the array
`fragments` (`regiondict.hpp:871`). -/
structure Fragments where
  lt : Span
  inner : Span
  gt : Span
deriving DecidableEq

/-- The cut of one dimension. Source: `regiondict.hpp:875`. -/
def cut (base toSubs : Span) : Fragments :=
  let upperBoundBase := base.lowerBound + base.accessedLength
  let upperBoundToSubs := toSubs.lowerBound + toSubs.accessedLength
  if base.lowerBound ≥ toSubs.lowerBound then
    if upperBoundBase ≤ upperBoundToSubs then
      ⟨⟨0, 0⟩, ⟨base.lowerBound, upperBoundBase - base.lowerBound⟩, ⟨0, 0⟩⟩
    else
      ⟨⟨0, 0⟩, ⟨base.lowerBound, upperBoundToSubs - base.lowerBound⟩,
        ⟨upperBoundToSubs, upperBoundBase - upperBoundToSubs⟩⟩
  else
    let lt : Span := ⟨base.lowerBound, toSubs.lowerBound - base.lowerBound⟩
    if upperBoundBase ≤ upperBoundToSubs then
      ⟨lt, ⟨toSubs.lowerBound, upperBoundBase - toSubs.lowerBound⟩, ⟨0, 0⟩⟩
    else
      ⟨lt, ⟨toSubs.lowerBound, upperBoundToSubs - toSubs.lowerBound⟩,
        ⟨upperBoundToSubs, upperBoundBase - upperBoundToSubs⟩⟩

/-- The ids of the pieces so far, and the dictionary they are in. -/
abbrev Resulting := List Nat × RegionDictionary

/-- A box is registered as one more piece. Source: `regiondict.hpp:978`. -/
def addPiece (r : Resulting) (box : List Span) : Resulting :=
  let added := r.2.addRegion box
  (r.1 ++ [added.1], added.2)

/-- The boxes that have the part `fragment` in the dimension at hand and `tmpFragment` in those outside it;
`inside` are the cuts of the dimensions inside it, outermost first. Source:
`RegionDictionary::_combine` (`regiondict.hpp:952`). -/
def combine (inside : List Fragments) (fragment : Span) (allFragmentsIntersect : Bool)
    (tmpFragment : List Span) (r : Resulting) : Resulting :=
  if fragment.accessedLength > 0 then
    match inside with
    | f :: inside =>
      let r := combine inside f.lt (allFragmentsIntersect && false) (fragment :: tmpFragment) r
      let r := combine inside f.inner (allFragmentsIntersect && true) (fragment :: tmpFragment) r
      combine inside f.gt (allFragmentsIntersect && false) (fragment :: tmpFragment) r
    | [] => if !allFragmentsIntersect then addPiece r (fragment :: tmpFragment) else r
  else r

/-- The three calls from the outermost dimension. Source: `regiondict.hpp:943`. -/
def combineAll : List Fragments → Resulting → Resulting
  | f :: inside, r =>
    let r := combine inside f.lt false [] r
    let r := combine inside f.inner true [] r
    combine inside f.gt false [] r
  | [], r => r

/-- Source: `RegionDictionary::substract` (`regiondict.hpp:863`). -/
def substract (d : RegionDictionary) (base regionToSubstract : Nat) : Option Resulting :=
  (d.checkIntersect base regionToSubstract).bind fun r =>
    if !r.1 then some ([], r.2)
    else
      (r.2.getRegionNode base).bind fun regBase =>
        (r.2.getRegionNode regionToSubstract).map fun regToSubs =>
          combineAll (List.zipWith cut regBase.box.reverse regToSubs.box.reverse) ([], r.2)

/-! ## The boxes that are registered -/

/-- The boxes, outermost dimension first, with the part `s` in one more dimension. -/
def extend (s : Span) (boxes : List (List Span)) : List (List Span) :=
  if s.accessedLength > 0 then boxes.map (s :: ·) else []

/-- The boxes over the cuts, outermost dimension first, without the one inside in every dimension where
`allFragmentsIntersect` says that the dimensions outside these are inside. -/
def pieces : List Fragments → Bool → List (List Span)
  | [], allFragmentsIntersect => if allFragmentsIntersect then [] else [[]]
  | f :: inside, allFragmentsIntersect =>
    extend f.lt (pieces inside false) ++ extend f.inner (pieces inside allFragmentsIntersect) ++
      extend f.gt (pieces inside false)

/-- `combine` registers the boxes of `pieces`, in their order. -/
theorem combine_eq (inside : List Fragments) (s : Span) (all : Bool) (tmp : List Span) (r : Resulting) :
    combine inside s all tmp r =
      ((extend s (pieces inside all)).map fun box => box.reverse ++ tmp).foldl addPiece r := by
  induction inside generalizing s all tmp r with
  | nil =>
    rw [combine, extend]
    split
    · cases all <;> simp [pieces]
    · rfl
  | cons f inside ih =>
    rw [combine, extend]
    split
    · simp only [ih, Bool.and_false, Bool.and_true, pieces, ← List.foldl_append, ← List.map_append,
        List.map_map]
      congr 1
      refine List.map_congr_left fun box _ => ?_
      simp
    · rfl

theorem combineAll_eq {fs : List Fragments} (hfs : fs ≠ []) (r : Resulting) :
    combineAll fs r = ((pieces fs true).map List.reverse).foldl addPiece r := by
  cases fs with
  | nil => exact absurd rfl hfs
  | cons f inside =>
    simp only [combineAll, combine_eq, pieces, ← List.foldl_append, ← List.map_append, List.append_nil]

theorem mem_extend {s : Span} {boxes : List (List Span)} {box : List Span} :
    box ∈ extend s boxes ↔ 0 < s.accessedLength ∧ ∃ box' ∈ boxes, s :: box' = box := by
  rw [extend]
  split
  · next h => simp [h]
  · next h => simp [Nat.eq_zero_of_not_pos h]

/-- The boxes have no empty part. -/
theorem pieces_proper {fs : List Fragments} {all : Bool} {box : List Span} (h : box ∈ pieces fs all) :
    box.length = fs.length ∧ Proper box := by
  induction fs generalizing all box with
  | nil =>
    obtain rfl : box = [] := by
      cases all with
      | false => exact List.mem_singleton.1 h
      | true => cases h
    exact ⟨rfl, fun s hs => by cases hs⟩
  | cons f inside ih =>
    have hpart : ∃ s all box', 0 < s.accessedLength ∧ box' ∈ pieces inside all ∧ s :: box' = box := by
      simp only [pieces, List.mem_append, mem_extend] at h
      rcases h with (⟨hs, b, hb, heq⟩ | ⟨hs, b, hb, heq⟩) | ⟨hs, b, hb, heq⟩
      · exact ⟨_, _, b, hs, hb, heq⟩
      · exact ⟨_, _, b, hs, hb, heq⟩
      · exact ⟨_, _, b, hs, hb, heq⟩
    obtain ⟨s, all', box', hs, hbox', rfl⟩ := hpart
    obtain ⟨hlen, hp⟩ := ih hbox'
    exact ⟨by simp [hlen], List.forall_mem_cons.2 ⟨hs, hp⟩⟩

/-! ## The boxes tile the difference -/

section
variable {a b : Span} {x : Nat}

theorem mem_cut_lt (h : ∃ x, a.Mem x ∧ b.Mem x) : (cut a b).lt.Mem x ↔ a.Mem x ∧ x < b.lowerBound := by
  obtain ⟨y, hy⟩ := h
  simp only [cut, Span.Mem] at hy ⊢
  split <;> split <;> dsimp only <;> omega

theorem mem_cut_inner (h : ∃ x, a.Mem x ∧ b.Mem x) : (cut a b).inner.Mem x ↔ a.Mem x ∧ b.Mem x := by
  obtain ⟨y, hy⟩ := h
  simp only [cut, Span.Mem] at hy ⊢
  split <;> split <;> dsimp only <;> omega

theorem mem_cut_gt (h : ∃ x, a.Mem x ∧ b.Mem x) :
    (cut a b).gt.Mem x ↔ a.Mem x ∧ b.lowerBound + b.accessedLength ≤ x := by
  obtain ⟨y, hy⟩ := h
  simp only [cut, Span.Mem] at hy ⊢
  split <;> split <;> dsimp only <;> omega

end

theorem tiles_extend {s : Span} {boxes : List (List Span)} {S : List Nat → Prop}
    (h : Tiles (InBox Span.Mem) boxes S) :
    Tiles (InBox Span.Mem) (extend s boxes) (Prepend s.Mem S) := by
  rw [extend]
  split
  · exact h.map_cons
  · next hzero =>
    refine ⟨.nil, fun x => ?_⟩
    cases x with
    | nil => simp [Prepend]
    | cons c y =>
      have hempty : ¬ s.Mem c := by
        rintro ⟨hle, hlt⟩
        omega
      simp [Prepend, hempty]

/-- In each dimension a point of the base is below, inside or above the other region; the points that are
inside in every dimension are those of the other region. -/
theorem pieces_tiles {A B : List Span} (h : List.Forall₂ (fun a b => ∃ x, a.Mem x ∧ b.Mem x) A B)
    (all : Bool) :
    Tiles (InBox Span.Mem) (pieces (List.zipWith cut A B) all)
      fun x => InBox Span.Mem A x ∧ (all = true → ¬ InBox Span.Mem B x) := by
  induction h generalizing all with
  | nil =>
    cases all with
    | false => exact ⟨by simp [pieces], fun x => by simp [pieces, InBox]⟩
    | true => exact ⟨by simp [pieces], fun x => by simp [pieces, InBox]⟩
  | @cons a b A B hab _ ih =>
    have hlt := tiles_extend (s := (cut a b).lt) (ih false)
    have hinner := tiles_extend (s := (cut a b).inner) (ih all)
    have hgt := tiles_extend (s := (cut a b).gt) (ih false)
    have hall := (hlt.append hinner ?_).append hgt ?_
    · refine ⟨hall.disjoint, fun x => ?_⟩
      rw [List.zipWith_cons_cons, pieces, ← hall.union x]
      cases x with
      | nil => simp [Prepend, InBox]
      | cons c y =>
        simp only [Prepend, mem_cut_lt hab, mem_cut_inner hab, mem_cut_gt hab, InBox, List.forall₂_cons,
          Bool.false_eq_true, false_implies, and_true]
        -- where `c` stands to the other region
        have hwhere : c < b.lowerBound ∨ b.Mem c ∨ b.lowerBound + b.accessedLength ≤ c := by
          simp only [Span.Mem]
          omega
        have hout : b.Mem c → ¬ c < b.lowerBound ∧ ¬ b.lowerBound + b.accessedLength ≤ c := by
          rintro ⟨hle, hlt⟩
          omega
        tauto
    · rintro (_ | ⟨c, y⟩) hx hx'
      · exact hx
      · have := ((mem_cut_lt hab).1 hx.1).2
        have := ((mem_cut_inner hab).1 hx'.1).2.1
        omega
    · rintro (_ | ⟨c, y⟩) hx hx'
      · exact hx'
      · have := ((mem_cut_gt hab).1 hx'.1).2
        rcases hx with hx | hx
        · have := ((mem_cut_lt hab).1 hx.1).2
          omega
        · have := ((mem_cut_inner hab).1 hx.1).2.2
          omega

/-! ## The pieces in the dictionary -/

variable {n : Nat} {d : RegionDictionary} {A B : List Span} {a b : Nat}

/-- What a list of registered pieces is: the regions `r.1` of `r.2` have no empty box, their boxes tile `A`
without `B`, and the regions of `d` are kept. -/
structure Subtracted (n : Nat) (d : RegionDictionary) (A B : List Span) (r : Resulting) : Prop where
  valid : Valid n r.2
  keeps : d.Keeps r.2
  pieces : ∃ boxes, List.Forall₂ r.2.HasBox r.1 boxes ∧ (∀ box ∈ boxes, Proper box) ∧
    Tiles (InBox Span.Mem) boxes fun x => InBox Span.Mem A x ∧ ¬ InBox Span.Mem B x

/-- Registering boxes one after the other gives each a region. -/
theorem foldl_addPiece (hn : 0 < n) {boxes : List (List Span)}
    (hboxes : ∀ box ∈ boxes, box.length = n ∧ Proper box) (ids : List Nat) (hv : Valid n d) :
    ∃ new d', boxes.foldl addPiece (ids, d) = (ids ++ new, d') ∧ Valid n d' ∧ d.Keeps d' ∧
      List.Forall₂ d'.HasBox new boxes := by
  induction boxes generalizing ids d with
  | nil => exact ⟨[], d, by simp, hv, fun _ _ h => h, .nil⟩
  | cons box boxes ih =>
    obtain ⟨hlen, hp⟩ := hboxes box (by simp)
    have hadd := addRegion_spec hv hn hlen hp
    obtain ⟨new, d', heq, hv', hkeeps, hnew⟩ := ih (fun b hb => hboxes b (by simp [hb]))
      (ids ++ [(d.addRegion box).1]) hadd.valid
    refine ⟨(d.addRegion box).1 :: new, d', ?_, hv', fun id b h => hkeeps id b (hadd.keeps id b h),
      .cons (hkeeps _ _ hadd.hasBox) hnew⟩
    rw [List.foldl_cons, addPiece, heq, List.append_assoc, List.singleton_append]

theorem combineAll_subtracted (hv : Valid n d) (hn : 0 < n) (hA : A.length = n) (hB : B.length = n)
    (hmeet : Meet A B) :
    Subtracted n d A B (combineAll (List.zipWith cut A.reverse B.reverse) ([], d)) := by
  have hlen : (List.zipWith cut A.reverse B.reverse).length = n := by simp [hA, hB]
  have hpart : List.Forall₂ (fun a b => ∃ x, a.Mem x ∧ b.Mem x) A.reverse B.reverse :=
    List.rel_reverse ((exists_inBox_both (hA.trans hB.symm)).1 hmeet)
  have hboxes : ∀ box ∈ (pieces (List.zipWith cut A.reverse B.reverse) true).map List.reverse,
      box.length = n ∧ Proper box := by
    intro box hbox
    obtain ⟨box', hbox', rfl⟩ := List.mem_map.1 hbox
    obtain ⟨hlen', hp⟩ := pieces_proper hbox'
    exact ⟨by rw [List.length_reverse, hlen', hlen], fun s hs => hp s (List.mem_reverse.1 hs)⟩
  obtain ⟨new, d', heq, hv', hkeeps, hnew⟩ := foldl_addPiece hn hboxes [] hv
  rw [combineAll_eq (List.ne_nil_of_length_pos (hlen ▸ hn)), heq]
  refine ⟨hv', hkeeps, _, hnew, fun box hbox => (hboxes box hbox).2, ?_⟩
  refine Tiles.map_reverse ?_
  simpa only [forall_const, inBox_reverse] using pieces_tiles hpart true

/-- The pieces of a region without another that it meets are not empty, pairwise disjoint, and together they
are the first without the second. For a region and itself, where `checkIntersect` reads outside the tables,
this holds of the cuts and of what is registered of them. -/
theorem substract_tiles {sizes : List Nat} (hsizes : sizes ≠ []) (hpos : ∀ size ∈ sizes, 0 < size)
    (h : Reach step (Call.Ok sizes.length) (new sizes) d) (ha : d.HasBox a A) (hb : d.HasBox b B)
    (hmeet : Meet A B) :
    Subtracted sizes.length d A B (combineAll (List.zipWith cut A.reverse B.reverse) ([], d)) ∧
      (a ≠ b → ∃ r, d.substract a b = some r ∧ Subtracted sizes.length d A B r) := by
  have hv := reach_valid hsizes hpos h
  have hn := List.length_pos_of_ne_nil hsizes
  have hA := (hv.proper a A ha).1
  have hB := (hv.proper b B hb).1
  refine ⟨combineAll_subtracted hv hn hA hB hmeet, fun hne => ?_⟩
  obtain ⟨res, d₁, hcheck, hres, hv₁, hkeeps₁⟩ := checkIntersect_spec hv ha hb hne
  obtain ⟨leafA, hleafA, rfl⟩ := hkeeps₁ a A ha
  obtain ⟨leafB, hleafB, rfl⟩ := hkeeps₁ b B hb
  have hsub := combineAll_subtracted hv₁ hn hA hB hmeet
  refine ⟨_, ?_, hsub.valid, fun id box hid => hsub.keeps id box (hkeeps₁ id box hid), hsub.pieces⟩
  simp [substract, hcheck, hres.2 hmeet, hleafA, hleafB]

/-- The whole object of 10 by 10 without a square inside it. -/
theorem substract_tiles_square :
    ∃ d, Reach step (Call.Ok 2) (new [10, 10]) d ∧ ∃ r, d.substract 1 2 = some r ∧
      Subtracted 2 d [⟨0, 10⟩, ⟨0, 10⟩] [⟨3, 4⟩, ⟨3, 4⟩] r := by
  obtain ⟨d, hreach, hp⟩ := exists_reach_of_guarded_run step (Call.Ok 2) (new [10, 10])
    [.addRegion [⟨3, 4⟩, ⟨3, 4⟩]]
    (fun d => decide ((d.getRegionNode 1).map Leaf.box = some [⟨0, 10⟩, ⟨0, 10⟩] ∧
      (d.getRegionNode 2).map Leaf.box = some [⟨3, 4⟩, ⟨3, 4⟩])) (by decide +kernel)
  obtain ⟨h1, h2⟩ := of_decide_eq_true hp
  obtain ⟨leaf1, hleaf1⟩ := Option.map_eq_some_iff.1 h1
  obtain ⟨leaf2, hleaf2⟩ := Option.map_eq_some_iff.1 h2
  have hmeet : Meet [⟨0, 10⟩, ⟨0, 10⟩] [⟨3, 4⟩, ⟨3, 4⟩] :=
    ⟨[3, 3], by simp [InBox, Span.Mem], by simp [InBox, Span.Mem]⟩
  have hsizes : ([10, 10] : List Nat) ≠ [] := by decide
  exact ⟨d, hreach, (substract_tiles hsizes (by decide) hreach ⟨leaf1, hleaf1⟩ ⟨leaf2, hleaf2⟩
    hmeet).2 (by decide)⟩

end RegionDictionary

end OmpSs.Core
