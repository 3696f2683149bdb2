import OmpSs.Support.RegionTreeContainer
import OmpSs.Support.RegionCut
import Mathlib.Data.Set.List

/-!
# Partitioning the leaves of a region tree

`findAndPopulate` (`nanox-mx/src/support/regiontree.hpp:1013`) makes the leaves of a tree fit a region:
`partition` (`:728`) replaces every leaf that the region only partly covers by the parts of its region, and
the parts of the region that no leaf covers get leaves of their own. This module has the program and what
`partition` does.

A leaf that is replaced is deleted with the nodes that have become empty. `partition` remembers the first
ancestor that stays, and adds a part below it if the part has the ancestor's path, else from the root. The
model has this ancestor by the place where its segment ends, which does not change when the node is split.
-/

namespace OmpSs.Support

open Lib

/-! ## The program -/

namespace Region

/-- Source: `trim` (`region_decl.hpp:168`). With 64 bits the shift is by the width of the words; the only
caller that trims so many then compares a string of length 0, whatever the words are. -/
def trim (r : Region) (bits : Nat) : Region :=
  let cleanerMask := (1#64 <<< bits) - 1#64
  { firstBit := r.firstBit
    nextBit := r.nextBit + bits
    mask := r.mask &&& ~~~cleanerMask
    value := r.value &&& ~~~cleanerMask }

/-- Source: `trimFrom` (`region_decl.hpp:184`). -/
def trimFrom (r : Region) (position : Nat) : Region :=
  r.trim (r.firstBit + r.getLength - position).toNat

end Region

/-- Source: `std::remove`: the elements that stay move up, and the list is as long as before. -/
def stdRemove (l : List Region) (x : Region) : List Region :=
  let kept := l.filter (· ≠ x)
  kept ++ l.drop kept.length

namespace Node

section
variable {T : Type*}

/-- Source: `m_partitionLevel` of a leaf. -/
def leafLevel : Node T → Region → Int
  | null, _ => 0
  | node seg c0 c1 cX level _, regionSegment =>
    let regionSegment := regionSegment.advance seg.getLength.toNat
    if regionSegment.firstBit = 64 then level
    else
      match regionSegment.getFirstBit with
      | .BIT_0 => c0.leafLevel (regionSegment.advance 1)
      | .BIT_1 => c1.leafLevel (regionSegment.advance 1)
      | .X => cX.leafLevel (regionSegment.advance 1)

/-- A child other than the one for `bit`. -/
def hasOther (n : Node T) (bit : BitValue) : Bool := !(n.setChild bit null).hasNoChild

/-- The upward walk of `partition` (`regiontree.hpp:767`), seen from the top: where the segment of the
deepest ancestor of a leaf ends that has another child. -/
def survivor : Node T → Region → Option Nat
  | null, _ => none
  | node seg c0 c1 cX level data, regionSegment =>
    let regionSegment := regionSegment.advance seg.getLength.toNat
    if regionSegment.firstBit = 64 then none
    else
      let below :=
        match regionSegment.getFirstBit with
        | .BIT_0 => c0.survivor (regionSegment.advance 1)
        | .BIT_1 => c1.survivor (regionSegment.advance 1)
        | .X => cX.survivor (regionSegment.advance 1)
      let here := (node seg c0 c1 cX level data).hasOther regionSegment.getFirstBit
      below.or (if here then some regionSegment.firstBit else none)

/-- The first bit of the segment that ends at `ancestor`, on the way to a region. -/
def segmentStart (ancestor : Nat) : Node T → Region → Option Nat
  | null, _ => none
  | node seg c0 c1 cX _ _, path =>
    let path := path.advance seg.getLength.toNat
    if path.firstBit = ancestor then some seg.firstBit
    else
      match path.getFirstBit with
      | .BIT_0 => c0.segmentStart ancestor (path.advance 1)
      | .BIT_1 => c1.segmentStart ancestor (path.advance 1)
      | .X => cX.segmentStart ancestor (path.advance 1)

variable [Inhabited T]

/-- The loop of `addOverlappingFrom` (`regiontree.hpp:683`) from the node whose segment ends at `ancestor`
on. -/
def addFrom (ancestor : Nat) (region : Region) (partitionLevel : Int) : Node T → Region → Option (Node T)
  | null, _ => none
  | node seg c0 c1 cX level data, path =>
    let path := path.advance seg.getLength.toNat
    if path.firstBit = ancestor then
      (node seg c0 c1 cX level data).addLoop (some partitionLevel) 130 region
    else
      match path.getFirstBit with
      | .BIT_0 => (c0.addFrom ancestor region partitionLevel (path.advance 1)).map
          fun c => node seg c c1 cX level data
      | .BIT_1 => (c1.addFrom ancestor region partitionLevel (path.advance 1)).map
          fun c => node seg c0 c cX level data
      | .X => (cX.addFrom ancestor region partitionLevel (path.advance 1)).map
          fun c => node seg c0 c1 c level data

end

end Node

namespace RegionTree

section
variable {T : Type} [Inhabited T]

/-- Source: `addOverlappingFrom` (`regiontree.hpp:661`); `path` leads to the ancestor. -/
def addOverlappingFrom (root : Node T) (region fullRegion : Region) (ancestor : Nat) (path : Region)
    (partitionLevel : Int) : Option (Node T) :=
  if isEmptyRoot root then addOverlapping root fullRegion none
  else root.addFrom ancestor region partitionLevel path

/-- A part of a leaf is put into the tree. Source: `regiontree.hpp:819`. -/
def addPart (nodeRegion : Region) (ancestor : Option Nat) (root : Node T) (part : RegionPart) :
    Option (Node T) :=
  match ancestor with
  | none => addOverlapping root part.region (some part.partLevel)
  | some ancestor => do
    let firstBit ← root.segmentStart ancestor nodeRegion
    if (nodeRegion.trimFrom firstBit).containedExactMatch part.region then
      addOverlappingFrom root (part.region.advance firstBit) part.region ancestor nodeRegion part.partLevel
    else addOverlapping root part.region (some part.partLevel)

/-- The loop over the parts of a leaf, with the new leaves that match and the others. Source:
`regiontree.hpp:813`. -/
def addParts (region nodeRegion : Region) (ancestor : Option Nat) (removeExactMatch : Bool) :
    List RegionPart → Node T → Option (Node T × List Region × List Region)
  | [], root => some (root, [], [])
  | part :: parts, root =>
    if removeExactMatch && part.region = region then
      addParts region nodeRegion ancestor removeExactMatch parts root
    else do
      let root ← addPart nodeRegion ancestor root part
      let (root, matching, nonMatching) ←
        addParts region nodeRegion ancestor removeExactMatch parts root
      some (if part.region.matchesRegion region then (root, part.region :: matching, nonMatching)
        else (root, matching, part.region :: nonMatching))

section
variable (wide : BitVec 64 → Option (BitVec 64)) (copy : T → T)

/-- One round of `partition` (`regiontree.hpp:732`). A leaf is known by its region; its segment ends the
string, so that nothing is trimmed of the region. `copy` is what a new object holds after a copy has been
assigned to it. -/
def partitionNode (region : Region) (outputOnlyMatchingPart removeExactMatch : Bool)
    (maxPartitioningLevels : Int) (s : Node T × List Region) (nodeRegion : Region) :
    Option (Node T × List Region) := do
  let (root, output) := s
  let nodeRegionSegment : RegionPart := ⟨nodeRegion, root.leafLevel nodeRegion⟩
  let output := stdRemove output nodeRegion
  if nodeRegion.getPrefixUntilThisSubsumes region then
    let data ← findExact root nodeRegion
    let ancestor := root.survivor nodeRegion
    let root := erase root nodeRegion
    let parts ← nodeRegionSegment.partition wide maxPartitioningLevels 65 region 0 true true
    let (root, newMatching, newNonMatching) ←
      addParts region nodeRegion ancestor removeExactMatch parts root
    let root := (newMatching ++ newNonMatching).foldl (fun root part => root.writeLeaf (copy data) part) root
    some (root, output ++ newMatching ++ if outputOnlyMatchingPart then [] else newNonMatching)
  else if removeExactMatch && nodeRegion = region then some (root, output)
  else some (root, output ++ [nodeRegion])

/-- Source: `RegionTree::partition` (`regiontree.hpp:728`), which appends to `output`. -/
def partition (root : Node T) (nodes : List Region) (region : Region)
    (outputOnlyMatchingPart removeExactMatch : Bool) (output : List Region) (maxPartitioningLevels : Int) :
    Option (Node T × List Region) :=
  nodes.foldlM
    (partitionNode wide copy region outputOnlyMatchingPart removeExactMatch maxPartitioningLevels)
    (root, output)

/-- Source: `findAndPopulate` (`regiontree.hpp:1013`), called with an empty `output`: the tree, the leaf of
the region if there was one, and the output. -/
def findAndPopulate (root : Node T) (region : Region) (maxPartitioningLevels : Int) :
    Option (Node T × Option Region × List Region) := do
  let (wholeRegion, matchingNodes) ← findExactAndMatching root region
  let (root, output) ← partition wide copy root (matchingNodes.map (·.region)) region true
    wholeRegion.isSome [] maxPartitioningLevels
  match wholeRegion with
  | none =>
    let missingParts ← minus wide maxPartitioningLevels [⟨region, 0⟩] output
    let root ← missingParts.foldlM
      (fun root part => addOverlapping root part.region (some part.partLevel)) root
    some (root, none, output ++ missingParts.map (·.region))
  | some whole => some (root, some whole.region, output)

end

end

end RegionTree

/-! ## The surviving ancestor -/

namespace Region

theorem advance_advance (r : Region) (m n : Nat) : (r.advance m).advance n = r.advance (m + n) := by
  simp only [advance, BitVec.shiftLeft_add, Nat.add_assoc, Nat.cast_add, Int.add_assoc]

theorem advance_zero (r : Region) : r.advance 0 = r := by
  simp [advance]

theorem cleanerMask_eq_allOnes {n : Nat} (hn : n ≤ 64) :
    (1#64 <<< (64 - n)) - 1#64 = BitVec.allOnes 64 >>> n := by
  have hmask : (1#64 <<< (64 - n)) - 1#64 = cleanerMask (63 - n) := by
    rw [cleanerMask, show (63 - (n : Int) + 1).toNat = 64 - n by omega]
    split
    · next h =>
      obtain rfl : n = 0 := by omega
      rfl
    · rfl
  rw [hmask]
  refine BitVec.eq_of_getMsbD_eq fun i hi => ?_
  rw [getMsbD_cleanerMask (by omega) (by omega), BitVec.getMsbD_ushiftRight, BitVec.getMsbD_allOnes]
  rcases Nat.lt_or_ge i n with hlt | hge
  · simp [hlt]
  · have hback : i - n < 64 := by omega
    have hle : n ≤ i := hge
    simp [Nat.not_lt.2 hge, hi, hback, hle]

/-- `trimFrom` keeps the bits before a position. -/
theorem Spells.trimFrom {r : Region} {l : List BitValue} (h : r.Spells l) (hfirst : r.firstBit = 0)
    (hfull : l.length = 64) {n : Nat} (hn : n ≤ 64) : (r.trimFrom n).Spells (l.take n) := by
  have hnext : r.nextBit = -1 := by
    rw [h.next, hfull]
    rfl
  have hbits : ((r.firstBit : Int) + r.getLength - n).toNat = 64 - n := by
    rw [hfirst, getLength, hnext]
    omega
  have htake := h.take (n := n) (by omega)
  rw [← cleanerMask_eq_allOnes hn] at htake
  rw [Region.trimFrom, trim, hbits, hnext, show (-1 : Int) + ((64 - n : Nat) : Int) = 63 - n by omega]
  exact htake

end Region

namespace Node

section
variable {T : Type*} {n c : Node T} {seg : Region} {c0 c1 cX : Node T} {level : Int} {data : T}
  {b : BitValue} {k e : Nat} {p q : List BitValue} {rs path : Region}

/-- A node on the way of a string has a segment that ends at bit `e`. -/
def Ends : Node T → List BitValue → Nat → Prop
  | null, _, _ => False
  | node seg c0 c1 cX _ _, p, e => ∃ b p', p = seg.bits ++ b :: p' ∧ (e = seg.firstBit + seg.len ∨
      match b with
      | .BIT_0 => c0.Ends p' e
      | .BIT_1 => c1.Ends p' e
      | .X => cX.Ends p' e)

theorem ends_node : (node seg c0 c1 cX level data).Ends p e ↔ ∃ b p', p = seg.bits ++ b :: p' ∧
    (e = seg.firstBit + seg.len ∨ ((node seg c0 c1 cX level data).child b).Ends p' e) := by
  rw [Ends]
  refine exists_congr fun b => ?_
  cases b <;> rfl

theorem Ends.ne_null (h : n.Ends p e) : n ≠ null := by
  rintro rfl
  exact h

theorem survivor_node : (node seg c0 c1 cX level data).survivor rs =
    if (rs.advance seg.len).firstBit = 64 then none
    else (((node seg c0 c1 cX level data).child (rs.advance seg.len).getFirstBit).survivor
      ((rs.advance seg.len).advance 1)).or
        (if (node seg c0 c1 cX level data).hasOther (rs.advance seg.len).getFirstBit then
          some (rs.advance seg.len).firstBit else none) := by
  rw [survivor, show seg.getLength.toNat = seg.len from rfl]
  cases (rs.advance seg.len).getFirstBit <;> rfl

/-- A child is replaced: the way through it is that of the new child, and the node itself stays. -/
theorem ends_setChild {p' : List BitValue} :
    ((node seg c0 c1 cX level data).setChild b c).Ends (seg.bits ++ b :: p') e ↔
      e = seg.firstBit + seg.len ∨ c.Ends p' e := by
  obtain ⟨c0', c1', cX', hset, hget⟩ := exists_setChild_eq seg c0 c1 cX level data b c
  have hchild : (node seg c0' c1' cX' level data).child b = c := (hget b).trans (if_pos rfl)
  rw [hset, ends_node]
  constructor
  · rintro ⟨b', p'', heq, hends⟩
    obtain ⟨rfl, rfl⟩ := List.cons.inj (List.append_cancel_left heq)
    rwa [hchild] at hends
  · intro hends
    exact ⟨b, p', rfl, by rwa [hchild]⟩

theorem ends_setChild_of_ne {b' : BitValue} {p' : List BitValue} (hb : b' ≠ b) :
    ((node seg c0 c1 cX level data).setChild b c).Ends (seg.bits ++ b' :: p') e ↔
      (node seg c0 c1 cX level data).Ends (seg.bits ++ b' :: p') e := by
  obtain ⟨c0', c1', cX', hset, hget⟩ := exists_setChild_eq seg c0 c1 cX level data b c
  have hchild : (node seg c0' c1' cX' level data).child b' = (node seg c0 c1 cX level data).child b' :=
    (hget b').trans (if_neg hb)
  rw [hset, ends_node, ends_node]
  refine exists_congr fun b'' => exists_congr fun p'' => and_congr_right fun heq => ?_
  obtain ⟨rfl, rfl⟩ := List.cons.inj (List.append_cancel_left heq)
  rw [hchild]

/-- The ancestor that stays is there after the leaf is erased; if none stays, nothing is left. -/
theorem survivor_spec (h : n.Shape k) (hq : Query rs q k) {d : T} (hmem : (q, d) ∈ n.entries) :
    match n.survivor rs with
    | some e => (n.eraseLeaf rs).Ends q e
    | none => n.eraseLeaf rs = null := by
  induction n using childInduction generalizing k rs q with
  | null => exact absurd hmem List.not_mem_nil
  | node seg c0 c1 cX level data ih =>
    obtain ⟨-, hfirst, -, -, hchild⟩ := shape_node.1 h
    rw [survivor_node, eraseLeaf_node]
    rcases h.exact_cases hq with
      ⟨-, hnot⟩ | ⟨-, ⟨rfl, hend, hleaf⟩ | ⟨b, q', rfl, hend, hinner, hb, hdown⟩⟩
    · exact absurd (prefix_of_mem_entries hmem) hnot
    · rw [if_pos hend, if_pos hend]
    · rw [append_mem_entries (by rw [hfirst]; exact hinner)] at hmem
      have hbelow := ih b (hchild b) hdown hmem
      rw [if_neg hend, if_neg hend, hb]
      cases hs : ((node seg c0 c1 cX level data).child b).survivor ((rs.advance seg.len).advance 1) with
      | some e =>
        rw [hs] at hbelow
        have hsome : ¬ ((node seg c0 c1 cX level data).setChild b (((node seg c0 c1 cX level data).child
            b).eraseLeaf ((rs.advance seg.len).advance 1))).hasNoChild = true := by
          rw [hasNoChild_iff]
          intro hall
          have hnull := hall b
          rw [child_setChild (by simp), if_pos rfl] at hnull
          exact Ends.ne_null hbelow hnull
        rw [if_neg hsome]
        exact ends_setChild.2 (.inr hbelow)
      | none =>
        rw [hs] at hbelow
        -- the child is gone, and the node with it unless it has another one
        have hgone : ((node seg c0 c1 cX level data).child b).eraseLeaf
            ((rs.advance seg.len).advance 1) = null := hbelow
        rw [hgone, Option.none_or, hasOther]
        cases ((node seg c0 c1 cX level data).setChild b null).hasNoChild with
        | true => rfl
        | false =>
          refine ends_setChild.2 (.inl ?_)
          simp [Region.advance, hq.firstBit, hfirst]

variable [Inhabited T]

/-- More rounds than it takes do not change the result. -/
theorem addLoop_mono {partitionLevel : Option Int} {fuel fuel' : Nat} {n' : Node T}
    (hle : fuel ≤ fuel') (h : n.addLoop partitionLevel fuel rs = some n') :
    n.addLoop partitionLevel fuel' rs = some n' := by
  induction fuel generalizing n rs n' fuel' with
  | zero => cases n <;> cases h
  | succ fuel ih =>
    obtain ⟨fuel', rfl⟩ : ∃ f, fuel' = f + 1 := ⟨fuel' - 1, by omega⟩
    cases n with
    | null => cases h
    | node seg c0 c1 cX level data =>
      rw [addLoop] at h ⊢
      split
      · next hm =>
        rw [if_pos hm] at h
        dsimp only at h ⊢
        split
        · next hend =>
          rw [if_pos hend] at h
          exact h
        · next hend =>
          rw [if_neg hend] at h
          obtain ⟨c, hc, rfl⟩ := Option.map_eq_some_iff.1 h
          rw [ih (by omega) hc, Option.map_some]
      · next hm =>
        rw [if_neg hm] at h
        exact ih (by omega) h

/-- The rounds of a walk do not matter if there are enough. -/
theorem addLoop_eq {partitionLevel : Option Int} {fuel fuel' : Nat} (h : n.Shape k) (hq : Query rs q k)
    (hfuel : 2 * q.length + 2 ≤ fuel) (hfuel' : 2 * q.length + 2 ≤ fuel') :
    n.addLoop partitionLevel fuel rs = n.addLoop partitionLevel fuel' rs := by
  cases n with
  | null =>
    cases fuel <;> cases fuel' <;> rfl
  | node seg c0 c1 cX level data =>
    obtain ⟨n', hrun, -⟩ := addLoop_spec partitionLevel (2 * q.length + 2) h hq (by omega) fun _ => le_rfl
    rw [addLoop_mono hfuel hrun, addLoop_mono hfuel' hrun]

theorem createChild_of_ne_null (h : (node seg c0 c1 cX level data).child b ≠ null) :
    (node seg c0 c1 cX level data).createChildIfNecessary b rs = node seg c0 c1 cX level data :=
  if_neg fun hnull => h (isNull_iff.1 hnull)

/-- Adding a region moves no end of a segment. -/
theorem Ends.addLoop {partitionLevel : Option Int} {fuel : Nat} {n' : Node T} (hends : n.Ends p e)
    (h : n.Shape k) (hq : Query rs q k) (hrun : n.addLoop partitionLevel fuel rs = some n') :
    n'.Ends p e := by
  induction fuel generalizing n k rs q p n' with
  | zero => cases n <;> cases hrun
  | succ fuel ih =>
    cases n with
    | null => cases hrun
    | node seg c0 c1 cX level data =>
      obtain ⟨b', p', rfl, hend'⟩ := ends_node.1 hends
      have hlen : seg.getLength.toNat = seg.len := rfl
      rw [Node.addLoop, hlen] at hrun
      dsimp only at hrun
      rcases h.exact_cases hq with
        ⟨hm, hnot⟩ | ⟨hm, ⟨rfl, hend, hleaf⟩ | ⟨b, q', rfl, hend, hinner, hb, hdown⟩⟩
      · -- the node is split: it keeps the end of its segment
        rw [hm, if_neg (by simp)] at hrun
        obtain ⟨pr, c0', c1', cX', level', data', heq, hshape, -, -⟩ := split_spec h hq hnot
        obtain ⟨s, b₁, b₂, s₂, d0, d1, dX, hsplit, hs, hvalid, hseg, rfl, hne, hget⟩ :=
          split_eq h hq hnot
        rw [← heq] at hshape
        refine ih (p := seg.bits ++ b' :: p') ?_ hshape hq hrun
        rw [hsplit, ends_node, hs.bits_eq]
        refine ⟨b₁, ((seg.advance s.length).advance 1).bits ++ b' :: p', ?_, .inr ?_⟩
        · rw [hseg]
          simp
        · rw [hget, if_neg hne, if_pos rfl, ends_node]
          refine ⟨b', p', rfl, hend'.imp (fun heq => ?_) fun hc => ?_⟩
          · have := congrArg List.length hseg
            simp only [Region.length_bits, List.length_append, List.length_cons] at this
            rw [heq]
            show seg.firstBit + seg.len = seg.firstBit + s.length + 1 + _
            omega
          · cases b' <;> exact hc
      · rw [hm, if_pos rfl, if_pos hend] at hrun
        cases hrun
        exact ends_node.2 ⟨b', p', rfl, hend'.imp_right fun hc => by cases b' <;> exact hc⟩
      · rw [hm, if_pos rfl, if_neg hend, hb] at hrun
        obtain ⟨c, hc, rfl⟩ := Option.map_eq_some_iff.1 hrun
        obtain ⟨c0', c1', cX', hcreate, hne, hshape, -, hset⟩ := createChild_spec (b := b) h hdown
        rw [hcreate] at hc ⊢
        rw [hset]
        by_cases hbb : b' = b
        · subst hbb
          refine ends_setChild.2 (hend'.imp_right fun hc' => ih ?_ hshape hdown hc)
          rwa [← hcreate, createChild_of_ne_null hc'.ne_null]
        · exact (ends_setChild_of_ne hbb).2 hends

omit [Inhabited T] in
theorem segmentStart_node : (node seg c0 c1 cX level data).segmentStart e path =
    if (path.advance seg.len).firstBit = e then some seg.firstBit
    else ((node seg c0 c1 cX level data).child (path.advance seg.len).getFirstBit).segmentStart e
      ((path.advance seg.len).advance 1) := by
  rw [segmentStart, show seg.getLength.toNat = seg.len from rfl]
  cases (path.advance seg.len).getFirstBit <;> rfl

theorem addFrom_node {l : Int} : (node seg c0 c1 cX level data).addFrom e rs l path =
    if (path.advance seg.len).firstBit = e then (node seg c0 c1 cX level data).addLoop (some l) 130 rs
    else (((node seg c0 c1 cX level data).child (path.advance seg.len).getFirstBit).addFrom e rs l
      ((path.advance seg.len).advance 1)).map
        ((node seg c0 c1 cX level data).setChild (path.advance seg.len).getFirstBit) := by
  rw [addFrom, show seg.getLength.toNat = seg.len from rfl]
  cases (path.advance seg.len).getFirstBit <;> rfl

omit [Inhabited T] in
/-- Where the ancestor is not the node itself, the path leads on to the child it is below. -/
theorem Ends.below {p' : List BitValue} (h : (node seg c0 c1 cX level data).Shape k)
    (hpath : Query path (seg.bits ++ b :: p') k)
    (hend : e = seg.firstBit + seg.len ∨ ((node seg c0 c1 cX level data).child b).Ends p' e)
    (hne : (path.advance seg.len).firstBit ≠ e) :
    (path.advance seg.len).getFirstBit = b ∧
      Query ((path.advance seg.len).advance 1) p' (k + seg.len + 1) ∧
      ((node seg c0 c1 cX level data).child b).Ends p' e := by
  obtain ⟨-, hfirst, -⟩ := shape_node.1 h
  have hadv := hpath.advance
  rw [Region.length_bits] at hadv
  obtain ⟨hbit, hdown⟩ := hadv.getFirstBit
  exact ⟨hbit, hdown, hend.resolve_left fun heq => hne (by rw [hadv.firstBit, heq, hfirst])⟩

omit [Inhabited T] in
/-- The ancestor is found where its segment starts. -/
theorem Ends.segmentStart (hends : n.Ends p e) (h : n.Shape k) (hpath : Query path p k) :
    ∃ first, n.segmentStart e path = some first ∧ k ≤ first ∧ first ≤ 64 := by
  induction n using childInduction generalizing k path p with
  | null => exact hends.elim
  | node seg c0 c1 cX level data ih =>
    obtain ⟨b, p', rfl, hend⟩ := ends_node.1 hends
    obtain ⟨hvalid, hfirst, hle, -, hchild⟩ := shape_node.1 h
    rw [segmentStart_node]
    split
    · exact ⟨seg.firstBit, rfl, by omega, by omega⟩
    · next hne =>
      obtain ⟨hbit, hdown, hbelow⟩ := Ends.below h hpath hend hne
      obtain ⟨first, hstart, hge, hle64⟩ := ih b hbelow (hchild b) hdown
      exact ⟨first, by rw [hbit, hstart], by omega, hle64⟩

omit [Inhabited T] in
/-- Strings that agree in their first bits start with the same segment. -/
theorem exists_of_take_eq {s p' : List BitValue} {m : Nat} (hm : s.length + 1 ≤ m)
    (h : (s ++ b :: p').take m = q.take m) :
    ∃ q', q = s ++ b :: q' ∧ p'.take (m - (s.length + 1)) = q'.take (m - (s.length + 1)) := by
  have hlen : (s ++ [b]).length = s.length + 1 := by simp
  have hsplit : s ++ b :: p' = (s ++ [b]) ++ p' := by simp
  have hfront : q.take (s.length + 1) = s ++ [b] := by
    rw [← min_eq_left hm, ← List.take_take, ← h, List.take_take, min_eq_left hm, hsplit, ← hlen,
      List.take_left]
  refine ⟨q.drop (s.length + 1), ?_, ?_⟩
  · rw [← List.take_append_drop (s.length + 1) q, hfront, hlen.symm]
    simp
  · have hdrop := congrArg (List.drop (s.length + 1)) h
    rw [List.drop_take, List.drop_take, hsplit] at hdrop
    nth_rewrite 2 [← hlen] at hdrop
    rwa [List.drop_left] at hdrop

/-- **Adding below the ancestor is adding from the top**, for a region with the ancestor's path. -/
theorem addFrom_eq {first fuel : Nat} {l : Int} (hends : n.Ends p e) (h : n.Shape k)
    (hpath : Query path p k) (hq : Query rs q k) (hstart : n.segmentStart e path = some first)
    (hagree : p.take (first - k) = q.take (first - k)) (hfuel : 2 * q.length + 2 ≤ fuel) :
    n.addFrom e (rs.advance (first - k)) l path = n.addLoop (some l) fuel rs := by
  induction n using childInduction generalizing k path p rs q fuel with
  | null => exact hends.elim
  | node seg c0 c1 cX level data ih =>
    have hqlen := hq.length
    obtain ⟨b, p', rfl, hend⟩ := ends_node.1 hends
    obtain ⟨hvalid, hfirst, hle, -, hchild⟩ := shape_node.1 h
    rw [segmentStart_node] at hstart
    rw [addFrom_node]
    split
    · next heq =>
      rw [if_pos heq, hfirst] at hstart
      cases hstart
      rw [Nat.sub_self, Region.advance_zero]
      exact addLoop_eq h hq (by omega) hfuel
    · next hne =>
      obtain ⟨hbit, hdown, hbelow⟩ := Ends.below h hpath hend hne
      rw [if_neg hne, hbit] at hstart
      obtain ⟨first', hstart', hge, -⟩ := hbelow.segmentStart (hchild b) hdown
      obtain rfl : first' = first := Option.some.inj (hstart'.symm.trans hstart)
      -- the region goes the way of the path up to the ancestor
      obtain ⟨q', rfl, hrest⟩ : ∃ q', q = seg.bits ++ b :: q' ∧
          p'.take (first' - (k + seg.len + 1)) = q'.take (first' - (k + seg.len + 1)) := by
        have hlong : seg.bits.length + 1 ≤ first' - k := by
          rw [Region.length_bits]
          omega
        obtain ⟨q', hq', hrest⟩ := exists_of_take_eq hlong hagree
        rw [Region.length_bits, show first' - k - (seg.len + 1) = first' - (k + seg.len + 1) by omega]
          at hrest
        exact ⟨q', hq', hrest⟩
      rcases h.exact_cases hq with
        ⟨-, hnot⟩ | ⟨hm, ⟨hqs, -, -⟩ | ⟨b', q'', hqs, hqend, -, hqbit, hqdown⟩⟩
      · exact absurd (List.prefix_append _ _) hnot
      · have := congrArg List.length hqs
        simp at this
      · obtain ⟨rfl, rfl⟩ := List.cons.inj (List.append_cancel_left hqs)
        obtain ⟨fuel, rfl⟩ : ∃ f, fuel = f + 1 := ⟨fuel - 1, by omega⟩
        have hlen : seg.getLength.toNat = seg.len := rfl
        rw [addLoop, hlen]
        dsimp only
        rw [hm, if_pos rfl, if_neg hqend, hqbit, createChild_of_ne_null hbelow.ne_null, hbit]
        rw [List.length_append, List.length_cons] at hfuel
        have hskip : ((rs.advance seg.len).advance 1).advance (first' - (k + seg.len + 1)) =
            rs.advance (first' - k) := by
          rw [Region.advance_advance, Region.advance_advance,
            show seg.len + (1 + (first' - (k + seg.len + 1))) = first' - k by omega]
        rw [← ih b hbelow (hchild b) hdown hqdown hstart' hrest (by omega), hskip]

end

end Node

/-! ## Parts of a leaf -/

namespace RegionTree

open FullRegion

section
variable {T : Type} [Inhabited T] {root root' : Node T} {m : FullRegion → Option T} {r L s : FullRegion}
  {ancestor : Option Nat}

/-- The ancestor of a deleted leaf is on the leaf's path. -/
def Anchored (root : Node T) (ancestor : Option Nat) (L : FullRegion) : Prop :=
  ∀ e, ancestor = some e → root.Shape 0 ∧ root.Ends L.bits e

theorem not_isEmptyRoot (h : root.Shape 0) : isEmptyRoot root = false := by
  rw [← Bool.not_eq_true]
  intro hempty
  cases root with
  | null => cases hempty
  | node seg c0 c1 cX level data =>
    have hroot : WellShaped (Node.node seg c0 c1 cX level data) := .inr ⟨by simp, h⟩
    rw [hroot.isEmptyRoot_iff.1 hempty] at h
    obtain ⟨-, -, -, hiff, -⟩ := Node.shape_node.1 h
    have hleaf := hiff.2 fun b => by cases b <;> rfl
    simp [Region.len, Region.getLength, Region.empty] at hleaf

theorem addOverlapping_eq (h : root.Shape 0) (level : Option Int) :
    addOverlapping root r.toRegion level = root.addLoop level 130 r.toRegion := by
  cases root with
  | null => rfl
  | node => rw [addOverlapping, not_isEmptyRoot h, if_neg (by simp)]

/-- A part is added as from the root. -/
theorem addPart_eq (hanc : Anchored root ancestor L) (level : Int) :
    addPart L.toRegion ancestor root ⟨s.toRegion, level⟩ =
      addOverlapping root s.toRegion (some level) := by
  cases ancestor with
  | none => rfl
  | some e =>
    obtain ⟨hshape, hends⟩ := hanc e rfl
    obtain ⟨first, hstart, -, hle⟩ := hends.segmentStart hshape (query L)
    rw [addPart, hstart]
    simp only [Option.bind_eq_bind, Option.bind_some]
    split
    · next htest =>
      have htrim := L.spells.trimFrom rfl L.length_bits hle
      have hprefix := (Region.containedExactMatch_iff_isPrefix htrim s.spells (by simp)).1 htest
      have hagree : L.bits.take (first - 0) = s.bits.take (first - 0) := by
        have hlen : (L.bits.take first).length = first := by simp [hle]
        rw [Nat.sub_zero]
        conv_lhs => rw [List.prefix_iff_eq_take.1 hprefix, hlen]
      rw [addOverlappingFrom, not_isEmptyRoot hshape, if_neg (by simp), addOverlapping_eq hshape]
      exact Node.addFrom_eq hends hshape (query L) (query s) hstart hagree (by simp)
    · rfl

theorem Anchored.addOverlapping (hanc : Anchored root ancestor L) {level : Option Int}
    (hadd : addOverlapping root s.toRegion level = some root') : Anchored root' ancestor L := by
  intro e he
  obtain ⟨hshape, hends⟩ := hanc e he
  rw [addOverlapping_eq hshape] at hadd
  refine ⟨?_, hends.addLoop hshape (query s) hadd⟩
  cases root with
  | null => cases hadd
  | node seg c0 c1 cX lvl data =>
    obtain ⟨n', hrun, -, hshape', -⟩ := Node.addLoop_spec level 130 hshape (query s) (by simp) (by simp)
    rw [hadd] at hrun
    rwa [Option.some.inj hrun]

omit [Inhabited T] in
theorem holds_congr {m' : FullRegion → Option T} (h : Holds root m) (heq : ∀ s, m' s = m s) :
    Holds root m' := by
  rwa [funext heq]

/-- The container after regions are added that may be there already. -/
def addAll (m : FullRegion → Option T) (ps : List FullRegion) : FullRegion → Option T :=
  fun s => if s ∈ ps then some ((m s).getD default) else m s

theorem addAll_cons {p : FullRegion} {ps : List FullRegion} {level : Option Int} :
    addAll m (p :: ps) s = addAll (containerStep m (.add p level)) ps s := by
  simp only [addAll, containerStep, List.mem_cons]
  by_cases hsp : s = p
  · subst hsp
    simp
  · simp [hsp]

/-- The loop over the parts of a leaf adds them. -/
theorem addParts_eq {parts : List RegionPart} {ps : List FullRegion} (hroot : WellShaped root)
    (h : Holds root m) (hanc : Anchored root ancestor L) (hparts : Stand parts ps) :
    ∃ root', addParts r.toRegion L.toRegion ancestor false parts root = some (root',
        (ps.filter fun p => p.toRegion.matchesRegion r.toRegion).map toRegion,
        (ps.filter fun p => !p.toRegion.matchesRegion r.toRegion).map toRegion) ∧
      WellShaped root' ∧ Holds root' (addAll m ps) := by
  induction ps generalizing parts root m with
  | nil =>
    obtain rfl := List.map_eq_nil_iff.1 hparts
    exact ⟨root, rfl, hroot, holds_congr h fun s => if_neg List.not_mem_nil⟩
  | cons p ps ih =>
    obtain ⟨level, rest, rfl, hrest⟩ := stand_cons hparts
    obtain ⟨root₁, hadd, hroot₁, h₁⟩ := hroot.addOverlapping h p (some level)
    obtain ⟨root', hrun, hroot', h'⟩ := ih hroot₁ h₁ (hanc.addOverlapping hadd) hrest
    refine ⟨root', ?_, hroot', ?_⟩
    · rw [addParts, Bool.false_and, if_neg (by simp), addPart_eq hanc, hadd]
      simp only [Option.bind_eq_bind, Option.bind_some, hrun]
      cases hm : p.toRegion.matchesRegion r.toRegion <;> simp [hm]
    · exact holds_congr h' fun s => addAll_cons

/-- Writes through iterators to leaves. -/
theorem writeAll {ws : List FullRegion} {d : T} (hroot : WellShaped root) (h : Holds root m)
    (hws : ∀ w ∈ ws, (m w).isSome = true) :
    WellShaped ((ws.map toRegion).foldl (fun root part => root.writeLeaf d part) root) ∧
      Holds ((ws.map toRegion).foldl (fun root part => root.writeLeaf d part) root)
        (fun s => if s ∈ ws then some d else m s) := by
  induction ws generalizing root m with
  | nil => exact ⟨hroot, holds_congr h fun s => if_neg List.not_mem_nil⟩
  | cons w ws ih =>
    obtain ⟨d₀, hd₀⟩ := Option.isSome_iff_exists.1 (hws w (List.mem_cons_self ..))
    obtain ⟨hroot₁, h₁⟩ := hroot.writeLeaf h hd₀ d
    obtain ⟨hroot', h'⟩ := ih hroot₁ h₁ fun w' hw' => by
      simp only [containerStep]
      split
      · rfl
      · exact hws w' (List.mem_cons_of_mem _ hw')
    refine ⟨hroot', holds_congr h' fun s => ?_⟩
    simp only [containerStep, List.mem_cons]
    by_cases hs : s ∈ ws <;> simp [hs]

/-! ### Replacing leaves by their parts -/

theorem stdRemove_of_notMem {l : List Region} {x : Region} (h : x ∉ l) : stdRemove l x = l := by
  have hkeep : l.filter (· ≠ x) = l :=
    List.filter_eq_self.2 fun y hy => decide_eq_true fun heq => h (heq ▸ hy)
  rw [stdRemove, hkeep]
  simp

/-- A leaf is on its own path when it has been erased and an ancestor stays. -/
theorem anchored_erase (hroot : WellShaped root) (h : Holds root m) {d : T} (hL : m L = some d) :
    Anchored (erase root L.toRegion) (root.survivor L.toRegion) L := by
  have hmem := h.mem_iff.2 hL
  rcases hroot with rfl | ⟨-, hshape⟩
  · simp [entries_emptyRoot] at hmem
  intro e he
  have hspec := Node.survivor_spec hshape (query L) hmem
  rw [he] at hspec
  have herase : erase root L.toRegion = root.eraseLeaf L.toRegion := by
    unfold erase
    split
    · next hnull => exact absurd hnull hspec.ne_null
    · rfl
  rw [herase]
  exact ⟨(Node.eraseLeaf_spec hshape (query L) hmem).1, hspec⟩

variable (copy : T → T)

/-- What the parts of a leaf with data `d` hold. -/
def carried (L r : FullRegion) (d : T) : T :=
  if L.toRegion.getPrefixUntilThisSubsumes r.toRegion then copy d else d

/-- The container after the leaf `L` is replaced by leaves that hold `d`. -/
def replaced (m : FullRegion → Option T) (L : FullRegion) (ps : List FullRegion) (d : T) :
    FullRegion → Option T :=
  fun s => if s ∈ ps then some d else if s = L then none else m s

variable (wide : BitVec 64 → Option (BitVec 64))

/-- One round of `partition` replaces a leaf by its parts and outputs what it has in common with the
region. -/
theorem partitionNode_eq (hroot : WellShaped root) (h : Holds root m) {d : T} (hL : m L = some d)
    (hint : L.Intersects r) (hcut : ¬ L.CutLast r) {output : List Region} (hout : L.toRegion ∉ output) :
    ∃ root', partitionNode wide copy r.toRegion true false (-1) (root, output) L.toRegion =
        some (root', output ++ [(L.meet r).toRegion]) ∧
      WellShaped root' ∧ Holds root' (replaced m L (L.cut r) (carried copy L r d)) := by
  rw [partitionNode]
  simp only [stdRemove_of_notMem hout]
  cases hsub : L.toRegion.getPrefixUntilThisSubsumes r.toRegion with
  | false =>
    refine ⟨root, ?_, hroot, holds_congr h fun s => ?_⟩
    · simp [meet_eq_self hsub hint]
    · rw [replaced, carried, hsub, cut_eq_self hsub]
      by_cases hs : s = L
      · simp [hs, hL]
      · simp [hs]
  | true =>
    obtain ⟨hroot₁, h₁⟩ := hroot.erase h hL
    obtain ⟨parts, hparts, hstand⟩ := partition_eq wide hcut (root.leafLevel L.toRegion)
    obtain ⟨root₂, hadd, hroot₂, h₂⟩ :=
      addParts_eq (r := r) hroot₁ h₁ (anchored_erase hroot h hL) hstand
    have hmem : ∀ s, s ∈ (L.cut r).filter (fun p => p.toRegion.matchesRegion r.toRegion) ++
        (L.cut r).filter (fun p => !p.toRegion.matchesRegion r.toRegion) ↔ s ∈ L.cut r := by
      intro s
      rw [List.mem_append, List.mem_filter, List.mem_filter, ← and_or_left]
      cases s.toRegion.matchesRegion r.toRegion <;> simp
    obtain ⟨hroot₃, h₃⟩ := writeAll (d := copy d) hroot₂ h₂ fun s hs => by
      rw [addAll, if_pos ((hmem s).1 hs)]
      rfl
    refine ⟨_, ?_, hroot₃, holds_congr h₃ fun s => ?_⟩
    · simp only [if_true, hroot.findExact_eq h, hL, hparts, hadd, Option.bind_eq_bind, Option.bind_some,
        List.map_append, List.append_nil]
      rw [filter_cut hint]
      rfl
    · simp only [hmem]
      rw [replaced, carried, hsub, if_pos rfl, addAll, containerStep]
      by_cases hs : s ∈ L.cut r <;> simp [hs]

/-- The entries of `m'` are those of `m`, with the regions of `Ls` replaced by their parts. -/
def CutInto (m : FullRegion → Option T) (r : FullRegion) (Ls : List FullRegion)
    (m' : FullRegion → Option T) : Prop :=
  ∀ s d', m' s = some d' ↔ s ∉ Ls ∧ m s = some d' ∨
    ∃ L ∈ Ls, s ∈ L.cut r ∧ ∃ d, m L = some d ∧ d' = carried copy L r d

/-- What the rounds of `partition` rely on: the leaves they go through are entries that intersect the
region, each once, and no other entry intersects them. -/
structure Separate (m : FullRegion → Option T) (r : FullRegion) (Ls : List FullRegion) : Prop where
  nodup : Ls.Nodup
  leaf : ∀ L ∈ Ls, ∃ d, m L = some d
  meets : ∀ L ∈ Ls, L.Intersects r
  apart : ∀ s d, m s = some d → ∀ L ∈ Ls, s ≠ L → ¬ s.Intersects L

variable {copy} {wide} {Ls : List FullRegion} {d : T}

omit [Inhabited T] in
theorem replaced_eq_some {ps : List FullRegion} {d' : T} : replaced m L ps d s = some d' ↔
    s ∈ ps ∧ d' = d ∨ s ∉ ps ∧ s ≠ L ∧ m s = some d' := by
  unfold replaced
  split
  · next hs => simp [hs, eq_comm]
  · next hs =>
    split
    · next heq =>
      subst heq
      simp [hs]
    · next hne => simp [hs, hne]

omit [Inhabited T] in
/-- A part of a leaf is none of the leaves still to come, nor another entry. -/
theorem Separate.not_mem_cut (h : Separate m r (L :: Ls)) (hs : m s = some d) (hne : s ≠ L) :
    s ∉ L.cut r := by
  intro hmem
  have hself : s.Intersects L := by
    obtain ⟨x, hx, -⟩ := s.intersects_self
    exact ⟨x, hx, contains_of_mem_cut hmem hx⟩
  exact h.apart s d hs L (List.mem_cons_self ..) hne hself

omit [Inhabited T] in
theorem Separate.ne (h : Separate m r (L :: Ls)) {L' : FullRegion} (hL' : L' ∈ Ls) : L' ≠ L := by
  rintro rfl
  exact (List.nodup_cons.1 h.nodup).1 hL'

omit [Inhabited T] in
theorem Separate.of_replaced (h : Separate m r (L :: Ls)) (d : T) :
    Separate (replaced m L (L.cut r) d) r Ls := by
  have hleaf : ∀ L' ∈ Ls, ∃ d', m L' = some d' := fun L' hL' => h.leaf L' (List.mem_cons_of_mem _ hL')
  refine ⟨(List.nodup_cons.1 h.nodup).2, fun L' hL' => ?_, fun L' hL' => h.meets L' ?_, ?_⟩
  · obtain ⟨d', hd'⟩ := hleaf L' hL'
    exact ⟨d', replaced_eq_some.2 (.inr ⟨h.not_mem_cut hd' (h.ne hL'), h.ne hL', hd'⟩)⟩
  · exact List.mem_cons_of_mem _ hL'
  · intro s d' hs L' hL' hne
    rcases replaced_eq_some.1 hs with ⟨hmem, -⟩ | ⟨-, -, hs⟩
    · intro hint
      obtain ⟨d₀, hd₀⟩ := h.leaf L (List.mem_cons_self ..)
      exact h.apart L d₀ hd₀ L' (List.mem_cons_of_mem _ hL') (h.ne hL').symm
        (intersects_of_mem_cut hmem hint)
    · exact h.apart s d' hs L' (List.mem_cons_of_mem _ hL') hne

omit [Inhabited T] in
/-- A leaf is replaced, and then the others. -/
theorem Separate.cutInto_cons (h : Separate m r (L :: Ls)) (hL : m L = some d)
    {m' : FullRegion → Option T}
    (hm' : CutInto copy (replaced m L (L.cut r) (carried copy L r d)) r Ls m') :
    CutInto copy m r (L :: Ls) m' := by
  -- the entries of the other leaves have not changed
  have hother : ∀ L' ∈ Ls, ∀ d', replaced m L (L.cut r) (carried copy L r d) L' = some d' ↔
      m L' = some d' := by
    intro L' hL' d'
    rw [replaced_eq_some]
    constructor
    · rintro (⟨hmem, -⟩ | ⟨-, -, hd'⟩)
      · obtain ⟨d₀, hd₀⟩ := h.leaf L' (List.mem_cons_of_mem _ hL')
        exact absurd hmem (h.not_mem_cut hd₀ (h.ne hL'))
      · exact hd'
    · intro hd'
      exact .inr ⟨h.not_mem_cut hd' (h.ne hL'), h.ne hL', hd'⟩
  intro s d'
  rw [hm' s d', replaced_eq_some]
  constructor
  · rintro (⟨hs, ⟨hmem, rfl⟩ | ⟨-, hne, hd'⟩⟩ | ⟨L', hL', hmem, d₀, hd₀, rfl⟩)
    · exact .inr ⟨L, List.mem_cons_self .., hmem, d, hL, rfl⟩
    · exact .inl ⟨by simp [hne, hs], hd'⟩
    · exact .inr ⟨L', List.mem_cons_of_mem _ hL', hmem, d₀, (hother L' hL' d₀).1 hd₀, rfl⟩
  · rintro (⟨hs, hd'⟩ | ⟨L', hL', hmem, d₀, hd₀, rfl⟩)
    · obtain ⟨hne, hs⟩ := not_or.1 (List.mem_cons.not.1 hs)
      exact .inl ⟨hs, .inr ⟨h.not_mem_cut hd' hne, hne, hd'⟩⟩
    · rcases List.mem_cons.1 hL' with rfl | hL'
      · obtain rfl : d = d₀ := Option.some.inj (hL.symm.trans hd₀)
        refine .inl ⟨fun hs => ?_, .inl ⟨hmem, rfl⟩⟩
        obtain ⟨d₁, hd₁⟩ := h.leaf s (List.mem_cons_of_mem _ hs)
        exact h.not_mem_cut hd₁ (h.ne hs) hmem
      · exact .inr ⟨L', hL', hmem, d₀, (hother L' hL' d₀).2 hd₀, rfl⟩

omit [Inhabited T] in
/-- What a leaf has in common with the region is none of the leaves still to come. -/
theorem Separate.meet_ne (h : Separate m r (L :: Ls)) {L' : FullRegion} (hL' : L' ∈ Ls) :
    L'.toRegion ≠ (L.meet r).toRegion := by
  intro heq
  obtain ⟨d', hd'⟩ := h.leaf L' (List.mem_cons_of_mem _ hL')
  refine h.not_mem_cut hd' (h.ne hL') ?_
  rw [toRegion_injective heq]
  exact meet_mem_cut (h.meets L (List.mem_cons_self ..))

variable (copy) (wide) in
/-- `partition` replaces the leaves by their parts. -/
theorem partition_spec {output : List Region} (hroot : WellShaped root) (h : Holds root m)
    (hLs : Separate m r Ls) (hcut : ∀ L ∈ Ls, ¬ L.CutLast r) (hout : ∀ L ∈ Ls, L.toRegion ∉ output) :
    ∃ root' m', partition wide copy root (Ls.map toRegion) r.toRegion true false output (-1) =
        some (root', output ++ (Ls.map (·.meet r)).map toRegion) ∧
      WellShaped root' ∧ Holds root' m' ∧ CutInto copy m r Ls m' := by
  induction Ls generalizing root m output with
  | nil => exact ⟨root, m, by simp [partition], hroot, h, fun s d' => by simp⟩
  | cons L Ls ih =>
    obtain ⟨d, hL⟩ := hLs.leaf L (List.mem_cons_self ..)
    obtain ⟨root₁, hrun₁, hroot₁, h₁⟩ := partitionNode_eq copy wide hroot h hL
      (hLs.meets L (List.mem_cons_self ..)) (hcut L (List.mem_cons_self ..))
      (hout L (List.mem_cons_self ..))
    obtain ⟨root', m', hrun, hroot', h', hm'⟩ := ih hroot₁ h₁ (hLs.of_replaced _)
      (fun L' hL' => hcut L' (List.mem_cons_of_mem _ hL')) fun L' hL' hmem => by
        rcases List.mem_append.1 hmem with hmem | hmem
        · exact hout L' (List.mem_cons_of_mem _ hL') hmem
        · exact hLs.meet_ne hL' (List.mem_singleton.1 hmem)
    refine ⟨root', m', ?_, hroot', h', hLs.cutInto_cons hL hm'⟩
    rw [partition, List.map_cons, List.foldlM_cons, hrun₁]
    simp only [partition] at hrun
    simp [hrun]

/-- Where a shift by the width gives nothing, a leaf that is cut at its last bit ends `partition`. -/
theorem partition_eq_none {output : List Region} (hroot : WellShaped root) (h : Holds root m)
    (hLs : Separate m r Ls) (hcut : ∃ L ∈ Ls, L.CutLast r) (hout : ∀ L ∈ Ls, L.toRegion ∉ output) :
    partition (fun _ => none) copy root (Ls.map toRegion) r.toRegion true false output (-1) = none := by
  induction Ls generalizing root m output with
  | nil =>
    obtain ⟨L, hL, -⟩ := hcut
    cases hL
  | cons L Ls ih =>
    obtain ⟨d, hL⟩ := hLs.leaf L (List.mem_cons_self ..)
    rw [partition, List.map_cons, List.foldlM_cons]
    by_cases hlast : L.CutLast r
    · have hsub : L.toRegion.getPrefixUntilThisSubsumes r.toRegion = true := by
        have hpos : Strings.splitPos L.bits r.bits = some 63 := hlast
        rw [getPrefixUntilThisSubsumes_eq, hpos]
        rfl
      rw [partitionNode]
      simp only [hsub, if_true, hroot.findExact_eq h, hL, FullRegion.partition_eq_none hlast]
      rfl
    · obtain ⟨root₁, hrun₁, hroot₁, h₁⟩ := partitionNode_eq copy (fun _ => none) hroot h hL
        (hLs.meets L (List.mem_cons_self ..)) hlast (hout L (List.mem_cons_self ..))
      rw [hrun₁]
      refine ih hroot₁ h₁ (hLs.of_replaced _) ?_ fun L' hL' hmem => ?_
      · obtain ⟨L', hL', hlast'⟩ := hcut
        rcases List.mem_cons.1 hL' with rfl | hL'
        · exact absurd hlast' hlast
        · exact ⟨L', hL', hlast'⟩
      · rcases List.mem_append.1 hmem with hmem | hmem
        · exact hout L' (List.mem_cons_of_mem _ hL') hmem
        · exact hLs.meet_ne hL' (List.mem_singleton.1 hmem)

/-- The leaves that a search finds, as full-width regions. -/
theorem exists_matching (hroot : WellShaped root) (h : Holds root m) (q : FullRegion) :
    ∃ exact out, ∃ Ls : List FullRegion, findExactAndMatching root q.toRegion = some (exact, out) ∧
      out.map (·.region) = Ls.map toRegion ∧ Ls.Nodup ∧
      (∀ s, s ∈ Ls ↔ (∃ d, m s = some d) ∧ s.Intersects q ∧ s ≠ q) ∧ (exact = none ↔ m q = none) ∧
      ∀ it, exact = some it → it.region = q.toRegion := by
  obtain ⟨exact, out, hrun, hexact, hnone, hnodup, hmem⟩ :=
    (hroot.container h).findExactAndMatching q
  have hfull : ∀ x ∈ out.map (·.region), ∃ s : FullRegion, s.toRegion = x := by
    intro x hx
    obtain ⟨it, hit, rfl⟩ := List.mem_map.1 hx
    obtain ⟨s, hs, -⟩ := (hmem _ _).1 ⟨it, hit, rfl, rfl⟩
    exact ⟨s, hs.symm⟩
  obtain ⟨Ls, hLs⟩ : ∃ Ls : List FullRegion, out.map (·.region) = Ls.map toRegion := by
    have hrange : out.map (·.region) ∈ Set.range (List.map toRegion) := by
      rw [Set.range_list_map]
      exact hfull
    obtain ⟨Ls, hLs⟩ := hrange
    exact ⟨Ls, hLs.symm⟩
  refine ⟨exact, out, Ls, hrun, hLs, ?_, fun s => ?_, hnone, fun it hit => ?_⟩
  · rw [hLs] at hnodup
    exact hnodup.of_map _
  · have hmemLs : s ∈ Ls ↔ s.toRegion ∈ out.map (·.region) := by
      rw [hLs, List.mem_map_of_injective toRegion_injective]
    rw [hmemLs, List.mem_map]
    constructor
    · rintro ⟨it, hit, hregion⟩
      obtain ⟨s', hs', hd, hint, hne⟩ := (hmem _ _).1 ⟨it, hit, hregion, rfl⟩
      obtain rfl := toRegion_injective hs'
      exact ⟨⟨_, hd⟩, hint, hne⟩
    · rintro ⟨⟨d, hd⟩, hint, hne⟩
      obtain ⟨it, hit, hregion, -⟩ := (hmem s.toRegion d).2 ⟨s, rfl, hd, hint, hne⟩
      exact ⟨it, hit, hregion⟩
  · have hsome : m q ≠ none := by
      rw [Ne, ← hnone, hit]
      simp
    obtain ⟨d, hd⟩ := Option.ne_none_iff_exists'.1 hsome
    obtain ⟨it', hit', hregion, -⟩ := (hexact d).2 hd
    rw [hit] at hit'
    cases hit'
    exact hregion

end

end RegionTree

end OmpSs.Support
