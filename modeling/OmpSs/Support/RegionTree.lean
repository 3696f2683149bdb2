import OmpSs.Support.Region
import Mathlib.Data.List.Nodup

/-!
# Region trees

`RegionTree<T>` (`nanox-mx/src/support/regiontree.hpp`, `regiontreenode.hpp`) maps full-width regions
to data. A node holds a segment of the strings below it and up to three children, one for each value
of the bit that follows the segment; a node whose path is 64 bits long is a leaf and holds the data of
one region. Insertion splits a node whose segment does not fit, `erase` removes a leaf with the nodes
that have become empty, and the searches follow every child that the wanted region may be in.

This is the build without `REGION_TREE_BOUNDING`. A pointer to a node is modelled by the node, the
NULL pointer by `null`, an update below a node by the node with that child replaced. An iterator
points to a leaf; since a leaf is reached by following its own region, the region stands for it.
-/

namespace OmpSs.Support

/-- Source: `RegionTree::Node` (`regiontreenode_decl.hpp:36`). -/
inductive Node (T : Type*)
  | null
  | node (regionSegment : Region) (child0 child1 childX : Node T) (partitionLevel : Int) (data : T)

namespace Node

section
variable {T : Type*}

def isNull : Node T → Bool
  | null => true
  | node .. => false

/-- Source: `m_children[bit]`. -/
def child : Node T → BitValue → Node T
  | null, _ => null
  | node _ c0 _ _ _ _, .BIT_0 => c0
  | node _ _ c1 _ _ _, .BIT_1 => c1
  | node _ _ _ cX _ _, .X => cX

def setChild : Node T → BitValue → Node T → Node T
  | null, _, _ => null
  | node seg _ c1 cX level data, .BIT_0, c => node seg c c1 cX level data
  | node seg c0 _ cX level data, .BIT_1, c => node seg c0 c cX level data
  | node seg c0 c1 _ level data, .X, c => node seg c0 c1 c level data

def hasNoChild (n : Node T) : Bool :=
  (n.child .BIT_0).isNull ∧ (n.child .BIT_1).isNull ∧ (n.child .X).isNull

/-- Source: `Node::init` (`regiontreenode.hpp:34`, `:48`). -/
def init (regionSegment : Region) (data : T) : Node T := node regionSegment null null null 0 data

variable [Inhabited T]

/-- Source: `createChildIfNecessary` (`regiontreenode.hpp:79`). -/
def createChildIfNecessary (n : Node T) (bit : BitValue) (regionSegment : Region) : Node T :=
  if (n.child bit).isNull then n.setChild bit (init regionSegment default) else n

/-- Source: `split` (`regiontreenode.hpp:156`), with `createNewChild`: the new parent of `n`. -/
def split (n : Node T) (otherRegionSegment : Region) : Node T :=
  match n with
  | null => null
  | node regionSegment c0 c1 cX level data =>
    let newParentRegion := regionSegment.getCommonPrefix otherRegionSegment
    let newParent : Node T := init newParentRegion default
    -- link this
    let regionSegment := regionSegment.advance newParentRegion.getLength.toNat
    let newParent := newParent.setChild regionSegment.getFirstBit
      (node (regionSegment.advance 1) c0 c1 cX level data)
    -- create and link the new node
    let otherRegionSegment := otherRegionSegment.advance newParentRegion.getLength.toNat
    newParent.setChild otherRegionSegment.getFirstBit (init (otherRegionSegment.advance 1) default)

/-- The loop of `addOverlapping` (`regiontree.hpp:527`, `:592`) from a node on. The two overloads
differ in whether they set the partition level of the leaf. -/
def addLoop (partitionLevel : Option Int) : Nat → Node T → Region → Option (Node T)
  | 0, _, _ => none
  | _ + 1, null, _ => none
  | fuel + 1, node seg c0 c1 cX level data, regionSegment =>
    if seg.containedExactMatch regionSegment then
      let regionSegment := regionSegment.advance seg.getLength.toNat
      if regionSegment.firstBit = 64 then
        some (node seg c0 c1 cX (partitionLevel.getD level) data)
      else
        -- advance to (and create if necessary) the next node
        let childBit := regionSegment.getFirstBit
        let regionSegment := regionSegment.advance 1
        let currentNode :=
          (node seg c0 c1 cX level data).createChildIfNecessary childBit regionSegment
        (addLoop partitionLevel fuel (currentNode.child childBit) regionSegment).map
          (currentNode.setChild childBit)
    else
      -- no match possible, so then split the node
      addLoop partitionLevel fuel ((node seg c0 c1 cX level data).split regionSegment) regionSegment

/-- The upward walk of `iterator::erase` (`regiontree.hpp:165`), seen from the top: what is left of a
node when the leaf of `regionSegment` below it is deleted, and every node that loses its last child. -/
def eraseLeaf : Node T → Region → Node T
  | null, _ => null
  | node seg c0 c1 cX level data, regionSegment =>
    let regionSegment := regionSegment.advance seg.getLength.toNat
    if regionSegment.firstBit = 64 then null
    else
      let rest := regionSegment.advance 1
      let parent :=
        match regionSegment.getFirstBit with
        | .BIT_0 => node seg (c0.eraseLeaf rest) c1 cX level data
        | .BIT_1 => node seg c0 (c1.eraseLeaf rest) cX level data
        | .X => node seg c0 c1 (cX.eraseLeaf rest) level data
      if parent.hasNoChild then null else parent

/-- Source: `*iterator = data`: a write through the iterator of a leaf. -/
def writeLeaf (newData : T) : Node T → Region → Node T
  | null, _ => null
  | node seg c0 c1 cX level data, regionSegment =>
    let regionSegment := regionSegment.advance seg.getLength.toNat
    if regionSegment.firstBit = 64 then node seg c0 c1 cX level newData
    else
      let rest := regionSegment.advance 1
      match regionSegment.getFirstBit with
      | .BIT_0 => node seg (c0.writeLeaf newData rest) c1 cX level data
      | .BIT_1 => node seg c0 (c1.writeLeaf newData rest) cX level data
      | .X => node seg c0 c1 (cX.writeLeaf newData rest) level data

end

end Node

/-- Source: `RegionTree::iterator` (`regiontree.hpp:116`): a leaf, by its region, with what the node
holds. -/
structure RegionIterator (T : Type*) where
  region : Region
  data : T
  partitionLevel : Int

/-- Source: `TraversalNode` (`regiontree.hpp:41`). -/
structure TraversalNode (T : Type*) where
  traversedRegionSegment : Region
  regionSegment : Region
  branch : Node T

section
variable {T : Type*}

/-- One of the three `Match` blocks of a search: push the child for a bit. -/
def pushChild (traversedSegment regionSegment : Region) (bit : BitValue) (c : Node T)
    (pendingNodes : List (TraversalNode T)) : List (TraversalNode T) :=
  if regionSegment.firstBitMatches bit ∧ ¬ c.isNull then
    ⟨traversedSegment.addBit bit, regionSegment.advance 1, c⟩ :: pendingNodes
  else pendingNodes

/-- The loop of `find` (`regiontree.hpp:218`) and `findExactAndMatching` (`:380`), which differ in
what they do with a leaf (`visit`). The last node of `pendingNodes` is the head of the list. -/
def traverse {σ : Type*} (visit : σ → RegionIterator T → σ) :
    Nat → List (TraversalNode T) → σ → Option σ
  | _, [], output => some output
  | 0, _ :: _, _ => none
  | _ + 1, ⟨_, _, .null⟩ :: _, _ => none
  | fuel + 1, ⟨traversed, regionSegment, .node seg c0 c1 cX level data⟩ :: pendingNodes, output =>
    if seg.containedMatch regionSegment then
      let traversedSegment := traversed.append seg
      let regionSegment := regionSegment.advance seg.getLength.toNat
      if regionSegment.firstBit = 64 then
        traverse visit fuel pendingNodes (visit output ⟨traversedSegment, data, level⟩)
      else
        let pendingNodes := pushChild traversedSegment regionSegment .BIT_0 c0 pendingNodes
        let pendingNodes := pushChild traversedSegment regionSegment .BIT_1 c1 pendingNodes
        let pendingNodes := pushChild traversedSegment regionSegment .X cX pendingNodes
        traverse visit fuel pendingNodes output
    else traverse visit fuel pendingNodes output

/-- The number of nodes, which bounds the rounds of a search. -/
def Node.size : Node T → Nat
  | .null => 0
  | .node _ c0 c1 cX _ _ => c0.size + c1.size + cX.size + 1

/-- Source: `find` (`regiontree.hpp:868`), over the root. -/
def find (root : Node T) (region : Region) : Option (List (RegionIterator T)) :=
  traverse (fun output it => output ++ [it]) root.size [⟨.empty, region, root⟩] []

/-- Source: `findExactAndMatching` (`regiontree.hpp:903`): the leaf of `region`, if there is one, and
the other leaves that match. -/
def findExactAndMatching (root : Node T) (region : Region) :
    Option (Option (RegionIterator T) × List (RegionIterator T)) :=
  traverse (fun output it =>
      if region = it.region then (some it, output.2) else (output.1, output.2 ++ [it]))
    root.size [⟨.empty, region, root⟩] (none, [])

/-- Source: `findExact` (`regiontree.hpp:466`), from a node on. -/
def findExact : Node T → Region → Option T
  | .null, _ => none
  | .node seg c0 c1 cX _ data, regionSegment =>
    if seg.containedExactMatch regionSegment then
      let regionSegment := regionSegment.advance seg.getLength.toNat
      if regionSegment.firstBit = 64 then some data
      else
        match regionSegment.getFirstBit with
        | .BIT_0 => findExact c0 (regionSegment.advance 1)
        | .BIT_1 => findExact c1 (regionSegment.advance 1)
        | .X => findExact cX (regionSegment.advance 1)
    else none

variable [Inhabited T]

/-- Source: `RegionTree()` (`regiontree.hpp:209`), and the root after `clear`. -/
def emptyRoot : Node T := Node.init .empty default

/-- The root of a tree without entries. -/
def isEmptyRoot : Node T → Bool
  | .null => false
  | .node seg c0 c1 cX _ _ => seg.isEmpty ∧ c0.isNull ∧ c1.isNull ∧ cX.isNull

/-- Source: `addOverlapping` (`regiontree.hpp:527`, `:592`). A node is split at most once and every
other round advances by at least one bit, so 130 rounds are enough. -/
def addOverlapping (root : Node T) (region : Region) (partitionLevel : Option Int) :
    Option (Node T) :=
  match root with
  | .null => none
  | .node _ c0 c1 cX level data =>
    if isEmptyRoot root then some (.node region c0 c1 cX (partitionLevel.getD level) data)
    else root.addLoop partitionLevel 130 region

/-- Source: `iterator::erase` (`regiontree.hpp:165`). The root is cleared and not deleted. -/
def erase (root : Node T) (region : Region) : Node T :=
  match root.eraseLeaf region with
  | .null => emptyRoot
  | n => n

end

/-! ## Entries -/

section
variable {T : Type*}

/-- The leaves below a node: a leaf is a node whose path is 64 bits long. The strings start after the
path of the node itself. -/
def Node.entries : Node T → List (List BitValue × T)
  | .null => []
  | .node seg c0 c1 cX _ data =>
    if seg.firstBit + seg.len = 64 then [(seg.bits, data)]
    else
      (cX.entries.map fun e => (seg.bits ++ .X :: e.1, e.2)) ++
      (c1.entries.map fun e => (seg.bits ++ .BIT_1 :: e.1, e.2)) ++
      (c0.entries.map fun e => (seg.bits ++ .BIT_0 :: e.1, e.2))

/-- The shape of a subtree whose strings start at bit `k`: segments are valid and follow one another,
a leaf has no children, and every other node has one. -/
def Node.Shape : Node T → Nat → Prop
  | .null, _ => True
  | .node seg c0 c1 cX level data, k =>
    seg.Valid ∧ seg.firstBit = k ∧ k + seg.len ≤ 64 ∧
      (k + seg.len = 64 ↔ (Node.node seg c0 c1 cX level data).hasNoChild = true) ∧
      c0.Shape (k + seg.len + 1) ∧ c1.Shape (k + seg.len + 1) ∧ cX.Shape (k + seg.len + 1)

namespace Node

section
variable {n c : Node T} {seg : Region} {c0 c1 cX : Node T} {level : Int} {data : T}
  {b b' : BitValue} {k : Nat} {l' : List BitValue}

@[simp] theorem child_setChild (h : n ≠ null) :
    (n.setChild b c).child b' = if b' = b then c else n.child b' := by
  cases n with
  | null => exact absurd rfl h
  | node => cases b <;> cases b' <;> rfl

theorem isNull_iff : n.isNull = true ↔ n = null := by
  cases n <;> simp [isNull]

theorem hasNoChild_iff : n.hasNoChild = true ↔ ∀ b, n.child b = null := by
  simp only [hasNoChild, isNull_iff, decide_eq_true_eq]
  constructor
  · rintro ⟨h0, h1, hX⟩ b
    cases b <;> assumption
  · intro h
    exact ⟨h _, h _, h _⟩

/-- Induction over the tree with the children given by their bit. -/
@[elab_as_elim]
theorem childInduction {P : Node T → Prop} (null : P null)
    (node : ∀ seg c0 c1 cX level data,
      (∀ b, P ((node seg c0 c1 cX level data).child b)) → P (node seg c0 c1 cX level data))
    (n : Node T) : P n := by
  induction n with
  | null => exact null
  | node seg c0 c1 cX level data h0 h1 hX =>
    refine node seg c0 c1 cX level data fun b => ?_
    cases b <;> assumption

/-- Only the child for the bit changes. -/
theorem exists_setChild_eq (seg : Region) (c0 c1 cX : Node T) (level : Int) (data : T)
    (b : BitValue) (c : Node T) : ∃ c0' c1' cX',
      (node seg c0 c1 cX level data).setChild b c = node seg c0' c1' cX' level data ∧
      ∀ b', (node seg c0' c1' cX' level data).child b' =
        if b' = b then c else (node seg c0 c1 cX level data).child b' := by
  have hget : ∀ b', ((node seg c0 c1 cX level data).setChild b c).child b' =
      if b' = b then c else (node seg c0 c1 cX level data).child b' :=
    fun b' => child_setChild (by simp)
  cases b <;> exact ⟨_, _, _, rfl, hget⟩

theorem shape_node : (node seg c0 c1 cX level data).Shape k ↔
    seg.Valid ∧ seg.firstBit = k ∧ k + seg.len ≤ 64 ∧
      (k + seg.len = 64 ↔ ∀ b, (node seg c0 c1 cX level data).child b = null) ∧
      ∀ b, ((node seg c0 c1 cX level data).child b).Shape (k + seg.len + 1) := by
  rw [Shape, hasNoChild_iff]
  refine and_congr_right fun _ => and_congr_right fun _ => and_congr_right fun _ =>
    and_congr_right fun _ => ?_
  constructor
  · rintro ⟨h0, h1, hX⟩ b
    cases b <;> assumption
  · intro h
    exact ⟨h .BIT_0, h .BIT_1, h .X⟩

/-- The entries of an inner node are those of its children, with the segment and the bit in front. -/
theorem mem_entries_node (h : seg.firstBit + seg.len ≠ 64) {e : List BitValue} {d : T} :
    (e, d) ∈ (node seg c0 c1 cX level data).entries ↔ ∃ b e', e = seg.bits ++ b :: e' ∧
      (e', d) ∈ ((node seg c0 c1 cX level data).child b).entries := by
  simp only [entries, if_neg h, List.mem_append, List.mem_map, Prod.mk.injEq, Prod.exists]
  constructor
  · rintro ((⟨e', d', hmem, rfl, rfl⟩ | ⟨e', d', hmem, rfl, rfl⟩) | ⟨e', d', hmem, rfl, rfl⟩)
    · exact ⟨.X, e', rfl, hmem⟩
    · exact ⟨.BIT_1, e', rfl, hmem⟩
    · exact ⟨.BIT_0, e', rfl, hmem⟩
  · rintro ⟨b, e', rfl, hmem⟩
    cases b
    · exact .inr ⟨e', d, hmem, rfl, rfl⟩
    · exact .inl (.inr ⟨e', d, hmem, rfl, rfl⟩)
    · exact .inl (.inl ⟨e', d, hmem, rfl, rfl⟩)

theorem append_mem_entries (h : seg.firstBit + seg.len ≠ 64) {e : List BitValue} {d : T} :
    (seg.bits ++ b :: e, d) ∈ (node seg c0 c1 cX level data).entries ↔
      (e, d) ∈ ((node seg c0 c1 cX level data).child b).entries := by
  rw [mem_entries_node h]
  constructor
  · rintro ⟨b', e', heq, hmem⟩
    obtain ⟨rfl, rfl⟩ := List.cons.inj (List.append_cancel_left heq)
    exact hmem
  · intro hmem
    exact ⟨b, e, rfl, hmem⟩

/-- An entry below a node starts with its segment. -/
theorem prefix_of_mem_entries {e : List BitValue} {d : T}
    (h : (e, d) ∈ (node seg c0 c1 cX level data).entries) : seg.bits <+: e := by
  by_cases hleaf : seg.firstBit + seg.len = 64
  · rw [entries, if_pos hleaf] at h
    cases List.mem_singleton.1 h
    exact List.prefix_rfl
  · obtain ⟨b, e', rfl, -⟩ := (mem_entries_node hleaf).1 h
    exact List.prefix_append _ _

theorem entries_leaf (h : seg.firstBit + seg.len = 64) :
    (node seg c0 c1 cX level data).entries = [(seg.bits, data)] := by
  rw [entries, if_pos h]

/-- No region has two leaves. -/
theorem nodup_entries (n : Node T) : (n.entries.map Prod.fst).Nodup := by
  induction n with
  | null => exact List.nodup_nil
  | node seg c0 c1 cX level data h0 h1 hX =>
    rw [entries]
    split
    · exact List.nodup_singleton _
    · have hmap : ∀ (b : BitValue) (l : List (List BitValue × T)), (l.map Prod.fst).Nodup →
          (l.map fun e => seg.bits ++ b :: e.1).Nodup := by
        intro b l hl
        have := hl.map (f := fun e => seg.bits ++ b :: e) fun e e' he => by simpa using he
        simpa [List.map_map, Function.comp_def] using this
      have hdisjoint : ∀ {b b' : BitValue} (l l' : List (List BitValue × T)), b ≠ b' →
          List.Disjoint (l.map fun e => seg.bits ++ b :: e.1)
            (l'.map fun e => seg.bits ++ b' :: e.1) := by
        intro b b' l l' hne x hx hx'
        obtain ⟨e, -, rfl⟩ := List.mem_map.1 hx
        obtain ⟨e', -, he'⟩ := List.mem_map.1 hx'
        exact hne (List.cons.inj (List.append_cancel_left he')).1.symm
      simp only [List.map_append, List.map_map, Function.comp_def]
      refine List.Nodup.append (List.Nodup.append (hmap _ _ hX) (hmap _ _ h1) ?_) (hmap _ _ h0) ?_
      · exact hdisjoint _ _ (by decide)
      · exact List.disjoint_append_left.2
          ⟨hdisjoint _ _ (by decide), hdisjoint _ _ (by decide)⟩

/-! ## Searching -/

/-- The string of a query agrees with that of an entry. -/
def agree : List BitValue → List BitValue → Bool
  | [], [] => true
  | a :: l, a' :: l' => a.compat a' && agree l l'
  | _, _ => false

theorem agree_iff {l l' : List BitValue} :
    agree l l' = true ↔ List.Forall₂ (fun a b => BitValue.compat a b = true) l l' := by
  induction l generalizing l' with
  | nil => cases l' <;> simp [agree]
  | cons a l ih => cases l' <;> simp [agree, ih]

theorem agree_append {l l' m m' : List BitValue} (h : l.length = l'.length) :
    agree (l ++ m) (l' ++ m') = (agree l l' && agree m m') := by
  induction l generalizing l' with
  | nil =>
    obtain rfl := List.length_eq_zero_iff.1 h.symm
    rfl
  | cons a l ih =>
    cases l' with
    | nil => simp at h
    | cons a' l' =>
      simp only [List.cons_append, agree, ih (Nat.succ.inj h), Bool.and_assoc]

/-- The test at a node compares its segment with the front of the query. -/
theorem containedMatch_eq_agree {rs : Region} {l q : List BitValue} (hseg : seg.Spells l)
    (h : rs.Spells (l' ++ q)) (hlen : l.length = l'.length) :
    seg.containedMatch rs = agree l l' := by
  rw [Bool.eq_iff_iff, Region.containedMatch_iff hseg h, agree_iff, List.forall₂_iff_get]
  constructor
  · intro hall
    refine ⟨hlen, fun i hi hi' => ?_⟩
    have := hall i hi (by simp; omega)
    rwa [List.getElem_append_left hi'] at this
  · rintro ⟨-, hall⟩ i hi hi'
    rw [List.getElem_append_left (by omega)]
    exact hall i hi (by omega)

/-- What a search outputs below one pending node, in order: the last child pushed is searched
first. -/
def found : Node T → Region → Region → List (RegionIterator T)
  | null, _, _ => []
  | node seg c0 c1 cX level data, traversed, regionSegment =>
    if seg.containedMatch regionSegment then
      let traversedSegment := traversed.append seg
      let regionSegment := regionSegment.advance seg.getLength.toNat
      if regionSegment.firstBit = 64 then [⟨traversedSegment, data, level⟩]
      else
        (if regionSegment.firstBitMatches .X then
          cX.found (traversedSegment.addBit .X) (regionSegment.advance 1) else []) ++
        (if regionSegment.firstBitMatches .BIT_1 then
          c1.found (traversedSegment.addBit .BIT_1) (regionSegment.advance 1) else []) ++
        (if regionSegment.firstBitMatches .BIT_0 then
          c0.found (traversedSegment.addBit .BIT_0) (regionSegment.advance 1) else [])
    else []

/-- What a search outputs for a list of pending nodes. -/
def foundAll (pendingNodes : List (TraversalNode T)) : List (RegionIterator T) :=
  pendingNodes.flatMap fun t => t.branch.found t.traversedRegionSegment t.regionSegment

def pendingSize (pendingNodes : List (TraversalNode T)) : Nat :=
  (pendingNodes.map fun t => t.branch.size).sum

theorem foundAll_pushChild (traversed rs : Region) (b : BitValue) (c : Node T)
    (pendingNodes : List (TraversalNode T)) :
    foundAll (pushChild traversed rs b c pendingNodes) =
      (if rs.firstBitMatches b then c.found (traversed.addBit b) (rs.advance 1) else []) ++
        foundAll pendingNodes := by
  cases c with
  | null => simp [pushChild, isNull, found]
  | node =>
    unfold pushChild
    by_cases h : rs.firstBitMatches b = true
    · simp [h, isNull, foundAll]
    · simp [h]

theorem pendingSize_pushChild (traversed rs : Region) (b : BitValue) (c : Node T)
    (pendingNodes : List (TraversalNode T)) :
    pendingSize (pushChild traversed rs b c pendingNodes) ≤ c.size + pendingSize pendingNodes := by
  unfold pushChild
  split
  · simp [pendingSize]
  · exact Nat.le_add_left _ _

theorem ne_null_pushChild {traversed rs : Region} {pendingNodes : List (TraversalNode T)}
    (h : ∀ t ∈ pendingNodes, t.branch ≠ null) :
    ∀ t ∈ pushChild traversed rs b c pendingNodes, t.branch ≠ null := by
  unfold pushChild
  split
  · next hpush =>
    intro t ht
    rcases List.mem_cons.1 ht with rfl | ht
    · exact fun hnull => hpush.2 (isNull_iff.2 hnull)
    · exact h t ht
  · exact h

/-- A search visits the leaves found, in order. -/
theorem traverse_eq {σ : Type*} (visit : σ → RegionIterator T → σ) (fuel : Nat)
    (pendingNodes : List (TraversalNode T)) (output : σ) (h : ∀ t ∈ pendingNodes, t.branch ≠ null)
    (hfuel : pendingSize pendingNodes ≤ fuel) :
    traverse visit fuel pendingNodes output = some ((foundAll pendingNodes).foldl visit output) := by
  induction fuel generalizing pendingNodes output with
  | zero =>
    cases pendingNodes with
    | nil => rfl
    | cons t pendingNodes =>
      obtain ⟨traversed, rs, branch⟩ := t
      cases branch with
      | null => exact absurd rfl (h _ List.mem_cons_self)
      | node => simp [pendingSize, size] at hfuel
  | succ fuel ih =>
    cases pendingNodes with
    | nil => rfl
    | cons t pendingNodes =>
      obtain ⟨traversed, rs, branch⟩ := t
      have hrest := fun t ht => h t (List.mem_cons_of_mem _ ht)
      cases branch with
      | null => exact absurd rfl (h _ List.mem_cons_self)
      | node seg c0 c1 cX level data =>
        have hsize : c0.size + c1.size + cX.size + pendingSize pendingNodes ≤ fuel := by
          simp [pendingSize, size] at hfuel ⊢
          omega
        have hfound : foundAll (⟨traversed, rs, node seg c0 c1 cX level data⟩ :: pendingNodes) =
            (node seg c0 c1 cX level data).found traversed rs ++ foundAll pendingNodes := rfl
        rw [hfound, traverse, found]
        dsimp only
        split
        · split
          · rw [ih _ _ hrest (by omega)]
            rfl
          · rw [ih]
            · simp only [foundAll_pushChild, List.append_assoc]
            · exact ne_null_pushChild (ne_null_pushChild (ne_null_pushChild hrest))
            · refine (pendingSize_pushChild _ _ _ _ _).trans ?_
              have h1 := pendingSize_pushChild (traversed.append seg)
                (rs.advance seg.getLength.toNat) .BIT_1 c1
                (pushChild (traversed.append seg) (rs.advance seg.getLength.toNat) .BIT_0 c0
                  pendingNodes)
              have h0 := pendingSize_pushChild (traversed.append seg)
                (rs.advance seg.getLength.toNat) .BIT_0 c0 pendingNodes
              omega
        · rw [ih _ _ hrest (by omega)]
          rfl

/-- The leaves found are the entries whose string agrees with the query. -/
theorem Shape.found_eq {n : Node T} {traversed rs : Region} {p q : List BitValue} (h : n.Shape k)
    (ht : traversed.Spells p) (hfirst : traversed.firstBit = 0) (hp : p.length = k)
    (hrs : rs.Spells q) (hrsFirst : rs.firstBit = k) (hq : k + q.length = 64) :
    (n.found traversed rs).map (fun it => (it.region, it.data)) =
      (n.entries.filter fun e => agree e.1 q).map fun e => (Region.ofBits (p ++ e.1), e.2) := by
  induction n using childInduction generalizing k traversed rs p q with
  | null => rfl
  | node seg c0 c1 cX level data ih =>
    obtain ⟨hvalid, hk, hle, -, hchild⟩ := shape_node.1 h
    have hlen : seg.getLength.toNat = seg.len := rfl
    -- the query in front of and after the segment
    obtain ⟨q₁, q₂, rfl, hq₁⟩ : ∃ q₁ q₂, q = q₁ ++ q₂ ∧ q₁.length = seg.len :=
      ⟨q.take seg.len, q.drop seg.len, (List.take_append_drop _ _).symm, by simp; omega⟩
    rw [List.length_append] at hq
    have hmatch := containedMatch_eq_agree hvalid.spells hrs (by simpa using hq₁.symm)
    have hrest := hrs.advance (k := seg.len) (by simp; omega)
    rw [← hq₁, List.drop_left, hq₁] at hrest
    have hahead := ht.append hvalid.spells (by simp; omega)
    have hagree : ∀ e, agree (seg.bits ++ e) (q₁ ++ q₂) = (agree seg.bits q₁ && agree e q₂) :=
      fun e => agree_append (by simpa using hq₁.symm)
    rw [found, hmatch]
    dsimp only
    rw [hlen]
    by_cases hleaf : seg.firstBit + seg.len = 64
    · obtain rfl : q₂ = [] := List.length_eq_zero_iff.1 (by omega)
      have hregion := hahead.eq_ofBits hfirst
      have hend : (rs.advance seg.len).firstBit = 64 := by
        simp only [Region.advance]
        omega
      rw [if_pos hend, entries_leaf hleaf, List.append_nil]
      cases hag : agree seg.bits q₁ <;> simp [hag, hregion]
    · obtain ⟨c, q₃, rfl⟩ : ∃ c q₃, q₂ = c :: q₃ :=
        List.exists_cons_of_length_pos (by omega)
      rw [List.length_cons] at hq
      have hend : (rs.advance seg.len).firstBit ≠ 64 := by
        simp only [Region.advance]
        omega
      -- the part of the entries and of the search below the child for `b`
      have hpart : ∀ b, ((((node seg c0 c1 cX level data).child b).entries.map
          fun e => (seg.bits ++ b :: e.1, e.2)).filter fun e => agree e.1 (q₁ ++ c :: q₃)).map
            (fun e => (Region.ofBits (p ++ e.1), e.2)) =
          if agree seg.bits q₁ then
            (if (rs.advance seg.len).firstBitMatches b then
              ((node seg c0 c1 cX level data).child b).found ((traversed.append seg).addBit b)
                ((rs.advance seg.len).advance 1) else []).map fun it => (it.region, it.data)
          else [] := by
        intro b
        have hdown := hahead.addBit (by simp; omega) b
        have hrec := ih b (hchild b) hdown (by cases b <;> exact hfirst) (by simp; omega)
          (hrest.advance (k := 1) (by simp)) (by simp [Region.advance]; omega) (by simp; omega)
        rw [List.filter_map, List.map_map, hrest.firstBitMatches]
        simp only [Function.comp_def, hagree, agree]
        cases hag : agree seg.bits q₁
        · simp
        · cases hc : b.compat c
          · simp
          · simp only [if_true, Bool.true_and]
            rw [hrec]
            simp
      rw [if_neg hend, entries, if_neg hleaf]
      simp only [List.filter_append, List.map_append]
      have hX := hpart .X
      have h1 := hpart .BIT_1
      have h0 := hpart .BIT_0
      simp only [child] at hX h1 h0
      rw [hX, h1, h0]
      cases agree seg.bits q₁ <;> simp

/-- What the walks from the root know at a node: the query `q` starts at the node's first bit. -/
structure Query (rs : Region) (q : List BitValue) (k : Nat) : Prop where
  spells : rs.Spells q
  firstBit : rs.firstBit = k
  length : k + q.length = 64

/-- Past a segment that the query starts with. -/
theorem Query.advance {rs : Region} {l q : List BitValue} (h : Query rs (l ++ q) k) :
    Query (rs.advance l.length) q (k + l.length) where
  spells := by
    have := h.spells.advance (k := l.length) (by simp)
    rwa [List.drop_left] at this
  firstBit := by rw [← h.firstBit]; rfl
  length := by
    have := h.length
    rw [List.length_append] at this
    omega

theorem Query.getFirstBit {rs : Region} {q : List BitValue} (h : Query rs (b :: q) k) :
    rs.getFirstBit = b ∧ Query (rs.advance 1) q (k + 1) :=
  ⟨h.spells.getFirstBit, Query.advance (l := [b]) h⟩

/-- The four cases of a walk that compares exactly: the segment does not fit; or it fits and the query
ends with it, or goes on with some bit. -/
theorem Shape.exact_cases {rs : Region} {q : List BitValue}
    (h : (node seg c0 c1 cX level data).Shape k) (hq : Query rs q k) :
    (seg.containedExactMatch rs = false ∧ ¬ seg.bits <+: q) ∨
    seg.containedExactMatch rs = true ∧
      ((q = seg.bits ∧ (rs.advance seg.len).firstBit = 64 ∧ k + seg.len = 64) ∨
        ∃ b q', q = seg.bits ++ b :: q' ∧ (rs.advance seg.len).firstBit ≠ 64 ∧ k + seg.len ≠ 64 ∧
          (rs.advance seg.len).getFirstBit = b ∧
          Query ((rs.advance seg.len).advance 1) q' (k + seg.len + 1)) := by
  obtain ⟨hvalid, rfl, hle, -, -⟩ := shape_node.1 h
  have hexact := Region.containedExactMatch_iff_isPrefix hvalid.spells hq.spells
    (by have := hq.length; simp; omega)
  cases hm : seg.containedExactMatch rs with
  | false =>
    rw [hm] at hexact
    exact .inl ⟨rfl, fun hp => by simp [hp] at hexact⟩
  | true =>
    obtain ⟨q', rfl⟩ := hexact.1 hm
    have hrest := hq.advance
    rw [Region.length_bits] at hrest
    refine .inr ⟨rfl, ?_⟩
    cases q' with
    | nil =>
      have hend := hrest.length
      rw [List.length_nil] at hend
      exact .inl ⟨List.append_nil _, by rw [hrest.firstBit]; exact hend, hend⟩
    | cons b q' =>
      have hend := hrest.length
      rw [List.length_cons] at hend
      obtain ⟨hb, hdown⟩ := hrest.getFirstBit
      exact .inr ⟨b, q', rfl, by rw [hrest.firstBit]; omega, by omega, hb, hdown⟩

/-- `findExact` finds the entry with the string of the query. -/
theorem Shape.findExact_eq_some_iff {rs : Region} {q : List BitValue} {d : T} (h : n.Shape k)
    (hq : Query rs q k) : findExact n rs = some d ↔ (q, d) ∈ n.entries := by
  induction n using childInduction generalizing k rs q with
  | null => simp [findExact, entries]
  | node seg c0 c1 cX level data ih =>
    obtain ⟨-, rfl, -, -, hchild⟩ := shape_node.1 h
    have hlen : seg.getLength.toNat = seg.len := rfl
    rw [findExact, hlen]
    rcases h.exact_cases hq with ⟨hm, hnot⟩ | ⟨hm, ⟨rfl, hend, hleaf⟩ | ⟨b, q', rfl, hend, hinner, hb, hdown⟩⟩
    · rw [hm]
      simp only [Bool.false_eq_true, if_false, reduceCtorEq, false_iff]
      exact fun hmem => hnot (prefix_of_mem_entries hmem)
    · rw [hm, entries_leaf hleaf]
      simp [hend, eq_comm]
    · have hrec := ih b (hchild b) hdown
      rw [hm, append_mem_entries hinner, ← hrec]
      simp only [if_true, if_neg hend, hb]
      cases b <;> exact Iff.rfl

end

end Node

end

end OmpSs.Support
