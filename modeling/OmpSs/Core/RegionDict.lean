import OmpSs.Core.GlobalReg
import OmpSs.Lib.Box
import OmpSs.Lib.Run

/-!
# The dictionary of an object's regions

`RegionDictionary` (`nanox-mx/src/core/regiondict.hpp`) gives every region of an object a number. The
regions are the leaves of a tree of nodes whose path spells the region's bounds, dimension by dimension
(`addNode`); the leaves are also kept in a vector by number. Each leaf has a table with one place for
every smaller number, in which the answers of `checkIntersect` and `computeIntersect` are kept: nothing
yet, disjoint, intersecting, or the region that is the intersection. `computeIntersect` registers the
intersection as a region, so numbers are given out while tables are filled.

`ContainerDense` and `ContainerSparse` share the nodes and their tables (the sparse container refers to
the dense one), so one model stands for both. An answer of `none` is an access outside a table, which
the calls with two equal numbers make. The `ensure` of `computeIntersect` is not part of the default build
(`support/debug.hpp:94`): there regions that are disjoint get an intersection like any others.

The bounds are of type `size_t`; regions lie in their object, so their upper bounds are below 2^64. Only the
differences that `computeIntersect` takes of disjoint regions wrap around (`subSize`).
-/

namespace OmpSs.Core

open Lib

/-! ## The program -/

/-- A node of the tree. Source: `RegionNode` (`regiondict_decl.hpp:43`). -/
inductive RegionNode
  | node (id : Nat) (sons : List (Nat × RegionNode))

namespace RegionNode

def id : RegionNode → Nat
  | node id _ => id

def sons : RegionNode → List (Nat × RegionNode)
  | node _ sons => sons

@[simp] theorem sons_node (id : Nat) (sons : List (Nat × RegionNode)) : (node id sons).sons = sons := rfl

/-- The son with a value. -/
def son? : List (Nat × RegionNode) → Nat → Option RegionNode
  | [], _ => none
  | (v, n) :: rest, value => if v = value then some n else son? rest value

/-- The sons with another node for a value. -/
def setSon (value : Nat) (n : RegionNode) : List (Nat × RegionNode) → List (Nat × RegionNode)
  | [] => [(value, n)]
  | (v, m) :: rest => if v = value then (v, n) :: rest else (v, m) :: setSon value n rest

/-- The number of the leaf at the end of a path, where there is one. Source: `RegionNode::checkNode`
(`regiondict.cpp:58`), which returns 0 where there is none. -/
def checkNode : List (Nat × RegionNode) → List Nat → Option Nat
  | _, [] => none
  | sons, [value] => (son? sons value).map id
  | sons, value :: path => (son? sons value).bind fun n => checkNode n.sons path

/-- The sons after a path is added, its number, and whether the number `newId` was used. Source:
`RegionNode::addNode` (`regiondict.cpp:31`). -/
def addNode (newId : Nat) : List (Nat × RegionNode) → List Nat → List (Nat × RegionNode) × Nat × Bool
  | sons, [] => (sons, 0, false)
  | sons, [value] =>
    match son? sons value with
    | some n => (sons, n.id, false)
    | none => (setSon value (node newId []) sons, newId, true)
  | sons, value :: path =>
    let n := (son? sons value).getD (node 0 [])
    let r := addNode newId n.sons path
    (setSon value (node n.id r.1) sons, r.2)

end RegionNode

/-- An entry of a leaf's table. In the source one number: 0, -1, -2, or a region's number. -/
inductive Memo
  | unknown
  | disjoint
  | intersects
  | region (id : Nat)
deriving DecidableEq

/-- A leaf: the bounds its path spells and its table, which has a place for each smaller number. -/
structure Leaf where
  box : List Span
  memo : List Memo

/-- The tree and the leaves in the order of their numbers; the first number is 1. -/
structure RegionDictionary where
  sons : List (Nat × RegionNode) := []
  leaves : List Leaf := []

namespace RegionDictionary

/-- The values along the path of a region. Source: the values of `addNode` (`regiondict.cpp:33`). -/
def path (box : List Span) : List Nat := box.flatMap fun s => [s.lowerBound, s.accessedLength]

/-- Source: `ContainerDense::getRegionNode` (`regiondict.hpp:149`). -/
def getRegionNode (d : RegionDictionary) (id : Nat) : Option Leaf :=
  if id = 0 then none else d.leaves[id - 1]?

/-- Source: `ContainerDense::addRegion` (`regiondict.hpp:219`). -/
def addRegion (d : RegionDictionary) (box : List Span) : Nat × RegionDictionary :=
  let r := RegionNode.addNode (d.leaves.length + 1) d.sons (path box)
  if r.2.2 then
    (r.2.1, ⟨r.1, d.leaves ++ [⟨box, List.replicate d.leaves.length .unknown⟩]⟩)
  else (r.2.1, { d with sons := r.1 })

/-- Source: `RegionNode::getMemoIntersect` (`regiondict.hpp:102`) of the node with the larger number. -/
def getMemoIntersect (d : RegionDictionary) (a b : Nat) : Option Memo :=
  if min a b = 0 then none
  else (d.getRegionNode (max a b)).bind fun leaf => leaf.memo[min a b - 1]?

/-- Source: `RegionNode::setMemoIntersect` (`regiondict.hpp:106`). -/
def setMemoIntersect (d : RegionDictionary) (a b : Nat) (m : Memo) : RegionDictionary :=
  { d with
    leaves := d.leaves.modify (max a b - 1) fun leaf =>
      { leaf with memo := leaf.memo.set (min a b - 1) m } }

/-- The test of one dimension. Source: `regiondict.hpp:835`. -/
def spansIntersect (a b : Span) : Bool :=
  let upperBoundA := a.lowerBound + a.accessedLength
  let upperBoundB := b.lowerBound + b.accessedLength
  if a.lowerBound > b.lowerBound then decide (upperBoundB > a.lowerBound)
  else if a.lowerBound < b.lowerBound then decide (b.lowerBound < upperBoundA)
  else true

/-- The loop over the dimensions, which ends with the first that is disjoint. Source:
`regiondict.hpp:823`. -/
def boxesIntersect : List Span → List Span → Bool
  | a :: as, b :: bs => boxesIntersect as bs && spansIntersect a b
  | _, _ => true

/-- Source: `RegionDictionary::checkIntersect` (`regiondict.hpp:803`). -/
def checkIntersect (d : RegionDictionary) (a b : Nat) : Option (Bool × RegionDictionary) :=
  (d.getMemoIntersect a b).bind fun data =>
    match data with
    | .unknown =>
      (d.getRegionNode a).bind fun regA =>
        (d.getRegionNode b).map fun regB =>
          let result := boxesIntersect regA.box regB.box
          (result, d.setMemoIntersect a b (if result then .intersects else .disjoint))
    | .disjoint => some (false, d)
    | .intersects | .region _ => some (true, d)

/-- The difference of two values of type `size_t`. -/
def subSize (a b : Nat) : Nat := if b ≤ a then a - b else 2 ^ 64 + a - b

/-- The intersection in one dimension. Source: `regiondict.hpp:524`. -/
def computeSpan (a b : Span) : Span :=
  let upperBoundA := a.lowerBound + a.accessedLength
  let upperBoundB := b.lowerBound + b.accessedLength
  if a.lowerBound > b.lowerBound then
    if upperBoundA > upperBoundB then ⟨a.lowerBound, subSize upperBoundB a.lowerBound⟩
    else ⟨a.lowerBound, a.accessedLength⟩
  else if a.lowerBound < b.lowerBound then
    if upperBoundA ≥ upperBoundB then ⟨b.lowerBound, b.accessedLength⟩
    else ⟨b.lowerBound, subSize upperBoundA b.lowerBound⟩
  else if upperBoundA > upperBoundB then ⟨a.lowerBound, b.accessedLength⟩
  else ⟨a.lowerBound, a.accessedLength⟩

/-- The number of the intersection, 0 for regions known to be disjoint. Source:
`RegionDictionary::computeIntersect` (`regiondict.hpp:575`). -/
def computeIntersect (d : RegionDictionary) (a b : Nat) : Option (Nat × RegionDictionary) :=
  (d.getMemoIntersect a b).bind fun data =>
    match data with
    | .disjoint => some (0, d)
    | .region r => some (r, d)
    | .unknown | .intersects =>
      -- the answer is only looked at to print a message
      (d.checkIntersect a b).bind fun r =>
        (r.2.getRegionNode a).bind fun regA =>
          (r.2.getRegionNode b).map fun regB =>
            let n := r.2.addRegion (List.zipWith computeSpan regA.box regB.box)
            (n.1, n.2.setMemoIntersect a b (.region n.1))

/-- The dictionary of an object with the given dimension sizes: the whole object is region 1. Source: the
constructor (`regiondict.hpp:411`). -/
def new (sizes : List Nat) : RegionDictionary :=
  (addRegion {} (sizes.map fun size => ⟨0, size⟩)).2

end RegionDictionary

/-! ## The tree -/

namespace RegionNode

theorem son?_setSon (sons : List (Nat × RegionNode)) (v w : Nat) (n : RegionNode) :
    son? (setSon v n sons) w = if w = v then some n else son? sons w := by
  induction sons with
  | nil => simp only [setSon, son?, eq_comm]
  | cons e sons ih =>
    obtain ⟨u, m⟩ := e
    rw [setSon]
    split
    · next huv =>
      simp only [son?, huv, eq_comm (a := w)]
      split <;> rfl
    · next huv =>
      simp only [son?, ih]
      rcases eq_or_ne u w with rfl | hne
      · simp [huv]
      · simp [hne]

theorem checkNode_cons {sons : List (Nat × RegionNode)} {v : Nat} {p : List Nat} (hp : p ≠ []) :
    checkNode sons (v :: p) = (son? sons v).bind fun n => checkNode n.sons p := by
  cases p with
  | nil => exact absurd rfl hp
  | cons w p => rfl

theorem addNode_cons {newId : Nat} {sons : List (Nat × RegionNode)} {v : Nat} {p : List Nat}
    (hp : p ≠ []) :
    addNode newId sons (v :: p) =
      let n := (son? sons v).getD (node 0 [])
      (setSon v (node n.id (addNode newId n.sons p).1) sons, (addNode newId n.sons p).2) := by
  cases p with
  | nil => exact absurd rfl hp
  | cons w p => rfl

theorem checkNode_nil (p : List Nat) : checkNode [] p = none := by
  cases p with
  | nil => rfl
  | cons v p =>
    cases p with
    | nil => rfl
    | cons w p => rfl

/-- Looking below a node that may be missing. -/
theorem checkNode_getD {sons : List (Nat × RegionNode)} {v : Nat} (p : List Nat) :
    ((son? sons v).bind fun n => checkNode n.sons p) =
      checkNode ((son? sons v).getD (node 0 [])).sons p := by
  cases son? sons v with
  | none => exact (checkNode_nil p).symm
  | some n => rfl

/-- Adding a path returns the number it has, or gives it the new one. -/
theorem addNode_id {newId : Nat} {p : List Nat} (hp : p ≠ []) (sons : List (Nat × RegionNode)) :
    (addNode newId sons p).2 =
      match checkNode sons p with
      | some id => (id, false)
      | none => (newId, true) := by
  induction p generalizing sons with
  | nil => exact absurd rfl hp
  | cons v p ih =>
    rcases eq_or_ne p [] with rfl | hne
    · simp only [addNode, checkNode]
      cases son? sons v <;> rfl
    · rw [addNode_cons hne, checkNode_cons hne, checkNode_getD]
      exact ih hne _

/-- Adding a path changes the number of no other. -/
theorem checkNode_addNode {newId : Nat} {p q : List Nat} (hp : p ≠ []) (hlen : q.length = p.length)
    (sons : List (Nat × RegionNode)) :
    checkNode (addNode newId sons p).1 q =
      if q = p then some (addNode newId sons p).2.1 else checkNode sons q := by
  induction p generalizing q sons with
  | nil => exact absurd rfl hp
  | cons v p ih =>
    cases q with
    | nil => cases hlen
    | cons w q =>
      have hlen' : q.length = p.length := Nat.succ.inj hlen
      rcases eq_or_ne p [] with rfl | hne
      · obtain rfl : q = [] := List.length_eq_zero_iff.1 hlen'
        simp only [addNode, checkNode]
        cases h : son? sons v with
        | some n =>
          by_cases hwv : w = v
          · simp [hwv, h]
          · simp [hwv]
        | none =>
          rw [son?_setSon]
          by_cases hwv : w = v
          · simp [hwv, id]
          · simp [hwv]
      · have hqne : q ≠ [] := fun h => hne (List.length_eq_zero_iff.1 (by rw [← hlen', h]; rfl))
        rw [addNode_cons hne, checkNode_cons hqne, son?_setSon]
        by_cases hwv : w = v
        · subst hwv
          simp only [if_true, Option.bind_some, sons_node, List.cons.injEq, true_and]
          rw [ih hne hlen', checkNode_cons hqne, checkNode_getD]
        · simp only [hwv, if_false, List.cons.injEq, false_and]
          rw [checkNode_cons hqne]

end RegionNode

/-! ## Geometry -/

/-- The position `x` lies in the span. -/
def Span.Mem (s : Span) (x : Nat) : Prop := s.lowerBound ≤ x ∧ x < s.lowerBound + s.accessedLength

/-- The positions two spans have in common, as a span. -/
def Span.inter (a b : Span) : Span :=
  let lower := max a.lowerBound b.lowerBound
  ⟨lower, min (a.lowerBound + a.accessedLength) (b.lowerBound + b.accessedLength) - lower⟩

/-- Two boxes have a point in common. -/
def Meet (A B : List Span) : Prop := ∃ x, InBox Span.Mem A x ∧ InBox Span.Mem B x

/-- Every span of the box has a position. -/
def Proper (A : List Span) : Prop := ∀ s ∈ A, 0 < s.accessedLength

namespace RegionDictionary

theorem meet_comm {A B : List Span} : Meet A B ↔ Meet B A :=
  exists_congr fun _ => and_comm

theorem exists_mem_both_iff {a b : Span} : (∃ x, a.Mem x ∧ b.Mem x) ↔
    max a.lowerBound b.lowerBound < min (a.lowerBound + a.accessedLength) (b.lowerBound + b.accessedLength) := by
  simp only [Span.Mem]
  constructor
  · rintro ⟨x, hx, hx'⟩
    omega
  · exact fun h => ⟨max a.lowerBound b.lowerBound, by omega⟩

theorem spansIntersect_iff {a b : Span} (ha : 0 < a.accessedLength) (hb : 0 < b.accessedLength) :
    spansIntersect a b = true ↔ ∃ x, a.Mem x ∧ b.Mem x := by
  rw [exists_mem_both_iff]
  unfold spansIntersect
  dsimp only
  split_ifs <;> simp only [decide_eq_true_eq, true_iff] <;> omega

theorem boxesIntersect_iff {A B : List Span} (hlen : A.length = B.length) (hA : Proper A)
    (hB : Proper B) : boxesIntersect A B = true ↔ Meet A B := by
  rw [Meet, exists_inBox_both hlen]
  induction A generalizing B with
  | nil =>
    obtain rfl : B = [] := List.length_eq_zero_iff.1 hlen.symm
    simp [boxesIntersect]
  | cons a A ih =>
    cases B with
    | nil => cases hlen
    | cons b B =>
      have hrest := ih (Nat.succ.inj hlen) (fun s hs => hA s (List.mem_cons_of_mem _ hs))
        (fun s hs => hB s (List.mem_cons_of_mem _ hs))
      rw [boxesIntersect, Bool.and_eq_true, hrest,
        spansIntersect_iff (hA a List.mem_cons_self) (hB b List.mem_cons_self), List.forall₂_cons]
      exact and_comm

theorem computeSpan_eq {a b : Span} (h : ∃ x, a.Mem x ∧ b.Mem x) : computeSpan a b = a.inter b := by
  obtain ⟨x, hx, hx'⟩ := h
  obtain ⟨la, na⟩ := a
  obtain ⟨lb, nb⟩ := b
  simp only [Span.Mem] at hx hx'
  unfold computeSpan Span.inter subSize
  dsimp only
  split_ifs <;> simp only [Span.mk.injEq] <;> omega

theorem not_meet_of_length {A B : List Span} (hlen : A.length ≠ B.length) : ¬ Meet A B :=
  fun ⟨_, hA, hB⟩ => hlen (hA.length_eq.trans hB.length_eq.symm)

instance (A B : List Span) : Decidable (Meet A B) :=
  if hlen : A.length = B.length then
    decidable_of_iff (List.Forall₂ (fun a b => max a.lowerBound b.lowerBound <
        min (a.lowerBound + a.accessedLength) (b.lowerBound + b.accessedLength)) A B) <| by
      simp only [Meet, exists_inBox_both hlen, exists_mem_both_iff]
  else isFalse (not_meet_of_length hlen)

theorem inter_comm (a b : Span) : a.inter b = b.inter a := by
  simp only [Span.inter, max_comm, min_comm]

theorem mem_inter {a b : Span} {x : Nat} : (a.inter b).Mem x ↔ a.Mem x ∧ b.Mem x := by
  simp only [Span.Mem, Span.inter]
  omega

/-- The box of the points two boxes have in common. -/
def interBox (A B : List Span) : List Span := List.zipWith Span.inter A B

theorem interBox_comm (A B : List Span) : interBox A B = interBox B A := by
  rw [interBox, interBox, List.zipWith_comm]
  simp only [inter_comm]

theorem inBox_interBox {A B : List Span} (hlen : A.length = B.length) {x : List Nat} :
    InBox Span.Mem (interBox A B) x ↔ InBox Span.Mem A x ∧ InBox Span.Mem B x := by
  induction A generalizing B x with
  | nil =>
    obtain rfl : B = [] := List.length_eq_zero_iff.1 hlen.symm
    simp [interBox, InBox]
  | cons a A ih =>
    cases B with
    | nil => cases hlen
    | cons b B =>
      cases x with
      | nil => simp [interBox, InBox]
      | cons y x =>
        have hrest := ih (Nat.succ.inj hlen) (x := x)
        simp only [InBox, interBox, List.zipWith_cons_cons, List.forall₂_cons, mem_inter] at hrest ⊢
        rw [hrest]
        tauto

theorem zipWith_computeSpan {A B : List Span} (hlen : A.length = B.length) (h : Meet A B) :
    List.zipWith computeSpan A B = interBox A B := by
  rw [Meet, exists_inBox_both hlen] at h
  induction h with
  | nil => rfl
  | cons hab _ ih =>
    simp only [interBox, List.zipWith_cons_cons, computeSpan_eq hab] at ih ⊢
    rw [ih (by simpa using hlen)]

theorem proper_interBox {A B : List Span} (hlen : A.length = B.length) (h : Meet A B) :
    Proper (interBox A B) := by
  rw [Meet, exists_inBox_both hlen] at h
  induction h with
  | nil =>
    intro s hs
    cases hs
  | @cons a b A B hab _ ih =>
    intro s hs
    rcases List.mem_cons.1 hs with rfl | hs
    · obtain ⟨x, hx⟩ := hab
      have := mem_inter.2 hx
      simp only [Span.Mem] at this
      omega
    · exact ih (by simpa using hlen) s hs

theorem path_injective {A B : List Span} (h : path A = path B) : A = B := by
  induction A generalizing B with
  | nil =>
    cases B with
    | nil => rfl
    | cons b B => cases h
  | cons a A ih =>
    cases B with
    | nil => cases h
    | cons b B =>
      obtain ⟨la, na⟩ := a
      obtain ⟨lb, nb⟩ := b
      simp only [path, List.flatMap_cons, List.cons_append, List.nil_append, List.cons.injEq] at h
      obtain ⟨rfl, rfl, hrest⟩ := h
      rw [ih hrest]

theorem length_path (A : List Span) : (path A).length = 2 * A.length := by
  induction A with
  | nil => rfl
  | cons a A ih =>
    simp only [path, List.flatMap_cons, List.length_append, List.length_cons, List.length_nil] at ih ⊢
    omega

/-! ## Valid dictionaries -/

/-- The region `id` has the bounds `box`. -/
def HasBox (d : RegionDictionary) (id : Nat) (box : List Span) : Prop :=
  ∃ leaf, d.getRegionNode id = some leaf ∧ leaf.box = box

/-- What an entry of a table says of two boxes. -/
def Says (d : RegionDictionary) (A B : List Span) : Memo → Prop
  | .unknown => True
  | .disjoint => ¬ Meet A B
  | .intersects => Meet A B
  | .region r => Meet A B ∧ d.HasBox r (interBox A B)

/-- The invariant of a dictionary with `n` dimensions: the tree numbers the boxes of the leaves, the
table of a leaf has a place for every smaller number, and what the tables say is right. -/
structure Valid (n : Nat) (d : RegionDictionary) : Prop where
  proper : ∀ id box, d.HasBox id box → box.length = n ∧ Proper box
  numbered : ∀ box, box.length = n → ∀ id, RegionNode.checkNode d.sons (path box) = some id ↔ d.HasBox id box
  table : ∀ id leaf, d.getRegionNode id = some leaf → leaf.memo.length = id - 1
  memo : ∀ a b A B m, d.HasBox a A → d.HasBox b B → d.getMemoIntersect a b = some m → d.Says A B m

variable {n : Nat} {d d' : RegionDictionary} {a b id : Nat} {A B box : List Span}

/-- Every region of `d` is a region of `d'`, with the same bounds. -/
def Keeps (d d' : RegionDictionary) : Prop := ∀ id box, d.HasBox id box → d'.HasBox id box

theorem Keeps.says {m : Memo} (h : d.Keeps d') (hs : d.Says A B m) : d'.Says A B m := by
  cases m with
  | region r => exact ⟨hs.1, h _ _ hs.2⟩
  | _ => exact hs

theorem Says.symm {m : Memo} (hs : d.Says A B m) : d.Says B A m := by
  cases m with
  | unknown => trivial
  | disjoint => exact fun h => hs (meet_comm.1 h)
  | intersects => exact meet_comm.1 hs
  | region r => exact ⟨meet_comm.1 hs.1, by rw [interBox_comm]; exact hs.2⟩

theorem HasBox.pos (h : d.HasBox id box) : 0 < id := by
  obtain ⟨leaf, hleaf, -⟩ := h
  rw [getRegionNode] at hleaf
  split at hleaf
  · cases hleaf
  · omega

theorem HasBox.unique {box' : List Span} (h : d.HasBox id box) (h' : d.HasBox id box') : box = box' := by
  obtain ⟨leaf, hleaf, rfl⟩ := h
  obtain ⟨leaf', hleaf', rfl⟩ := h'
  rw [Option.some.inj (hleaf.symm.trans hleaf')]

/-- The table of the larger number has a place for the smaller one. -/
theorem Valid.exists_memo (hv : Valid n d) (ha : d.HasBox a A) (hb : d.HasBox b B) (hne : a ≠ b) :
    ∃ m, d.getMemoIntersect a b = some m := by
  have hmax : ∃ leaf, d.getRegionNode (max a b) = some leaf := by
    rcases le_total a b with h | h
    · rw [max_eq_right h]
      exact hb.imp fun _ h => h.1
    · rw [max_eq_left h]
      exact ha.imp fun _ h => h.1
  obtain ⟨leaf, hleaf⟩ := hmax
  have hlen := hv.table _ _ hleaf
  have hpa := ha.pos
  have hpb := hb.pos
  have hlt : min a b - 1 < leaf.memo.length := by omega
  refine ⟨leaf.memo[min a b - 1], ?_⟩
  rw [getMemoIntersect, if_neg (by omega), hleaf, Option.bind_some, List.getElem?_eq_getElem hlt]

/-! ## Adding a region -/

theorem getRegionNode_append {sons : List (Nat × RegionNode)} {leaf l : Leaf} :
    getRegionNode ⟨sons, d.leaves ++ [leaf]⟩ id = some l ↔
      d.getRegionNode id = some l ∨ id = d.leaves.length + 1 ∧ l = leaf := by
  simp only [getRegionNode]
  split
  · next h => simp [h]
  · next h =>
    rw [List.getElem?_append]
    split
    · next hlt =>
      have : id ≠ d.leaves.length + 1 := by omega
      simp [this]
    · next hge =>
      rw [List.getElem?_eq_none (l := d.leaves) (by omega)]
      rcases Nat.eq_or_lt_of_le (Nat.le_of_not_lt hge) with heq | hlt
      · have : id = d.leaves.length + 1 := by omega
        simp [this, eq_comm]
      · have hne : id ≠ d.leaves.length + 1 := by omega
        rw [List.getElem?_eq_none (by simp; omega)]
        simp [hne]

theorem HasBox.le_length (h : d.HasBox id box) : id ≤ d.leaves.length := by
  have hpos := h.pos
  obtain ⟨leaf, hleaf, -⟩ := h
  rw [getRegionNode, if_neg (by omega)] at hleaf
  have := (List.getElem?_eq_some_iff.1 hleaf).1
  omega

/-- What adding a region does: the region has the number that is returned, and no other region, no
number and no table changes. -/
structure Added (n : Nat) (d : RegionDictionary) (box : List Span) (r : Nat × RegionDictionary) : Prop where
  valid : Valid n r.2
  hasBox : r.2.HasBox r.1 box
  keeps : d.Keeps r.2

theorem hasBox_append {sons : List (Nat × RegionNode)} {leaf : Leaf} :
    HasBox ⟨sons, d.leaves ++ [leaf]⟩ id box ↔
      d.HasBox id box ∨ id = d.leaves.length + 1 ∧ box = leaf.box := by
  constructor
  · rintro ⟨l, hl, rfl⟩
    rcases getRegionNode_append.1 hl with h | ⟨hid, rfl⟩
    · exact .inl ⟨l, h, rfl⟩
    · exact .inr ⟨hid, rfl⟩
  · rintro (⟨l, hl, rfl⟩ | ⟨hid, rfl⟩)
    · exact ⟨l, getRegionNode_append.2 (.inl hl), rfl⟩
    · exact ⟨leaf, getRegionNode_append.2 (.inr ⟨hid, rfl⟩), rfl⟩

theorem path_ne_nil (hlen : box.length = n) (hn : 0 < n) : path box ≠ [] := by
  intro h
  have := length_path box
  rw [h, List.length_nil] at this
  omega

/-- The numbers in the tree after a path is added, for the paths of boxes. -/
theorem checkNode_addNode_path {newId : Nat} {sons : List (Nat × RegionNode)} (hn : 0 < n)
    (hA : A.length = n) (hB : B.length = n) :
    RegionNode.checkNode (RegionNode.addNode newId sons (path A)).1 (path B) =
      if B = A then some (RegionNode.addNode newId sons (path A)).2.1
      else RegionNode.checkNode sons (path B) := by
  rw [RegionNode.checkNode_addNode (path_ne_nil hA hn) (by rw [length_path, length_path, hA, hB])]
  rcases eq_or_ne B A with rfl | hne
  · simp
  · rw [if_neg hne, if_neg fun h => hne (path_injective h)]

/-- The tree numbers the boxes of the leaves, which have `n` dimensions. -/
structure Numbered (n : Nat) (d : RegionDictionary) : Prop where
  shaped : ∀ id box, d.HasBox id box → box.length = n
  numbered : ∀ box, box.length = n → ∀ id, RegionNode.checkNode d.sons (path box) = some id ↔ d.HasBox id box

theorem Valid.numbers (hv : Valid n d) : Numbered n d :=
  ⟨fun id box h => (hv.proper id box h).1, hv.numbered⟩

/-- A box the tree has: the leaves stay as they are. -/
theorem Numbered.addRegion_old (h : Numbered n d) (hn : 0 < n) (hlen : box.length = n)
    (hid : d.HasBox id box) :
    ∃ sons, d.addRegion box = (id, { d with sons := sons }) ∧ Numbered n { d with sons := sons } := by
  have hcheck := (h.numbered box hlen id).2 hid
  have hadd := @RegionNode.addNode_id (d.leaves.length + 1) _ (path_ne_nil hlen hn) d.sons
  rw [hcheck] at hadd
  refine ⟨(RegionNode.addNode (d.leaves.length + 1) d.sons (path box)).1, ?_, h.shaped,
    fun box' hlen' id' => ?_⟩
  · simp only [addRegion, hadd, Bool.false_eq_true, if_false]
  · have hsame : RegionNode.checkNode (RegionNode.addNode (d.leaves.length + 1) d.sons (path box)).1
        (path box') = RegionNode.checkNode d.sons (path box') := by
      rw [checkNode_addNode_path hn hlen hlen', hadd]
      split
      · next heq => rw [heq, hcheck]
      · rfl
    rw [hsame]
    exact h.numbered box' hlen' id'

/-- A new box gets the next number and an empty table. -/
theorem Numbered.addRegion_new (h : Numbered n d) (hn : 0 < n) (hlen : box.length = n)
    (hid : ∀ id, ¬ d.HasBox id box) :
    ∃ sons, d.addRegion box = (d.leaves.length + 1,
        ⟨sons, d.leaves ++ [⟨box, List.replicate d.leaves.length .unknown⟩]⟩) ∧
      Numbered n ⟨sons, d.leaves ++ [⟨box, List.replicate d.leaves.length .unknown⟩]⟩ := by
  have hcheck : RegionNode.checkNode d.sons (path box) = none := by
    cases hc : RegionNode.checkNode d.sons (path box) with
    | none => rfl
    | some id => exact absurd ((h.numbered box hlen id).1 hc) (hid id)
  have hadd := @RegionNode.addNode_id (d.leaves.length + 1) _ (path_ne_nil hlen hn) d.sons
  rw [hcheck] at hadd
  refine ⟨(RegionNode.addNode (d.leaves.length + 1) d.sons (path box)).1, ?_, fun id' box' h' => ?_,
    fun box' hlen' id' => ?_⟩
  · simp only [addRegion, hadd, if_true]
  · rcases hasBox_append.1 h' with h' | ⟨-, rfl⟩
    · exact h.shaped id' box' h'
    · exact hlen
  · rw [checkNode_addNode_path hn hlen hlen', hadd, hasBox_append]
    rcases eq_or_ne box' box with rfl | hne
    · simp [hid, eq_comm]
    · simp only [hne, if_false, and_false, or_false]
      exact h.numbered box' hlen' id'

/-- A box the tree has: nothing changes. -/
theorem addRegion_old (hv : Valid n d) (hn : 0 < n) (hlen : box.length = n) (hid : d.HasBox id box) :
    (d.addRegion box).1 = id ∧ Added n d box (d.addRegion box) := by
  obtain ⟨sons, hr, hnum⟩ := hv.numbers.addRegion_old hn hlen hid
  rw [hr]
  exact ⟨rfl, ⟨hv.proper, hnum.numbered, hv.table, hv.memo⟩, hid, fun _ _ h => h⟩

/-- A new box gets the next number and an empty table. -/
theorem addRegion_new (hv : Valid n d) (hn : 0 < n) (hlen : box.length = n) (hp : Proper box)
    (hid : ∀ id, ¬ d.HasBox id box) : Added n d box (d.addRegion box) := by
  obtain ⟨sons, hr, hnum⟩ := hv.numbers.addRegion_new hn hlen hid
  rw [hr]
  refine ⟨⟨?_, hnum.numbered, ?_, ?_⟩, hasBox_append.2 (.inr ⟨rfl, rfl⟩),
    fun _ _ h => hasBox_append.2 (.inl h)⟩
  · intro id box' h
    rcases hasBox_append.1 h with h | ⟨-, rfl⟩
    · exact hv.proper id box' h
    · exact ⟨hlen, hp⟩
  · intro id leaf h
    rcases getRegionNode_append.1 h with h | ⟨rfl, rfl⟩
    · exact hv.table id leaf h
    · simp
  · intro a b A B m ha hb hm
    refine Keeps.says (d := d) (fun _ _ h => hasBox_append.2 (.inl h)) ?_
    rw [getMemoIntersect] at hm
    split at hm
    · cases hm
    · obtain ⟨leaf, hleaf, hmemo⟩ := Option.bind_eq_some_iff.1 hm
      rcases getRegionNode_append.1 hleaf with hold | ⟨-, rfl⟩
      · -- both numbers are at most that of a region of `d`, so both are regions of `d`
        have hmax : max a b ≤ d.leaves.length := HasBox.le_length ⟨leaf, hold, rfl⟩
        refine hv.memo a b A B m ?_ ?_ ?_
        · rcases hasBox_append.1 ha with h | h
          · exact h
          · omega
        · rcases hasBox_append.1 hb with h | h
          · exact h
          · omega
        · rw [getMemoIntersect, if_neg (by assumption), hold]
          exact hmemo
      · obtain ⟨_, hget⟩ := List.getElem?_eq_some_iff.1 hmemo
        rw [List.getElem_replicate] at hget
        subst hget
        trivial

theorem addRegion_spec (hv : Valid n d) (hn : 0 < n) (hlen : box.length = n) (hp : Proper box) :
    Added n d box (d.addRegion box) := by
  by_cases h : ∃ id, d.HasBox id box
  · obtain ⟨id, hid⟩ := h
    exact (addRegion_old hv hn hlen hid).2
  · exact addRegion_new hv hn hlen hp fun id hid => h ⟨id, hid⟩

/-- An empty dictionary is valid. -/
theorem valid_empty : Valid n {} := by
  have hnode : ∀ id, getRegionNode {} id = none := by
    intro id
    simp [getRegionNode]
  have hbox : ∀ id box, ¬ HasBox {} id box := by
    rintro id box ⟨leaf, hleaf, -⟩
    rw [hnode] at hleaf
    cases hleaf
  refine ⟨fun id box h => absurd h (hbox id box), fun box _ id => ?_, fun id leaf h => ?_,
    fun a b A B m ha => absurd ha (hbox a A)⟩
  · constructor
    · intro h
      rw [RegionNode.checkNode_nil] at h
      cases h
    · exact fun h => absurd h (hbox id box)
  · rw [hnode] at h
    cases h

theorem valid_new {sizes : List Nat} (hsizes : sizes ≠ []) (hpos : ∀ size ∈ sizes, 0 < size) :
    Valid sizes.length (new sizes) := by
  have hn : 0 < sizes.length := List.length_pos_of_ne_nil hsizes
  refine (addRegion_spec valid_empty hn (by simp) ?_).valid
  intro s hs
  obtain ⟨size, hsize, rfl⟩ := List.mem_map.1 hs
  exact hpos size hsize

/-- The whole object is the region 1 of a new dictionary. -/
theorem hasBox_new {sizes : List Nat} (hsizes : sizes ≠ []) :
    (new sizes).HasBox 1 (sizes.map fun size => ⟨0, size⟩) := by
  have hnone : ∀ id, ¬ HasBox {} id (sizes.map fun size => ⟨0, size⟩) := by
    rintro id ⟨leaf, hleaf, -⟩
    simp [getRegionNode] at hleaf
  obtain ⟨sons, hr, -⟩ := (valid_empty (n := sizes.length)).numbers.addRegion_new
    (List.length_pos_of_ne_nil hsizes) (List.length_map ..) hnone
  rw [new, hr]
  exact ⟨_, rfl, rfl⟩

/-! ## Filling the tables -/

theorem getRegionNode_setMemoIntersect {m : Memo} (hpos : 0 < max a b) :
    (d.setMemoIntersect a b m).getRegionNode id =
      (d.getRegionNode id).map fun leaf =>
        if id = max a b then { leaf with memo := leaf.memo.set (min a b - 1) m } else leaf := by
  simp only [getRegionNode, setMemoIntersect]
  split
  · rfl
  · next hid =>
    rw [List.getElem?_modify]
    have hiff : max a b - 1 = id - 1 ↔ id = max a b := by omega
    simp only [hiff]
    split <;> simp

theorem hasBox_setMemoIntersect {m : Memo} (hpos : 0 < max a b) :
    (d.setMemoIntersect a b m).HasBox id box ↔ d.HasBox id box := by
  simp only [HasBox, getRegionNode_setMemoIntersect hpos, Option.map_eq_some_iff]
  constructor
  · rintro ⟨_, ⟨leaf, hleaf, rfl⟩, rfl⟩
    refine ⟨leaf, hleaf, ?_⟩
    split <;> rfl
  · rintro ⟨leaf, hleaf, rfl⟩
    refine ⟨_, ⟨leaf, hleaf, rfl⟩, ?_⟩
    split <;> rfl

/-- An entry after another one was filled. -/
theorem getMemoIntersect_setMemoIntersect {m m' : Memo} {x y : Nat} (hpos : 0 < min a b)
    (h : (d.setMemoIntersect a b m).getMemoIntersect x y = some m') :
    d.getMemoIntersect x y = some m' ∨ m' = m ∧ max x y = max a b ∧ min x y = min a b := by
  rw [getMemoIntersect] at h ⊢
  split at h
  · cases h
  · next hxy =>
    rw [if_neg hxy]
    rw [getRegionNode_setMemoIntersect (by omega), Option.bind_map] at h
    obtain ⟨leaf, hleaf, hmemo⟩ := Option.bind_eq_some_iff.1 h
    rw [hleaf, Option.bind_some]
    dsimp only [Function.comp] at hmemo
    split at hmemo
    · next hmax =>
      rw [List.getElem?_set] at hmemo
      split at hmemo
      · next hmin =>
        split at hmemo
        · exact .inr ⟨(Option.some.inj hmemo).symm, hmax, by omega⟩
        · cases hmemo
      · exact .inl hmemo
    · exact .inl hmemo

/-- Filling an entry with a right answer keeps a dictionary valid. -/
theorem setMemoIntersect_valid {m : Memo} (hv : Valid n d) (ha : d.HasBox a A) (hb : d.HasBox b B)
    (hm : d.Says A B m) : Valid n (d.setMemoIntersect a b m) ∧ d.Keeps (d.setMemoIntersect a b m) := by
  have hpa := ha.pos
  have hpb := hb.pos
  have hbox : ∀ id box, (d.setMemoIntersect a b m).HasBox id box ↔ d.HasBox id box :=
    fun id box => hasBox_setMemoIntersect (by omega)
  have hkeeps : d.Keeps (d.setMemoIntersect a b m) := fun id box h => (hbox id box).2 h
  refine ⟨⟨?_, ?_, ?_, ?_⟩, hkeeps⟩
  · intro id box h
    exact hv.proper id box ((hbox id box).1 h)
  · intro box hlen id
    rw [hbox]
    exact hv.numbered box hlen id
  · intro id leaf h
    rw [getRegionNode_setMemoIntersect (by omega)] at h
    obtain ⟨leaf', hleaf', rfl⟩ := Option.map_eq_some_iff.1 h
    have := hv.table id leaf' hleaf'
    split
    · rw [List.length_set, this]
    · exact this
  · intro x y X Y m' hx hy hm'
    rw [hbox] at hx hy
    refine Keeps.says hkeeps ?_
    rcases getMemoIntersect_setMemoIntersect (by omega) hm' with h | ⟨rfl, hmax, hmin⟩
    · exact hv.memo x y X Y m' hx hy h
    · -- the same two regions, in this order or in the other
      have hxy : x = a ∧ y = b ∨ x = b ∧ y = a := by omega
      rcases hxy with ⟨rfl, rfl⟩ | ⟨rfl, rfl⟩
      · rw [hx.unique ha, hy.unique hb]
        exact hm
      · rw [hx.unique hb, hy.unique ha]
        exact hm.symm

/-- The answer of `checkIntersect` and the dictionary it leaves. -/
theorem checkIntersect_spec (hv : Valid n d) (ha : d.HasBox a A) (hb : d.HasBox b B) (hne : a ≠ b) :
    ∃ r d', d.checkIntersect a b = some (r, d') ∧ (r = true ↔ Meet A B) ∧ Valid n d' ∧ d.Keeps d' := by
  obtain ⟨m, hm⟩ := hv.exists_memo ha hb hne
  have hsays := hv.memo a b A B m ha hb hm
  rw [checkIntersect, hm, Option.bind_some]
  cases m with
  | unknown =>
    obtain ⟨hlenA, hpA⟩ := hv.proper a A ha
    obtain ⟨hlenB, hpB⟩ := hv.proper b B hb
    have hmeet := boxesIntersect_iff (hlenA.trans hlenB.symm) hpA hpB
    have hset : ∀ r : Bool, (r = true ↔ Meet A B) →
        d.Says A B (if r then .intersects else .disjoint) := by
      intro r hr
      cases r with
      | false => exact fun h => Bool.false_ne_true (hr.2 h)
      | true => exact hr.1 rfl
    have hset' := setMemoIntersect_valid hv ha hb (hset _ hmeet)
    obtain ⟨leafA, hleafA, rfl⟩ := ha
    obtain ⟨leafB, hleafB, rfl⟩ := hb
    simp only [hleafA, hleafB, Option.bind_some, Option.map_some]
    exact ⟨_, _, rfl, hmeet, hset'⟩
  | disjoint =>
    exact ⟨false, d, rfl, ⟨fun h => Bool.noConfusion h, fun h => absurd h hsays⟩, hv, fun _ _ h => h⟩
  | intersects => exact ⟨true, d, rfl, ⟨fun _ => hsays, fun _ => rfl⟩, hv, fun _ _ h => h⟩
  | region r => exact ⟨true, d, rfl, ⟨fun _ => hsays.1, fun _ => rfl⟩, hv, fun _ _ h => h⟩

/-- The part of `computeIntersect` behind its `ensure`, in a dictionary where the regions meet. -/
theorem computeIntersect_add (hv : Valid n d) (hn : 0 < n) (ha : d.HasBox a A) (hb : d.HasBox b B)
    (h : Meet A B) {r : Nat × RegionDictionary}
    (hr : r = d.addRegion (List.zipWith computeSpan A B)) :
    Added n d (interBox A B) (r.1, r.2.setMemoIntersect a b (.region r.1)) := by
  obtain ⟨hlenA, -⟩ := hv.proper a A ha
  obtain ⟨hlenB, -⟩ := hv.proper b B hb
  have hlen := hlenA.trans hlenB.symm
  rw [zipWith_computeSpan hlen h] at hr
  have hadd : Added n d (interBox A B) r := by
    rw [hr]
    refine addRegion_spec hv hn ?_ (proper_interBox hlen h)
    rw [interBox, List.length_zipWith, hlenA, hlenB, Nat.min_self]
  obtain ⟨hvalid, hkeeps⟩ := setMemoIntersect_valid (m := .region r.1) hadd.valid (hadd.keeps _ _ ha)
    (hadd.keeps _ _ hb) ⟨h, hadd.hasBox⟩
  exact ⟨hvalid, hkeeps _ _ hadd.hasBox, fun id box hid => hkeeps _ _ (hadd.keeps _ _ hid)⟩

/-- The number `computeIntersect` returns for two regions that meet is that of their intersection. -/
theorem computeIntersect_meet (hv : Valid n d) (hn : 0 < n) (ha : d.HasBox a A) (hb : d.HasBox b B)
    (hne : a ≠ b) (h : Meet A B) :
    ∃ r d', d.computeIntersect a b = some (r, d') ∧ Added n d (interBox A B) (r, d') := by
  obtain ⟨m, hm⟩ := hv.exists_memo ha hb hne
  have hsays := hv.memo a b A B m ha hb hm
  obtain ⟨res, d₁, hcheck, hres, hv₁, hkeeps⟩ := checkIntersect_spec hv ha hb hne
  obtain rfl : res = true := hres.2 h
  -- the two memos under which the intersection is computed
  have hfresh : ∃ r d', (d.checkIntersect a b).bind (fun r =>
      (r.2.getRegionNode a).bind fun regA =>
        (r.2.getRegionNode b).map fun regB =>
          let n := r.2.addRegion (List.zipWith computeSpan regA.box regB.box)
          (n.1, n.2.setMemoIntersect a b (.region n.1))) = some (r, d') ∧
        Added n d (interBox A B) (r, d') := by
    have ha₁ := hkeeps a A ha
    have hb₁ := hkeeps b B hb
    have hadd := computeIntersect_add hv₁ hn ha₁ hb₁ h rfl
    obtain ⟨leafA, hleafA, rfl⟩ := ha₁
    obtain ⟨leafB, hleafB, rfl⟩ := hb₁
    simp only [hcheck, Option.bind_some, hleafA, hleafB, Option.map_some]
    exact ⟨_, _, rfl, hadd.valid, hadd.hasBox, fun id box hid => hadd.keeps _ _ (hkeeps _ _ hid)⟩
  rw [computeIntersect, hm, Option.bind_some]
  cases m with
  | unknown => exact hfresh
  | disjoint => exact absurd h hsays
  | intersects => exact hfresh
  | region r => exact ⟨r, d, rfl, hv, hsays.2, fun _ _ h => h⟩

/-- Regions that are known to be disjoint have no intersection. -/
theorem computeIntersect_disjoint (h : d.getMemoIntersect a b = some .disjoint) :
    d.computeIntersect a b = some (0, d) := by
  rw [computeIntersect, h]
  rfl

/-! ## Sequences of calls -/

/-- A call on the dictionary. -/
inductive Call
  | addRegion (box : List Span)
  | checkIntersect (a b : Nat)
  | computeIntersect (a b : Nat)
deriving DecidableEq

/-- The dictionary after a call. A call that reads outside a table (equal numbers, or a number that was
not given out) has no next state. -/
def step (d : RegionDictionary) : Call → Option RegionDictionary
  | .addRegion box => some (d.addRegion box).2
  | .checkIntersect a b => (d.checkIntersect a b).map (·.2)
  | .computeIntersect a b => (d.computeIntersect a b).map (·.2)

/-- The boxes of two regions have a point in common. -/
def Meets (d : RegionDictionary) (a b : Nat) : Prop :=
  ∃ A ∈ d.getRegionNode a, ∃ B ∈ d.getRegionNode b, Meet A.box B.box

instance (a b : Nat) : Decidable (d.Meets a b) := inferInstanceAs (Decidable (∃ A ∈ _, ∃ B ∈ _, _))

/-- The regions that are added have `n` dimensions and accessed lengths above 0, and `computeIntersect` is
called on regions as its `ensure` demands, or on two whose table already says that they are disjoint. -/
def Call.Ok (n : Nat) (d : RegionDictionary) : Call → Prop
  | .addRegion box => box.length = n ∧ ∀ s ∈ box, 0 < s.accessedLength
  | .checkIntersect _ _ => True
  | .computeIntersect a b => d.Meets a b ∨ d.getMemoIntersect a b = some .disjoint

instance (n : Nat) (d : RegionDictionary) (c : Call) : Decidable (c.Ok n d) := by
  cases c with
  | addRegion box => exact inferInstanceAs (Decidable (_ ∧ _))
  | checkIntersect a b => exact inferInstanceAs (Decidable True)
  | computeIntersect a b => exact inferInstanceAs (Decidable (_ ∨ _))

/-- Only two different regions have an entry in a table. -/
theorem Valid.of_memo {m : Memo} (hv : Valid n d) (hm : d.getMemoIntersect a b = some m) :
    (∃ A, d.HasBox a A) ∧ (∃ B, d.HasBox b B) ∧ a ≠ b := by
  rw [getMemoIntersect] at hm
  split at hm
  · cases hm
  · next hmin =>
    obtain ⟨leaf, hleaf, hmemo⟩ := Option.bind_eq_some_iff.1 hm
    have hlen := hv.table _ _ hleaf
    have hlt := (List.getElem?_eq_some_iff.1 hmemo).1
    have hmax : max a b ≤ d.leaves.length := HasBox.le_length ⟨leaf, hleaf, rfl⟩
    have hbox : ∀ id, 0 < id → id ≤ d.leaves.length → ∃ C, d.HasBox id C := by
      intro id hpos hle
      refine ⟨_, d.leaves[id - 1], ?_, rfl⟩
      rw [getRegionNode, if_neg (by omega), List.getElem?_eq_getElem (by omega)]
    exact ⟨hbox a (by omega) (by omega), hbox b (by omega) (by omega), by omega⟩

/-- Every call keeps a dictionary valid and the regions it has. -/
theorem step_valid {c : Call} (hv : Valid n d) (hn : 0 < n) (hc : c.Ok n d) (h : d.step c = some d') :
    Valid n d' ∧ d.Keeps d' := by
  cases c with
  | addRegion box =>
    cases h
    have hadd := addRegion_spec hv hn hc.1 hc.2
    exact ⟨hadd.valid, hadd.keeps⟩
  | checkIntersect a b =>
    obtain ⟨⟨res, d₁⟩, hcheck, rfl⟩ := Option.map_eq_some_iff.1 h
    obtain ⟨m, hm, -⟩ := Option.bind_eq_some_iff.1 hcheck
    obtain ⟨⟨A, ha⟩, ⟨B, hb⟩, hne⟩ := hv.of_memo hm
    obtain ⟨res', d₂, hcheck', -, hv', hkeeps⟩ := checkIntersect_spec hv ha hb hne
    obtain ⟨-, rfl⟩ := Prod.mk.inj (Option.some.inj (hcheck.symm.trans hcheck'))
    exact ⟨hv', hkeeps⟩
  | computeIntersect a b =>
    obtain ⟨⟨res, d₁⟩, hcompute, rfl⟩ := Option.map_eq_some_iff.1 h
    obtain ⟨m, hm, -⟩ := Option.bind_eq_some_iff.1 hcompute
    obtain ⟨-, -, hne⟩ := hv.of_memo hm
    rcases hc with ⟨A, ha, B, hb, hmeet⟩ | hdisjoint
    · obtain ⟨r, d₂, hcompute', hadd⟩ := computeIntersect_meet hv hn ⟨A, ha, rfl⟩ ⟨B, hb, rfl⟩ hne hmeet
      obtain ⟨rfl, rfl⟩ := Prod.mk.inj (Option.some.inj (hcompute.symm.trans hcompute'))
      exact ⟨hadd.valid, hadd.keeps⟩
    · obtain ⟨-, rfl⟩ :=
        Prod.mk.inj (Option.some.inj (hcompute.symm.trans (computeIntersect_disjoint hdisjoint)))
      exact ⟨hv, fun _ _ h => h⟩

/-- A dictionary that calls reach from the one of an object is valid. -/
theorem reach_valid {sizes : List Nat} (hsizes : sizes ≠ []) (hpos : ∀ size ∈ sizes, 0 < size)
    (h : Reach step (Call.Ok sizes.length) (new sizes) d) : Valid sizes.length d :=
  h.invariant (valid_new hsizes hpos) fun _ _ _ hv hc hs =>
    (step_valid hv (List.length_pos_of_ne_nil hsizes) hc hs).1

/-- After any such calls, `checkIntersect` of two regions returns whether their boxes have a common point,
and `computeIntersect` of two that have returns the number of the box of all their common points. -/
theorem intersections_right {sizes : List Nat} (hsizes : sizes ≠ []) (hpos : ∀ size ∈ sizes, 0 < size)
    (h : Reach step (Call.Ok sizes.length) (new sizes) d) (ha : d.HasBox a A) (hb : d.HasBox b B)
    (hne : a ≠ b) :
    (∃ res d', d.checkIntersect a b = some (res, d') ∧ (res = true ↔ Meet A B)) ∧
      (Meet A B → ∃ r d' C, d.computeIntersect a b = some (r, d') ∧ d'.HasBox r C ∧
        ∀ x, InBox Span.Mem C x ↔ InBox Span.Mem A x ∧ InBox Span.Mem B x) := by
  have hv := reach_valid hsizes hpos h
  have hlen : A.length = B.length := (hv.proper a A ha).1.trans (hv.proper b B hb).1.symm
  constructor
  · obtain ⟨res, d', hcheck, hres, -⟩ := checkIntersect_spec hv ha hb hne
    exact ⟨res, d', hcheck, hres⟩
  · intro hmeet
    obtain ⟨r, d', hcompute, hadd⟩ :=
      computeIntersect_meet hv (List.length_pos_of_ne_nil hsizes) ha hb hne hmeet
    exact ⟨r, d', interBox A B, hcompute, hadd.hasBox, fun x => inBox_interBox hlen⟩

/-- Two overlapping squares of an object of 10 by 10, after their intersection was asked for once and the
answer of `checkIntersect` for one of them and the whole was kept. -/
theorem intersections_right_squares :
    ∃ d, Reach step (Call.Ok 2) (new [10, 10]) d ∧ d.getMemoIntersect 2 3 = some (.region 4) ∧
      (∃ res d', d.checkIntersect 2 3 = some (res, d') ∧
        (res = true ↔ Meet [⟨0, 5⟩, ⟨0, 5⟩] [⟨3, 5⟩, ⟨3, 5⟩])) := by
  obtain ⟨d, hreach, hp⟩ := exists_reach_of_guarded_run step (Call.Ok 2) (new [10, 10])
    [.addRegion [⟨0, 5⟩, ⟨0, 5⟩], .addRegion [⟨3, 5⟩, ⟨3, 5⟩], .checkIntersect 1 2,
      .computeIntersect 3 2]
    (fun d => decide ((d.getRegionNode 2).map Leaf.box = some [⟨0, 5⟩, ⟨0, 5⟩] ∧
      (d.getRegionNode 3).map Leaf.box = some [⟨3, 5⟩, ⟨3, 5⟩] ∧
      d.getMemoIntersect 2 3 = some (.region 4))) (by decide)
  obtain ⟨h2, h3, hmemo⟩ := of_decide_eq_true hp
  obtain ⟨leaf2, hleaf2⟩ := Option.map_eq_some_iff.1 h2
  obtain ⟨leaf3, hleaf3⟩ := Option.map_eq_some_iff.1 h3
  have hsizes : ([10, 10] : List Nat) ≠ [] := by decide
  exact ⟨d, hreach, hmemo,
    (intersections_right hsizes (by decide) hreach ⟨leaf2, hleaf2⟩ ⟨leaf3, hleaf3⟩ (by decide)).1⟩

/-- The intersection of the two halves of a row is asked for before it is known that they are disjoint: it is
registered like any other, and `checkIntersect` says from then on that they intersect. -/
theorem disjoint_halves_intersect :
    ∃ d, Reach step (fun _ c => ∀ box, c = .addRegion box → box.length = 1 ∧ ∀ s ∈ box, 0 < s.accessedLength)
        (new [4]) d ∧
      d.HasBox 2 [⟨0, 2⟩] ∧ d.HasBox 3 [⟨2, 2⟩] ∧ ¬ Meet [⟨0, 2⟩] [⟨2, 2⟩] ∧
      (d.checkIntersect 2 3).map (·.1) = some true := by
  obtain ⟨d, hreach, hp⟩ := exists_reach_of_run step
    (fun c => ∀ box, c = .addRegion box → box.length = 1 ∧ ∀ s ∈ box, 0 < s.accessedLength) (new [4])
    [.addRegion [⟨0, 2⟩], .addRegion [⟨2, 2⟩], .computeIntersect 2 3] (by simp)
    (fun d => decide ((d.getRegionNode 2).map Leaf.box = some [⟨0, 2⟩] ∧
      (d.getRegionNode 3).map Leaf.box = some [⟨2, 2⟩] ∧
      (d.checkIntersect 2 3).map (·.1) = some true)) (by decide)
  obtain ⟨h2, h3, hcheck⟩ := of_decide_eq_true hp
  exact ⟨d, hreach, Option.map_eq_some_iff.1 h2, Option.map_eq_some_iff.1 h3, by decide, hcheck⟩

end RegionDictionary

end OmpSs.Core
