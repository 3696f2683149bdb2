import OmpSs.Mcxx.RangeArithmetic

/-!
# Sets of ranges

`range_union`, `range_intersection` and `range_sub` (`tl-ranges-common.cpp:850`) compute with ranges as sets.
What they cannot write as one range they leave as a `RangeUnion` or another node of the operation.

The union casts the operands of a union without looking at what they are. An empty range read as a range has
no children, and a union read as a range has its operands for boundaries. Neither has constants, so that a
new union is built of them, with the type of the first child; where that child has no type, the node cannot be
built. `UnionFails` says when this happens, and `range_sets_iff` that nothing else goes wrong.
-/

namespace OmpSs.Mcxx.Ranges

open Lib

/-- Source: `Range` and the nodes of the operations on sets. -/
inductive RangeNode
  | range (r : Range)
  | emptyRange
  | rangeUnion (lhs rhs : RangeNode)
  | rangeIntersection (lhs rhs : RangeNode)
  | rangeSub (lhs rhs : RangeNode)

/-- The integers of a node. -/
def RangeNode.values (ρ : Nat → Int) : RangeNode → Set Int
  | .range r => r.values ρ
  | .emptyRange => ∅
  | .rangeUnion lhs rhs => lhs.values ρ ∪ rhs.values ρ
  | .rangeIntersection lhs rhs => lhs.values ρ ∩ rhs.values ρ
  | .rangeSub lhs rhs => lhs.values ρ \ rhs.values ρ

/-- Source: `nodecl_is_Z_range` (`tl-ranges-common.cpp:169`). -/
def RangeNode.isZ : RangeNode → Bool
  | .range ⟨.minusInfinity, .plusInfinity⟩ => true
  | _ => false

/-- Source: `difference_is_one` (`tl-ranges-common.cpp:52`). -/
def differenceIsOne (b1 b2 : Boundary) : Bool := match b1.constant, b2.constant with
  | some k, some l => decide (k - l = 1)
  | _, _ => false

/-! ## The operations -/

/-- Source: `range_sub` (`tl-ranges-common.cpp:850`). -/
def rangeSub (r1 r2 : Range) : RangeNode :=
  if structurallyEqual r1.lower r2.lower && structurallyEqual r1.upper r2.upper then .emptyRange
  else match r1.lower.constant, r1.upper.constant, r2.lower.constant, r2.upper.constant with
    | some l1, some u1, some l2, some u2 =>
      if 0 < l1 - u2 ∨ 0 < l2 - u1 then .range r1
      else if l1 - l2 = 0 ∧ u1 - u2 = 0 then .emptyRange
      else if 0 ≤ l1 - l2 ∧ u1 - u2 ≤ 0 then .emptyRange
      else if l1 - l2 ≤ 0 ∧ 0 ≤ u1 - u2 then
        let left_range : Range := ⟨r1.lower, .const (l2 - 1)⟩
        let right_range : Range := ⟨.const (u2 + 1), r1.upper⟩
        if l1 - l2 = 0 then .range right_range
        else if u1 - u2 = 0 then .range left_range
        else .rangeUnion (.range left_range) (.range right_range)
      else if 0 < l1 - l2 then .range ⟨.const (u2 + 1), r1.upper⟩
      else .range ⟨r1.lower, .const (l2 - 1)⟩
    | _, _, _, _ => .rangeSub (.range r1) (.range r2)

/-- Two nodes that are ranges. An infinity is taken for `LLONG_MIN` or `LLONG_MAX`, which is its constant. The
first test of the source, whether the boundaries are the same nodes, is left out: of constants it gives
what the last but one gives. Source: `range_union_rec` (`tl-ranges-common.cpp:1017`). -/
def rangesUnion (n m : Range) : RangeNode :=
  match n.lower.constant, n.upper.constant, m.lower.constant, m.upper.constant with
  | some n_lb, some n_ub, some m_lb, some m_ub =>
    if m_ub < n_lb ∨ n_ub < m_lb then
      if n_lb - m_ub = 1 then .range ⟨m.lower, n.upper⟩
      else if m_lb - n_ub = 1 then .range ⟨n.lower, m.upper⟩
      else .rangeUnion (.range n) (.range m)
    else if n_lb = m_lb ∧ n_ub = m_ub then .range n
    else .range ⟨if m_lb < n_lb then m.lower else n.lower, if m_ub < n_ub then n.upper else m.upper⟩
  | _, _, _, _ =>
    if differenceIsOne m.lower n.upper then .range ⟨n.lower, m.upper⟩
    else if differenceIsOne n.lower m.upper then .range ⟨m.lower, n.upper⟩
    else if differenceIsOne n.lower m.lower then
      if structurallyEqual n.upper m.upper then .range m else .range ⟨m.lower, getMax n.upper m.upper⟩
    else if differenceIsOne m.lower n.lower then
      if structurallyEqual n.upper m.upper then .range n else .range ⟨n.lower, getMax n.upper m.upper⟩
    else .rangeUnion (.range n) (.range m)

/-- The first child of the node has no type: there is none, or it is an empty range. -/
def RangeNode.untyped : RangeNode → Bool
  | .emptyRange => true
  | .rangeUnion .emptyRange _ => true
  | .rangeIntersection .emptyRange _ => true
  | .rangeSub .emptyRange _ => true
  | _ => false

/-- `none`: a node without a type is asked for. The first node is read as a range, whatever it is.
Source: `range_union_rec` (`tl-ranges-common.cpp:1017`). -/
def rangeUnionRec (n : RangeNode) (m : Range) : Option RangeNode := match n with
  | .range n => some (rangesUnion n m)
  | n => if n.untyped then none else some (.rangeUnion n (.range m))

/-- The second node is read as a union: a range has no ranges for children. Source:
`range_and_rangeunion_union` (`tl-ranges-common.cpp:1138`). -/
def rangeAndRangeunionUnion (r : RangeNode) : RangeNode → Option RangeNode
  | .rangeUnion (.range u_lhs) (.range u_rhs) => do match ← rangeUnionRec r u_lhs with
    | .range tmp => rangeUnionRec (.range tmp) u_rhs
    | _ => match ← rangeUnionRec r u_rhs with
      | .range tmp => rangeUnionRec (.range tmp) u_lhs
      | tmp => some (.rangeUnion tmp (.range u_lhs))
  | .rangeUnion (.range u_lhs) u_rhs => do
    let tmp ← rangeUnionRec r u_lhs
    some (.rangeUnion tmp u_rhs)
  | .rangeUnion u_lhs (.range u_rhs) => do
    let tmp ← rangeUnionRec r u_rhs
    some (.rangeUnion tmp u_lhs)
  | u => some (.rangeUnion r u)

/-- The union of an empty range with another node, or of the range of all integers. -/
def simpleUnion (n m : RangeNode) : Option RangeNode := match n, m with
  | .emptyRange, m => some m
  | n, .emptyRange => some n
  | n, m => if n.isZ then some n else if m.isZ then some m else none

/-- A simple union is computed first, and again where the nodes are not both ranges. Source: `range_union`
(`tl-ranges-common.cpp:1188`). -/
def rangeUnion (n m : RangeNode) : Option RangeNode := match n, m with
  | .range r, .rangeUnion lhs rhs => rangeAndRangeunionUnion (.range r) (.rangeUnion lhs rhs)
  | .rangeUnion lhs rhs, .range r => rangeAndRangeunionUnion (.range r) (.rangeUnion lhs rhs)
  | .rangeUnion n_lhs n_rhs, .rangeUnion lhs rhs => do
    let result ← rangeAndRangeunionUnion n_lhs (.rangeUnion lhs rhs)
    rangeAndRangeunionUnion n_rhs result
  | .emptyRange, .rangeUnion _ _ => none
  | .emptyRange, .rangeIntersection _ _ => none
  | .rangeUnion lhs rhs, m => some (.rangeUnion (.rangeUnion lhs rhs) m)
  | .rangeIntersection lhs rhs, m => some (.rangeUnion (.rangeIntersection lhs rhs) m)
  | n, .rangeUnion lhs rhs => some (.rangeUnion n (.rangeUnion lhs rhs))
  | n, .rangeIntersection lhs rhs => some (.rangeUnion n (.rangeIntersection lhs rhs))
  | n, m => (simpleUnion n m).orElse fun _ => match n, m with
    | .range n, .range m => rangeUnionRec (.range n) m
    | _, _ => none

/-- Two ranges. Source: the end of `range_intersection` (`tl-ranges-common.cpp:988`). -/
def rangesIntersection (n m : Range) : RangeNode :=
  let lb := getMax n.lower m.lower
  let ub := getMin n.upper m.upper
  match lb.constant, ub.constant with
  | some k, some l => if l < k then .emptyRange else .range ⟨lb, ub⟩
  | _, _ => .range ⟨lb, ub⟩

/-- Source: `range_intersection` (`tl-ranges-common.cpp:947`). -/
def rangeIntersection (n : RangeNode) : RangeNode → Option RangeNode
  | .emptyRange => some .emptyRange
  | .range m => match n with
    | .emptyRange => some .emptyRange
    | .range n =>
      if (RangeNode.range n).isZ then some (.range m)
      else if (RangeNode.range m).isZ then some (.range n)
      else some (rangesIntersection n m)
    | n => if (RangeNode.range m).isZ then some n else some (.rangeIntersection n (.range m))
  | .rangeUnion lhs rhs => match n with
    | .emptyRange => some .emptyRange
    | .range n =>
      if (RangeNode.range n).isZ then some (.rangeUnion lhs rhs)
      else do
        let intersect_lhs ← rangeIntersection (.range n) lhs
        let intersect_rhs ← rangeIntersection (.range n) rhs
        match intersect_lhs, intersect_rhs with
        | .emptyRange, r => some r
        | l, .emptyRange => some l
        | l, r => rangeUnion l r
    | n => some (.rangeIntersection n (.rangeUnion lhs rhs))
  | m => match n with
    | .emptyRange => some .emptyRange
    | n => if n.isZ then some m else some (.rangeIntersection n m)

/-! ## Ranges -/

/-- The constant lies between those of the infinities. -/
def Ordinary (k : Int) : Prop := longMin < k ∧ k < longMax

instance : DecidablePred Ordinary := fun _ => inferInstanceAs (Decidable (_ ∧ _))

/-- The boundary of a range on its left side: unbounded, or a constant inside those of the infinities. Its
constant is `l`. -/
def Boundary.IsLower (b : Boundary) (l : Int) : Prop :=
  (b = .minusInfinity ∧ l = longMin) ∨ (b = .const l ∧ Ordinary l)

def Boundary.IsUpper (b : Boundary) (u : Int) : Prop :=
  (b = .plusInfinity ∧ u = longMax) ∨ (b = .const u ∧ Ordinary u)

/-- A range with values whose boundaries have the constants `l` and `u`. -/
structure Range.Between (r : Range) (l u : Int) : Prop where
  lower : r.lower.IsLower l
  upper : r.upper.IsUpper u
  le : l ≤ u

/-- The ranges have values, and there are only ranges, unions and, if `empty`, empty ranges. -/
def RangeNode.Built (empty : Prop) : RangeNode → Prop
  | .range r => ∃ l u, r.Between l u
  | .emptyRange => empty
  | .rangeUnion lhs rhs => lhs.Built empty ∧ rhs.Built empty
  | .rangeIntersection _ _ => False
  | .rangeSub _ _ => False

section
variable {ρ : Nat → Int} {b b' : Boundary} {n m r : Range} {l u l' u' k x : Int}

theorem longMin_lt_longMax : longMin < longMax := by decide

theorem Boundary.IsLower.constant (h : b.IsLower l) : b.constant = some l := by
  rcases h with ⟨rfl, rfl⟩ | ⟨rfl, -⟩ <;> rfl

theorem Boundary.IsUpper.constant (h : b.IsUpper u) : b.constant = some u := by
  rcases h with ⟨rfl, rfl⟩ | ⟨rfl, -⟩ <;> rfl

theorem Boundary.IsLower.range (h : b.IsLower l) : longMin ≤ l ∧ l < longMax := by
  have := longMin_lt_longMax
  rcases h with ⟨-, rfl⟩ | ⟨-, h⟩
  · omega
  · exact ⟨h.1.le, h.2⟩

theorem Boundary.IsUpper.range (h : b.IsUpper u) : longMin < u ∧ u ≤ longMax := by
  have := longMin_lt_longMax
  rcases h with ⟨-, rfl⟩ | ⟨-, h⟩
  · omega
  · exact ⟨h.1, h.2.le⟩

theorem Boundary.IsLower.eval_le_iff (h : b.IsLower l) :
    b.eval ρ ≤ (x : ExtInt) ↔ l = longMin ∨ l ≤ x := by
  rcases h with ⟨rfl, rfl⟩ | ⟨rfl, h⟩
  · exact iff_of_true bot_le (.inl rfl)
  · rw [eval_const_le, or_iff_right h.1.ne']

theorem Boundary.IsUpper.le_eval_iff (h : b.IsUpper u) :
    (x : ExtInt) ≤ b.eval ρ ↔ u = longMax ∨ x ≤ u := by
  rcases h with ⟨rfl, rfl⟩ | ⟨rfl, h⟩
  · exact iff_of_true le_top (.inl rfl)
  · rw [le_eval_const, or_iff_right h.2.ne]

/-- The constant is that of one boundary only. -/
theorem Boundary.IsLower.unique (h : b.IsLower l) (h' : b'.IsLower l) : b = b' := by
  rcases h with ⟨rfl, rfl⟩ | ⟨rfl, h⟩ <;> rcases h' with ⟨rfl, h'⟩ | ⟨rfl, h'⟩
  · rfl
  · exact absurd h'.1 (lt_irrefl _)
  · exact absurd h.1 (h' ▸ lt_irrefl _)
  · rfl

theorem Boundary.IsUpper.unique (h : b.IsUpper u) (h' : b'.IsUpper u) : b = b' := by
  rcases h with ⟨rfl, rfl⟩ | ⟨rfl, h⟩ <;> rcases h' with ⟨rfl, h'⟩ | ⟨rfl, h'⟩
  · rfl
  · exact absurd h'.2 (lt_irrefl _)
  · exact absurd h.2 (h' ▸ lt_irrefl _)
  · rfl

theorem isLower_getMin (h : b.IsLower l) (h' : b'.IsLower l') : (getMin b b').IsLower (min l l') := by
  have := h.range
  have := h'.range
  rcases h with ⟨rfl, rfl⟩ | ⟨rfl, h⟩ <;> rcases h' with ⟨rfl, rfl⟩ | ⟨rfl, h'⟩
  · exact .inl ⟨rfl, min_self _⟩
  · exact .inl ⟨rfl, by omega⟩
  · exact .inl ⟨rfl, by omega⟩
  · rw [getMin]
    split
    · next hle => exact .inr ⟨by rw [min_eq_left hle], by rwa [min_eq_left hle]⟩
    · next hle => exact .inr ⟨by rw [min_eq_right (by omega)], by rwa [min_eq_right (by omega)]⟩

theorem isUpper_getMax (h : b.IsUpper u) (h' : b'.IsUpper u') : (getMax b b').IsUpper (max u u') := by
  have := h.range
  have := h'.range
  rcases h with ⟨rfl, rfl⟩ | ⟨rfl, h⟩ <;> rcases h' with ⟨rfl, rfl⟩ | ⟨rfl, h'⟩
  · exact .inl ⟨rfl, max_self _⟩
  · exact .inl ⟨rfl, by omega⟩
  · exact .inl ⟨rfl, by omega⟩
  · rw [getMax]
    split
    · next hlt => exact .inr ⟨by rw [max_eq_right hlt.le], by rwa [max_eq_right hlt.le]⟩
    · next hle => exact .inr ⟨by rw [max_eq_left (by omega)], by rwa [max_eq_left (by omega)]⟩

theorem isLower_getMax (h : b.IsLower l) (h' : b'.IsLower l') : (getMax b b').IsLower (max l l') := by
  have := h.range
  have := h'.range
  rcases h with ⟨rfl, rfl⟩ | ⟨rfl, h⟩ <;> rcases h' with ⟨rfl, rfl⟩ | ⟨rfl, h'⟩
  · exact .inl ⟨rfl, max_self _⟩
  · exact .inr ⟨by rw [max_eq_right h'.1.le]; rfl, by rwa [max_eq_right h'.1.le]⟩
  · exact .inr ⟨by rw [max_eq_left h.1.le]; rfl, by rwa [max_eq_left h.1.le]⟩
  · rw [getMax]
    split
    · next hlt => exact .inr ⟨by rw [max_eq_right hlt.le], by rwa [max_eq_right hlt.le]⟩
    · next hle => exact .inr ⟨by rw [max_eq_left (by omega)], by rwa [max_eq_left (by omega)]⟩

theorem isUpper_getMin (h : b.IsUpper u) (h' : b'.IsUpper u') : (getMin b b').IsUpper (min u u') := by
  have := h.range
  have := h'.range
  rcases h with ⟨rfl, rfl⟩ | ⟨rfl, h⟩ <;> rcases h' with ⟨rfl, rfl⟩ | ⟨rfl, h'⟩
  · exact .inl ⟨rfl, min_self _⟩
  · exact .inr ⟨by rw [min_eq_right h'.2.le]; rfl, by rwa [min_eq_right h'.2.le]⟩
  · exact .inr ⟨by rw [min_eq_left h.2.le]; rfl, by rwa [min_eq_left h.2.le]⟩
  · rw [getMin]
    split
    · next hle => exact .inr ⟨by rw [min_eq_left hle], by rwa [min_eq_left hle]⟩
    · next hle => exact .inr ⟨by rw [min_eq_right (by omega)], by rwa [min_eq_right (by omega)]⟩

theorem Range.Between.mem_values_iff (h : r.Between l u) :
    x ∈ r.values ρ ↔ (l = longMin ∨ l ≤ x) ∧ (u = longMax ∨ x ≤ u) :=
  and_congr h.lower.eval_le_iff h.upper.le_eval_iff

/-- The least range that has the values of both. -/
def Range.hull (n m : Range) : Range := ⟨getMin n.lower m.lower, getMax n.upper m.upper⟩

/-- No integer lies between the ranges. -/
def Range.touches (n m : Range) : Bool :=
  match n.lower.constant, n.upper.constant, m.lower.constant, m.upper.constant with
  | some n_lb, some n_ub, some m_lb, some m_ub => decide (n_lb ≤ m_ub + 1 ∧ m_lb ≤ n_ub + 1)
  | _, _, _, _ => false

theorem Range.Between.touches_iff (hn : n.Between l u) (hm : m.Between l' u') :
    n.touches m = true ↔ l ≤ u' + 1 ∧ l' ≤ u + 1 := by
  simp only [Range.touches, hn.lower.constant, hn.upper.constant, hm.lower.constant, hm.upper.constant,
    decide_eq_true_eq]

theorem Range.Between.hull (hn : n.Between l u) (hm : m.Between l' u') :
    (n.hull m).Between (min l l') (max u u') :=
  ⟨isLower_getMin hn.lower hm.lower, isUpper_getMax hn.upper hm.upper,
    (min_le_left l l').trans (hn.le.trans (le_max_left u u'))⟩

/-- A range with the boundaries of the hull is the hull. -/
theorem Range.Between.eq_hull (hn : n.Between l u) (hm : m.Between l' u') (hlower : b.IsLower k)
    (hupper : b'.IsUpper x) (hmin : k = min l l') (hmax : x = max u u') : ⟨b, b'⟩ = n.hull m := by
  subst hmin hmax
  rw [hlower.unique (hn.hull hm).lower, hupper.unique (hn.hull hm).upper]

theorem rangesUnion_eq (hn : n.Between l u) (hm : m.Between l' u') : rangesUnion n m =
    if n.touches m then .range (n.hull m) else .rangeUnion (.range n) (.range m) := by
  have hnle := hn.le
  have hmle := hm.le
  have htouches := hn.touches_iff hm
  simp only [rangesUnion, hn.lower.constant, hn.upper.constant, hm.lower.constant, hm.upper.constant]
  split
  · split
    · rw [if_pos (htouches.2 (by omega))]
      exact congrArg _ (hn.eq_hull hm hm.lower hn.upper (by omega) (by omega))
    · split
      · rw [if_pos (htouches.2 (by omega))]
        exact congrArg _ (hn.eq_hull hm hn.lower hm.upper (by omega) (by omega))
      · rw [if_neg fun h => by have := htouches.1 h; omega]
  · rw [if_pos (htouches.2 (by omega))]
    split
    · next heq =>
      obtain ⟨rfl, rfl⟩ := heq
      exact congrArg _ (hn.eq_hull hm hn.lower hn.upper (min_self _).symm (max_self _).symm)
    · refine congrArg _ ?_
      split <;> split
      · exact hn.eq_hull hm hm.lower hn.upper (by omega) (by omega)
      · exact hn.eq_hull hm hm.lower hm.upper (by omega) (by omega)
      · exact hn.eq_hull hm hn.lower hn.upper (by omega) (by omega)
      · exact hn.eq_hull hm hn.lower hm.upper (by omega) (by omega)

/-- The hull of ranges without an integer between them is their union. -/
theorem values_hull (hn : n.Between l u) (hm : m.Between l' u') (htouches : n.touches m = true) :
    (n.hull m).values ρ = n.values ρ ∪ m.values ρ := by
  have hnle := hn.le
  have hmle := hm.le
  have htouches := (hn.touches_iff hm).1 htouches
  have := hn.lower.range
  have := hm.lower.range
  have := hn.upper.range
  have := hm.upper.range
  ext x
  rw [Set.mem_union, (hn.hull hm).mem_values_iff, hn.mem_values_iff, hm.mem_values_iff]
  omega

variable {e : Prop}

theorem rangesUnion_spec (hn : n.Between l u) (hm : m.Between l' u') :
    (rangesUnion n m).Built e ∧ (rangesUnion n m).values ρ = n.values ρ ∪ m.values ρ := by
  rw [rangesUnion_eq hn hm]
  split
  · next htouches => exact ⟨⟨_, _, hn.hull hm⟩, values_hull hn hm htouches⟩
  · exact ⟨⟨⟨_, _, hn⟩, ⟨_, _, hm⟩⟩, rfl⟩

/-! ## The union -/

/-- One of the operands of the union is a range. -/
def RangeNode.hasRange : RangeNode → Bool
  | .rangeUnion (.range _) _ => true
  | .rangeUnion _ (.range _) => true
  | _ => false

theorem rangeUnionRec_eq_none_iff {n : RangeNode} : rangeUnionRec n m = none ↔ n.untyped = true := by
  cases n with
  | range n => simp [rangeUnionRec, RangeNode.untyped]
  | emptyRange => simp [rangeUnionRec, RangeNode.untyped]
  | rangeUnion lhs rhs =>
    unfold rangeUnionRec
    dsimp only
    split <;> simp_all
  | rangeIntersection lhs rhs =>
    unfold rangeUnionRec
    dsimp only
    split <;> simp_all
  | rangeSub lhs rhs =>
    unfold rangeUnionRec
    dsimp only
    split <;> simp_all

theorem rangeUnionRec_spec {n t : RangeNode} (h : rangeUnionRec n m = some t) (hn : n.Built e)
    (hm : (RangeNode.range m).Built e) : t.Built e ∧ t.values ρ = n.values ρ ∪ m.values ρ := by
  cases n with
  | range n =>
    obtain ⟨l, u, hn⟩ := hn
    obtain ⟨l', u', hm⟩ := hm
    obtain rfl := Option.some.inj h
    exact rangesUnion_spec hn hm
  | emptyRange => cases h
  | rangeUnion lhs rhs =>
    unfold rangeUnionRec at h
    dsimp only at h
    split at h
    · cases h
    · obtain rfl := Option.some.inj h
      exact ⟨⟨hn, hm⟩, rfl⟩
  | rangeIntersection lhs rhs => exact hn.elim
  | rangeSub lhs rhs => exact hn.elim

theorem rangeAndRangeunionUnion_spec {r u t : RangeNode} (h : rangeAndRangeunionUnion r u = some t)
    (hr : r.Built e) (hu : u.Built e) : t.Built e ∧ t.values ρ = r.values ρ ∪ u.values ρ := by
  unfold rangeAndRangeunionUnion at h
  split at h
  · next u_lhs u_rhs =>
    obtain ⟨hlhs, hrhs⟩ := hu
    obtain ⟨tmp, htmp, h⟩ := Option.bind_eq_some_iff.1 h
    obtain ⟨hbuilt, hvalues⟩ := rangeUnionRec_spec (ρ := ρ) htmp hr hlhs
    split at h
    · obtain ⟨hbuilt', hvalues'⟩ := rangeUnionRec_spec (ρ := ρ) h hbuilt hrhs
      exact ⟨hbuilt', by rw [hvalues', hvalues, Set.union_assoc]; rfl⟩
    · obtain ⟨tmp', htmp', h⟩ := Option.bind_eq_some_iff.1 h
      obtain ⟨hbuilt', hvalues'⟩ := rangeUnionRec_spec (ρ := ρ) htmp' hr hrhs
      have hcomm : (RangeNode.rangeUnion (.range u_lhs) (.range u_rhs)).values ρ =
          u_rhs.values ρ ∪ u_lhs.values ρ := Set.union_comm ..
      split at h
      · obtain ⟨hbuilt'', hvalues''⟩ := rangeUnionRec_spec (ρ := ρ) h hbuilt' hlhs
        exact ⟨hbuilt'', by rw [hvalues'', hvalues', Set.union_assoc, hcomm]⟩
      · obtain rfl := Option.some.inj h
        refine ⟨⟨hbuilt', hlhs⟩, ?_⟩
        rw [hcomm, RangeNode.values, hvalues', Set.union_assoc]
        rfl
  · next u_lhs u_rhs _ =>
    obtain ⟨hlhs, hrhs⟩ := hu
    obtain ⟨tmp, htmp, h⟩ := Option.bind_eq_some_iff.1 h
    obtain ⟨hbuilt, hvalues⟩ := rangeUnionRec_spec (ρ := ρ) htmp hr hlhs
    obtain rfl := Option.some.inj h
    exact ⟨⟨hbuilt, hrhs⟩, by rw [RangeNode.values, hvalues, Set.union_assoc]; rfl⟩
  · next u_lhs u_rhs _ =>
    obtain ⟨hlhs, hrhs⟩ := hu
    obtain ⟨tmp, htmp, h⟩ := Option.bind_eq_some_iff.1 h
    obtain ⟨hbuilt, hvalues⟩ := rangeUnionRec_spec (ρ := ρ) htmp hr hrhs
    obtain rfl := Option.some.inj h
    refine ⟨⟨hbuilt, hlhs⟩, ?_⟩
    rw [RangeNode.values, hvalues, Set.union_assoc, RangeNode.values, Set.union_comm (u_lhs.values ρ)]
    rfl
  · obtain rfl := Option.some.inj h
    exact ⟨⟨hr, hu⟩, rfl⟩

/-- A node that is read as a union and has no range for an operand. -/
theorem hasRange_eq_false {u : RangeNode} (hlhs : ∀ l r, u ≠ .rangeUnion (.range l) r)
    (hrhs : ∀ l r, u ≠ .rangeUnion l (.range r)) : u.hasRange = false := by
  unfold RangeNode.hasRange
  split
  · exact absurd rfl (hlhs _ _)
  · exact absurd rfl (hrhs _ _)
  · rfl

/-- A node without a type is not united with a range. -/
theorem rangeAndRangeunionUnion_eq_none_iff {r u : RangeNode} :
    rangeAndRangeunionUnion r u = none ↔ r.untyped = true ∧ u.hasRange = true := by
  cases huntyped : r.untyped with
  | true =>
    have hrec (m : Range) : rangeUnionRec r m = none := rangeUnionRec_eq_none_iff.2 huntyped
    unfold rangeAndRangeunionUnion
    split
    · simp [hrec, RangeNode.hasRange]
    · simp [hrec, RangeNode.hasRange]
    · simp [hrec, RangeNode.hasRange]
    · next hlhs hrhs => simp [hasRange_eq_false hlhs hrhs]
  | false =>
    have hrec (m : Range) : ∃ t, rangeUnionRec r m = some t :=
      Option.ne_none_iff_exists'.1 fun h => by simp [rangeUnionRec_eq_none_iff.1 h] at huntyped
    unfold rangeAndRangeunionUnion
    split
    · next u_lhs u_rhs =>
      obtain ⟨tmp, htmp⟩ := hrec u_lhs
      obtain ⟨tmp', htmp'⟩ := hrec u_rhs
      refine iff_of_false ?_ (by simp)
      rw [htmp, htmp', Option.bind_eq_bind, Option.bind_some]
      split
      · exact Option.some_ne_none _
      · rw [Option.bind_some]
        split
        · exact Option.some_ne_none _
        · exact Option.some_ne_none _
    · next u_lhs u_rhs _ =>
      obtain ⟨tmp, htmp⟩ := hrec u_lhs
      simp [htmp]
    · next u_lhs u_rhs _ =>
      obtain ⟨tmp, htmp⟩ := hrec u_rhs
      simp [htmp]
    · simp

/-- The result of uniting a node with a union has a range for an operand again. -/
def keepsRange : RangeNode → RangeNode → Bool
  | .range r, .rangeUnion (.range x) (.range y) =>
    if r.touches x then !(r.hull x).touches y
    else if r.touches y then !(r.hull y).touches x
    else true
  | .range r, .rangeUnion (.range x) _ => r.touches x
  | .range r, .rangeUnion _ (.range y) => r.touches y
  | .range _, _ => true
  | .emptyRange, _ => false
  | _, .rangeUnion (.range _) (.range _) => true
  | _, _ => false

/-- A union of ranges is one range where they touch. -/
theorem rangesUnion_of_touches (hn : n.Between l u) (hm : m.Between l' u') (h : n.touches m = true) :
    rangesUnion n m = .range (n.hull m) := by
  rw [rangesUnion_eq hn hm, if_pos h]

theorem rangesUnion_of_not_touches (hn : n.Between l u) (hm : m.Between l' u') (h : n.touches m = false) :
    rangesUnion n m = .rangeUnion (.range n) (.range m) := by
  rw [rangesUnion_eq hn hm, if_neg (by simp [h])]

theorem hasRange_rangesUnion (hn : n.Between l u) (hm : m.Between l' u') :
    (rangesUnion n m).hasRange = !n.touches m := by
  cases h : n.touches m with
  | true =>
    rw [rangesUnion_of_touches hn hm h]
    rfl
  | false =>
    rw [rangesUnion_of_not_touches hn hm h]
    rfl

/-- A range united with two ranges. -/
theorem hasRange_of_ranges {x y : Range} {t : RangeNode}
    (h : rangeAndRangeunionUnion (.range r) (.rangeUnion (.range x) (.range y)) = some t)
    (hr : (RangeNode.range r).Built e) (hx : (RangeNode.range x).Built e) (hy : (RangeNode.range y).Built e) :
    t.hasRange = keepsRange (.range r) (.rangeUnion (.range x) (.range y)) := by
  obtain ⟨l, u, hr⟩ := hr
  obtain ⟨lx, ux, hx⟩ := hx
  obtain ⟨ly, uy, hy⟩ := hy
  simp only [rangeAndRangeunionUnion, rangeUnionRec, Option.bind_eq_bind, Option.bind_some] at h
  cases hrx : r.touches x with
  | true =>
    simp only [rangesUnion_of_touches hr hx hrx, Option.some.injEq] at h
    simp only [keepsRange, hrx, if_true, ← h, hasRange_rangesUnion (hr.hull hx) hy]
  | false =>
    simp only [rangesUnion_of_not_touches hr hx hrx] at h
    cases hry : r.touches y with
    | true =>
      simp only [rangesUnion_of_touches hr hy hry, Option.some.injEq] at h
      simp only [keepsRange, hrx, hry, if_true, ← h, hasRange_rangesUnion (hr.hull hy) hx]
      rfl
    | false =>
      simp only [rangesUnion_of_not_touches hr hy hry, Option.some.injEq] at h
      simp only [keepsRange, hrx, hry, ← h]
      rfl

/-- The node is a range. -/
def RangeNode.isRange : RangeNode → Bool
  | .range _ => true
  | _ => false

/-- The node is a range that touches the other one. -/
def RangeNode.touches : RangeNode → Range → Bool
  | .range r, m => r.touches m
  | _, _ => false

/-- A union with a second operand that is not a range. -/
theorem hasRange_of_not_range {x y : RangeNode} (hy : y.isRange = false) :
    (RangeNode.rangeUnion x y).hasRange = x.isRange := by
  cases x <;> cases y <;> first | rfl | cases hy

theorem isRange_eq_false {n : RangeNode} (h : ∀ r, n = .range r → False) : n.isRange = false := by
  cases n <;> first | rfl | exact (h _ rfl).elim

/-- A node united with a range and something that is not one. -/
theorem hasRange_of_range {x t z : RangeNode} (hz : z.isRange = false)
    (h : (do let tmp ← rangeUnionRec x m; some (.rangeUnion tmp z)) = some t) (hx : x.Built e)
    (hm : m.Between l u) : t.hasRange = x.touches m := by
  cases x with
  | range r =>
    obtain rfl := Option.some.inj h
    obtain ⟨_, _, hr⟩ := hx
    rw [hasRange_of_not_range hz, rangesUnion_eq hr hm]
    change _ = r.touches m
    cases r.touches m <;> rfl
  | emptyRange => cases h
  | rangeUnion lhs rhs =>
    unfold rangeUnionRec at h
    dsimp only at h
    split at h
    · cases h
    · obtain rfl := Option.some.inj h
      exact hasRange_of_not_range hz
  | rangeIntersection lhs rhs => exact hx.elim
  | rangeSub lhs rhs => exact hx.elim

theorem hasRange_eq_keepsRange {r x y t : RangeNode}
    (h : rangeAndRangeunionUnion r (.rangeUnion x y) = some t) (hr : r.Built e)
    (hx : x.Built e) (hy : y.Built e) : t.hasRange = keepsRange r (.rangeUnion x y) := by
  unfold rangeAndRangeunionUnion at h
  split at h
  · next heq =>
    obtain ⟨rfl, rfl⟩ := RangeNode.rangeUnion.inj heq
    cases r with
    | range r => exact hasRange_of_ranges h hr hx hy
    | emptyRange => cases h
    | rangeUnion lhs rhs =>
      unfold rangeUnionRec at h
      dsimp only at h
      split at h
      · cases h
      · obtain rfl := Option.some.inj h
        rfl
    | rangeIntersection lhs rhs => exact hr.elim
    | rangeSub lhs rhs => exact hr.elim
  · next hnot heq =>
    obtain ⟨rfl, rfl⟩ := RangeNode.rangeUnion.inj heq
    obtain ⟨_, _, hx⟩ := hx
    rw [hasRange_of_range (isRange_eq_false hnot) h hr hx]
    cases r <;> cases y <;> first | rfl | exact (hnot _ rfl).elim
  · next hnot heq =>
    obtain ⟨rfl, rfl⟩ := RangeNode.rangeUnion.inj heq
    obtain ⟨_, _, hy⟩ := hy
    rw [hasRange_of_range (isRange_eq_false hnot) h hr hy]
    cases r <;> cases x <;> first | rfl | exact (hnot _ rfl).elim
  · next hlhs hrhs =>
    obtain rfl := Option.some.inj h
    rw [hasRange_of_not_range rfl]
    cases r <;> cases x <;> cases y <;>
      first | rfl | exact (hlhs _ _ rfl).elim | exact (hrhs _ _ rfl).elim

/-- A node that lacks a type is built: an empty range with a union, or, of two unions, a first operand whose
first child is empty with a second union that has a range for an operand. The second operand is united with
the result of the first. -/
def UnionFails : RangeNode → RangeNode → Prop
  | .emptyRange, .rangeUnion _ _ => True
  | .rangeUnion n_lhs n_rhs, .rangeUnion m_lhs m_rhs =>
    (n_lhs.untyped = true ∧ (RangeNode.rangeUnion m_lhs m_rhs).hasRange = true) ∨
      (n_rhs.untyped = true ∧ keepsRange n_lhs (.rangeUnion m_lhs m_rhs) = true)
  | _, _ => False

theorem values_of_isZ {n : RangeNode} (h : n.isZ = true) : n.values ρ = Set.univ := by
  unfold RangeNode.isZ at h
  split at h
  · exact Set.eq_univ_of_forall fun x => ⟨bot_le, le_top⟩
  · cases h

/-- Two ranges. -/
theorem rangeUnion_ranges (n m : Range) (hn : (RangeNode.range n).Built e) (hm : (RangeNode.range m).Built e) :
    ∃ t, rangeUnion (.range n) (.range m) = some t ∧ t.Built e ∧
      t.values ρ = n.values ρ ∪ m.values ρ := by
  have hresult : rangeUnion (.range n) (.range m) = if (RangeNode.range n).isZ then some (.range n)
      else if (RangeNode.range m).isZ then some (.range m) else some (rangesUnion n m) := by
    simp only [rangeUnion, simpleUnion, rangeUnionRec]
    split
    · rfl
    · split <;> rfl
  rw [hresult]
  split
  · next hz => exact ⟨_, rfl, hn, by rw [values_of_isZ hz, ← RangeNode.values, values_of_isZ hz, Set.univ_union]⟩
  · split
    · next hz =>
      exact ⟨_, rfl, hm, by rw [values_of_isZ hz, ← RangeNode.values, ← RangeNode.values,
        values_of_isZ hz, Set.union_univ]⟩
    · obtain ⟨_, _, hn⟩ := hn
      obtain ⟨_, _, hm⟩ := hm
      exact ⟨_, rfl, rangesUnion_spec hn hm⟩

theorem rangeUnion_spec {n m t : RangeNode} (h : rangeUnion n m = some t) (hn : n.Built e) (hm : m.Built e) :
    t.Built e ∧ t.values ρ = n.values ρ ∪ m.values ρ := by
  cases n with
  | range n =>
    cases m with
    | range m =>
      obtain ⟨t', ht', hspec⟩ := rangeUnion_ranges (ρ := ρ) n m hn hm
      obtain rfl := Option.some.inj (h.symm.trans ht')
      exact hspec
    | emptyRange =>
      obtain rfl := Option.some.inj h
      exact ⟨hn, (Set.union_empty _).symm⟩
    | rangeUnion lhs rhs => exact rangeAndRangeunionUnion_spec h hn hm
    | rangeIntersection lhs rhs => exact hm.elim
    | rangeSub lhs rhs => exact hm.elim
  | emptyRange =>
    cases m with
    | range m =>
      obtain rfl := Option.some.inj h
      exact ⟨hm, (Set.empty_union _).symm⟩
    | emptyRange =>
      obtain rfl := Option.some.inj h
      exact ⟨hm, (Set.empty_union _).symm⟩
    | rangeUnion lhs rhs => cases h
    | rangeIntersection lhs rhs => exact hm.elim
    | rangeSub lhs rhs => exact hm.elim
  | rangeUnion n_lhs n_rhs =>
    cases m with
    | range m =>
      rw [Set.union_comm]
      exact rangeAndRangeunionUnion_spec h hm hn
    | emptyRange =>
      obtain rfl := Option.some.inj h
      exact ⟨⟨hn, hm⟩, rfl⟩
    | rangeUnion lhs rhs =>
      obtain ⟨result, hresult, h⟩ := Option.bind_eq_some_iff.1 h
      obtain ⟨hbuilt, hvalues⟩ := rangeAndRangeunionUnion_spec (ρ := ρ) hresult hn.1 hm
      obtain ⟨hbuilt', hvalues'⟩ := rangeAndRangeunionUnion_spec (ρ := ρ) h hn.2 hbuilt
      refine ⟨hbuilt', ?_⟩
      rw [hvalues', hvalues, ← Set.union_assoc, Set.union_comm (n_rhs.values ρ)]
      rfl
    | rangeIntersection lhs rhs => exact hm.elim
    | rangeSub lhs rhs => exact hm.elim
  | rangeIntersection lhs rhs => exact hn.elim
  | rangeSub lhs rhs => exact hn.elim

/-- The union cannot be built exactly where a node without a type would be. -/
theorem rangeUnion_eq_none_iff {n m : RangeNode} (hn : n.Built e) (hm : m.Built e) :
    rangeUnion n m = none ↔ UnionFails n m := by
  cases n with
  | range n =>
    cases m with
    | range m =>
      obtain ⟨t, ht, -⟩ := rangeUnion_ranges (ρ := fun _ => 0) n m hn hm
      exact iff_of_false (by simp [ht]) id
    | emptyRange => exact iff_of_false nofun id
    | rangeUnion lhs rhs =>
      refine iff_of_false (fun h => ?_) id
      exact absurd (rangeAndRangeunionUnion_eq_none_iff.1 h).1 (by simp [RangeNode.untyped])
    | rangeIntersection lhs rhs => exact hm.elim
    | rangeSub lhs rhs => exact hm.elim
  | emptyRange =>
    cases m with
    | range m => exact iff_of_false nofun id
    | emptyRange => exact iff_of_false nofun id
    | rangeUnion lhs rhs => exact iff_of_true rfl trivial
    | rangeIntersection lhs rhs => exact hm.elim
    | rangeSub lhs rhs => exact hm.elim
  | rangeUnion n_lhs n_rhs =>
    cases m with
    | range m =>
      refine iff_of_false (fun h => ?_) id
      exact absurd (rangeAndRangeunionUnion_eq_none_iff.1 h).1 (by simp [RangeNode.untyped])
    | emptyRange => exact iff_of_false nofun id
    | rangeUnion lhs rhs =>
      change (rangeAndRangeunionUnion n_lhs (.rangeUnion lhs rhs)).bind (rangeAndRangeunionUnion n_rhs) = none ↔
        (_ ∨ _)
      rw [← rangeAndRangeunionUnion_eq_none_iff]
      cases hresult : rangeAndRangeunionUnion n_lhs (.rangeUnion lhs rhs) with
      | none => exact iff_of_true rfl (.inl rfl)
      | some t =>
        rw [Option.bind_some, rangeAndRangeunionUnion_eq_none_iff, or_iff_right nofun,
          hasRange_eq_keepsRange hresult hn.1 hm.1 hm.2]
    | rangeIntersection lhs rhs => exact hm.elim
    | rangeSub lhs rhs => exact hm.elim
  | rangeIntersection lhs rhs => exact hn.elim
  | rangeSub lhs rhs => exact hn.elim

/-- Nodes without an empty range can be united. -/
theorem not_unionFails_of_built {n m : RangeNode} (hn : n.Built False) (hm : m.Built False) :
    ¬ UnionFails n m := by
  have huntyped {n : RangeNode} (hn : n.Built False) : n.untyped = false := by
    unfold RangeNode.untyped
    split
    · exact hn.elim
    · exact hn.1.elim
    · exact hn.elim
    · exact hn.elim
    · rfl
  unfold UnionFails
  split
  · exact hn.elim
  · rw [huntyped hn.1, huntyped hn.2]
    simp
  · exact id

/-! ## The intersection -/

theorem rangesIntersection_spec (hn : n.Between l u) (hm : m.Between l' u') :
    (rangesIntersection n m = .emptyRange ∨ (rangesIntersection n m).Built False) ∧
      (rangesIntersection n m).values ρ = n.values ρ ∩ m.values ρ := by
  have hlower := isLower_getMax hn.lower hm.lower
  have hupper := isUpper_getMin hn.upper hm.upper
  simp only [rangesIntersection, hlower.constant, hupper.constant]
  split
  · next hlt =>
    refine ⟨.inl rfl, (Set.eq_empty_of_forall_notMem fun x hx => ?_).symm⟩
    have hxn := hn.mem_values_iff.1 hx.1
    have hxm := hm.mem_values_iff.1 hx.2
    have := hn.lower.range
    have := hm.lower.range
    have := hn.upper.range
    have := hm.upper.range
    omega
  · next hle =>
    refine ⟨.inr ⟨_, _, hlower, hupper, not_lt.1 hle⟩, ?_⟩
    change interval _ _ = interval _ _ ∩ interval _ _
    rw [interval_inter, eval_getMax, eval_getMin]

/-- A range with a node. What is left is empty or has no empty range in it. -/
theorem rangeIntersection_range {m : RangeNode} (hn : (RangeNode.range n).Built True) (hm : m.Built True)
    (hz : (RangeNode.range n).isZ = false) :
    ∃ t, rangeIntersection (.range n) m = some t ∧ (t = .emptyRange ∨ t.Built False) ∧
      t.values ρ = n.values ρ ∩ m.values ρ := by
  induction m with
  | range m =>
    have hresult : rangeIntersection (.range n) (.range m) =
        if (RangeNode.range m).isZ then some (.range n) else some (rangesIntersection n m) := by
      simp [rangeIntersection, hz]
    rw [hresult]
    split
    · next hz => exact ⟨_, rfl, .inr hn, by rw [values_of_isZ hz, Set.inter_univ]; rfl⟩
    · obtain ⟨_, _, hn⟩ := hn
      obtain ⟨_, _, hm⟩ := hm
      exact ⟨_, rfl, rangesIntersection_spec hn hm⟩
  | emptyRange => exact ⟨_, rfl, .inl rfl, (Set.inter_empty _).symm⟩
  | rangeUnion lhs rhs ihl ihr =>
    obtain ⟨tl, htl, hl, hvl⟩ := ihl hm.1
    obtain ⟨tr, htr, hr, hvr⟩ := ihr hm.2
    have hvalues : n.values ρ ∩ (RangeNode.rangeUnion lhs rhs).values ρ = tl.values ρ ∪ tr.values ρ := by
      rw [hvl, hvr, ← Set.inter_union_distrib_left]
      rfl
    rw [hvalues]
    simp only [rangeIntersection, hz, htl, htr, Bool.false_eq_true, if_false, Option.bind_eq_bind,
      Option.bind_some]
    rcases hl with rfl | hl
    · exact ⟨_, rfl, hr, (Set.empty_union _).symm⟩
    · rcases hr with rfl | hr
      · refine ⟨tl, ?_, .inr hl, (Set.union_empty _).symm⟩
        cases tl <;> rfl
      · obtain ⟨t, ht⟩ : ∃ t, rangeUnion tl tr = some t := Option.ne_none_iff_exists'.1 fun hnone =>
          not_unionFails_of_built hl hr ((rangeUnion_eq_none_iff hl hr).1 hnone)
        obtain ⟨hbuilt, hspec⟩ := rangeUnion_spec (ρ := ρ) ht hl hr
        refine ⟨t, ?_, .inr hbuilt, hspec⟩
        cases tl <;> cases tr <;> first | exact ht | exact hl.elim | exact hr.elim
  | rangeIntersection lhs rhs => exact hm.elim
  | rangeSub lhs rhs => exact hm.elim

theorem rangeIntersection_spec {n m : RangeNode} (hn : n.Built True) (hm : m.Built True) :
    ∃ t, rangeIntersection n m = some t ∧ t.values ρ = n.values ρ ∩ m.values ρ := by
  cases n with
  | range n =>
    cases hz : (RangeNode.range n).isZ with
    | true =>
      refine ⟨m, ?_, by rw [values_of_isZ hz, Set.univ_inter]⟩
      cases m with
      | range m => simp [rangeIntersection, hz]
      | emptyRange => rfl
      | rangeUnion lhs rhs => simp [rangeIntersection, hz]
      | rangeIntersection lhs rhs => exact hm.elim
      | rangeSub lhs rhs => exact hm.elim
    | false =>
      obtain ⟨t, ht, -, hvalues⟩ := rangeIntersection_range (ρ := ρ) hn hm hz
      exact ⟨t, ht, hvalues⟩
  | emptyRange =>
    refine ⟨.emptyRange, ?_, (Set.empty_inter _).symm⟩
    cases m with
    | range m => rfl
    | emptyRange => rfl
    | rangeUnion lhs rhs => rfl
    | rangeIntersection lhs rhs => exact hm.elim
    | rangeSub lhs rhs => exact hm.elim
  | rangeUnion n_lhs n_rhs =>
    cases m with
    | range m =>
      have hresult : rangeIntersection (.rangeUnion n_lhs n_rhs) (.range m) =
          if (RangeNode.range m).isZ then some (.rangeUnion n_lhs n_rhs)
          else some (.rangeIntersection (.rangeUnion n_lhs n_rhs) (.range m)) := rfl
      rw [hresult]
      split
      · next hz => exact ⟨_, rfl, by rw [values_of_isZ hz, Set.inter_univ]⟩
      · exact ⟨_, rfl, rfl⟩
    | emptyRange => exact ⟨_, rfl, (Set.inter_empty _).symm⟩
    | rangeUnion lhs rhs => exact ⟨_, rfl, rfl⟩
    | rangeIntersection lhs rhs => exact hm.elim
    | rangeSub lhs rhs => exact hm.elim
  | rangeIntersection lhs rhs => exact hn.elim
  | rangeSub lhs rhs => exact hn.elim

/-! ## The difference -/

theorem structurallyEqual_range :
    (structurallyEqual n.lower m.lower && structurallyEqual n.upper m.upper) = true ↔ n = m := by
  obtain ⟨_, _⟩ := n
  obtain ⟨_, _⟩ := m
  simp [structurallyEqual_iff]

theorem rangeSub_spec (hn : n.Between l u) (hm : m.Between l' u') :
    (rangeSub n m).values ρ = n.values ρ \ m.values ρ := by
  have hnle := hn.le
  have hmle := hm.le
  have := hn.lower.range
  have := hm.lower.range
  have := hn.upper.range
  have := hm.upper.range
  have hleft {x : Int} : x ∈ (⟨n.lower, .const (l' - 1)⟩ : Range).values ρ ↔
      (l = longMin ∨ l ≤ x) ∧ x ≤ l' - 1 := and_congr hn.lower.eval_le_iff le_eval_const
  have hright {x : Int} : x ∈ (⟨.const (u' + 1), n.upper⟩ : Range).values ρ ↔
      u' + 1 ≤ x ∧ (u = longMax ∨ x ≤ u) := and_congr eval_const_le hn.upper.le_eval_iff
  unfold rangeSub
  split
  · next heq =>
    rw [structurallyEqual_range.1 heq, Set.sdiff_self]
    rfl
  · simp only [hn.lower.constant, hn.upper.constant, hm.lower.constant, hm.upper.constant]
    ext x
    rw [Set.mem_sdiff, hn.mem_values_iff, hm.mem_values_iff]
    repeat' split
    all_goals simp only [RangeNode.values, Set.mem_empty_iff_false, false_iff, Set.mem_union, hleft, hright,
      hn.mem_values_iff]
    all_goals omega

end

/-- **The operations on sets of ranges** give the union, the intersection and the difference exactly if the
union does not build a node without a type. -/
theorem range_sets_iff (n m : RangeNode) (ρ : Nat → Int) (hn : n.Built True) (hm : m.Built True) :
    ((∃ t, rangeUnion n m = some t ∧ t.values ρ = n.values ρ ∪ m.values ρ) ∧
      (∃ t, rangeIntersection n m = some t ∧ t.values ρ = n.values ρ ∩ m.values ρ) ∧
        ∀ r s, n = .range r → m = .range s → (rangeSub r s).values ρ = r.values ρ \ s.values ρ) ↔
      ¬ UnionFails n m := by
  rw [← rangeUnion_eq_none_iff hn hm]
  constructor
  · rintro ⟨⟨t, ht, -⟩, -⟩ hnone
    cases hnone.symm.trans ht
  · intro hsome
    obtain ⟨t, ht⟩ := Option.ne_none_iff_exists'.1 hsome
    refine ⟨⟨t, ht, (rangeUnion_spec ht hn hm).2⟩, rangeIntersection_spec hn hm, ?_⟩
    rintro r s rfl rfl
    obtain ⟨_, _, hr⟩ := hn
    obtain ⟨_, _, hs⟩ := hm
    exact rangeSub_spec hr hs

theorem between_const {a b : Int} (ha : Ordinary a) (hb : Ordinary b) (hle : a ≤ b) :
    (⟨.const a, .const b⟩ : Range).Between a b :=
  ⟨.inr ⟨rfl, ha⟩, .inr ⟨rfl, hb⟩, hle⟩

/-- A range with the union of one that touches it and one that has no upper bound. -/
theorem range_sets_iff_touching :
    let n : RangeNode := .range ⟨.const 0, .const 4⟩
    let m : RangeNode := .rangeUnion (.range ⟨.const 5, .const 9⟩) (.range ⟨.const 12, .plusInfinity⟩)
    (∃ t, rangeUnion n m = some t ∧ t.values (fun _ => 0) = n.values (fun _ => 0) ∪ m.values fun _ => 0) := by
  intro n m
  refine ((range_sets_iff n m (fun _ => 0) ⟨0, 4, between_const (by decide) (by decide) (by decide)⟩
    ⟨⟨5, 9, between_const (by decide) (by decide) (by decide)⟩, ⟨12, longMax, ?_⟩⟩).2 id).1
  exact ⟨.inr ⟨rfl, by decide⟩, .inl ⟨rfl, rfl⟩, by decide⟩

/-- The union of an empty range with a union cannot be built. -/
theorem not_rangeUnion_emptyRange :
    let m : RangeNode := .rangeUnion (.range ⟨.const 0, .const 1⟩) (.range ⟨.const 5, .const 6⟩)
    RangeNode.emptyRange.Built True ∧ m.Built True ∧ rangeUnion .emptyRange m = none := by
  refine ⟨trivial, ⟨⟨0, 1, ?_⟩, ⟨5, 6, ?_⟩⟩, rfl⟩
  · exact between_const (by decide) (by decide) (by decide)
  · exact between_const (by decide) (by decide) (by decide)

end OmpSs.Mcxx.Ranges
