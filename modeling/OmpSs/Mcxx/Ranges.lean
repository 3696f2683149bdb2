import OmpSs.Lib.Interval

/-!
# Value ranges

The range analysis (`mcxx/src/tl/analysis/common/tl-ranges-common.cpp`) bounds the value of a variable by a
`Range` node. Its boundaries are expressions: constants, infinities, variables, and minima and maxima of
these. The node of an infinity has a constant as well, `LONG_MIN` or `LONG_MAX`, so that `is_constant` holds
of it; which of the two it is for a test, an infinity or a constant, decides most of what goes wrong with
ranges that are not bounded.

Constants are signed and exact. A type is left out: it is that of integers, and no operation on
signed constants looks at its size. The constants of the compiler, which have a sign and a word, are in
`FoldedRanges`.
-/

namespace OmpSs.Mcxx.Ranges

open Lib

/-- Source: `LONG_MIN`, the constant of `minus_inf` (`tl-ranges-common.cpp:46`). -/
def longMin : Int := -2 ^ 63

/-- Source: `LONG_MAX`, the constant of `plus_inf` (`tl-ranges-common.cpp:44`). -/
def longMax : Int := 2 ^ 63 - 1

/-! ## Boundaries -/

/-- Source: the `NBase` of a boundary. -/
inductive Boundary
  | const (k : Int)
  | minusInfinity
  | plusInfinity
  | symbol (x : Nat)
  | minimum (exprs : List Boundary)
  | maximum (exprs : List Boundary)

/-- Source: `is_constant` and `get_constant`. -/
def Boundary.constant : Boundary → Option Int
  | .const k => some k
  | .minusInfinity => some longMin
  | .plusInfinity => some longMax
  | .symbol _ => none
  | .minimum _ => none
  | .maximum _ => none

mutual
/-- The value of a boundary. -/
def Boundary.eval (ρ : Nat → Int) : Boundary → ExtInt
  | .const k => (k : ExtInt)
  | .minusInfinity => ⊥
  | .plusInfinity => ⊤
  | .symbol x => (ρ x : ExtInt)
  | .minimum exprs => evalMinimum ρ exprs
  | .maximum exprs => evalMaximum ρ exprs

/-- The least of the values. -/
def evalMinimum (ρ : Nat → Int) : List Boundary → ExtInt
  | [] => ⊤
  | e :: es => min (e.eval ρ) (evalMinimum ρ es)

/-- The greatest of the values. -/
def evalMaximum (ρ : Nat → Int) : List Boundary → ExtInt
  | [] => ⊥
  | e :: es => max (e.eval ρ) (evalMaximum ρ es)
end

mutual
/-- Source: `Nodecl::Utils::structurally_equal_nodecls`. -/
def structurallyEqual : Boundary → Boundary → Bool
  | .const k, .const l => decide (k = l)
  | .minusInfinity, .minusInfinity => true
  | .plusInfinity, .plusInfinity => true
  | .symbol x, .symbol y => decide (x = y)
  | .minimum es, .minimum fs => structurallyEqualLists es fs
  | .maximum es, .maximum fs => structurallyEqualLists es fs
  | _, _ => false

def structurallyEqualLists : List Boundary → List Boundary → Bool
  | [], [] => true
  | e :: es, f :: fs => structurallyEqual e f && structurallyEqualLists es fs
  | _, _ => false
end

/-- Source: `Nodecl::Utils::nodecl_is_in_nodecl_list`. -/
def isInList (e : Boundary) (l : List Boundary) : Bool := l.any (structurallyEqual e)

/-- The list with the elements appended that are not in it yet. -/
def appendNew (exprs new : List Boundary) : List Boundary :=
  new.foldl (fun l e => if isInList e l then l else l ++ [e]) exprs

/-- Source: `Range`. The increment is zero in every range that these operations build. -/
structure Range where
  lower : Boundary
  upper : Boundary

/-- The integers of a range. -/
def Range.values (ρ : Nat → Int) (r : Range) : Set Int := interval (r.lower.eval ρ) (r.upper.eval ρ)

/-- The range of all integers. Source: `minus_inf` and `plus_inf` as the boundaries. -/
def Range.unknown : Range := ⟨.minusInfinity, .plusInfinity⟩

/-! ## Expressions over boundaries -/

/-- Source: `Nodecl::Add`, `Nodecl::Minus` and `Nodecl::Div`. -/
inductive Op
  | add
  | minus
  | div
deriving DecidableEq

/-- What the operations on boundaries give: a boundary, or an operation that is left to be computed. -/
inductive Expr
  | boundary (b : Boundary)
  | binary (op : Op) (lhs rhs : Boundary)

/-- Source: `is_constant` and `get_constant`. No operation is given a constant. -/
def Expr.constant : Expr → Option Int
  | .boundary b => b.constant
  | .binary _ _ _ => none

/-- An infinity has no sum, difference or quotient as a right operand, and no quotient as a left one. The
quotient is that of C, and there is none by zero. -/
def Op.eval : Op → ExtInt → ExtInt → Option ExtInt
  | .add, l, ((r : Int) : ExtInt) => some (l + (r : ExtInt))
  | .minus, l, ((r : Int) : ExtInt) => some (l + ((-r : Int) : ExtInt))
  | .div, ((l : Int) : ExtInt), ((r : Int) : ExtInt) =>
    if r = 0 then none else some ((l.tdiv r : Int) : ExtInt)
  | _, _, _ => none

/-- The value of an expression. -/
def Expr.eval (ρ : Nat → Int) : Expr → Option ExtInt
  | .boundary b => some (b.eval ρ)
  | .binary op lhs rhs => op.eval (lhs.eval ρ) (rhs.eval ρ)

/-- Source: `Range`, with boundaries that are expressions. -/
structure ExprRange where
  lower : Expr
  upper : Expr

/-- The integers of the range, none where a boundary has no value. -/
def ExprRange.values (ρ : Nat → Int) (r : ExprRange) : Set Int :=
  {x | ∃ l ∈ r.lower.eval ρ, ∃ u ∈ r.upper.eval ρ, x ∈ interval l u}

/-! ## Least and greatest boundaries -/

/-- Source: `get_max` (`tl-ranges-common.cpp:71`). -/
def getMax : Boundary → Boundary → Boundary
  | .plusInfinity, _ => .plusInfinity
  | _, .plusInfinity => .plusInfinity
  | .minusInfinity, n2 => n2
  | n1, .minusInfinity => n1
  | .const k, .const l => if k < l then .const l else .const k
  | .maximum es, .maximum fs => .maximum (appendNew es fs)
  | .maximum es, n2 => .maximum (appendNew es [n2])
  | n1, .maximum fs => .maximum (appendNew [n1] fs)
  | n1, n2 => .maximum (appendNew [n1] [n2])

/-- Source: `get_min` (`tl-ranges-common.cpp:119`). -/
def getMin : Boundary → Boundary → Boundary
  | .plusInfinity, n2 => n2
  | n1, .plusInfinity => n1
  | .minusInfinity, _ => .minusInfinity
  | _, .minusInfinity => .minusInfinity
  | .const k, .const l => if k ≤ l then .const k else .const l
  | .minimum es, .minimum fs => .minimum (appendNew es fs)
  | .minimum es, n2 => .minimum (appendNew es [n2])
  | n1, .minimum fs => .minimum (appendNew [n1] fs)
  | n1, n2 => .minimum (appendNew [n1] [n2])

/-! ## Values -/

mutual
theorem structurallyEqual_iff : ∀ n1 n2 : Boundary, structurallyEqual n1 n2 = true ↔ n1 = n2
  | .const k, n2 => by cases n2 <;> simp [structurallyEqual]
  | .minusInfinity, n2 => by cases n2 <;> simp [structurallyEqual]
  | .plusInfinity, n2 => by cases n2 <;> simp [structurallyEqual]
  | .symbol x, n2 => by cases n2 <;> simp [structurallyEqual]
  | .minimum es, n2 => by cases n2 <;> simp [structurallyEqual, structurallyEqualLists_iff es]
  | .maximum es, n2 => by cases n2 <;> simp [structurallyEqual, structurallyEqualLists_iff es]

theorem structurallyEqualLists_iff : ∀ es fs : List Boundary, structurallyEqualLists es fs = true ↔ es = fs
  | [], fs => by cases fs <;> simp [structurallyEqualLists]
  | e :: es, fs => by
    cases fs <;> simp [structurallyEqualLists, structurallyEqual_iff e, structurallyEqualLists_iff es]
end

section
variable {ρ : Nat → Int} {b : Boundary} {es : List Boundary} {r : Range} {v : ExtInt} {x k : Int}

theorem isInList_iff {e : Boundary} : isInList e es = true ↔ e ∈ es := by
  simp [isInList, structurallyEqual_iff]

theorem mem_appendNew {e : Boundary} (es fs : List Boundary) : e ∈ appendNew es fs ↔ e ∈ es ∨ e ∈ fs := by
  induction fs generalizing es with
  | nil => simp [appendNew]
  | cons f fs ih =>
    rw [appendNew, List.foldl_cons, ← appendNew, ih, List.mem_cons]
    split
    · next hin =>
      have := isInList_iff.1 hin
      constructor
      · tauto
      · rintro (h | rfl | h)
        exacts [.inl h, .inl this, .inr h]
    · rw [List.mem_append, List.mem_singleton, or_assoc]

theorem le_evalMinimum_iff : v ≤ evalMinimum ρ es ↔ ∀ e ∈ es, v ≤ e.eval ρ := by
  induction es with
  | nil => simp [evalMinimum]
  | cons e es ih => rw [evalMinimum, le_min_iff, ih, List.forall_mem_cons]

theorem evalMaximum_le_iff : evalMaximum ρ es ≤ v ↔ ∀ e ∈ es, e.eval ρ ≤ v := by
  induction es with
  | nil => simp [evalMaximum]
  | cons e es ih => rw [evalMaximum, max_le_iff, ih, List.forall_mem_cons]

/-- The order of the elements, and how often they occur, makes no difference. -/
theorem evalMinimum_appendNew (es fs : List Boundary) :
    evalMinimum ρ (appendNew es fs) = min (evalMinimum ρ es) (evalMinimum ρ fs) := by
  refine eq_of_forall_le_iff fun v => ?_
  rw [le_min_iff, le_evalMinimum_iff, le_evalMinimum_iff, le_evalMinimum_iff]
  simp only [mem_appendNew, or_imp, forall_and]

theorem evalMaximum_appendNew (es fs : List Boundary) :
    evalMaximum ρ (appendNew es fs) = max (evalMaximum ρ es) (evalMaximum ρ fs) := by
  refine eq_of_forall_ge_iff fun v => ?_
  rw [max_le_iff, evalMaximum_le_iff, evalMaximum_le_iff, evalMaximum_le_iff]
  simp only [mem_appendNew, or_imp, forall_and]

@[simp] theorem evalMinimum_singleton : evalMinimum ρ [b] = b.eval ρ := by
  rw [evalMinimum, evalMinimum, min_eq_left le_top]

@[simp] theorem evalMaximum_singleton : evalMaximum ρ [b] = b.eval ρ := by
  rw [evalMaximum, evalMaximum, max_eq_left bot_le]

theorem eval_getMax (n1 n2 : Boundary) : (getMax n1 n2).eval ρ = max (n1.eval ρ) (n2.eval ρ) := by
  unfold getMax
  split
  · exact (max_eq_left le_top).symm
  · exact (max_eq_right le_top).symm
  · exact (max_eq_right bot_le).symm
  · exact (max_eq_left bot_le).symm
  · next k l _ _ =>
    split
    · next hlt => exact (max_eq_right (by simpa [Boundary.eval] using hlt.le)).symm
    · next hge => exact (max_eq_left (by simpa [Boundary.eval] using hge)).symm
  all_goals simp only [Boundary.eval, evalMaximum_appendNew, evalMaximum_singleton]

theorem eval_getMin (n1 n2 : Boundary) : (getMin n1 n2).eval ρ = min (n1.eval ρ) (n2.eval ρ) := by
  unfold getMin
  split
  · exact (min_eq_right le_top).symm
  · exact (min_eq_left le_top).symm
  · exact (min_eq_left bot_le).symm
  · exact (min_eq_right bot_le).symm
  · next k l _ _ =>
    split
    · next hle => exact (min_eq_left (by simpa [Boundary.eval] using hle)).symm
    · next hgt => exact (min_eq_right (by simpa [Boundary.eval] using (not_le.1 hgt).le)).symm
  all_goals simp only [Boundary.eval, evalMinimum_appendNew, evalMinimum_singleton]

/-! ## Boundaries that are constants -/

/-- The boundary is a constant or an infinity. -/
theorem constant_cases (h : b.constant = some k) : b = .const k ∨
    b = .minusInfinity ∧ k = longMin ∨ b = .plusInfinity ∧ k = longMax := by
  cases b with
  | const l => exact .inl (congrArg _ (Option.some.inj h))
  | minusInfinity => exact .inr (.inl ⟨rfl, (Option.some.inj h).symm⟩)
  | plusInfinity => exact .inr (.inr ⟨rfl, (Option.some.inj h).symm⟩)
  | symbol x => cases h
  | minimum es => cases h
  | maximum es => cases h

@[simp] theorem eval_const_le : (Boundary.const k).eval ρ ≤ (x : ExtInt) ↔ k ≤ x := by
  simp [Boundary.eval]

@[simp] theorem le_eval_const : (x : ExtInt) ≤ (Boundary.const k).eval ρ ↔ x ≤ k := by
  simp [Boundary.eval]

end

end OmpSs.Mcxx.Ranges
