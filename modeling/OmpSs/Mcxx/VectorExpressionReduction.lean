import Mathlib.Algebra.Group.Pi.Basic
import Mathlib.Data.Fintype.Pi
import Mathlib.Tactic.Abel

/-!
# Reduction of sums of vectors

The rules of `ExpressionReduction` for `VectorAdd` and `VectorMinus` are a copy of their own
(`mcxx/src/tl/optimizations/tl-expression-reduction.cpp:733`, `:1072`), with fewer rules: no terms are dropped that
two sums share, and a sum or difference of two constants is only folded where the compiler had its value before.

Five rules leave another value. `R6c` builds a sum where a difference is meant, and `R6h` a difference where a
sum is meant; `R6d`, `R6f` and `R6g` turn a difference of a cancelled constant and a term into the term. Each of
them is wrong by twice a term (`value_visitPost`), so the walk is wrong by twice a sum of such terms
(`reduce_lane_iff`).

Masks are left out: the nodes that are built have the mask of the node that they replace.
-/

namespace OmpSs.Mcxx.VectorExpressionReduction

/-! ## Expressions and their values -/

/-- The lanes of a vector. -/
abbrev Vec (n : Nat) : Type := Fin n → Int

inductive Op
  | add
  | minus
deriving DecidableEq

def Op.apply {n : Nat} : Op → Vec n → Vec n → Vec n
  | .add, a, b => a + b
  | .minus, a, b => a - b

/-- The expressions over exact integers. Whether the compiler has computed the value of a node of constants
stands at the node. -/
inductive Expr (n : Nat)
  | const (v : Vec n)
  | var (x : Nat)
  | binary (op : Op) (folded : Bool) (lhs rhs : Expr n)
deriving DecidableEq

section
variable {n : Nat}

/-- The value of a lane is that of the operation on the lanes. -/
def Expr.value (ρ : Nat → Vec n) : Expr n → Vec n
  | .const v => v
  | .var x => ρ x
  | .binary op _ l r => op.apply (l.value ρ) (r.value ρ)

/-- The value of an expression without variables. -/
def Expr.fold : Expr n → Option (Vec n)
  | .const v => some v
  | .var _ => none
  | .binary op _ l r => l.fold.bind fun a => r.fold.map fun b => op.apply a b

/-- Source: `is_constant` and `get_constant`. -/
def Expr.constant : Expr n → Option (Vec n)
  | .const v => some v
  | .var _ => none
  | .binary op folded l r => if folded then (Expr.binary op folded l r).fold else none

def Expr.isBinary : Expr n → Bool
  | .binary _ _ _ _ => true
  | _ => false

/-- The test for two trees that are the same. Constants are compared by their addresses, so that it depends on how
they came about whether two constants of one value are. Source: `structurally_equal_nodecls`
(`tl-nodecl-utils.cpp:766`). -/
structure SameTree (n : Nat) where
  test : Expr n → Expr n → Bool
  eq_of_test : ∀ l r, test l r = true → l = r

/-! ## The rules -/

/-- The constant that a sum or a difference starts with, and the other operand. -/
def Expr.constHead : Expr n → Option (Op × Vec n × Expr n)
  | .binary op _ x t => x.constant.map fun c => (op, c, t)
  | _ => none

/-- The sum of a joined constant and a term, or the term. -/
def addConst (c_value : Vec n) (t : Expr n) : Expr n :=
  if c_value ≠ 0 then .binary .add false (.const c_value) t else t

/-- The difference of a joined constant and a term, or the term. -/
def minusConst (c_value : Vec n) (t : Expr n) : Expr n :=
  if c_value ≠ 0 then .binary .minus false (.const c_value) t else t

/-- Rule `R2`, for a node that is still a sum: a constant on the right goes to the left. -/
def swapConst : Expr n → Expr n
  | .binary .add folded l r =>
    if l.constant = none ∧ r.constant ≠ none then .binary .add false r l else .binary .add folded l r
  | e => e

/-- The rules for a sum up to `R6d`. Source: `visit_post(const Nodecl::VectorAdd&)`
(`tl-expression-reduction.cpp:733`). -/
def reduceAdd (l r : Expr n) : Expr n :=
  if l.constant = some 0 then r
  else if r.constant = some 0 then l
  else match r.constant with
    | some c => swapConst <| match l.constHead with
      | some (.add, b, t) => addConst (b + c) t -- R6a
      | some (.minus, b, t) => addConst (b + c) t -- R6c
      | none => .binary .add false l r
    | none => match l.constant with
      | some b => match r.constHead with
        | some (.add, c, t) => addConst (b + c) t -- R6b
        | some (.minus, c, t) => minusConst (b + c) t -- R6d
        | none => .binary .add false l r
      | none => .binary .add false l r

/-- Rules `R50a` and `R51a`, for a node that is still a sum. -/
def regroupAdd : Expr n → Expr n
  | .binary .add folded (.binary .add folded' x t) r =>
    if x.constant ≠ none then .binary .add folded' x (.binary .add folded t r)
    else .binary .add folded (.binary .add folded' x t) r
  | .binary .add folded (.binary .minus folded' x t) r =>
    if x.constant ≠ none then .binary .minus folded' x (.binary .minus false t r)
    else .binary .add folded (.binary .minus folded' x t) r
  | e => e

/-- The rules for a difference before `R50b`. Source: `visit_post(const Nodecl::VectorMinus&)`
(`tl-expression-reduction.cpp:1072`). -/
def reduceMinus (same : SameTree n) (l r : Expr n) : Expr n := match l.constant with
  | some b => match r.constHead with
    | some (.add, c, t) => minusConst (b - c) t -- R6f
    | some (.minus, c, t) => minusConst (b - c) t -- R6h
    | none => .binary .minus false l r
  | none => match r.constant with
    | some c =>
      if c = 0 then l
      else match l.constHead with
        | some (.add, b, t) => addConst (b - c) t -- R6e
        | some (.minus, b, t) => minusConst (b - c) t -- R6g
        | none => if l.isBinary then .binary .minus false l r else .binary .add false (.const (-c)) l
    | none => if same.test l r then .const 0 else .binary .minus false l r

/-- Rules `R50b` and `R51b`, for a node that is still a difference. -/
def regroupMinus : Expr n → Expr n
  | .binary .minus folded (.binary .minus folded' x t) r =>
    if x.constant ≠ none then .binary .minus folded' x (.binary .add false t r)
    else .binary .minus folded (.binary .minus folded' x t) r
  | .binary .minus folded (.binary .add folded' x t) r =>
    if x.constant ≠ none then .binary .add folded' x (.binary .minus false t r)
    else .binary .minus folded (.binary .add folded' x t) r
  | e => e

/-- The visit of a node without a constant whose operands have been walked. -/
def visitPost (same : SameTree n) : Op → Expr n → Expr n → Expr n
  | .add, l, r => regroupAdd (reduceAdd l r)
  | .minus, l, r => regroupMinus (reduceMinus same l r)

/-- The tree that the visitor leaves in place of another. -/
def reduce (same : SameTree n) : Expr n → Expr n
  | .const v => .const v
  | .var x => .var x
  | .binary op folded l r => match (Expr.binary op folded l r).constant with
    | some c => .const c
    | none => visitPost same op (reduce same l) (reduce same r)

/-! ## The slips -/

/-- Half of what a visit adds to the value of a sum. -/
def slipAdd (ρ : Nat → Vec n) (l r : Expr n) : Vec n :=
  if l.constant = some 0 ∨ r.constant = some 0 then 0
  else match r.constant with
    | some _ => match l.constHead with
      | some (.minus, _, t) => t.value ρ -- R6c
      | _ => 0
    | none => match l.constant with
      | some b => match r.constHead with
        | some (.minus, c, t) => if b + c = 0 then t.value ρ else 0 -- R6d
        | _ => 0
      | none => 0

/-- Half of what a visit adds to the value of a difference. -/
def slipMinus (ρ : Nat → Vec n) (l r : Expr n) : Vec n := match l.constant with
  | some b => match r.constHead with
    | some (.add, c, t) => if b - c = 0 then t.value ρ else 0 -- R6f
    | some (.minus, c, t) => if b - c = 0 then 0 else -t.value ρ -- R6h
    | none => 0
  | none => match r.constant with
    | some c =>
      if c = 0 then 0
      else match l.constHead with
        | some (.minus, b, t) => if b - c = 0 then t.value ρ else 0 -- R6g
        | _ => 0
    | none => 0

def slip (ρ : Nat → Vec n) : Op → Expr n → Expr n → Vec n
  | .add => slipAdd ρ
  | .minus => slipMinus ρ

/-- What the visits of a walk add to the value of the tree, halved: a term of the right operand of a difference
counts with the opposite sign. -/
def slipped (same : SameTree n) (ρ : Nat → Vec n) : Expr n → Vec n
  | .const _ => 0
  | .var _ => 0
  | .binary op folded l r =>
    if (Expr.binary op folded l r).constant = none then
      op.apply (slipped same ρ l) (slipped same ρ r) + slip ρ op (reduce same l) (reduce same r)
    else 0

end

/-! ## Values of what is built -/

section
variable {n : Nat} {ρ : Nat → Vec n} {e l r t : Expr n} {op : Op} {c : Vec n}

theorem value_fold (h : e.fold = some c) : e.value ρ = c := by
  induction e generalizing c with
  | const v => exact Option.some.inj h
  | var x => cases h
  | binary op folded l r ihl ihr =>
    rw [Expr.fold] at h
    obtain ⟨a, ha, h⟩ := Option.bind_eq_some_iff.1 h
    obtain ⟨b, hb, rfl⟩ := Option.map_eq_some_iff.1 h
    rw [Expr.value, ihl ha, ihr hb]

/-- The constant of a node is its value. -/
theorem value_constant (h : e.constant = some c) : e.value ρ = c := by
  cases e with
  | const v => exact Option.some.inj h
  | var x => cases h
  | binary op folded l r => exact value_fold (Option.ite_none_right_eq_some.1 h).2

theorem value_constHead (h : e.constHead = some (op, c, t)) : e.value ρ = op.apply c (t.value ρ) := by
  cases e with
  | const v => cases h
  | var x => cases h
  | binary op folded x t =>
    obtain ⟨c, hc, heq⟩ := Option.map_eq_some_iff.1 h
    cases heq
    rw [Expr.value, value_constant hc]

theorem value_addConst : (addConst c t).value ρ = c + t.value ρ := by
  unfold addConst
  split
  · rfl
  · next hzero => rw [not_not.1 hzero, zero_add]

theorem value_minusConst : (minusConst c t).value ρ = if c = 0 then t.value ρ else c - t.value ρ := by
  rw [minusConst, ite_not]
  split
  · rfl
  · rfl

theorem value_swapConst : (swapConst e).value ρ = e.value ρ := by
  unfold swapConst
  split
  · split
    · exact add_comm _ _
    · rfl
  · rfl

theorem value_regroupAdd : (regroupAdd e).value ρ = e.value ρ := by
  unfold regroupAdd
  split
  · split
    · exact (add_assoc _ _ _).symm
    · rfl
  · split
    · exact (sub_add _ _ _).symm
    · rfl
  · rfl

theorem value_regroupMinus : (regroupMinus e).value ρ = e.value ρ := by
  unfold regroupMinus
  split
  · split
    · exact (sub_sub _ _ _).symm
    · rfl
  · split
    · exact (add_sub_assoc _ _ _).symm
    · rfl
  · rfl

/-! ## One visit -/

theorem value_reduceAdd : (reduceAdd l r).value ρ = l.value ρ + r.value ρ + 2 • slipAdd ρ l r := by
  unfold reduceAdd slipAdd
  split
  · next hl => rw [if_pos (.inl hl), value_constant hl, zero_add, nsmul_zero, add_zero]
  split
  · next hr => rw [if_pos (.inr hr), value_constant hr, add_zero, nsmul_zero, add_zero]
  next hl hr =>
  rw [if_neg (not_or.2 ⟨hl, hr⟩)]
  split
  · next c hc =>
    rw [value_swapConst, value_constant hc]
    split
    · next b t hhead =>
      rw [value_addConst, value_constHead hhead]
      simp only [hhead, Op.apply]
      abel
    · next b t hhead =>
      rw [value_addConst, value_constHead hhead]
      simp only [hhead, Op.apply]
      abel
    · next hhead =>
      simp only [hhead, Expr.value, Op.apply, value_constant hc]
      abel
  · split
    · next b hb =>
      rw [value_constant hb]
      split
      · next c t hhead =>
        rw [value_addConst, value_constHead hhead]
        simp only [hhead, Op.apply]
        abel
      · next c t hhead =>
        rw [value_minusConst, value_constHead hhead]
        simp only [hhead, Op.apply]
        split
        · next hzero =>
          rw [← add_sub_assoc, hzero]
          abel
        · abel
      · next hhead =>
        simp only [hhead, Expr.value, Op.apply, value_constant hb]
        abel
    · simp only [Expr.value, Op.apply]
      abel

theorem value_reduceMinus {same : SameTree n} :
    (reduceMinus same l r).value ρ = l.value ρ - r.value ρ + 2 • slipMinus ρ l r := by
  unfold reduceMinus slipMinus
  split
  · next b hb =>
    rw [value_constant hb]
    split
    · next c t hhead =>
      rw [value_minusConst, value_constHead hhead]
      simp only [Op.apply]
      split
      · next hzero =>
        rw [← sub_sub, hzero]
        abel
      · abel
    · next c t hhead =>
      rw [value_minusConst, value_constHead hhead]
      simp only [Op.apply]
      split
      · next hzero =>
        rw [← sub_add, hzero]
        abel
      · abel
    · simp only [Expr.value, Op.apply, value_constant hb]
      abel
  · split
    · next c hc =>
      rw [value_constant hc]
      split
      · next hzero =>
        rw [hzero]
        abel
      · split
        · next b t hhead =>
          rw [value_addConst, value_constHead hhead]
          simp only [hhead, Op.apply]
          abel
        · next b t hhead =>
          rw [value_minusConst, value_constHead hhead]
          simp only [hhead, Op.apply]
          split
          · next hzero =>
            rw [sub_right_comm, hzero]
            abel
          · abel
        · next hhead =>
          simp only [hhead]
          split
          · simp only [Expr.value, Op.apply, value_constant hc]
            abel
          · simp only [Expr.value, Op.apply]
            abel
    · split
      · next hsame =>
        rw [same.eq_of_test l r hsame, sub_self]
        simp only [Expr.value]
        abel
      · simp only [Expr.value, Op.apply]
        abel

/-- A visit is wrong by twice its slip. -/
theorem value_visitPost {same : SameTree n} :
    (visitPost same op l r).value ρ = op.apply (l.value ρ) (r.value ρ) + 2 • slip ρ op l r := by
  cases op with
  | add => rw [visitPost, value_regroupAdd, value_reduceAdd, Op.apply, slip]
  | minus => rw [visitPost, value_regroupMinus, value_reduceMinus, Op.apply, slip]

/-! ## The walk -/

theorem apply_add_two (op : Op) (a b x y : Vec n) :
    op.apply (a + 2 • x) (b + 2 • y) = op.apply a b + 2 • op.apply x y := by
  cases op with
  | add =>
    simp only [Op.apply]
    abel
  | minus =>
    simp only [Op.apply]
    abel

/-- The walk is wrong by twice what slipped. -/
theorem value_reduce (same : SameTree n) (ρ : Nat → Vec n) (e : Expr n) :
    (reduce same e).value ρ = e.value ρ + 2 • slipped same ρ e := by
  induction e with
  | const v => rw [reduce, slipped, nsmul_zero, add_zero]
  | var x => rw [reduce, slipped, nsmul_zero, add_zero]
  | binary op folded l r ihl ihr =>
    rw [reduce, slipped]
    split
    · next c hc => rw [if_neg (by rw [hc]; nofun), nsmul_zero, add_zero, value_constant hc, Expr.value]
    · next hc =>
      rw [if_pos hc, value_visitPost, ihl, ihr, apply_add_two, Expr.value, nsmul_add, add_assoc]

/-- **A lane is kept** exactly if what slipped in it cancels out. -/
theorem reduce_lane_iff (same : SameTree n) (ρ : Nat → Vec n) (e : Expr n) (i : Fin n) :
    (reduce same e).value ρ i = e.value ρ i ↔ slipped same ρ e i = 0 := by
  rw [value_reduce, Pi.add_apply, Pi.smul_apply, nsmul_eq_mul]
  push_cast
  omega

end

/-- The test that compares constants by value. -/
def sameValue (n : Nat) : SameTree n where
  test l r := decide (l = r)
  eq_of_test _ _ h := of_decide_eq_true h

/-- In `(1 - x) + 1` the difference becomes a sum: `2 + x`. -/
theorem not_reduce_lane :
    let e : Expr 4 := .binary .add false (.binary .minus false (.const fun _ => 1) (.var 0)) (.const fun _ => 1)
    (reduce (sameValue 4) e).value (fun _ _ => 3) 0 = 5 ∧ e.value (fun _ _ => 3) 0 = -1 := by
  decide

end OmpSs.Mcxx.VectorExpressionReduction
