import Mathlib.Algebra.Order.Ring.Int

/-!
# Comparison and product reduction

The rules of the expression reduction (`mcxx/src/tl/optimizations/tl-expression-reduction.cpp`) for the
comparisons `<` and `<=` and for products, over trees whose sums and differences stay as they are. A
comparison with constants in front of its sums gets the joined constant on its left side (`R20a` to `R20d`,
`R21`). A product drops the factors zero and one, takes a constant to its front (`R8`), joins it with the
constant of a nested product (`R9`), and hands the constant of a nested product up (`R50c`).

A rule that moves a node keeps the constant that the node had, which may belong to the old operands. This
does no harm to products, since a product with a constant has become a literal before (`Walked`), and so the
walk keeps the value of every expression (`reduce_keeps_value`).
-/

namespace OmpSs.Mcxx.ComparisonReduction

/-! ## Expressions and their values -/

inductive Op
  | add
  | minus
  | mul
  | lowerThan
  | lowerOrEqualThan
deriving DecidableEq

/-- The expressions over exact integers. A node may have a constant, the value the compiler computed for
it. -/
inductive Expr
  | const (v : Int)
  | var (x : Nat)
  | neg (e : Expr)
  | binary (op : Op) (cv : Option Int) (lhs rhs : Expr)
deriving DecidableEq

/-- The constant of a node. Source: `is_constant` and `get_constant`. -/
def Expr.constant : Expr → Option Int
  | .const v => some v
  | .var _ => none
  | .neg _ => none
  | .binary _ cv _ _ => cv

/-- A comparison is one or zero, as in C. -/
def Op.eval : Op → Int → Int → Int
  | .add, a, b => a + b
  | .minus, a, b => a - b
  | .mul, a, b => a * b
  | .lowerThan, a, b => if a < b then 1 else 0
  | .lowerOrEqualThan, a, b => if a ≤ b then 1 else 0

def Expr.eval (ρ : Nat → Int) : Expr → Int
  | .const v => v
  | .var x => ρ x
  | .neg e => -e.eval ρ
  | .binary op _ l r => op.eval (l.eval ρ) (r.eval ρ)

/-- The constants of the nodes are their values. -/
def Expr.Annotated (ρ : Nat → Int) : Expr → Prop
  | .const _ => True
  | .var _ => True
  | .neg e => e.Annotated ρ
  | .binary op cv l r =>
    l.Annotated ρ ∧ r.Annotated ρ ∧ ∀ c ∈ cv, c = op.eval (l.eval ρ) (r.eval ρ)

/-! ## The rules -/

/-- The constant that a node of the operator `op` starts with, and its other operand. Source: the tests
`lhs_lhs.is_constant()` and `rhs_lhs.is_constant()`. -/
def Expr.constHead (op : Op) : Expr → Option (Int × Expr)
  | .binary op' _ x t => if op' = op then x.constant.map fun c => (c, t) else none
  | _ => none

/-- The rules for a comparison, which differ in the operator only. The calculator that joins two constants
gets them from the literals below them. -/
def reduceComparison (op : Op) (l r : Expr) : Expr :=
  match l.constant, r.constant with
  | _, some c => match l.constHead .add with
    | some (b, t) => .binary op none (.const (b - c)) (.neg t)
    | none => .binary op none l r
  | some b, none => match r.constHead .add with
    | some (c, t) => .binary op none (.const (b - c)) t
    | none => .binary op none l r
  | none, none => match l.constHead .add, r.constHead .add with
    | some (b, t), some (c, u) => .binary op none (.const (b - c)) (.binary .minus none u t)
    | _, _ => .binary op none l r

/-- Source: `visit_post(const Nodecl::LowerOrEqualThan&)` (`tl-expression-reduction.cpp:253`). -/
def reduceLowerOrEqualThan : Expr → Expr → Expr := reduceComparison .lowerOrEqualThan

/-- Source: `visit_post(const Nodecl::LowerThan&)` (`tl-expression-reduction.cpp:317`). -/
def reduceLowerThan : Expr → Expr → Expr := reduceComparison .lowerThan

/-- Rule `R8`: a constant on the right of a product goes to its left. -/
def swapConst : Expr → Expr
  | .binary .mul cv l r =>
    if l.constant = none ∧ r.constant ≠ none then .binary .mul none r l else .binary .mul cv l r
  | e => e

/-- The rules for a product up to `R8`. Source: `visit_post(const Nodecl::Mul&)`
(`tl-expression-reduction.cpp:621`). -/
def reduceMul (l r : Expr) : Expr :=
  if l.constant = some 0 ∨ r.constant = some 0 then .const 0
  else if l.constant = some 1 then r
  else if r.constant = some 1 then l
  else match r.constant with
    | none => .binary .mul none l r
    | some c =>
      if c = 0 then .const 0
      else swapConst <| match l.constant with
        | some b => .const (b * c)
        | none => match l.constHead .mul with
          | some (b, t) => if b = 0 then .const 0 else .binary .mul none (.const (b * c)) t
          | none => .binary .mul none l r

/-- Rule `R50c`, for a node that is still a product. The two products keep their constants. -/
def regroupMul : Expr → Expr
  | .binary .mul cv (.binary .mul lcv x t) r =>
    if x.constant ≠ none then .binary .mul lcv x (.binary .mul cv t r)
    else .binary .mul cv (.binary .mul lcv x t) r
  | e => e

/-- The visit of a node whose operands have been walked. -/
def visitPost (op : Op) (cv : Option Int) (l r : Expr) : Expr := match op with
  | .add => .binary .add cv l r
  | .minus => .binary .minus cv l r
  | .mul => match cv with
    | some c => .const c
    | none => regroupMul (reduceMul l r)
  | .lowerThan => match cv with
    | some c => .const c
    | none => reduceLowerThan l r
  | .lowerOrEqualThan => match cv with
    | some c => .const c
    | none => reduceLowerOrEqualThan l r

/-- The tree that the walk leaves. -/
def reduce : Expr → Expr
  | .const v => .const v
  | .var x => .var x
  | .neg e => .neg (reduce e)
  | .binary op cv l r => visitPost op cv (reduce l) (reduce r)

/-! ## Nodes that keep the value -/

/-- No product has a constant of its own. -/
def Expr.Walked : Expr → Prop
  | .const _ => True
  | .var _ => True
  | .neg e => e.Walked
  | .binary op cv l r => l.Walked ∧ r.Walked ∧ (op = .mul → cv = none)

variable {ρ : Nat → Int} {e l r t : Expr} {op : Op} {cv : Option Int} {b c : Int}

/-- What the walk makes of an expression with the value `v`. -/
structure Kept (ρ : Nat → Int) (v : Int) (e : Expr) : Prop where
  value : e.eval ρ = v
  annotated : e.Annotated ρ
  walked : e.Walked

theorem kept_const (v : Int) : Kept ρ v (.const v) := ⟨rfl, trivial, trivial⟩

theorem Kept.const_of_eq {v : Int} (h : c = v) : Kept ρ v (.const c) := h ▸ kept_const c

theorem Kept.neg {v : Int} (h : Kept ρ v e) : Kept ρ (-v) (.neg e) :=
  ⟨congrArg Neg.neg h.value, h.annotated, h.walked⟩

/-- A new node over two nodes. -/
theorem Kept.binary {v w : Int} (hl : Kept ρ v l) (hr : Kept ρ w r) :
    Kept ρ (op.eval v w) (.binary op none l r) :=
  ⟨by rw [Expr.eval, hl.value, hr.value],
    ⟨hl.annotated, hr.annotated, fun _ h => nomatch h⟩, hl.walked, hr.walked, fun _ => rfl⟩

theorem Kept.mul {v w : Int} (hl : Kept ρ v l) (hr : Kept ρ w r) : Kept ρ (v * w) (.binary .mul none l r) :=
  @Kept.binary ρ l r .mul v w hl hr

/-- The constant of a node is its value. -/
theorem Expr.Annotated.eval_eq (h : e.Annotated ρ) (hc : e.constant = some c) : e.eval ρ = c := by
  cases e with
  | const v => exact Option.some.inj hc
  | var x => cases hc
  | neg e => cases hc
  | binary op cv l r => exact (h.2.2 c hc).symm

/-- A node that starts with a constant has the value of the two operands. -/
theorem Kept.of_constHead {v : Int} (he : Kept ρ v e) (h : e.constHead op = some (c, t)) :
    v = op.eval c (t.eval ρ) ∧ Kept ρ (t.eval ρ) t := by
  unfold Expr.constHead at h
  split at h
  · next op' cv x t' =>
    split at h
    · next hop =>
      obtain ⟨c', hx, hpair⟩ := Option.map_eq_some_iff.1 h
      obtain ⟨rfl, rfl⟩ := Prod.mk.inj hpair
      refine ⟨?_, rfl, he.annotated.2.1, he.walked.2.1⟩
      rw [← he.value, Expr.eval, he.annotated.1.eval_eq hx, hop]
    · cases h
  · cases h

/-! ## One visit -/

/-- An operator that compares by the difference of its operands. -/
def Op.Shifts (op : Op) : Prop := ∀ a b a' b' : Int, a - b = a' - b' → op.eval a b = op.eval a' b'

theorem shifts_lowerThan : Op.Shifts .lowerThan := fun a b a' b' h => by
  simp only [Op.eval]
  exact if_congr (by omega) rfl rfl

theorem shifts_lowerOrEqualThan : Op.Shifts .lowerOrEqualThan := fun a b a' b' h => by
  simp only [Op.eval]
  exact if_congr (by omega) rfl rfl

/-- The rules for a comparison move its difference from one side to the other. -/
theorem kept_reduceComparison {v w : Int} (hop : op.Shifts) (hl : Kept ρ v l) (hr : Kept ρ w r) :
    Kept ρ (op.eval v w) (reduceComparison op l r) := by
  unfold reduceComparison
  split
  · next c hc =>
    have hw : w = c := hr.value.symm.trans (hr.annotated.eval_eq hc)
    split
    · next b t ht =>
      obtain ⟨hv, ht⟩ := hl.of_constHead ht
      have hshift : op.eval v w = op.eval (b - c) (-t.eval ρ) := by
        apply hop
        simp only [hv, hw, Op.eval]
        omega
      rw [hshift]
      exact (kept_const _).binary ht.neg
    · exact hl.binary hr
  · next b hb _ =>
    have hv : v = b := hl.value.symm.trans (hl.annotated.eval_eq hb)
    split
    · next c t ht =>
      obtain ⟨hw, ht⟩ := hr.of_constHead ht
      have hshift : op.eval v w = op.eval (b - c) (t.eval ρ) := by
        apply hop
        simp only [hv, hw, Op.eval]
        omega
      rw [hshift]
      exact (kept_const _).binary ht
    · exact hl.binary hr
  · split
    · next b t c u ht hu =>
      obtain ⟨hv, ht⟩ := hl.of_constHead ht
      obtain ⟨hw, hu⟩ := hr.of_constHead hu
      have hshift : op.eval v w = op.eval (b - c) (Op.eval .minus (u.eval ρ) (t.eval ρ)) := by
        apply hop
        simp only [hv, hw, Op.eval]
        omega
      rw [hshift]
      exact (kept_const _).binary (hu.binary ht)
    · exact hl.binary hr

theorem kept_swapConst {v : Int} (he : Kept ρ v e) : Kept ρ v (swapConst e) := by
  unfold swapConst
  split
  · next cv l r =>
    split
    · have hl : Kept ρ (l.eval ρ) l := ⟨rfl, he.annotated.1, he.walked.1⟩
      have hr : Kept ρ (r.eval ρ) r := ⟨rfl, he.annotated.2.1, he.walked.2.1⟩
      have hcomm : v = r.eval ρ * l.eval ρ := he.value.symm.trans (Int.mul_comm _ _)
      rw [hcomm]
      exact hr.mul hl
    · exact he
  · exact he

theorem kept_reduceMul {v w : Int} (hl : Kept ρ v l) (hr : Kept ρ w r) :
    Kept ρ (v * w) (reduceMul l r) := by
  have hv : ∀ b, l.constant = some b → v = b := fun b hb =>
    hl.value.symm.trans (hl.annotated.eval_eq hb)
  have hw : ∀ c, r.constant = some c → w = c := fun c hc =>
    hr.value.symm.trans (hr.annotated.eval_eq hc)
  unfold reduceMul
  split
  · next hzero =>
    refine .const_of_eq ?_
    rcases hzero with hb | hc
    · rw [hv 0 hb, Int.zero_mul]
    · rw [hw 0 hc, Int.mul_zero]
  split
  · next hone =>
    rw [hv 1 hone, Int.one_mul]
    exact hr
  split
  · next hone =>
    rw [hw 1 hone, Int.mul_one]
    exact hl
  split
  · exact hl.mul hr
  · next c hc =>
    rw [hw c hc]
    split
    · next hzero => exact .const_of_eq (by rw [hzero, Int.mul_zero])
    refine kept_swapConst ?_
    split
    · next b hb => exact .const_of_eq (by rw [hv b hb])
    · split
      · next b t ht =>
        obtain ⟨hv, ht⟩ := hl.of_constHead ht
        have hassoc : v * c = b * c * t.eval ρ := by
          rw [hv, Op.eval, Int.mul_right_comm]
        rw [hassoc]
        split
        · next hzero => exact .const_of_eq (by rw [hzero, Int.zero_mul, Int.zero_mul])
        · exact (kept_const (b * c)).mul ht
      · exact hw c hc ▸ hl.mul hr

/-- The nested product of a walked tree has no constant, so it takes none to its new place. -/
theorem kept_regroupMul {v : Int} (he : Kept ρ v e) : Kept ρ v (regroupMul e) := by
  unfold regroupMul
  split
  · next cv lcv x t r =>
    split
    · obtain ⟨⟨hx, ht, -⟩, hr, -⟩ := he.annotated
      obtain ⟨⟨hx', ht', hlcv⟩, hr', hcv⟩ := he.walked
      obtain rfl := hlcv rfl
      obtain rfl := hcv rfl
      have hassoc : v = x.eval ρ * (t.eval ρ * r.eval ρ) := he.value.symm.trans (Int.mul_assoc _ _ _)
      rw [hassoc]
      exact Kept.mul ⟨rfl, hx, hx'⟩ (Kept.mul ⟨rfl, ht, ht'⟩ ⟨rfl, hr, hr'⟩)
    · exact he
  · exact he

/-- The visit of a node keeps its value. -/
theorem kept_visitPost {v w : Int} (hl : Kept ρ v l) (hr : Kept ρ w r)
    (hcv : ∀ c ∈ cv, c = op.eval v w) : Kept ρ (op.eval v w) (visitPost op cv l r) := by
  have hsame (op' : Op) (hmul : op' ≠ .mul) (hcv : ∀ c ∈ cv, c = op'.eval v w) :
      Kept ρ (op'.eval v w) (.binary op' cv l r) := by
    refine ⟨by rw [Expr.eval, hl.value, hr.value], ⟨hl.annotated, hr.annotated, ?_⟩, hl.walked, hr.walked,
      fun h => absurd h hmul⟩
    rwa [hl.value, hr.value]
  unfold visitPost
  cases op with
  | add => exact hsame .add (fun h => nomatch h) hcv
  | minus => exact hsame .minus (fun h => nomatch h) hcv
  | mul =>
    cases cv with
    | some c => exact .const_of_eq (hcv c rfl)
    | none => exact kept_regroupMul (kept_reduceMul hl hr)
  | lowerThan =>
    cases cv with
    | some c => exact .const_of_eq (hcv c rfl)
    | none => exact kept_reduceComparison shifts_lowerThan hl hr
  | lowerOrEqualThan =>
    cases cv with
    | some c => exact .const_of_eq (hcv c rfl)
    | none => exact kept_reduceComparison shifts_lowerOrEqualThan hl hr

/-! ## The walk -/

theorem kept_reduce (h : e.Annotated ρ) : Kept ρ (e.eval ρ) (reduce e) := by
  induction e with
  | const v => exact kept_const v
  | var x => exact ⟨rfl, trivial, trivial⟩
  | neg e ih => exact (ih h).neg
  | binary op cv l r ihl ihr => exact kept_visitPost (ihl h.1) (ihr h.2.1) h.2.2

/-- **The reduction keeps the value** of every expression whose nodes have no constants but their values,
for every assignment of the variables. -/
theorem reduce_keeps_value (ρ : Nat → Int) (e : Expr) (h : e.Annotated ρ) :
    (reduce e).eval ρ = e.eval ρ := (kept_reduce h).value

/-- The two sides of `3 + x * 2 * 5 < 4 + y` under a product with the folded `1 + 6`. -/
theorem reduce_keeps_value_nested :
    let e : Expr := .binary .mul none
      (.binary .lowerThan none
        (.binary .add none (.const 3)
          (.binary .mul none (.binary .mul none (.var 0) (.const 2)) (.const 5)))
        (.binary .add none (.const 4) (.var 1)))
      (.binary .add (some 7) (.const 1) (.const 6))
    reduce e = .binary .mul none (.binary .add (some 7) (.const 1) (.const 6))
      (.binary .lowerThan none (.const (-1))
        (.binary .minus none (.var 1) (.binary .mul none (.const 10) (.var 0)))) ∧
      (reduce e).eval (fun _ => 9) = e.eval fun _ => 9 :=
  ⟨by decide, reduce_keeps_value (fun _ => 9) _
    ⟨⟨⟨trivial, ⟨⟨trivial, trivial, nofun⟩, trivial, nofun⟩, nofun⟩, ⟨trivial, trivial, nofun⟩, nofun⟩,
      ⟨trivial, trivial, fun _ h => Option.some.inj h ▸ rfl⟩, nofun⟩⟩

end OmpSs.Mcxx.ComparisonReduction
