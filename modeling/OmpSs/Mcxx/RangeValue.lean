import Mathlib.Tactic.Ring
import OmpSs.Mcxx.Ranges

/-!
# Ranges scaled by a value

`range_value_mul` and `range_value_div` (`tl-ranges-common.cpp:1338`) over exact integers: a boundary that is
infinite stays, one that is a constant is computed if the value is one too, and of any other the operation is
built, for a product a quotient. A negative value does not exchange the boundaries
(`rangeValueMul_bounds_iff`). The constants of the compiler are those of `Mcxx.FoldedValue`.
-/

namespace OmpSs.Mcxx.Ranges

open Lib

/-! ## The operations -/

/-- What the operations do with a boundary: `fold` is the operation on constants, `op` the one that is built. -/
def boundaryValue (fold : Int → Int → Int) (op : Op) (b v : Boundary) : Expr := match b with
  | .minusInfinity => .boundary b
  | .plusInfinity => .boundary b
  | b => match b.constant, v.constant with
    | some k, some w => .boundary (.const (fold k w))
    | _, _ => .binary op b v

/-- Where a constant is not computed a division is built. Source: `range_value_mul`
(`tl-ranges-common.cpp:1338`). -/
def rangeValueMul (r : Range) (v : Boundary) : ExprRange :=
  ⟨boundaryValue (· * ·) .div r.lower v, boundaryValue (· * ·) .div r.upper v⟩

/-- Source: `range_value_div` (`tl-ranges-common.cpp:1369`). -/
def rangeValueDiv (r : Range) (v : Boundary) : ExprRange :=
  ⟨boundaryValue Int.tdiv .div r.lower v, boundaryValue Int.tdiv .div r.upper v⟩

/-- The boundary is a minimum or a maximum. -/
def Boundary.IsExtremum : Boundary → Prop
  | .minimum _ => True
  | .maximum _ => True
  | _ => False

/-! ## Shifted intervals -/

section
variable {ρ : Nat → Int} {b v n : Boundary} {r : Range} {e : ExprRange} {w x k : Int} {L U : ExtInt}

/-- The constant of a value is the value. -/
theorem constant_eq_of_eval (hv : v.eval ρ = (w : ExtInt)) (hk : v.constant = some k) : k = w := by
  rcases constant_cases hk with rfl | ⟨rfl, -⟩ | ⟨rfl, -⟩
  · simpa [Boundary.eval] using hv
  · exact absurd hv (by simp [Boundary.eval])
  · exact absurd hv (by simp [Boundary.eval])

theorem mem_values_iff (hl : e.lower.eval ρ = some L) (hu : e.upper.eval ρ = some U) :
    x ∈ e.values ρ ↔ x ∈ interval L U := by
  constructor
  · rintro ⟨l, hl', u, hu', hx⟩
    obtain rfl := Option.some.inj (hl.symm.trans hl')
    obtain rfl := Option.some.inj (hu.symm.trans hu')
    exact hx
  · exact fun hx => ⟨L, hl, U, hu, hx⟩

/-- The values of a range moved. -/
theorem add_mem_interval (hx : x ∈ interval L U) (w : Int) :
    x + w ∈ interval (L + (w : ExtInt)) (U + (w : ExtInt)) :=
  ⟨by exact_mod_cast add_le_add_left hx.1 (w : ExtInt), by exact_mod_cast add_le_add_left hx.2 (w : ExtInt)⟩

/-- A lower bound that is not moved. -/
theorem forall_le_add_iff (h : (interval L U).Nonempty) :
    (∀ x ∈ interval L U, L ≤ ((x + w : Int) : ExtInt)) ↔ L = ⊥ ∨ 0 ≤ w := by
  constructor
  · intro hle
    rcases lower_cases h with rfl | ⟨l, rfl, hl⟩
    · exact .inl rfl
    · have : l ≤ l + w := by exact_mod_cast hle l hl
      exact .inr (by omega)
  · rintro (rfl | hw) x hx
    · exact bot_le
    · exact hx.1.trans (by exact_mod_cast (by omega : x ≤ x + w))

theorem forall_add_le_iff (h : (interval L U).Nonempty) :
    (∀ x ∈ interval L U, ((x + w : Int) : ExtInt) ≤ U) ↔ U = ⊤ ∨ w ≤ 0 := by
  constructor
  · intro hle
    rcases upper_cases h with rfl | ⟨u, rfl, hu⟩
    · exact .inl rfl
    · have : u + w ≤ u := by exact_mod_cast hle u hu
      exact .inr (by omega)
  · rintro (rfl | hw) x hx
    · exact le_top
    · exact le_trans (by exact_mod_cast (by omega : x + w ≤ x)) hx.2

/-! ## Products -/

/-- What is computed for a lower boundary bounds the products: it is infinite, or the boundary and the value
are constants and the value is not negative or the range has one value, or a quotient that is no more than
the least product. -/
def LowerScaled (folded : Prop) (w : Int) (L U : ExtInt) : Prop :=
  L = ⊥ ∨ (folded ∧ (0 ≤ w ∨ L = U)) ∨ (¬ folded ∧ ((0 < w ∧ (w = 1 ∨ 0 ≤ L)) ∨
    (w < 0 ∧ ∃ l u : Int, L = (l : ExtInt) ∧ U = (u : ExtInt) ∧
      ((u ≤ 0 ∧ u * w * w + w < l) ∨ (w = -1 ∧ l = u)))))

/-- The same for an upper boundary. -/
def UpperScaled (folded : Prop) (w : Int) (L U : ExtInt) : Prop :=
  U = ⊤ ∨ (folded ∧ (0 ≤ w ∨ L = U)) ∨ (¬ folded ∧ ((0 < w ∧ (w = 1 ∨ U ≤ 0)) ∨
    (w < 0 ∧ ∃ l u : Int, L = (l : ExtInt) ∧ U = (u : ExtInt) ∧
      ((0 ≤ l ∧ u < l * w * w - w) ∨ (w = -1 ∧ l = u)))))

/-- The operation on the boundary and the value is computed. -/
def Folded (b v : Boundary) : Prop := b.constant.isSome = true ∧ v.constant.isSome = true

/-- The quotient of a boundary and the products of a range by a negative value. -/
theorem tdiv_le_mul_iff {l u : Int} (hle : l ≤ u) (hw : w < 0) :
    l.tdiv w ≤ u * w ↔ (u ≤ 0 ∧ u * w * w + w < l) ∨ (w = -1 ∧ l = u) := by
  obtain ⟨p, rfl⟩ : ∃ p, w = -p := ⟨-w, by ring⟩
  have hp : 0 < p := by omega
  have hsquare : u * -p * -p = u * p * p := by ring
  rw [Int.tdiv_neg, mul_neg, neg_le_neg_iff, ← mul_neg, hsquare]
  rcases le_or_gt 0 l with hl | hl
  · rw [Int.tdiv_eq_ediv_of_nonneg hl, Int.le_ediv_iff_mul_le hp]
    constructor
    · intro hmul
      rcases le_or_gt u 0 with hu | hu
      · obtain rfl : u = 0 := by omega
        exact .inl ⟨le_rfl, by omega⟩
      · have hone : p < 2 := by
          by_contra htwo
          nlinarith [mul_pos hu hp]
        obtain rfl : p = 1 := by omega
        exact .inr ⟨rfl, by omega⟩
    · rintro (⟨hu, -⟩ | ⟨hp1, rfl⟩)
      · obtain rfl : u = 0 := by omega
        omega
      · obtain rfl : p = 1 := by omega
        omega
  · have hneg : l.tdiv p = -(-l / p) := by
      rw [← Int.tdiv_eq_ediv_of_nonneg (by omega), Int.neg_tdiv, neg_neg]
    have hmul : (-(u * p) + 1) * p = -(u * p * p) + p := by ring
    rw [hneg, le_neg, ← Int.lt_add_one_iff, Int.ediv_lt_iff_lt_mul hp, hmul]
    constructor
    · intro hlt
      refine .inl ⟨?_, by omega⟩
      by_contra hu
      nlinarith [mul_pos (not_le.1 hu) hp]
    · rintro (⟨-, hlt⟩ | ⟨hp1, rfl⟩)
      · omega
      · obtain rfl : p = 1 := by omega
        omega

theorem mul_le_tdiv_iff {l u : Int} (hle : l ≤ u) (hw : w < 0) :
    l * w ≤ u.tdiv w ↔ (0 ≤ l ∧ u < l * w * w - w) ∨ (w = -1 ∧ l = u) := by
  have h := tdiv_le_mul_iff (neg_le_neg hle) hw
  rw [Int.neg_tdiv, neg_mul, neg_le_neg_iff, neg_mul] at h
  rw [h]
  omega

/-- The quotient of a boundary and the products by a positive value. -/
theorem tdiv_le_mul_iff_of_pos {l : Int} (hw : 0 < w) : l.tdiv w ≤ l * w ↔ w = 1 ∨ 0 ≤ l := by
  rcases le_or_gt 0 l with hl | hl
  · refine iff_of_true ?_ (.inr hl)
    have := Int.tdiv_le_self w hl
    nlinarith
  · rw [or_iff_left (by omega)]
    constructor
    · intro hle
      have : l ≤ l.tdiv w := by
        rw [← neg_le_neg_iff, ← Int.neg_tdiv]
        exact Int.tdiv_le_self w (by omega)
      by_contra hne
      nlinarith [mul_lt_mul_of_neg_left (by omega : 1 < w) hl]
    · rintro rfl
      simp

theorem mul_le_tdiv_iff_of_pos {u : Int} (hw : 0 < w) : u * w ≤ u.tdiv w ↔ w = 1 ∨ u ≤ 0 := by
  have h := tdiv_le_mul_iff_of_pos (l := -u) hw
  rw [Int.neg_tdiv, neg_mul, neg_le_neg_iff] at h
  rw [h]
  omega

/-- The products bounded from below. -/
theorem forall_le_mul_iff {l : Int} (h : (interval l U).Nonempty) :
    (∀ x ∈ interval l U, k ≤ x * w) ↔
      (0 ≤ w ∧ k ≤ l * w) ∨ (w < 0 ∧ ∃ u : Int, U = (u : ExtInt) ∧ k ≤ u * w) := by
  have hl : l ∈ interval l U := by
    obtain ⟨x, hx, hx'⟩ := h
    exact ⟨le_rfl, hx.trans hx'⟩
  constructor
  · intro hle
    rcases le_or_gt 0 w with hw | hw
    · exact .inl ⟨hw, hle l hl⟩
    · rcases upper_cases h with rfl | ⟨u, rfl, hu⟩
      · obtain ⟨x, hx, hlt⟩ := exists_lt_mem h k.natAbs
        have := hle x hx
        nlinarith [neg_abs_le k, Int.natCast_natAbs k]
      · exact .inr ⟨hw, u, rfl, hle u hu⟩
  · rintro (⟨hw, hle⟩ | ⟨hw, u, rfl, hle⟩) x hx
    · have : l ≤ x := by exact_mod_cast hx.1
      exact hle.trans (mul_le_mul_of_nonneg_right this hw)
    · have : x ≤ u := by exact_mod_cast hx.2
      exact hle.trans (mul_le_mul_of_nonpos_right this hw.le)

/-- The products bounded from above. -/
theorem forall_mul_le_iff {u : Int} (h : (interval L u).Nonempty) :
    (∀ x ∈ interval L u, x * w ≤ k) ↔
      (0 ≤ w ∧ u * w ≤ k) ∨ (w < 0 ∧ ∃ l : Int, L = (l : ExtInt) ∧ l * w ≤ k) := by
  have hu : u ∈ interval L u := by
    obtain ⟨x, hx, hx'⟩ := h
    exact ⟨hx.trans hx', le_rfl⟩
  constructor
  · intro hle
    rcases le_or_gt 0 w with hw | hw
    · exact .inl ⟨hw, hle u hu⟩
    · rcases lower_cases h with rfl | ⟨l, rfl, hl⟩
      · obtain ⟨x, hx, hlt⟩ := exists_mem_lt h (-k.natAbs)
        have := hle x hx
        nlinarith [le_abs_self k, Int.natCast_natAbs k]
      · exact .inr ⟨hw, l, rfl, hle l hl⟩
  · rintro (⟨hw, hle⟩ | ⟨hw, l, rfl, hle⟩) x hx
    · have : x ≤ u := by exact_mod_cast hx.2
      exact (mul_le_mul_of_nonneg_right this hw).trans hle
    · have : l ≤ x := by exact_mod_cast hx.1
      exact (mul_le_mul_of_nonpos_right this hw.le).trans hle

theorem boundaryValue_const {fold : Int → Int → Int} {op : Op} (k : Int) (v : Boundary) :
    boundaryValue fold op (.const k) v = match v.constant with
      | some w => .boundary (.const (fold k w))
      | none => .binary op (.const k) v := by
  cases v <;> rfl

/-- What is computed for a boundary with a value. -/
theorem eval_boundaryValue (fold : Int → Int → Int) (op : Op) {l : Int} (h : ¬ b.IsExtremum)
    (hb : b.eval ρ = (l : ExtInt)) (hv : v.eval ρ = (w : ExtInt)) :
    (Folded b v ∧ (boundaryValue fold op b v).eval ρ = some ((fold l w : Int) : ExtInt)) ∨
      (¬ Folded b v ∧ (boundaryValue fold op b v).eval ρ = op.eval (l : ExtInt) (w : ExtInt)) := by
  have hbinary : (Expr.binary op b v).eval ρ = op.eval (l : ExtInt) (w : ExtInt) := by
    simp only [Expr.eval, hb, hv]
  cases b with
  | const k =>
    obtain rfl : k = l := constant_eq_of_eval hb rfl
    cases hconst : v.constant with
    | none =>
      refine .inr ⟨fun hfolded => by simp [Folded, hconst] at hfolded, ?_⟩
      rw [boundaryValue_const, hconst]
      exact hbinary
    | some w' =>
      obtain rfl := constant_eq_of_eval hv hconst
      refine .inl ⟨⟨rfl, by simp [hconst]⟩, ?_⟩
      rw [boundaryValue_const, hconst]
      rfl
  | symbol y => exact .inr ⟨fun hfolded => absurd hfolded.1 (by simp [Boundary.constant]), hbinary⟩
  | minusInfinity => exact absurd hb (by simp [Boundary.eval])
  | plusInfinity => exact absurd hb (by simp [Boundary.eval])
  | minimum exprs => exact absurd trivial h
  | maximum exprs => exact absurd trivial h

/-- Only the infinities themselves have an infinite value. -/
theorem infinite_of_eval (h : ¬ b.IsExtremum) :
    (b.eval ρ = ⊥ → b = .minusInfinity) ∧ (b.eval ρ = ⊤ → b = .plusInfinity) := by
  cases b with
  | minusInfinity => exact ⟨fun _ => rfl, fun hb => absurd hb (by simp [Boundary.eval])⟩
  | plusInfinity => exact ⟨fun hb => absurd hb (by simp [Boundary.eval]), fun _ => rfl⟩
  | const k => constructor <;> intro hb <;> exact absurd hb (by simp [Boundary.eval])
  | symbol y => constructor <;> intro hb <;> exact absurd hb (by simp [Boundary.eval])
  | minimum exprs => exact absurd trivial h
  | maximum exprs => exact absurd trivial h

theorem op_eval_div {l : Int} : Op.eval .div (l : ExtInt) (w : ExtInt) =
    if w = 0 then none else some ((l.tdiv w : Int) : ExtInt) := rfl

/-- An expression with a value that is known. -/
theorem exists_eval_iff {f : Expr} {P : ExtInt → Prop} (h : f.eval ρ = some L) :
    (∃ l, f.eval ρ = some l ∧ P l) ↔ P L := by
  rw [h]
  constructor
  · rintro ⟨l, ⟨rfl⟩, hl⟩
    exact hl
  · exact fun hL => ⟨L, rfl, hL⟩

/-- The lower boundary of the product. -/
theorem rangeValueMul_lower (h : (r.values ρ).Nonempty) (hb : ¬ r.lower.IsExtremum)
    (hv : v.eval ρ = (w : ExtInt)) :
    (∃ l, (boundaryValue (· * ·) .div r.lower v).eval ρ = some l ∧
        ∀ x ∈ r.values ρ, l ≤ ((x * w : Int) : ExtInt)) ↔
      LowerScaled (Folded r.lower v) w (r.lower.eval ρ) (r.upper.eval ρ) := by
  have hle : r.lower.eval ρ ≤ r.upper.eval ρ := by
    obtain ⟨x, hx, hx'⟩ := h
    exact hx.trans hx'
  unfold LowerScaled
  rcases lower_cases h with hbot | ⟨l, hl, -⟩
  · refine iff_of_true ⟨⊥, ?_, fun _ _ => bot_le⟩ (.inl hbot)
    rw [(infinite_of_eval hb).1 hbot]
    rfl
  have hbounds (k : Int) : (∀ x ∈ r.values ρ, (k : ExtInt) ≤ ((x * w : Int) : ExtInt)) ↔
      (0 ≤ w ∧ k ≤ l * w) ∨ (w < 0 ∧ ∃ u : Int, r.upper.eval ρ = (u : ExtInt) ∧ k ≤ u * w) := by
    unfold Range.values at h ⊢
    rw [hl] at h ⊢
    rw [← forall_le_mul_iff h]
    simp only [WithBotTop.coe_le_coe]
  rw [hl] at hle ⊢
  rw [or_iff_right (by simp)]
  rcases eval_boundaryValue (· * ·) .div hb hl hv with ⟨hfolded, heval⟩ | ⟨hfolded, heval⟩
  · rw [exists_eval_iff heval, hbounds]
    simp only [hfolded, true_and, not_true_eq_false, false_and, or_false]
    constructor
    · rintro (⟨hw, -⟩ | ⟨hw, u, hu, hmul⟩)
      · exact .inl hw
      · rw [hu] at hle ⊢
        have : l ≤ u := by exact_mod_cast hle
        have : u ≤ l := by nlinarith
        exact .inr (by rw [le_antisymm ‹l ≤ u› this])
    · rintro (hw | heq)
      · exact .inl ⟨hw, le_rfl⟩
      · rcases le_or_gt 0 w with hw | hw
        · exact .inl ⟨hw, le_rfl⟩
        · exact .inr ⟨hw, l, heq.symm, le_rfl⟩
  · rw [op_eval_div] at heval
    simp only [hfolded, false_and, not_false_eq_true, true_and, false_or]
    split at heval
    · next hzero =>
      refine iff_of_false ?_ (by omega)
      rintro ⟨_, heval', -⟩
      cases heval.symm.trans heval'
    · next hzero =>
      rw [exists_eval_iff heval, hbounds]
      refine or_congr ?_ (and_congr_right fun hw => ?_)
      · constructor
        · rintro ⟨hw, hmul⟩
          have hw : 0 < w := by omega
          exact ⟨hw, (tdiv_le_mul_iff_of_pos hw).1 hmul |>.imp_right fun hl => by exact_mod_cast hl⟩
        · rintro ⟨hw, hl⟩
          exact ⟨hw.le, (tdiv_le_mul_iff_of_pos hw).2 (hl.imp_right fun hl => by exact_mod_cast hl)⟩
      · constructor
        · rintro ⟨u, hu, hmul⟩
          rw [hu] at hle
          exact ⟨l, u, rfl, hu, (tdiv_le_mul_iff (by exact_mod_cast hle) hw).1 hmul⟩
        · rintro ⟨l', u, hl', hu, hcond⟩
          obtain rfl : l = l' := by exact_mod_cast hl'
          rw [hu] at hle
          exact ⟨u, hu, (tdiv_le_mul_iff (by exact_mod_cast hle) hw).2 hcond⟩

/-- The upper boundary of the product. -/
theorem rangeValueMul_upper (h : (r.values ρ).Nonempty) (hb : ¬ r.upper.IsExtremum)
    (hv : v.eval ρ = (w : ExtInt)) :
    (∃ u, (boundaryValue (· * ·) .div r.upper v).eval ρ = some u ∧
        ∀ x ∈ r.values ρ, ((x * w : Int) : ExtInt) ≤ u) ↔
      UpperScaled (Folded r.upper v) w (r.lower.eval ρ) (r.upper.eval ρ) := by
  have hle : r.lower.eval ρ ≤ r.upper.eval ρ := by
    obtain ⟨x, hx, hx'⟩ := h
    exact hx.trans hx'
  unfold UpperScaled
  rcases upper_cases h with htop | ⟨u, hu, -⟩
  · refine iff_of_true ⟨⊤, ?_, fun _ _ => le_top⟩ (.inl htop)
    rw [(infinite_of_eval hb).2 htop]
    rfl
  have hbounds (k : Int) : (∀ x ∈ r.values ρ, ((x * w : Int) : ExtInt) ≤ (k : ExtInt)) ↔
      (0 ≤ w ∧ u * w ≤ k) ∨ (w < 0 ∧ ∃ l : Int, r.lower.eval ρ = (l : ExtInt) ∧ l * w ≤ k) := by
    unfold Range.values at h ⊢
    rw [hu] at h ⊢
    rw [← forall_mul_le_iff h]
    simp only [WithBotTop.coe_le_coe]
  rw [hu] at hle ⊢
  rw [or_iff_right (by simp)]
  rcases eval_boundaryValue (· * ·) .div hb hu hv with ⟨hfolded, heval⟩ | ⟨hfolded, heval⟩
  · rw [exists_eval_iff heval, hbounds]
    simp only [hfolded, true_and, not_true_eq_false, false_and, or_false]
    constructor
    · rintro (⟨hw, -⟩ | ⟨hw, l, hl, hmul⟩)
      · exact .inl hw
      · rw [hl] at hle ⊢
        have : l ≤ u := by exact_mod_cast hle
        have : u ≤ l := by nlinarith
        exact .inr (by rw [le_antisymm ‹l ≤ u› this])
    · rintro (hw | heq)
      · exact .inl ⟨hw, le_rfl⟩
      · rcases le_or_gt 0 w with hw | hw
        · exact .inl ⟨hw, le_rfl⟩
        · exact .inr ⟨hw, u, heq, le_rfl⟩
  · rw [op_eval_div] at heval
    simp only [hfolded, false_and, not_false_eq_true, true_and, false_or]
    split at heval
    · next hzero =>
      refine iff_of_false ?_ (by omega)
      rintro ⟨_, heval', -⟩
      cases heval.symm.trans heval'
    · next hzero =>
      rw [exists_eval_iff heval, hbounds]
      refine or_congr ?_ (and_congr_right fun hw => ?_)
      · constructor
        · rintro ⟨hw, hmul⟩
          have hw : 0 < w := by omega
          exact ⟨hw, (mul_le_tdiv_iff_of_pos hw).1 hmul |>.imp_right fun hu => by exact_mod_cast hu⟩
        · rintro ⟨hw, hu⟩
          exact ⟨hw.le, (mul_le_tdiv_iff_of_pos hw).2 (hu.imp_right fun hu => by exact_mod_cast hu)⟩
      · constructor
        · rintro ⟨l, hl, hmul⟩
          rw [hl] at hle
          exact ⟨l, u, hl, rfl, (mul_le_tdiv_iff (by exact_mod_cast hle) hw).1 hmul⟩
        · rintro ⟨l, u', hl, hu', hcond⟩
          obtain rfl : u = u' := by exact_mod_cast hu'
          rw [hl] at hle
          exact ⟨l, hl, (mul_le_tdiv_iff (by exact_mod_cast hle) hw).2 hcond⟩

/-! ## Quotients -/

/-- What is computed for a boundary of a quotient: an infinity stays. -/
theorem eval_rangeValueDiv_boundary (hb : ¬ b.IsExtremum) (hv : v.eval ρ = (w : ExtInt)) (hw : w ≠ 0) :
    (b.eval ρ = ⊥ ∧ (boundaryValue Int.tdiv .div b v).eval ρ = some ⊥) ∨
      (b.eval ρ = ⊤ ∧ (boundaryValue Int.tdiv .div b v).eval ρ = some ⊤) ∨
      ∃ k : Int, b.eval ρ = (k : ExtInt) ∧
        (boundaryValue Int.tdiv .div b v).eval ρ = some ((k.tdiv w : Int) : ExtInt) := by
  rcases extInt_cases (b.eval ρ) with hbot | htop | ⟨k, hk⟩
  · refine .inl ⟨hbot, ?_⟩
    rw [(infinite_of_eval hb).1 hbot]
    rfl
  · refine .inr (.inl ⟨htop, ?_⟩)
    rw [(infinite_of_eval hb).2 htop]
    rfl
  · refine .inr (.inr ⟨k, hk, ?_⟩)
    rcases eval_boundaryValue Int.tdiv .div hb hk hv with ⟨-, heval⟩ | ⟨-, heval⟩
    · exact heval
    · rw [heval, op_eval_div, if_neg hw]

theorem tdiv_antitone {l u : Int} (hle : l ≤ u) (hw : w < 0) : u.tdiv w ≤ l.tdiv w := by
  have h := Int.tdiv_le_tdiv (by omega : 0 < -w) hle
  rw [Int.tdiv_neg, Int.tdiv_neg] at h
  omega

theorem abs_tdiv_le (k w : Int) : |k.tdiv w| ≤ |k| := by
  rw [Int.abs_eq_natAbs, Int.abs_eq_natAbs, Int.natAbs_tdiv]
  exact_mod_cast Nat.div_le_self _ _

/-- The quotients by a negative value are in the interval of the quotients of the bounds if all are one, or if
the interval has no bounds. -/
theorem forall_tdiv_mem_iff {L' U' : ExtInt} (h : (interval L U).Nonempty) (hw : w < 0)
    (hL : (L = ⊥ ∧ L' = ⊥) ∨ ∃ l : Int, L = (l : ExtInt) ∧ L' = ((l.tdiv w : Int) : ExtInt))
    (hU : (U = ⊤ ∧ U' = ⊤) ∨ ∃ u : Int, U = (u : ExtInt) ∧ U' = ((u.tdiv w : Int) : ExtInt)) :
    (∀ x ∈ interval L U, x.tdiv w ∈ interval L' U') ↔
      (L = ⊥ ∧ U = ⊤) ∨ ∃ l u : Int, L = (l : ExtInt) ∧ U = (u : ExtInt) ∧ l.tdiv w = u.tdiv w := by
  -- a multiple of the value that is further out than the bound and its quotient
  have hmul (k : Int) : (w * k).tdiv w = k := Int.mul_tdiv_cancel_left k hw.ne
  rcases hL with ⟨rfl, rfl⟩ | ⟨l, rfl, rfl⟩ <;> rcases hU with ⟨rfl, rfl⟩ | ⟨u, rfl, rfl⟩
  · exact iff_of_true (fun _ _ => ⟨bot_le, le_top⟩) (.inl ⟨rfl, rfl⟩)
  · refine iff_of_false (fun hsound => ?_) (by simp)
    have hmem : w * (|u| + 1) ∈ interval ⊥ (u : ExtInt) := by
      refine ⟨bot_le, ?_⟩
      exact_mod_cast (by nlinarith [neg_abs_le u, abs_nonneg u] : w * (|u| + 1) ≤ u)
    have hle : |u| + 1 ≤ u.tdiv w := by
      rw [← hmul (|u| + 1)]
      exact_mod_cast (hsound _ hmem).2
    have := abs_tdiv_le u w
    have := le_abs_self (u.tdiv w)
    omega
  · refine iff_of_false (fun hsound => ?_) (by simp)
    have hmem : w * (-(|l| + 1)) ∈ interval (l : ExtInt) ⊤ := by
      refine ⟨?_, le_top⟩
      exact_mod_cast (by nlinarith [le_abs_self l, abs_nonneg l] : l ≤ w * (-(|l| + 1)))
    have hle : l.tdiv w ≤ -(|l| + 1) := by
      rw [← hmul (-(|l| + 1))]
      exact_mod_cast (hsound _ hmem).1
    have := abs_tdiv_le l w
    have := neg_abs_le (l.tdiv w)
    omega
  · have hle : l ≤ u := by
      obtain ⟨x, hx, hx'⟩ := h
      exact_mod_cast hx.trans hx'
    constructor
    · intro hsound
      have hquot : l.tdiv w ≤ u.tdiv w := by
        exact_mod_cast (hsound l ⟨le_rfl, by exact_mod_cast hle⟩).2
      exact .inr ⟨l, u, rfl, rfl, le_antisymm hquot (tdiv_antitone hle hw)⟩
    · rintro (⟨hbot, -⟩ | ⟨l', u', hl', hu', heq⟩) x hx
      · exact absurd hbot (by simp)
      · obtain rfl : l = l' := by exact_mod_cast hl'
        obtain rfl : u = u' := by exact_mod_cast hu'
        have hlower := tdiv_antitone (by exact_mod_cast hx.1 : l ≤ x) hw
        have hupper := tdiv_antitone (by exact_mod_cast hx.2 : x ≤ u) hw
        exact ⟨by exact_mod_cast heq ▸ hupper, by exact_mod_cast heq ▸ hlower⟩

/-- The quotients by a positive value are between those of the bounds. -/
theorem tdiv_mem_interval {L' U' : ExtInt} (hw : 0 < w)
    (hL : (L = ⊥ ∧ L' = ⊥) ∨ ∃ l : Int, L = (l : ExtInt) ∧ L' = ((l.tdiv w : Int) : ExtInt))
    (hU : (U = ⊤ ∧ U' = ⊤) ∨ ∃ u : Int, U = (u : ExtInt) ∧ U' = ((u.tdiv w : Int) : ExtInt))
    (hx : x ∈ interval L U) : x.tdiv w ∈ interval L' U' := by
  constructor
  · rcases hL with ⟨rfl, rfl⟩ | ⟨l, rfl, rfl⟩
    · exact bot_le
    · exact_mod_cast Int.tdiv_le_tdiv hw (by exact_mod_cast hx.1 : l ≤ x)
  · rcases hU with ⟨rfl, rfl⟩ | ⟨u, rfl, rfl⟩
    · exact le_top
    · exact_mod_cast Int.tdiv_le_tdiv hw (by exact_mod_cast hx.2 : x ≤ u)

/-- The boundaries of the quotient. -/
theorem rangeValueDiv_sound_iff (h : (r.values ρ).Nonempty) (hl : ¬ r.lower.IsExtremum)
    (hu : ¬ r.upper.IsExtremum) (hv : v.eval ρ = (w : ExtInt)) (hw : w ≠ 0) :
    (∀ x ∈ r.values ρ, x.tdiv w ∈ (rangeValueDiv r v).values ρ) ↔ 0 < w ∨
      (r.lower.eval ρ = ⊥ ∧ r.upper.eval ρ = ⊤) ∨
      ∃ l u : Int, r.lower.eval ρ = (l : ExtInt) ∧ r.upper.eval ρ = (u : ExtInt) ∧ l.tdiv w = u.tdiv w := by
  obtain ⟨L', hL', hL⟩ : ∃ L', (rangeValueDiv r v).lower.eval ρ = some L' ∧
      ((r.lower.eval ρ = ⊥ ∧ L' = ⊥) ∨
        ∃ l : Int, r.lower.eval ρ = (l : ExtInt) ∧ L' = ((l.tdiv w : Int) : ExtInt)) := by
    rcases eval_rangeValueDiv_boundary hl hv hw with ⟨hbot, heval⟩ | ⟨htop, -⟩ | ⟨k, hk, heval⟩
    · exact ⟨⊥, heval, .inl ⟨hbot, rfl⟩⟩
    · rcases lower_cases h with hbot | ⟨k, hk, -⟩
      · exact absurd (hbot.symm.trans htop) (by simp)
      · exact absurd (hk.symm.trans htop) (by simp)
    · exact ⟨_, heval, .inr ⟨k, hk, rfl⟩⟩
  obtain ⟨U', hU', hU⟩ : ∃ U', (rangeValueDiv r v).upper.eval ρ = some U' ∧
      ((r.upper.eval ρ = ⊤ ∧ U' = ⊤) ∨
        ∃ u : Int, r.upper.eval ρ = (u : ExtInt) ∧ U' = ((u.tdiv w : Int) : ExtInt)) := by
    rcases eval_rangeValueDiv_boundary hu hv hw with ⟨hbot, -⟩ | ⟨htop, heval⟩ | ⟨k, hk, heval⟩
    · rcases upper_cases h with htop | ⟨k, hk, -⟩
      · exact absurd (htop.symm.trans hbot) (by simp)
      · exact absurd (hk.symm.trans hbot) (by simp)
    · exact ⟨⊤, heval, .inl ⟨htop, rfl⟩⟩
    · exact ⟨_, heval, .inr ⟨k, hk, rfl⟩⟩
  simp only [mem_values_iff hL' hU']
  rcases lt_or_gt_of_ne hw with hneg | hpos
  · rw [or_iff_right (by omega)]
    exact forall_tdiv_mem_iff h hneg hL hU
  · exact iff_of_true (fun x hx => tdiv_mem_interval hpos hL hU hx) (.inl hpos)

/-- A range whose boundaries can be had one at a time. -/
theorem forall_mem_values_iff {s : Set Int} {f : Int → Int} (h : s.Nonempty) :
    (∀ x ∈ s, f x ∈ e.values ρ) ↔
      (∃ l, e.lower.eval ρ = some l ∧ ∀ x ∈ s, l ≤ (f x : ExtInt)) ∧
        ∃ u, e.upper.eval ρ = some u ∧ ∀ x ∈ s, (f x : ExtInt) ≤ u := by
  constructor
  · intro hmem
    obtain ⟨x, hx⟩ := h
    obtain ⟨l, hl, u, hu, -⟩ := hmem x hx
    exact ⟨⟨l, hl, fun y hy => ((mem_values_iff hl hu).1 (hmem y hy)).1⟩,
      ⟨u, hu, fun y hy => ((mem_values_iff hl hu).1 (hmem y hy)).2⟩⟩
  · rintro ⟨⟨l, hl, hlower⟩, u, hu, hupper⟩ x hx
    exact (mem_values_iff hl hu).2 ⟨hlower x hx, hupper x hx⟩

/-- A range scaled by a value, without minima and maxima for its boundaries. -/
theorem rangeValueMul_bounds_iff (r : Range) (v : Boundary) (ρ : Nat → Int) (w : Int)
    (hl : ¬ r.lower.IsExtremum) (hu : ¬ r.upper.IsExtremum) (hv : v.eval ρ = (w : ExtInt)) :
    ((∀ x ∈ r.values ρ, x * w ∈ (rangeValueMul r v).values ρ) ↔ r.values ρ = ∅ ∨
        (LowerScaled (Folded r.lower v) w (r.lower.eval ρ) (r.upper.eval ρ) ∧
          UpperScaled (Folded r.upper v) w (r.lower.eval ρ) (r.upper.eval ρ))) ∧
      (w ≠ 0 → ((∀ x ∈ r.values ρ, x.tdiv w ∈ (rangeValueDiv r v).values ρ) ↔ r.values ρ = ∅ ∨ 0 < w ∨
        (r.lower.eval ρ = ⊥ ∧ r.upper.eval ρ = ⊤) ∨
        ∃ l u : Int, r.lower.eval ρ = (l : ExtInt) ∧ r.upper.eval ρ = (u : ExtInt) ∧
          l.tdiv w = u.tdiv w)) := by
  rcases Set.eq_empty_or_nonempty (r.values ρ) with hempty | hvalue
  · exact ⟨iff_of_true (by simp [hempty]) (.inl hempty),
      fun _ => iff_of_true (by simp [hempty]) (.inl hempty)⟩
  rw [or_iff_right hvalue.ne_empty, or_iff_right hvalue.ne_empty]
  constructor
  · rw [forall_mem_values_iff hvalue, ← rangeValueMul_lower hvalue hl hv, ← rangeValueMul_upper hvalue hu hv]
    rfl
  · exact fun hw => rangeValueDiv_sound_iff hvalue hl hu hv hw

end

end OmpSs.Mcxx.Ranges
