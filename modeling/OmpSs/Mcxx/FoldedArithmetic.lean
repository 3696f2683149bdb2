import OmpSs.Mcxx.FoldedRanges
import OmpSs.Mcxx.RangeArithmetic

/-!
# Arithmetic of ranges of folded constants

`range_subtraction` and `range_multiplication` as the compiler runs them. Where the folds fit their words and
types, and so do those that compare the results, the ranges are those of exact integers
(`rangeSubtraction_exact`, `rangeMultiplication_exact`), and what `Mcxx.RangeArithmetic` says of these is true
of them. A fold that does not fit gives a boundary that has nothing to do with the values, as in the
difference of `0U` and `1U`.
-/

namespace OmpSs.Mcxx.FoldedRanges

open Lib Cexpr

variable {w : CValue}

/-! ## Constants of boundaries -/

/-- What a constant stands for: an integer and a type. -/
def Constant.exact (c : Constant w) : Int × IntType := (c.stored, c.type)

/-- The boundaries have these constants. -/
structure Range.HasConstants (r : Range w) (a b : Constant w) : Prop where
  lower : r.lower.constant = some a
  upper : r.upper.constant = some b

section
variable {b b1 b2 : Boundary w} {c d k k1 k2 : Constant w} {r : Range w} {t : IntType} {z : Int}

theorem FoldsTo.exact_eq (h : FoldsTo t z k) (hz : Fits w t z) : k.exact = (z, t) :=
  Prod.ext (h.eq_of_fits hz) h.type_eq

/-- A constant is one that a fold of its type leaves. -/
theorem Constant.fits (c : Constant w) : Fits w c.type c.stored := by
  unfold Fits least greatest ConstValue.stored
  cases hs : c.type.sign with
  | false =>
    have := c.made hs
    rw [if_neg Bool.false_ne_true, if_neg Bool.false_ne_true, if_neg Bool.false_ne_true]
    exact ⟨Int.natCast_nonneg _, Int.le_sub_one_of_lt (by exact_mod_cast this)⟩
  | true => exact ⟨BitVec.le_toInt _, Int.le_sub_one_of_lt (BitVec.toInt_lt)⟩

theorem stored_sub_eq_zero_iff : (c.sub d).stored = 0 ↔ modulus w (c.common d) ∣ c.stored - d.stored := by
  obtain ⟨htype, hfits, hcongr⟩ := foldsTo_sub c d
  constructor
  · intro hzero
    rw [hzero, zero_sub] at hcongr
    exact (Int.dvd_neg).1 hcongr
  · intro hdvd
    have hzero : FoldsTo (c.common d) 0 (c.sub d) := ⟨htype, hfits, by simpa using dvd_add hcongr hdvd⟩
    refine hzero.eq_of_fits ?_
    unfold Fits least greatest
    have hpow (n : Nat) : (0 : Int) < 2 ^ n := Int.pow_pos (by decide)
    have hword := hpow (w.bits - 1)
    have htype := hpow (c.common d).bits
    split <;> omega

@[simp] theorem exact_eq_minusInfinity_iff : b.exact = .minusInfinity ↔ b = .minusInfinity := by
  cases b <;> simp [Boundary.exact]

@[simp] theorem exact_eq_plusInfinity_iff : b.exact = .plusInfinity ↔ b = .plusInfinity := by
  cases b <;> simp [Boundary.exact]

theorem constant_exact_of (h : b.constant = some k) : b.exact.constant = some k.stored := by
  rw [constant_exact, h, Option.map_some]

theorem Range.HasConstants.exact (h : r.HasConstants c d) : r.exact.HasConstants c.stored d.stored :=
  ⟨constant_exact_of h.lower, constant_exact_of h.upper⟩

end

/-! ## Subtraction -/

/-- Source: the tests `const_value_is_zero(const_value_sub(b.get_constant(), long_min))` and the same for
`long_max`, of `boundary_subtraction`. An infinity is asked for its constant like any other boundary. -/
def Boundary.TakenFor (b : Boundary w) (infinity : Constant w) : Prop :=
  ∃ k ∈ b.constant, (k.sub infinity).stored = 0

instance (b : Boundary w) (infinity : Constant w) : Decidable (b.TakenFor infinity) :=
  inferInstanceAs (Decidable (∃ k ∈ b.constant, (k.sub infinity).stored = 0))

/-- `none`: the compiler stops, since it does not subtract an unsigned constant above `(unsigned)LLONG_MAX`;
`some none`: the infinities have no difference. Source: `boundary_subtraction` (`tl-ranges-common.cpp:329`). -/
def boundarySubtraction : Boundary w → Boundary w → Option (Option (Expr w))
  | .plusInfinity, .plusInfinity => some none
  | .minusInfinity, .minusInfinity => some none
  | b1, b2 =>
    if b1.TakenFor longMin ∨ b1.TakenFor longMax then some (some (.boundary b1))
    else if b2.TakenFor longMin then some (some (.boundary .plusInfinity))
    else if b2.TakenFor longMax then some (some (.boundary .minusInfinity))
    else match b1.constant, b2.constant with
      | some k1, some k2 =>
        if k2.type.sign = false ∧ k2.i.toNat % 2 ^ 64 > 4294967295 then none
        else some (some (.boundary (.const (k1.sub k2))))
      | _, _ => some (some (.binary .minus b1 b2))

/-- Source: `range_subtraction` (`tl-ranges-common.cpp:372`). -/
def rangeSubtraction (r1 r2 : Range w) : Option (ExprRange w) :=
  match boundarySubtraction r1.lower r2.lower, boundarySubtraction r1.upper r2.upper with
  | some (some lb), some (some ub) => match lb.constant, ub.constant with
    | some k, some l => if compareConstants k l = .bigger then some ⟨ub, lb⟩ else some ⟨lb, ub⟩
    | _, _ => some ⟨lb, ub⟩
  | none, _ => none
  | _, none => none
  | _, _ => some ⟨.boundary .minusInfinity, .boundary .plusInfinity⟩

/-- The infinities have no difference. -/
def Boundary.SameInfinity (b1 b2 : Boundary w) : Prop :=
  (b1 = .plusInfinity ∧ b2 = .plusInfinity) ∨ (b1 = .minusInfinity ∧ b2 = .minusInfinity)

/-- The constant is not the unsigned one that the subtraction of `LONG_MIN` takes for `LONG_MIN`. -/
def Constant.Plain (k : Constant w) : Prop := k.exact ≠ (2 ^ 63, ⟨.eight, false⟩)

instance : DecidablePred (Constant.Plain (w := w)) := fun _ => inferInstanceAs (Decidable (_ ≠ _))

/-- The difference of two constants and its type, before it is folded. -/
def difference (k1 k2 : Constant w) : Int × IntType :=
  if k1.stored = Ranges.longMin ∨ k1.stored = Ranges.longMax then k1.exact
  else if k2.stored = Ranges.longMin then longMax.exact (w := w)
  else if k2.stored = Ranges.longMax then longMin.exact (w := w)
  else (k1.stored - k2.stored, k1.common k2)

/-- The difference of two constants is folded exactly, and the compiler does not stop. -/
def DifferenceFits (k1 k2 : Constant w) : Prop :=
  k1.Plain ∧ k2.Plain ∧ (Ranges.Untaken k1.stored → Ranges.Untaken k2.stored →
    (k2.type.sign = false → k2.stored ≤ 4294967295) ∧ Fits w (k1.common k2) (k1.stored - k2.stored))

instance (k1 k2 : Constant w) : Decidable (DifferenceFits k1 k2) := by
  unfold DifferenceFits
  infer_instance

/-- The differences of the lower and the upper constants are folded and compared exactly. -/
structure SubtractionFits (r1 r2 : Range w) (a b c d : Constant w) : Prop where
  lower : DifferenceFits a c
  upper : DifferenceFits b d
  compared : ¬ r1.lower.SameInfinity r2.lower → ¬ r1.upper.SameInfinity r2.upper →
    ComparableAs w (difference a c).1 (difference a c).2 (difference b d).1 (difference b d).2

section
variable {ρ : Nat → Int} {b1 b2 : Boundary w} {r1 r2 : Range w} {a b c d k k1 k2 : Constant w}

theorem sub_longMin_eq_zero_iff (h : k.Plain) : (k.sub longMin).stored = 0 ↔ k.stored = Ranges.longMin := by
  have hcommon : k.common longMin = commonBytes k.type ⟨.eight, true⟩ := by cases w <;> rfl
  have hfits := k.fits
  rw [stored_sub_eq_zero_iff, stored_longMin, hcommon]
  unfold Constant.Plain Constant.exact at h
  generalize k.stored = z at *
  generalize k.type = t at *
  obtain ⟨num_bytes, sign⟩ := t
  cases w <;> cases num_bytes <;> cases sign <;>
    simp [Fits, least, greatest, modulus, commonBytes, Bytes.toNat, IntType.bits, CValue.bits, CValue.sizeof,
      Ranges.longMin] at * <;> omega

theorem sub_longMax_eq_zero_iff (k : Constant w) : (k.sub longMax).stored = 0 ↔ k.stored = Ranges.longMax := by
  have hcommon : k.common longMax = commonBytes k.type ⟨.eight, true⟩ := by cases w <;> rfl
  have hfits := k.fits
  rw [stored_sub_eq_zero_iff, stored_longMax, hcommon]
  generalize k.stored = z at *
  generalize k.type = t at *
  obtain ⟨num_bytes, sign⟩ := t
  cases w <;> cases num_bytes <;> cases sign <;>
    simp [Fits, least, greatest, modulus, commonBytes, Bytes.toNat, IntType.bits, CValue.bits, CValue.sizeof,
      Ranges.longMax] at * <;> omega

theorem takenFor_longMin_iff (h1 : b1.constant = some k1) (h : k1.Plain) :
    b1.TakenFor longMin ↔ b1.exact.constant = some Ranges.longMin := by
  simp [Boundary.TakenFor, constant_exact, h1, sub_longMin_eq_zero_iff h]

theorem takenFor_longMax_iff (h1 : b1.constant = some k1) :
    b1.TakenFor longMax ↔ b1.exact.constant = some Ranges.longMax := by
  simp [Boundary.TakenFor, constant_exact, h1, sub_longMax_eq_zero_iff k1]

/-- The difference of two boundaries is that of exact integers. -/
theorem boundarySubtraction_exact (h1 : b1.constant = some k1) (h2 : b2.constant = some k2)
    (hfits : DifferenceFits k1 k2) (hsame : ¬ b1.SameInfinity b2) :
    ∃ b k, boundarySubtraction b1 b2 = some (some (.boundary b)) ∧ b.constant = some k ∧
      k.exact = difference k1 k2 ∧
        Ranges.boundarySubtraction b1.exact b2.exact = some (.boundary b.exact) := by
  obtain ⟨hplain1, hplain2, hfits⟩ := hfits
  have hmin1 := takenFor_longMin_iff h1 hplain1
  have hmin2 := takenFor_longMin_iff h2 hplain2
  have hmax1 := takenFor_longMax_iff h1
  have hmax2 := takenFor_longMax_iff h2
  have hc1 := constant_exact_of h1
  have hc2 := constant_exact_of h2
  rw [hc1, Option.some.injEq] at hmin1 hmax1
  rw [hc2, Option.some.injEq] at hmin2 hmax2
  have htyped : boundarySubtraction b1 b2 =
      if k1.stored = Ranges.longMin ∨ k1.stored = Ranges.longMax then some (some (.boundary b1))
      else if k2.stored = Ranges.longMin then some (some (.boundary .plusInfinity))
      else if k2.stored = Ranges.longMax then some (some (.boundary .minusInfinity))
      else if k2.type.sign = false ∧ k2.i.toNat % 2 ^ 64 > 4294967295 then none
      else some (some (.boundary (.const (k1.sub k2)))) := by
    unfold boundarySubtraction
    split
    · exact absurd (.inl ⟨rfl, rfl⟩) hsame
    · exact absurd (.inr ⟨rfl, rfl⟩) hsame
    · simp only [hmin1, hmax1, hmin2, hmax2, h1, h2]
  have hexact : Ranges.boundarySubtraction b1.exact b2.exact =
      if k1.stored = Ranges.longMin ∨ k1.stored = Ranges.longMax then some (.boundary b1.exact)
      else if k2.stored = Ranges.longMin then some (.boundary .plusInfinity)
      else if k2.stored = Ranges.longMax then some (.boundary .minusInfinity)
      else some (.boundary (.const (k1.stored - k2.stored))) := by
    unfold Ranges.boundarySubtraction
    split
    · next h1 h2 => exact absurd (.inl ⟨exact_eq_plusInfinity_iff.1 h1, exact_eq_plusInfinity_iff.1 h2⟩) hsame
    · next h1 h2 => exact absurd (.inr ⟨exact_eq_minusInfinity_iff.1 h1, exact_eq_minusInfinity_iff.1 h2⟩) hsame
    · simp only [hc1, hc2, Option.some.injEq]
  rw [htyped, hexact, difference]
  by_cases htaken : k1.stored = Ranges.longMin ∨ k1.stored = Ranges.longMax
  · rw [if_pos htaken, if_pos htaken, if_pos htaken]
    exact ⟨b1, k1, rfl, h1, rfl, rfl⟩
  rw [if_neg htaken, if_neg htaken, if_neg htaken]
  by_cases hlow : k2.stored = Ranges.longMin
  · rw [if_pos hlow, if_pos hlow, if_pos hlow]
    exact ⟨_, _, rfl, rfl, rfl, rfl⟩
  rw [if_neg hlow, if_neg hlow, if_neg hlow]
  by_cases hhigh : k2.stored = Ranges.longMax
  · rw [if_pos hhigh, if_pos hhigh, if_pos hhigh]
    exact ⟨_, _, rfl, rfl, rfl, rfl⟩
  rw [if_neg hhigh, if_neg hhigh, if_neg hhigh]
  obtain ⟨hsmall, hdifference⟩ := hfits (not_or.1 htaken) ⟨hlow, hhigh⟩
  have hgoes : ¬ (k2.type.sign = false ∧ k2.i.toNat % 2 ^ 64 > 4294967295) := by
    rintro ⟨hs, hgreat⟩
    have hle := hsmall hs
    rw [ConstValue.stored, hs, if_neg Bool.false_ne_true] at hle
    have := Nat.mod_le k2.i.toNat (2 ^ 64)
    omega
  have hfold := foldsTo_sub k1 k2
  rw [if_neg hgoes]
  refine ⟨_, _, rfl, rfl, hfold.exact_eq hdifference, ?_⟩
  rw [Boundary.exact, hfold.eq_of_fits hdifference]

theorem Boundary.SameInfinity.subtraction (h : b1.SameInfinity b2) :
    boundarySubtraction b1 b2 = some none ∧ Ranges.boundarySubtraction b1.exact b2.exact = none := by
  rcases h with ⟨rfl, rfl⟩ | ⟨rfl, rfl⟩ <;> exact ⟨rfl, rfl⟩

theorem bigger_iff_of_exact {k l : Constant w} {p q : Int × IntType} (hk : k.exact = p) (hl : l.exact = q)
    (h : ComparableAs w p.1 p.2 q.1 q.2) : compareConstants k l = .bigger ↔ l.stored < k.stored := by
  subst hk hl
  exact compareConstants_eq_bigger_iff h

/-- Where the folds fit, the difference of two ranges is that of exact integers. -/
theorem rangeSubtraction_exact (h1 : r1.HasConstants a b) (h2 : r2.HasConstants c d)
    (hfits : SubtractionFits r1 r2 a b c d) :
    ∃ r, rangeSubtraction r1 r2 = some r ∧ r.exact = Ranges.rangeSubtraction r1.exact r2.exact := by
  obtain ⟨hlower, hupper, hcompared⟩ := hfits
  have hexact1 : r1.exact.lower = r1.lower.exact ∧ r1.exact.upper = r1.upper.exact := ⟨rfl, rfl⟩
  have hexact2 : r2.exact.lower = r2.lower.exact ∧ r2.exact.upper = r2.upper.exact := ⟨rfl, rfl⟩
  rw [rangeSubtraction, Ranges.rangeSubtraction, hexact1.1, hexact1.2, hexact2.1, hexact2.2]
  by_cases hsame : r1.lower.SameInfinity r2.lower <;> by_cases hsame' : r1.upper.SameInfinity r2.upper
  · rw [hsame.subtraction.1, hsame.subtraction.2, hsame'.subtraction.1]
    exact ⟨_, rfl, rfl⟩
  · obtain ⟨_, _, hub, -⟩ := boundarySubtraction_exact h1.upper h2.upper hupper hsame'
    rw [hsame.subtraction.1, hsame.subtraction.2, hub]
    exact ⟨_, rfl, rfl⟩
  · obtain ⟨_, _, hlb, -, -, hlb'⟩ := boundarySubtraction_exact h1.lower h2.lower hlower hsame
    rw [hsame'.subtraction.1, hsame'.subtraction.2, hlb, hlb']
    exact ⟨_, rfl, rfl⟩
  · obtain ⟨lb, k, hlb, hk, hdiff, hlb'⟩ := boundarySubtraction_exact h1.lower h2.lower hlower hsame
    obtain ⟨ub, l, hub, hl, hdiff', hub'⟩ := boundarySubtraction_exact h1.upper h2.upper hupper hsame'
    have hbigger := bigger_iff_of_exact hdiff hdiff' (hcompared hsame hsame')
    simp only [hlb, hub, hlb', hub', Expr.constant, hk, hl, Ranges.Expr.constant, constant_exact_of hk,
      constant_exact_of hl, hbigger]
    split
    · exact ⟨_, rfl, rfl⟩
    · exact ⟨_, rfl, rfl⟩

end

/-- From `0U` to `10U` less `1U`: the fold of the lower boundary is the greatest `unsigned int`, and the
boundaries are exchanged. -/
example :
    (rangeSubtraction ⟨.const (.ofUnsigned .int128 0), .const (.ofUnsigned .int128 10)⟩
        ⟨.const (.ofUnsigned .int128 1), .const (.ofUnsigned .int128 1)⟩).map ExprRange.exact =
      some ⟨.boundary (.const 9), .boundary (.const 4294967295)⟩ := rfl

/-! ## Multiplication -/

/-- The branch of two constants. Source: `get_min` (`tl-ranges-common.cpp:119`). -/
def minConstant (c d : Constant w) : Constant w := if compareConstants c d = .bigger then d else c

/-- The branch of two constants. Source: `get_max` (`tl-ranges-common.cpp:71`). -/
def maxConstant (c d : Constant w) : Constant w := if compareConstants c d = .smaller then d else c

/-- The products of the boundaries. -/
def products (a b c d : Constant w) : List (Constant w) := [a.mul d, b.mul c, b.mul d]

/-- Source: `range_multiplication` (`tl-ranges-common.cpp:541`). -/
def rangeMultiplication (r1 r2 : Range w) : Range w :=
  match r1.lower.constant, r1.upper.constant, r2.lower.constant, r2.upper.constant with
  | some a, some b, some c, some d =>
    ⟨.const ((products a b c d).foldl minConstant (a.mul c)),
      .const ((products a b c d).foldl maxConstant (a.mul c))⟩
  | _, _, _, _ => ⟨.minusInfinity, .plusInfinity⟩

/-- The lesser of two integers with types. -/
def lesser (p q : Int × IntType) : Int × IntType := if q.1 < p.1 then q else p

/-- The greater. -/
def greater (p q : Int × IntType) : Int × IntType := if p.1 < q.1 then q else p

/-- The one chosen so far and the next are compared exactly. -/
def ComparedInTurn (w : CValue) (choose : Int × IntType → Int × IntType → Int × IntType) :
    Int × IntType → List (Int × IntType) → Prop
  | _, [] => True
  | p, q :: qs => ComparableAs w p.1 p.2 q.1 q.2 ∧ ComparedInTurn w choose (choose p q) qs

instance decidableComparedInTurn (choose : Int × IntType → Int × IntType → Int × IntType) :
    ∀ p qs, Decidable (ComparedInTurn w choose p qs)
  | _, [] => .isTrue trivial
  | p, q :: qs =>
    have := decidableComparedInTurn choose (choose p q) qs
    inferInstanceAs (Decidable (_ ∧ _))

/-- The product of two constants and its type, before it is folded. -/
def product (c d : Constant w) : Int × IntType := (c.stored * d.stored, c.common d)

/-- The products of the boundaries are folded exactly, and compared exactly for the least and the greatest. -/
structure ProductsFit (a b c d : Constant w) : Prop where
  fits : ∀ p ∈ [product a c, product a d, product b c, product b d], Fits w p.2 p.1
  least : ComparedInTurn w lesser (product a c) [product a d, product b c, product b d]
  greatest : ComparedInTurn w greater (product a c) [product a d, product b c, product b d]

section
variable {ρ : Nat → Int} {r1 r2 : Range w} {a b c d : Constant w}

theorem mul_exact (h : Fits w (product c d).2 (product c d).1) : (c.mul d).exact = product c d :=
  (foldsTo_mul c d).exact_eq h

theorem minConstant_exact (h : ComparableAs w c.exact.1 c.exact.2 d.exact.1 d.exact.2) :
    (minConstant c d).exact = lesser c.exact d.exact := by
  have hbigger := compareConstants_eq_bigger_iff (c := c) (d := d) h
  unfold minConstant lesser
  by_cases hlt : d.exact.1 < c.exact.1
  · rw [if_pos (hbigger.2 hlt), if_pos hlt]
  · rw [if_neg (hbigger.not.2 hlt), if_neg hlt]

theorem maxConstant_exact (h : ComparableAs w c.exact.1 c.exact.2 d.exact.1 d.exact.2) :
    (maxConstant c d).exact = greater c.exact d.exact := by
  have hsmaller := compareConstants_eq_smaller_iff (c := c) (d := d) h
  unfold maxConstant greater
  by_cases hlt : c.exact.1 < d.exact.1
  · rw [if_pos (hsmaller.2 hlt), if_pos hlt]
  · rw [if_neg (hsmaller.not.2 hlt), if_neg hlt]

/-- Choosing among constants is choosing among what they stand for. -/
theorem foldl_exact {f : Constant w → Constant w → Constant w}
    {choose : Int × IntType → Int × IntType → Int × IntType}
    (hf : ∀ c d : Constant w, ComparableAs w c.exact.1 c.exact.2 d.exact.1 d.exact.2 →
      (f c d).exact = choose c.exact d.exact)
    (cs : List (Constant w)) (h : ComparedInTurn w choose c.exact (cs.map Constant.exact)) :
    (cs.foldl f c).exact = (cs.map Constant.exact).foldl choose c.exact := by
  induction cs generalizing c with
  | nil => rfl
  | cons d cs ih =>
    obtain ⟨hcompared, hrest⟩ := h
    rw [← hf c d hcompared] at hrest
    rw [List.foldl_cons, ih hrest, List.map_cons, List.foldl_cons, hf c d hcompared]

theorem lesser_fst (p q : Int × IntType) : (lesser p q).1 = min p.1 q.1 := by
  unfold lesser
  split <;> omega

theorem greater_fst (p q : Int × IntType) : (greater p q).1 = max p.1 q.1 := by
  unfold greater
  split <;> omega

/-- Where the folds fit, the product of two ranges is that of exact integers. -/
theorem rangeMultiplication_exact (h1 : r1.HasConstants a b) (h2 : r2.HasConstants c d)
    (hfits : ProductsFit a b c d) :
    (rangeMultiplication r1 r2).exact = Ranges.rangeMultiplication r1.exact r2.exact := by
  obtain ⟨hproducts, hleast, hgreatest⟩ := hfits
  simp only [List.forall_mem_cons, List.not_mem_nil, false_implies, implies_true, and_true] at hproducts
  obtain ⟨hac, had, hbc, hbd⟩ := hproducts
  have hmap : (products a b c d).map Constant.exact = [product a d, product b c, product b d] := by
    simp only [products, List.map_cons, List.map_nil, mul_exact had, mul_exact hbc, mul_exact hbd]
  rw [← hmap, ← mul_exact hac] at hleast hgreatest
  have hmin := foldl_exact (fun _ _ => minConstant_exact) (products a b c d) hleast
  have hmax := foldl_exact (fun _ _ => maxConstant_exact) (products a b c d) hgreatest
  rw [hmap, mul_exact hac] at hmin hmax
  have hlower := congrArg Prod.fst hmin
  have hupper := congrArg Prod.fst hmax
  simp only [List.foldl_cons, List.foldl_nil, lesser_fst, greater_fst, product] at hlower hupper
  have hexact1 := h1.exact
  have hexact2 := h2.exact
  simp only [rangeMultiplication, h1.lower, h1.upper, h2.lower, h2.upper, Ranges.rangeMultiplication,
    hexact1.lower, hexact1.upper, hexact2.lower, hexact2.upper, Ranges.corners]
  exact congrArg₂ Ranges.Range.mk (congrArg _ hlower) (congrArg _ hupper)

/-- **A product of ranges bounds the products of their values** exactly if both ranges are finite or one of
them has no value but zero, where the folds fit. -/
theorem rangeMultiplication_sound_iff (r1 r2 : Range w) (a b c d : Constant w) (ρ : Nat → Int)
    (h1 : r1.HasConstants a b) (h2 : r2.HasConstants c d) (hfits : ProductsFit a b c d) :
    (∀ x ∈ r1.values ρ, ∀ y ∈ r2.values ρ, x * y ∈ (rangeMultiplication r1 r2).values ρ) ↔
      ((r1.values ρ).Finite ∧ (r2.values ρ).Finite) ∨ r1.values ρ ⊆ {0} ∨ r2.values ρ ⊆ {0} := by
  have hconstant {r : Range w} {k l : Constant w} (h : r.HasConstants k l) : r.exact.IsConstant :=
    ⟨Option.isSome_iff_exists.2 ⟨_, h.exact.lower⟩, Option.isSome_iff_exists.2 ⟨_, h.exact.upper⟩⟩
  have h := Ranges.rangeMultiplication_bounds_iff r1.exact r2.exact ρ (hconstant h1) (hconstant h2)
  rw [← rangeMultiplication_exact h1 h2 hfits] at h
  exact h

end

/-- Three times a value of one range and minus two of the other. -/
theorem rangeMultiplication_sound_iff_const :
    let r1 : Range .int64 := ⟨.const (.ofInt _ 1), .const (.ofInt _ 3)⟩
    let r2 : Range .int64 := ⟨.const (.ofInt _ (-2)), .const (.ofInt _ 5)⟩
    (3 * -2 : Int) ∈ (rangeMultiplication r1 r2).values fun _ => 0 := by
  intro r1 r2
  refine (rangeMultiplication_sound_iff r1 r2 (.ofInt _ 1) (.ofInt _ 3) (.ofInt _ (-2)) (.ofInt _ 5) (fun _ => 0)
    ⟨rfl, rfl⟩ ⟨rfl, rfl⟩ ⟨by decide, by decide, by decide⟩).2 (.inl ⟨?_, ?_⟩) 3 ?_ (-2) ?_
  · exact (Set.finite_Icc (Constant.ofInt .int64 1).stored _).subset fun x hx => Ranges.mem_values_const.1 hx
  · exact (Set.finite_Icc (Constant.ofInt .int64 (-2)).stored _).subset fun x hx => Ranges.mem_values_const.1 hx
  · exact Ranges.mem_values_const.2 (by decide)
  · exact Ranges.mem_values_const.2 (by decide)

/-- Twice a value of the range from zero on may be more than twice `LONG_MAX`. -/
theorem not_rangeMultiplication_sound :
    let r1 : Range .int128 := ⟨.const (.ofInt _ 0), .plusInfinity⟩
    let r2 : Range .int128 := ⟨.const (.ofInt _ 2), .const (.ofInt _ 2)⟩
    (2 ^ 64 : Int) ∈ r1.values (fun _ => 0) ∧ 2 ∈ r2.values (fun _ => 0) ∧
      (2 ^ 64 * 2 : Int) ∉ (rangeMultiplication r1 r2).values fun _ => 0 := by
  intro r1 r2
  refine ⟨⟨Ranges.eval_const_le.2 (by decide), le_top⟩, Ranges.mem_values_const.2 (by decide), fun hmem => ?_⟩
  exact absurd (Ranges.mem_values_const.1 hmem) (by decide)

/-- The products of `0U` to `100000U` have a greatest one in `unsigned int` that is less than others. -/
example :
    let r : Range .int128 := ⟨.const (.ofUnsigned _ 0), .const (.ofUnsigned _ 100000)⟩
    (rangeMultiplication r r).exact = ⟨.const 0, .const 1410065408⟩ := rfl

end OmpSs.Mcxx.FoldedRanges
