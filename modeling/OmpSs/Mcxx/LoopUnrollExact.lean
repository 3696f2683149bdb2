import OmpSs.Mcxx.LoopUnroll

/-!
# When unrolling is right

The bound of the unrolled loop in the types it has (`unrolledUpperBound_constant`,
`unrolledUpperBound_not_constant`), the test of the unrolled loop with it, and from these the condition
`Exact`, for `int` alone, for an `unsigned` induction variable, and for an `int` with an `unsigned` step. In
each case the bound is either the exact one, and the unrolled loop takes the full blocks of the loop, or it has
wrapped around, and then the unrolled loop must not be entered at all, but where it happens to stop in time.
-/

namespace OmpSs.Mcxx.LoopUnroll

open Lib Cexpr
open CollapseCount (int32 commonBytes_int32 inRange_int32_iff convert_unsigned32 result_int32)
open CollapseCount (least_true least_cases inRange_int_iff inRange_unsigned_iff)
open CollapseCount.TypedLoop (least)

/-! ## Operations of four bytes -/

/-- An operation that is exact up to overflow and respects congruence modulo two to the 32, in C and where the
compiler folds it. -/
structure Modular (op : Arith) (h : Int → Int → Int) : Prop where
  value_eq : ∀ t x y, op.value t x y = t.result (h x y)
  modEq : ∀ {x x' y y'}, x ≡ x' [ZMOD 4294967296] → y ≡ y' [ZMOD 4294967296] →
    h x y ≡ h x' y' [ZMOD 4294967296]
  fold_eq : ∀ (w : CValue) (s t : Bool) (x y : Int),
    op.fold (constant w s x) (constant w t y) = some (constant w (s && t) (h x y))

theorem modular_add : Modular .add (· + ·) :=
  ⟨fun _ _ _ => rfl, Int.ModEq.add, fun _ _ _ _ _ => constValueAdd_constant⟩

theorem modular_sub : Modular .sub (· - ·) :=
  ⟨fun _ _ _ => rfl, Int.ModEq.sub, fun _ _ _ _ _ => constValueSub_constant⟩

theorem modular_mul : Modular .mul (· * ·) :=
  ⟨fun _ _ _ => rfl, Int.ModEq.mul, fun _ _ _ _ _ => constValueMul_constant⟩

section
variable {s t : Bool} {x y i : Int} {var : IntType} {op : Arith} {h : Int → Int → Int} {a b : Expr}

/-- The result of an exact integer, converted to the common type of an operation. -/
theorem convert_result (t : Bool) (h : (int32 s).result x = some y) :
    (int32 (s && t)).convert y ≡ x [ZMOD 4294967296] ∧
      ((s && t) = true → (int32 (s && t)).convert y = x) := by
  rw [result_int32] at h
  cases s with
  | true =>
    rw [if_pos rfl, Option.ite_none_right_eq_some] at h
    obtain ⟨hx, ⟨rfl⟩⟩ := h
    cases t with
    | true =>
      rw [Bool.and_self, convert_of_inRange hx]
      exact ⟨rfl, fun _ => rfl⟩
    | false =>
      rw [Bool.and_false, convert_unsigned32]
      exact ⟨Int.mod_modEq _ _, nofun⟩
  | false =>
    rw [if_neg (by decide)] at h
    obtain rfl := Option.some.inj h
    rw [Bool.false_and, convert_unsigned32]
    exact ⟨(Int.mod_modEq _ _).trans (Int.mod_modEq _ _), nofun⟩

/-- An operation of C on two operands of four bytes, each of which is the result of an exact integer. -/
theorem Modular.eval_arith (hop : Modular op h) (ha : a.eval var i = (int32 s).result x)
    (hb : b.eval var i = (int32 t).result y) (hta : a.type var = int32 s) (htb : b.type var = int32 t) :
    (Expr.arith op a b).eval var i = ((int32 s).result x).bind fun _ => ((int32 t).result y).bind fun _ =>
      (int32 (s && t)).result (h x y) := by
  rw [Expr.eval, ha, hb, hta, htb, commonBytes_int32]
  cases hx : (int32 s).result x with
  | none => rfl
  | some x' => cases hy : (int32 t).result y with
    | none => rfl
    | some y' =>
      have hx' := convert_result t hx
      have hy' := convert_result s hy
      rw [Bool.and_comm t s] at hy'
      show op.value (int32 (s && t)) _ _ = (int32 (s && t)).result (h x y)
      rw [hop.value_eq]
      cases hst : s && t with
      | true =>
        rw [hst] at hx' hy'
        rw [hx'.2 rfl, hy'.2 rfl]
      | false =>
        rw [hst] at hx' hy'
        exact congrArg some (hop.modEq hx'.1 hy'.1)

theorem result_of_inRange (hx : (int32 s).InRange x) : (int32 s).result x = some x := by
  have hbounds := inRange_int32_iff.1 hx
  rw [result_int32]
  cases s with
  | true => rw [if_pos rfl, if_pos hx]
  | false =>
    rw [if_neg (by decide)]
    exact congrArg some (Int.emod_eq_of_lt hbounds.1 hbounds.2)

theorem eval_value (hx : (int32 s).InRange x) :
    (Expr.value (int32 s) x).eval var i = (int32 s).result x := (result_of_inRange hx).symm

end

/-! ## The new bound -/

namespace ForStatement

variable {l : ForStatement} {w : CValue} {f : Nat} {i : Int} {op : Arith} {h : Int → Int → Int}

theorem toNodecl_one : constValueToNodecl (LoopUnroll.constant w true 1) = .value (int32 true) 1 :=
  constValueToNodecl_constant fun _ => by decide

theorem strictBound_eq (hop : Modular op h) : ∃ e, l.strictBound w op =
      some ⟨e, if l.constant then some (LoopUnroll.constant w l.sign (h l.bound 1)) else none⟩ ∧
    (l.constant = false → e.type (int32 l.sign) = int32 l.sign ∧
      ∀ i, e.eval (int32 l.sign) i = (int32 l.sign).result (h l.bound 1)) := by
  unfold strictBound boundNodecl
  cases l.constant with
  | true =>
    simp only [if_true, hop.fold_eq, Bool.and_true, Option.map_some]
    exact ⟨_, rfl, nofun⟩
  | false =>
    have hone : (int32 true).InRange 1 := by decide
    refine ⟨_, rfl, fun _ => ⟨?_, fun i => ?_⟩⟩
    · rw [toNodecl_one, Expr.type, Expr.type, Expr.type, commonBytes_int32, Bool.and_true]
    · rw [toNodecl_one, hop.eval_arith (eval_value l.bound_inRange) (eval_value hone) rfl rfl,
        result_of_inRange l.bound_inRange, result_of_inRange hone, Bool.and_true]
      rfl

/-- The closed bound as the compiler has it: a constant, or an expression. -/
theorem getUpperBound_eq : ∃ e, l.getUpperBound w =
      some ⟨e, if l.constant then some (LoopUnroll.constant w l.sign l.closed) else none⟩ ∧
    (l.constant = false → e.type (int32 l.sign) = int32 l.sign ∧
      ∀ i, e.eval (int32 l.sign) i = (int32 l.sign).result l.closed) := by
  unfold getUpperBound closed
  cases l.test with
  | lowerThan => exact strictBound_eq modular_sub
  | lowerOrEqual => exact ⟨_, rfl, fun _ => ⟨rfl, fun _ => eval_value l.bound_inRange⟩⟩
  | greaterThan => exact strictBound_eq modular_add
  | greaterOrEqual => exact ⟨_, rfl, fun _ => ⟨rfl, fun _ => eval_value l.bound_inRange⟩⟩

theorem constValueIsOne_stepConstant : constValueIsOne (l.stepConstant w) = decide (l.step = 1) := by
  have hone : (l.stepConstant w).stored = 1 ↔ (l.stepConstant w).i = BitVec.ofInt w.bits 1 :=
    stored_eq_iff (by
      rw [stepConstant, type_constant]
      cases l.step_sign <;> decide)
  rw [stored_stepConstant] at hone
  exact decide_eq_decide.2 hone.symm

/-- The bound of a loop whose bound is a constant. -/
theorem unrolledUpperBound_constant (hconst : l.constant = true) : l.unrolledUpperBound w f =
    some (constValueToNodecl
      (LoopUnroll.constant w (l.sign && l.step_sign) (l.closed - l.step * (f - 1 : Nat)))) := by
  obtain ⟨e, hupper, -⟩ := getUpperBound_eq (l := l) (w := w)
  have hne : 0 < l.step ∨ l.step < 0 := by
    have := l.step_ne_zero
    omega
  unfold unrolledUpperBound
  simp only [constValueIsPositive, constValueIsNegative, stored_stepConstant, decide_eq_true_eq, if_pos hne,
    hupper, hconst, if_true, Option.bind_some]
  rw [stepConstant, constValueGetSignedInt, constValueMul_constant, Option.bind_some, constValueSub_constant,
    Bool.and_true, Option.map_some]

/-- The type of the `f - 1` steps that are subtracted in the generated code. -/
def rangeSign (l : ForStatement) : Bool := l.step_sign || decide (l.step = 1)

/-- The `f - 1` steps that are subtracted in the generated code. -/
def rangeExpr (l : ForStatement) (g : Nat) : Expr :=
  if l.step = 1 then .value (int32 true) g
  else .arith .mul (.value (int32 l.step_sign) l.step) (.value (int32 true) g)

theorem type_rangeExpr (l : ForStatement) (var : IntType) (g : Nat) :
    (l.rangeExpr g).type var = int32 l.rangeSign := by
  unfold rangeExpr rangeSign
  split
  · next h => simp [h, Expr.type]
  · next h => simp [h, Expr.type, commonBytes_int32]

theorem inRange_natCast {g : Nat} (hg : g < 2147483648) : (int32 true).InRange g := by
  exact inRange_int_iff.2 ⟨by omega, by omega⟩

theorem eval_rangeExpr {g : Nat} (hg : g < 2147483648) (l : ForStatement) (var : IntType) (i : Int) :
    (l.rangeExpr g).eval var i = (int32 l.rangeSign).result (l.step * g) := by
  have hrange := inRange_natCast hg
  unfold rangeExpr rangeSign
  split
  · next h => simp only [h, decide_true, Bool.or_true, Int.one_mul, eval_value hrange]
  · next h =>
    rw [modular_mul.eval_arith (eval_value l.step_inRange) (eval_value hrange) rfl rfl,
      result_of_inRange l.step_inRange, result_of_inRange hrange]
    simp [h]

/-- The bound of a loop whose bound is not a constant, in the type that it has. -/
theorem unrolledUpperBound_not_constant (hconst : l.constant = false) (hf : f < 2147483648) :
    ∃ upper, l.unrolledUpperBound w f = some upper ∧
      upper.type (int32 l.sign) = int32 (l.sign && l.rangeSign) ∧
      ∀ i, upper.eval (int32 l.sign) i = ((int32 l.sign).result l.closed).bind fun _ =>
        ((int32 l.rangeSign).result (l.step * (f - 1 : Nat))).bind fun _ =>
          (int32 (l.sign && l.rangeSign)).result (l.closed - l.step * (f - 1 : Nat)) := by
  obtain ⟨e, hupper, he⟩ := getUpperBound_eq (l := l) (w := w)
  obtain ⟨htype, heval⟩ := he hconst
  have hg : f - 1 < 2147483648 := by omega
  have hne : 0 < l.step ∨ l.step < 0 := by
    have := l.step_ne_zero
    omega
  have hfactor : constValueToNodecl (constValueGetSignedInt w (f - 1 : Nat)) =
      .value (int32 true) (f - 1 : Nat) := by
    have htype : minimalInteger true (f - 1 : Nat) = int32 true := if_pos (inRange_natCast hg)
    have hexact : reduced true ((f - 1 : Nat) : Int) = (f - 1 : Nat) := if_pos rfl
    rw [constValueGetSignedInt, constValueToNodecl_constant fun _ => inRange_long (inRange_natCast hg),
      hexact, htype]
  have hrange : (if 0 < l.step ∧ l.step = 1 then .value (int32 true) (f - 1 : Nat)
      else .arith .mul (.value (int32 l.step_sign) l.step) (.value (int32 true) (f - 1 : Nat))) =
      l.rangeExpr (f - 1) := by
    have hone : (0 < l.step ∧ l.step = 1) ↔ l.step = 1 := by omega
    simp only [hone]
    rfl
  refine ⟨.arith .sub e (l.rangeExpr (f - 1)), ?_, ?_, fun i => ?_⟩
  · unfold unrolledUpperBound
    simp only [constValueIsPositive, constValueIsNegative, stored_stepConstant, decide_eq_true_eq, if_pos hne,
      hupper, hconst, constValueIsOne_stepConstant, Option.bind_some, hfactor, hrange]
    rfl
  · rw [Expr.type, htype, type_rangeExpr, commonBytes_int32]
  · exact modular_sub.eval_arith (heval i) (eval_rangeExpr hg l _ i) htype (type_rangeExpr l _ _)

/-! ## The test of the unrolled loop -/

/-- The closed bound, `f - 1` steps smaller, as an exact integer. -/
def shifted (l : ForStatement) (f : Nat) : Int := l.closed - l.stride * (f - 1 : Nat)

/-- The comparison that the unrolled loop makes. -/
def passes (l : ForStatement) (x y : Int) : Bool := if 0 < l.step then decide (x ≤ y) else decide (y ≤ x)

variable {upper : Expr} {y : Int} {j : Nat}

theorem shifted_emod : (l.closed - l.step * (f - 1 : Nat)) % 4294967296 = l.shifted f % 4294967296 :=
  ((stride_modEq.symm.mul_right _).sub_left _ : _ ≡ _ [ZMOD 4294967296])

theorem shifted_eq (h : l.stride = l.step) : l.closed - l.step * (f - 1 : Nat) = l.shifted f := by
  rw [shifted, h]

theorem holds_cond (l : ForStatement) (x y : Int) :
    (if 0 < l.step then Rel.lte else Rel.gte).holds x y = l.passes x y := by
  unfold passes
  split <;> rfl

theorem test_signed (hsign : l.sign = true) (hi : (int32 l.sign).InRange i)
    (he : upper.eval (int32 l.sign) i = some y)
    (ht : upper.type (int32 l.sign) = int32 true ∧ (int32 true).InRange y ∨
      upper.type (int32 l.sign) = ⟨.eight, true⟩ ∧ IntType.InRange ⟨.eight, true⟩ y) :
    (l.unrolledLoop w f upper).test (int32 l.sign) i = some (l.passes i y) := by
  rw [hsign] at hi he ht ⊢
  refine ForLoop.test_eq_of_cond ?_
  rw [← holds_cond]
  exact eval_rel_signed hi he ht

theorem test_unsigned (he : upper.eval (int32 l.sign) i = some y)
    (ht : upper.type (int32 l.sign) = int32 false) :
    (l.unrolledLoop w f upper).test (int32 l.sign) i =
      some (l.passes (i % 4294967296) (y % 4294967296)) := by
  refine ForLoop.test_eq_of_cond ?_
  rw [← holds_cond]
  exact eval_rel_unsigned he ht

/-- The unrolled loop never stops in a state that the language defines if its bound overflows. -/
theorem Regular.not_sameIterations (h : l.Regular) (hf : f < 2147483648)
    (hupper : l.unrolledUpperBound w f = some upper) (he : ∀ i, upper.eval (int32 l.sign) i = none) :
    ¬ l.SameIterations w f := by
  rw [h.unrolled_iff hf hupper]
  rintro ⟨J, -, -, hend⟩
  simp only [ForLoop.test, unrolledLoop, Expr.eval, he, Option.bind_some, Option.map_none] at hend
  cases hend

/-- The exact bound lets through the full blocks. -/
theorem Regular.passes_shifted (h : l.Regular) (hf : 0 < f) (hstride : l.stride = l.step) (j : Nat) :
    l.passes (l.value (j * f)) (l.shifted f) = decide ((j + 1) * f ≤ l.count) := by
  have hlast : (j + 1) * f ≤ l.count ↔ j * f + (f - 1) < l.count := by
    rw [Nat.succ_mul]
    omega
  have htrend := h.trend
  rw [hstride] at htrend
  rw [Bool.eq_iff_iff, decide_eq_true_iff, hlast, lt_count_iff, h.within_eq, value_add]
  unfold passes shifted
  cases hup : l.upward with
  | true =>
    rw [if_pos (htrend.1 hup), if_pos rfl, decide_eq_true_iff, decide_eq_true_iff, Int.mul_comm l.stride]
    omega
  | false =>
    have hneg : ¬ 0 < l.step := fun hpos => by simp [htrend.2 hpos] at hup
    rw [if_neg hneg, if_neg (by decide), decide_eq_true_iff, decide_eq_true_iff, Int.mul_comm l.stride]
    omega

/-! ## Exact conditions -/

/-- With `int` alone: the bound is a constant, or nothing in its computation overflows. -/
def ExactSigned (l : ForStatement) (f : Nat) : Prop :=
  l.constant = true ∨ ((int32 true).InRange l.closed ∧ (int32 true).InRange (l.step * (f - 1 : Nat)) ∧
    (int32 true).InRange (l.shifted f))

instance : Decidable (l.ExactSigned f) := inferInstanceAs (Decidable (_ ∨ _))

theorem result_bind {s : Bool} {z : Int} {g : Option Int} : (((int32 s).result z).bind fun _ => g) =
    if s = true → (int32 true).InRange z then g else none := by
  rw [result_int32]
  cases s with
  | true =>
    rw [if_pos rfl]
    split <;> simp_all
  | false => simp

theorem closed_bounds (l : ForStatement) : least l.sign - 1 ≤ l.closed ∧
    l.closed ≤ least l.sign + 4294967296 := by
  have hbound := inRange_int32_iff.1 l.bound_inRange
  unfold closed
  cases l.test <;> dsimp only <;> omega

theorem inRange_long_shifted (hf : f < 2147483648) (hs : l.step_sign = true) :
    IntType.InRange ⟨.eight, true⟩ (l.shifted f) := by
  have hmul := mul_step_bounds (m := f - 1) (by omega) hs
  have hclosed := l.closed_bounds
  have hleast := least_cases l.sign
  rw [inRange_long_iff, ← shifted_eq (stride_eq_step hs), Int.mul_comm]
  omega

/-- The unrolled loop with a folded bound of a signed type. -/
theorem test_literal_signed (hsign : l.sign = true) (hi : (int32 l.sign).InRange i)
    (hy : IntType.InRange ⟨.eight, true⟩ y) :
    (l.unrolledLoop w f (.value (minimalInteger true y) y)).test (int32 l.sign) i = some (l.passes i y) := by
  refine test_signed hsign hi rfl ?_
  rcases minimalInteger_signed y with ⟨htype, hrange⟩ | htype
  · exact .inl ⟨htype, hrange⟩
  · exact .inr ⟨htype, hy⟩

theorem Regular.sameIterations_signed (h : l.Regular) (hf2 : 2 ≤ f) (hf : f < 2147483648)
    (hsign : l.sign = true) (hstep : l.step_sign = true) : l.SameIterations w f ↔ l.ExactSigned f := by
  have hstride := stride_eq_step hstep
  -- The step is an `int`, so nothing is asked of the copies, and an exact bound is a right one.
  have hexact : ∀ upper, l.unrolledUpperBound w f = some upper →
      (∀ i, (int32 l.sign).InRange i →
        (l.unrolledLoop w f upper).test (int32 l.sign) i = some (l.passes i (l.shifted f))) →
      l.SameIterations w f := by
    intro upper hupper htest
    rw [h.unrolled_iff hf hupper]
    refine (blocks_iff_of_exact (by omega) fun j hj => ?_).2 fun _ _ _ hnot => ?_
    · rw [htest _ (h.value_inRange hj), h.passes_shifted (by omega) hstride]
    · rw [hstep] at hnot
      cases hnot
  unfold ExactSigned
  cases hconst : l.constant with
  | true =>
    refine iff_of_true (hexact (.value (minimalInteger true (l.shifted f)) (l.shifted f)) ?_ fun i hi =>
      test_literal_signed hsign hi (inRange_long_shifted hf hstep)) (.inl rfl)
    rw [unrolledUpperBound_constant hconst, hsign, hstep, Bool.and_self, shifted_eq hstride,
      constValueToNodecl_constant fun _ => inRange_long_shifted hf hstep]
    rfl
  | false =>
    obtain ⟨upper, hupper, htype, heval⟩ := unrolledUpperBound_not_constant (w := w) hconst hf
    rw [rangeSign, hstep, hsign, Bool.true_or, Bool.and_self] at htype heval
    simp only [result_bind, true_imp_iff, shifted_eq hstride] at heval
    by_cases hfits : (int32 true).InRange l.closed ∧ (int32 true).InRange (l.step * (f - 1 : Nat)) ∧
        (int32 true).InRange (l.shifted f)
    · refine iff_of_true (hexact upper hupper fun i hi => test_signed hsign hi ?_ (.inl ?_)) (.inr hfits)
      · rw [hsign, heval, if_pos hfits.1, if_pos hfits.2.1, result_of_inRange hfits.2.2]
      · rw [hsign]
        exact ⟨htype, hfits.2.2⟩
    · refine iff_of_false (h.not_sameIterations hf hupper fun i => ?_) (by simpa using hfits)
      rw [hsign, heval, result_int32, if_pos rfl]
      split_ifs with hclosed hrange hshifted
      · exact absurd ⟨hclosed, hrange, hshifted⟩ hfits
      all_goals rfl

/-- What is asked of the operands of a bound that is not folded: an `int` among them does not overflow. -/
def BoundDefined (l : ForStatement) (f : Nat) : Prop :=
  l.constant = false → (l.sign = true → (int32 true).InRange l.closed) ∧
    (l.step_sign = true → (int32 true).InRange (l.step * (f - 1 : Nat)))

instance : Decidable (l.BoundDefined f) := inferInstanceAs (Decidable (_ → _ ∧ _))

/-- The copies with an offset read no negative index, where an `unsigned` offset makes the index `unsigned`.
-/
def CopiesOk (l : ForStatement) (f j : Nat) : Prop :=
  l.sign = true → l.step_sign = false → ∀ k < f, k ≠ 0 → 0 ≤ l.value (j * f + k)

theorem rangeSign_fits_iff (hf : f < 2147483648) :
    (l.rangeSign = true → (int32 true).InRange (l.step * (f - 1 : Nat))) ↔
      (l.step_sign = true → (int32 true).InRange (l.step * (f - 1 : Nat))) := by
  have hone : l.step = 1 → (int32 true).InRange (l.step * (f - 1 : Nat)) := by
    intro h
    rw [h, Int.one_mul]
    exact inRange_natCast (by omega)
  simp only [rangeSign, Bool.or_eq_true, decide_eq_true_eq]
  exact ⟨fun h hs => h (.inl hs), fun h => Or.rec h hone⟩

/-- An `unsigned` bound, folded or not, is the exact one modulo two to the 32. -/
theorem unsigned_upper (hf : f < 2147483648) (hunsigned : (l.sign && l.step_sign) = false)
    (hone : l.constant = false → l.sign = true → l.step ≠ 1) :
    ∃ upper, l.unrolledUpperBound w f = some upper ∧ upper.type (int32 l.sign) = int32 false ∧
      ∀ i, upper.eval (int32 l.sign) i =
        if l.BoundDefined f then some (l.shifted f % 4294967296) else none := by
  cases hconst : l.constant with
  | true =>
    have hdef : l.BoundDefined f := fun hnot => by simp [hconst] at hnot
    refine ⟨.value (int32 false) (l.shifted f % 4294967296), ?_, rfl, fun i => (if_pos hdef).symm⟩
    rw [unrolledUpperBound_constant hconst, hunsigned, constValueToNodecl_unsigned, shifted_emod]
  | false =>
    obtain ⟨upper, hupper, htype, heval⟩ := unrolledUpperBound_not_constant (w := w) hconst hf
    have hsigns : (l.sign && l.rangeSign) = false := by
      unfold rangeSign
      cases hsign : l.sign with
      | false => rfl
      | true =>
        rw [hsign] at hunsigned
        simp_all
    rw [hsigns] at htype heval
    have hdef : l.BoundDefined f ↔ _ ∧ _ := forall_prop_of_true hconst
    refine ⟨upper, hupper, htype, fun i => ?_⟩
    have hresult : (int32 false).result (l.closed - l.step * (f - 1 : Nat)) =
        some (l.shifted f % 4294967296) := congrArg some shifted_emod
    rw [heval, hresult, result_bind, result_bind, if_congr (rangeSign_fits_iff hf) rfl rfl, ← ite_and,
      if_congr hdef rfl rfl]

/-- The iterations of a loop whose unrolled form compares with an `unsigned` bound. -/
theorem Regular.sameIterations_unsigned_iff (h : l.Regular) (hf : f < 2147483648)
    (hunsigned : (l.sign && l.step_sign) = false)
    (hone : l.constant = false → l.sign = true → l.step ≠ 1) : l.SameIterations w f ↔
      l.BoundDefined f ∧ Blocks
        (fun j => some (l.passes (l.value (j * f) % 4294967296) (l.shifted f % 4294967296)))
        (l.CopiesOk f) f l.count := by
  obtain ⟨upper, hupper, htype, heval⟩ := unsigned_upper (w := w) hf hunsigned hone
  by_cases hdef : l.BoundDefined f
  · rw [and_iff_right hdef, h.unrolled_iff hf hupper]
    have htest : ∀ i, (l.unrolledLoop w f upper).test (int32 l.sign) i =
        some (l.passes (i % 4294967296) (l.shifted f % 4294967296)) := by
      intro i
      rw [test_unsigned ((heval i).trans (if_pos hdef)) htype, Int.emod_emod_of_dvd _ dvd_rfl]
    simp only [htest]
    rfl
  · exact iff_of_false (h.not_sameIterations hf hupper fun i => (heval i).trans (if_neg hdef))
      fun hand => hdef hand.1

/-! ## An unsigned induction variable -/

/-- With an `unsigned` induction variable: the exact bound is a value of the type, or the one that it is
modulo two to the 32 keeps the unrolled loop from being entered. An `unsigned` step that leads downwards has
the unrolled loop compare the wrong way around, and then it must not be entered either. -/
def ExactUnsigned (l : ForStatement) (f : Nat) : Prop :=
  l.BoundDefined f ∧
    if l.step_sign = false ∧ l.upward = false then l.shifted f % 4294967296 < l.lower_bound
    else (int32 false).InRange (l.shifted f) ∨
      if l.upward then l.shifted f % 4294967296 < l.lower_bound else l.lower_bound < l.shifted f % 4294967296

instance : Decidable (l.ExactUnsigned f) := inferInstanceAs (Decidable (_ ∧ _))

theorem value_zero_mul (l : ForStatement) (f : Nat) : l.value (0 * f) = l.lower_bound := by
  simp [value]

theorem stride_eq_step_of_upward (h : l.upward = true) : l.stride = l.step := if_pos (.inr h)

theorem Regular.stride_neg (h : l.Regular) (hdown : l.upward = false) : l.stride < 0 := by
  have hne := stride_ne_zero (l := l)
  have htrend := h.trend
  rw [hdown] at htrend
  by_contra hpos
  exact absurd (htrend.2 (by omega)) (by decide)

/-- The unrolled loop compares the way the test does if the stride is the step. -/
theorem Regular.passes_eq (h : l.Regular) (hstride : l.stride = l.step) (x y : Int) :
    l.passes x y = if l.upward then decide (x ≤ y) else decide (y ≤ x) := by
  unfold passes
  cases hup : l.upward with
  | true => rw [if_pos (hstride ▸ h.trend.1 hup), if_pos rfl]
  | false =>
    have hneg := h.stride_neg hup
    rw [if_neg (by omega), if_neg (by decide)]

theorem passes_of_unsigned (hstep : l.step_sign = false) (x y : Int) : l.passes x y = decide (x ≤ y) :=
  if_pos (unsigned_step_bounds hstep).1

theorem closed_le_of_upward (hup : l.upward = true) :
    l.closed < least l.sign + 4294967296 := by
  have hbound := inRange_int32_iff.1 l.bound_inRange
  unfold closed
  unfold upward at hup
  cases htest : l.test <;> simp only [htest] at hup ⊢
  · omega
  · omega
  · cases hup
  · cases hup

theorem le_closed_of_not_upward (hdown : l.upward = false) :
    least l.sign ≤ l.closed := by
  have hbound := inRange_int32_iff.1 l.bound_inRange
  unfold closed
  unfold upward at hdown
  cases htest : l.test <;> simp only [htest] at hdown ⊢
  · cases hdown
  · cases hdown
  · omega
  · omega

/-- Where there is a full block, the exact bound of the unrolled loop is a value of the type. -/
theorem Regular.shifted_inRange (h : l.Regular) (hf : 0 < f) (hstride : l.stride = l.step)
    (hle : f ≤ l.count) : (int32 l.sign).InRange (l.shifted f) := by
  have hpasses := h.passes_shifted hf hstride 0
  have hlower := inRange_int32_iff.1 l.lower_inRange
  have hg : (0 : Int) ≤ (f - 1 : Nat) := Int.natCast_nonneg _
  rw [value_zero_mul, Nat.zero_add, Nat.one_mul, decide_eq_true hle, h.passes_eq hstride] at hpasses
  refine inRange_int32_iff.2 ?_
  cases hup : l.upward with
  | true =>
    rw [hup, if_pos rfl, decide_eq_true_iff] at hpasses
    have hclosed := closed_le_of_upward hup
    have hmul := Int.mul_nonneg (h.trend.1 hup).le hg
    unfold shifted at hpasses ⊢
    omega
  | false =>
    rw [hup, if_neg (by decide), decide_eq_true_iff] at hpasses
    have hclosed := le_closed_of_not_upward hup
    have hmul := Int.mul_nonpos_of_nonpos_of_nonneg (h.stride_neg hup).le hg
    unfold shifted at hpasses ⊢
    omega

theorem Regular.value_le_lower (h : l.Regular) (hdown : l.upward = false) (k : Nat) :
    l.value k ≤ l.lower_bound := by
  have hmul := Int.mul_nonpos_of_nonneg_of_nonpos (Int.natCast_nonneg k) (h.stride_neg hdown).le
  unfold value
  omega

theorem Regular.sameIterations_unsigned (h : l.Regular) (hf2 : 2 ≤ f) (hf : f < 2147483648)
    (hsign : l.sign = false) : l.SameIterations w f ↔ l.ExactUnsigned f := by
  have hunsigned : (l.sign && l.step_sign) = false := by
    rw [hsign]
    rfl
  have hmod : ∀ x, (int32 l.sign).InRange x → x % 4294967296 = x := by
    intro x hx
    rw [hsign] at hx
    have hbounds := inRange_unsigned_iff.1 hx
    exact Int.emod_eq_of_lt hbounds.1 hbounds.2
  have hvalue : ∀ k ≤ l.count, l.value k % 4294967296 = l.value k := fun k hk => hmod _ (h.value_inRange hk)
  have hlower : l.lower_bound % 4294967296 = l.lower_bound := hmod _ l.lower_inRange
  rw [h.sameIterations_unsigned_iff hf hunsigned fun _ hs => by rw [hsign] at hs; cases hs]
  refine and_congr_right fun _ => ?_
  split
  · next hdown =>
    simp only [passes_of_unsigned hdown.1]
    rw [blocks_iff_of_runs_on]
    · rw [value_zero_mul, hlower, Option.some_inj, decide_eq_false_iff_not, not_le]
    · intro J _ hJ henter _
      rw [value_zero_mul, hlower, Option.some_inj, decide_eq_true_iff] at henter
      rw [hvalue _ hJ, Option.some_inj, decide_eq_true_iff]
      exact (h.value_le_lower hdown.2 _).trans henter
  · next hdir =>
    have hstride : l.stride = l.step := by
      refine if_pos ?_
      cases hs : l.step_sign <;> cases hu : l.upward <;> simp_all
    by_cases hrange : (int32 l.sign).InRange (l.shifted f)
    · refine iff_of_true ((blocks_iff_of_exact (by omega) fun j hj => ?_).2 fun _ _ hs => ?_)
        (.inl (hsign ▸ hrange))
      · rw [hvalue _ hj, hmod _ hrange, h.passes_shifted (by omega) hstride]
      · rw [hsign] at hs
        cases hs
    · have hshort : ¬ f ≤ l.count := fun hle => hrange (h.shifted_inRange (by omega) hstride hle)
      rw [blocks_iff_of_runs_on fun J hJ hle _ _ => absurd ((Nat.le_mul_of_pos_left f hJ).trans hle) hshort,
        or_iff_right (hsign ▸ hrange), value_zero_mul, hlower, Option.some_inj, h.passes_eq hstride]
      cases l.upward <;> simp

/-! ## A signed induction variable and an unsigned step -/

/-- With an `int` induction variable and an `unsigned` step of one that is subtracted as an `int`: nothing
overflows, and the unrolled loop is not entered, or the loop goes upwards and its copies with an offset read
no negative index. -/
def ExactByOne (l : ForStatement) (f : Nat) : Prop :=
  (int32 true).InRange l.closed ∧ (int32 true).InRange (l.closed - (f - 1 : Nat)) ∧
    (l.closed - (f - 1 : Nat) < l.lower_bound ∨ (l.upward = true ∧ -1 ≤ l.lower_bound))

instance : Decidable (l.ExactByOne f) := inferInstanceAs (Decidable (_ ∧ _))

/-- With an `int` induction variable and an `unsigned` step upwards: the exact bound is not negative, or the
one that it is modulo two to the 32 keeps the unrolled loop from being entered. -/
def ExactMixedUp (l : ForStatement) (f : Nat) : Prop :=
  0 ≤ l.shifted f ∨ l.shifted f % 4294967296 < l.lower_bound % 4294967296

instance : Decidable (l.ExactMixedUp f) := inferInstanceAs (Decidable (_ ∨ _))

/-- With an `int` induction variable and an `unsigned` step downwards: the unrolled loop is not entered, or
its index falls below zero after whole blocks, as an `unsigned` it is above the bound then, and the blocks
are blocks of the loop. -/
def ExactMixedDown (l : ForStatement) (f : Nat) : Prop :=
  l.shifted f % 4294967296 < l.lower_bound % 4294967296 ∨
    let block := f * -l.stride
    let rest := l.lower_bound % block
    0 ≤ l.lower_bound ∧ (f - 1 : Nat) * -l.stride ≤ rest ∧ l.shifted f ≤ rest ∧
      l.shifted f % 4294967296 < rest - block + 4294967296

instance : Decidable (l.ExactMixedDown f) := inferInstanceAs (Decidable (_ ∨ _ ∧ _))

/-- With an `int` induction variable and an `unsigned` step. -/
def ExactMixed (l : ForStatement) (f : Nat) : Prop :=
  if l.constant = false ∧ l.step = 1 then l.ExactByOne f
  else l.BoundDefined f ∧ if l.upward then l.ExactMixedUp f else l.ExactMixedDown f

instance : Decidable (l.ExactMixed f) := inferInstanceAs (Decidable (ite _ _ (_ ∧ ite _ _ _)))

theorem lower_bounds (l : ForStatement) (hsign : l.sign = true) :
    -2147483648 ≤ l.lower_bound ∧ l.lower_bound < 2147483648 := by
  have hlower := l.lower_inRange
  rw [hsign] at hlower
  exact inRange_int_iff.1 hlower

/-- A loop upwards by one: what is asked of the copies in all its full blocks. -/
theorem forall_copiesOk_iff (hf2 : 2 ≤ f) (hsign : l.sign = true) (hstep : l.step_sign = false)
    (hstride : l.stride = 1) : (∀ j, (j + 1) * f ≤ l.count → l.CopiesOk f j) ↔
      (l.count < f ∨ -1 ≤ l.lower_bound) := by
  constructor
  · intro hok
    by_contra hnot
    rw [not_or, not_lt, not_le] at hnot
    have hone := hok 0 (by omega) hsign hstep 1 (by omega) Nat.one_ne_zero
    simp only [value, hstride, Nat.zero_mul, Nat.zero_add, Nat.cast_one] at hone
    omega
  · rintro (hlt | hlower) j hj - - k hk hk0
    · have hle := (Nat.le_mul_of_pos_left f j.succ_pos).trans hj
      omega
    · have hpos : (1 : Int) ≤ (j * f + k : Nat) := by omega
      simp only [value, hstride, Int.mul_one]
      omega

/-- The bound of the loop whose step of one is subtracted as an `int`. -/
theorem upper_byOne (hf : f < 2147483648) (hsign : l.sign = true) (hconst : l.constant = false)
    (hone : l.step = 1) : ∃ upper, l.unrolledUpperBound w f = some upper ∧
      upper.type (int32 l.sign) = int32 true ∧ ∀ i, upper.eval (int32 l.sign) i =
        if (int32 true).InRange l.closed ∧ (int32 true).InRange (l.closed - (f - 1 : Nat)) then
          some (l.closed - (f - 1 : Nat)) else none := by
  obtain ⟨upper, hupper, htype, heval⟩ := unrolledUpperBound_not_constant (w := w) hconst hf
  have hrange : (int32 true).InRange (f - 1 : Nat) := inRange_natCast (by omega)
  have hrangeSign : l.rangeSign = true := by simp [rangeSign, hone]
  refine ⟨upper, hupper, ?_, fun i => ?_⟩
  · rw [htype, hrangeSign, hsign, Bool.and_self]
  · rw [heval, hrangeSign, hone, hsign, Bool.and_self]
    simp only [result_bind, true_imp_iff, Int.one_mul, if_pos hrange]
    rw [result_int32, if_pos rfl, ← ite_and]

theorem Regular.sameIterations_byOne (h : l.Regular) (hf2 : 2 ≤ f) (hf : f < 2147483648)
    (hsign : l.sign = true) (hstep : l.step_sign = false) (hconst : l.constant = false) (hone : l.step = 1) :
    l.SameIterations w f ↔ l.ExactByOne f := by
  obtain ⟨upper, hupper, htype, heval⟩ := upper_byOne (w := w) hf hsign hconst hone
  unfold ExactByOne
  rw [← and_assoc]
  by_cases hdef : (int32 true).InRange l.closed ∧ (int32 true).InRange (l.closed - (f - 1 : Nat))
  · have htest : ∀ i, (int32 l.sign).InRange i → (l.unrolledLoop w f upper).test (int32 l.sign) i =
        some (decide (i ≤ l.closed - (f - 1 : Nat))) := by
      intro i hi
      rw [test_signed hsign hi ((heval i).trans (if_pos hdef)) (.inl ⟨htype, hdef.2⟩),
        passes_of_unsigned hstep]
    rw [and_iff_right hdef, h.unrolled_iff hf hupper]
    cases hup : l.upward with
    | true =>
      have hstride := stride_eq_step_of_upward hup
      have hshifted : l.closed - (f - 1 : Nat) = l.shifted f := by
        rw [← shifted_eq hstride, hone, Int.one_mul]
      have hfull : ∀ j, decide (l.value (j * f) ≤ l.closed - (f - 1 : Nat)) =
          decide ((j + 1) * f ≤ l.count) := by
        intro j
        rw [hshifted, ← passes_of_unsigned hstep, h.passes_shifted (by omega) hstride]
      have hentered := decide_eq_decide.1 (hfull 0)
      rw [blocks_iff_of_exact (by omega) fun j hj => by rw [htest _ (h.value_inRange hj), hfull]]
      have hiff := forall_copiesOk_iff hf2 hsign hstep (hstride.trans hone)
      simp only [CopiesOk] at hiff
      rw [value_zero_mul] at hentered
      rw [hiff, and_iff_right rfl]
      omega
    | false =>
      rw [blocks_iff_of_runs_on]
      · rw [htest _ (h.value_inRange (by omega)), value_zero_mul, Option.some_inj, decide_eq_false_iff_not,
          not_le]
        simp
      · intro J _ hJ henter _
        rw [htest _ (h.value_inRange (by omega)), value_zero_mul, Option.some_inj, decide_eq_true_iff] at henter
        rw [htest _ (h.value_inRange hJ), Option.some_inj, decide_eq_true_iff]
        exact (h.value_le_lower hup _).trans henter
  · exact iff_of_false (h.not_sameIterations hf hupper fun i => (heval i).trans (if_neg hdef))
      fun hand => hdef hand.1

theorem Regular.value_monotone (h : l.Regular) (hup : l.upward = true) {j k : Nat} (hjk : j ≤ k) :
    l.value j ≤ l.value k := by
  have hmul := Int.mul_nonneg (Int.natCast_nonneg (k - j)) (h.trend.1 hup).le
  rw [← Nat.add_sub_of_le hjk, value_add]
  omega

/-- A bound that is not negative is exact: a negative index is above it as an `unsigned`, and from a lower bound
that is not negative on no index is. -/
theorem Regular.blocks_of_shifted_nonneg (h : l.Regular) (hf2 : 2 ≤ f) (hsign : l.sign = true)
    (hstep : l.step_sign = false) (hup : l.upward = true) (hshifted : 0 ≤ l.shifted f) :
    Blocks (fun j => some (decide (l.value (j * f) % 4294967296 ≤ l.shifted f % 4294967296)))
      (l.CopiesOk f) f l.count := by
  have hstride := stride_eq_step_of_upward hup
  have hlower := l.lower_bounds hsign
  have hgrows : ∀ k, l.lower_bound ≤ l.value k := fun k => by
    have hle := h.value_monotone hup k.zero_le
    rwa [← Nat.zero_mul f, value_zero_mul] at hle
  have hsmall : l.shifted f < 2147483648 := by
    have hclosed := closed_le_of_upward hup
    have hmul := Int.mul_nonneg (h.trend.1 hup).le (Int.natCast_nonneg (f - 1))
    rw [hsign, least_true] at hclosed
    unfold shifted
    omega
  by_cases hneg : l.lower_bound < 0
  · refine blocks_of_stop ?_
    rw [value_zero_mul, Option.some_inj, decide_eq_false_iff_not]
    omega
  · refine (blocks_iff_of_exact (by omega) fun j hj => ?_).2 fun j _ _ _ k _ _ => ?_
    · have hvalue := h.value_bounds hsign hj
      have hgrows := hgrows (j * f)
      rw [← h.passes_shifted (by omega) hstride, passes_of_unsigned hstep, Option.some_inj,
        decide_eq_decide]
      omega
    · exact (not_lt.1 hneg).trans (hgrows _)

theorem Regular.blocks_mixed_up (h : l.Regular) (hf2 : 2 ≤ f) (hsign : l.sign = true)
    (hstep : l.step_sign = false) (hup : l.upward = true) :
    Blocks (fun j => some (l.passes (l.value (j * f) % 4294967296) (l.shifted f % 4294967296)))
      (l.CopiesOk f) f l.count ↔ l.ExactMixedUp f := by
  unfold ExactMixedUp
  simp only [passes_of_unsigned hstep]
  by_cases hshifted : 0 ≤ l.shifted f
  · exact iff_of_true (h.blocks_of_shifted_nonneg hf2 hsign hstep hup hshifted) (.inl hshifted)
  · -- The bound is a huge one: with an index that is not negative the unrolled loop does not stop.
    rw [or_iff_right hshifted, blocks_iff_of_runs_on]
    · rw [value_zero_mul, Option.some_inj, decide_eq_false_iff_not, not_le]
    · intro J hJ hle henter hok
      have hrange := h.shifted_inRange (by omega) (stride_eq_step_of_upward hup)
        ((Nat.le_mul_of_pos_left f hJ).trans hle)
      rw [hsign] at hrange
      have hbounds := inRange_int_iff.1 hrange
      have hone := hok 0 hJ hsign hstep 1 (by omega) Nat.one_ne_zero
      have hvalue := h.value_bounds hsign hle
      have hmono : l.value 1 ≤ l.value (J * f) :=
        h.value_monotone hup (Nat.mul_pos hJ (by omega))
      rw [Nat.zero_mul, Nat.zero_add] at hone
      rw [Option.some_inj, decide_eq_true_iff]
      omega

/-- The value after whole blocks of `f` steps. -/
theorem value_mul (l : ForStatement) (j f : Nat) : l.value (j * f) = l.lower_bound - j * (f * -l.stride) := by
  unfold value
  push_cast
  ring

/-- The last value of a block, one step before the next one. -/
theorem value_block_last (hf : 0 < f) (j : Nat) :
    l.value (j * f + (f - 1)) = l.value ((j + 1) * f) - l.stride := by
  have hlast : j * f + (f - 1) + 1 = (j + 1) * f := by
    rw [Nat.succ_mul]
    omega
  rw [← hlast, value_succ]
  ring

theorem Regular.value_antitone (h : l.Regular) (hdown : l.upward = false) {j k : Nat} (hjk : j ≤ k) :
    l.value k ≤ l.value j := by
  have hmul := Int.mul_nonpos_of_nonneg_of_nonpos (Int.natCast_nonneg (k - j)) (h.stride_neg hdown).le
  rw [← Nat.add_sub_of_le hjk, value_add]
  omega

/-- The last iteration of a full block of a loop downwards. -/
theorem Regular.mul_le_count_iff_of_down (h : l.Regular) (hdown : l.upward = false) (hf : 0 < f) (j : Nat) :
    (j + 1) * f ≤ l.count ↔ l.closed ≤ l.value ((j + 1) * f) - l.stride := by
  have hlast : (j + 1) * f ≤ l.count ↔ j * f + (f - 1) < l.count := by
    rw [Nat.succ_mul]
    omega
  rw [hlast, lt_count_iff, h.within_eq, hdown, if_neg (by decide), decide_eq_true_iff, value_block_last hf]

theorem block_eq (hf : 0 < f) : (f : Int) * -l.stride = (f - 1 : Nat) * -l.stride + -l.stride := by
  have hcast : (f : Int) = (f - 1 : Nat) + 1 := by omega
  nth_rewrite 1 [hcast]
  ring

/-- What is left of the lower bound where the index falls below zero with the block number `K`. -/
theorem emod_block (h : l.Regular) (hdown : l.upward = false) (hf : 0 < f) {K : Nat}
    (hneg : l.value ((K + 1) * f) < 0) (hlast : 0 ≤ l.value ((K + 1) * f) - l.stride) :
    l.lower_bound % (f * -l.stride) = l.value ((K + 1) * f) + f * -l.stride := by
  have hblock := block_eq (l := l) hf
  have hmul := Int.mul_nonneg (Int.natCast_nonneg (f - 1)) (Int.neg_nonneg.2 (h.stride_neg hdown).le)
  have hsum : l.lower_bound = l.value ((K + 1) * f) + f * -l.stride + (f * -l.stride) * K := by
    rw [value_mul]
    push_cast
    ring
  nth_rewrite 1 [hsum]
  rw [Int.add_mul_emod_self_left, Int.emod_eq_of_lt (by omega) (by omega)]

/-- The unrolled loop takes the blocks down to the one after which the index is negative, if that makes it larger
than the bound. -/
theorem Regular.blocks_below_zero (h : l.Regular) (hf : 0 < f) (hsign : l.sign = true)
    (hdown : l.upward = false) {K : Nat} {y : Int} (hK : (K + 1) * f ≤ l.count)
    (hneg : l.value ((K + 1) * f) < 0) (hlast : 0 ≤ l.value ((K + 1) * f) - l.stride)
    (henter : l.lower_bound ≤ y) (hstop : y < l.value ((K + 1) * f) + 4294967296) :
    Blocks (fun j => some (decide (l.value (j * f) % 4294967296 ≤ y))) (l.CopiesOk f) f l.count := by
  have hlower := l.lower_bounds hsign
  have hbelow := h.value_bounds hsign hK
  have hvalues : ∀ k ≤ K * f + (f - 1), 0 ≤ l.value k := by
    intro k hk
    have hle := h.value_antitone hdown hk
    rw [value_block_last hf] at hle
    omega
  refine ⟨K + 1, hK, fun j hj => ?_, ?_⟩
  · have hj := Nat.mul_le_mul_right f (Nat.lt_succ_iff.1 hj)
    have hfirst := h.value_le_lower hdown (j * f)
    have hvalue := hvalues (j * f) (by omega)
    refine ⟨?_, fun _ _ k hk _ => hvalues _ (by omega)⟩
    rw [Option.some_inj, decide_eq_true_iff]
    omega
  · rw [Option.some_inj, decide_eq_false_iff_not]
    omega

theorem Regular.blocks_mixed_down (h : l.Regular) (hf2 : 2 ≤ f) (hsign : l.sign = true)
    (hstep : l.step_sign = false) (hdown : l.upward = false) :
    Blocks (fun j => some (l.passes (l.value (j * f) % 4294967296) (l.shifted f % 4294967296)))
      (l.CopiesOk f) f l.count ↔ l.ExactMixedDown f := by
  have hneg := h.stride_neg hdown
  have hlower := l.lower_bounds hsign
  have hblock := block_eq (l := l) (show 0 < f by omega)
  have hmul := Int.mul_nonneg (Int.natCast_nonneg (f - 1)) (Int.neg_nonneg.2 hneg.le)
  have hshift : l.shifted f = l.closed + (f - 1 : Nat) * -l.stride := by
    unfold shifted
    ring
  unfold ExactMixedDown
  simp only [passes_of_unsigned hstep]
  constructor
  · rintro ⟨J, hJ, hblocks, hend⟩
    simp only [Option.some_inj, decide_eq_true_iff, decide_eq_false_iff_not, not_le] at hblocks hend
    rcases J with - | K
    · rw [value_zero_mul] at hend
      exact .inl hend
    · -- The copies of the last block read no negative index, and after it the index is negative.
      have henter := (hblocks 0 K.succ_pos).1
      have hlast := (hblocks K K.lt_succ_self).2 hsign hstep (f - 1) (by omega) (by omega)
      have hbelow := h.value_bounds hsign hJ
      have hfirst := h.value_le_lower hdown (K * f + (f - 1))
      have hclosed := (h.mul_le_count_iff_of_down hdown (by omega) K).1 hJ
      rw [value_zero_mul] at henter
      rw [value_block_last (by omega)] at hlast hfirst
      have hnegative : l.value ((K + 1) * f) < 0 := by omega
      have hrest := emod_block h hdown (by omega) hnegative hlast
      refine .inr ⟨by omega, ?_, ?_, ?_⟩ <;> rw [hrest] <;> omega
  · intro hexact
    by_cases hstop : l.shifted f % 4294967296 < l.lower_bound % 4294967296
    · refine blocks_of_stop ?_
      rw [value_zero_mul, Option.some_inj, decide_eq_false_iff_not]
      omega
    · obtain ⟨hlow, hrest, hbound, hwrap⟩ := hexact.resolve_left hstop
      obtain ⟨K, hK⟩ := Int.eq_ofNat_of_zero_le (Int.ediv_nonneg hlow (show 0 ≤ f * -l.stride by omega))
      have hvalue : l.value ((K + 1) * f) = l.lower_bound % (f * -l.stride) - f * -l.stride := by
        have hdiv := Int.mul_ediv_add_emod l.lower_bound (f * -l.stride)
        rw [hK] at hdiv
        rw [value_mul]
        push_cast
        linarith
      have hJ : (K + 1) * f ≤ l.count := (h.mul_le_count_iff_of_down hdown (by omega) K).2 (by omega)
      have hmod := Int.emod_lt_of_pos l.lower_bound (show 0 < f * -l.stride by omega)
      exact h.blocks_below_zero (by omega) hsign hdown hJ (by omega) (by omega) (by omega) (by omega)

theorem Regular.sameIterations_mixed (h : l.Regular) (hf2 : 2 ≤ f) (hf : f < 2147483648)
    (hsign : l.sign = true) (hstep : l.step_sign = false) : l.SameIterations w f ↔ l.ExactMixed f := by
  unfold ExactMixed
  split
  · next hone => exact h.sameIterations_byOne hf2 hf hsign hstep hone.1 hone.2
  · next hone =>
    have hunsigned : (l.sign && l.step_sign) = false := by
      rw [hstep, Bool.and_false]
    rw [h.sameIterations_unsigned_iff hf hunsigned fun hconst _ hstep => hone ⟨hconst, hstep⟩]
    refine and_congr_right fun _ => ?_
    cases hup : l.upward with
    | true => exact h.blocks_mixed_up hf2 hsign hstep hup
    | false => exact h.blocks_mixed_down hf2 hsign hstep hup

/-! ## The condition -/

/-- The condition for the unrolled loop and its epilogue to do the iterations of the loop. -/
def Exact (l : ForStatement) (f : Nat) : Prop :=
  if l.sign = false then l.ExactUnsigned f
  else if l.step_sign = false then l.ExactMixed f
  else l.ExactSigned f

instance : Decidable (l.Exact f) := inferInstanceAs (Decidable (ite _ _ (ite _ _ _)))

/-- A regular loop without jumps and what it is unrolled to run the body with the same indices in the same order,
exactly under the condition `Exact`. -/
theorem Regular.sameIterations_iff_exact (w : CValue) {l : ForStatement} {f : Nat} (h : l.Regular) (hf2 : 2 ≤ f)
    (hf : f < 2147483648) : l.SameIterations w f ↔ l.Exact f := by
  unfold Exact
  split
  · next hsign => exact h.sameIterations_unsigned hf2 hf hsign
  · next hsign =>
    have hsign : l.sign = true := Bool.eq_true_of_not_eq_false hsign
    split
    · next hstep => exact h.sameIterations_mixed hf2 hf hsign hstep
    · next hstep => exact h.sameIterations_signed hf2 hf hsign (Bool.eq_true_of_not_eq_false hstep)

end ForStatement

end OmpSs.Mcxx.LoopUnroll
