import OmpSs.Mcxx.LoopHeader
import OmpSs.Mcxx.MinimalInteger
import Mathlib.Data.Int.SuccPred

/-!
# When the bounds of a `for` statement are right

The analysis of a header (`LoopHeader`) is exact for a loop over the values of its type whose bound has a
neighbour in the type of the bound, whose increment goes the way the test looks, and which follows the loop
over exact integers: its comparisons give what the exact ones give, and it does not wrap around at its end.

What it gets wrong has four causes. The neighbour of an `unsigned` zero is a huge number. The conversions that
C makes for a comparison are lost. `i -= incr` on an `unsigned` variable becomes an addition, where `i--` has
the step minus one. And the step of `i = i + incr` is read off a conversion where the sum is of another type
than `i`. `denoted_iff` has the exact condition, with the loops for which two wrongs make a right.
-/

namespace OmpSs.Mcxx.LoopHeader

open Lib Cexpr
open CollapseCount (int32 zero_inRange inRange_int_iff inRange_unsigned_iff inRange_int32_iff convert_int32
  convert_unsigned32 result_int32 least_cases)
open CollapseCount.TypedLoop (least)
open LoopUnroll (Test minimalInteger constant)

/-! ## The condition -/

/-- The step that stands for `-= incr`: in the arithmetic of `unsigned`, or for a constant in the wide word of
the compiler, or in the arithmetic of `int`. -/
def Operand.negated (w : CValue) (sign : Bool) (o : Operand) : Option Int :=
  if sign = false then some (-o.value % 4294967296)
  else if o.constant then some (BitVec.ofInt w.bits (-o.value)).toInt
  else (int32 true).result (-(int32 true).convert o.value)

/-- The amount of an increment; `none`: the operands of an assigned sum do not have the type of the induction
variable, or a negation overflows. -/
def Increment.amount (w : CValue) (sign : Bool) : Increment → Option Int
  | .preincrement => some 1
  | .postincrement => some 1
  | .predecrement => some (-1)
  | .postdecrement => some (-1)
  | .addAssignment incr => some ((int32 sign).convert incr.value)
  | .minusAssignment incr => incr.negated w sign
  | .assignAdd incr =>
    if commonBytes (int32 sign) incr.type = int32 sign then some ((int32 sign).convert incr.value) else none
  | .assignAddLeft incr =>
    if commonBytes (int32 sign) incr.type = int32 sign then some ((int32 sign).convert incr.value) else none
  | .assignMinus incr =>
    if commonBytes (int32 sign) incr.type = int32 sign then incr.negated w sign else none

namespace Header

variable (w : CValue) (h : Header)

/-- The induction variable has to stay below the bound. -/
def upward : Bool := match h.test with
  | .lowerThan => h.lhs_is_var
  | .lowerOrEqual => h.lhs_is_var
  | .greaterThan => !h.lhs_is_var
  | .greaterOrEqual => !h.lhs_is_var

def strict : Bool := match h.test with
  | .lowerThan => true
  | .lowerOrEqual => false
  | .greaterThan => true
  | .greaterOrEqual => false

/-- The last integer that passes the test. -/
def closed : Int := if h.strict then h.bound.value + (if h.upward then -1 else 1) else h.bound.value

/-- The integer next to the bound that one of the analyses needs. -/
def neighbour : Int := h.bound.value + (if h.strict = h.upward then -1 else 1)

/-- The type of the bound after the integral promotions. -/
def boundType : IntType := commonBytes h.bound.type .signedInt

/-- The type of the bound has the neighbour, or the wide word of the compiler for a signed constant. -/
def NeighbourExact : Prop :=
  if h.bound.constant && h.boundType.sign then w.InRange true h.neighbour else h.boundType.InRange h.neighbour

instance : Decidable (h.NeighbourExact w) := by
  unfold NeighbourExact
  infer_instance

/-- The neighbour is one of the other end of an unsigned type. -/
def NeighbourWraps : Prop := h.boundType.sign = false ∧ ¬ h.boundType.InRange h.neighbour

instance : Decidable h.NeighbourWraps := inferInstanceAs (Decidable (_ ∧ _))

/-- The loop follows the one over exact integers. -/
def FollowsExact (step : Int) : Prop :=
  FollowsRange h.passes h.var.convert h.start step (tripCount h.start h.closed step)

instance (step : Int) : Decidable (h.FollowsExact step) := inferInstanceAs (Decidable (FollowsRange _ _ _ _ _))

/-- The condition for a loop with an exact neighbour. With a step against the test, nothing is an iteration of
the loop or of the ranges, but for a negative start that passes as an unsigned number. -/
def AgreesExact (step : Int) : Prop :=
  if h.upward then
    if 0 < step then h.FollowsExact step
    else if step = 0 then h.passes h.start = decide (h.start ≤ h.closed)
    else h.passes h.start = false ∧ h.start < h.closed
  else
    if step < 0 then h.FollowsExact step
    else (h.passes h.start = false ∧ h.closed < h.start) ∨
      (h.passes h.start = true ∧ h.start ≤ h.closed - 2 ∧
        (step = 0 ∨ h.closed < h.start + step ∧ h.passes (h.var.convert (h.start + step)) = false))

instance (step : Int) : Decidable (h.AgreesExact step) := by
  unfold AgreesExact
  infer_instance

/-- The condition for a loop whose neighbour is at the other end of the type, so that its test holds of nothing
or of everything. -/
def AgreesWrapped (step : Int) : Prop :=
  if h.strict then
    if h.upward then step < 0 ∧ h.start ≤ h.bound.value
    else if step < 0 then h.start < 0 else h.bound.value ≤ h.start
  else step = 0 ∧ if h.upward then h.start < 0 else h.start ≤ h.bound.value

instance (step : Int) : Decidable (h.AgreesWrapped step) := by
  unfold AgreesWrapped
  infer_instance

/-- The condition for the analyses to be right. -/
def Exact : Prop :=
  ∃ step, h.next.amount w h.sign = some step ∧
    (h.NeighbourExact w ∧ h.AgreesExact step ∨ h.NeighbourWraps ∧ h.AgreesWrapped step)

end Header

/-! ## Constants -/

section
variable {w : CValue} {var : IntType} {o : Operand} {z : Int}

theorem word_operand (w : CValue) (o : Operand) :
    (constValueGetInteger (BitVec.ofInt w.bits o.value) o.type).i = BitVec.ofInt w.bits o.value := by
  cases hs : o.type.sign with
  | true => exact constValueGetInteger_of_sign _ hs
  | false =>
    have hrange := (inRange_of_not_sign hs).1 o.inRange
    rw [getInteger_ofInt hs, Int.emod_eq_of_lt hrange.1 hrange.2]

theorem stored_getInteger (w : CValue) (t : IntType) (z : Int) :
    (constValueGetInteger (BitVec.ofInt w.bits z) t).stored =
      if t.sign then (BitVec.ofInt w.bits z).toInt else z % (2 : Int) ^ t.bits := by
  unfold ConstValue.stored
  rw [type_constValueGetInteger]
  cases hs : t.sign with
  | true =>
    rw [constValueGetInteger_of_sign _ hs]
    rfl
  | false =>
    have hpos : (0 : Int) < 2 ^ t.bits := Int.pow_pos (by decide)
    rw [getInteger_ofInt hs]
    refine Word.toNat_ofInt_of_mem (Int.emod_nonneg z hpos.ne') ?_
    exact (Int.emod_lt_of_pos z hpos).trans_le (Cexpr.pow_le_pow (t.bits_le w))

theorem eval_constValueToNodecl (c : ConstValue w) : (constValueToNodecl c).eval var = some c.stored := rfl

theorem toNodecl_getOne : constValueToNodecl (constValueGetOne w) = .integerLiteral .signedInt 1 := by
  have hstored : (constValueGetOne w).stored = 1 := LoopUnroll.stored_constant fun _ => by decide
  unfold constValueToNodecl
  rw [hstored]
  rfl

theorem eval_getMinusOne : (constValueToNodecl (constValueGetMinusOne w)).eval var = some (-1) :=
  congrArg some (LoopUnroll.stored_constant fun _ => by decide)

theorem constant_operand (w : CValue) (o : Operand) : (Nodecl.operand o).constant w =
    if o.constant then some (constValueGetInteger (BitVec.ofInt w.bits o.value) o.type) else none := rfl

/-- One is added to a constant or taken from it. -/
theorem fold_getOne {op : Arith} {d : Int} (hop : op = .add ∧ d = 1 ∨ op = .sub ∧ d = -1) (w : CValue)
    (o : Operand) :
    op.fold (constValueGetInteger (BitVec.ofInt w.bits o.value) o.type) (constValueGetOne w) =
      some (constValueGetInteger (BitVec.ofInt w.bits (o.value + d)) (commonBytes o.type .signedInt)) := by
  have hone : (constValueGetOne w).i = BitVec.ofInt w.bits 1 := LoopUnroll.word_constant
  have htype : (constValueGetOne w).type = .signedInt := LoopUnroll.type_constant
  rw [Arith.fold_eq, binopFun, type_constValueGetInteger, htype, word_operand, hone]
  rcases hop with ⟨rfl, rfl⟩ | ⟨rfl, rfl⟩
  · rw [BitVec.ofInt_add]
    simp only [Arith.si, Arith.ui, ite_self, Option.map_some]
  · rw [← Int.sub_eq_add_neg, Lib.Word.ofInt_sub]
    simp only [Arith.si, Arith.ui, ite_self, Option.map_some]

/-! ## The neighbour -/

/-- The common type has the value, but a negative one where it is unsigned. -/
theorem inRange_common {t u : IntType} (hz : t.InRange z) (hneg : (commonBytes t u).sign = false → 0 ≤ z) :
    (commonBytes t u).InRange z := by
  cases hs : (commonBytes t u).sign with
  | true => exact hz.widen hs (commonBytes_signed hs).1.1 (commonBytes_signed hs).1.2
  | false =>
    exact (inRange_of_not_sign hs).2 ⟨hneg hs, (hz.bounds (commonBytes_unsigned hs).1).2⟩

theorem commonBytes_comm (t u : IntType) : commonBytes t u = commonBytes u t := by
  obtain ⟨b, s⟩ := t
  obtain ⟨b', s'⟩ := u
  cases b <;> cases b' <;> cases s <;> cases s' <;> rfl

/-- The promotions keep the value. -/
theorem inRange_promoted (o : Operand) : (commonBytes o.type .signedInt).InRange o.value := by
  refine inRange_common o.inRange fun hs => ?_
  have hunsigned := (commonBytes_unsigned hs).2.2.resolve_right (by decide)
  exact ((inRange_of_not_sign hunsigned).1 o.inRange).1

theorem inRange_one (t : IntType) : (commonBytes t .signedInt).InRange 1 := by
  rw [commonBytes_comm]
  exact inRange_common (by decide) fun _ => by decide

/-- The value of the bound next to one: of a constant in the wide word, if it is signed. -/
def Operand.moved (w : CValue) (o : Operand) (d : Int) : Option Int :=
  let t := commonBytes o.type .signedInt
  if o.constant then
    some (if t.sign then (BitVec.ofInt w.bits (o.value + d)).toInt else (o.value + d) % (2 : Int) ^ t.bits)
  else t.result (o.value + d)

theorem nextToBound_eq {op : Arith} {d : Int} (hop : op = .add ∧ d = 1 ∨ op = .sub ∧ d = -1) (w : CValue)
    (var : IntType) (o : Operand) : ∃ e, nextToBound w op (.operand o) = some e ∧ e.eval var = o.moved w d := by
  unfold nextToBound Operand.moved
  rw [constant_operand]
  cases o.constant with
  | true =>
    simp only [if_true, fold_getOne hop, Option.map_some]
    exact ⟨_, rfl, by rw [eval_constValueToNodecl, stored_getInteger]⟩
  | false =>
    refine ⟨_, rfl, ?_⟩
    rw [toNodecl_getOne]
    show op.value (commonBytes o.type .signedInt) ((commonBytes o.type .signedInt).convert o.value)
      ((commonBytes o.type .signedInt).convert 1) = _
    rw [convert_of_inRange (inRange_promoted o), convert_of_inRange (inRange_one _)]
    rcases hop with ⟨rfl, rfl⟩ | ⟨rfl, rfl⟩
    · rfl
    · rfl

end

/-! ## What the analyses find -/

section
variable {w : CValue} {var : IntType} {o : Operand} {sign : Bool}

theorem inRange_convert (t : IntType) (z : Int) : t.InRange (t.convert z) := t.read_inRange _

theorem convert_convert (t : IntType) (z : Int) : t.convert (t.convert z) = t.convert z :=
  convert_of_inRange (inRange_convert t z)

theorem eval_makeConversion (o : Operand) :
    (makeConversion var var (.operand o)).eval var = some (var.convert o.value) := by
  unfold makeConversion
  split
  · next h => exact congrArg some (convert_of_inRange (by rw [← h]; exact o.inRange)).symm
  · rfl

theorem type_makeConversion (var t : IntType) (e : Nodecl) : (makeConversion var t e).type var = t := by
  unfold makeConversion
  split
  · next h => exact h
  · rfl

/-- The constant of an operand that is converted to the type of the induction variable. -/
theorem constant_makeConversion (w : CValue) (o : Operand) :
    (makeConversion (int32 sign) (int32 sign) (.operand o)).constant w =
      if o.constant then some (constValueGetInteger (BitVec.ofInt w.bits o.value) (int32 sign)) else none := by
  unfold makeConversion
  split
  · next h =>
    rw [constant_operand]
    rw [show o.type = int32 sign from h]
  · rw [Nodecl.constant, constant_operand]
    cases o.constant with
    | true =>
      simp only [if_true, Option.map_some, constValueCastToBytes, word_operand]
    | false => rfl

theorem word_getInteger (w : CValue) (sign : Bool) (z : Int) :
    (constValueNeg (constValueGetInteger (BitVec.ofInt w.bits z) (int32 sign))).stored =
      if sign then (BitVec.ofInt w.bits (-z)).toInt else -z % 4294967296 := by
  unfold constValueNeg
  rw [type_constValueGetInteger]
  cases sign with
  | true =>
    rw [constValueGetInteger_of_sign _ rfl, ← BitVec.ofInt_neg, stored_getInteger]
    rfl
  | false =>
    rw [getInteger_ofInt rfl, ← BitVec.ofInt_neg, stored_getInteger]
    show -(z % 4294967296) % 4294967296 = -z % 4294967296
    omega

theorem eval_negated (o : Operand) :
    (negated w (makeConversion (int32 sign) (int32 sign) (.operand o))).eval (int32 sign) = o.negated w sign := by
  unfold negated Operand.negated
  rw [constant_makeConversion]
  cases o.constant with
  | true =>
    simp only [if_true]
    rw [eval_constValueToNodecl, word_getInteger]
    cases sign <;> rfl
  | false =>
    simp only [Bool.false_eq_true, if_false]
    rw [Nodecl.eval, eval_makeConversion, type_makeConversion]
    cases sign with
    | true =>
      show (int32 true).result (-(int32 true).convert ((int32 true).convert o.value)) = _
      rw [convert_convert]
      rfl
    | false =>
      show (int32 false).result (-(int32 false).convert ((int32 false).convert o.value)) = _
      rw [convert_convert, convert_unsigned32]
      refine congrArg some (show -(o.value % 4294967296) % 4294967296 = -o.value % 4294967296 from ?_)
      omega

theorem noConv_makeConversion (var t : IntType) (e : Nodecl) : (makeConversion var t e).noConv = e.noConv := by
  unfold makeConversion
  split <;> rfl

theorem isVar_makeConversion (var t : IntType) (e : Nodecl) : (makeConversion var t e).isVar = e.isVar := by
  unfold Nodecl.isVar
  rw [noConv_makeConversion]

theorem eval_makeConversion_symbol (var t : IntType) : (makeConversion var t .symbol).eval var = none := by
  unfold makeConversion
  split <;> rfl

theorem commonBytes_self (t : IntType) : commonBytes t t = t := if_pos ⟨rfl, rfl⟩

/-- A sum of the type of the induction variable. -/
theorem makeAssignment_of_eq (var : IntType) (op : Arith) (lhs rhs : Nodecl)
    (hc : commonBytes (lhs.type var) (rhs.type var) = var) :
    makeAssignment var op lhs rhs =
      .assignment .symbol (.arith op (makeConversion var var lhs) (makeConversion var var rhs)) := by
  unfold makeAssignment
  rw [hc]
  refine congrArg _ (if_pos ?_)
  rw [Nodecl.type, type_makeConversion, type_makeConversion, commonBytes_self]

/-- A sum of another type is converted back. -/
theorem makeAssignment_of_ne (var : IntType) (op : Arith) (lhs rhs : Nodecl)
    (hc : commonBytes (lhs.type var) (rhs.type var) ≠ var) :
    makeAssignment var op lhs rhs = .assignment .symbol (.conversion var
      (.arith op (makeConversion var (commonBytes (lhs.type var) (rhs.type var)) lhs)
        (makeConversion var (commonBytes (lhs.type var) (rhs.type var)) rhs))) := by
  unfold makeAssignment
  refine congrArg _ (if_neg ?_)
  rwa [Nodecl.type, type_makeConversion, type_makeConversion, commonBytes_self]

theorem analyzeNext_assignAdd (o : Operand) :
    ∃ step, analyzeNext w ((Increment.assignAdd o).next (int32 sign)) = some step ∧
      (step.bind fun e => e.eval (int32 sign)) = (Increment.assignAdd o).amount w sign := by
  by_cases hc : commonBytes (int32 sign) o.type = int32 sign
  · refine ⟨some (makeConversion (int32 sign) (int32 sign) (.operand o)), ?_, ?_⟩
    · rw [Increment.next, makeAssignment_of_eq (int32 sign) .add .symbol (.operand o) hc]
      simp only [analyzeNext, Nodecl.noConv, isVar_makeConversion]
      rfl
    · rw [Increment.amount, if_pos hc]
      exact eval_makeConversion o
  · refine ⟨none, ?_, (if_neg hc).symm⟩
    rw [Increment.next, makeAssignment_of_ne (int32 sign) .add .symbol (.operand o) hc]
    simp only [analyzeNext, Nodecl.noConv, isVar_makeConversion]
    rfl

/-- The sum as a whole is taken for the step where it is converted. -/
theorem analyzeNext_assignAddLeft (o : Operand) :
    ∃ step, analyzeNext w ((Increment.assignAddLeft o).next (int32 sign)) = some step ∧
      (step.bind fun e => e.eval (int32 sign)) = (Increment.assignAddLeft o).amount w sign := by
  by_cases hc : commonBytes (int32 sign) o.type = int32 sign
  · refine ⟨some (makeConversion (int32 sign) (int32 sign) (.operand o)), ?_, ?_⟩
    · rw [Increment.next, makeAssignment_of_eq (int32 sign) .add (.operand o) .symbol ((commonBytes_comm _ _).trans hc)]
      simp only [analyzeNext, Nodecl.noConv, isVar_makeConversion]
      rfl
    · rw [Increment.amount, if_pos hc]
      exact eval_makeConversion o
  · have hc' : commonBytes ((Nodecl.operand o).type (int32 sign)) (Nodecl.symbol.type (int32 sign)) ≠
        int32 sign := by
      rw [commonBytes_comm]
      exact hc
    refine ⟨some (.arith .add (makeConversion (int32 sign) (commonBytes o.type (int32 sign)) (.operand o))
      (makeConversion (int32 sign) (commonBytes o.type (int32 sign)) .symbol)), ?_, ?_⟩
    · rw [Increment.next, makeAssignment_of_ne (int32 sign) .add (.operand o) .symbol hc']
      simp only [analyzeNext, Nodecl.noConv, isVar_makeConversion]
      rfl
    · rw [Increment.amount, if_neg hc, Option.bind_some, Nodecl.eval,
        eval_makeConversion_symbol]
      simp

theorem analyzeNext_assignMinus (o : Operand) :
    ∃ step, analyzeNext w ((Increment.assignMinus o).next (int32 sign)) = some step ∧
      (step.bind fun e => e.eval (int32 sign)) = (Increment.assignMinus o).amount w sign := by
  by_cases hc : commonBytes (int32 sign) o.type = int32 sign
  · refine ⟨some (negated w (makeConversion (int32 sign) (int32 sign) (.operand o))), ?_, ?_⟩
    · rw [Increment.next, makeAssignment_of_eq (int32 sign) .sub .symbol (.operand o) hc]
      simp only [analyzeNext, Nodecl.noConv, isVar_makeConversion]
      rfl
    · rw [Increment.amount, if_pos hc]
      exact eval_negated o
  · refine ⟨none, ?_, (if_neg hc).symm⟩
    rw [Increment.next, makeAssignment_of_ne (int32 sign) .sub .symbol (.operand o) hc]
    simp only [analyzeNext, Nodecl.noConv, isVar_makeConversion]
    rfl

/-- The step that is found has the amount of the increment as its value. -/
theorem analyzeNext_eq (w : CValue) (sign : Bool) (incr : Increment) : ∃ step,
     analyzeNext w (incr.next (int32 sign)) = some step ∧
    (step.bind fun e => e.eval (int32 sign)) = incr.amount w sign := by
  have hone : (constValueToNodecl (constValueGetOne w)).eval (int32 sign) = some 1 := by
    rw [toNodecl_getOne]
    rfl
  have hminus : (constValueToNodecl (constValueGetMinusOne w)).eval (int32 sign) = some (-1) := eval_getMinusOne
  cases incr with
  | preincrement => exact ⟨_, rfl, hone⟩
  | postincrement => exact ⟨_, rfl, hone⟩
  | predecrement => exact ⟨_, rfl, hminus⟩
  | postdecrement => exact ⟨_, rfl, hminus⟩
  | addAssignment o => exact ⟨_, rfl, eval_makeConversion o⟩
  | minusAssignment o => exact ⟨_, rfl, eval_negated o⟩
  | assignAdd o => exact analyzeNext_assignAdd o
  | assignAddLeft o => exact analyzeNext_assignAddLeft o
  | assignMinus o => exact analyzeNext_assignMinus o

end

namespace Header

/-- The bound that the first analysis finds. -/
def boundOld (w : CValue) (h : Header) : Option Int :=
  if h.strict then h.bound.moved w (if h.upward then -1 else 1) else some h.bound.value

/-- The bound that the second analysis finds. -/
def boundNew (w : CValue) (h : Header) : Option Int :=
  if h.strict then some h.bound.value else h.bound.moved w (if h.upward then 1 else -1)

variable {w : CValue} {h : Header}

theorem analyzeTestOld_eq : ∃ e trend, analyzeTestOld w h.loopControl = some (e, trend) ∧
    e.eval h.var = h.boundOld w := by
  obtain ⟨a, ha, hadd⟩ := nextToBound_eq (.inl ⟨rfl, rfl⟩) w h.var h.bound
  obtain ⟨s, hs, hsub⟩ := nextToBound_eq (.inr ⟨rfl, rfl⟩) w h.var h.bound
  unfold analyzeTestOld loopControl boundOld strict upward
  cases h.test <;> cases h.lhs_is_var <;>
    simp [Nodecl.isVar, Nodecl.noConv, Nodecl.eval, ha, hs, hadd, hsub]

theorem analyzeTestNew_eq : ∃ e trend, analyzeTestNew w h.loopControl = some (e, trend) ∧
    e.eval h.var = h.boundNew w := by
  obtain ⟨a, ha, hadd⟩ := nextToBound_eq (.inl ⟨rfl, rfl⟩) w h.var h.bound
  obtain ⟨s, hs, hsub⟩ := nextToBound_eq (.inr ⟨rfl, rfl⟩) w h.var h.bound
  unfold analyzeTestNew loopControl boundNew strict upward
  cases h.test <;> cases h.lhs_is_var <;>
    simp [Nodecl.isVar, Nodecl.noConv, Nodecl.eval, ha, hs, hadd, hsub]

/-- The loop has the index values of an exact one. -/
def Runs (h : Header) (upper step : Int) : Prop := ∀ k, h.indices k = rangeAt upper step k h.start

theorem eval_init : h.loopControl.init.eval h.var = some h.start := eval_makeConversion h.init

/-- What an analysis finds is the value of its bound and the amount of the increment. -/
theorem values_iff {e : Nodecl} {s : Option Nodecl} {trend : LoopTrend} {bound : Option Int}
    (hupper : e.eval h.var = bound) (hstep : (s.bind fun e => e.eval h.var) = h.next.amount w h.sign)
    {lower upper step : Int} :
    (ForStatementInfo.mk h.loopControl.init e s trend).Values h.var lower upper step ↔
      lower = h.start ∧ bound = some upper ∧ h.next.amount w h.sign = some step := by
  unfold ForStatementInfo.Values
  rw [hupper, hstep, eval_init, Option.some_inj, eq_comm]

theorem closed_iff : (∃ r, analyzeLoopHeaderOld w h.loopControl = some r ∧ r.Closed h.var h.indices) ↔
    ∃ upper step, h.boundOld w = some upper ∧ h.next.amount w h.sign = some step ∧ h.Runs upper step := by
  obtain ⟨e, trend, htest, hupper⟩ := analyzeTestOld_eq (w := w) (h := h)
  obtain ⟨s, hnext, hstep⟩ := analyzeNext_eq w h.sign h.next
  have hanalysis : analyzeLoopHeaderOld w h.loopControl = some ⟨h.loopControl.init, e, s, trend⟩ := by
    unfold analyzeLoopHeaderOld
    rw [htest, show analyzeNext w h.loopControl.next = some s from hnext]
    rfl
  rw [hanalysis]
  constructor
  · rintro ⟨_, ⟨rfl⟩, lower, upper, step, hvalues, hall⟩
    obtain ⟨rfl, hbound, hamount⟩ := (values_iff hupper hstep).1 hvalues
    exact ⟨upper, step, hbound, hamount, hall⟩
  · rintro ⟨upper, step, hbound, hamount, hall⟩
    exact ⟨_, rfl, h.start, upper, step, (values_iff hupper hstep).2 ⟨rfl, hbound, hamount⟩, hall⟩

/-- A half-open range, as a closed one. -/
theorem withinOpen_eq (upper step : Int) :
    withinOpen upper step = within (if step < 0 then upper + 1 else upper - 1) step := by
  funext v
  unfold withinOpen within
  split <;> exact decide_eq_decide.2 (by omega)

theorem halfOpen_iff : (∃ r, analyzeLoopHeaderNew w h.loopControl = some r ∧ r.HalfOpen h.var h.indices) ↔
    ∃ upper step, h.boundNew w = some upper ∧ h.next.amount w h.sign = some step ∧
      h.Runs (if step < 0 then upper + 1 else upper - 1) step := by
  obtain ⟨e, trend, htest, hupper⟩ := analyzeTestNew_eq (w := w) (h := h)
  obtain ⟨s, hnext, hstep⟩ := analyzeNext_eq w h.sign h.next
  have hanalysis : analyzeLoopHeaderNew w h.loopControl = some ⟨h.loopControl.init, e, s, trend⟩ := by
    unfold analyzeLoopHeaderNew
    rw [htest, show analyzeNext w h.loopControl.next = some s from hnext]
    rfl
  rw [hanalysis]
  unfold Runs rangeAt
  constructor
  · rintro ⟨_, ⟨rfl⟩, lower, upper, step, hvalues, hall⟩
    obtain ⟨rfl, hbound, hamount⟩ := (values_iff hupper hstep).1 hvalues
    exact ⟨upper, step, hbound, hamount, by rwa [withinOpen_eq] at hall⟩
  · rintro ⟨upper, step, hbound, hamount, hall⟩
    exact ⟨_, rfl, h.start, upper, step, (values_iff hupper hstep).2 ⟨rfl, hbound, hamount⟩,
      by rwa [withinOpen_eq]⟩

theorem denoted_iff_runs : h.Denoted w ↔ ∃ old new step, h.boundOld w = some old ∧ h.boundNew w = some new ∧
    h.next.amount w h.sign = some step ∧ h.Runs old step ∧
      h.Runs (if step < 0 then new + 1 else new - 1) step := by
  unfold Denoted
  rw [closed_iff, halfOpen_iff]
  constructor
  · rintro ⟨⟨old, step, hold, hamount, hclosed⟩, new, step', hnew, hamount', hopen⟩
    obtain rfl := Option.some.inj (hamount.symm.trans hamount')
    exact ⟨old, new, step, hold, hnew, hamount, hclosed, hopen⟩
  · rintro ⟨old, new, step, hold, hnew, hamount, hclosed, hopen⟩
    exact ⟨⟨old, step, hold, hamount, hclosed⟩, new, step, hnew, hamount, hopen⟩

end Header

/-! ## Increments -/

section
variable {w : CValue} {sign : Bool} {var t : IntType} {i u x y z : Int}

theorem bits_dvd_common (var t : IntType) : (2 : Int) ^ var.bits ∣ 2 ^ (commonBytes var t).bits := by
  refine pow_dvd_pow 2 ?_
  obtain ⟨b, s⟩ := var
  obtain ⟨c, s'⟩ := t
  cases b <;> cases s <;> cases c <;> cases s' <;> decide

theorem convert_modEq (t : IntType) (z : Int) : t.convert z ≡ z [ZMOD (2 : Int) ^ t.bits] := by
  cases hs : t.sign with
  | true =>
    rw [IntType.convert, IntType.read, if_pos hs, BitVec.toInt_ofInt]
    have hbmod := Int.bmod_emod (x := z) (m := 2 ^ t.bits)
    push_cast at hbmod
    exact hbmod
  | false =>
    rw [convert_unsigned hs]
    exact Int.mod_modEq _ _

theorem result_modEq (h : t.result z = some x) : x ≡ z [ZMOD (2 : Int) ^ t.bits] := by
  cases hs : t.sign with
  | true => rw [(result_signed hs h).1]
  | false =>
    rw [result_unsigned hs h]
    exact Int.mod_modEq _ _

theorem convert_congr (h : x ≡ y [ZMOD (2 : Int) ^ t.bits]) : t.convert x = t.convert y := by
  have hbits : BitVec.ofInt t.bits x = BitVec.ofInt t.bits y := by
    have hemod : x % (2 : Int) ^ t.bits = y % (2 : Int) ^ t.bits := h
    rw [← BitVec.toNat_inj, BitVec.toNat_ofInt, BitVec.toNat_ofInt]
    push_cast
    rw [hemod]
  rw [IntType.convert, hbits, IntType.convert]

/-- The conversion to the common type does not show in the variable. -/
theorem assigned_add (h : assigned var .add t z i = some u) : u = var.convert (i + z) := by
  obtain ⟨r, hr, rfl⟩ := Option.map_eq_some_iff.1 h
  have hcommon := (result_modEq hr).trans ((convert_modEq _ i).add (convert_modEq _ z))
  exact convert_congr (hcommon.of_dvd (bits_dvd_common var t))

theorem assigned_sub (h : assigned var .sub t z i = some u) : u = var.convert (i - z) := by
  obtain ⟨r, hr, rfl⟩ := Option.map_eq_some_iff.1 h
  have hcommon := (result_modEq hr).trans ((convert_modEq _ i).sub (convert_modEq _ z))
  exact convert_congr (hcommon.of_dvd (bits_dvd_common var t))

/-- An amount stands for its increment in the arithmetic of the induction variable. -/
theorem negated_modEq {o : Operand} (h : o.negated w sign = some x) : x ≡ -o.value [ZMOD 4294967296] := by
  unfold Operand.negated at h
  split at h
  · obtain rfl := Option.some.inj h
    exact Int.mod_modEq _ _
  · split at h
    · obtain rfl := Option.some.inj h
      have hbmod := Int.bmod_emod (x := -o.value) (m := 2 ^ w.bits)
      push_cast at hbmod
      rw [BitVec.toInt_ofInt]
      have hmod : (-o.value).bmod (2 ^ w.bits) ≡ -o.value [ZMOD (2 : Int) ^ w.bits] := hbmod
      exact hmod.of_dvd (pow_dvd_pow 2 (show 32 ≤ w.bits by cases w <;> decide))
    · exact (result_modEq h).trans (convert_modEq (int32 true) o.value).neg

theorem advance_eq {incr : Increment} (hamount : incr.amount w sign = some x)
    (h : incr.advance (int32 sign) i = some u) : u = (int32 sign).convert (i + x) := by
  have hconvert : ∀ {z : Int}, some ((int32 sign).convert z) = some x → (int32 sign).convert (i + z) =
      (int32 sign).convert (i + x) := by
    rintro z ⟨rfl⟩
    exact convert_congr ((convert_modEq (int32 sign) z).symm.add_left i)
  have hnegated : ∀ {o : Operand}, o.negated w sign = some x → (int32 sign).convert (i - o.value) =
      (int32 sign).convert (i + x) := by
    intro o ho
    rw [Int.sub_eq_add_neg]
    exact convert_congr ((negated_modEq ho).symm.add_left i)
  cases incr with
  | preincrement => obtain rfl := Option.some.inj hamount; exact assigned_add h
  | postincrement => obtain rfl := Option.some.inj hamount; exact assigned_add h
  | predecrement => obtain rfl := Option.some.inj hamount; exact assigned_sub h
  | postdecrement => obtain rfl := Option.some.inj hamount; exact assigned_sub h
  | addAssignment o => rw [assigned_add h, hconvert hamount]
  | minusAssignment o => rw [assigned_sub h, hnegated hamount]
  | assignAdd o => rw [assigned_add h, hconvert (Option.ite_none_right_eq_some.1 hamount).2]
  | assignAddLeft o => rw [assigned_add h, hconvert (Option.ite_none_right_eq_some.1 hamount).2]
  | assignMinus o => rw [assigned_sub h, hnegated (Option.ite_none_right_eq_some.1 hamount).2]

/-- Of an `unsigned` variable only the decrements have a negative amount. -/
theorem amount_unsigned {incr : Increment} (hamount : incr.amount w false = some x) : x = -1 ∨ 0 ≤ x := by
  have hconvert : ∀ z, 0 ≤ (int32 false).convert z := fun z =>
    (inRange_unsigned_iff.1 (inRange_convert (int32 false) z)).1
  have hnegated : ∀ o : Operand, o.negated w false = some x → 0 ≤ x := by
    rintro o ⟨rfl⟩
    exact Int.emod_nonneg _ (by decide)
  cases incr with
  | preincrement => cases hamount; exact .inr (by decide)
  | postincrement => cases hamount; exact .inr (by decide)
  | predecrement => cases hamount; exact .inl rfl
  | postdecrement => cases hamount; exact .inl rfl
  | addAssignment o => cases hamount; exact .inr (hconvert _)
  | minusAssignment o => exact .inr (hnegated o hamount)
  | assignAdd o =>
    obtain ⟨-, ⟨rfl⟩⟩ := Option.ite_none_right_eq_some.1 hamount
    exact .inr (hconvert _)
  | assignAddLeft o =>
    obtain ⟨-, ⟨rfl⟩⟩ := Option.ite_none_right_eq_some.1 hamount
    exact .inr (hconvert _)
  | assignMinus o => exact .inr (hnegated o (Option.ite_none_right_eq_some.1 hamount).2)

end

namespace Header

variable {w : CValue} {h : Header} {i step upper : Int}

/-! ## The test -/

/-- The type in which the test is made. -/
def common (h : Header) : IntType := commonBytes h.var h.bound.type

theorem passes_upward (hup : h.upward = true) (i : Int) : h.passes i =
    decide (h.common.convert i ≤ h.common.convert h.bound.value + (h.closed - h.bound.value)) := by
  unfold upward at hup
  unfold passes closed strict upward common Test.rel
  cases htest : h.test <;> cases hlhs : h.lhs_is_var <;> simp_all [Rel.holds]

theorem passes_downward (hup : h.upward = false) (i : Int) : h.passes i =
    decide (h.common.convert h.bound.value + (h.closed - h.bound.value) ≤ h.common.convert i) := by
  unfold upward at hup
  unfold passes closed strict upward common Test.rel
  cases htest : h.test <;> cases hlhs : h.lhs_is_var <;> simp_all [Rel.holds]

theorem closed_upward (hup : h.upward = true) : h.closed = h.bound.value - 1 ∨ h.closed = h.bound.value := by
  unfold closed
  cases h.strict <;> simp [hup, Int.sub_eq_add_neg]

theorem closed_downward (hup : h.upward = false) : h.closed = h.bound.value + 1 ∨ h.closed = h.bound.value := by
  unfold closed
  cases h.strict <;> simp [hup]

/-- A comparison in an unsigned type is not one of the integers for a negative index, or for a negative
bound. -/
theorem convert_cases (hi : h.var.InRange i) :
    (h.common.convert i = i ∧ h.common.convert h.bound.value = h.bound.value) ∨
      h.common.sign = false ∧ (h.sign = true ∧ i < 0 ∧ 0 ≤ h.bound.value ∨
        h.sign = false ∧ h.bound.value < 0 ∧ 0 ≤ i) := by
  have hleft : (h.common.sign = false → 0 ≤ i) → (h.common.sign = false → 0 ≤ h.bound.value) →
      h.common.convert i = i ∧ h.common.convert h.bound.value = h.bound.value := by
    intro hi0 hbound0
    refine ⟨convert_of_inRange (inRange_common hi hi0), ?_⟩
    unfold common at hbound0 ⊢
    rw [commonBytes_comm] at hbound0 ⊢
    exact convert_of_inRange (inRange_common h.bound.inRange hbound0)
  cases hsign : h.common.sign with
  | true => exact .inl (hleft (by simp [hsign]) (by simp [hsign]))
  | false =>
    -- One of the operands is unsigned itself, and not negative.
    rcases (commonBytes_unsigned hsign).2.2 with hvar | hbound
    · have hi0 : 0 ≤ i := ((inRange_of_not_sign hvar).1 hi).1
      by_cases hbound0 : 0 ≤ h.bound.value
      · exact .inl (hleft (fun _ => hi0) fun _ => hbound0)
      · exact .inr ⟨rfl, .inr ⟨hvar, by omega, hi0⟩⟩
    · have hbound0 : 0 ≤ h.bound.value := ((inRange_of_not_sign hbound).1 h.bound.inRange).1
      by_cases hi0 : 0 ≤ i
      · exact .inl (hleft (fun _ => hi0) fun _ => hbound0)
      · refine .inr ⟨rfl, .inl ⟨?_, by omega, hbound0⟩⟩
        cases hvar : h.sign with
        | true => rfl
        | false => exact absurd ((inRange_of_not_sign hvar).1 hi).1 hi0

/-- Where the integers are compared, upward. -/
theorem passes_upward_cases (hup : h.upward = true) (hi : h.var.InRange i) :
    h.passes i = decide (i ≤ h.closed) ∨ h.sign = true ∧ i < 0 ∧ 0 ≤ h.bound.value ∨
      h.sign = false ∧ h.bound.value < 0 ∧ 0 ≤ i := by
  rcases convert_cases hi with ⟨hconvert, hbound⟩ | ⟨-, hlifted⟩
  · rw [passes_upward hup, hconvert, hbound, add_sub_cancel]
    exact .inl rfl
  · exact .inr hlifted

theorem passes_downward_cases (hup : h.upward = false) (hi : h.var.InRange i) :
    h.passes i = decide (h.closed ≤ i) ∨ h.sign = true ∧ i < 0 ∧ 0 ≤ h.bound.value ∨
      h.sign = false ∧ h.bound.value < 0 ∧ 0 ≤ i := by
  rcases convert_cases hi with ⟨hconvert, hbound⟩ | ⟨-, hlifted⟩
  · rw [passes_downward hup, hconvert, hbound, add_sub_cancel]
    exact .inl rfl
  · exact .inr hlifted

theorem start_inRange : h.var.InRange h.start := inRange_convert _ _

theorem convert_start : h.var.convert h.start = h.start := convert_convert _ _

theorem start_bounds : -2147483648 ≤ h.start ∧ h.start < 4294967296 := by
  have hrange := inRange_int32_iff.1 (start_inRange (h := h))
  have hleast := least_cases h.sign
  omega

/-! ## Ranges that stand for the loop -/

section
variable (hdef : h.WellDefined) (hamount : h.next.amount w h.sign = some step)
include hdef hamount

theorem runs_iff (hstep : step ≠ 0) : h.Runs upper step ↔
    FollowsRange h.passes h.var.convert h.start step (tripCount h.start upper step) :=
  indexAt_range_iff convert_start (fun _ _ => advance_eq hamount) hdef hstep

theorem runs_zero_iff (hstep : step = 0) : h.Runs upper step ↔ h.passes h.start = within upper step h.start :=
  indexAt_range_zero_iff convert_start (fun _ _ => advance_eq hamount) hdef hstep

end

theorem runs_of_not_passes (hstart : h.passes h.start = false) :
    h.Runs upper step ↔ within upper step h.start = false :=
  indexAt_range_of_not_test hstart

/-! ## Exact neighbours -/

theorem moved_exact {o : Operand} {d : Int}
    (hexact : if o.constant && (commonBytes o.type .signedInt).sign then w.InRange true (o.value + d)
      else (commonBytes o.type .signedInt).InRange (o.value + d)) : o.moved w d = some (o.value + d) := by
  unfold Operand.moved
  cases hs : (commonBytes o.type .signedInt).sign with
  | true =>
    cases hc : o.constant with
    | true =>
      rw [hc, hs, Bool.and_self, if_pos rfl] at hexact
      have hw : 0 < w.bits := by cases w <;> decide
      simp only [hs, if_true]
      exact congrArg some (BitVec.toInt_ofInt_eq_self hw hexact.1 hexact.2)
    | false =>
      rw [hc, Bool.false_and, if_neg Bool.false_ne_true] at hexact
      simp only [Bool.false_eq_true, if_false, IntType.result, hs, if_true, if_pos hexact]
  | false =>
    rw [hs, Bool.and_false, if_neg Bool.false_ne_true, inRange_of_not_sign hs] at hexact
    simp only [IntType.result, hs, Bool.false_eq_true, if_false, ite_self,
      Int.emod_eq_of_lt hexact.1 hexact.2]

/-- With an exact neighbour the bounds are the exact ones. -/
theorem bounds_exact (hexact : h.NeighbourExact w) : h.boundOld w = some h.closed ∧
    h.boundNew w = some (if h.upward then h.closed + 1 else h.closed - 1) := by
  have hmoved := moved_exact (w := w) (o := h.bound) (d := if h.strict = h.upward then -1 else 1) hexact
  unfold boundOld boundNew closed
  cases hs : h.strict <;> cases hup : h.upward <;> simp_all [Int.sub_eq_add_neg]

theorem tripCount_eq_one {lower : Int} (hstep : step ≠ 0) (hin : within upper step lower = true)
    (hout : within upper step (lower + step) = false) : tripCount lower upper step = 1 := by
  have hfirst := (@lt_tripCount_iff lower upper step 0 hstep).2 (by simpa using hin)
  have hsecond := (@lt_tripCount_iff lower upper step 1 hstep).not.2 (by simpa using hout)
  omega

theorem within_of_neg (hneg : step < 0) (v : Int) : within upper step v = decide (upper ≤ v) := if_pos hneg

theorem within_of_nonneg (hpos : 0 ≤ step) (v : Int) : within upper step v = decide (v ≤ upper) :=
  if_neg (by omega)

/-- The last of several iterations in both ranges of a test that looks down with a step that goes up: it would
be a negative index, after which comes one that passes the test. -/
theorem not_followsRange_downward {m : Nat} (hup : h.upward = false) (hpos : 0 < step)
    (hclosed : tripCount h.start h.closed step = m + 2)
    (hopen : tripCount h.start (h.closed - 2) step = m + 2) :
    ¬ FollowsRange h.passes h.var.convert h.start step (m + 2) := by
  intro hfollows
  have hbounds := start_bounds (h := h)
  have hdown := closed_downward hup
  have hmul : 0 ≤ (m : Int) * step := Int.mul_nonneg (Int.natCast_nonneg m) hpos.le
  have hlast : h.start + (m + 1 : Nat) * step = h.start + m * step + step := by
    push_cast
    ring
  have hend : h.start + (m + 2 : Nat) * step = h.start + m * step + step + step := by
    push_cast
    ring
  have hin := (@lt_tripCount_iff h.start (h.closed - 2) step (m + 1) hpos.ne').1 (by omega)
  have hout := (@lt_tripCount_iff h.start h.closed step (m + 2) hpos.ne').not.1 (by omega)
  rw [within_of_nonneg hpos.le, hlast, decide_eq_true_iff] at hin
  rw [within_of_nonneg hpos.le, hend, decide_eq_true_iff] at hout
  obtain ⟨hconvert, hpass⟩ := hfollows.1 (m + 1) (by omega)
  have hstop := hfollows.2
  rw [hlast] at hconvert hpass
  rw [hend] at hstop
  have hrange : h.var.InRange (h.start + m * step + step) := hconvert ▸ inRange_convert _ _
  have hlifted : h.sign = true ∧ h.start + m * step + step < 0 ∧ 0 ≤ h.bound.value := by
    rcases passes_downward_cases hup hrange with hexact | hlifted | ⟨-, hbound, hnonneg⟩
    · rw [hpass] at hexact
      have := of_decide_eq_true hexact.symm
      omega
    · exact hlifted
    · omega
  have hnext : h.var.InRange (h.start + m * step + step + step) := by
    unfold var
    rw [hlifted.1]
    exact inRange_int_iff.2 ⟨by omega, by omega⟩
  rw [convert_of_inRange hnext] at hstop
  rcases passes_downward_cases hup hnext with hexact | ⟨-, hneg, -⟩ | ⟨hsign, -, -⟩
  · rw [hstop] at hexact
    have := of_decide_eq_false hexact.symm
    omega
  · omega
  · rw [hlifted.1] at hsign
    cases hsign

section
variable (hdef : h.WellDefined) (hamount : h.next.amount w h.sign = some step)
include hdef hamount

/-- A test that looks up with a step that goes down: the two ranges are not the same unless there is nothing in
them. -/
theorem runs_upward_neg_iff (hup : h.upward = true) (hneg : step < 0) :
    h.Runs h.closed step ∧ h.Runs (h.closed + 2) step ↔
      h.passes h.start = false ∧ h.start < h.closed := by
  cases hpass : h.passes h.start with
  | false =>
    rw [runs_of_not_passes hpass, runs_of_not_passes hpass, within_of_neg hneg, within_of_neg hneg]
    simp only [decide_eq_false_iff_not, true_and]
    omega
  | true =>
    refine iff_of_false ?_ (by simp)
    rintro ⟨hclosed, hopen⟩
    rw [runs_iff hdef hamount hneg.ne] at hclosed hopen
    have hcount := hclosed.unique hopen
    have hlt := @lt_tripCount_iff h.start h.closed step
    have hlt' := @lt_tripCount_iff h.start (h.closed + 2) step
    simp only [within_of_neg hneg, decide_eq_true_eq] at hlt hlt'
    -- The open range is not empty, so the start is above the bound, and the index is unsigned.
    have hpos : tripCount h.start (h.closed + 2) step ≠ 0 := by
      intro hzero
      rw [hzero, followsRange_zero_iff convert_start, hpass] at hopen
      cases hopen
    have habove := (@hlt' 0 hneg.ne).1 (by omega)
    rcases passes_upward_cases hup (start_inRange (h := h)) with hexact | ⟨-, hstart, hbound⟩ | ⟨hsign, -, -⟩
    · rw [hpass] at hexact
      have := of_decide_eq_true hexact.symm
      omega
    · have := closed_upward hup
      omega
    · rw [hsign] at hamount
      obtain rfl : step = -1 := (amount_unsigned hamount).resolve_right (by omega)
      have hlast := (@hlt' (tripCount h.start (h.closed + 2) (-1) - 1) hneg.ne).1 (by omega)
      have hend := (@hlt (tripCount h.start h.closed (-1)) hneg.ne).not.1 (lt_irrefl _)
      omega

/-- A test that looks down with a step that does not go down. -/
theorem runs_downward_nonneg_iff (hup : h.upward = false) (hstep : 0 ≤ step) :
    h.Runs h.closed step ∧ h.Runs (h.closed - 2) step ↔
      (h.passes h.start = false ∧ h.closed < h.start) ∨
        (h.passes h.start = true ∧ h.start ≤ h.closed - 2 ∧
          (step = 0 ∨ h.closed < h.start + step ∧ h.passes (h.var.convert (h.start + step)) = false)) := by
  cases hpass : h.passes h.start with
  | false =>
    rw [runs_of_not_passes hpass, runs_of_not_passes hpass, within_of_nonneg hstep, within_of_nonneg hstep]
    simp only [decide_eq_false_iff_not, true_and, Bool.false_eq_true, false_and, or_false]
    omega
  | true =>
    simp only [Bool.true_eq_false, false_and, false_or, true_and]
    rcases hstep.eq_or_lt with rfl | hpos
    · rw [runs_zero_iff hdef hamount rfl, runs_zero_iff hdef hamount rfl, hpass, within_of_nonneg le_rfl,
        within_of_nonneg le_rfl]
      simp only [true_eq_decide_iff, true_or, and_true]
      omega
    · rw [runs_iff hdef hamount hpos.ne', runs_iff hdef hamount hpos.ne']
      constructor
      · rintro ⟨hclosed, hopen⟩
        have hcount := hclosed.unique hopen
        have hnonzero : tripCount h.start (h.closed - 2) step ≠ 0 := by
          intro hzero
          rw [hzero, followsRange_zero_iff convert_start, hpass] at hopen
          cases hopen
        have hin := (@lt_tripCount_iff h.start (h.closed - 2) step 0 hpos.ne').1 (by omega)
        simp only [Nat.cast_zero, Int.zero_mul, Int.add_zero, within_of_nonneg hpos.le,
          decide_eq_true_eq] at hin
        obtain ⟨n, hn⟩ := Nat.exists_eq_succ_of_ne_zero hnonzero
        cases n with
        | zero =>
          have hout := (@lt_tripCount_iff h.start h.closed step 1 hpos.ne').not.1 (by omega)
          simp only [Nat.cast_one, Int.one_mul, within_of_nonneg hpos.le, decide_eq_true_eq] at hout
          rw [hn] at hopen
          exact ⟨hin, .inr ⟨by omega, ((followsRange_one_iff convert_start).1 hopen).2⟩⟩
        | succ m =>
          rw [hn] at hopen
          exact absurd hopen (not_followsRange_downward hup hpos (hcount.trans hn) hn)
      · rintro ⟨hin, hzero | ⟨hout, hstop⟩⟩
        · omega
        · have hone : FollowsRange h.passes h.var.convert h.start step 1 :=
            (followsRange_one_iff convert_start).2 ⟨hpass, hstop⟩
          have hcount : ∀ upper, h.start ≤ upper → upper < h.start + step →
              tripCount h.start upper step = 1 := by
            intro upper hle hlt
            refine tripCount_eq_one hpos.ne' ?_ ?_
            · rw [within_of_nonneg hpos.le, decide_eq_true hle]
            · rw [within_of_nonneg hpos.le, decide_eq_false (not_le.2 hlt)]
          rw [hcount h.closed (by omega) hout, hcount (h.closed - 2) hin (by omega)]
          exact ⟨hone, hone⟩

/-- **Loops with an exact neighbour.** -/
theorem runs_exact_iff :
    (h.Runs h.closed step ∧ h.Runs (if step < 0 then (if h.upward then h.closed + 1 else h.closed - 1) + 1
      else (if h.upward then h.closed + 1 else h.closed - 1) - 1) step) ↔ h.AgreesExact step := by
  unfold AgreesExact
  cases hup : h.upward with
  | true =>
    simp only [if_true]
    rcases lt_trichotomy step 0 with hneg | rfl | hpos
    · rw [if_pos hneg, if_neg (by omega), if_neg hneg.ne, Int.add_assoc]
      exact runs_upward_neg_iff hdef hamount hup hneg
    · rw [if_neg (lt_irrefl _), if_neg (lt_irrefl _), if_pos rfl, Int.add_sub_cancel, and_self,
        runs_zero_iff hdef hamount rfl, within_of_nonneg le_rfl]
    · rw [if_neg (by omega), if_pos hpos, Int.add_sub_cancel, and_self]
      exact runs_iff hdef hamount hpos.ne'
  | false =>
    simp only [Bool.false_eq_true, if_false]
    by_cases hneg : step < 0
    · rw [if_pos hneg, if_pos hneg, Int.sub_add_cancel, and_self]
      exact runs_iff hdef hamount hneg.ne
    · rw [if_neg hneg, if_neg hneg, Int.sub_sub]
      exact runs_downward_nonneg_iff hdef hamount hup (by omega)

end

/-! ## Neighbours at the other end -/

/-- What is next to a value of a type and not a value of it is beyond all of them. -/
theorem inRange_of_le_of_le {t : IntType} {x y z : Int} (hx : t.InRange x) (hz : t.InRange z) (hxy : x ≤ y)
    (hyz : y ≤ z) : t.InRange y := by
  unfold IntType.InRange at *
  split at hx <;> simp_all <;> omega

/-- The test is made in the type of the bound, if that is not an `int` or less. -/
theorem common_eq (hwide : h.boundType.sign = false ∨ h.boundType.num_bytes = .eight) :
    h.common = h.boundType := by
  unfold common boundType var at *
  generalize h.bound.type = t at *
  obtain ⟨b, s⟩ := t
  cases h.sign <;> cases b <;> cases s <;> revert hwide <;> decide

/-- Without a neighbour the test is a constant. -/
theorem passes_of_not_inRange (hwide : h.boundType.sign = false ∨ h.boundType.num_bytes = .eight)
    (hout : ¬ h.boundType.InRange h.neighbour) (i : Int) : h.passes i = !h.strict := by
  have hi := inRange_convert h.boundType i
  have hbound : h.boundType.InRange h.bound.value := inRange_promoted h.bound
  have hbetween := fun hle hle' => hout (inRange_of_le_of_le hi hbound hle hle')
  have hbetween' := fun hle hle' => hout (inRange_of_le_of_le hbound hi hle hle')
  unfold neighbour at hbetween hbetween'
  cases hup : h.upward with
  | true =>
    rw [passes_upward hup, common_eq hwide, convert_of_inRange hbound, closed]
    cases hs : h.strict with
    | true =>
      simp only [hup, hs, if_true] at hbetween hbetween' ⊢
      refine decide_eq_false fun hle => hbetween (by omega) (by omega)
    | false =>
      simp only [hup, hs, Bool.false_eq_true, if_false] at hbetween hbetween' ⊢
      refine decide_eq_true ?_
      by_contra hlt
      exact hbetween' (by omega) (by omega)
  | false =>
    rw [passes_downward hup, common_eq hwide, convert_of_inRange hbound, closed]
    cases hs : h.strict with
    | true =>
      simp only [hup, hs, Bool.true_eq_false, Bool.false_eq_true, if_true, if_false] at hbetween hbetween' ⊢
      refine decide_eq_false fun hle => hbetween' (by omega) (by omega)
    | false =>
      simp only [hup, hs, Bool.false_eq_true, if_true, if_false] at hbetween hbetween' ⊢
      refine decide_eq_true ?_
      by_contra hlt
      exact hbetween (by omega) (by omega)

theorem bounds_of_moved {m : Int} (hmoved : h.bound.moved w (if h.strict = h.upward then -1 else 1) = some m) :
    h.boundOld w = some (if h.strict then m else h.bound.value) ∧
      h.boundNew w = some (if h.strict then h.bound.value else m) := by
  unfold boundOld boundNew
  cases hs : h.strict <;> cases hup : h.upward <;> simp_all

theorem moved_unsigned {o : Operand} (hs : (commonBytes o.type .signedInt).sign = false) (d : Int) :
    o.moved w d = some ((o.value + d) % (2 : Int) ^ (commonBytes o.type .signedInt).bits) := by
  simp only [Operand.moved, IntType.result, hs, Bool.false_eq_true, if_false, ite_self]

theorem four_bytes_le (t : IntType) : (4294967296 : Int) ≤ (2 : Int) ^ (commonBytes t .signedInt).bits := by
  obtain ⟨b, s⟩ := t
  cases b <;> cases s <;> decide

/-- The neighbour of zero, or of the greatest value. -/
theorem moved_wraps (hwraps : h.NeighbourWraps) : ∃ m,
    h.bound.moved w (if h.strict = h.upward then -1 else 1) = some m ∧
      (h.strict = h.upward ∧ h.bound.value = 0 ∧ 4294967295 ≤ m ∨
        h.strict ≠ h.upward ∧ 4294967295 ≤ h.bound.value ∧ m = 0) := by
  obtain ⟨hs, hout⟩ := hwraps
  have hle := four_bytes_le h.bound.type
  have hbound := (inRange_of_not_sign hs).1 (inRange_promoted h.bound)
  rw [inRange_of_not_sign hs] at hout
  refine ⟨_, moved_unsigned hs _, ?_⟩
  unfold neighbour boundType at hout
  unfold boundType at hbound
  generalize (2 : Int) ^ (commonBytes h.bound.type .signedInt).bits = p at *
  by_cases heq : h.strict = h.upward
  · rw [if_pos heq] at hout ⊢
    refine .inl ⟨heq, by omega, ?_⟩
    have hzero : h.bound.value = 0 := by omega
    rw [hzero, Int.zero_add, ← Int.add_emod_right, Int.emod_eq_of_lt (by omega) (by omega)]
    omega
  · rw [if_neg heq] at hout ⊢
    have hlast : h.bound.value + 1 = p := by omega
    exact .inr ⟨heq, by omega, by rw [hlast, Int.emod_self]⟩

/-- Of a test that holds of everything only an endless range is right. -/
theorem step_eq_zero_of_runs (hdef : h.WellDefined) (hamount : h.next.amount w h.sign = some step)
    (hpass : ∀ i, h.passes i = true) (hruns : h.Runs upper step) : step = 0 := by
  by_contra hne
  have hstop := ((runs_iff hdef hamount hne).1 hruns).2
  rw [hpass] at hstop
  cases hstop

/-- **Loops whose neighbour is at the other end.** -/
theorem runs_wrapped_iff (hdef : h.WellDefined) (hamount : h.next.amount w h.sign = some step)
    (hwraps : h.NeighbourWraps) {m : Int}
    (hm : h.strict = h.upward ∧ h.bound.value = 0 ∧ 4294967295 ≤ m ∨
      h.strict ≠ h.upward ∧ 4294967295 ≤ h.bound.value ∧ m = 0) :
    (h.Runs (if h.strict then m else h.bound.value) step ∧
      h.Runs (if step < 0 then (if h.strict then h.bound.value else m) + 1
        else (if h.strict then h.bound.value else m) - 1) step) ↔ h.AgreesWrapped step := by
  have hbounds := start_bounds (h := h)
  have hpass := passes_of_not_inRange (.inl hwraps.1) hwraps.2
  unfold AgreesWrapped
  cases hs : h.strict with
  | true =>
    simp only [hs, Bool.not_true] at hpass
    simp only [if_true, runs_of_not_passes (hpass h.start)]
    rw [hs] at hm
    unfold within
    cases hup : h.upward <;> by_cases hneg : step < 0 <;> simp [hup, hneg] at hm ⊢ <;> omega
  | false =>
    simp only [hs, Bool.not_false] at hpass
    simp only [Bool.false_eq_true, if_false]
    rw [hs] at hm
    constructor
    · rintro ⟨hclosed, hopen⟩
      obtain rfl := step_eq_zero_of_runs hdef hamount hpass hclosed
      rw [runs_zero_iff hdef hamount rfl, hpass, within_of_nonneg le_rfl, true_eq_decide_iff] at hclosed hopen
      rw [if_neg (lt_irrefl _)] at hopen
      refine ⟨rfl, ?_⟩
      cases hup : h.upward <;> simp [hup] at hm ⊢ <;> omega
    · rintro ⟨rfl, hstart⟩
      rw [runs_zero_iff hdef hamount rfl, runs_zero_iff hdef hamount rfl, hpass, within_of_nonneg le_rfl,
        within_of_nonneg le_rfl, if_neg (lt_irrefl _)]
      simp only [true_eq_decide_iff]
      cases hup : h.upward <;> simp [hup] at hm hstart ⊢ <;> omega

/-! ## No neighbour -/

/-- A signed constant has no neighbour at the ends of a `long`, if that is the wide word. -/
theorem moved_of_not_exact (hs : h.boundType.sign = true) (hconst : h.bound.constant = true)
    (hnot : ¬ h.NeighbourExact w) : h.boundType.num_bytes = .eight ∧ ∃ m,
      h.bound.moved w (if h.strict = h.upward then -1 else 1) = some m ∧
        (h.strict = h.upward ∧ h.bound.value = -9223372036854775808 ∧ m = 9223372036854775807 ∨
          h.strict ≠ h.upward ∧ h.bound.value = 9223372036854775807 ∧ m = -9223372036854775808) := by
  have hbound := (inRange_of_sign hs).1 (inRange_promoted h.bound)
  have hmoved : h.bound.moved w (if h.strict = h.upward then -1 else 1) =
      some (BitVec.ofInt w.bits h.neighbour).toInt := by
    unfold Operand.moved neighbour
    rw [hconst, if_pos rfl]
    exact congrArg some (if_pos hs)
  unfold NeighbourExact at hnot
  rw [hs, hconst, Bool.and_self, if_pos rfl, CValue.InRange, if_pos rfl] at hnot
  rw [hmoved]
  unfold neighbour at hnot ⊢
  have hwide : (9223372036854775808 : Int) ≤ 2 ^ (w.bits - 1) := by cases w <;> decide
  by_cases hb : h.boundType.num_bytes = .eight
  · have hbits : h.boundType.bits = 64 := by
      unfold IntType.bits
      rw [hb]
      rfl
    have hpow : (2 : Int) ^ (h.boundType.bits - 1) = 9223372036854775808 := by rw [hbits]; rfl
    rw [hpow] at hbound
    cases w with
    | int128 =>
      have hgreat : (2 : Int) ^ (CValue.int128.bits - 1) = 170141183460469231731687303715884105728 := rfl
      rw [hgreat] at hnot
      exact absurd (by split <;> omega) hnot
    | int64 =>
      have hgreat : (2 : Int) ^ (CValue.int64.bits - 1) = 9223372036854775808 := rfl
      rw [hgreat] at hnot
      refine ⟨hb, _, rfl, ?_⟩
      by_cases heq : h.strict = h.upward
      · rw [if_pos heq] at hnot ⊢
        have hleast : h.bound.value = -9223372036854775808 := by omega
        exact .inl ⟨heq, hleast, by rw [hleast]; decide⟩
      · rw [if_neg heq] at hnot ⊢
        have hgreatest : h.bound.value = 9223372036854775807 := by omega
        exact .inr ⟨heq, hgreatest, by rw [hgreatest]; decide⟩
  · have hbits : h.boundType.bits ≤ 32 := by
      unfold IntType.bits
      generalize h.boundType.num_bytes = b at hb
      cases b <;> simp_all [Bytes.toNat]
    have hpow : (2 : Int) ^ (h.boundType.bits - 1) ≤ 2 ^ 31 := Cexpr.pow_le_pow (by omega)
    exact absurd (by split <;> omega) hnot

/-- Of a test that is a constant at an end of a `long`, no range is right. -/
theorem not_runs_of_long (hdef : h.WellDefined) (hamount : h.next.amount w h.sign = some step)
    (hpass : ∀ i, h.passes i = !h.strict) {m : Int}
    (hm : h.strict = h.upward ∧ h.bound.value = -9223372036854775808 ∧ m = 9223372036854775807 ∨
      h.strict ≠ h.upward ∧ h.bound.value = 9223372036854775807 ∧ m = -9223372036854775808) :
    ¬ (h.Runs (if h.strict then m else h.bound.value) step ∧
      h.Runs (if step < 0 then (if h.strict then h.bound.value else m) + 1
        else (if h.strict then h.bound.value else m) - 1) step) := by
  have hbounds := start_bounds (h := h)
  cases hs : h.strict with
  | true =>
    simp only [hs, Bool.not_true] at hpass
    simp only [if_true, runs_of_not_passes (hpass h.start)]
    rw [hs] at hm
    unfold within
    cases hup : h.upward <;> by_cases hneg : step < 0 <;> simp [hup, hneg] at hm ⊢ <;> omega
  | false =>
    simp only [hs, Bool.not_false] at hpass
    simp only [Bool.false_eq_true, if_false]
    rw [hs] at hm
    rintro ⟨hclosed, hopen⟩
    obtain rfl := step_eq_zero_of_runs hdef hamount hpass hclosed
    rw [runs_zero_iff hdef hamount rfl, hpass, within_of_nonneg le_rfl, true_eq_decide_iff] at hclosed hopen
    rw [if_neg (lt_irrefl _)] at hopen
    cases hup : h.upward <;> simp [hup] at hm <;> omega

theorem not_wraps_of_exact (hexact : h.NeighbourExact w) : ¬ h.NeighbourWraps := by
  rintro ⟨hs, hout⟩
  unfold NeighbourExact at hexact
  rw [hs, Bool.and_false, if_neg Bool.false_ne_true] at hexact
  exact hout hexact

/-- A neighbour that the type has is exact. -/
theorem exact_of_inRange (hin : h.boundType.InRange h.neighbour) : h.NeighbourExact w := by
  unfold NeighbourExact
  cases hs : h.boundType.sign with
  | true =>
    have hpow := Cexpr.pow_le_pow (show h.boundType.bits - 1 ≤ w.bits - 1 by have := h.boundType.bits_le w; omega)
    have hbounds := (inRange_of_sign hs).1 hin
    split
    · exact ⟨by omega, by omega⟩
    · exact hin
  | false => rwa [Bool.and_false, if_neg Bool.false_ne_true]

/-- Without a neighbour no range is right. -/
theorem not_denoted (hdef : h.WellDefined) (hnot : ¬ h.NeighbourExact w) (hnowrap : ¬ h.NeighbourWraps) :
    ¬ h.Denoted w := by
  have hout : ¬ h.boundType.InRange h.neighbour := fun hin => hnot (exact_of_inRange hin)
  have hs : h.boundType.sign = true := by
    by_contra hs
    exact hnowrap ⟨by simpa using hs, hout⟩
  rw [denoted_iff_runs]
  rintro ⟨old, new, step, hold, hnew, hamount, hruns⟩
  cases hconst : h.bound.constant with
  | true =>
    obtain ⟨hb, m, hmoved, hm⟩ := moved_of_not_exact hs hconst hnot
    obtain ⟨hold', hnew'⟩ := bounds_of_moved hmoved
    obtain rfl := Option.some.inj (hold'.symm.trans hold)
    obtain rfl := Option.some.inj (hnew'.symm.trans hnew)
    exact not_runs_of_long hdef hamount (passes_of_not_inRange (.inr hb) hout) hm hruns
  | false =>
    have hmoved : h.bound.moved w (if h.strict = h.upward then -1 else 1) = none := by
      unfold Operand.moved
      rw [hconst, if_neg Bool.false_ne_true]
      exact (if_pos hs).trans (if_neg hout)
    unfold boundOld at hold
    unfold boundNew at hnew
    cases hstrict : h.strict <;> cases hup : h.upward <;> simp_all

/-! ## Ordinary loops -/

/-- The comparison of the test is the one of the integers: in a signed type, or for an unsigned variable and a
bound that is not negative. -/
def Ordinary (h : Header) : Prop := h.common.sign = true ∨ h.sign = false ∧ 0 ≤ h.bound.value

theorem Ordinary.passes_eq (hordinary : h.Ordinary) (hi : h.var.InRange i) :
    h.passes i = if h.upward then decide (i ≤ h.closed) else decide (h.closed ≤ i) := by
  rcases convert_cases hi with ⟨hconvert, hbound⟩ | ⟨hsign, hlifted⟩
  · cases hup : h.upward with
    | true => rw [passes_upward hup, hconvert, hbound, add_sub_cancel, if_pos rfl]
    | false => rw [passes_downward hup, hconvert, hbound, add_sub_cancel, if_neg Bool.false_ne_true]
  · rcases hordinary with hsigned | ⟨hvar, hnonneg⟩
    · rw [hsign] at hsigned
      cases hsigned
    · rcases hlifted with ⟨htrue, -, -⟩ | ⟨-, hneg, -⟩
      · rw [hvar] at htrue
        cases htrue
      · omega

/-- A value between the start and the end of the exact loop. -/
theorem inRange_iterate {n k : Nat} (hlast : h.var.InRange (h.start + n * step)) (hk : k ≤ n) :
    h.var.InRange (h.start + k * step) := by
  have hk : (k : Int) ≤ n := by exact_mod_cast hk
  have hk0 : (0 : Int) ≤ k := Int.natCast_nonneg k
  rcases le_total 0 step with hstep | hstep
  · refine inRange_of_le_of_le start_inRange hlast ?_ ?_
    · have := Int.mul_nonneg hk0 hstep
      omega
    · have := Int.mul_le_mul_of_nonneg_right hk hstep
      omega
  · refine inRange_of_le_of_le hlast start_inRange ?_ ?_
    · have := Int.mul_le_mul_of_nonpos_right hk hstep
      omega
    · have := Int.mul_nonpos_of_nonneg_of_nonpos hk0 hstep
      omega

/-- An ordinary loop that goes the way its test looks and does not leave its type at its end. -/
theorem Ordinary.followsExact (hordinary : h.Ordinary) (hdirection : if h.upward then 0 < step else step < 0)
    (hlast : h.var.InRange (h.start + tripCount h.start h.closed step * step)) : h.FollowsExact step := by
  have hstep : step ≠ 0 := by split at hdirection <;> omega
  have hpasses : ∀ k ≤ tripCount h.start h.closed step,
      h.passes (h.start + k * step) = decide (k < tripCount h.start h.closed step) := by
    intro k hk
    rw [Bool.eq_iff_iff, decide_eq_true_iff, lt_tripCount_iff hstep,
      hordinary.passes_eq (inRange_iterate hlast hk)]
    split at hdirection
    · next hup => rw [hup, if_pos rfl, within_of_nonneg hdirection.le]
    · next hup => rw [if_neg hup, within_of_neg hdirection]
  refine ⟨fun k hk => ⟨convert_of_inRange (inRange_iterate hlast hk.le), ?_⟩, ?_⟩
  · rw [hpasses k hk.le, decide_eq_true hk]
  · rw [convert_of_inRange hlast, hpasses _ le_rfl, decide_eq_false (lt_irrefl _)]

/-- The loops that the analyses are made for. -/
theorem exact_of_ordinary (hamount : h.next.amount w h.sign = some step) (hexact : h.NeighbourExact w)
    (hordinary : h.Ordinary) (hdirection : if h.upward then 0 < step else step < 0)
    (hlast : h.var.InRange (h.start + tripCount h.start h.closed step * step)) : h.Exact w := by
  refine ⟨step, hamount, .inl ⟨hexact, ?_⟩⟩
  have hfollows := hordinary.followsExact hdirection hlast
  unfold AgreesExact
  split at hdirection
  · next hup => rwa [if_pos hup, if_pos hdirection]
  · next hup => rwa [if_neg hup, if_pos hdirection]

/-! ## The condition is exact -/

/-- **Loop headers**: for which loops both analyses are right. -/
theorem denoted_iff (w : CValue) (h : Header) (hdef : h.WellDefined) : h.Denoted w ↔ h.Exact w := by
  by_cases hexact : h.NeighbourExact w
  · obtain ⟨hold, hnew⟩ := bounds_exact hexact
    have hnowrap := not_wraps_of_exact hexact
    rw [denoted_iff_runs, hold, hnew]
    constructor
    · rintro ⟨_, _, step, ⟨rfl⟩, ⟨rfl⟩, hamount, hruns⟩
      exact ⟨step, hamount, .inl ⟨hexact, (runs_exact_iff hdef hamount).1 hruns⟩⟩
    · rintro ⟨step, hamount, ⟨-, hagrees⟩ | ⟨hwraps, -⟩⟩
      · exact ⟨_, _, step, rfl, rfl, hamount, (runs_exact_iff hdef hamount).2 hagrees⟩
      · exact absurd hwraps hnowrap
  · by_cases hwraps : h.NeighbourWraps
    · obtain ⟨m, hmoved, hm⟩ := moved_wraps (w := w) hwraps
      obtain ⟨hold, hnew⟩ := bounds_of_moved hmoved
      rw [denoted_iff_runs, hold, hnew]
      constructor
      · rintro ⟨_, _, step, ⟨rfl⟩, ⟨rfl⟩, hamount, hruns⟩
        exact ⟨step, hamount, .inr ⟨hwraps, (runs_wrapped_iff hdef hamount hwraps hm).1 hruns⟩⟩
      · rintro ⟨step, hamount, ⟨hexact', -⟩ | ⟨-, hagrees⟩⟩
        · exact absurd hexact' hexact
        · exact ⟨_, _, step, rfl, rfl, hamount, (runs_wrapped_iff hdef hamount hwraps hm).2 hagrees⟩
    · refine iff_of_false (not_denoted hdef hexact hwraps) ?_
      rintro ⟨step, -, ⟨hexact', -⟩ | ⟨hwraps', -⟩⟩
      · exact hexact hexact'
      · exact hwraps hwraps'

/-- `for (unsigned i = 0; i < 10; i++)`. -/
def tenIterations : Header where
  sign := false
  init := ⟨.signedInt, 0, true, by decide⟩
  test := .lowerThan
  lhs_is_var := true
  bound := ⟨.signedInt, 10, true, by decide⟩
  next := .postincrement

/-- An ordinary loop, whose closed range both analyses write. -/
theorem denoted_iff_tenIterations : tenIterations.Denoted .int64 := by
  have hdef : tenIterations.WellDefined := fun _ _ _ => rfl
  have hlast : tenIterations.var.InRange (tenIterations.start +
      tripCount tenIterations.start tenIterations.closed 1 * 1) := by decide
  exact (denoted_iff .int64 tenIterations hdef).2
    (exact_of_ordinary rfl (by decide) (.inr ⟨rfl, by decide⟩) (by decide) hlast)

/-- `for (unsigned i = 0; i < n; i++)` with a variable `n` of type `unsigned` that is zero. -/
def belowZero : Header where
  sign := false
  init := ⟨.signedInt, 0, true, by decide⟩
  test := .lowerThan
  lhs_is_var := true
  bound := ⟨int32 false, 0, false, zero_inRange⟩
  next := .postincrement

/-- The closed bound of the loop is the greatest `unsigned`. -/
theorem belowZero_not_denoted : belowZero.WellDefined ∧ ¬ belowZero.Denoted .int64 := by
  refine ⟨fun _ _ _ => rfl, ?_⟩
  rw [denoted_iff_runs]
  rintro ⟨old, new, step, hold, hnew, hamount, hruns, -⟩
  obtain rfl : 4294967295 = old := Option.some.inj hold
  obtain rfl : 1 = step := Option.some.inj hamount
  have hempty := (runs_of_not_passes (by decide)).1 hruns
  revert hempty
  decide

end Header

end OmpSs.Mcxx.LoopHeader
