import OmpSs.Lib.LoopTrace
import OmpSs.Mcxx.CollapseCount
import Mathlib.Data.Int.ModEq

/-!
# Loop unrolling

`LoopUnroll::unroll` (`mcxx/src/tl/hlt/hlt-loop-unroll.cpp:138`) repeats the body of a loop `f` times, with
`k * step + i` for the index in the `k`-th copy, makes the step `f` times as large and the bound `f - 1` steps
smaller, and lets the original loop do the iterations that are left. The compiler folds the constants, and the
code it generates is evaluated in C, in the types of its operands.

With `int` alone that is right unless the new bound overflows, which a folded one does not. As soon as a type
is `unsigned` a bound that falls below zero becomes a huge one, and the unrolled loop runs bodies the original
does not have. `Mcxx.LoopUnrollExact` has the exact condition for a body without jumps, for every loop over a
progression of values of its type, and `Mcxx.LoopUnrollJumps` for every body.
-/

namespace OmpSs.Mcxx.LoopUnroll

open Lib Cexpr
open CollapseCount (int32 commonBytes_int32 inRange_int_iff inRange_unsigned_iff inRange_int32_iff convert_int32
  convert_unsigned32 result_int32)

/-! ## Code and its evaluation in C -/

/-- Expressions over the induction variable. Literals, and operands that the loop does not change, are known
by their type and value. -/
inductive Expr
  | value (t : IntType) (v : Int)
  | induction
  | arith (op : Arith) (lhs rhs : Expr)
  | rel (op : Rel) (lhs rhs : Expr)
deriving DecidableEq

/-- The type of an expression, for an induction variable of type `var`. -/
def Expr.type (var : IntType) : Expr → IntType
  | .value t _ => t
  | .induction => var
  | .arith _ a b => commonBytes (a.type var) (b.type var)
  | .rel _ _ _ => IntType.signedInt

/-- The value of an expression where the induction variable is `i`; `none`: it overflows. -/
def Expr.eval (var : IntType) (i : Int) : Expr → Option Int
  | .value _ v => some v
  | .induction => some i
  | .arith op a b => (a.eval var i).bind fun x => (b.eval var i).bind fun y =>
    let t := commonBytes (a.type var) (b.type var)
    op.value t (t.convert x) (t.convert y)
  | .rel op a b => (a.eval var i).bind fun x => (b.eval var i).map fun y =>
    let t := commonBytes (a.type var) (b.type var)
    if op.holds (t.convert x) (t.convert y) then 1 else 0

/-- A `for` statement, whose header assigns to the induction variable, or leaves it as it is in the first
place. Of the body, an expression stands for each copy of the original: what it reads for the index. -/
structure ForLoop where
  init : Option Expr
  cond : Expr
  next : Expr
  body : List Expr
deriving DecidableEq

namespace ForLoop

variable (var : IntType) (loop : ForLoop)

def start (i : Int) : Option Int := match loop.init with
  | some e => (e.eval var i).map var.convert
  | none => some i

def test (i : Int) : Option Bool := (loop.cond.eval var i).map (· != 0)

def runBody (i : Int) : Option (List Int) := loop.body.mapM (Expr.eval var i)

def advance (i : Int) : Option Int := (loop.next.eval var i).map var.convert

/-- Reached with the induction variable at `i`, the loop ends with it at `w`, and its bodies read the indices
`out`, all of them to their ends. -/
def Runs (i : Int) (out : List Int) (w : Int) : Prop :=
  ∃ v, loop.start var i = some v ∧ LoopTrace (loop.test var) (loop.runBody var) (loop.advance var) v out w

end ForLoop

/-! ## The loop -/

inductive Test
  | lowerThan
  | lowerOrEqual
  | greaterThan
  | greaterOrEqual
deriving DecidableEq

def Test.rel : Test → Rel
  | .lowerThan => .lt
  | .lowerOrEqual => .lte
  | .greaterThan => .gt
  | .greaterOrEqual => .gte

/-- A loop whose induction variable and bounds have the type `int32 sign`, with a constant step of the type
`int32 step_sign`: `for (i = lower; i < bound; i = i + step)`, or with another test. The compiler may know the
bound of the test. Source: `TL::ForStatement`. -/
structure ForStatement where
  sign : Bool
  step_sign : Bool
  test : Test
  constant : Bool
  lower_bound : Int
  bound : Int
  step : Int
  lower_inRange : (int32 sign).InRange lower_bound
  bound_inRange : (int32 sign).InRange bound
  step_inRange : (int32 step_sign).InRange step
  step_ne_zero : step ≠ 0

/-! ## The transformation -/

section
variable (w : CValue)

/-- A constant of four bytes. Source: `const_value_get_integer` (`cxx-cexpr.c:418`). -/
def constant (sign : Bool) (z : Int) : ConstValue w :=
  constValueGetInteger (BitVec.ofInt w.bits z) (int32 sign)

/-- Source: `GET_SIGNED_INTEGER` (`cxx-cexpr.c:441`). -/
def constValueGetSignedInt (z : Int) : ConstValue w := constant w true z

variable {w}

/-- The type of the literal that is written for a constant: C reads a decimal literal as a `long` where an
`int` does not have its value, also where the compiler has typed the node as an `int`, which it does for some
negative values (`Cexpr.getMinimalIntegerForValue_iff`). Source:
`get_minimal_integer_for_value_at_least_signed_int` (`cxx-cexpr.c:1245`). -/
def minimalInteger (sign : Bool) (v : Int) : IntType :=
  if (int32 sign).InRange v then int32 sign else ⟨.eight, sign⟩

/-- Source: `const_value_to_nodecl` (`cxx-cexpr.c:1748`). -/
def constValueToNodecl (c : ConstValue w) : Expr := .value (minimalInteger c.type.sign c.stored) c.stored

/-- Source: `const_value_is_positive` (`cxx-cexpr.c:929`). -/
def constValueIsPositive (c : ConstValue w) : Bool := decide (0 < c.stored)

/-- Source: `const_value_is_negative` (`cxx-cexpr.c:954`). -/
def constValueIsNegative (c : ConstValue w) : Bool := decide (c.stored < 0)

/-- Source: `const_value_is_one` (`cxx-cexpr.c:860`). -/
def constValueIsOne (c : ConstValue w) : Bool := decide (c.i = 1)

/-- An expression with the constant that the compiler knows for it. -/
structure Nodecl (w : CValue) where
  expr : Expr
  constant : Option (ConstValue w)

namespace ForStatement

variable (w) (l : ForStatement) (f : Nat)

def stepConstant : ConstValue w := LoopUnroll.constant w l.step_sign l.step

/-- The right operand of the test. -/
def boundNodecl : Nodecl w where
  expr := .value (int32 l.sign) l.bound
  constant := if l.constant then some (LoopUnroll.constant w l.sign l.bound) else none

/-- The bound next to that of a strict test. -/
def strictBound (op : Arith) : Option (Nodecl w) :=
  let one := LoopUnroll.constant w true 1
  match (l.boundNodecl w).constant with
  | some c => (op.fold c one).map fun upper => ⟨constValueToNodecl upper, some upper⟩
  | none => some ⟨.arith op (l.boundNodecl w).expr (constValueToNodecl one), none⟩

/-- The closed bound. Source: `ForStatementHelper::analyze_loop_header_old` (`tl-nodecl-utils.cpp:1941`). -/
def getUpperBound : Option (Nodecl w) := match l.test with
  | .lowerThan => l.strictBound w .sub
  | .lowerOrEqual => some (l.boundNodecl w)
  | .greaterThan => l.strictBound w .add
  | .greaterOrEqual => some (l.boundNodecl w)

/-- What the `k`-th copy of the body reads for the index. Source: `ReplaceInductionVar`
(`hlt-loop-unroll.cpp:82`). -/
def copyIndex (k : Nat) : Option Expr :=
  if k = 0 then some .induction
  else (constValueMul (constValueGetSignedInt w k) (l.stepConstant w)).map fun offset_value =>
    .arith .add (constValueToNodecl offset_value) .induction

/-- Source: `hlt-loop-unroll.cpp:187`. -/
def unrolledLoopStep : Option Expr :=
  (constValueMul (l.stepConstant w)
    (constValueCastToBytes (constValueGetSignedInt w f) (l.stepConstant w).type)).map constValueToNodecl

/-- The bound that is `f - 1` steps smaller; `none`: the step is zero. The source has the code twice, for a
positive step and for a negative one, which is never one. Source: `hlt-loop-unroll.cpp:195`. -/
def unrolledUpperBound : Option Expr :=
  let step := l.stepConstant w
  let factor := constValueGetSignedInt w (f - 1 : Nat)
  if constValueIsPositive step ∨ constValueIsNegative step then
    (l.getUpperBound w).bind fun upper => match upper.constant with
      | some c => (constValueMul step factor).bind fun range =>
        (constValueSub c range).map constValueToNodecl
      | none =>
        some (.arith .sub upper.expr
          (if constValueIsPositive step ∧ constValueIsOne step then constValueToNodecl factor
            else .arith .mul (.value (int32 l.step_sign) l.step) (constValueToNodecl factor)))
  else none

/-- The loop as it is in the source. -/
def loop : ForLoop where
  init := some (.value (int32 l.sign) l.lower_bound)
  cond := .rel l.test.rel .induction (.value (int32 l.sign) l.bound)
  next := .arith .add .induction (.value (int32 l.step_sign) l.step)
  body := [.induction]

/-- The unrolled loop and its epilogue. Source: `LoopUnroll::unroll` (`hlt-loop-unroll.cpp:138`). -/
def unroll : Option (ForLoop × ForLoop) :=
  ((List.range f).mapM (l.copyIndex w)).bind fun orig_loop_body_copies =>
  (l.unrolledLoopStep w f).bind fun unrolled_loop_step =>
  (l.unrolledUpperBound w f).map fun unrolled_upper_bound =>
    ({ init := l.loop.init
       cond := .rel (if constValueIsPositive (l.stepConstant w) then .lte else .gte) .induction
        unrolled_upper_bound
       next := .arith .add .induction unrolled_loop_step
       body := orig_loop_body_copies },
     { l.loop with init := none })

/-- From the unrolled loop on, the epilogue runs to its end. -/
def UnrolledRuns (i : Int) (out : List Int) (v : Int) : Prop :=
  ∃ unrolled epilog, l.unroll w f = some (unrolled, epilog) ∧ ∃ out₁ u out₂,
    unrolled.Runs (int32 l.sign) i out₁ u ∧ epilog.Runs (int32 l.sign) u out₂ v ∧ out₁ ++ out₂ = out

/-- The loop and its unrolled form with its epilogue come to their ends, and their bodies read the same
indices in the same order, if no body jumps. -/
def SameIterations : Prop :=
  ∀ i, ∃ out v v', l.loop.Runs (int32 l.sign) i out v ∧ l.UnrolledRuns w f i out v'

end ForStatement

end

/-! ## Constants -/

/-- The integer of a constant: exact if it is signed, modulo two to the 32 if not. -/
def reduced (sign : Bool) (z : Int) : Int := if sign then z else z % 4294967296

section
variable {w : CValue} {s t : Bool} {x y z : Int}

@[simp] theorem type_constant : (constant w s z).type = int32 s := type_constValueGetInteger _ _

theorem word_constant : (constant w s z).i = BitVec.ofInt w.bits (reduced s z) := by
  cases s with
  | true => exact constValueGetInteger_of_sign _ rfl
  | false =>
    exact (constValueGetInteger_of_not_sign _ rfl).trans
      (Word.lowBits_ofInt ((int32 false).bits_le w) z)

/-- Two unsigned constants are one if they agree modulo two to the 32. -/
theorem constant_unsigned_congr (h : x ≡ y [ZMOD 4294967296]) : constant w false x = constant w false y := by
  have hi : (constant w false x).i = (constant w false y).i := by
    rw [word_constant, word_constant]
    exact congrArg (BitVec.ofInt w.bits) h
  have ht : (constant w false x).type = (constant w false y).type := by rw [type_constant, type_constant]
  cases hx : constant w false x
  cases hy : constant w false y
  simp_all

theorem reduced_modEq (s : Bool) (z : Int) : reduced s z ≡ z [ZMOD 4294967296] := by
  cases s with
  | true => exact rfl
  | false => exact Int.mod_modEq _ _

/-- A sum, a difference or a product of constants, folded. -/
theorem binopFun_constant {g : BitVec w.bits → BitVec w.bits → BitVec w.bits} {h : Int → Int → Int}
    (hom : ∀ x y, g (BitVec.ofInt w.bits x) (BitVec.ofInt w.bits y) = BitVec.ofInt w.bits (h x y))
    (hmod : ∀ {x x' y y'}, x ≡ x' [ZMOD 4294967296] → y ≡ y' [ZMOD 4294967296] →
      h x y ≡ h x' y' [ZMOD 4294967296]) :
    binopFun (fun a b => some (g a b)) (fun a b => some (g a b)) (constant w s x) (constant w t y) =
      some (constant w (s && t) (h x y)) := by
  unfold binopFun
  rw [type_constant, type_constant, commonBytes_int32, word_constant, word_constant]
  simp only [hom, ite_self, Option.map_some]
  refine congrArg some (show constant w (s && t) (h (reduced s x) (reduced t y)) = _ from ?_)
  cases hst : s && t with
  | true =>
    obtain ⟨rfl, rfl⟩ := Bool.and_eq_true_iff.1 hst
    rfl
  | false => exact constant_unsigned_congr (hmod (reduced_modEq s x) (reduced_modEq t y))

theorem constValueAdd_constant : constValueAdd (constant w s x) (constant w t y) =
    some (constant w (s && t) (x + y)) :=
  binopFun_constant (fun x y => (BitVec.ofInt_add x y).symm) Int.ModEq.add

theorem constValueSub_constant : constValueSub (constant w s x) (constant w t y) =
    some (constant w (s && t) (x - y)) :=
  binopFun_constant (fun x y => (Word.ofInt_sub x y).symm) Int.ModEq.sub

theorem constValueMul_constant : constValueMul (constant w s x) (constant w t y) =
    some (constant w (s && t) (x * y)) :=
  binopFun_constant (fun x y => (BitVec.ofInt_mul x y).symm) Int.ModEq.mul

/-- The cast to the type of another constant. -/
theorem constValueCastToBytes_constant : constValueCastToBytes (constant w true x) (int32 t) =
    constant w t x := by
  unfold constValueCastToBytes
  rw [word_constant]
  rfl

theorem inRange_long_iff : IntType.InRange ⟨.eight, true⟩ z ↔
    -9223372036854775808 ≤ z ∧ z < 9223372036854775808 :=
  inRange_of_sign rfl

/-- A signed constant stands for its integer as long as the wide word has it. -/
theorem stored_constant (hz : s = true → IntType.InRange ⟨.eight, true⟩ z) :
    (constant w s z).stored = reduced s z := by
  unfold ConstValue.stored
  rw [type_constant, word_constant]
  cases s with
  | true => exact toInt_wide rfl (hz rfl)
  | false =>
    refine Word.toNat_ofInt_of_mem (Int.emod_nonneg z (by decide)) ?_
    exact (Int.emod_lt_of_pos z (by decide)).trans_le (pow_le_pow ((int32 false).bits_le w))

theorem constValueToNodecl_constant (hz : s = true → IntType.InRange ⟨.eight, true⟩ z) :
    constValueToNodecl (constant w s z) = .value (minimalInteger s (reduced s z)) (reduced s z) := by
  rw [constValueToNodecl, stored_constant hz, type_constant]
  rfl

theorem minimalInteger_unsigned (z : Int) : minimalInteger false (reduced false z) = int32 false := by
  refine if_pos (inRange_unsigned_iff.2 ⟨Int.emod_nonneg z (by decide), ?_⟩)
  exact Int.emod_lt_of_pos z (by decide)

theorem constValueToNodecl_unsigned (z : Int) :
    constValueToNodecl (constant w false z) = .value (int32 false) (z % 4294967296) := by
  rw [constValueToNodecl_constant (s := false) nofun, minimalInteger_unsigned]
  rfl

end

/-! ## Sums and comparisons -/

section
variable {sign s : Bool} {i y z : Int} {op : Rel} {e : Expr}

theorem value_add_unsigned : Arith.add.value (int32 false) ((int32 false).convert y)
    ((int32 false).convert z) = some ((y + z) % 4294967296) := by
  rw [convert_unsigned32, convert_unsigned32]
  exact congrArg some (Int.add_emod y z 4294967296).symm

theorem inRange_long (h : (int32 sign).InRange z) : IntType.InRange ⟨.eight, true⟩ z :=
  h.widen rfl (by cases sign <;> decide) fun _ => by cases sign <;> decide

theorem commonBytes_long (sign : Bool) : commonBytes ⟨.eight, true⟩ (int32 sign) = ⟨.eight, true⟩ := by
  cases sign <;> rfl

theorem minimalInteger_signed (z : Int) :
    minimalInteger true z = int32 true ∧ (int32 true).InRange z ∨ minimalInteger true z = ⟨.eight, true⟩ := by
  unfold minimalInteger
  split
  · next h => exact .inl ⟨rfl, h⟩
  · exact .inr rfl

/-- The sum of a literal and the induction variable is the value of the type that it should be, but one of an
`int` and an `unsigned` literal is that value modulo two to the 32. -/
theorem eval_add_literal (hi : (int32 sign).InRange i) (hz : s = true → IntType.InRange ⟨.eight, true⟩ z)
    (hy : (int32 sign).InRange y) (hmod : z + i ≡ y [ZMOD 4294967296]) (hexact : s = true → z + i = y) :
    (Expr.arith .add (.value (minimalInteger s (reduced s z)) (reduced s z)) .induction).eval (int32 sign) i =
      some (if sign = true ∧ s = false then y % 4294967296 else y) := by
  have hunsigned : sign = false → y % 4294967296 = y := by
    rintro rfl
    have hrange := inRange_unsigned_iff.1 hy
    exact Int.emod_eq_of_lt hrange.1 hrange.2
  show Arith.add.value (commonBytes (minimalInteger s (reduced s z)) (int32 sign))
    ((commonBytes (minimalInteger s (reduced s z)) (int32 sign)).convert (reduced s z))
    ((commonBytes (minimalInteger s (reduced s z)) (int32 sign)).convert i) = _
  cases s with
  | false =>
    rw [minimalInteger_unsigned, commonBytes_int32, Bool.false_and, value_add_unsigned]
    have hsum : (reduced false z + i) % 4294967296 = y % 4294967296 :=
      ((reduced_modEq false z).add_right i).trans hmod
    rw [hsum]
    cases sign with
    | true => rfl
    | false => rw [if_neg (by simp), hunsigned rfl]
  | true =>
    rw [if_neg (by simp)]
    have hexact := hexact rfl
    rcases minimalInteger_signed (reduced true z) with ⟨htype, hrange⟩ | htype
    · rw [htype, commonBytes_int32, Bool.true_and]
      cases sign with
      | true =>
        rw [convert_of_inRange hrange, convert_of_inRange hi]
        show (int32 true).result (z + i) = some y
        rw [result_int32, if_pos rfl, hexact, if_pos hy]
      | false =>
        rw [value_add_unsigned, show reduced true z + i = y from hexact, hunsigned rfl]
    · rw [htype, commonBytes_long, show reduced true z = z from rfl, convert_of_inRange (hz rfl),
        convert_of_inRange (inRange_long hi)]
      show IntType.result ⟨.eight, true⟩ (z + i) = some y
      rw [IntType.result, if_pos rfl, hexact, if_pos (inRange_long hy)]

theorem commonBytes_comm : ∀ a b : IntType, commonBytes a b = commonBytes b a := by
  rintro ⟨a, a'⟩ ⟨b, b'⟩
  cases a <;> cases a' <;> cases b <;> cases b' <;> rfl

theorem eval_add_comm (var : IntType) (i : Int) (a b : Expr) :
    (Expr.arith .add a b).eval var i = (Expr.arith .add b a).eval var i := by
  rw [Expr.eval, Expr.eval, commonBytes_comm]
  cases a.eval var i with
  | none => cases b.eval var i <;> rfl
  | some x => cases b.eval var i with
    | none => rfl
    | some y =>
      show IntType.result _ (_ + _) = IntType.result _ (_ + _)
      rw [Int.add_comm]

/-- A comparison of an `int` with a value of a signed type. -/
theorem eval_rel_signed (hi : (int32 true).InRange i) (he : e.eval (int32 true) i = some y)
    (ht : e.type (int32 true) = int32 true ∧ (int32 true).InRange y ∨
      e.type (int32 true) = ⟨.eight, true⟩ ∧ IntType.InRange ⟨.eight, true⟩ y) :
    (Expr.rel op .induction e).eval (int32 true) i = some (if op.holds i y then 1 else 0) := by
  rw [Expr.eval, he]
  rcases ht with ⟨ht, hy⟩ | ⟨ht, hy⟩
  · simp only [ht, Expr.eval, Expr.type, commonBytes_int32, Bool.true_and, Option.bind_some,
      Option.map_some, convert_of_inRange hi, convert_of_inRange hy]
  · simp only [ht, Expr.eval, Expr.type, commonBytes_comm (int32 true), commonBytes_long, Option.bind_some,
      Option.map_some, convert_of_inRange (inRange_long hi), convert_of_inRange hy]

/-- A comparison with a value of type `unsigned`. -/
theorem eval_rel_unsigned (he : e.eval (int32 sign) i = some y) (ht : e.type (int32 sign) = int32 false) :
    (Expr.rel op .induction e).eval (int32 sign) i =
      some (if op.holds (i % 4294967296) (y % 4294967296) then 1 else 0) := by
  rw [Expr.eval, he]
  simp only [ht, Expr.eval, Expr.type, commonBytes_int32, Bool.and_false, Option.bind_some,
    Option.map_some, convert_unsigned32]

theorem ForLoop.test_eq_of_cond {loop : ForLoop} {var : IntType} {b : Bool}
    (h : loop.cond.eval var i = some (if b then 1 else 0)) : loop.test var i = some b := by
  rw [ForLoop.test, h]
  cases b <;> rfl

end

/-! ## The loop of the source -/

namespace ForStatement

variable (l : ForStatement)

/-- The test bounds the induction variable from above. -/
def upward : Bool := match l.test with
  | .lowerThan => true
  | .lowerOrEqual => true
  | .greaterThan => false
  | .greaterOrEqual => false

/-- The closed bound as an exact integer. -/
def closed : Int := match l.test with
  | .lowerThan => l.bound - 1
  | .lowerOrEqual => l.bound
  | .greaterThan => l.bound + 1
  | .greaterOrEqual => l.bound

/-- What the loop adds: an unsigned step that is to lead downwards is a negative one modulo two to the 32. -/
def stride : Int := if l.step_sign = true ∨ l.upward = true then l.step else l.step - 4294967296

def count : Nat := tripCount l.lower_bound l.closed l.stride

/-- The induction variable after `k` iterations. -/
def value (k : Nat) : Int := l.lower_bound + k * l.stride

/-- The loop is strictly increasing or strictly decreasing, whichever its test says, up to the value at
which it stops: that value is one of the type too. Source: `_loop_trend` (`tl-nodecl-utils.cpp:2074`). -/
structure Regular : Prop where
  trend : l.upward = true ↔ 0 < l.stride
  last_inRange : (int32 l.sign).InRange (l.value l.count)

variable {l} {w : CValue} {i : Int} {k m : Nat}

theorem int_step_bounds (h : l.step_sign = true) : -2147483648 ≤ l.step ∧ l.step < 2147483648 := by
  have hrange := l.step_inRange
  rw [h] at hrange
  exact inRange_int_iff.1 hrange

theorem unsigned_step_bounds (h : l.step_sign = false) : 0 < l.step ∧ l.step < 4294967296 := by
  have hrange := l.step_inRange
  have hne := l.step_ne_zero
  rw [h] at hrange
  have hbounds := inRange_unsigned_iff.1 hrange
  omega

theorem stride_ne_zero : l.stride ≠ 0 := by
  unfold stride
  split
  · exact l.step_ne_zero
  · next h =>
    have hbounds := unsigned_step_bounds (l := l) (Bool.eq_false_iff.2 fun hs => h (.inl hs))
    omega

theorem stride_modEq : l.stride ≡ l.step [ZMOD 4294967296] := by
  unfold stride
  split
  · exact rfl
  · exact Int.sub_emod_right l.step 4294967296

theorem stride_eq_step (h : l.step_sign = true) : l.stride = l.step := if_pos (.inl h)

theorem value_add (m k : Nat) : l.value (m + k) = l.value m + k * l.stride := by
  unfold value
  push_cast
  ring

theorem value_succ (k : Nat) : l.value (k + 1) = l.value k + l.stride := by
  rw [value_add]
  ring

theorem lt_count_iff : k < l.count ↔ within l.closed l.stride (l.value k) = true :=
  lt_tripCount_iff stride_ne_zero

theorem Regular.value_inRange (h : l.Regular) (hk : k ≤ l.count) : (int32 l.sign).InRange (l.value k) := by
  have hlower := inRange_int32_iff.1 l.lower_inRange
  have hlast := inRange_int32_iff.1 h.last_inRange
  refine inRange_int32_iff.2 ?_
  have hk : (k : Int) ≤ l.count := by exact_mod_cast hk
  have hk0 : (0 : Int) ≤ k := Int.natCast_nonneg k
  unfold value at hlast ⊢
  rcases lt_or_gt_of_ne (stride_ne_zero (l := l)) with hneg | hpos
  · have hle := Int.mul_le_mul_of_nonpos_right hk hneg.le
    have hle0 := Int.mul_nonpos_of_nonneg_of_nonpos hk0 hneg.le
    omega
  · have hle := Int.mul_le_mul_of_nonneg_right hk hpos.le
    have hle0 := Int.mul_nonneg hk0 hpos.le
    omega

theorem Regular.value_bounds (h : l.Regular) (hsign : l.sign = true) (hk : k ≤ l.count) :
    -2147483648 ≤ l.value k ∧ l.value k < 2147483648 := by
  have hvalue := h.value_inRange hk
  rw [hsign] at hvalue
  exact inRange_int_iff.1 hvalue

theorem Regular.within_eq (h : l.Regular) (i : Int) : within l.closed l.stride i =
    if l.upward then decide (i ≤ l.closed) else decide (l.closed ≤ i) := by
  have htrend := h.trend
  have hne := stride_ne_zero (l := l)
  unfold within
  cases hup : l.upward with
  | true => rw [if_neg (by have := htrend.1 hup; omega), if_pos rfl]
  | false =>
    have hnot : ¬ 0 < l.stride := fun hpos => by simp [htrend.2 hpos] at hup
    rw [if_pos (by omega), if_neg (by decide)]

theorem Regular.test_loop (h : l.Regular) (hi : (int32 l.sign).InRange i) :
    l.loop.test (int32 l.sign) i = some (within l.closed l.stride i) := by
  have hholds : l.test.rel.holds i l.bound = within l.closed l.stride i := by
    rw [h.within_eq]
    unfold upward closed
    cases l.test with
    | lowerThan => exact decide_eq_decide.2 Int.le_sub_one_iff.symm
    | lowerOrEqual => rfl
    | greaterThan => exact decide_eq_decide.2 Int.add_one_le_iff.symm
    | greaterOrEqual => rfl
  refine ForLoop.test_eq_of_cond ?_
  show some (if l.test.rel.holds ((commonBytes (int32 l.sign) (int32 l.sign)).convert i)
    ((commonBytes (int32 l.sign) (int32 l.sign)).convert l.bound) then 1 else 0) = _
  rw [commonBytes_int32, Bool.and_self, convert_of_inRange hi,
    convert_of_inRange l.bound_inRange, hholds]

/-! ## Running the loops -/

theorem reduced_step : reduced l.step_sign l.step = l.step := by
  cases hs : l.step_sign with
  | true => rfl
  | false =>
    have hbounds := unsigned_step_bounds hs
    exact Int.emod_eq_of_lt hbounds.1.le hbounds.2

/-- Steps of type `int` stay far inside the type `long`. -/
theorem mul_step_bounds (hm : m < 2147483648) (hs : l.step_sign = true) :
    -4611686018427387904 ≤ m * l.step ∧ m * l.step ≤ 4611686018427387904 := by
  have hbounds := int_step_bounds hs
  have hm : (m : Int) ≤ 2147483647 := by omega
  have hlow := Int.mul_le_mul_of_nonneg_left hbounds.1 (Int.natCast_nonneg m)
  have hhigh := Int.mul_le_mul_of_nonneg_left hbounds.2.le (Int.natCast_nonneg m)
  omega

theorem inRange_long_mul (hm : m < 2147483648) (hs : l.step_sign = true) :
    IntType.InRange ⟨.eight, true⟩ (m * l.step) := by
  have hbounds := mul_step_bounds hm hs
  exact inRange_long_iff.2 ⟨by omega, by omega⟩

/-- A sum of `m` steps, as a literal, and the induction variable. -/
theorem eval_add_steps (hm : m < 2147483648) (hi : (int32 l.sign).InRange i)
    (hsum : (int32 l.sign).InRange (i + m * l.stride)) :
    (Expr.arith .add (constValueToNodecl (LoopUnroll.constant w l.step_sign (m * l.step)))
        .induction).eval (int32 l.sign) i =
      some (if l.sign = true ∧ l.step_sign = false then (i + m * l.stride) % 4294967296
        else i + m * l.stride) := by
  rw [constValueToNodecl_constant (inRange_long_mul hm)]
  refine eval_add_literal hi (inRange_long_mul hm) hsum ?_ fun hs => ?_
  · rw [Int.add_comm]
    exact (stride_modEq.symm.mul_left _).add_left _
  · rw [stride_eq_step hs, Int.add_comm]

theorem convert_summed (hi : (int32 l.sign).InRange i) :
    (int32 l.sign).convert (if l.sign = true ∧ l.step_sign = false then i % 4294967296 else i) = i := by
  split
  · rw [convert_int32, Int.emod_sub_emod, ← convert_int32, convert_of_inRange hi]
  · exact convert_of_inRange hi

/-- An assignment `i = i + literal` of the header. -/
theorem advance_add_steps {loop : ForLoop} (hm : m < 2147483648) (hi : (int32 l.sign).InRange i)
    (hsum : (int32 l.sign).InRange (i + m * l.stride))
    (hnext : loop.next = .arith .add .induction
      (constValueToNodecl (LoopUnroll.constant w l.step_sign (m * l.step)))) :
    loop.advance (int32 l.sign) i = some (i + m * l.stride) := by
  rw [ForLoop.advance, hnext, eval_add_comm, eval_add_steps hm hi hsum, Option.map_some, convert_summed hsum]

theorem advance_loop (hi : (int32 l.sign).InRange i) (hnext : (int32 l.sign).InRange (i + l.stride)) :
    l.loop.advance (int32 l.sign) i = some (i + l.stride) := by
  have hone : i + (1 : Nat) * l.stride = i + l.stride := by ring
  rw [← hone] at hnext ⊢
  refine advance_add_steps (w := .int64) (by decide) hi hnext ?_
  rw [constValueToNodecl_constant (inRange_long_mul (by decide)), Nat.cast_one, Int.one_mul, reduced_step]
  exact congrArg (fun t => Expr.arith .add .induction (.value t l.step)) (if_pos l.step_inRange).symm

theorem Regular.test_value (h : l.Regular) (hk : k ≤ l.count) :
    l.loop.test (int32 l.sign) (l.value k) = some (decide (k < l.count)) := by
  rw [h.test_loop (h.value_inRange hk)]
  exact congrArg some (Bool.eq_iff_iff.2 (lt_count_iff.symm.trans decide_eq_true_iff.symm))

theorem Regular.test_value_lt (h : l.Regular) (hk : k < l.count) :
    l.loop.test (int32 l.sign) (l.value k) = some true := by
  rw [h.test_value hk.le, decide_eq_true hk]

theorem Regular.test_value_count (h : l.Regular) :
    l.loop.test (int32 l.sign) (l.value l.count) = some false := by
  rw [h.test_value le_rfl, decide_eq_false (lt_irrefl _)]

theorem Regular.advance_value (h : l.Regular) (hk : k < l.count) :
    l.loop.advance (int32 l.sign) (l.value k) = some (l.value (k + 1)) := by
  have hnext := h.value_inRange (Nat.succ_le_of_lt hk)
  rw [value_succ] at hnext ⊢
  exact advance_loop (h.value_inRange hk.le) hnext

theorem start_loop (i : Int) : l.loop.start (int32 l.sign) i = some (l.value 0) := by
  show some ((int32 l.sign).convert l.lower_bound) = _
  rw [convert_of_inRange l.lower_inRange, value, Nat.cast_zero, Int.zero_mul, Int.add_zero]

theorem runBody_loop (k : Nat) : l.loop.runBody (int32 l.sign) (l.value k) = some [l.value k] := rfl

/-- The loop of the source runs its body with the first `count` values. -/
theorem Regular.runs_loop (h : l.Regular) (i : Int) :
    l.loop.Runs (int32 l.sign) i ((List.range l.count).map l.value) (l.value l.count) := by
  refine ⟨l.value 0, start_loop i, ?_⟩
  have htrace := loopTrace_of_le l.count.zero_le (fun _ => h.test_value_lt) (fun k _ => runBody_loop k)
    (fun _ => h.advance_value) h.test_value_count
  rwa [Nat.sub_zero, ← List.range_eq_range'] at htrace

theorem Regular.runs_loop_iff (h : l.Regular) {out : List Int} {v : Int} :
    l.loop.Runs (int32 l.sign) i out v ↔ out = (List.range l.count).map l.value ∧ v = l.value l.count := by
  constructor
  · rintro ⟨u, hstart, htrace⟩
    obtain ⟨u', hstart', htrace'⟩ := h.runs_loop i
    obtain rfl := Option.some.inj (hstart.symm.trans hstart')
    exact htrace.unique htrace'
  · rintro ⟨rfl, rfl⟩
    exact h.runs_loop i

end ForStatement

/-! ## The unrolled loop -/

theorem mapM_eq_some_iff {α β : Type*} {g : α → Option β} :
    ∀ {as : List α} {bs : List β}, as.mapM g = some bs ↔ as.map g = bs.map some
  | [], bs => by cases bs <;> simp
  | a :: as, [] => by
    rw [List.mapM_cons]
    cases g a <;> cases as.mapM g <;> simp
  | a :: as, b :: bs => by
    rw [List.mapM_cons, List.map_cons, List.map_cons, List.cons.injEq, ← mapM_eq_some_iff]
    cases g a <;> cases as.mapM g <;> simp

namespace ForStatement

variable (w : CValue) (l : ForStatement) (f : Nat)

/-- The copy of the body number `k`, with its folded offset. -/
def copyExpr (k : Nat) : Expr :=
  if k = 0 then .induction
  else .arith .add (constValueToNodecl (LoopUnroll.constant w l.step_sign (k * l.step))) .induction

/-- The unrolled loop with a given bound, and its folded step. -/
def unrolledLoop (upper : Expr) : ForLoop where
  init := l.loop.init
  cond := .rel (if 0 < l.step then .lte else .gte) .induction upper
  next := .arith .add .induction (constValueToNodecl (LoopUnroll.constant w l.step_sign (f * l.step)))
  body := (List.range f).map (l.copyExpr w)

variable {w l f} {i : Int} {k j : Nat} {upper : Expr}

theorem stored_stepConstant : (l.stepConstant w).stored = l.step := by
  refine (stored_constant fun hs => ?_).trans reduced_step
  have hmul := inRange_long_mul (m := 1) (by decide) hs
  rwa [Nat.cast_one, Int.one_mul] at hmul

theorem copyIndex_eq (k : Nat) : l.copyIndex w k = some (l.copyExpr w k) := by
  unfold copyIndex copyExpr
  split
  · rfl
  · rw [constValueGetSignedInt, stepConstant, constValueMul_constant, Bool.true_and, Option.map_some]

theorem unrolledLoopStep_eq : l.unrolledLoopStep w f =
    some (constValueToNodecl (LoopUnroll.constant w l.step_sign (f * l.step))) := by
  unfold unrolledLoopStep
  rw [constValueGetSignedInt, stepConstant, type_constant, constValueCastToBytes_constant,
    constValueMul_constant, Bool.and_self, Option.map_some, Int.mul_comm]

theorem unroll_eq : l.unroll w f =
    (l.unrolledUpperBound w f).map fun upper => (l.unrolledLoop w f upper, { l.loop with init := none }) := by
  have hcopies : (List.range f).mapM (l.copyIndex w) = some ((List.range f).map (l.copyExpr w)) := by
    rw [mapM_eq_some_iff, List.map_map]
    exact List.map_congr_left fun k _ => copyIndex_eq k
  unfold unroll
  rw [hcopies, unrolledLoopStep_eq, constValueIsPositive, stored_stepConstant]
  simp only [Option.bind_some, decide_eq_true_eq]
  rfl

theorem length_runBody {r : List Int} (h : (l.unrolledLoop w f upper).runBody (int32 l.sign) i = some r) :
    r.length = f := by
  have hmap := congrArg List.length (mapM_eq_some_iff.1 h)
  simpa [unrolledLoop] using hmap.symm

theorem eval_copyExpr (hk : k < 2147483648) (hi : (int32 l.sign).InRange i)
    (hsum : (int32 l.sign).InRange (i + k * l.stride)) : (l.copyExpr w k).eval (int32 l.sign) i =
      some (if k ≠ 0 ∧ l.sign = true ∧ l.step_sign = false then (i + k * l.stride) % 4294967296
        else i + k * l.stride) := by
  unfold copyExpr
  split
  · next hzero => simp [hzero, Expr.eval]
  · next hzero => simp [hzero, eval_add_steps hk hi hsum]

/-- The copies of the body that start `j` iterations after the lower bound, where these are iterations of the
loop: the index of a copy is not what it should be if it is negative and the step is unsigned. -/
theorem Regular.runBody_eq_iff (h : l.Regular) (hf : f < 2147483648) (hj : j + f ≤ l.count) :
    (l.unrolledLoop w f upper).runBody (int32 l.sign) (l.value j) = some ((List.range' j f).map l.value) ↔
      (l.sign = true → l.step_sign = false → ∀ k < f, k ≠ 0 → 0 ≤ l.value (j + k)) := by
  have hcopy : ∀ k < f, (l.copyExpr w k).eval (int32 l.sign) (l.value j) = some (l.value (j + k)) ↔
      (l.sign = true → l.step_sign = false → k ≠ 0 → 0 ≤ l.value (j + k)) := by
    intro k hk
    have hrange := h.value_inRange (show j + k ≤ l.count by omega)
    rw [value_add] at hrange
    rw [eval_copyExpr (hk.trans hf) (h.value_inRange (by omega)) hrange, ← value_add, Option.some_inj]
    split
    · next hwraps =>
      have hbounds := h.value_bounds hwraps.2.1 (show j + k ≤ l.count by omega)
      constructor
      · intro heq _ _ _
        omega
      · intro hnonneg
        have := hnonneg hwraps.2.1 hwraps.2.2 hwraps.1
        omega
    · next hexact => exact iff_of_true rfl fun hsign hstep hk => absurd ⟨hk, hsign, hstep⟩ hexact
  unfold ForLoop.runBody unrolledLoop
  rw [mapM_eq_some_iff, List.range'_eq_map_range, List.map_map, List.map_map, List.map_map, List.map_inj_left]
  simp only [List.mem_range, Function.comp_apply]
  constructor
  · intro hall hsign hstep k hk
    exact (hcopy k hk).1 (hall k hk) hsign hstep
  · intro hall k hk
    exact (hcopy k hk).2 fun hsign hstep => hall hsign hstep k hk

theorem Regular.advance_unrolled (h : l.Regular) (hf : f < 2147483648) (hj : j + f ≤ l.count) :
    (l.unrolledLoop w f upper).advance (int32 l.sign) (l.value j) = some (l.value (j + f)) := by
  have hrange := h.value_inRange hj
  rw [value_add] at hrange ⊢
  exact advance_add_steps hf (h.value_inRange (by omega)) hrange rfl

/-- The traces of the unrolled loop, from the lower bound on, and of the epilogue. -/
theorem Regular.sameIterations_iff (h : l.Regular) (hupper : l.unrolledUpperBound w f = some upper) :
    l.SameIterations w f ↔ ∃ out₁ u out₂ v,
      LoopTrace ((l.unrolledLoop w f upper).test (int32 l.sign))
        ((l.unrolledLoop w f upper).runBody (int32 l.sign))
        ((l.unrolledLoop w f upper).advance (int32 l.sign)) (l.value 0) out₁ u ∧
      LoopTrace (l.loop.test (int32 l.sign)) (l.loop.runBody (int32 l.sign)) (l.loop.advance (int32 l.sign))
        u out₂ v ∧ out₁ ++ out₂ = (List.range l.count).map l.value := by
  unfold SameIterations UnrolledRuns
  rw [unroll_eq, hupper, Option.map_some]
  constructor
  · intro hsame
    obtain ⟨out, v, v', hsource, unrolled, epilog, hunroll, out₁, u, out₂, hmain, hepilog, hout⟩ := hsame 0
    obtain ⟨rfl, rfl⟩ := Prod.ext_iff.1 (Option.some.inj hunroll)
    obtain ⟨_, hstart, hmain⟩ := hmain
    obtain ⟨_, hstart', hepilog⟩ := hepilog
    obtain rfl := Option.some.inj ((start_loop 0).symm.trans hstart)
    obtain rfl := Option.some.inj hstart'
    exact ⟨out₁, u, out₂, v', hmain, hepilog, hout.trans (h.runs_loop_iff.1 hsource).1⟩
  · rintro ⟨out₁, u, out₂, v, hmain, hepilog, hout⟩ i
    exact ⟨_, _, v, h.runs_loop i, _, _, rfl, out₁, u, out₂, ⟨_, start_loop i, hmain⟩, ⟨u, rfl, hepilog⟩,
      hout⟩

/-- **The unrolled loop and the epilogue**, for a bound that the unrolled loop has: it stops after full blocks
of the loop of the source, and the copies in them read what they should. -/
theorem Regular.unrolled_iff (h : l.Regular) (hf : f < 2147483648)
    (hupper : l.unrolledUpperBound w f = some upper) : l.SameIterations w f ↔
      Blocks (fun j => (l.unrolledLoop w f upper).test (int32 l.sign) (l.value (j * f)))
        (fun j => l.sign = true → l.step_sign = false → ∀ k < f, k ≠ 0 → 0 ≤ l.value (j * f + k))
        f l.count := by
  have hadvance : ∀ j, (j + 1) * f ≤ l.count → (l.unrolledLoop w f upper).advance (int32 l.sign)
      (l.value (j * f)) = some (l.value ((j + 1) * f)) := by
    intro j hj
    rw [Nat.succ_mul] at hj ⊢
    exact h.advance_unrolled hf hj
  have hlength : ∀ x r, (l.unrolledLoop w f upper).runBody (int32 l.sign) x = some r → r.length = f :=
    fun _ _ => length_runBody
  rw [h.sameIterations_iff hupper]
  refine Iff.trans (exists_unrolled_iff (fun _ => h.test_value_lt) (fun k _ => runBody_loop k)
    (fun _ => h.advance_value) h.test_value_count hlength hadvance) (Blocks.congr_ok fun j hj => ?_)
  refine h.runBody_eq_iff hf ?_
  rwa [← Nat.succ_mul]

end ForStatement

end OmpSs.Mcxx.LoopUnroll
