import OmpSs.Mcxx.Cexpr
import OmpSs.Mcxx.Ranges

/-!
# Ranges of folded constants

The constants of the boundaries are those of the front end (`Mcxx.Cexpr`): an integer in the wide word, with
the bytes and the sign of its type. The operations on ranges fold them, so what they leave is the exact
integer modulo the wide word, or modulo the type where it is unsigned (`FoldsTo`). Where it `Fits`, the fold is
exact, and a boundary stands for the one over exact integers (`Boundary.exact`).
-/

namespace OmpSs.Mcxx.FoldedRanges

open Lib Lib.Word Cexpr
open Ranges (Op)

variable {w : CValue}

/-! ## Constants -/

/-- A constant without bits above an unsigned type, as `const_value_get_integer` makes it. -/
structure Constant (w : CValue) extends ConstValue w where
  made : type.sign = false → i.toNat < 2 ^ type.bits
deriving DecidableEq

theorem made_getInteger (value : BitVec w.bits) (t : IntType) :
    (constValueGetInteger value t).type.sign = false →
      (constValueGetInteger value t).i.toNat < 2 ^ (constValueGetInteger value t).type.bits := by
  intro hs
  unfold constValueGetInteger at hs ⊢
  split
  · rw [lowBits_eq_setWidth, BitVec.toNat_setWidth]
    exact (Nat.mod_le _ _).trans_lt (BitVec.isLt _)
  · next hwide =>
    rw [if_neg hwide] at hs
    have hle := not_lt.1 (not_and.1 hwide hs)
    exact value.isLt.trans_le (Nat.pow_le_pow_right (by decide) (Nat.mul_le_mul_left 8 hle))

/-- Source: `const_value_get_integer` (`cxx-cexpr.c:418`). -/
def Constant.getInteger (value : BitVec w.bits) (t : IntType) : Constant w :=
  ⟨constValueGetInteger value t, made_getInteger value t⟩

/-- A constant of type `int`. -/
def Constant.ofInt (w : CValue) (k : Int) : Constant w := .getInteger (BitVec.ofInt _ k) .signedInt

/-- A constant of type `unsigned int`. -/
def Constant.ofUnsigned (w : CValue) (k : Int) : Constant w := .getInteger (BitVec.ofInt _ k) ⟨.four, false⟩

/-- The type of an operation on two constants. -/
def Constant.common (c d : Constant w) : IntType := commonBytes c.type d.type

/-- Source: `const_value_add` (`cxx-cexpr.c:3604`). -/
def Constant.add (c d : Constant w) : Constant w := .getInteger (c.i + d.i) (c.common d)

/-- Source: `const_value_sub` (`cxx-cexpr.c:3605`). -/
def Constant.sub (c d : Constant w) : Constant w := .getInteger (c.i - d.i) (c.common d)

/-- Source: `const_value_mul` (`cxx-cexpr.c:3606`). -/
def Constant.mul (c d : Constant w) : Constant w := .getInteger (c.i * d.i) (c.common d)

/-- `none`: the compiler divides by zero, or the quotient is no `cvalue_int_t`. Source: `const_value_div`
(`cxx-cexpr.c:3607`). -/
def Constant.div (c d : Constant w) : Option (Constant w) :=
  (if (c.common d).sign then trapping BitVec.sdiv c.i d.i else trappingZero BitVec.udiv c.i d.i).map
    fun value => .getInteger value (c.common d)

/-- Source: `const_value_get_integer(LONG_MIN, sizeof(long), 1)`, the constant of `minus_inf`. -/
def longMin : Constant w := .getInteger (.ofInt _ Ranges.longMin) ⟨.eight, true⟩

/-- Source: `const_value_get_integer(LONG_MAX, sizeof(long), 1)`, the constant of `plus_inf`. -/
def longMax : Constant w := .getInteger (.ofInt _ Ranges.longMax) ⟨.eight, true⟩

/-- Source: `CmpResult`. -/
inductive CmpResult
  | equal
  | smaller
  | bigger
deriving DecidableEq

/-- Source: `compare_constants` (`tl-analysis-utils.cpp:692`). -/
def compareConstants (lhs rhs : Constant w) : CmpResult :=
  if rhs.type.sign then
    let sub := (lhs.sub rhs).stored
    if sub = 0 then .equal else if sub > 0 then .bigger else .smaller
  else if lhs.type.sign then
    let sub := (rhs.sub lhs).stored
    if sub = 0 then .equal else if sub > 0 then .smaller else .bigger
  else
    let lhs_uint := lhs.i.toNat % 2 ^ 64
    let rhs_uint := rhs.i.toNat % 2 ^ 64
    if lhs_uint = rhs_uint then .equal else if lhs_uint < rhs_uint then .smaller else .bigger

/-! ## What a fold leaves -/

/-- The least integer that a fold of the type leaves. -/
def least (w : CValue) (t : IntType) : Int := if t.sign then -(2 : Int) ^ (w.bits - 1) else 0

/-- The greatest. -/
def greatest (w : CValue) (t : IntType) : Int :=
  if t.sign then (2 : Int) ^ (w.bits - 1) - 1 else (2 : Int) ^ t.bits - 1

/-- The integer is one that a fold of the type leaves: one of the wide word, or of an unsigned type. -/
def Fits (w : CValue) (t : IntType) (z : Int) : Prop := least w t ≤ z ∧ z ≤ greatest w t

instance (t : IntType) (z : Int) : Decidable (Fits w t z) := inferInstanceAs (Decidable (_ ∧ _))

/-- What folds are exact up to. -/
def modulus (w : CValue) (t : IntType) : Int := if t.sign then (2 : Int) ^ w.bits else (2 : Int) ^ t.bits

theorem greatest_eq (w : CValue) (t : IntType) : greatest w t + 1 = least w t + modulus w t := by
  unfold greatest least modulus
  split
  · have hpow : (2 : Int) ^ w.bits = 2 * 2 ^ (w.bits - 1) := by
      cases w <;> decide
    omega
  · omega

/-- The constant is what a fold leaves of an exact integer. -/
structure FoldsTo (t : IntType) (z : Int) (k : Constant w) : Prop where
  type_eq : k.type = t
  fits : Fits w t k.stored
  congr : modulus w t ∣ k.stored - z

section
variable {t : IntType} {z : Int} {k c d : Constant w}

/-- What is left is no more than the exact integer if that is not too small for the type. -/
theorem FoldsTo.le_iff (h : FoldsTo t z k) : k.stored ≤ z ↔ least w t ≤ z := by
  have hend := greatest_eq w t
  obtain ⟨-, ⟨hleast, hgreatest⟩, j, hj⟩ := h
  refine ⟨hleast.trans, fun hz => ?_⟩
  by_contra hlt
  have hmod : 0 < modulus w t := by omega
  have hpos : 0 < modulus w t * j := by omega
  have hone : 1 ≤ j := pos_of_mul_pos_right hpos hmod.le
  have := mul_le_mul_of_nonneg_left hone hmod.le
  omega

/-- And no less if it is not too large. -/
theorem FoldsTo.ge_iff (h : FoldsTo t z k) : z ≤ k.stored ↔ z ≤ greatest w t := by
  have hend := greatest_eq w t
  obtain ⟨-, ⟨hleast, hgreatest⟩, j, hj⟩ := h
  refine ⟨fun hz => hz.trans hgreatest, fun hz => ?_⟩
  by_contra hlt
  have hmod : 0 < modulus w t := by omega
  have hneg : modulus w t * j < 0 := by omega
  have hone : j ≤ -1 := by
    have := neg_of_mul_neg_right hneg hmod.le
    omega
  have := mul_le_mul_of_nonneg_left hone hmod.le
  omega

theorem FoldsTo.eq_of_fits (h : FoldsTo t z k) (hz : Fits w t z) : k.stored = z :=
  le_antisymm (h.le_iff.2 hz.1) (h.ge_iff.2 hz.2)

/-- The word of a constant is that of its integer. -/
theorem ofInt_stored (c : ConstValue w) : BitVec.ofInt w.bits c.stored = c.i := by
  unfold ConstValue.stored
  split
  · exact BitVec.ofInt_toInt
  · exact ofInt_toNat c.i

theorem foldsTo_getInteger (t : IntType) (z : Int) :
    FoldsTo t z (Constant.getInteger (w := w) (BitVec.ofInt w.bits z) t) := by
  have hpow : ∀ n, (0 : Int) < 2 ^ n := fun n => Int.pow_pos (by decide)
  have htype : (Constant.getInteger (BitVec.ofInt w.bits z) t).type = t := type_constValueGetInteger _ t
  cases hs : t.sign with
  | false =>
    have hword : (Constant.getInteger (BitVec.ofInt w.bits z) t).i = BitVec.ofInt w.bits (z % (2 : Int) ^ t.bits) :=
      getInteger_ofInt hs z
    have hmod := Int.emod_nonneg z (hpow t.bits).ne'
    have hlt := Int.emod_lt_of_pos z (hpow t.bits)
    have hle := Cexpr.pow_le_pow (t.bits_le w)
    have hstored : (Constant.getInteger (BitVec.ofInt w.bits z) t).stored = z % (2 : Int) ^ t.bits := by
      rw [ConstValue.stored, htype, hs, if_neg Bool.false_ne_true, hword, toNat_ofInt_of_mem hmod (by omega)]
    refine ⟨htype, ?_, ?_⟩
    · rw [Fits, hstored, least, greatest, hs, if_neg Bool.false_ne_true, if_neg Bool.false_ne_true]
      omega
    · rw [hstored, modulus, hs, if_neg Bool.false_ne_true]
      exact Int.dvd_emod_sub_self
  | true =>
    have hword : (Constant.getInteger (BitVec.ofInt w.bits z) t).i = BitVec.ofInt w.bits z :=
      constValueGetInteger_of_sign _ hs
    have hstored : (Constant.getInteger (BitVec.ofInt w.bits z) t).stored = (BitVec.ofInt w.bits z).toInt := by
      rw [ConstValue.stored, htype, hs, if_pos rfl, hword]
    refine ⟨htype, ?_, ?_⟩
    · have hlow := BitVec.le_toInt (BitVec.ofInt w.bits z)
      have hhigh := BitVec.toInt_lt (x := BitVec.ofInt w.bits z)
      rw [Fits, hstored, least, greatest, hs, if_pos rfl, if_pos rfl]
      exact ⟨hlow, Int.le_sub_one_of_lt hhigh⟩
    · rw [hstored, modulus, hs, if_pos rfl, BitVec.toInt_ofInt]
      exact_mod_cast Int.dvd_bmod_sub_self

theorem foldsTo_add (c d : Constant w) : FoldsTo (c.common d) (c.stored + d.stored) (c.add d) := by
  have h := foldsTo_getInteger (w := w) (c.common d) (c.stored + d.stored)
  rwa [BitVec.ofInt_add, ofInt_stored, ofInt_stored] at h

theorem foldsTo_sub (c d : Constant w) : FoldsTo (c.common d) (c.stored - d.stored) (c.sub d) := by
  have h := foldsTo_getInteger (w := w) (c.common d) (c.stored - d.stored)
  rwa [ofInt_sub, ofInt_stored, ofInt_stored] at h

theorem foldsTo_mul (c d : Constant w) : FoldsTo (c.common d) (c.stored * d.stored) (c.mul d) := by
  have h := foldsTo_getInteger (w := w) (c.common d) (c.stored * d.stored)
  rwa [BitVec.ofInt_mul, ofInt_stored, ofInt_stored] at h

/-- The integer of an unsigned constant is one of its type. -/
theorem Constant.toNat_lt (hs : c.type.sign = false) : c.i.toNat < 2 ^ 64 := by
  refine (c.made hs).trans_le (Nat.pow_le_pow_right (by decide) ?_)
  unfold IntType.bits
  cases c.type.num_bytes <;> decide

/-- The difference that is folded to compare two integers of the types is exact. Two unsigned ones are
compared without. -/
def ComparableAs (w : CValue) (k : Int) (s : IntType) (l : Int) (t : IntType) : Prop :=
  if t.sign then Fits w (commonBytes s t) (k - l)
  else if s.sign then Fits w (commonBytes t s) (l - k) else True

instance (k : Int) (s : IntType) (l : Int) (t : IntType) : Decidable (ComparableAs w k s l t) := by
  unfold ComparableAs
  infer_instance

def Comparable (c d : Constant w) : Prop := ComparableAs w c.stored c.type d.stored d.type

theorem compareConstants_eq (h : Comparable c d) : compareConstants c d =
    if c.stored = d.stored then .equal else if c.stored < d.stored then .smaller else .bigger := by
  unfold Comparable ComparableAs at h
  unfold compareConstants
  dsimp only
  split at h
  · next ht =>
    rw [if_pos ht, (foldsTo_sub c d).eq_of_fits h]
    split_ifs <;> first | rfl | omega
  · next ht =>
    rw [if_neg ht]
    split at h
    · next hs =>
      rw [if_pos hs, (foldsTo_sub d c).eq_of_fits h]
      split_ifs <;> first | rfl | omega
    · next hs =>
      have hc := Constant.toNat_lt (c := c) (by simpa using hs)
      have hd := Constant.toNat_lt (c := d) (by simpa using ht)
      rw [if_neg hs, ConstValue.stored, ConstValue.stored, if_neg hs, if_neg ht, Nat.mod_eq_of_lt hc,
        Nat.mod_eq_of_lt hd]
      split_ifs <;> first | rfl | omega

theorem compareConstants_eq_bigger_iff (h : Comparable c d) : compareConstants c d = .bigger ↔ d.stored < c.stored := by
  rw [compareConstants_eq h]
  split_ifs <;> simp <;> omega

theorem compareConstants_eq_smaller_iff (h : Comparable c d) :
    compareConstants c d = .smaller ↔ c.stored < d.stored := by
  rw [compareConstants_eq h]
  split_ifs <;> simp <;> omega

@[simp] theorem stored_longMin : (longMin : Constant w).stored = Ranges.longMin := by
  cases w <;> decide

@[simp] theorem stored_longMax : (longMax : Constant w).stored = Ranges.longMax := by
  cases w <;> decide

end

/-! ## Boundaries -/

/-- Source: the `NBase` of a boundary. -/
inductive Boundary (w : CValue)
  | const (c : Constant w)
  | minusInfinity
  | plusInfinity
  | symbol (x : Nat)
  | minimum (exprs : List (Boundary w))
  | maximum (exprs : List (Boundary w))

/-- Source: `is_constant` and `get_constant`. -/
def Boundary.constant : Boundary w → Option (Constant w)
  | .const c => some c
  | .minusInfinity => some longMin
  | .plusInfinity => some longMax
  | .symbol _ => none
  | .minimum _ => none
  | .maximum _ => none

mutual
/-- The boundary over exact integers that a boundary stands for. -/
def Boundary.exact : Boundary w → Ranges.Boundary
  | .const c => .const c.stored
  | .minusInfinity => .minusInfinity
  | .plusInfinity => .plusInfinity
  | .symbol x => .symbol x
  | .minimum exprs => .minimum (exactList exprs)
  | .maximum exprs => .maximum (exactList exprs)

def exactList : List (Boundary w) → List Ranges.Boundary
  | [] => []
  | e :: es => e.exact :: exactList es
end

/-- Source: `Range`. The increment is zero in every range that these operations build. -/
structure Range (w : CValue) where
  lower : Boundary w
  upper : Boundary w

def Range.exact (r : Range w) : Ranges.Range := ⟨r.lower.exact, r.upper.exact⟩

/-- What the operations on boundaries give: a boundary, or an operation that is left to be computed. -/
inductive Expr (w : CValue)
  | boundary (b : Boundary w)
  | binary (op : Op) (lhs rhs : Boundary w)

/-- Source: `is_constant` and `get_constant`. No operation is given a constant. -/
def Expr.constant : Expr w → Option (Constant w)
  | .boundary b => b.constant
  | .binary _ _ _ => none

def Expr.exact : Expr w → Ranges.Expr
  | .boundary b => .boundary b.exact
  | .binary op lhs rhs => .binary op lhs.exact rhs.exact

/-- Source: `Range`, with boundaries that are expressions. -/
structure ExprRange (w : CValue) where
  lower : Expr w
  upper : Expr w

def ExprRange.exact (r : ExprRange w) : Ranges.ExprRange := ⟨r.lower.exact, r.upper.exact⟩

/-- The integers of a range. -/
def Range.values (ρ : Nat → Int) (r : Range w) : Set Int := r.exact.values ρ

def ExprRange.values (ρ : Nat → Int) (r : ExprRange w) : Set Int := r.exact.values ρ

def Boundary.eval (ρ : Nat → Int) (b : Boundary w) : ExtInt := b.exact.eval ρ

theorem constant_exact (b : Boundary w) : b.exact.constant = b.constant.map (·.stored) := by
  cases b with
  | const c => rfl
  | minusInfinity => exact congrArg some stored_longMin.symm
  | plusInfinity => exact congrArg some stored_longMax.symm
  | symbol x => rfl
  | minimum exprs => rfl
  | maximum exprs => rfl

end OmpSs.Mcxx.FoldedRanges
