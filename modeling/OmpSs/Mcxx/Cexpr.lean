import OmpSs.Lib.WideWord
import Mathlib.Algebra.Order.Ring.Int

/-!
# Constant folding of integers

The front end folds constants in `mcxx/src/frontend/cxx-cexpr.c`: a constant keeps its integer in a wide
word, next to the number of bytes and the sign of its type, and an operation on two constants works on the
wide words. `const_value_get_integer` clears the high bits of an unsigned result; it does nothing to a
signed one, and the operands are taken as they are, not converted to the common type.

`folded_iff` says where that shows: a cast to a signed type of a value that the type does not have, and a
quotient, a remainder or a comparison of unsigned type with a negative operand. Sums, differences, products
and bitwise operations are always right.
-/

namespace OmpSs.Mcxx.Cexpr

open Lib.Word

/-! ## Constants -/

/-- The wide word: `__int128` where the compiler that builds the front end has it. Source: `HAVE_INT128`
(`cxx-cexpr.h:56`). -/
inductive CValue
  | int128
  | int64
deriving DecidableEq

def CValue.sizeof : CValue → Nat
  | .int128 => 16
  | .int64 => 8

abbrev CValue.bits (w : CValue) : Nat := 8 * w.sizeof

inductive Bytes
  | one
  | two
  | four
  | eight
deriving DecidableEq

def Bytes.toNat : Bytes → Nat
  | .one => 1
  | .two => 2
  | .four => 4
  | .eight => 8

structure IntType where
  num_bytes : Bytes
  sign : Bool
deriving DecidableEq

abbrev IntType.bits (t : IntType) : Nat := 8 * t.num_bytes.toNat

def IntType.signedInt : IntType := ⟨.four, true⟩

/-- Source: `struct const_value_tag` (`cxx-cexpr.c:124`), for the kind `CVK_INTEGER`. -/
structure ConstValue (w : CValue) where
  i : BitVec w.bits
  type : IntType
deriving DecidableEq

/-- The integer that a constant stands for: its word read by its sign. -/
def ConstValue.stored {w : CValue} (c : ConstValue w) : Int :=
  if c.type.sign then c.i.toInt else c.i.toNat

/-- Source: `const_value_get_integer` (`cxx-cexpr.c:418`). -/
def constValueGetInteger {w : CValue} (value : BitVec w.bits) (t : IntType) : ConstValue w :=
  if t.sign = false ∧ t.num_bytes.toNat < w.sizeof then ⟨lowBits t.bits value, t⟩ else ⟨value, t⟩

/-- Source: `const_value_cast_to_bytes` (`cxx-cexpr.c:612`), for integers. -/
def constValueCastToBytes {w : CValue} (val : ConstValue w) (t : IntType) : ConstValue w :=
  constValueGetInteger val.i t

/-- Source: `common_bytes` (`cxx-cexpr.c:786`). -/
def commonBytes (v1 v2 : IntType) : IntType :=
  if v1.num_bytes = v2.num_bytes ∧ v1.sign = v2.sign then v1
  else
    { num_bytes := if v1.num_bytes.toNat > v2.num_bytes.toNat then v1.num_bytes else v2.num_bytes
      sign :=
        if v1.sign ≠ v2.sign then
          if v1.num_bytes = v2.num_bytes then false
          else if v1.num_bytes.toNat > v2.num_bytes.toNat then v1.sign
          else v2.sign
        else v1.sign }

/-! ## Folding -/

section Fold
variable {w : CValue}

/-- An operation on the wide words: `si` for a signed common type, `i` for an unsigned one; `none`: the
compiler divides by zero. Source: `BINOP_FUN` and `BINOP_FUN_I` (`cxx-cexpr.c:3062`, `cxx-cexpr.c:2559`). -/
def binopFun (si i : BitVec w.bits → BitVec w.bits → Option (BitVec w.bits)) (v1 v2 : ConstValue w) :
    Option (ConstValue w) :=
  let t := commonBytes v1.type v2.type
  (if t.sign then si v1.i v2.i else i v1.i v2.i).map fun value => constValueGetInteger value t

/-- A signed division of the wide words, which traps when it divides by zero or overflows. -/
def trapping (f : BitVec w.bits → BitVec w.bits → BitVec w.bits) (a b : BitVec w.bits) :
    Option (BitVec w.bits) :=
  if b = 0 ∨ a = BitVec.intMin w.bits ∧ b = -1 then none else some (f a b)

/-- An unsigned division of the wide words. -/
def trappingZero (f : BitVec w.bits → BitVec w.bits → BitVec w.bits) (a b : BitVec w.bits) :
    Option (BitVec w.bits) :=
  if b = 0 then none else some (f a b)

def constValueAdd : ConstValue w → ConstValue w → Option (ConstValue w) :=
  binopFun (fun a b => some (a + b)) (fun a b => some (a + b))

def constValueSub : ConstValue w → ConstValue w → Option (ConstValue w) :=
  binopFun (fun a b => some (a - b)) (fun a b => some (a - b))

def constValueMul : ConstValue w → ConstValue w → Option (ConstValue w) :=
  binopFun (fun a b => some (a * b)) (fun a b => some (a * b))

def constValueDiv : ConstValue w → ConstValue w → Option (ConstValue w) :=
  binopFun (trapping BitVec.sdiv) (trappingZero BitVec.udiv)

def constValueMod : ConstValue w → ConstValue w → Option (ConstValue w) :=
  binopFun (trapping BitVec.srem) (trappingZero BitVec.umod)

def constValueBitand : ConstValue w → ConstValue w → Option (ConstValue w) :=
  binopFun (fun a b => some (a &&& b)) (fun a b => some (a &&& b))

def constValueBitor : ConstValue w → ConstValue w → Option (ConstValue w) :=
  binopFun (fun a b => some (a ||| b)) (fun a b => some (a ||| b))

def constValueBitxor : ConstValue w → ConstValue w → Option (ConstValue w) :=
  binopFun (fun a b => some (a ^^^ b)) (fun a b => some (a ^^^ b))

inductive Rel
  | lt
  | lte
  | gt
  | gte
  | eq
  | neq
deriving DecidableEq

def Rel.holds : Rel → Int → Int → Bool
  | .lt, x, y => decide (x < y)
  | .lte, x, y => decide (x ≤ y)
  | .gt, x, y => decide (y < x)
  | .gte, x, y => decide (y ≤ x)
  | .eq, x, y => decide (x = y)
  | .neq, x, y => decide (x ≠ y)

/-- A comparison of the wide words, signed or not. Source: `BINOP_FUN_REL` (`cxx-cexpr.c:3409`). -/
def binopFunRel (op : Rel) (v1 v2 : ConstValue w) : ConstValue w :=
  let value :=
    if (commonBytes v1.type v2.type).sign then op.holds v1.i.toInt v2.i.toInt
    else op.holds v1.i.toNat v2.i.toNat
  constValueGetInteger (if value then 1 else 0) IntType.signedInt

def constValueLt : ConstValue w → ConstValue w → ConstValue w := binopFunRel .lt

def constValueLte : ConstValue w → ConstValue w → ConstValue w := binopFunRel .lte

def constValueGt : ConstValue w → ConstValue w → ConstValue w := binopFunRel .gt

def constValueGte : ConstValue w → ConstValue w → ConstValue w := binopFunRel .gte

def constValueEq : ConstValue w → ConstValue w → ConstValue w := binopFunRel .eq

def constValueNeq : ConstValue w → ConstValue w → ConstValue w := binopFunRel .neq

def Rel.fold : Rel → ConstValue w → ConstValue w → ConstValue w
  | .lt => constValueLt
  | .lte => constValueLte
  | .gt => constValueGt
  | .gte => constValueGte
  | .eq => constValueEq
  | .neq => constValueNeq

inductive Arith
  | add
  | sub
  | mul
  | div
  | mod
  | bitand
  | bitor
  | bitxor
deriving DecidableEq

def Arith.fold : Arith → ConstValue w → ConstValue w → Option (ConstValue w)
  | .add => constValueAdd
  | .sub => constValueSub
  | .mul => constValueMul
  | .div => constValueDiv
  | .mod => constValueMod
  | .bitand => constValueBitand
  | .bitor => constValueBitor
  | .bitxor => constValueBitxor

end Fold

/-! ## Expressions and their values in C -/

def IntType.InRange (t : IntType) (x : Int) : Prop :=
  if t.sign then -(2 : Int) ^ (t.bits - 1) ≤ x ∧ x < (2 : Int) ^ (t.bits - 1)
  else 0 ≤ x ∧ x < (2 : Int) ^ t.bits

instance (t : IntType) (x : Int) : Decidable (t.InRange x) := by
  unfold IntType.InRange
  infer_instance

/-- The integer of a type that a word of its size stands for. -/
def IntType.read (t : IntType) (b : BitVec t.bits) : Int := if t.sign then b.toInt else b.toNat

/-- The value modulo two to the number of bits. -/
def IntType.convert (t : IntType) (x : Int) : Int := t.read (BitVec.ofInt t.bits x)

/-- The result of an operation of a type: signed overflow has none, unsigned results are reduced. -/
def IntType.result (t : IntType) (z : Int) : Option Int :=
  if t.sign then (if t.InRange z then some z else none) else some (z % (2 : Int) ^ t.bits)

/-- The operations of C on two values of a type. -/
def Arith.value (t : IntType) : Arith → Int → Int → Option Int
  | .add, x, y => t.result (x + y)
  | .sub, x, y => t.result (x - y)
  | .mul, x, y => t.result (x * y)
  | .div, x, y => if y = 0 then none else t.result (x.tdiv y)
  | .mod, x, y => if y = 0 then none else (t.result (x.tdiv y)).map fun _ => x.tmod y
  | .bitand, x, y => some (t.read (BitVec.ofInt t.bits x &&& BitVec.ofInt t.bits y))
  | .bitor, x, y => some (t.read (BitVec.ofInt t.bits x ||| BitVec.ofInt t.bits y))
  | .bitxor, x, y => some (t.read (BitVec.ofInt t.bits x ^^^ BitVec.ofInt t.bits y))

/-- Constant expressions. A leaf is a value of its type. -/
inductive Tree
  | integer (t : IntType) (v : Int) (h : t.InRange v)
  | cast (t : IntType) (e : Tree)
  | arith (op : Arith) (a b : Tree)
  | rel (op : Rel) (a b : Tree)

def Tree.type : Tree → IntType
  | .integer t _ _ => t
  | .cast t _ => t
  | .arith _ a b => commonBytes a.type b.type
  | .rel _ _ _ => IntType.signedInt

/-- The value of an expression; `none`: it overflows or divides by zero somewhere. -/
def Tree.value : Tree → Option Int
  | .integer _ v _ => some v
  | .cast t e => e.value.map t.convert
  | .arith op a b => a.value.bind fun x => b.value.bind fun y =>
    let t := commonBytes a.type b.type
    op.value t (t.convert x) (t.convert y)
  | .rel op a b => a.value.bind fun x => b.value.map fun y =>
    let t := commonBytes a.type b.type
    if op.holds (t.convert x) (t.convert y) then 1 else 0

/-- The constant that the front end folds an expression to. -/
def Tree.fold (w : CValue) : Tree → Option (ConstValue w)
  | .integer t v _ => some (constValueGetInteger (BitVec.ofInt w.bits v) t)
  | .cast t e => (e.fold w).map fun c => constValueCastToBytes c t
  | .arith op a b => (a.fold w).bind fun c => (b.fold w).bind fun d => op.fold c d
  | .rel op a b => (a.fold w).bind fun c => (b.fold w).map fun d => op.fold c d

def Tree.subtrees : Tree → List Tree
  | .integer t v h => [.integer t v h]
  | .cast t e => .cast t e :: e.subtrees
  | .arith op a b => .arith op a b :: (a.subtrees ++ b.subtrees)
  | .rel op a b => .rel op a b :: (a.subtrees ++ b.subtrees)

/-- The front end folds an expression to a constant that stands for its value, a value of the constant's
type. -/
def Folded (w : CValue) (e : Tree) : Prop :=
  ∃ c, e.fold w = some c ∧ e.value = some c.stored ∧ c.type.InRange c.stored

/-! ## Where the wide words do -/

/-- A cast to a signed type: the type has the value, or the wide word is the one of a value that it has. -/
def CastOk (w : CValue) (t : IntType) (x : Int) : Prop :=
  t.sign = true → t.InRange x ∨ t.InRange (x - (2 : Int) ^ w.bits)

/-- An operation of an unsigned type narrower than the wide word, on a negative operand: nothing shows the
bits that stand above the type. -/
def Arith.Ok (w : CValue) (t : IntType) (op : Arith) (x y : Int) : Prop :=
  t.sign = false → t.bits < w.bits → match op with
    | .div => (x < 0 → y ∣ (2 : Int) ^ (w.bits - t.bits) - 1) ∧ (y < 0 → x < (2 : Int) ^ t.bits + y)
    | .mod => (x < 0 → y ∣ (2 : Int) ^ w.bits - (2 : Int) ^ t.bits) ∧
        (y < 0 → x < (2 : Int) ^ t.bits + y)
    | _ => True

/-- A comparison of an unsigned type narrower than the wide word, with a negative operand: it comes out as
if that operand were above all values. -/
def Rel.Ok (w : CValue) (t : IntType) (op : Rel) (x y : Int) : Prop :=
  t.sign = false → t.bits < w.bits → match op with
    | .lt => (x < 0 → y ≤ (2 : Int) ^ t.bits + x) ∧ (y < 0 → x < (2 : Int) ^ t.bits + y)
    | .gte => (x < 0 → y ≤ (2 : Int) ^ t.bits + x) ∧ (y < 0 → x < (2 : Int) ^ t.bits + y)
    | .gt => (x < 0 → y < (2 : Int) ^ t.bits + x) ∧ (y < 0 → x ≤ (2 : Int) ^ t.bits + y)
    | .lte => (x < 0 → y < (2 : Int) ^ t.bits + x) ∧ (y < 0 → x ≤ (2 : Int) ^ t.bits + y)
    | .eq => (x < 0 → y ≠ (2 : Int) ^ t.bits + x) ∧ (y < 0 → x ≠ (2 : Int) ^ t.bits + y)
    | .neq => (x < 0 → y ≠ (2 : Int) ^ t.bits + x) ∧ (y < 0 → x ≠ (2 : Int) ^ t.bits + y)

/-- All the nodes of an expression do with the wide words. -/
def Tree.WideOk (w : CValue) : Tree → Prop
  | .integer _ _ _ => True
  | .cast t e => e.WideOk w ∧ ∀ x ∈ e.value, CastOk w t x
  | .arith op a b => a.WideOk w ∧ b.WideOk w ∧
    ∀ x ∈ a.value, ∀ y ∈ b.value, op.Ok w (commonBytes a.type b.type) x y
  | .rel op a b => a.WideOk w ∧ b.WideOk w ∧
    ∀ x ∈ a.value, ∀ y ∈ b.value, op.Ok w (commonBytes a.type b.type) x y

/-! ## Types -/

theorem IntType.bits_pos (t : IntType) : 0 < t.bits := by
  unfold IntType.bits
  cases t.num_bytes <;> decide

theorem IntType.bits_le (w : CValue) (t : IntType) : t.bits ≤ w.bits := by
  unfold IntType.bits CValue.bits
  cases t.num_bytes <;> cases w <;> decide

theorem inRange_of_sign {t : IntType} {x : Int} (hs : t.sign = true) :
    t.InRange x ↔ -(2 : Int) ^ (t.bits - 1) ≤ x ∧ x < (2 : Int) ^ (t.bits - 1) := by
  rw [IntType.InRange, if_pos hs]

theorem inRange_of_not_sign {t : IntType} {x : Int} (hs : t.sign = false) :
    t.InRange x ↔ 0 ≤ x ∧ x < (2 : Int) ^ t.bits := by
  rw [IntType.InRange, if_neg (by rw [hs]; decide)]

theorem pow_le_pow {m n : Nat} (h : m ≤ n) : (2 : Int) ^ m ≤ (2 : Int) ^ n :=
  pow_le_pow_right₀ (by decide) h

/-- A value of a type is a value of a signed type with more bits, or with as many if it is signed itself. -/
theorem IntType.InRange.widen {t u : IntType} {x : Int} (hx : t.InRange x) (hu : u.sign = true)
    (hle : t.bits ≤ u.bits) (hlt : t.sign = false → t.bits < u.bits) : u.InRange x := by
  rw [inRange_of_sign hu]
  have hp := t.bits_pos
  cases hs : t.sign with
  | true =>
    rw [inRange_of_sign hs] at hx
    have := pow_le_pow (show t.bits - 1 ≤ u.bits - 1 by omega)
    omega
  | false =>
    rw [inRange_of_not_sign hs] at hx
    have := hlt hs
    have := pow_le_pow (show t.bits ≤ u.bits - 1 by omega)
    have : (0 : Int) < 2 ^ (u.bits - 1) := Int.pow_pos (by decide)
    omega

/-- The values of a type stay far below the power of two of its bits, or of more. -/
theorem IntType.InRange.bounds {t : IntType} {x : Int} {n : Nat} (hx : t.InRange x) (hn : t.bits ≤ n) :
    -(2 : Int) ^ n < x ∧ x < (2 : Int) ^ n := by
  have hp := t.bits_pos
  have hpow := pow_le_pow hn
  have hpos : (0 : Int) < 2 ^ n := Int.pow_pos (by decide)
  cases hs : t.sign with
  | true =>
    rw [inRange_of_sign hs] at hx
    have h2 : (2 : Int) ^ t.bits = 2 ^ (t.bits - 1) * 2 := by
      rw [← Int.pow_succ, Nat.succ_eq_add_one, Nat.sub_add_cancel hp]
    have : (0 : Int) < 2 ^ (t.bits - 1) := Int.pow_pos (by decide)
    omega
  | false =>
    rw [inRange_of_not_sign hs] at hx
    omega

/-- The wide word tells the values of all types apart but for its sign. -/
theorem wide_bounds (w : CValue) {t : IntType} {x : Int} (hx : t.InRange x) :
    -(2 : Int) ^ (w.bits - 1) ≤ x ∧ x < (2 : Int) ^ w.bits := by
  have hle := t.bits_le w
  have hpos : (0 : Int) < 2 ^ (w.bits - 1) := Int.pow_pos (by decide)
  have hpow := pow_le_pow (show t.bits - 1 ≤ w.bits - 1 by omega)
  refine ⟨?_, (hx.bounds hle).2⟩
  cases hs : t.sign with
  | true =>
    rw [inRange_of_sign hs] at hx
    omega
  | false =>
    rw [inRange_of_not_sign hs] at hx
    omega

theorem IntType.read_inRange (t : IntType) (b : BitVec t.bits) : t.InRange (t.read b) := by
  cases hs : t.sign with
  | true =>
    rw [inRange_of_sign hs, read, if_pos hs]
    exact ⟨BitVec.le_toInt b, BitVec.toInt_lt⟩
  | false =>
    rw [inRange_of_not_sign hs, read, if_neg (by rw [hs]; decide)]
    have := b.isLt
    refine ⟨Int.natCast_nonneg _, ?_⟩
    exact_mod_cast this

theorem convert_of_inRange {t : IntType} {x : Int} (hx : t.InRange x) : t.convert x = x := by
  cases hs : t.sign with
  | true =>
    rw [inRange_of_sign hs] at hx
    rw [IntType.convert, IntType.read, if_pos hs, BitVec.toInt_ofInt_eq_self t.bits_pos hx.1 hx.2]
  | false =>
    rw [inRange_of_not_sign hs] at hx
    rw [IntType.convert, IntType.read, if_neg (by rw [hs]; decide), toNat_ofInt_of_mem hx.1 hx.2]

theorem convert_unsigned {t : IntType} (hs : t.sign = false) (x : Int) :
    t.convert x = x % (2 : Int) ^ t.bits := by
  rw [IntType.convert, IntType.read, if_neg (by rw [hs]; decide), toNat_ofInt_emod]

/-- A signed common type has the values of both operands. -/
theorem commonBytes_signed : ∀ {s u : IntType}, (commonBytes s u).sign = true →
    (s.bits ≤ (commonBytes s u).bits ∧ (s.sign = false → s.bits < (commonBytes s u).bits)) ∧
      (u.bits ≤ (commonBytes s u).bits ∧ (u.sign = false → u.bits < (commonBytes s u).bits)) := by
  rintro ⟨s, s'⟩ ⟨u, u'⟩
  cases s <;> cases s' <;> cases u <;> cases u' <;> decide

/-- With an unsigned common type one of the operands is unsigned. -/
theorem commonBytes_unsigned : ∀ {s u : IntType}, (commonBytes s u).sign = false →
    s.bits ≤ (commonBytes s u).bits ∧ u.bits ≤ (commonBytes s u).bits ∧
      (s.sign = false ∨ u.sign = false) := by
  rintro ⟨s, s'⟩ ⟨u, u'⟩
  cases s <;> cases s' <;> cases u <;> cases u' <;> decide

/-! ## Constants and the integers they stand for -/

section Words
variable {w : CValue}

theorem type_constValueGetInteger (value : BitVec w.bits) (t : IntType) :
    (constValueGetInteger value t).type = t := by
  unfold constValueGetInteger
  split <;> rfl

theorem constValueGetInteger_of_sign (value : BitVec w.bits) {t : IntType} (hs : t.sign = true) :
    (constValueGetInteger value t).i = value := by
  rw [constValueGetInteger, if_neg (by rw [hs]; rintro ⟨h, _⟩; cases h)]

theorem constValueGetInteger_of_not_sign (value : BitVec w.bits) {t : IntType} (hs : t.sign = false) :
    (constValueGetInteger value t).i = lowBits t.bits value := by
  unfold constValueGetInteger
  split
  case isTrue => rfl
  case isFalse h =>
    have hle := t.bits_le w
    have hb : t.bits = w.bits := by
      have hn : ¬ t.num_bytes.toNat < w.sizeof := fun hn => h ⟨hs, hn⟩
      simp only [IntType.bits, CValue.bits] at hle ⊢
      omega
    rw [hb, lowBits_self]

/-- A constant stands for a value of its type exactly when its word is the wide word of the value. -/
theorem stored_eq_iff {c : ConstValue w} {x : Int} (hx : c.type.InRange x) :
    c.stored = x ↔ c.i = BitVec.ofInt w.bits x := by
  have hle := c.type.bits_le w
  have hpos := c.type.bits_pos
  cases hs : c.type.sign with
  | true =>
    rw [inRange_of_sign hs] at hx
    have hpow := pow_le_pow (show c.type.bits - 1 ≤ w.bits - 1 by omega)
    rw [ConstValue.stored, if_pos hs]
    constructor
    · intro h
      rw [← h, BitVec.ofInt_toInt]
    · intro h
      rw [h, BitVec.toInt_ofInt_eq_self (by omega) (by omega) (by omega)]
  | false =>
    rw [inRange_of_not_sign hs] at hx
    have hpow := pow_le_pow hle
    rw [ConstValue.stored, if_neg (by rw [hs]; decide)]
    constructor
    · intro h
      rw [← h, ofInt_toNat]
    · intro h
      rw [h, toNat_ofInt_of_mem hx.1 (by omega)]

end Words

/-! ## The operations on the wide words -/

section Wide
variable {w : CValue}

/-- What an operation does to the words of a signed type. -/
def Arith.si : Arith → BitVec w.bits → BitVec w.bits → Option (BitVec w.bits)
  | .add, a, b => some (a + b)
  | .sub, a, b => some (a - b)
  | .mul, a, b => some (a * b)
  | .div, a, b => trapping BitVec.sdiv a b
  | .mod, a, b => trapping BitVec.srem a b
  | .bitand, a, b => some (a &&& b)
  | .bitor, a, b => some (a ||| b)
  | .bitxor, a, b => some (a ^^^ b)

/-- What an operation does to the words of an unsigned type. -/
def Arith.ui : Arith → BitVec w.bits → BitVec w.bits → Option (BitVec w.bits)
  | .div, a, b => trappingZero BitVec.udiv a b
  | .mod, a, b => trappingZero BitVec.umod a b
  | op, a, b => op.si a b

theorem Arith.fold_eq (op : Arith) (c d : ConstValue w) : op.fold c d = binopFun op.si op.ui c d := by
  cases op <;> rfl

theorem Rel.fold_eq (op : Rel) (c d : ConstValue w) : op.fold c d = binopFunRel op c d := by
  cases op <;> rfl

theorem type_fold_arith {op : Arith} {c d k : ConstValue w} (h : op.fold c d = some k) :
    k.type = commonBytes c.type d.type := by
  rw [Arith.fold_eq] at h
  obtain ⟨value, _, rfl⟩ := Option.map_eq_some_iff.1 h
  exact type_constValueGetInteger _ _

end Wide

/-! ## Operations of a signed type -/

section Signed
variable {w : CValue} {t : IntType} {x y v : Int} (hs : t.sign = true)
include hs

theorem result_signed {z : Int} (h : t.result z = some v) : v = z ∧ t.InRange v := by
  rw [IntType.result, if_pos hs] at h
  split at h
  case isTrue hz =>
    cases h
    exact ⟨rfl, hz⟩
  case isFalse => cases h

/-- The wide word of a value of a signed type has the value. -/
theorem toInt_wide (hx : t.InRange x) : (BitVec.ofInt w.bits x).toInt = x := by
  have hle := t.bits_le w
  have hpos := t.bits_pos
  rw [inRange_of_sign hs] at hx
  have hpow := pow_le_pow (show t.bits - 1 ≤ w.bits - 1 by omega)
  exact BitVec.toInt_ofInt_eq_self (by omega) (by omega) (by omega)

/-- A division whose quotient the type has does not trap. -/
theorem trapping_signed (f : BitVec w.bits → BitVec w.bits → BitVec w.bits) (hx : t.InRange x)
    (hy : t.InRange y) (hy0 : y ≠ 0) (hq : t.InRange (x.tdiv y)) :
    trapping f (BitVec.ofInt w.bits x) (BitVec.ofInt w.bits y) =
        some (f (BitVec.ofInt w.bits x) (BitVec.ofInt w.bits y)) ∧
      (BitVec.ofInt w.bits x ≠ BitVec.intMin w.bits ∨ BitVec.ofInt w.bits y ≠ -1#w.bits) := by
  have hxi := toInt_wide (w := w) hs hx
  have hyi := toInt_wide (w := w) hs hy
  have hb : BitVec.ofInt w.bits y ≠ 0 := by
    intro h
    rw [h] at hyi
    exact hy0 (hyi.symm.trans BitVec.toInt_zero)
  have hov : ¬ (BitVec.ofInt w.bits x = BitVec.intMin w.bits ∧ BitVec.ofInt w.bits y = -1#w.bits) := by
    rintro ⟨ha, hb⟩
    -- The quotient of the least word by minus one is above every value of the type.
    have hpos : 1 < w.bits := by cases w <;> decide
    have hx' : x = -(2 : Int) ^ (w.bits - 1) := by
      rw [← hxi, ha, BitVec.toInt_intMin_of_pos (by omega)]
    have hy' : y = -1 := by
      rw [← hyi, hb]
      cases w <;> decide
    have hpow := pow_le_pow (show t.bits - 1 ≤ w.bits - 1 by have := t.bits_le w; omega)
    rw [inRange_of_sign hs, hx', hy', Int.tdiv_neg, Int.tdiv_one] at hq
    omega
  refine ⟨?_, by tauto⟩
  rw [trapping, if_neg]
  rintro (h | h)
  · exact hb h
  · exact hov h

theorem fold_of_si {op : Arith} {c d : ConstValue w} {value : BitVec w.bits}
    (ht : commonBytes c.type d.type = t)
    (hc : c.i = BitVec.ofInt w.bits x) (hd : d.i = BitVec.ofInt w.bits y)
    (h : op.si (BitVec.ofInt w.bits x) (BitVec.ofInt w.bits y) = some value) :
    op.fold c d = some (constValueGetInteger value t) := by
  rw [Arith.fold_eq]
  simp only [binopFun, ht, if_pos hs, hc, hd, h, Option.map_some]

/-- An operation of a signed type with a defined value folds to its value. -/
theorem fold_signed {op : Arith} {c d : ConstValue w} (ht : commonBytes c.type d.type = t)
    (hc : c.i = BitVec.ofInt w.bits x) (hd : d.i = BitVec.ofInt w.bits y) (hx : t.InRange x)
    (hy : t.InRange y) (hv : op.value t x y = some v) :
    op.fold c d = some (constValueGetInteger (BitVec.ofInt w.bits v) t) := by
  have hrange := (inRange_of_sign hs).1 hx
  have hrange' := (inRange_of_sign hs).1 hy
  have hbit : ∀ {f : ∀ w, BitVec w → BitVec w → BitVec w}, Bitwise f →
      f w.bits (BitVec.ofInt w.bits x) (BitVec.ofInt w.bits y) =
        BitVec.ofInt w.bits (t.read (f t.bits (BitVec.ofInt t.bits x) (BitVec.ofInt t.bits y))) := by
    intro f hf
    rw [hf.ofInt_signed t.bits_pos hrange.1 hrange.2 hrange'.1 hrange'.2, IntType.read, if_pos hs]
  cases op with
  | add =>
    obtain ⟨rfl, _⟩ := result_signed hs hv
    exact fold_of_si hs ht hc hd (congrArg some (BitVec.ofInt_add x y).symm)
  | sub =>
    obtain ⟨rfl, _⟩ := result_signed hs hv
    exact fold_of_si hs ht hc hd (congrArg some (ofInt_sub x y).symm)
  | mul =>
    obtain ⟨rfl, _⟩ := result_signed hs hv
    exact fold_of_si hs ht hc hd (congrArg some (BitVec.ofInt_mul x y).symm)
  | div =>
    rw [Arith.value] at hv
    split at hv
    case isTrue => cases hv
    case isFalse hy0 =>
      obtain ⟨rfl, hq⟩ := result_signed hs hv
      obtain ⟨htrap, hov⟩ := trapping_signed (w := w) hs BitVec.sdiv hx hy hy0 hq
      have hdiv : (BitVec.ofInt w.bits x).sdiv (BitVec.ofInt w.bits y) =
          BitVec.ofInt w.bits (x.tdiv y) := by
        rw [← BitVec.ofInt_toInt (x := (BitVec.ofInt w.bits x).sdiv (BitVec.ofInt w.bits y)),
          BitVec.toInt_sdiv_of_ne_or_ne _ _ hov, toInt_wide hs hx, toInt_wide hs hy]
      exact fold_of_si hs ht hc hd (htrap.trans (congrArg some hdiv))
  | mod =>
    rw [Arith.value] at hv
    split at hv
    case isTrue => cases hv
    case isFalse hy0 =>
      obtain ⟨q, hq, rfl⟩ := Option.map_eq_some_iff.1 hv
      obtain ⟨rfl, hq⟩ := result_signed hs hq
      obtain ⟨htrap, _⟩ := trapping_signed (w := w) hs BitVec.srem hx hy hy0 hq
      have hrem : (BitVec.ofInt w.bits x).srem (BitVec.ofInt w.bits y) =
          BitVec.ofInt w.bits (x.tmod y) := by
        rw [← BitVec.ofInt_toInt (x := (BitVec.ofInt w.bits x).srem (BitVec.ofInt w.bits y)),
          BitVec.toInt_srem, toInt_wide hs hx, toInt_wide hs hy]
      exact fold_of_si hs ht hc hd (htrap.trans (congrArg some hrem))
  | bitand =>
    cases hv
    exact fold_of_si hs ht hc hd (congrArg some (hbit bitwise_and))
  | bitor =>
    cases hv
    exact fold_of_si hs ht hc hd (congrArg some (hbit bitwise_or))
  | bitxor =>
    cases hv
    exact fold_of_si hs ht hc hd (congrArg some (hbit bitwise_xor))

end Signed

/-! ## Operations of an unsigned type -/

section Unsigned
variable {w : CValue} {t : IntType} {x y v : Int} (hs : t.sign = false)
include hs

/-- The word of an unsigned result has the value modulo the power of its type. -/
theorem getInteger_ofInt (z : Int) : (constValueGetInteger (BitVec.ofInt w.bits z) t).i =
    BitVec.ofInt w.bits (z % (2 : Int) ^ t.bits) := by
  rw [constValueGetInteger_of_not_sign _ hs, lowBits_ofInt (t.bits_le w)]

theorem fold_of_ui {op : Arith} {c d : ConstValue w} {value : BitVec w.bits}
    (ht : commonBytes c.type d.type = t)
    (hc : c.i = BitVec.ofInt w.bits x) (hd : d.i = BitVec.ofInt w.bits y)
    (h : op.ui (BitVec.ofInt w.bits x) (BitVec.ofInt w.bits y) = some value) :
    op.fold c d = some (constValueGetInteger value t) := by
  have hs' : ¬ t.sign = true := by
    rw [hs]
    decide
  rw [Arith.fold_eq]
  simp only [binopFun, ht, if_neg hs', hc, hd, h, Option.map_some]

theorem result_unsigned {z : Int} (h : t.result z = some v) : v = z % (2 : Int) ^ t.bits := by
  rw [IntType.result, if_neg (by rw [hs]; decide)] at h
  exact (Option.some.inj h).symm

omit hs in
/-- Two values of an unsigned type with the same wide word are the same. -/
theorem ofInt_inj_of_range {z z' : Int} (h0 : 0 ≤ z) (h1 : z < (2 : Int) ^ t.bits) (h0' : 0 ≤ z')
    (h1' : z' < (2 : Int) ^ t.bits) : BitVec.ofInt w.bits z = BitVec.ofInt w.bits z' ↔ z = z' := by
  have hpow := pow_le_pow (t.bits_le w)
  rw [ofInt_eq_ofInt_iff, Int.emod_eq_of_lt h0 (by omega), Int.emod_eq_of_lt h0' (by omega)]

/-- A sum, a difference or a product: the high bits do not reach the low ones. -/
theorem ring_unsigned {f : BitVec w.bits → BitVec w.bits → BitVec w.bits} {g : Int → Int → Int}
    (hf : ∀ a b, BitVec.ofInt w.bits (g a b) = f (BitVec.ofInt w.bits a) (BitVec.ofInt w.bits b))
    (hg : ∀ m a b, g a b % m = g (a % m) (b % m) % m)
    (hv : t.result (g (t.convert x) (t.convert y)) = some v) :
    (constValueGetInteger (f (BitVec.ofInt w.bits x) (BitVec.ofInt w.bits y)) t).i =
      BitVec.ofInt w.bits v := by
  rw [← hf, getInteger_ofInt hs, result_unsigned hs hv, convert_unsigned hs, convert_unsigned hs, ← hg]

theorem bitwise_unsigned {f : ∀ w, BitVec w → BitVec w → BitVec w} (hf : Bitwise f) :
    (constValueGetInteger (f w.bits (BitVec.ofInt w.bits x) (BitVec.ofInt w.bits y)) t).i =
      BitVec.ofInt w.bits (t.read (f t.bits (BitVec.ofInt t.bits (t.convert x))
        (BitVec.ofInt t.bits (t.convert y)))) := by
  have hconv : ∀ z : Int, BitVec.ofInt t.bits (t.convert z) = BitVec.ofInt t.bits z := by
    intro z
    rw [ofInt_eq_ofInt_iff, convert_unsigned hs, Int.emod_emod_of_dvd _ (Int.dvd_refl _)]
  rw [constValueGetInteger_of_not_sign _ hs, hf.lowBits_ofInt (t.bits_le w), hconv, hconv, IntType.read,
    if_neg (by rw [hs]; decide)]

variable (hx : -(2 : Int) ^ t.bits < x) (hx' : x < (2 : Int) ^ t.bits)
  (hy : -(2 : Int) ^ t.bits < y) (hy' : y < (2 : Int) ^ t.bits) (h0 : 0 ≤ x ∨ 0 ≤ y)
include hy hy'

theorem convert_eq_zero_iff : t.convert y = 0 ↔ y = 0 := by
  rw [convert_unsigned hs]
  rcases Int.lt_or_le y 0 with h | h
  · rw [emod_pow_of_neg h hy]
    omega
  · rw [emod_pow_of_nonneg h hy']

omit hs in
theorem wide_eq_zero_iff : BitVec.ofInt w.bits y = 0 ↔ y = 0 := by
  have hpow := pow_le_pow (t.bits_le w)
  have hz : (0 : BitVec w.bits) = BitVec.ofInt w.bits 0 := by simp
  rw [hz, ofInt_eq_ofInt_iff, Int.zero_emod]
  rcases Int.lt_or_le y 0 with h | h
  · rw [emod_pow_of_neg h (by omega)]
    omega
  · rw [emod_pow_of_nonneg h (by omega)]

/-- A divisor whose value in the type is not 0 is none in the wide type either. -/
theorem wide_ne_zero (h : t.convert y ≠ 0) : y ≠ 0 ∧ BitVec.ofInt w.bits y ≠ 0 := by
  have hy0 : y ≠ 0 := fun heq => h ((convert_eq_zero_iff hs hy hy').2 heq)
  exact ⟨hy0, fun heq => hy0 ((wide_eq_zero_iff hy hy').1 heq)⟩

include hx hx' h0

/-- A quotient has its value exactly when the condition on its operands holds. -/
theorem div_unsigned (hv : Arith.value t .div (t.convert x) (t.convert y) = some v) :
    ∃ value, trappingZero BitVec.udiv (BitVec.ofInt w.bits x) (BitVec.ofInt w.bits y) = some value ∧
      ((constValueGetInteger value t).i = BitVec.ofInt w.bits v ↔ Arith.Ok w t .div x y) := by
  rw [Arith.value] at hv
  split at hv
  case isTrue => cases hv
  case isFalse hne =>
    obtain ⟨hy0, hb⟩ := wide_ne_zero hs hy hy' hne
    refine ⟨_, if_neg hb, ?_⟩
    have hval : (BitVec.ofInt w.bits x).udiv (BitVec.ofInt w.bits y) =
        BitVec.ofInt w.bits (x % (2 : Int) ^ w.bits / (y % (2 : Int) ^ w.bits)) := by
      rw [← toNat_ofInt_emod, ← toNat_ofInt_emod, ← Int.natCast_ediv, ← BitVec.toNat_udiv, ofInt_toNat]
      rfl
    have hp : (0 : Int) < 2 ^ t.bits := Int.pow_pos (by decide)
    have hq0 := Int.emod_nonneg x hp.ne'
    have hq1 := Int.emod_lt_of_pos x hp
    have hr0 := Int.emod_nonneg y hp.ne'
    have hdiv0 := Int.ediv_nonneg hq0 hr0
    have hdiv1 := Int.lt_of_le_of_lt (Int.ediv_le_self (y % (2 : Int) ^ t.bits) hq0) hq1
    have hv := result_unsigned hs hv
    rw [convert_unsigned hs, convert_unsigned hs, Int.tdiv_eq_ediv_of_nonneg hq0,
      emod_pow_of_nonneg hdiv0 hdiv1] at hv
    rw [hval, getInteger_ofInt hs, hv, ofInt_inj_of_range (Int.emod_nonneg _ hp.ne')
      (Int.emod_lt_of_pos _ hp) hdiv0 hdiv1]
    rcases Nat.lt_or_eq_of_le (t.bits_le w) with hlt | heq
    · rw [ediv_wide_iff hlt hx hx' hy hy' h0 hy0]
      exact ⟨fun h _ _ => h, fun h => h hs hlt⟩
    · rw [← heq, emod_pow_of_nonneg hdiv0 hdiv1]
      exact iff_of_true rfl (fun _ hlt => by omega)

/-- A remainder has its value exactly when the condition on its operands holds. -/
theorem mod_unsigned (hv : Arith.value t .mod (t.convert x) (t.convert y) = some v) :
    ∃ value, trappingZero BitVec.umod (BitVec.ofInt w.bits x) (BitVec.ofInt w.bits y) = some value ∧
      ((constValueGetInteger value t).i = BitVec.ofInt w.bits v ↔ Arith.Ok w t .mod x y) := by
  rw [Arith.value] at hv
  split at hv
  case isTrue => cases hv
  case isFalse hne =>
    obtain ⟨hy0, hb⟩ := wide_ne_zero hs hy hy' hne
    refine ⟨_, if_neg hb, ?_⟩
    have hval : (BitVec.ofInt w.bits x).umod (BitVec.ofInt w.bits y) =
        BitVec.ofInt w.bits (x % (2 : Int) ^ w.bits % (y % (2 : Int) ^ w.bits)) := by
      rw [← toNat_ofInt_emod, ← toNat_ofInt_emod, ← Int.natCast_emod, ← BitVec.toNat_umod, ofInt_toNat]
      rfl
    have hp : (0 : Int) < 2 ^ t.bits := Int.pow_pos (by decide)
    have hq0 := Int.emod_nonneg x hp.ne'
    have hr0 := Int.emod_nonneg y hp.ne'
    have hr1 := Int.emod_lt_of_pos y hp
    have hr : y % (2 : Int) ^ t.bits ≠ 0 := by
      rw [← convert_unsigned hs, Ne, convert_eq_zero_iff hs hy hy']
      exact hy0
    have hmod0 := Int.emod_nonneg (x % (2 : Int) ^ t.bits) hr
    have hmod1 := Int.emod_lt_of_pos (x % (2 : Int) ^ t.bits)
      (show 0 < y % (2 : Int) ^ t.bits by omega)
    obtain ⟨_, _, hv⟩ := Option.map_eq_some_iff.1 hv
    rw [convert_unsigned hs, convert_unsigned hs, Int.tmod_eq_emod_of_nonneg hq0] at hv
    rw [hval, getInteger_ofInt hs, ← hv, ofInt_inj_of_range (Int.emod_nonneg _ hp.ne')
      (Int.emod_lt_of_pos _ hp) hmod0 (by omega)]
    rcases Nat.lt_or_eq_of_le (t.bits_le w) with hlt | heq
    · rw [emod_wide_iff hlt hx hx' hy hy' h0 hy0]
      exact ⟨fun h _ _ => h, fun h => h hs hlt⟩
    · rw [← heq, emod_pow_of_nonneg hmod0 (by omega)]
      exact iff_of_true rfl (fun _ hlt => by omega)

end Unsigned

/-! ## One node -/

section Node
variable {w : CValue}

/-- An operation of an unsigned type folds to its value exactly when the condition on its operands
holds. -/
theorem fold_unsigned {op : Arith} {c d : ConstValue w} {t : IntType} {x y v : Int} (hs : t.sign = false)
    (ht : commonBytes c.type d.type = t)
    (hc : c.i = BitVec.ofInt w.bits x) (hd : d.i = BitVec.ofInt w.bits y)
    (hx : -(2 : Int) ^ t.bits < x) (hx' : x < (2 : Int) ^ t.bits)
    (hy : -(2 : Int) ^ t.bits < y) (hy' : y < (2 : Int) ^ t.bits) (h0 : 0 ≤ x ∨ 0 ≤ y)
    (hv : op.value t (t.convert x) (t.convert y) = some v) :
    ∃ k, op.fold c d = some k ∧ (k.i = BitVec.ofInt w.bits v ↔ op.Ok w t x y) := by
  cases op with
  | add =>
    exact ⟨_, fold_of_ui hs ht hc hd rfl,
      iff_of_true (ring_unsigned hs BitVec.ofInt_add (fun m a b => Int.add_emod a b m) hv)
        (fun _ _ => trivial)⟩
  | sub =>
    exact ⟨_, fold_of_ui hs ht hc hd rfl,
      iff_of_true (ring_unsigned hs ofInt_sub (fun m a b => Int.sub_emod a b m) hv)
        (fun _ _ => trivial)⟩
  | mul =>
    exact ⟨_, fold_of_ui hs ht hc hd rfl,
      iff_of_true (ring_unsigned hs BitVec.ofInt_mul (fun m a b => Int.mul_emod a b m) hv)
        (fun _ _ => trivial)⟩
  | div =>
    obtain ⟨value, htrap, hiff⟩ := div_unsigned (w := w) hs hx hx' hy hy' h0 hv
    exact ⟨_, fold_of_ui hs ht hc hd htrap, hiff⟩
  | mod =>
    obtain ⟨value, htrap, hiff⟩ := mod_unsigned (w := w) hs hx hx' hy hy' h0 hv
    exact ⟨_, fold_of_ui hs ht hc hd htrap, hiff⟩
  | bitand =>
    cases hv
    exact ⟨_, fold_of_ui hs ht hc hd rfl,
      iff_of_true (bitwise_unsigned hs bitwise_and) (fun _ _ => trivial)⟩
  | bitor =>
    cases hv
    exact ⟨_, fold_of_ui hs ht hc hd rfl,
      iff_of_true (bitwise_unsigned hs bitwise_or) (fun _ _ => trivial)⟩
  | bitxor =>
    cases hv
    exact ⟨_, fold_of_ui hs ht hc hd rfl,
      iff_of_true (bitwise_unsigned hs bitwise_xor) (fun _ _ => trivial)⟩

/-- An operation on folded operands folds to its value exactly when the condition on them holds. -/
theorem fold_arith {op : Arith} {c d : ConstValue w} {x y v : Int}
    (hx : c.type.InRange x) (hy : d.type.InRange y)
    (hc : c.i = BitVec.ofInt w.bits x) (hd : d.i = BitVec.ofInt w.bits y)
    (hv : op.value (commonBytes c.type d.type) ((commonBytes c.type d.type).convert x)
      ((commonBytes c.type d.type).convert y) = some v) :
    ∃ k, op.fold c d = some k ∧
      (k.i = BitVec.ofInt w.bits v ↔ op.Ok w (commonBytes c.type d.type) x y) := by
  cases hs : (commonBytes c.type d.type).sign with
  | true =>
    obtain ⟨⟨hle, hlt⟩, hle', hlt'⟩ := commonBytes_signed hs
    have hx := hx.widen hs hle hlt
    have hy := hy.widen hs hle' hlt'
    rw [convert_of_inRange hx, convert_of_inRange hy] at hv
    refine ⟨_, fold_signed hs rfl hc hd hx hy hv, iff_of_true (constValueGetInteger_of_sign _ hs) ?_⟩
    intro h
    rw [hs] at h
    cases h
  | false =>
    obtain ⟨hle, hle', h0⟩ := commonBytes_unsigned hs
    obtain ⟨hx0, hx1⟩ := hx.bounds hle
    obtain ⟨hy0, hy1⟩ := hy.bounds hle'
    have hnn : 0 ≤ x ∨ 0 ≤ y := by
      rcases h0 with h | h
      · exact Or.inl ((inRange_of_not_sign h).1 hx).1
      · exact Or.inr ((inRange_of_not_sign h).1 hy).1
    exact fold_unsigned hs rfl hc hd hx0 hx1 hy0 hy1 hnn hv

/-- The value `a` is `A` in a word with `M` values and `A'` in one with `N`. -/
def Reads (M N a A A' : Int) : Prop := a < 0 ∧ A = M + a ∧ A' = N + a ∨ 0 ≤ a ∧ A = a ∧ A' = a

section
variable {M N a b A A' B B' : Int}

/-- The two words order two values in the same way unless a negative one changes sides. -/
theorem Reads.lt_iff (hM : 2 * N ≤ M) (ha : Reads M N a A A') (hb : Reads M N b B B')
    (ha' : -N < a ∧ a < N) (hb' : -N < b ∧ b < N) :
    (A < B ↔ A' < B') ↔ (a < 0 → b ≤ N + a) ∧ (b < 0 → a < N + b) := by
  rcases ha with ⟨ha, rfl, rfl⟩ | ⟨ha, rfl, rfl⟩ <;> rcases hb with ⟨hb, rfl, rfl⟩ | ⟨hb, rfl, rfl⟩ <;> omega

theorem Reads.eq_iff (hM : 2 * N ≤ M) (ha : Reads M N a A A') (hb : Reads M N b B B')
    (ha' : -N < a ∧ a < N) (hb' : -N < b ∧ b < N) :
    (A = B ↔ A' = B') ↔ (a < 0 → b ≠ N + a) ∧ (b < 0 → a ≠ N + b) := by
  rcases ha with ⟨ha, rfl, rfl⟩ | ⟨ha, rfl, rfl⟩ <;> rcases hb with ⟨hb, rfl, rfl⟩ | ⟨hb, rfl, rfl⟩ <;> omega

end

/-- A comparison of wide words comes out as that of the narrow values exactly when the condition holds. -/
theorem holds_wide_iff {op : Rel} {t : IntType} {x y : Int} (hs : t.sign = false)
    (hx : -(2 : Int) ^ t.bits < x) (hx' : x < (2 : Int) ^ t.bits)
    (hy : -(2 : Int) ^ t.bits < y) (hy' : y < (2 : Int) ^ t.bits) :
    op.holds (x % (2 : Int) ^ w.bits) (y % (2 : Int) ^ w.bits) =
        op.holds (x % (2 : Int) ^ t.bits) (y % (2 : Int) ^ t.bits) ↔ op.Ok w t x y := by
  rcases Nat.lt_or_eq_of_le (t.bits_le w) with hlt | heq
  · have hle := two_mul_pow_le hlt
    have hreads : ∀ z : Int, -(2 : Int) ^ t.bits < z → z < (2 : Int) ^ t.bits →
        Reads ((2 : Int) ^ w.bits) ((2 : Int) ^ t.bits) z (z % (2 : Int) ^ w.bits) (z % (2 : Int) ^ t.bits) := by
      intro z hz hz'
      rcases Int.lt_or_le z 0 with h | h
      · exact Or.inl ⟨h, emod_pow_of_neg h (by omega), emod_pow_of_neg h hz⟩
      · exact Or.inr ⟨h, emod_pow_of_nonneg h (by omega), emod_pow_of_nonneg h hz'⟩
    have hxy := Reads.lt_iff hle (hreads x hx hx') (hreads y hy hy') ⟨hx, hx'⟩ ⟨hy, hy'⟩
    have hyx := Reads.lt_iff hle (hreads y hy hy') (hreads x hx hx') ⟨hy, hy'⟩ ⟨hx, hx'⟩
    have heq := Reads.eq_iff hle (hreads x hx hx') (hreads y hy hy') ⟨hx, hx'⟩ ⟨hy, hy'⟩
    cases op <;> simp only [Rel.holds, Rel.Ok, decide_eq_decide, hs, hlt, forall_const]
    case lt => exact hxy
    case lte => rw [← Int.not_lt, ← Int.not_lt, not_iff_not, hyx, and_comm]
    case gt => rw [hyx, and_comm]
    case gte => rw [← Int.not_lt, ← Int.not_lt, not_iff_not, hxy]
    case eq => exact heq
    case neq => rw [Ne, Ne, not_iff_not, heq]
  · rw [heq]
    exact iff_of_true rfl (fun _ hlt => by omega)

/-- The words of the results of a comparison. -/
theorem ite_word_eq_iff {p q : Bool} : (if p then 1 else 0 : BitVec w.bits) =
    BitVec.ofInt w.bits (if q then 1 else 0) ↔ p = q := by
  cases w <;> cases p <;> cases q <;> decide

/-- A comparison of folded operands folds to its value exactly when the condition on them holds. -/
theorem fold_rel (op : Rel) {c d : ConstValue w} {x y : Int}
    (hx : c.type.InRange x) (hy : d.type.InRange y)
    (hc : c.i = BitVec.ofInt w.bits x) (hd : d.i = BitVec.ofInt w.bits y) :
    (op.fold c d).type = IntType.signedInt ∧
      ((op.fold c d).i = BitVec.ofInt w.bits
          (if op.holds ((commonBytes c.type d.type).convert x) ((commonBytes c.type d.type).convert y)
            then 1 else 0) ↔
        op.Ok w (commonBytes c.type d.type) x y) := by
  rw [Rel.fold_eq, binopFunRel]
  refine ⟨type_constValueGetInteger _ _, ?_⟩
  rw [constValueGetInteger_of_sign _ rfl, ite_word_eq_iff, hc, hd]
  cases hs : (commonBytes c.type d.type).sign with
  | true =>
    obtain ⟨⟨hle, hlt⟩, hle', hlt'⟩ := commonBytes_signed hs
    have hx := hx.widen hs hle hlt
    have hy := hy.widen hs hle' hlt'
    rw [if_pos rfl, toInt_wide hs hx, toInt_wide hs hy, convert_of_inRange hx, convert_of_inRange hy]
    refine iff_of_true rfl fun h => ?_
    rw [hs] at h
    cases h
  | false =>
    obtain ⟨hle, hle', _⟩ := commonBytes_unsigned hs
    obtain ⟨hx0, hx1⟩ := hx.bounds hle
    obtain ⟨hy0, hy1⟩ := hy.bounds hle'
    rw [if_neg (by decide), toNat_ofInt_emod, toNat_ofInt_emod, convert_unsigned hs, convert_unsigned hs]
    exact holds_wide_iff hs hx0 hx1 hy0 hy1

/-- A cast of a folded operand folds to its value exactly when the condition on it holds. -/
theorem cast_iff {c : ConstValue w} {t : IntType} {x : Int} (hx : c.type.InRange x)
    (hc : c.i = BitVec.ofInt w.bits x) :
    (constValueCastToBytes c t).i = BitVec.ofInt w.bits (t.convert x) ↔ CastOk w t x := by
  rw [constValueCastToBytes, hc]
  cases hs : t.sign with
  | false =>
    rw [getInteger_ofInt hs, convert_unsigned hs]
    refine iff_of_true rfl fun h => ?_
    rw [hs] at h
    cases h
  | true =>
    rw [constValueGetInteger_of_sign _ hs]
    have hrange := t.read_inRange (BitVec.ofInt t.bits x)
    have hword := toInt_wide (w := w) hs hrange
    have hshift : BitVec.ofInt t.bits (x - (2 : Int) ^ w.bits) = BitVec.ofInt t.bits x := by
      rw [ofInt_eq_ofInt_iff]
      obtain ⟨k, hk⟩ := pow_dvd_pow_of_le (t.bits_le w)
      rw [hk, Int.sub_mul_emod_self_left]
    constructor
    · intro h _
      change BitVec.ofInt w.bits x = BitVec.ofInt w.bits (t.read (BitVec.ofInt t.bits x)) at h
      generalize t.read (BitVec.ofInt t.bits x) = z at h hrange
      have hz := wide_bounds w hrange
      have hz' := (inRange_of_sign hs).1 hrange
      have hxb := wide_bounds w hx
      have hpow := pow_le_pow (show t.bits - 1 ≤ w.bits - 1 by have := t.bits_le w; omega)
      have h2 : (2 : Int) ^ w.bits = 2 ^ (w.bits - 1) * 2 := by cases w <;> rfl
      rw [ofInt_eq_ofInt_iff] at h
      -- The value is the one the type has, or a wide power above it.
      have hcases : x = z ∨ x - (2 : Int) ^ w.bits = z := by
        rcases Int.lt_or_le x 0 with hxn | hxp
        · rw [emod_pow_of_neg hxn (by omega)] at h
          rcases Int.lt_or_le z 0 with hzn | hzp
          · rw [emod_pow_of_neg hzn (by omega)] at h
            omega
          · rw [emod_pow_of_nonneg hzp (by omega)] at h
            omega
        · rw [emod_pow_of_nonneg hxp (by omega)] at h
          rcases Int.lt_or_le z 0 with hzn | hzp
          · rw [emod_pow_of_neg hzn (by omega)] at h
            omega
          · rw [emod_pow_of_nonneg hzp (by omega)] at h
            omega
      rcases hcases with rfl | rfl
      · exact Or.inl hrange
      · exact Or.inr hrange
    · intro h
      rcases h hs with h | h
      · rw [convert_of_inRange h]
      · have hz := convert_of_inRange h
        rw [IntType.convert, hshift] at hz
        rw [IntType.convert, hz, ofInt_eq_ofInt_iff, Int.sub_emod_right]

end Node

/-! ## Whole expressions -/

theorem result_inRange {t : IntType} {z v : Int} (h : t.result z = some v) : t.InRange v := by
  cases hs : t.sign with
  | true => exact (result_signed hs h).2
  | false =>
    rw [result_unsigned hs h, inRange_of_not_sign hs]
    have hp : (0 : Int) < 2 ^ t.bits := Int.pow_pos (by decide)
    exact ⟨Int.emod_nonneg _ hp.ne', Int.emod_lt_of_pos _ hp⟩

/-- A remainder lies between zero and the dividend. -/
theorem tmod_inRange {t : IntType} {x : Int} (hx : t.InRange x) (y : Int) : t.InRange (x.tmod y) := by
  have habs : (x.tmod y).natAbs ≤ x.natAbs := by
    rw [Int.natAbs_tmod]
    exact Nat.mod_le _ _
  have hnonneg : 0 ≤ x → 0 ≤ x.tmod y := fun h => Int.tmod_nonneg y h
  have hnonpos : x ≤ 0 → x.tmod y ≤ 0 := by
    intro h
    have := Int.tmod_nonneg y (show 0 ≤ -x by omega)
    rw [Int.neg_tmod] at this
    omega
  cases hs : t.sign with
  | true =>
    rw [inRange_of_sign hs] at hx ⊢
    omega
  | false =>
    rw [inRange_of_not_sign hs] at hx ⊢
    omega

/-- The value of an operation is a value of its type. -/
theorem arith_value_inRange {t : IntType} {op : Arith} {x y v : Int} (hx : t.InRange x)
    (hv : op.value t x y = some v) : t.InRange v := by
  cases op with
  | add => exact result_inRange hv
  | sub => exact result_inRange hv
  | mul => exact result_inRange hv
  | div =>
    rw [Arith.value] at hv
    split at hv
    · cases hv
    · exact result_inRange hv
  | mod =>
    rw [Arith.value] at hv
    split at hv
    · cases hv
    · obtain ⟨_, _, rfl⟩ := Option.map_eq_some_iff.1 hv
      exact tmod_inRange hx y
  | bitand =>
    cases hv
    exact t.read_inRange _
  | bitor =>
    cases hv
    exact t.read_inRange _
  | bitxor =>
    cases hv
    exact t.read_inRange _

/-- The value of an expression is a value of its type. -/
theorem value_inRange {e : Tree} {v : Int} (h : e.value = some v) : e.type.InRange v := by
  cases e with
  | integer t x hx =>
    cases h
    exact hx
  | cast t e =>
    obtain ⟨x, _, rfl⟩ := Option.map_eq_some_iff.1 h
    exact t.read_inRange _
  | arith op a b =>
    obtain ⟨x, _, h⟩ := Option.bind_eq_some_iff.1 h
    obtain ⟨y, _, h⟩ := Option.bind_eq_some_iff.1 h
    exact arith_value_inRange (IntType.read_inRange _ _) h
  | rel op a b =>
    obtain ⟨x, _, h⟩ := Option.bind_eq_some_iff.1 h
    obtain ⟨y, _, rfl⟩ := Option.map_eq_some_iff.1 h
    simp only [Tree.type]
    split <;> decide

theorem type_fold {w : CValue} {e : Tree} {c : ConstValue w} (h : e.fold w = some c) :
    c.type = e.type := by
  induction e generalizing c with
  | integer t v hv =>
    cases h
    exact type_constValueGetInteger _ _
  | cast t e _ =>
    obtain ⟨x, _, rfl⟩ := Option.map_eq_some_iff.1 h
    exact type_constValueGetInteger _ _
  | arith op a b iha ihb =>
    obtain ⟨x, hx, h⟩ := Option.bind_eq_some_iff.1 h
    obtain ⟨y, hy, h⟩ := Option.bind_eq_some_iff.1 h
    rw [type_fold_arith h, iha hx, ihb hy]
    rfl
  | rel op a b _ _ =>
    obtain ⟨x, _, h⟩ := Option.bind_eq_some_iff.1 h
    obtain ⟨y, _, rfl⟩ := Option.map_eq_some_iff.1 h
    rw [Rel.fold_eq]
    exact type_constValueGetInteger _ _

/-- An expression folds right exactly when its constant has the wide word of its value. -/
theorem folded_iff_word {w : CValue} {e : Tree} {v : Int} (hv : e.value = some v) :
    Folded w e ↔ ∃ c, e.fold w = some c ∧ c.i = BitVec.ofInt w.bits v := by
  have hrange := value_inRange hv
  unfold Folded
  constructor
  · rintro ⟨c, hc, hval, _⟩
    rw [← type_fold hc] at hrange
    exact ⟨c, hc, (stored_eq_iff hrange).1 (Option.some.inj (hval.symm.trans hv))⟩
  · rintro ⟨c, hc, hi⟩
    rw [← type_fold hc] at hrange
    have hst := (stored_eq_iff hrange).2 hi
    exact ⟨c, hc, by rw [hst, hv], by rw [hst]; exact hrange⟩

/-- The constant of an expression that folds right. -/
theorem exists_word {w : CValue} {e : Tree} {v : Int} (hv : e.value = some v)
    (h : ∀ s ∈ e.subtrees, Folded w s) : ∃ c, e.fold w = some c ∧ c.type = e.type ∧
      c.type.InRange v ∧ c.i = BitVec.ofInt w.bits v := by
  have hself : e ∈ e.subtrees := by cases e <;> exact List.mem_cons_self
  obtain ⟨c, hc, hi⟩ := (folded_iff_word hv).1 (h e hself)
  have hrange := value_inRange hv
  rw [← type_fold hc] at hrange
  exact ⟨c, hc, type_fold hc, hrange, hi⟩

/-- The constant is the only one, and so are the values of the operands. -/
theorem exists_constant_iff {w : CValue} {i : BitVec w.bits} {Q : Int → Int → Prop} {k : ConstValue w}
    {x y : Int} (h : k.i = i ↔ Q x y) :
    (∃ c, some k = some c ∧ c.i = i) ↔ ∀ x' ∈ some x, ∀ y' ∈ some y, Q x' y' := by
  constructor
  · rintro ⟨c, hc, hi⟩ x' hx' y' hy'
    cases hc
    cases hx'
    cases hy'
    exact h.1 hi
  · intro hq
    exact ⟨k, rfl, h.2 (hq x rfl y rfl)⟩

/-- The node of an operation, after its operands folded right. -/
theorem folded_arith_iff {w : CValue} {op : Arith} {a b : Tree} {v : Int}
    (hv : (Tree.arith op a b).value = some v) (ha : ∀ s ∈ a.subtrees, Folded w s)
    (hb : ∀ s ∈ b.subtrees, Folded w s) :
    Folded w (.arith op a b) ↔
      ∀ x ∈ a.value, ∀ y ∈ b.value, op.Ok w (commonBytes a.type b.type) x y := by
  rw [folded_iff_word hv]
  obtain ⟨x, hx, hv⟩ := Option.bind_eq_some_iff.1 hv
  obtain ⟨y, hy, hv⟩ := Option.bind_eq_some_iff.1 hv
  obtain ⟨c, hc, hct, hcx, hci⟩ := exists_word hx ha
  obtain ⟨d, hd, hdt, hdy, hdi⟩ := exists_word hy hb
  rw [← hct, ← hdt] at hv ⊢
  obtain ⟨k, hk, hiff⟩ := fold_arith hcx hdy hci hdi hv
  have hfold : (Tree.arith op a b).fold w = some k := by
    rw [Tree.fold, hc, hd]
    exact hk
  rw [hfold, hx, hy]
  exact exists_constant_iff hiff

/-- The node of a comparison, after its operands folded right. -/
theorem folded_rel_iff {w : CValue} {op : Rel} {a b : Tree} {v : Int}
    (hv : (Tree.rel op a b).value = some v) (ha : ∀ s ∈ a.subtrees, Folded w s)
    (hb : ∀ s ∈ b.subtrees, Folded w s) :
    Folded w (.rel op a b) ↔
      ∀ x ∈ a.value, ∀ y ∈ b.value, op.Ok w (commonBytes a.type b.type) x y := by
  rw [folded_iff_word hv]
  obtain ⟨x, hx, hv⟩ := Option.bind_eq_some_iff.1 hv
  obtain ⟨y, hy, rfl⟩ := Option.map_eq_some_iff.1 hv
  obtain ⟨c, hc, hct, hcx, hci⟩ := exists_word hx ha
  obtain ⟨d, hd, hdt, hdy, hdi⟩ := exists_word hy hb
  rw [← hct, ← hdt]
  have hiff := (fold_rel op hcx hdy hci hdi).2
  have hfold : (Tree.rel op a b).fold w = some (op.fold c d) := by
    rw [Tree.fold, hc, hd]
    rfl
  rw [hfold, hx, hy]
  exact exists_constant_iff hiff

/-- The node of a cast, after its operand folded right. -/
theorem folded_cast_iff {w : CValue} {t : IntType} {e : Tree} {v : Int}
    (hv : (Tree.cast t e).value = some v) (he : ∀ s ∈ e.subtrees, Folded w s) :
    Folded w (.cast t e) ↔ ∀ x ∈ e.value, CastOk w t x := by
  rw [folded_iff_word hv]
  obtain ⟨x, hx, rfl⟩ := Option.map_eq_some_iff.1 hv
  obtain ⟨c, hc, _, hcx, hci⟩ := exists_word hx he
  have hiff := cast_iff (t := t) hcx hci
  rw [Tree.fold, hc, hx]
  constructor
  · rintro ⟨k, hk, hki⟩ x' hx'
    cases hx'
    cases hk
    exact hiff.1 hki
  · intro h
    exact ⟨_, rfl, hiff.2 (h x rfl)⟩

theorem folded_integer {w : CValue} {t : IntType} {x : Int} (hx : t.InRange x) :
    Folded w (.integer t x hx) := by
  rw [folded_iff_word rfl]
  refine ⟨_, rfl, ?_⟩
  cases hs : t.sign with
  | true => exact constValueGetInteger_of_sign _ hs
  | false => rw [getInteger_ofInt hs, ← convert_unsigned hs, convert_of_inRange hx]

/-- An expression folds right, with all the expressions in it, exactly when its nodes do with the wide
words. -/
theorem subtrees_folded_iff {w : CValue} {e : Tree} {v : Int} (hv : e.value = some v) :
    (∀ s ∈ e.subtrees, Folded w s) ↔ e.WideOk w := by
  induction e generalizing v with
  | integer t x hx =>
    rw [Tree.subtrees, List.forall_mem_singleton]
    exact iff_of_true (folded_integer hx) trivial
  | cast t e ih =>
    obtain ⟨x, hx, _⟩ := Option.map_eq_some_iff.1 hv
    rw [Tree.subtrees, List.forall_mem_cons, Tree.WideOk, ← ih hx, and_comm]
    exact and_congr_right fun he => folded_cast_iff hv he
  | arith op a b iha ihb =>
    obtain ⟨x, hx, hv'⟩ := Option.bind_eq_some_iff.1 hv
    obtain ⟨y, hy, _⟩ := Option.bind_eq_some_iff.1 hv'
    rw [Tree.subtrees, List.forall_mem_cons, List.forall_mem_append, Tree.WideOk, ← iha hx, ← ihb hy,
      and_comm, and_assoc]
    exact and_congr_right fun ha => and_congr_right fun hb => folded_arith_iff hv ha hb
  | rel op a b iha ihb =>
    obtain ⟨x, hx, hv'⟩ := Option.bind_eq_some_iff.1 hv
    obtain ⟨y, hy, _⟩ := Option.map_eq_some_iff.1 hv'
    rw [Tree.subtrees, List.forall_mem_cons, List.forall_mem_append, Tree.WideOk, ← iha hx, ← ihb hy,
      and_comm, and_assoc]
    exact and_congr_right fun ha => and_congr_right fun hb => folded_rel_iff hv ha hb

/-- **An expression with a value folds to a constant that stands for it, if its nodes do with the wide
words; and all the expressions in it fold right only then.** -/
theorem folded_iff {w : CValue} {e : Tree} {v : Int} (hv : e.value = some v) :
    (e.WideOk w → ∃ c, e.fold w = some c ∧ c.stored = v ∧ c.type.InRange c.stored) ∧
      ((∀ s ∈ e.subtrees, Folded w s) ↔ e.WideOk w) := by
  refine ⟨fun h => ?_, subtrees_folded_iff hv⟩
  have hself : e ∈ e.subtrees := by cases e <;> exact List.mem_cons_self
  obtain ⟨c, hc, hval, hrange⟩ := (subtrees_folded_iff hv).2 h e hself
  exact ⟨c, hc, Option.some.inj (hval.symm.trans hv), hrange⟩

/-- The cast of an `unsigned char` to `signed char`. -/
def castToSignedChar (v : Int) (h : IntType.InRange ⟨.one, false⟩ v) : Tree :=
  .cast ⟨.one, true⟩ (.integer ⟨.one, false⟩ v h)

/-- The cast of `100`, which both types have. -/
theorem folded_iff_hundred :
    ((castToSignedChar 100 (by decide)).WideOk .int128 →
        ∃ c, (castToSignedChar 100 (by decide)).fold .int128 = some c ∧ c.stored = 100 ∧
          c.type.InRange c.stored) ∧
      ((∀ s ∈ (castToSignedChar 100 (by decide)).subtrees, Folded .int128 s) ↔
        (castToSignedChar 100 (by decide)).WideOk .int128) :=
  folded_iff (by decide)

/-- The cast of `200` has the value `-56` and folds to the constant `200`. -/
theorem folded_two_hundred_ne :
    (castToSignedChar 200 (by decide)).value = some (-56) ∧
      ((castToSignedChar 200 (by decide)).fold .int128).map ConstValue.stored = some 200 ∧
      ¬ ∀ (e : Tree) (v : Int), e.value = some v →
        ∃ c, e.fold .int128 = some c ∧ c.stored = v ∧ c.type.InRange c.stored := by
  have hfold : ((castToSignedChar 200 (by decide)).fold .int128).map ConstValue.stored = some 200 := by
    decide
  refine ⟨by decide, hfold, fun h => ?_⟩
  obtain ⟨c, hc, hst, _⟩ := h (castToSignedChar 200 (by decide)) (-56) (by decide)
  rw [hc, Option.map_some, hst] at hfold
  cases hfold

end OmpSs.Mcxx.Cexpr
