import OmpSs.Mcxx.Cexpr

/-!
# The type of an integer constant

The front end gives an integer constant the first type of a list that has its value
(`get_minimal_integer_for_value_`, `mcxx/src/frontend/cxx-cexpr.c:1172`), and finds it with a mask for each
type, the bits that no value of the type sets (`safe_compute_bitmask`). The mask of a signed type begins at
the bit of its sign, so the complement of a negative value has to be tested against the mask as it is. The
code shifts it left by one bit, and a type passes for twice its negative values: -200 becomes a
`signed char`. `getMinimalIntegerForValue_iff` is the exact condition.
-/

namespace OmpSs.Mcxx.Cexpr

open Lib.Word

/-- What the compiler knows about integral types. Source: `is_signed_integral_type`, `type_get_size`. -/
structure IntegralTypes (α : Type*) where
  isSigned : α → Bool
  size : α → Nat
  size_pos : ∀ t, 0 < size t

/-- The range of a type contains the value. -/
def IntegralTypes.HasValue {α : Type*} (T : IntegralTypes α) (v : Int) (t : α) : Prop :=
  if T.isSigned t then -(2 : Int) ^ (8 * T.size t - 1) ≤ v ∧ v < (2 : Int) ^ (8 * T.size t - 1)
  else 0 ≤ v ∧ v < (2 : Int) ^ (8 * T.size t)

instance {α : Type*} (T : IntegralTypes α) (v : Int) : DecidablePred (T.HasValue v) := fun t => by
  unfold IntegralTypes.HasValue
  infer_instance

/-- Source: `struct type_mask_tag` (`cxx-cexpr.c:1140`). -/
structure TypeMask (α : Type*) (w : CValue) where
  type : α
  mask : BitVec w.bits

/-- Source: `safe_compute_bitmask` (`cxx-cexpr.c:1146`). -/
def safeComputeBitmask (w : CValue) (is_signed : Bool) (size_in_bytes : Nat) : BitVec w.bits :=
  let shift := if is_signed then 8 * size_in_bytes - 1 else 8 * size_in_bytes
  if shift = w.bits then 0 else if shift < w.bits then BitVec.allOnes w.bits <<< shift else 0

/-- Source: `safe_compute_bitmask_of_type` (`cxx-cexpr.c:1175`). -/
def safeComputeBitmaskOfType {α : Type*} (T : IntegralTypes α) (w : CValue) (t : α) : TypeMask α w :=
  ⟨t, safeComputeBitmask w (T.isSigned t) (T.size t)⟩

/-- The arrays are lists without the sentinel, or the null pointer; so is the result. Source:
`get_minimal_integer_for_value_` (`cxx-cexpr.c:1180`). -/
def getMinimalIntegerForValue {α : Type*} {w : CValue} (is_signed : Bool) (value : BitVec w.bits)
    (unsigned_type_mask signed_type_mask : Option (List (TypeMask α w))) : Option α :=
  if is_signed = false then
    unsigned_type_mask.bind fun type_mask =>
      (type_mask.find? fun m => value &&& m.mask = 0).map TypeMask.type
  else
    let NBITS_1 := w.bits - 1
    let is_negative := (value &&& (1#w.bits <<< NBITS_1)) >>> NBITS_1
    signed_type_mask.bind fun type_mask =>
      if is_negative = 0 then (type_mask.find? fun m => value &&& m.mask = 0).map TypeMask.type
      else (type_mask.find? fun m => ~~~value &&& m.mask.shiftLeft 1 = 0).map TypeMask.type

/-- The values of the sign that the wide word has. -/
def CValue.InRange (w : CValue) (is_signed : Bool) (v : Int) : Prop :=
  if is_signed then -(2 : Int) ^ (w.bits - 1) ≤ v ∧ v < (2 : Int) ^ (w.bits - 1)
  else 0 ≤ v ∧ v < (2 : Int) ^ w.bits

instance (w : CValue) (is_signed : Bool) (v : Int) : Decidable (w.InRange is_signed v) := by
  unfold CValue.InRange
  infer_instance

section
variable {α : Type*} {T : IntegralTypes α} {w : CValue} {v : Int} {t : α} {l : List α}

/-! ## Masks -/

/-- The first bit of the mask. -/
def IntegralTypes.shift (T : IntegralTypes α) (t : α) : Nat :=
  if T.isSigned t then 8 * T.size t - 1 else 8 * T.size t

theorem mask_eq (T : IntegralTypes α) (w : CValue) (t : α) :
    (safeComputeBitmaskOfType T w t).mask = BitVec.allOnes w.bits <<< T.shift t := by
  show (if T.shift t = w.bits then 0
    else if T.shift t < w.bits then BitVec.allOnes w.bits <<< T.shift t else 0) = _
  rcases Nat.lt_or_ge (T.shift t) w.bits with h | h
  · rw [if_neg h.ne, if_pos h]
  · rw [if_neg (Nat.not_lt.2 h), ite_self, BitVec.shiftLeft_eq_zero h]
    rfl

/-- A value that is not negative passes a type if it is below the type's first mask bit. -/
theorem and_mask_eq_zero_iff (h0 : 0 ≤ v) (h1 : v < (2 : Int) ^ w.bits) (t : α) :
    BitVec.ofInt w.bits v &&& (safeComputeBitmaskOfType T w t).mask = 0 ↔ v < (2 : Int) ^ T.shift t := by
  rw [mask_eq, and_allOnes_shiftLeft_eq_zero_iff, ← Nat.cast_lt (α := Int), toNat_ofInt_of_mem h0 h1]
  push_cast
  rfl

/-- A negative value passes a type if its complement is below the bit behind that. -/
theorem not_and_mask_eq_zero_iff (h0 : v < 0) (h1 : -(2 : Int) ^ w.bits ≤ v) (t : α) :
    ~~~(BitVec.ofInt w.bits v) &&& (safeComputeBitmaskOfType T w t).mask.shiftLeft 1 = 0 ↔
      -(2 : Int) ^ (T.shift t + 1) ≤ v := by
  have hnot : ~~~(BitVec.ofInt w.bits v) = BitVec.ofInt w.bits (-v - 1) := by
    rw [BitVec.not_eq_neg_add, ofInt_sub, BitVec.ofInt_neg]
    rfl
  rw [mask_eq, BitVec.shiftLeft_eq, ← BitVec.shiftLeft_add, and_allOnes_shiftLeft_eq_zero_iff, hnot,
    ← Nat.cast_lt (α := Int), toNat_ofInt_of_mem (by omega) (by omega)]
  push_cast
  omega

/-! ## The type that is found -/

theorem hasValue_iff_of_nonneg (h0 : 0 ≤ v) : T.HasValue v t ↔ v < (2 : Int) ^ T.shift t := by
  unfold IntegralTypes.HasValue IntegralTypes.shift
  have hpos : (0 : Int) < 2 ^ (8 * T.size t - 1) := Int.pow_pos (by decide)
  split
  · exact and_iff_right (by omega)
  · exact and_iff_right h0

theorem hasValue_iff_of_neg (h0 : v < 0) (ht : T.isSigned t = true) :
    T.HasValue v t ↔ -(2 : Int) ^ (8 * T.size t - 1) ≤ v := by
  rw [IntegralTypes.HasValue, if_pos ht]
  have hpos : (0 : Int) < 2 ^ (8 * T.size t - 1) := Int.pow_pos (by decide)
  exact and_iff_left (by omega)

/-- The first type that passes the test of its mask. -/
theorem find?_masks (test : TypeMask α w → Bool) (l : List α) :
    ((l.map (safeComputeBitmaskOfType T w)).find? test).map TypeMask.type =
      l.find? fun t => test (safeComputeBitmaskOfType T w t) := by
  rw [List.find?_map, Option.map_map]
  exact Option.map_id'

theorem find?_congr {p q : α → Bool} (h : ∀ t ∈ l, p t = q t) : l.find? p = l.find? q := by
  induction l with
  | nil => rfl
  | cons t l ih =>
    rw [List.find?_cons, List.find?_cons, h t List.mem_cons_self,
      ih fun s hs => h s (List.mem_cons_of_mem _ hs)]

/-- Of a value that is not negative the code finds the first type that has it. -/
theorem getMinimalIntegerForValue_of_nonneg {is_signed : Bool} (hv : w.InRange is_signed v) (h0 : 0 ≤ v)
    (unsigned signed : List α) :
    getMinimalIntegerForValue is_signed (BitVec.ofInt w.bits v)
        (some (unsigned.map (safeComputeBitmaskOfType T w))) (some (signed.map (safeComputeBitmaskOfType T w))) =
      (if is_signed then signed else unsigned).find? (T.HasValue v) := by
  have hlt : v < (2 : Int) ^ w.bits := by
    cases is_signed with
    | true => exact hv.2.trans_le (pow_le_pow (Nat.sub_le _ _))
    | false => exact hv.2
  have htest : ∀ t ∈ (if is_signed then signed else unsigned),
      decide (BitVec.ofInt w.bits v &&& (safeComputeBitmaskOfType T w t).mask = 0) =
        decide (T.HasValue v t) := fun t _ =>
    decide_eq_decide.2 ((and_mask_eq_zero_iff h0 hlt t).trans (hasValue_iff_of_nonneg h0).symm)
  unfold getMinimalIntegerForValue
  cases is_signed with
  | false =>
    rw [if_pos rfl, Option.bind_some, find?_masks]
    exact find?_congr htest
  | true =>
    have hsign : ((BitVec.ofInt w.bits v) &&& (1#w.bits <<< (w.bits - 1))) >>> (w.bits - 1) = 0 := by
      rw [signBit_eq_zero_iff, BitVec.toInt_ofInt_eq_self (by cases w <;> decide) hv.1 hv.2]
      exact h0
    rw [if_neg (by decide), Option.bind_some, if_pos hsign, find?_masks]
    exact find?_congr htest

/-- Of a negative value it finds the first type of one bit more. -/
theorem getMinimalIntegerForValue_of_neg (hv : w.InRange true v) (h0 : v < 0) (unsigned signed : List α)
    (hsigned : ∀ t ∈ signed, T.isSigned t = true) :
    getMinimalIntegerForValue true (BitVec.ofInt w.bits v)
        (some (unsigned.map (safeComputeBitmaskOfType T w))) (some (signed.map (safeComputeBitmaskOfType T w))) =
      signed.find? fun t => -(2 : Int) ^ (8 * T.size t) ≤ v := by
  have hle : -(2 : Int) ^ w.bits ≤ v := by
    have := pow_le_pow (Nat.sub_le w.bits 1)
    have := hv.1
    omega
  have hsign : ¬ ((BitVec.ofInt w.bits v) &&& (1#w.bits <<< (w.bits - 1))) >>> (w.bits - 1) = 0 := by
    rw [signBit_eq_zero_iff, BitVec.toInt_ofInt_eq_self (by cases w <;> decide) hv.1 hv.2]
    omega
  unfold getMinimalIntegerForValue
  rw [if_neg (by decide), Option.bind_some, if_neg hsign, find?_masks]
  refine find?_congr fun t ht => decide_eq_decide.2 ((not_and_mask_eq_zero_iff h0 hle t).trans ?_)
  have hpos := T.size_pos t
  rw [IntegralTypes.shift, if_pos (hsigned t ht), Nat.sub_add_cancel (by omega)]

/-- In a list ordered by size, the first member with one property is the first one with a stronger one, which
larger members inherit, if every member with the one has the other. -/
theorem find?_eq_find?_iff {size : α → Nat} {p q : α → Bool} (hl : l.Pairwise fun a b => size a ≤ size b)
    (hqp : ∀ t ∈ l, q t = true → p t = true)
    (hq : ∀ s ∈ l, ∀ t ∈ l, size s ≤ size t → q s = true → q t = true) :
    l.find? p = l.find? q ↔ ∀ t ∈ l, p t = true → q t = true := by
  constructor
  · intro h t ht hp
    obtain ⟨s, hs⟩ := Option.isSome_iff_exists.1 (List.find?_isSome.2 ⟨t, ht, hp⟩)
    have hqs : q s = true := List.find?_some (h.symm.trans hs)
    obtain ⟨-, front, back, rfl, hfront⟩ := List.find?_eq_some_iff_append.1 hs
    rcases List.mem_append.1 ht with ht | ht
    · exact absurd (hfront t ht) (by simp [hp])
    · rcases List.mem_cons.1 ht with rfl | ht
      · exact hqs
      · refine hq s (by simp) t (by simp [ht]) ?_ hqs
        exact (List.pairwise_cons.1 (List.pairwise_append.1 hl).2.1).1 t ht
  · exact fun h => find?_congr fun t ht => Bool.eq_iff_iff.2 ⟨h t ht, hqp t ht⟩

/-- Lists of the types of one sign, ordered by size: the code finds the first type whose range has the value,
unless it is negative and out of the range of some type by one bit. -/
theorem getMinimalIntegerForValue_iff (T : IntegralTypes α) (w : CValue) (is_signed : Bool) (v : Int)
    (hv : w.InRange is_signed v) (unsigned signed : List α)
    (hsigned : ∀ t ∈ signed, T.isSigned t = true)
    (hsize : (if is_signed then signed else unsigned).Pairwise fun s t => T.size s ≤ T.size t) :
    getMinimalIntegerForValue is_signed (BitVec.ofInt w.bits v)
        (some (unsigned.map (safeComputeBitmaskOfType T w))) (some (signed.map (safeComputeBitmaskOfType T w))) =
      (if is_signed then signed else unsigned).find? (T.HasValue v) ↔
    (is_signed = true → ∀ t ∈ signed,
      ¬ (-(2 : Int) ^ (8 * T.size t) ≤ v ∧ v < -(2 : Int) ^ (8 * T.size t - 1))) := by
  rcases lt_or_ge v 0 with h0 | h0
  · have hs : is_signed = true := by
      by_contra hs
      rw [Bool.not_eq_true] at hs
      subst hs
      exact absurd hv.1 (Int.not_le.2 h0)
    subst hs
    rw [getMinimalIntegerForValue_of_neg hv h0 unsigned signed hsigned, if_pos rfl]
    rw [if_pos rfl] at hsize
    rw [find?_eq_find?_iff hsize]
    · simp only [true_imp_iff, decide_eq_true_eq]
      refine forall₂_congr fun t ht => ?_
      rw [hasValue_iff_of_neg h0 (hsigned t ht), not_and, Int.not_lt]
    · intro t ht hq
      rw [decide_eq_true_eq, hasValue_iff_of_neg h0 (hsigned t ht)] at hq
      rw [decide_eq_true_eq]
      have := pow_le_pow (Nat.sub_le (8 * T.size t) 1)
      omega
    · intro s hs t ht hst hq
      rw [decide_eq_true_eq, hasValue_iff_of_neg h0 (hsigned s hs)] at hq
      rw [decide_eq_true_eq, hasValue_iff_of_neg h0 (hsigned t ht)]
      have := pow_le_pow (show 8 * T.size s - 1 ≤ 8 * T.size t - 1 by omega)
      omega
  · rw [getMinimalIntegerForValue_of_nonneg hv h0]
    refine iff_of_true rfl fun _ t _ => ?_
    have hpos : (0 : Int) < 2 ^ (8 * T.size t - 1) := Int.pow_pos (by decide)
    omega

/-- `char`, `short`, `int`, `long` and `long long`, each signed or not. -/
def standardTypes : IntegralTypes IntType where
  isSigned t := t.sign
  size t := t.num_bytes.toNat
  size_pos t := by cases t.num_bytes <;> decide

/-- -300 gets `short`. -/
theorem getMinimalIntegerForValue_iff_short :
    let signed := [⟨.one, true⟩, ⟨.two, true⟩, ⟨.four, true⟩, ⟨.eight, true⟩]
    getMinimalIntegerForValue true (BitVec.ofInt CValue.int64.bits (-300)) (some [])
        (some (signed.map (safeComputeBitmaskOfType standardTypes .int64))) =
      signed.find? (standardTypes.HasValue (-300)) :=
  (getMinimalIntegerForValue_iff standardTypes .int64 true (-300) (by decide) []
    [⟨.one, true⟩, ⟨.two, true⟩, ⟨.four, true⟩, ⟨.eight, true⟩] (by decide) (by decide)).2
    fun _ => by decide

/-- -200 is no value of `signed char`. -/
theorem getMinimalIntegerForValue_out_of_range :
    let signed := [⟨.one, true⟩, ⟨.two, true⟩, ⟨.four, true⟩, ⟨.eight, true⟩]
    getMinimalIntegerForValue true (BitVec.ofInt CValue.int64.bits (-200)) (some [])
        (some (signed.map (safeComputeBitmaskOfType standardTypes .int64))) = some ⟨.one, true⟩ ∧
      ¬ standardTypes.HasValue (-200) ⟨.one, true⟩ ∧
      signed.find? (standardTypes.HasValue (-200)) = some ⟨.two, true⟩ := by decide

end

end OmpSs.Mcxx.Cexpr
