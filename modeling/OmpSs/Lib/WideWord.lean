import OmpSs.Lib.Word
import Mathlib.Tactic.Ring

/-!
# Narrow integers in wide words

An integer of `n` bits that is kept in a word of `w` bits, as constants are folded: the sums, products and
bitwise operations of the wide words are those of the narrow ones, once the high bits are cleared or the
results fit. A quotient, a remainder and a comparison are not, when a negative integer stands for a narrow
unsigned one: `mul_add_ediv_emod_iff` and its neighbours say when they are all the same.
-/

namespace OmpSs.Lib.Word

variable {n w : Nat}

/-! ## Integers as words -/

theorem ofInt_eq_ofInt_iff {x y : Int} :
    BitVec.ofInt w x = BitVec.ofInt w y ↔ x % (2 : Int) ^ w = y % (2 : Int) ^ w := by
  rw [← BitVec.toNat_inj, BitVec.toNat_ofInt, BitVec.toNat_ofInt]
  have hp : (0 : Int) < 2 ^ w := Int.pow_pos (by decide)
  have hx := Int.emod_nonneg x hp.ne'
  have hy := Int.emod_nonneg y hp.ne'
  push_cast
  omega

theorem ofInt_sub (x y : Int) : BitVec.ofInt w (x - y) = BitVec.ofInt w x - BitVec.ofInt w y := by
  rw [Int.sub_eq_add_neg, BitVec.ofInt_add, BitVec.ofInt_neg, BitVec.sub_eq_add_neg]

theorem toNat_ofInt_emod (x : Int) : ((BitVec.ofInt w x).toNat : Int) = x % (2 : Int) ^ w := by
  have hp : (0 : Int) < 2 ^ w := Int.pow_pos (by decide)
  have hx := Int.emod_nonneg x hp.ne'
  rw [BitVec.toNat_ofInt]
  push_cast
  omega

theorem toNat_ofInt_of_mem {x : Int} (h0 : 0 ≤ x) (h1 : x < (2 : Int) ^ w) :
    ((BitVec.ofInt w x).toNat : Int) = x := by
  rw [toNat_ofInt_emod, Int.emod_eq_of_lt h0 h1]

theorem ofInt_toNat (b : BitVec w) : BitVec.ofInt w (b.toNat : Int) = b := by
  rw [BitVec.ofInt_natCast, BitVec.ofNat_toNat, BitVec.setWidth_eq]

theorem pow_dvd_pow_of_le (hn : n ≤ w) : (2 : Int) ^ n ∣ (2 : Int) ^ w :=
  ⟨(2 : Int) ^ (w - n), by rw [← Int.pow_add, Nat.add_sub_cancel' hn]⟩

theorem setWidth_ofInt (hn : n ≤ w) (x : Int) : (BitVec.ofInt w x).setWidth n = BitVec.ofInt n x := by
  apply BitVec.eq_of_toNat_eq
  have hw : (((BitVec.ofInt w x).setWidth n).toNat : Int) = ((BitVec.ofInt n x).toNat : Int) := by
    rw [BitVec.toNat_setWidth, Int.natCast_mod, toNat_ofInt_emod, toNat_ofInt_emod]
    push_cast
    exact Int.emod_emod_of_dvd x (pow_dvd_pow_of_le hn)
  exact Int.ofNat_inj.1 hw

/-! ## The low bits -/

/-- The word without the bits from `n` on. -/
def lowBits (n : Nat) (v : BitVec w) : BitVec w := v &&& ~~~(BitVec.allOnes w <<< n)

theorem lowBits_eq_setWidth (v : BitVec w) : lowBits n v = (v.setWidth n).setWidth w := by
  apply BitVec.eq_of_getLsbD_eq
  intro i hi
  simp only [lowBits, BitVec.getLsbD_and, BitVec.getLsbD_not, BitVec.getLsbD_shiftLeft,
    BitVec.getLsbD_setWidth, BitVec.getLsbD_allOnes, hi, decide_true, Bool.true_and]
  by_cases h : i < n
  · simp [h]
  · have : i - n < w := by omega
    simp [h, this]

theorem lowBits_ofInt (hn : n ≤ w) (x : Int) :
    lowBits n (BitVec.ofInt w x) = BitVec.ofInt w (x % (2 : Int) ^ n) := by
  rw [lowBits_eq_setWidth, setWidth_ofInt hn, ← toNat_ofInt_emod, BitVec.ofInt_natCast,
    BitVec.ofNat_toNat]

/-- All the bits of a word are its low bits. -/
theorem lowBits_self (v : BitVec w) : lowBits w v = v := by
  rw [lowBits_eq_setWidth, BitVec.setWidth_eq, BitVec.setWidth_eq]

/-- A word without bits from `n` on. -/
theorem and_allOnes_shiftLeft_eq_zero_iff (v : BitVec w) (n : Nat) :
    v &&& (BitVec.allOnes w <<< n) = 0 ↔ v.toNat < 2 ^ n := by
  have hbit : v &&& (BitVec.allOnes w <<< n) = 0 ↔ ∀ i, n ≤ i → v.getLsbD i = false := by
    constructor
    · intro h i hi
      by_cases hw : i < w
      · have hi' := congrArg (fun v : BitVec w => v.getLsbD i) h
        simpa [hw, Nat.not_lt.2 hi, show i - n < w by omega] using hi'
      · exact BitVec.getLsbD_of_ge v i (by omega)
    · intro h
      apply BitVec.eq_of_getLsbD_eq
      intro i hi
      by_cases hn : i < n
      · simp [hn]
      · simp [h i (by omega)]
  rw [hbit]
  exact ⟨fun h => Nat.lt_pow_two_of_testBit _ h, fun h i hi =>
    Nat.testBit_lt_two_pow (h.trans_le (Nat.pow_le_pow_right (by decide) hi))⟩

/-- The bit of the sign, brought to the other end. -/
theorem signBit_eq_zero_iff (v : BitVec w) :
    (v &&& (1#w <<< (w - 1))) >>> (w - 1) = 0 ↔ 0 ≤ v.toInt := by
  have hmsb := BitVec.msb_eq_toInt (x := v)
  rw [BitVec.msb_eq_getLsbD_last] at hmsb
  rw [← BitVec.twoPow_eq, BitVec.and_twoPow, hmsb]
  by_cases hv : v.toInt < 0
  · have hw : 0 < w := by
      rcases Nat.eq_zero_or_pos w with rfl | hw
      · simp [BitVec.eq_nil v] at hv
      · exact hw
    refine iff_of_false (fun h => ?_) (by omega)
    rw [if_pos (by simpa using hv)] at h
    have hbit := congrArg (fun v : BitVec w => v.getLsbD 0) h
    simp [hw] at hbit
  · rw [if_neg (by simpa using hv)]
    exact iff_of_true (by simp) (by omega)

/-! ## Bitwise operations -/

/-- An operation on words that works on each bit alone. -/
structure Bitwise (f : ∀ w, BitVec w → BitVec w → BitVec w) : Prop where
  setWidth : ∀ {n w} (x y : BitVec w), (f w x y).setWidth n = f n (x.setWidth n) (y.setWidth n)
  signExtend : ∀ {n w} (x y : BitVec n), (f n x y).signExtend w = f w (x.signExtend w) (y.signExtend w)

theorem bitwise_and : Bitwise fun _ x y => x &&& y where
  setWidth _ _ := BitVec.setWidth_and
  signExtend _ _ := BitVec.signExtend_and

theorem bitwise_or : Bitwise fun _ x y => x ||| y where
  setWidth _ _ := BitVec.setWidth_or
  signExtend _ _ := BitVec.signExtend_or

theorem bitwise_xor : Bitwise fun _ x y => x ^^^ y where
  setWidth _ _ := BitVec.setWidth_xor
  signExtend _ _ := BitVec.signExtend_xor

theorem Bitwise.lowBits_ofInt {f : ∀ w, BitVec w → BitVec w → BitVec w} (hf : Bitwise f) (hn : n ≤ w)
    (x y : Int) : lowBits n (f w (BitVec.ofInt w x) (BitVec.ofInt w y)) =
      BitVec.ofInt w ((f n (BitVec.ofInt n x) (BitVec.ofInt n y)).toNat : Int) := by
  rw [lowBits_eq_setWidth, hf.setWidth, setWidth_ofInt hn, setWidth_ofInt hn, BitVec.ofInt_natCast,
    BitVec.ofNat_toNat]

/-- The wide word of a narrow signed integer extends its sign. -/
theorem ofInt_eq_signExtend {x : Int} (hn : 0 < n) (h0 : -(2 : Int) ^ (n - 1) ≤ x)
    (h1 : x < (2 : Int) ^ (n - 1)) : BitVec.ofInt w x = (BitVec.ofInt n x).signExtend w := by
  rw [BitVec.signExtend, BitVec.toInt_ofInt_eq_self hn h0 h1]

theorem Bitwise.ofInt_signed {f : ∀ w, BitVec w → BitVec w → BitVec w} (hf : Bitwise f) (hn : 0 < n)
    {x y : Int} (hx0 : -(2 : Int) ^ (n - 1) ≤ x) (hx1 : x < (2 : Int) ^ (n - 1))
    (hy0 : -(2 : Int) ^ (n - 1) ≤ y) (hy1 : y < (2 : Int) ^ (n - 1)) :
    f w (BitVec.ofInt w x) (BitVec.ofInt w y) =
      BitVec.ofInt w (f n (BitVec.ofInt n x) (BitVec.ofInt n y)).toInt := by
  rw [ofInt_eq_signExtend hn hx0 hx1, ofInt_eq_signExtend hn hy0 hy1, ← hf.signExtend,
    BitVec.signExtend]

/-! ## Wide quotients and remainders -/

/-- A multiple of the modulus added to a dividend leaves the quotient alone, modulo the modulus, exactly
when the divisor divides the factor. -/
theorem mul_add_ediv_emod_iff {m k u y : Int} (hu0 : 0 ≤ u) (hu : u < m) (hy0 : 0 < y) (hy : y < m) :
    (m * k + u) / y % m = u / y ↔ y ∣ k := by
  have hm : 0 < m := by omega
  have hq0 : 0 ≤ u / y := Int.ediv_nonneg hu0 hy0.le
  have hqm : u / y < m := Int.lt_of_le_of_lt (Int.ediv_le_self y hu0) hu
  constructor
  · intro h
    rw [Int.dvd_iff_emod_eq_zero]
    by_contra hr
    have hr0 := Int.emod_nonneg k hy0.ne'
    have hr1 := Int.emod_lt_of_pos k hy0
    -- What the rest of the factor adds is less than the modulus and at least one.
    have hsplit : m * k + u = m * (k % y) + u + m * (k / y) * y := by
      have := Int.emod_add_mul_ediv k y
      calc m * k + u = m * (k % y + y * (k / y)) + u := by rw [this]
        _ = m * (k % y) + u + m * (k / y) * y := by ring
    rw [hsplit, Int.add_mul_ediv_right _ _ hy0.ne', Int.add_mul_emod_self_left] at h
    have hlow : m * 1 ≤ m * (k % y) := Int.mul_le_mul_of_nonneg_left (by omega) hm.le
    have hhigh : m * (k % y) ≤ m * (y - 1) := Int.mul_le_mul_of_nonneg_left (by omega) hm.le
    have hlt : (m * (k % y) + u) / y < m := by
      apply Int.ediv_lt_of_lt_mul hy0
      calc m * (k % y) + u < m * (y - 1) + m := by omega
        _ = m * y := by ring
    have hge : u / y + 1 ≤ (m * (k % y) + u) / y := by
      rw [← Int.add_mul_ediv_right u 1 hy0.ne']
      exact Int.ediv_le_ediv hy0 (by omega)
    have hnn : 0 ≤ (m * (k % y) + u) / y := by omega
    rw [Int.emod_eq_of_lt hnn hlt] at h
    omega
  · rintro ⟨j, rfl⟩
    have : m * (y * j) + u = u + m * j * y := by ring
    rw [this, Int.add_mul_ediv_right _ _ hy0.ne', Int.add_mul_emod_self_left, Int.emod_eq_of_lt hq0 hqm]

/-- A number added to a dividend leaves the remainder alone exactly when the divisor divides it. -/
theorem add_emod_iff {d u y : Int} : (d + u) % y = u % y ↔ y ∣ d := by
  rw [Int.emod_eq_emod_iff_emod_sub_eq_zero, Int.add_sub_cancel, Int.dvd_iff_emod_eq_zero]

/-! ## Negative integers as unsigned ones -/

theorem emod_pow_of_nonneg {x : Int} (h0 : 0 ≤ x) (h1 : x < (2 : Int) ^ n) : x % (2 : Int) ^ n = x :=
  Int.emod_eq_of_lt h0 h1

theorem emod_pow_of_neg {x : Int} (h0 : x < 0) (h1 : -(2 : Int) ^ n < x) :
    x % (2 : Int) ^ n = (2 : Int) ^ n + x := by
  rw [← Int.add_emod_left, Int.emod_eq_of_lt (by omega) (by omega)]

theorem two_mul_pow_le (hn : n < w) : 2 * (2 : Int) ^ n ≤ (2 : Int) ^ w := by
  have : 2 ^ (n + 1) ≤ 2 ^ w := Nat.pow_le_pow_right (by decide) hn
  rw [Nat.pow_succ] at this
  exact_mod_cast (Nat.mul_comm _ _).trans_le this

/-- The wide power is the narrow one and a multiple of it. -/
theorem pow_eq_pow_mul (hn : n < w) :
    (2 : Int) ^ w = (2 : Int) ^ n * ((2 : Int) ^ (w - n) - 1) + (2 : Int) ^ n := by
  have : (2 : Int) ^ w = (2 : Int) ^ n * (2 : Int) ^ (w - n) := by
    rw [← Int.pow_add, Nat.add_sub_cancel' hn.le]
  rw [this]
  ring

section Negative
variable {x y : Int} (hn : n < w) (hx : -(2 : Int) ^ n < x) (hx' : x < (2 : Int) ^ n)
  (hy : -(2 : Int) ^ n < y) (hy' : y < (2 : Int) ^ n) (h0 : 0 ≤ x ∨ 0 ≤ y)
include hn hx hx' hy hy' h0

/-- A wide unsigned quotient is the narrow one, modulo the narrow power. -/
theorem ediv_wide_iff (hy0 : y ≠ 0) :
    x % (2 : Int) ^ w / (y % (2 : Int) ^ w) % (2 : Int) ^ n = x % (2 : Int) ^ n / (y % (2 : Int) ^ n) ↔
      (x < 0 → y ∣ (2 : Int) ^ (w - n) - 1) ∧ (y < 0 → x < (2 : Int) ^ n + y) := by
  have hle := two_mul_pow_le hn
  rcases Int.lt_or_le x 0 with hxn | hxp
  · have hyp : 0 ≤ y := by omega
    rw [emod_pow_of_neg hxn (by omega), emod_pow_of_neg hxn hx, emod_pow_of_nonneg hyp (by omega),
      emod_pow_of_nonneg hyp hy', pow_eq_pow_mul hn, Int.add_assoc,
      mul_add_ediv_emod_iff (by omega) (by omega) (by omega) hy']
    constructor
    · intro h
      exact ⟨fun _ => h, fun h => by omega⟩
    · intro h
      exact h.1 hxn
  · rw [emod_pow_of_nonneg hxp (by omega), emod_pow_of_nonneg hxp hx']
    rcases Int.lt_or_le y 0 with hyn | hyp
    · rw [emod_pow_of_neg hyn (by omega), emod_pow_of_neg hyn hy,
        Int.ediv_eq_zero_of_lt hxp (by omega), Int.zero_emod]
      constructor
      · intro h
        refine ⟨fun h => by omega, fun _ => ?_⟩
        by_contra hge
        have : 1 ≤ x / ((2 : Int) ^ n + y) := by
          rw [Int.le_ediv_iff_mul_le (by omega)]
          omega
        omega
      · intro h
        rw [Int.ediv_eq_zero_of_lt hxp (h.2 hyn)]
    · rw [emod_pow_of_nonneg hyp (by omega), emod_pow_of_nonneg hyp hy',
        Int.emod_eq_of_lt (Int.ediv_nonneg hxp hyp)
          (Int.lt_of_le_of_lt (Int.ediv_le_self y hxp) hx')]
      exact iff_of_true rfl ⟨fun h => by omega, fun h => by omega⟩

/-- A wide unsigned remainder is the narrow one. -/
theorem emod_wide_iff (hy0 : y ≠ 0) :
    x % (2 : Int) ^ w % (y % (2 : Int) ^ w) % (2 : Int) ^ n = x % (2 : Int) ^ n % (y % (2 : Int) ^ n) ↔
      (x < 0 → y ∣ (2 : Int) ^ w - (2 : Int) ^ n) ∧ (y < 0 → x < (2 : Int) ^ n + y) := by
  have hle := two_mul_pow_le hn
  rcases Int.lt_or_le x 0 with hxn | hxp
  · have hyp : 0 < y := by omega
    have hsplit : (2 : Int) ^ w + x = ((2 : Int) ^ w - (2 : Int) ^ n) + ((2 : Int) ^ n + x) := by omega
    have hmod := Int.emod_lt_of_pos ((2 : Int) ^ w + x) hyp
    rw [emod_pow_of_neg hxn (by omega), emod_pow_of_neg hxn hx, emod_pow_of_nonneg hyp.le (by omega),
      emod_pow_of_nonneg hyp.le hy',
      emod_pow_of_nonneg (Int.emod_nonneg _ hyp.ne') (by omega), hsplit, add_emod_iff]
    constructor
    · intro h
      exact ⟨fun _ => h, fun h => by omega⟩
    · intro h
      exact h.1 hxn
  · rw [emod_pow_of_nonneg hxp (by omega), emod_pow_of_nonneg hxp hx']
    rcases Int.lt_or_le y 0 with hyn | hyp
    · rw [emod_pow_of_neg hyn (by omega), emod_pow_of_neg hyn hy, Int.emod_eq_of_lt hxp (by omega),
        emod_pow_of_nonneg hxp hx']
      constructor
      · intro h
        refine ⟨fun h => by omega, fun _ => ?_⟩
        rw [h]
        exact Int.emod_lt_of_pos x (by omega)
      · intro h
        rw [Int.emod_eq_of_lt hxp (h.2 hyn)]
    · have hmod := Int.emod_lt_of_pos x (show 0 < y by omega)
      rw [emod_pow_of_nonneg hyp (by omega), emod_pow_of_nonneg hyp hy',
        emod_pow_of_nonneg (Int.emod_nonneg _ hy0) (by omega)]
      exact iff_of_true rfl ⟨fun h => by omega, fun h => by omega⟩

end Negative

end OmpSs.Lib.Word
