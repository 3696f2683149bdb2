import OmpSs.Lib.TwoPowers
import OmpSs.Mcxx.Cexpr

/-!
# Constant folding of powers

`const_value_pow` (`mcxx/src/frontend/cxx-cexpr.c:3661`) raises by squaring, on the wide words, whose products
wrap around. That is a power modulo the power of two of the word. For a negative exponent one is divided by
it, and what has wrapped around may be zero, one or minus one: `constValuePow_iff` says for which operands.

A type has no value so large that an odd power of it could be a unit of the word, so the base is even, or the
exponent is (`vanishes_iff`).
-/

namespace OmpSs.Mcxx.Cexpr

open Lib Lib.Word

/-! ## Folding -/

section
variable {w : CValue}

/-- Source: `arith_powu` (`cxx-cexpr.c:3623`). -/
def arithPowu (a b : BitVec w.bits) : BitVec w.bits :=
  if b = 0 then 1
  else if b &&& 1 = 1 then
    let k := arithPowu a ((b - 1) >>> 1)
    a * k * k
  else
    let k := arithPowu a (b >>> 1)
    k * k
termination_by b.toNat
decreasing_by
  all_goals
    have hb : b.toNat ≠ 0 := fun h => ‹¬ b = 0› (BitVec.eq_of_toNat_eq (h.trans (by simp)))
    simp only [BitVec.toNat_ushiftRight, Nat.shiftRight_eq_div_pow]
  · have hsub : (b - 1).toNat ≤ b.toNat := by
      rw [BitVec.toNat_sub_of_le (by
        rw [BitVec.le_def]
        have : (1 : BitVec w.bits).toNat ≤ 1 := Nat.mod_le 1 _
        omega)]
      omega
    omega
  · omega

/-- `none`: the exponent has no negative, or one is divided by zero. Source: `arith_pows`
(`cxx-cexpr.c:3641`). -/
def arithPows (a b : BitVec w.bits) : Option (BitVec w.bits) :=
  if b = 0 then some 1
  else if b.toInt < 0 then
    if b = BitVec.intMin w.bits then none else (arithPows a (-b)).bind (trapping BitVec.sdiv 1)
  else if b &&& 1 = 1 then
    let k := arithPowu a ((b - 1).sshiftRight 1)
    some (a * k * k)
  else
    let k := arithPowu a (b.sshiftRight 1)
    some (k * k)
termination_by if b.toInt < 0 then 1 else 0
decreasing_by
  rw [if_neg (by rw [BitVec.toInt_neg_of_ne_intMin ‹_›]; omega), if_pos ‹_›]
  decide

/-- Source: `BINOP_FUN_CALL` (`cxx-cexpr.c:3140`). -/
def constValuePow : ConstValue w → ConstValue w → Option (ConstValue w) :=
  binopFun arithPows fun a b => some (arithPowu a b)

/-! ## Powers -/

variable {a b : BitVec w.bits}

@[simp] theorem toNat_one : (1 : BitVec w.bits).toNat = 1 := by
  cases w <;> rfl

theorem and_one_eq_one_iff : b &&& 1 = 1 ↔ b.toNat % 2 = 1 := by
  rw [← BitVec.toNat_inj, BitVec.toNat_and, toNat_one, Nat.and_one_is_mod]

theorem toNat_sub_one (h : b &&& 1 = 1) : (b - 1).toNat = b.toNat - 1 := by
  have hodd := and_one_eq_one_iff.1 h
  rw [BitVec.toNat_sub_of_le (by rw [BitVec.le_def, toNat_one]; omega), toNat_one]

/-- Squaring gives the power, modulo the power of two of the word. -/
theorem arithPowu_eq (a b : BitVec w.bits) :
    arithPowu a b = BitVec.ofInt w.bits (a.toInt ^ b.toNat) := by
  induction b using arithPowu.induct (a := a) with
  | case1 => simp [arithPowu]
  | case2 b hb hodd ih =>
    have hmod := and_one_eq_one_iff.1 hodd
    have hhalf : ((b - 1) >>> 1).toNat = b.toNat / 2 := by
      rw [BitVec.toNat_ushiftRight, toNat_sub_one hodd, Nat.shiftRight_eq_div_pow]
      omega
    have hpow : a.toInt ^ b.toNat = a.toInt * a.toInt ^ (b.toNat / 2) * a.toInt ^ (b.toNat / 2) := by
      rw [mul_assoc, ← pow_add, ← pow_succ']
      congr 1
      omega
    rw [arithPowu, if_neg hb, if_pos hodd, ih, hhalf, hpow, BitVec.ofInt_mul, BitVec.ofInt_mul,
      BitVec.ofInt_toInt]
  | case3 b hb heven ih =>
    have hmod := mt and_one_eq_one_iff.2 heven
    have hhalf : (b >>> 1).toNat = b.toNat / 2 := by
      rw [BitVec.toNat_ushiftRight, Nat.shiftRight_eq_div_pow, pow_one]
    have hpow : a.toInt ^ b.toNat = a.toInt ^ (b.toNat / 2) * a.toInt ^ (b.toNat / 2) := by
      rw [← pow_add]
      congr 1
      omega
    rw [arithPowu, if_neg hb, if_neg heven, ih, hhalf, hpow, BitVec.ofInt_mul]

/-- The exponent is not negative: the signed function is the unsigned one. -/
theorem arithPows_of_nonneg (hb : 0 ≤ b.toInt) :
    arithPows a b = some (BitVec.ofInt w.bits (a.toInt ^ b.toInt.toNat)) := by
  have hmsb : b.msb = false := by
    rw [BitVec.msb_eq_toInt, decide_eq_false_iff_not]
    omega
  have hnat : b.toInt.toNat = b.toNat := by
    rw [BitVec.toInt_eq_toNat_of_msb hmsb, Int.toNat_natCast]
  rw [hnat, ← arithPowu_eq, arithPows, arithPowu.eq_def a b]
  split
  · rfl
  · rw [if_neg (by omega)]
    split
    · next hodd =>
      have hmsb' : (b - 1).msb = false := by
        rw [BitVec.msb_eq_false_iff_two_mul_lt, toNat_sub_one hodd]
        have := BitVec.msb_eq_false_iff_two_mul_lt.1 hmsb
        omega
      rw [BitVec.sshiftRight_eq_of_msb_false hmsb']
    · rw [BitVec.sshiftRight_eq_of_msb_false hmsb]

theorem arithPows_of_neg (hb : b.toInt < 0) (hmin : b ≠ BitVec.intMin w.bits) :
    arithPows a b = trapping BitVec.sdiv 1 (BitVec.ofInt w.bits (a.toInt ^ b.toInt.natAbs)) := by
  have hneg := BitVec.toInt_neg_of_ne_intMin hmin
  have hzero : b ≠ 0 := by
    rintro rfl
    simp at hb
  rw [arithPows, if_neg hzero, if_pos hb, if_neg hmin, arithPows_of_nonneg (by omega), Option.bind_some,
    hneg]
  congr 3
  omega

theorem arithPows_intMin : arithPows a (BitVec.intMin w.bits) = none := by
  have hneg : (BitVec.intMin w.bits).toInt < 0 := by
    cases w <;> decide
  have hzero : BitVec.intMin w.bits ≠ 0 := by
    cases w <;> decide
  rw [arithPows, if_neg hzero, if_pos hneg, if_pos rfl]

/-! ## Quotients of one -/

/-- The power of a base that is not a unit is zero or a unit in the wide word: the factors of two in the base
fill the word, or the base is odd, the exponent even, and those beside the base and in the exponent do. -/
def Vanishes (w : CValue) (x : Int) (n : Nat) : Prop :=
  (∃ j, (2 : Int) ^ j ∣ x ∧ w.bits ≤ j * n) ∨
    (¬ 2 ∣ x ∧ Even n ∧ (2 : Int) ^ w.bits ∣ (x ^ 2 - 1) * (n / 2 : Nat))

/-- An integer that is small and not zero is no multiple of the modulus. -/
theorem not_pow_dvd {x : Int} (h0 : x ≠ 0) (hlo : -(2 : Int) ^ w.bits < x) (hhi : x < (2 : Int) ^ w.bits) :
    ¬ (2 : Int) ^ w.bits ∣ x := fun hdvd => h0 (Int.eq_zero_of_abs_lt_dvd hdvd (abs_lt.2 ⟨hlo, hhi⟩))

/-- The integers beside a value of a signed type are small. -/
theorem beside_bounds (w : CValue) {t : IntType} {x : Int} (hs : t.sign = true) (hx : t.InRange x) :
    -(2 : Int) ^ w.bits < x - 1 ∧ x + 1 < (2 : Int) ^ w.bits := by
  rw [inRange_of_sign hs] at hx
  have hpow := pow_le_pow (show t.bits - 1 ≤ w.bits - 1 by have := t.bits_le w; omega)
  have hdouble : (2 : Int) ^ w.bits = 2 ^ (w.bits - 1) * 2 := by
    cases w <;> rfl
  have : (2 : Int) ≤ 2 ^ (w.bits - 1) := by
    cases w <;> decide
  omega

theorem vanishes_iff {x : Int} {n : Nat} (hzero : x ≠ 0) (hone : x ≠ 1) (hneg : x ≠ -1)
    (hlo : -(2 : Int) ^ w.bits < x - 1) (hhi : x + 1 < (2 : Int) ^ w.bits) (hn : n ≠ 0) :
    ((2 : Int) ^ w.bits ∣ x ^ n ∨ (2 : Int) ^ w.bits ∣ x ^ n - 1 ∨ (2 : Int) ^ w.bits ∣ x ^ n + 1) ↔
      Vanishes w x n := by
  have hfour : (4 : Int) ∣ 2 ^ w.bits := by
    cases w <;> decide
  unfold Vanishes
  rw [two_pow_dvd_pow_iff hzero]
  refine or_congr_right ?_
  by_cases heven : 2 ∣ x
  · have : (2 : Int) ∣ x ^ n := dvd_pow heven hn
    refine iff_of_false ?_ fun h => h.1 heven
    rintro (h | h)
    · have := hfour.trans h
      omega
    · have := hfour.trans h
      omega
  rcases Nat.even_or_odd n with hparity | hparity
  · rw [or_iff_left fun h => not_four_dvd_pow_add_one heven hparity (hfour.trans h),
      two_pow_dvd_pow_sub_one_iff heven hparity]
    exact ⟨fun h => ⟨heven, hparity, h⟩, fun h => h.2.2⟩
  · rw [two_pow_dvd_pow_sub_one_iff_of_odd heven hparity, two_pow_dvd_pow_add_one_iff_of_odd heven hparity]
    refine iff_of_false ?_ fun h => Nat.not_even_iff_odd.2 hparity h.2.1
    rintro (h | h)
    · exact not_pow_dvd (by omega) hlo (by omega) h
    · exact not_pow_dvd (by omega) (by omega) hhi h

theorem tdiv_one_eq_zero_iff {k : Int} : Int.tdiv 1 k = 0 ↔ k ≠ 1 ∧ k ≠ -1 := by
  constructor
  · intro h
    constructor
    · rintro rfl
      exact absurd h (by decide)
    · rintro rfl
      exact absurd h (by decide)
  · rintro ⟨hone, hneg⟩
    rw [← Int.natAbs_eq_zero, Int.natAbs_tdiv]
    rcases Nat.eq_zero_or_pos k.natAbs with h | h
    · rw [h]
      rfl
    · exact Nat.div_eq_of_lt (by omega)

/-- One divided by a word. -/
theorem trapping_sdiv_one (k : BitVec w.bits) :
    trapping BitVec.sdiv 1 k = if k = 0 then none else some (BitVec.sdiv 1 k) := by
  have hmin : (1 : BitVec w.bits) ≠ BitVec.intMin w.bits := by
    cases w <;> decide
  simp only [trapping, hmin, false_and, or_false]

theorem toInt_sdiv_one (k : BitVec w.bits) : (BitVec.sdiv 1 k).toInt = Int.tdiv 1 k.toInt := by
  have hmin : (1 : BitVec w.bits) ≠ BitVec.intMin w.bits := by
    cases w <;> decide
  have hone : (1 : BitVec w.bits).toInt = 1 := by
    cases w <;> decide
  rw [BitVec.toInt_sdiv_of_ne_or_ne _ _ (.inl hmin), hone]

theorem ofInt_eq_iff_dvd {x y : Int} :
    BitVec.ofInt w.bits x = BitVec.ofInt w.bits y ↔ (2 : Int) ^ w.bits ∣ x - y := by
  rw [ofInt_eq_ofInt_iff, Int.emod_eq_emod_iff_emod_sub_eq_zero, Int.dvd_iff_emod_eq_zero]

/-- The quotient of one and a word that stands for an integer that is no unit: it is right exactly if the word
is not zero or a unit. -/
theorem sdiv_one_ofInt_iff {x : Int} (hone : x ≠ 1) (hneg : x ≠ -1) :
    (∃ c, trapping BitVec.sdiv 1 (BitVec.ofInt w.bits x) = some c ∧ c.toInt = Int.tdiv 1 x) ↔
      ¬ ((2 : Int) ^ w.bits ∣ x ∨ (2 : Int) ^ w.bits ∣ x - 1 ∨ (2 : Int) ^ w.bits ∣ x + 1) := by
  have hzero : BitVec.ofInt w.bits x = 0 ↔ (2 : Int) ^ w.bits ∣ x := by
    rw [← Int.sub_zero x, ← ofInt_eq_iff_dvd, Int.sub_zero]
    rfl
  have htoInt (k : Int) (hk : k = 1 ∨ k = -1) : (BitVec.ofInt w.bits x).toInt = k ↔
      (2 : Int) ^ w.bits ∣ x - k := by
    have hself : (BitVec.ofInt w.bits k).toInt = k := by
      rcases hk with rfl | rfl <;> cases w <;> decide
    rw [← ofInt_eq_iff_dvd, ← BitVec.toInt_inj, hself]
  rw [trapping_sdiv_one, tdiv_one_eq_zero_iff.2 ⟨hone, hneg⟩, ← hzero, not_or, ← sub_neg_eq_add x 1,
    ← htoInt 1 (.inl rfl), ← htoInt (-1) (.inr rfl), not_or]
  split
  · next h => exact iff_of_false (fun ⟨c, hc, _⟩ => nomatch hc) fun hnot => hnot.1 h
  · next h =>
    rw [and_iff_right h, ← ne_eq, ← ne_eq, ← tdiv_one_eq_zero_iff, ← toInt_sdiv_one]
    constructor
    · rintro ⟨c, ⟨rfl⟩, hc⟩
      exact hc
    · exact fun h => ⟨_, rfl, h⟩

/-- The quotient of one and a power of a unit. -/
theorem sdiv_one_ofInt_unit {x : Int} (h : x = 1 ∨ x = -1) :
    ∃ c, trapping BitVec.sdiv 1 (BitVec.ofInt w.bits x) = some c ∧ c.toInt = Int.tdiv 1 x := by
  have hzero : BitVec.ofInt w.bits x ≠ 0 := by
    rcases h with rfl | rfl <;> cases w <;> decide
  have hself : (BitVec.ofInt w.bits x).toInt = x := by
    rcases h with rfl | rfl <;> cases w <;> decide
  refine ⟨_, (trapping_sdiv_one _).trans (if_neg hzero), ?_⟩
  rw [toInt_sdiv_one, hself]

/-! ## Constants -/

section
variable {v1 v2 : ConstValue w} (h1 : v1.type.sign = true) (h2 : v2.type.sign = true)
include h1 h2

theorem commonBytes_sign : (commonBytes v1.type v2.type).sign = true := by
  unfold commonBytes
  split
  · exact h1
  · simp [h1, h2]

/-- What is folded from signed constants is the signed power of the words. -/
theorem exists_constValuePow_iff {p : ConstValue w → Prop} : (∃ c, constValuePow v1 v2 = some c ∧ p c) ↔
    ∃ value, arithPows v1.i v2.i = some value ∧ p ⟨value, commonBytes v1.type v2.type⟩ := by
  have hsign := commonBytes_sign h1 h2
  have hfold (value : BitVec w.bits) : constValueGetInteger value (commonBytes v1.type v2.type) =
      ⟨value, commonBytes v1.type v2.type⟩ := by
    simp [constValueGetInteger, hsign]
  simp only [constValuePow, binopFun, hsign, if_true, hfold, Option.map_eq_some_iff]
  constructor
  · rintro ⟨_, ⟨value, hvalue, rfl⟩, hp⟩
    exact ⟨value, hvalue, hp⟩
  · rintro ⟨value, hvalue, hp⟩
    exact ⟨_, ⟨value, hvalue, rfl⟩, hp⟩

end

/-- **A power is folded right** for every exponent that is not negative, and for a negative one exactly if the
word has its negative and the power does not vanish. -/
theorem constValuePow_iff (v1 v2 : ConstValue w) (h1 : v1.type.sign = true) (h2 : v2.type.sign = true)
    (hrange : v1.type.InRange v1.stored) (ha : v1.stored ≠ 0) :
    (∃ c, constValuePow v1 v2 = some c ∧
        (0 ≤ v2.stored → c.i = BitVec.ofInt w.bits (v1.stored ^ v2.stored.toNat)) ∧
        (v2.stored < 0 → c.stored = Int.tdiv 1 (v1.stored ^ v2.stored.natAbs))) ↔
      (v2.stored < 0 → v2.i ≠ BitVec.intMin w.bits ∧
        (v1.stored = 1 ∨ v1.stored = -1 ∨ ¬ Vanishes w v1.stored v2.stored.natAbs)) := by
  have hstored1 : v1.stored = v1.i.toInt := if_pos h1
  have hstored2 : v2.stored = v2.i.toInt := if_pos h2
  have hstored (value : BitVec w.bits) :
      (⟨value, commonBytes v1.type v2.type⟩ : ConstValue w).stored = value.toInt :=
    if_pos (commonBytes_sign h1 h2)
  rw [exists_constValuePow_iff h1 h2]
  simp only [hstored]
  rcases Int.lt_or_le v2.stored 0 with hneg | hnonneg
  · simp only [hneg, not_le.2 hneg, forall_const, false_implies, true_and]
    by_cases hmin : v2.i = BitVec.intMin w.bits
    · rw [hmin, arithPows_intMin]
      exact iff_of_false (fun ⟨c, hc, _⟩ => nomatch hc) fun h => h.1 rfl
    rw [and_iff_right hmin, arithPows_of_neg (hstored2 ▸ hneg) hmin, ← hstored1, ← hstored2]
    by_cases hunit : v1.stored = 1 ∨ v1.stored = -1
    · refine iff_of_true (sdiv_one_ofInt_unit ?_) (or_assoc.1 (.inl hunit))
      rcases hunit with h | h
      · exact .inl (by rw [h, one_pow])
      · rw [h]
        exact neg_one_pow_eq_or Int v2.stored.natAbs
    · rw [← or_assoc, or_iff_right hunit]
      rw [not_or] at hunit
      have hexp : v2.stored.natAbs ≠ 0 := by omega
      obtain ⟨hlo, hhi⟩ := beside_bounds w h1 hrange
      rw [← vanishes_iff ha hunit.1 hunit.2 hlo hhi hexp]
      have habs : (v1.stored ^ v2.stored.natAbs).natAbs ≠ 1 := by
        rw [Int.natAbs_pow, ne_eq, Nat.pow_eq_one]
        omega
      exact sdiv_one_ofInt_iff (by omega) (by omega)
  · simp only [hnonneg, not_lt.2 hnonneg, forall_const, false_implies, and_true, iff_true]
    refine ⟨_, arithPows_of_nonneg (hstored2 ▸ hnonneg), ?_⟩
    rw [hstored1, hstored2]

end

/-- A signed constant of four bytes. -/
def signedInt (w : CValue) (v : Int) : ConstValue w :=
  constValueGetInteger (BitVec.ofInt w.bits v) IntType.signedInt

/-- One divided by the square of three is zero. -/
theorem constValuePow_iff_three :
    (signedInt .int128 3).type.InRange (signedInt .int128 3).stored ∧
      ∃ c, constValuePow (signedInt .int128 3) (signedInt .int128 (-2)) = some c ∧ c.stored = 0 := by
  have hrange : (signedInt .int128 3).type.InRange (signedInt .int128 3).stored := by decide
  have hvanishes : ¬ Vanishes .int128 (signedInt .int128 3).stored
      (signedInt .int128 (-2)).stored.natAbs := by
    have h3 : (signedInt .int128 3).stored = 3 := by decide
    have h2 : (signedInt .int128 (-2)).stored.natAbs = 2 := by decide
    rw [h3, h2]
    rintro (⟨j, hj, hle⟩ | ⟨-, -, hdvd⟩)
    · have hpos : j ≠ 0 := by
        rintro rfl
        exact absurd hle (by decide)
      exact absurd ((dvd_pow_self 2 hpos).trans hj) (by decide)
    · exact absurd hdvd (by decide)
  obtain ⟨c, hc, -, hvalue⟩ := (constValuePow_iff (signedInt .int128 3) (signedInt .int128 (-2)) rfl rfl
    hrange (by decide)).2 fun _ => ⟨by decide, .inr (.inr hvanishes)⟩
  exact ⟨hrange, c, hc, hvalue (by decide)⟩

/-- Two to the power of minus `128` divides by zero in the word of sixteen bytes. -/
theorem constValuePow_eq_none :
    (signedInt .int128 2).stored = 2 ∧ (signedInt .int128 (-128)).stored = -128 ∧
      constValuePow (signedInt .int128 2) (signedInt .int128 (-128)) = none := by
  refine ⟨by decide, by decide, ?_⟩
  have hpow : arithPows (signedInt .int128 2).i (signedInt .int128 (-128)).i = none := by
    rw [arithPows_of_neg (by decide) (by decide)]
    decide
  change ((arithPows (signedInt .int128 2).i (signedInt .int128 (-128)).i).map _) = none
  rw [hpow]
  rfl

end OmpSs.Mcxx.Cexpr
