import Mathlib.NumberTheory.Multiplicity

/-!
# Powers modulo a power of two

When the power of an integer is zero, one or minus one modulo a power of two. A power of an even integer is
zero if the factors of two suffice (`two_pow_dvd_pow_iff`). A power of an odd integer with an even exponent
is one if the factors of the integers beside the base and of the exponent do
(`two_pow_dvd_pow_sub_one_iff`); otherwise it takes a base that is close to the modulus.
-/

namespace OmpSs.Lib

variable {a : Int} {n w : Nat}

theorem two_pow_dvd_pow_iff (ha : a ≠ 0) : (2 : Int) ^ w ∣ a ^ n ↔ ∃ j, (2 : Int) ^ j ∣ a ∧ w ≤ j * n := by
  constructor
  · intro hdvd
    have hfinite : FiniteMultiplicity 2 a := Int.finiteMultiplicity_iff.2 ⟨by decide, ha⟩
    obtain ⟨m, hpow, hm⟩ := hfinite.exists_eq_pow_mul_and_not_dvd
    generalize multiplicity 2 a = j at hpow
    subst hpow
    refine ⟨j, Dvd.intro _ rfl, ?_⟩
    have hodd : ¬ 2 ∣ m ^ n := fun h => hm (Int.prime_two.dvd_of_dvd_pow h)
    rw [mul_pow, ← pow_mul] at hdvd
    exact (pow_dvd_pow_iff Int.prime_two.ne_zero Int.prime_two.not_isUnit).1
      (Int.prime_two.pow_dvd_of_dvd_mul_right w hodd hdvd)
  · rintro ⟨j, hdvd, hle⟩
    have hpow := pow_dvd_pow_of_dvd hdvd n
    rw [← pow_mul] at hpow
    exact (pow_dvd_pow 2 hle).trans hpow

theorem two_pow_dvd_pow_sub_one_iff (hodd : ¬ 2 ∣ a) (hn : Even n) :
    (2 : Int) ^ w ∣ a ^ n - 1 ↔ (2 : Int) ^ w ∣ (a ^ 2 - 1) * (n / 2 : Nat) := by
  obtain ⟨m, rfl⟩ := hn
  have htwo : (m + m) / 2 = m := by omega
  rw [htwo]
  have hmul : emultiplicity 2 (a ^ (m + m) - 1) = emultiplicity 2 ((a ^ 2 - 1) * (m : Int)) := by
    have hsub : (2 : Int) ∣ a - 1 := by omega
    have hpow := Int.two_pow_sub_pow hsub hodd (Even.add_self m)
    have hsquare : (a ^ 2 - 1) * (m : Int) = (a + 1) * (a - 1) * m := by ring
    have hdouble : ((m + m : Nat) : Int) = 2 * m := by
      push_cast
      ring
    have hself : emultiplicity (2 : Int) 2 = 1 := by
      simpa using emultiplicity_pow_self_of_prime Int.prime_two 1
    rw [one_pow, hdouble, emultiplicity_mul Int.prime_two, hself] at hpow
    rw [hsquare, emultiplicity_mul Int.prime_two, emultiplicity_mul Int.prime_two]
    refine ENat.add_left_injective_of_ne_top ENat.one_ne_top (hpow.trans ?_)
    ring
  rw [pow_dvd_iff_le_emultiplicity, pow_dvd_iff_le_emultiplicity, hmul]

/-- With an odd exponent the power is as close to one as the base. -/
theorem two_pow_dvd_pow_sub_one_iff_of_odd (ha : ¬ 2 ∣ a) (hn : Odd n) :
    (2 : Int) ^ w ∣ a ^ n - 1 ↔ (2 : Int) ^ w ∣ a - 1 := by
  have h := emultiplicity_pow_sub_pow_of_prime Int.prime_two (y := 1) (by omega : (2 : Int) ∣ a - 1) ha
    (n := n) (by exact_mod_cast hn.not_two_dvd_nat)
  rw [one_pow] at h
  rw [pow_dvd_iff_le_emultiplicity, pow_dvd_iff_le_emultiplicity, h]

theorem two_pow_dvd_pow_add_one_iff_of_odd (ha : ¬ 2 ∣ a) (hn : Odd n) :
    (2 : Int) ^ w ∣ a ^ n + 1 ↔ (2 : Int) ^ w ∣ a + 1 := by
  have h := two_pow_dvd_pow_sub_one_iff_of_odd (a := -a) (w := w) (by omega) hn
  rw [hn.neg_pow, ← dvd_neg, ← dvd_neg (b := -a - 1)] at h
  rw [show a ^ n + 1 = -(-a ^ n - 1) by ring, show a + 1 = -(-a - 1) by ring]
  exact h

/-- No even power is minus one. -/
theorem not_four_dvd_pow_add_one (hodd : ¬ 2 ∣ a) (hn : Even n) : ¬ (4 : Int) ∣ a ^ n + 1 := by
  obtain ⟨m, rfl⟩ := hn
  intro hdvd
  have hfour : (a ^ m) % 4 = 1 ∨ (a ^ m) % 4 = 3 := by
    have : ¬ (2 : Int) ∣ a ^ m := fun h => hodd (Int.prime_two.dvd_of_dvd_pow h)
    omega
  rw [pow_add] at hdvd
  have hsquare := Int.mul_emod (a ^ m) (a ^ m) 4
  rcases hfour with h | h
  · rw [h] at hsquare
    omega
  · rw [h] at hsquare
    omega

end OmpSs.Lib
