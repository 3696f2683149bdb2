import Mathlib.Data.BitVec
import Mathlib.Data.List.Basic

/-!
# Machine words and powers of two

The signed operations of C on a word of `w` bits are exact or undefined: `ofExact` is the word that holds an
integer, if one does. A word with one bit set is a power of two; multiplying by it, dividing by it and
taking a remainder by it are a shift left, a shift right and a mask of the bits. For the signed division
this is so exactly when it does not round: a shift rounds down, the division towards zero
(`toInt_sshiftRight_eq_tdiv_iff`).
-/

namespace OmpSs.Lib.Word

variable {w : Nat}

/-! ## Exact results -/

/-- The word whose signed value is `v`, if there is one. -/
def ofExact (w : Nat) (v : Int) : Option (BitVec w) :=
  if (BitVec.ofInt w v).toInt = v then some (BitVec.ofInt w v) else none

theorem ofExact_eq_some {v : Int} {r : BitVec w} : ofExact w v = some r ↔ r.toInt = v := by
  unfold ofExact
  split
  case isTrue h =>
    constructor
    · intro hr
      cases hr
      exact h
    · intro hr
      rw [← hr, BitVec.ofInt_toInt]
  case isFalse h =>
    constructor
    · intro hr
      cases hr
    · intro hr
      rw [← hr, BitVec.ofInt_toInt] at h
      exact absurd rfl h

/-! ## Words with one bit -/

/-- The positions of the bits that are set, the lowest first. -/
def setBits (c : BitVec w) : List Nat := (List.range w).filter fun i => c.getLsbD i

def popcount (c : BitVec w) : Nat := (setBits c).length

/-- The number of zero bits below the lowest bit that is set. -/
def ctz (c : BitVec w) : Nat := (setBits c).headD w

theorem mem_setBits {c : BitVec w} {i : Nat} : i ∈ setBits c ↔ i < w ∧ c.getLsbD i = true := by
  simp [setBits]

/-- A word with one bit set is the power of two of its trailing zeros. -/
theorem eq_twoPow_of_popcount {c : BitVec w} (h : popcount c = 1) :
    ctz c < w ∧ c = BitVec.twoPow w (ctz c) := by
  obtain ⟨i, hi⟩ := List.length_eq_one_iff.1 h
  have hc : ctz c = i := by simp [ctz, hi]
  have hmem : ∀ j, j ∈ setBits c ↔ j = i := by simp [hi]
  have hlt : i < w := (mem_setBits.1 ((hmem i).2 rfl)).1
  rw [hc]
  refine ⟨hlt, BitVec.eq_of_getLsbD_eq fun j hj => ?_⟩
  rw [BitVec.getLsbD_twoPow, Bool.eq_iff_iff]
  have := (mem_setBits (c := c) (i := j)).symm.trans (hmem j)
  simp only [hj, true_and] at this
  simp only [this, hlt, decide_true, Bool.true_and, decide_eq_true_eq]
  exact eq_comm

/-- The remainder by a power of two keeps the bits below it. -/
theorem umod_twoPow {x : BitVec w} {i : Nat} (hi : i < w) :
    x % BitVec.twoPow w i = x &&& (BitVec.twoPow w i - 1) := by
  apply BitVec.eq_of_toNat_eq
  have hp : 2 ^ i < 2 ^ w := Nat.pow_lt_pow_right (by omega) hi
  have hpos : 0 < 2 ^ i := Nat.two_pow_pos i
  have hone : (1#w).toNat = 1 := by
    rw [BitVec.toNat_ofNat, Nat.mod_eq_of_lt (by omega)]
  have hmask : (BitVec.twoPow w i - 1#w).toNat = 2 ^ i - 1 := by
    rw [BitVec.toNat_sub_of_le, BitVec.toNat_twoPow_of_lt hi, hone]
    rw [BitVec.le_def, BitVec.toNat_twoPow_of_lt hi, hone]
    exact hpos
  have h1 : (1 : BitVec w) = 1#w := rfl
  rw [BitVec.toNat_umod, BitVec.toNat_and, h1, hmask, BitVec.toNat_twoPow_of_lt hi,
    Nat.and_two_pow_sub_one_eq_mod]

/-! ## The signed division -/

/-- Dividing towards zero and rounding down agree where there is nothing to round, and above zero. -/
theorem tdiv_eq_ediv_iff {a b : Int} (hb : 0 < b) : a.tdiv b = a / b ↔ 0 ≤ a ∨ b ∣ a := by
  rw [Int.tdiv_eq_ediv]
  split
  case isTrue h => simp [h]
  case isFalse h =>
    rw [Int.sign_eq_one_of_pos hb]
    constructor
    · intro he
      omega
    · intro hd
      exact absurd hd h

/-- The quotient by the least word: one for the least word itself, and else zero. -/
theorem tdiv_least {x : Int} {p : Nat} (hl : -(2 : Int) ^ p ≤ x) (hu : x < (2 : Int) ^ p) :
    x / (2 : Int) ^ p = x.tdiv (-(2 : Int) ^ p) ↔ 0 ≤ x := by
  have hp : (0 : Int) < 2 ^ p := Int.pow_pos (by omega)
  rw [Int.tdiv_neg]
  constructor
  · intro h
    by_contra hx
    have hdiv : x / (2 : Int) ^ p = -1 := by
      apply Int.ediv_eq_iff_of_pos hp |>.2
      constructor <;> omega
    have hn : -(x.tdiv ((2 : Int) ^ p)) = (-x) / (2 : Int) ^ p := by
      rw [← Int.neg_tdiv, Int.tdiv_eq_ediv_of_nonneg (by omega)]
    have : 0 ≤ (-x) / (2 : Int) ^ p := Int.ediv_nonneg (by omega) (by omega)
    omega
  · intro hx
    rw [Int.tdiv_eq_ediv_of_nonneg hx, Int.ediv_eq_zero_of_lt hx hu]
    rfl

/-- **Shifting a signed word right is dividing it by a power of two exactly when nothing is rounded
towards zero**: the word is not negative, or it is a multiple of a positive power. -/
theorem toInt_sshiftRight_eq_tdiv_iff {x : BitVec w} {i : Nat} (hi : i < w) :
    (x.sshiftRight i).toInt = x.toInt.tdiv (BitVec.twoPow w i).toInt ↔
      0 ≤ x.toInt ∨ 0 < (BitVec.twoPow w i).toInt ∧ (BitVec.twoPow w i).toInt ∣ x.toInt := by
  rw [BitVec.toInt_sshiftRight, Int.shiftRight_eq_div_pow, BitVec.toInt_twoPow]
  split
  case isTrue h => omega
  split
  case isTrue h =>
    -- The one bit is the sign: the power is the least word.
    have hw : w - 1 = i := by omega
    have hl := BitVec.le_toInt x
    have hu := BitVec.toInt_lt (x := x)
    rw [hw] at hl hu
    have hp : (0 : Int) < 2 ^ i := Int.pow_pos (by omega)
    have := tdiv_least (p := i) hl hu
    push_cast
    rw [this]
    constructor
    · exact Or.inl
    · intro h
      rcases h with h | ⟨h, _⟩
      · exact h
      · omega
  case isFalse h =>
    have hp : (0 : Int) < 2 ^ i := Int.pow_pos (by omega)
    push_cast
    rw [eq_comm, tdiv_eq_ediv_iff hp]
    constructor
    · rintro (h | h)
      · exact Or.inl h
      · exact Or.inr ⟨hp, h⟩
    · rintro (h | ⟨_, h⟩)
      · exact Or.inl h
      · exact Or.inr h

end OmpSs.Lib.Word
