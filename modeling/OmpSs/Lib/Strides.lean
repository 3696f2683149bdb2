import Mathlib.Algebra.BigOperators.Group.List.Basic
import Mathlib.Data.Nat.Bitwise
import Mathlib.Tactic.Ring

/-!
# Bits of strided sums

A list of progressions stands for the sums that take one multiple of each step, the `i`-th of them below its
count: the offsets of a part of an array. A bit of a number stays as it is when any of these sums is added
just if no carry goes the wrong way: a step with that bit set has to carry into it each time, and a step
without it never (`testBit_add_iff`). What the steps add and take below the bit is `rise` and `fall`.
-/

namespace OmpSs.Lib

/-- The numbers `0`, `step`, `2 * step`, … -/
structure Progression where
  step : Nat
  count : Nat
deriving DecidableEq

namespace Progression

/-- The sums of one number from each progression. -/
def Sum : List Progression → Nat → Prop
  | [], s => s = 0
  | p :: ps, s => ∃ k < p.count, ∃ s', Sum ps s' ∧ s = k * p.step + s'

/-- The largest of the sums. -/
def last (ps : List Progression) : Nat := (ps.map fun p => (p.count - 1) * p.step).sum

/-- What the steps without bit `b` add below it. -/
def rise (b : Nat) (ps : List Progression) : Nat :=
  (ps.map fun p => if p.step.testBit b then 0 else (p.count - 1) * (p.step % 2 ^ b)).sum

/-- What the steps with bit `b` take below it, each time they carry. -/
def fall (b : Nat) (ps : List Progression) : Nat :=
  (ps.map fun p => if p.step.testBit b then (p.count - 1) * (2 ^ b - p.step % 2 ^ b) else 0).sum

section
variable {p : Progression} {ps : List Progression} {a b s step n k : Nat}

@[simp] theorem last_cons : last (p :: ps) = (p.count - 1) * p.step + last ps := by simp [last]

theorem rise_cons : rise b (p :: ps) =
    (if p.step.testBit b then 0 else (p.count - 1) * (p.step % 2 ^ b)) + rise b ps := by simp [rise]

theorem fall_cons : fall b (p :: ps) =
    (if p.step.testBit b then (p.count - 1) * (2 ^ b - p.step % 2 ^ b) else 0) + fall b ps := by
  simp [fall]

theorem sum_zero (hpos : ∀ p ∈ ps, 0 < p.count) : Sum ps 0 := by
  induction ps with
  | nil => rfl
  | cons p ps ih =>
    obtain ⟨hp, hps⟩ := List.forall_mem_cons.1 hpos
    exact ⟨0, hp, 0, ih hps, by simp⟩

theorem Sum.le_last (h : Sum ps s) : s ≤ last ps := by
  induction ps generalizing s with
  | nil => exact h.le
  | cons p ps ih =>
    obtain ⟨k, hk, s', hs', rfl⟩ := h
    have hstep : k * p.step ≤ (p.count - 1) * p.step := Nat.mul_le_mul_right _ (by omega)
    have := ih hs'
    rw [last_cons]
    omega

/-- A sum is, up to multiples of `2 ^ (b + 1)`, a number between `-fall` and `rise`. -/
theorem Sum.exists_shift (b : Nat) (h : Sum ps s) :
    ∃ up ≤ rise b ps, ∃ down ≤ fall b ps, ∃ m, s + down = up + m * 2 ^ (b + 1) := by
  induction ps generalizing s with
  | nil =>
    obtain rfl : s = 0 := h
    exact ⟨0, Nat.zero_le _, 0, Nat.zero_le _, 0, by simp⟩
  | cons p ps ih =>
    obtain ⟨k, hk, s', hs', rfl⟩ := h
    obtain ⟨up, hup, down, hdown, m, hm⟩ := ih hs'
    have hdiv := Nat.div_add_mod p.step (2 ^ b)
    have hk' : k ≤ p.count - 1 := by omega
    cases hbit : p.step.testBit b with
    | false =>
      -- the step is a multiple of `2 ^ (b + 1)` and its lower bits
      obtain ⟨t, ht⟩ : ∃ t, p.step / 2 ^ b = 2 * t := by
        rw [Nat.testBit_eq_decide_div_mod_eq, decide_eq_false_iff_not] at hbit
        exact ⟨p.step / 2 ^ b / 2, by omega⟩
      have hmul : k * (p.step % 2 ^ b) ≤ (p.count - 1) * (p.step % 2 ^ b) := Nat.mul_le_mul_right _ hk'
      refine ⟨k * (p.step % 2 ^ b) + up, ?_, down, ?_, k * t + m, ?_⟩
      · rw [rise_cons, if_neg (by simp [hbit])]
        exact Nat.add_le_add hmul hup
      · rwa [fall_cons, if_neg (by simp [hbit]), Nat.zero_add]
      · rw [ht] at hdiv
        calc k * p.step + s' + down = k * p.step + (s' + down) := by ring
          _ = k * (2 ^ b * (2 * t) + p.step % 2 ^ b) + (up + m * 2 ^ (b + 1)) := by rw [hm, hdiv]
          _ = k * (p.step % 2 ^ b) + up + (k * t + m) * 2 ^ (b + 1) := by ring
    | true =>
      -- the step and what it lacks make a multiple of `2 ^ (b + 1)`
      obtain ⟨t, ht⟩ : ∃ t, p.step / 2 ^ b = 2 * t + 1 := by
        rw [Nat.testBit_eq_decide_div_mod_eq, decide_eq_true_iff] at hbit
        exact ⟨p.step / 2 ^ b / 2, by omega⟩
      have hlt : p.step % 2 ^ b < 2 ^ b := Nat.mod_lt _ (Nat.two_pow_pos b)
      have hmul : k * (2 ^ b - p.step % 2 ^ b) ≤ (p.count - 1) * (2 ^ b - p.step % 2 ^ b) :=
        Nat.mul_le_mul_right _ hk'
      refine ⟨up, ?_, k * (2 ^ b - p.step % 2 ^ b) + down, ?_, k * (t + 1) + m, ?_⟩
      · rwa [rise_cons, if_pos hbit, Nat.zero_add]
      · rw [fall_cons, if_pos hbit]
        exact Nat.add_le_add hmul hdown
      · rw [ht] at hdiv
        have hwhole : p.step + (2 ^ b - p.step % 2 ^ b) = (t + 1) * 2 ^ (b + 1) := by
          rw [pow_succ]
          have : 2 ^ b * (2 * t + 1) + 2 ^ b = (t + 1) * (2 ^ b * 2) := by ring
          omega
        calc k * p.step + s' + (k * (2 ^ b - p.step % 2 ^ b) + down)
            = k * (p.step + (2 ^ b - p.step % 2 ^ b)) + (s' + down) := by ring
          _ = up + (k * (t + 1) + m) * 2 ^ (b + 1) := by
            rw [hwhole, hm]
            ring

/-- Adding a sum leaves a bit alone if there is room below it for what the steps add and take. -/
theorem testBit_add_of_room (h : Sum ps s) (hfall : fall b ps ≤ a % 2 ^ b)
    (hrise : a % 2 ^ b + rise b ps < 2 ^ b) : (a + s).testBit b = a.testBit b := by
  obtain ⟨up, hup, down, hdown, m, hm⟩ := h.exists_shift b
  have hdiv := Nat.div_add_mod a (2 ^ b)
  have hsplit : a + s = (a % 2 ^ b + up - down) + 2 ^ b * (a / 2 ^ b + 2 * m) := by
    have hexpand : 2 ^ b * (a / 2 ^ b + 2 * m) = 2 ^ b * (a / 2 ^ b) + m * 2 ^ (b + 1) := by
      rw [pow_succ]
      ring
    omega
  have hquot : (a + s) / 2 ^ b = a / 2 ^ b + 2 * m := by
    rw [hsplit, Nat.add_mul_div_left _ _ (Nat.two_pow_pos b), Nat.div_eq_of_lt (by omega), Nat.zero_add]
  rw [Nat.testBit_eq_decide_div_mod_eq, Nat.testBit_eq_decide_div_mod_eq, hquot, Nat.add_mul_mod_self_left]

/-! ## What it takes to leave a bit alone -/

/-- One step leaves a bit alone just if it carries into it where it has the bit itself. -/
theorem testBit_add_step : (a + step).testBit b = a.testBit b ↔
    (step.testBit b = true ↔ 2 ^ b ≤ a % 2 ^ b + step % 2 ^ b) := by
  have hpos := Nat.two_pow_pos b
  simp only [Nat.testBit_eq_decide_div_mod_eq, decide_eq_decide, decide_eq_true_iff,
    Nat.add_div hpos]
  split
  · next h =>
    simp only [h, iff_true]
    omega
  · next h =>
    simp only [h, iff_false]
    omega

/-- What one of the steps shows that leave a bit alone. -/
theorem carry_iff (h : ∀ k < n, (a + k * step).testBit b = a.testBit b) {k : Nat} (hk : k + 1 < n) :
    step.testBit b = true ↔ 2 ^ b ≤ (a + k * step) % 2 ^ b + step % 2 ^ b := by
  refine testBit_add_step.1 ?_
  rw [h k (by omega), ← h (k + 1) hk]
  congr 1
  ring

/-- The bits below, where no step carries. -/
theorem mod_of_unset (hstep : step.testBit b = false)
    (h : ∀ k < n, (a + k * step).testBit b = a.testBit b) (hk : k < n) :
    (a + k * step) % 2 ^ b = a % 2 ^ b + k * (step % 2 ^ b) := by
  induction k with
  | zero => simp
  | succ k ih =>
    have hprev := ih (by omega)
    have hcarry := carry_iff h hk
    rw [hstep] at hcarry
    have hroom : (a + k * step) % 2 ^ b + step % 2 ^ b < 2 ^ b := by
      simpa using hcarry
    calc (a + (k + 1) * step) % 2 ^ b = (a + k * step + step) % 2 ^ b := by
          congr 1
          ring
      _ = (a + k * step) % 2 ^ b + step % 2 ^ b := by rw [Nat.add_mod, Nat.mod_eq_of_lt hroom]
      _ = a % 2 ^ b + (k + 1) * (step % 2 ^ b) := by
        rw [hprev]
        ring

/-- The bits below, where every step carries. -/
theorem mod_of_set (hstep : step.testBit b = true)
    (h : ∀ k < n, (a + k * step).testBit b = a.testBit b) (hk : k < n) :
    (a + k * step) % 2 ^ b + k * (2 ^ b - step % 2 ^ b) = a % 2 ^ b := by
  induction k with
  | zero => simp
  | succ k ih =>
    have hprev := ih (by omega)
    have hcarry := (carry_iff h hk).1 hstep
    have hlow : (a + k * step) % 2 ^ b < 2 ^ b := Nat.mod_lt _ (Nat.two_pow_pos b)
    have hlow' : step % 2 ^ b < 2 ^ b := Nat.mod_lt _ (Nat.two_pow_pos b)
    have hmod : (a + (k + 1) * step) % 2 ^ b = (a + k * step) % 2 ^ b + step % 2 ^ b - 2 ^ b := by
      rw [show a + (k + 1) * step = a + k * step + step by ring, Nat.add_mod,
        Nat.mod_eq_sub_mod hcarry, Nat.mod_eq_of_lt (by omega)]
    have hexpand : (k + 1) * (2 ^ b - step % 2 ^ b) = k * (2 ^ b - step % 2 ^ b) + (2 ^ b - step % 2 ^ b) :=
      Nat.succ_mul ..
    omega

/-- A bit that no sum changes leaves the room that the steps need. -/
theorem room_of_testBit_add (hpos : ∀ p ∈ ps, 0 < p.count)
    (h : ∀ s, Sum ps s → (a + s).testBit b = a.testBit b) :
    fall b ps ≤ a % 2 ^ b ∧ a % 2 ^ b + rise b ps < 2 ^ b := by
  induction ps generalizing a with
  | nil => simpa [fall, rise] using Nat.mod_lt a (Nat.two_pow_pos b)
  | cons p ps ih =>
    obtain ⟨hp, hps⟩ := List.forall_mem_cons.1 hpos
    have hsteps : ∀ k < p.count, (a + k * p.step).testBit b = a.testBit b := fun k hk =>
      h _ ⟨k, hk, 0, sum_zero hps, rfl⟩
    -- The other progressions, from every number that this one reaches.
    have hrest : ∀ k < p.count, fall b ps ≤ (a + k * p.step) % 2 ^ b ∧
        (a + k * p.step) % 2 ^ b + rise b ps < 2 ^ b := by
      intro k hk
      refine ih hps fun s hs => ?_
      rw [hsteps k hk, ← h _ ⟨k, hk, s, hs, rfl⟩, Nat.add_assoc]
    have hfirst := hrest 0 hp
    have hlast := hrest (p.count - 1) (by omega)
    rw [Nat.zero_mul, Nat.add_zero] at hfirst
    cases hbit : p.step.testBit b with
    | false =>
      rw [mod_of_unset hbit hsteps (by omega)] at hlast
      rw [fall_cons, rise_cons, if_neg (by simp [hbit]), if_neg (by simp [hbit])]
      generalize (p.count - 1) * (p.step % 2 ^ b) = up at hlast ⊢
      omega
    | true =>
      have hmod := mod_of_set hbit hsteps (show p.count - 1 < p.count by omega)
      rw [fall_cons, rise_cons, if_pos hbit, if_pos hbit]
      generalize (p.count - 1) * (2 ^ b - p.step % 2 ^ b) = down at hmod ⊢
      omega

/-- When adding the sums leaves a bit alone. -/
theorem testBit_add_iff (hpos : ∀ p ∈ ps, 0 < p.count) :
    (∀ s, Sum ps s → (a + s).testBit b = a.testBit b) ↔
      fall b ps ≤ a % 2 ^ b ∧ a % 2 ^ b + rise b ps < 2 ^ b := by
  constructor
  · exact room_of_testBit_add hpos
  · rintro ⟨hfall, hrise⟩ s hs
    exact testBit_add_of_room hs hfall hrise

end

end Progression

end OmpSs.Lib
