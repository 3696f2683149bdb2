import OmpSs.Lib.Rendezvous
import Mathlib.Data.Nat.Log
import Mathlib.Algebra.Order.Ring.Nat

/-!
# The dissemination barrier

`DisseminationBarrier` (`nanox-mx/src/plugins/barr/dissem_barrier.cpp`): in round `s` a participant
signals the one `2 ^ s` places on and waits for a signal to itself, and after `ceil (log2 n)` rounds it
returns. A participant has one semaphore for all rounds: a signal takes it from `0` to `-1`, and the
wait takes it back.

The rounds of the algorithm spread the news of an arrival: after round `s` a participant has heard,
through a chain of signals, of the `2 ^ (s + 1)` participants up to itself (`Heard`). That needs a wait of
round `s` to be answered by the signal of round `s`. The semaphore does not tell signals of different
rounds apart, and a wait can be answered by a later round's signal (`not_separates_four`). The runs in
which no wait is answered early (`Answered`) are those in which the barrier does what it is for.
-/

namespace OmpSs.Barr.DisseminationBarrier

open Lib Lib.Rendezvous

/-- The next step of a participant in a round: the wait for `0` at the neighbour with the decrement, or
the wait for `-1` at its own semaphore with the increment. -/
inductive Pos
  | signal (s : Nat)
  | wait (s : Nat)
deriving DecidableEq

/-- The number of rounds: `_q` (`dissem_barrier.cpp:86`), the logarithm rounded up. -/
def q (numParticipants : Nat) : Nat := Nat.clog 2 numParticipants

/-- The neighbour that is signalled in round `s`. -/
def toSign {n : Nat} (myID : Fin n) (s : Nat) : Fin n := ⟨(myID.val + 2 ^ s) % n, Nat.mod_lt _ myID.pos⟩

/-- Source: `DisseminationBarrier::barrier` (`dissem_barrier.cpp:110`). -/
def barrier (numParticipants : Nat) :
    Procedure (Fin numParticipants) (Fin numParticipants → Int) Pos where
  entry _ := .signal 0
  exec myID _ semaphores
    | .signal s =>
      if s < q numParticipants then
        if semaphores (toSign myID s) = 0 then
          some (Function.update semaphores (toSign myID s) (semaphores (toSign myID s) - 1),
            some (.wait s))
        else none
      else some (semaphores, none)
    | .wait s =>
      if semaphores myID = -1 then
        some (Function.update semaphores myID (semaphores myID + 1), some (.signal (s + 1)))
      else none

/-- The barrier after `init`. -/
abbrev init (numParticipants : Nat) : Team (Fin numParticipants) (Fin numParticipants → Int) Pos :=
  start (Fin numParticipants) Pos fun _ => 0

/-! ## Runs in which no wait is answered early -/

section
variable {n : Nat}

/-- The signals of its current call that a participant has made. -/
def signals (n : Nat) : Option Pos → Nat
  | none => q n
  | some (.signal r) => r
  | some (.wait r) => r + 1

/-- Participant `j` has made its signal of round `r` of its call `k`. -/
def Signalled (s : Team (Fin n) (Fin n → Int) Pos) (j : Fin n) (k r : Nat) : Prop :=
  k < s.calls j ∨ (k = s.calls j ∧ r < signals n (s.pos j))

/-- A step that ends the wait of round `r` comes after the signal of round `r` of the same call from the
participant that signals `i` in that round. -/
def Answered (s : Team (Fin n) (Fin n → Int) Pos) (i : Fin n) : Prop :=
  ∀ r, s.pos i = some (.wait r) → ∀ j, toSign j r = i → Signalled s j (s.calls i) r

instance (s : Team (Fin n) (Fin n → Int) Pos) (j : Fin n) (k r : Nat) :
    Decidable (Signalled s j k r) := inferInstanceAs (Decidable (_ ∨ _))

instance (s : Team (Fin n) (Fin n → Int) Pos) (i : Fin n) : Decidable (Answered s i) :=
  match h : s.pos i with
  | none => isTrue (by simp [Answered, h])
  | some (.signal _) => isTrue (by simp [Answered, h])
  | some (.wait r) =>
    decidable_of_iff (∀ j, toSign j r = i → Signalled s j (s.calls i) r) (by simp [Answered, h])

/-- The rounds of its current call that a participant has been through. -/
def rounds (n : Nat) : Option Pos → Nat
  | none => q n
  | some (.signal r) | some (.wait r) => r

/-- A participant that has been through `r` rounds of its call `k` has heard of the arrival in call `k` of
the `2 ^ r` participants up to itself. -/
def Heard (s : Team (Fin n) (Fin n → Int) Pos) : Prop :=
  ∀ i j : Fin n, ∀ d, d < 2 ^ rounds n (s.pos i) → (j.val + d) % n = i.val → s.calls i ≤ s.calls j

variable {s s' : Team (Fin n) (Fin n → Int) Pos} {i : Fin n}

theorem heard_init : Heard (init n) := fun _ _ _ _ _ => le_rfl

/-- All rounds of a call are news of all participants. -/
theorem Heard.all {j : Fin n} (h : Heard s) (hr : q n ≤ rounds n (s.pos i)) : s.calls i ≤ s.calls j := by
  have hi := i.isLt
  have hj := j.isLt
  have hpow : n ≤ 2 ^ rounds n (s.pos i) :=
    (Nat.le_pow_clog one_lt_two n).trans (Nat.pow_le_pow_right two_pos hr)
  rcases Nat.lt_or_ge i.val j.val with hlt | hge
  · refine h i j (i.val + n - j.val) (by omega) ?_
    rw [Nat.add_sub_of_le (by omega), Nat.add_mod_right, Nat.mod_eq_of_lt hi]
  · refine h i j (i.val - j.val) (by omega) ?_
    rw [Nat.add_sub_of_le hge, Nat.mod_eq_of_lt hi]

/-- A partner that has made its signal of round `r` has been through the rounds before. -/
theorem le_rounds {x : Option Pos} {r : Nat} (h : r < signals n x) : r ≤ rounds n x := by
  match x with
  | none => exact h.le
  | some (.signal _) => exact h.le
  | some (.wait _) => exact Nat.le_of_lt_succ h

/-- What is heard of stays so while nobody's call number shrinks and nobody else's rounds grow. -/
theorem Heard.update {calls : Fin n → Nat} {x : Option Pos} (h : Heard s)
    (hcalls : ∀ j, s.calls j ≤ calls j) (hothers : ∀ j, j ≠ i → calls j = s.calls j)
    (hi : ∀ j : Fin n, ∀ d, d < 2 ^ rounds n x → (j.val + d) % n = i.val → calls i ≤ calls j)
    (m : Fin n → Int) : Heard ⟨m, calls, Function.update s.pos i x⟩ := by
  intro i' j d hd hmod
  dsimp only at hd ⊢
  obtain rfl | hi' := eq_or_ne i' i
  · rw [Function.update_self] at hd
    exact hi j d hd hmod
  · rw [Function.update_of_ne hi'] at hd
    rw [hothers i' hi']
    exact (h i' j d hd hmod).trans (hcalls j)

/-- An answered wait of round `r` is news of twice as many participants. -/
theorem Heard.wait {r : Nat} (h : Heard s) (hsep : Separates s) (hpos : s.pos i = some (.wait r))
    (hans : Answered s i) (j : Fin n) {d : Nat} (hd : d < 2 ^ (r + 1))
    (hmod : (j.val + d) % n = i.val) : s.calls i ≤ s.calls j := by
  by_cases hlow : d < 2 ^ r
  · exact h i j d (by simpa [hpos, rounds] using hlow) hmod
  · obtain ⟨e, rfl⟩ := Nat.exists_eq_add_of_le (Nat.le_of_not_lt hlow)
    have he : e < 2 ^ r := by
      rw [pow_succ] at hd
      omega
    -- the partner of round `r` is on the way from `j` to `i`
    let p : Fin n := ⟨(j.val + e) % n, Nat.mod_lt _ j.pos⟩
    have hp : toSign p r = i := by
      apply Fin.ext
      simp only [toSign, p, Nat.mod_add_mod]
      rw [← hmod]
      congr 1
      omega
    rcases hans r hpos p hp with hlater | ⟨hsame, hr⟩
    · have hret := hsep p j
      unfold Team.returned at hret
      split at hret <;> omega
    · rw [hsame]
      exact h p j e (he.trans_le (Nat.pow_le_pow_right two_pos (le_rounds hr))) rfl

/-- Every step whose wait is answered keeps what is heard of and that nobody returns early. -/
theorem Heard.step (h : Heard s) (hsep : Separates s) (hans : Answered s i)
    (hstep : step (barrier n) s i = some s') : Heard s' ∧ Separates s' := by
  rcases step_cases hstep with ⟨hpos, rfl⟩ | ⟨p, m, x, hpos, hexec, rfl⟩
  · have hcalls : ∀ j, s.calls j ≤ Function.update s.calls i (s.calls i + 1) j := by
      intro j
      obtain rfl | hj := eq_or_ne j i
      · simp
      · simp [hj]
    refine ⟨h.update hcalls (fun j hj => Function.update_of_ne hj _ _) (fun j d hd hmod => ?_) _, ?_⟩
    · -- a call begins with the news of the participant itself
      have hd : d = 0 := by simpa [rounds, barrier] using hd
      rw [hd, Nat.add_zero, Nat.mod_eq_of_lt j.isLt] at hmod
      rw [Fin.ext hmod]
    · intro a b
      refine le_trans ?_ ((hsep a b).trans (hcalls b))
      unfold Team.returned
      obtain rfl | ha := eq_or_ne a i
      · simp [hpos]
      · simp [ha]
  · have hkeep : ∀ x', (∀ j : Fin n, ∀ d, d < 2 ^ rounds n x' → (j.val + d) % n = i.val →
        s.calls i ≤ s.calls j) → Heard ⟨m, s.calls, Function.update s.pos i x'⟩ :=
      fun x' hx' => h.update (fun _ => le_rfl) (fun _ _ => rfl) hx' m
    have hinside : ∀ p', Separates ⟨m, s.calls, Function.update s.pos i (some p')⟩ := by
      intro p' a b
      refine le_trans ?_ (hsep a b)
      unfold Team.returned
      obtain rfl | ha := eq_or_ne a i
      · simp [hpos]
      · simp [ha]
    cases p with
    | signal r =>
      simp only [barrier] at hexec
      split at hexec
      · split at hexec
        · cases hexec
          refine ⟨hkeep _ fun j d hd hmod => h i j d ?_ hmod, hinside _⟩
          simpa [hpos, rounds] using hd
        · cases hexec
      · next hq =>
        -- the loop is over: all participants have been heard of
        cases hexec
        have hall : ∀ j, s.calls i ≤ s.calls j := fun j =>
          h.all (by rw [hpos]; exact Nat.le_of_not_lt hq)
        refine ⟨hkeep _ fun j _ _ _ => hall j, fun a b => ?_⟩
        obtain rfl | ha := eq_or_ne a i
        · simpa [Team.returned] using hall b
        · have hret := hsep a b
          unfold Team.returned at hret ⊢
          simpa [ha] using hret
    | wait r =>
      simp only [barrier] at hexec
      split at hexec
      · cases hexec
        exact ⟨hkeep _ fun j d hd hmod => h.wait hsep hpos hans j hd hmod, hinside _⟩
      · cases hexec

/-- In every run in which every wait is answered by its own round's signal, no participant returns from
its `k`-th call before all have entered theirs. -/
theorem dissemination_barrier_separates (n : Nat) (s : Team (Fin n) (Fin n → Int) Pos)
    (h : Reach (step (barrier n)) Answered (init n) s) : Separates s := by
  have hinv : Heard s ∧ Separates s := by
    refine h.invariant (I := fun s => Heard s ∧ Separates s) ⟨heard_init, fun _ _ => ?_⟩ ?_
    · simp [Team.returned, start]
    · intro s i s' hs hans hstep
      exact hs.1.step hs.2 hans hstep
  exact hinv.2

end

/-- Four participants in step with each other: the second has returned. -/
theorem dissemination_barrier_separates_in_step : ∃ s : Team (Fin 4) (Fin 4 → Int) Pos,
    (s.returned 1 = 1 ∧ s.returned 0 = 0) ∧ Separates s := by
  obtain ⟨s, hs, hp⟩ := exists_reach_of_guarded_run (step (barrier 4)) Answered (init 4)
    [0, 1, 2, 3, 0, 1, 2, 3, 0, 1, 2, 3, 0, 1, 2, 3, 0, 1, 2, 3, 1]
    (fun s => decide (s.returned 1 = 1 ∧ s.returned 0 = 0)) (by decide)
  exact ⟨s, of_decide_eq_true hp, dissemination_barrier_separates 4 s hs⟩

/-- Four participants, and the third has not entered: the second makes its signal of round 1 to the
fourth, which takes it for the third's signal of round 0 and goes on to its own signal of round 1, with
which the second returns. -/
theorem not_separates_four : ∃ s : Team (Fin 4) (Fin 4 → Int) Pos,
    Reach (step (barrier 4)) (fun _ _ => True) (init 4) s ∧
      s.returned 1 = 1 ∧ s.calls 2 = 0 ∧ ¬ Separates s := by
  obtain ⟨s, hs, hp⟩ := exists_reach_of_run (step (barrier 4)) (fun _ => True) (init 4)
    [0, 0, 1, 1, 1, 1, 3, 3, 3, 3, 1, 1] (fun _ _ => trivial)
    (fun s => decide (s.returned 1 = 1 ∧ s.calls 2 = 0)) (by decide)
  obtain ⟨hret, hcalls⟩ := of_decide_eq_true hp
  refine ⟨s, hs, hret, hcalls, fun hsep => ?_⟩
  have hle := hsep 1 2
  omega

end OmpSs.Barr.DisseminationBarrier
