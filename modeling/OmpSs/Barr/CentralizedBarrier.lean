import OmpSs.Lib.Rendezvous
import Mathlib.Data.Nat.Bits

/-!
# The centralized barrier

`CentralizedBarrier` (`nanox-mx/src/plugins/barr/centralized_barrier.cpp`): a counter of arrivals and
one global flag whose value is the sense of the current call. A participant reads the flag, counts
itself, and waits for the other value of the flag; the one that completes the count runs the vector
reductions, resets the counter and flips the flag.

The argument is by the number `g` of flips so far. The flag is the parity of `g`, and every participant
is in one of two calls: in call `g`, released by the last flip, or in call `g + 1` (`At`). A flip needs
all `n` participants counted in call `g + 1`, so no participant can hold a value of the flag that is two
flips old.
-/

namespace OmpSs.Barr.CentralizedBarrier

open Lib Lib.Rendezvous

/-- The members the participants share, and the call numbers for which `computeVectorReductions` has
run, in order. -/
structure Members where
  sem : Int := 0
  flag : Bool := false
  reductions : List Nat := []
deriving DecidableEq

/-- Where a participant is in `barrier`; `branch` is the value of `_flag` it has read, that is, which
branch of the conditional it is in. -/
inductive Pos
  | readFlag
  | count (branch : Bool)
  | reduce (branch : Bool)
  | reset (branch : Bool)
  | flip (branch : Bool)
  | signal
  | wait (branch : Bool)
deriving DecidableEq

/-- Source: `CentralizedBarrier::barrier` (`centralized_barrier.cpp:96`). The two branches of the
source are the same text with `true` and `false` exchanged. `signal` only wakes participants that
sleep in `wait`. -/
def barrier (numParticipants : Nat) : Procedure (Fin numParticipants) Members Pos where
  entry _ := .readFlag
  exec _ call m
    | .readFlag => some (m, some (.count m.flag))
    | .count branch =>
      let val := m.sem + 1
      some ({ m with sem := val },
        some (if val = numParticipants then .reduce branch else .wait branch))
    | .reduce branch => some ({ m with reductions := m.reductions ++ [call] }, some (.reset branch))
    | .reset branch => some ({ m with sem := 0 }, some (.flip branch))
    | .flip branch => some ({ m with flag := !branch }, some .signal)
    | .signal => some (m, none)
    | .wait branch => if m.flag = !branch then some (m, none) else none

/-- The barrier after `init`. -/
abbrev init (numParticipants : Nat) : Team (Fin numParticipants) Members Pos :=
  start (Fin numParticipants) Pos {}

/-! ## The invariant -/

/-- The call number `c` of a participant after `g` flips, by its position: it is in call `g + 1` and
holds the current value of the flag, or it has been released from call `g`. -/
def At (g c : Nat) : Option Pos → Prop
  | none | some .signal => c = g
  | some .readFlag => c = g + 1
  | some (.count b) | some (.reduce b) | some (.reset b) | some (.flip b) => c = g + 1 ∧ b = g.bodd
  | some (.wait b) => (c = g + 1 ∧ b = g.bodd) ∨ (c = g ∧ b = !g.bodd)

/-- A participant that waits for the next flip. -/
def Waiting (g : Nat) (p : Option Pos) : Prop := p = some (.wait g.bodd)

instance (g : Nat) : DecidablePred (Waiting g) := fun p => inferInstanceAs (Decidable (p = _))

section
variable {n : Nat}

/-- How many participants wait for the next flip. -/
def waiting (g : Nat) (pos : Fin n → Option Pos) : Nat :=
  (Finset.univ.filter fun i => Waiting g (pos i)).card

/-- The participant that has completed the count is at `p`, and all others wait. -/
def Led (g : Nat) (s : Team (Fin n) Members Pos) (i : Fin n) (p : Pos) : Prop :=
  s.pos i = some p ∧ ∀ j, j ≠ i → Waiting g (s.pos j)

/-- How far the current call has come: arrivals are being counted, or the last one has been, and its
participant runs the reductions, resets the counter and flips the flag. -/
inductive Progress (g : Nat) (s : Team (Fin n) Members Pos) : Prop
  | gathering : s.mem.sem = waiting g s.pos → waiting g s.pos < n →
      (∀ i b, s.pos i ≠ some (.reduce b) ∧ s.pos i ≠ some (.reset b) ∧ s.pos i ≠ some (.flip b)) →
      s.mem.reductions = List.range' 1 g → Progress g s
  | reduce (i : Fin n) : Led g s i (.reduce g.bodd) →
      s.mem.reductions = List.range' 1 g → Progress g s
  | reset (i : Fin n) : Led g s i (.reset g.bodd) →
      s.mem.reductions = List.range' 1 (g + 1) → Progress g s
  | flip (i : Fin n) : Led g s i (.flip g.bodd) → s.mem.sem = 0 →
      s.mem.reductions = List.range' 1 (g + 1) → Progress g s

/-- The state after `g` flips. -/
structure Flipped (g : Nat) (s : Team (Fin n) Members Pos) : Prop where
  flag : s.mem.flag = g.bodd
  at' : ∀ i, At g (s.calls i) (s.pos i)
  progress : Progress g s

variable {g : Nat} {s s' : Team (Fin n) Members Pos} {i : Fin n} {p : Pos}

theorem waiting_update (pos : Fin n → Option Pos) (i : Fin n) (x : Option Pos) :
    waiting g (Function.update pos i x) + (if Waiting g (pos i) then 1 else 0) =
      waiting g pos + (if Waiting g x then 1 else 0) :=
  card_filter_update (Waiting g) pos i x

/-- A participant that neither waits before nor after does not change the number. -/
theorem waiting_update_eq {pos : Fin n → Option Pos} {x : Option Pos} (h : ¬ Waiting g (pos i))
    (hx : ¬ Waiting g x) : waiting g (Function.update pos i x) = waiting g pos := by
  have hsum := waiting_update (g := g) pos i x
  simpa only [h, hx, if_false, Nat.add_zero] using hsum

/-- All but one wait: then each of the others waits. -/
theorem forall_waiting_of_card {pos : Fin n → Option Pos} (h : waiting g pos + 1 = n)
    (hi : ¬ Waiting g (pos i)) : ∀ j, j ≠ i → Waiting g (pos j) := by
  intro j hj
  by_contra hwait
  have hsub : (Finset.univ.filter fun k => Waiting g (pos k)) ⊆ (Finset.univ.erase i).erase j := by
    intro k hk
    have hk' := (Finset.mem_filter.1 hk).2
    refine Finset.mem_erase.2 ⟨?_, Finset.mem_erase.2 ⟨?_, Finset.mem_univ k⟩⟩
    · rintro rfl
      exact hwait hk'
    · rintro rfl
      exact hi hk'
  have hcard := Finset.card_le_card hsub
  rw [Finset.card_erase_of_mem (Finset.mem_erase.2 ⟨hj, Finset.mem_univ j⟩),
    Finset.card_erase_of_mem (Finset.mem_univ i), Finset.card_univ, Fintype.card_fin] at hcard
  have hi' := i.isLt
  have hj' : j.val ≠ i.val := fun he => hj (Fin.ext he)
  have hj'' := j.isLt
  unfold waiting at h
  omega

/-- Nobody waits for the next flip: then the number is `0`. -/
theorem waiting_eq_zero {pos : Fin n → Option Pos} (h : ∀ j, ¬ Waiting g (pos j)) :
    waiting g pos = 0 := by
  unfold waiting
  rw [Finset.card_eq_zero, Finset.filter_eq_empty_iff]
  exact fun j _ => h j

theorem flipped_init (hn : 1 ≤ n) : Flipped 0 (init n) where
  flag := rfl
  at' _ := rfl
  progress := by
    have hzero : waiting 0 (init n).pos = 0 := waiting_eq_zero fun j => by simp [Waiting, start]
    refine .gathering ?_ ?_ ?_ rfl
    · rw [hzero]
      rfl
    · omega
    · intro i b
      simp [start]

/-! ## Steps -/

/-- What a step does to the participants' local states. -/
theorem at_update {calls : Fin n → Nat} {pos : Fin n → Option Pos} {c : Nat} {x : Option Pos}
    (h : ∀ j, j ≠ i → At g (calls j) (pos j)) (hx : At g c x) :
    ∀ j, At g (Function.update calls i c j) (Function.update pos i x j) := by
  intro j
  obtain rfl | hj := eq_or_ne j i
  · rwa [Function.update_self, Function.update_self]
  · rw [Function.update_of_ne hj, Function.update_of_ne hj]
    exact h j hj

/-- `at_update` for a step inside a call. -/
theorem at_update_pos {x : Option Pos} (h : ∀ j, j ≠ i → At g (s.calls j) (s.pos j))
    (hx : At g (s.calls i) x) : ∀ j, At g (s.calls j) (Function.update s.pos i x j) := by
  have hall := at_update h hx
  rwa [Function.update_eq_self] at hall

/-- While somebody leads, a participant that does not wait is the leader. -/
theorem Led.eq_of_not_waiting {l : Fin n} {q : Pos} (h : Led g s l q)
    (hi : ¬ Waiting g (s.pos i)) : i = l := by
  by_contra hne
  exact hi (h.2 i hne)

/-- A participant whose position is neither a wait for the next flip nor the leader's: arrivals are
being counted. -/
theorem Progress.gathering_of (h : Progress g s) (hi : ¬ Waiting g (s.pos i))
    (hlead : ∀ b, s.pos i ≠ some (.reduce b) ∧ s.pos i ≠ some (.reset b) ∧ s.pos i ≠ some (.flip b)) :
    s.mem.sem = waiting g s.pos ∧ waiting g s.pos < n ∧
      (∀ i b, s.pos i ≠ some (.reduce b) ∧ s.pos i ≠ some (.reset b) ∧ s.pos i ≠ some (.flip b)) ∧
      s.mem.reductions = List.range' 1 g := by
  cases h with
  | gathering hsem hlt hno hred => exact ⟨hsem, hlt, hno, hred⟩
  | reduce l hl _ =>
    obtain rfl := hl.eq_of_not_waiting hi
    exact absurd hl.1 (hlead _).1
  | reset l hl _ =>
    obtain rfl := hl.eq_of_not_waiting hi
    exact absurd hl.1 (hlead _).2.1
  | flip l hl _ _ =>
    obtain rfl := hl.eq_of_not_waiting hi
    exact absurd hl.1 (hlead _).2.2

/-- A step that keeps the number of waiting participants and the members keeps the counting phase. -/
theorem Progress.gathering_update {x : Option Pos} {calls : Fin n → Nat} (h : Progress g s)
    (hi : ¬ Waiting g (s.pos i))
    (hlead : ∀ b, s.pos i ≠ some (.reduce b) ∧ s.pos i ≠ some (.reset b) ∧ s.pos i ≠ some (.flip b))
    (hx : ¬ Waiting g x) (hx' : ∀ b, x ≠ some (.reduce b) ∧ x ≠ some (.reset b) ∧ x ≠ some (.flip b)) :
    Progress g ⟨s.mem, calls, Function.update s.pos i x⟩ := by
  obtain ⟨hsem, hlt, hno, hred⟩ := h.gathering_of hi hlead
  have heq := waiting_update_eq hi hx
  refine .gathering (hsem.trans (by rw [heq])) (by rwa [heq]) (fun j b => ?_) hred
  obtain rfl | hj := eq_or_ne j i
  · simpa only [Function.update_self] using hx' b
  · simpa only [Function.update_of_ne hj] using hno j b

/-- The leader's next position. -/
theorem Led.update {q q' : Pos} {m : Members} (h : Led g s i q) :
    Led g ⟨m, s.calls, Function.update s.pos i (some q')⟩ i q' := by
  refine ⟨Function.update_self .., fun j hj => ?_⟩
  simpa only [Function.update_of_ne hj] using h.2 j hj

/-- The leader among those that can lead. -/
theorem Progress.led (h : Progress g s) {q : Pos} (hpos : s.pos i = some q)
    (hq : q = .reduce g.bodd ∨ q = .reset g.bodd ∨ q = .flip g.bodd) :
    Led g s i q ∧ s.mem.reductions = List.range' 1 (if q = .reduce g.bodd then g else g + 1) ∧
      (q = .flip g.bodd → s.mem.sem = 0) := by
  have hi : ¬ Waiting g (s.pos i) := by
    rw [hpos]
    rcases hq with rfl | rfl | rfl <;> simp [Waiting]
  cases h with
  | gathering _ _ hno _ =>
    obtain ⟨h₁, h₂, h₃⟩ := hno i g.bodd
    rcases hq with rfl | rfl | rfl
    · exact absurd hpos h₁
    · exact absurd hpos h₂
    · exact absurd hpos h₃
  | reduce l hl hred =>
    obtain rfl := hl.eq_of_not_waiting hi
    obtain rfl := Option.some.inj (hpos.symm.trans hl.1)
    exact ⟨hl, by simpa using hred, by simp⟩
  | reset l hl hred =>
    obtain rfl := hl.eq_of_not_waiting hi
    obtain rfl := Option.some.inj (hpos.symm.trans hl.1)
    exact ⟨hl, by simpa using hred, by simp⟩
  | flip l hl hsem hred =>
    obtain rfl := hl.eq_of_not_waiting hi
    obtain rfl := Option.some.inj (hpos.symm.trans hl.1)
    exact ⟨hl, by simpa using hred, fun _ => hsem⟩

/-- The increment of the counter: the participant waits, unless it was the last to arrive. -/
theorem Flipped.count {m : Members} {p' : Option Pos} (hs : Flipped g s)
    (hpos : s.pos i = some (.count g.bodd)) (hc : s.calls i = g + 1)
    (hexec : (barrier n).exec i (s.calls i) s.mem (.count g.bodd) = some (m, p')) :
    Flipped g ⟨m, s.calls, Function.update s.pos i p'⟩ := by
  have hi : ¬ Waiting g (s.pos i) := by simp [Waiting, hpos]
  obtain ⟨hsem, hlt, hno, hred⟩ := hs.progress.gathering_of hi (by simp [hpos])
  have hothers : ∀ j, j ≠ i → At g (s.calls j) (s.pos j) := fun j _ => hs.at' j
  simp only [barrier] at hexec
  split at hexec
  · next hlast =>
    cases hexec
    refine ⟨hs.flag, at_update_pos hothers ⟨hc, rfl⟩, .reduce i ⟨Function.update_self .., ?_⟩ hred⟩
    intro j hj
    simp only [Function.update_of_ne hj]
    exact forall_waiting_of_card (by omega) hi j hj
  · next hmore =>
    cases hexec
    have hsum := waiting_update (g := g) s.pos i (some (.wait g.bodd))
    rw [if_neg hi, if_pos (show Waiting g (some (.wait g.bodd)) from rfl)] at hsum
    refine ⟨hs.flag, at_update_pos hothers (.inl ⟨hc, rfl⟩), .gathering ?_ ?_ ?_ hred⟩
    · show s.mem.sem + 1 = _
      rw [hsem]
      dsimp only
      omega
    · dsimp only
      omega
    · intro j b
      obtain rfl | hj := eq_or_ne j i
      · simp
      · simpa only [Function.update_of_ne hj] using hno j b

/-- The flip of the flag: all others waited for it, so each is released. -/
theorem Flipped.flip (hs : Flipped g s) (hpos : s.pos i = some (.flip g.bodd))
    (hc : s.calls i = g + 1) :
    Flipped (g + 1) ⟨{ s.mem with flag := !g.bodd }, s.calls,
      Function.update s.pos i (some .signal)⟩ := by
  obtain ⟨hl, hred, hsem⟩ := hs.progress.led hpos (.inr (.inr rfl))
  have hn := i.isLt
  have hnext : waiting (g + 1) (Function.update s.pos i (some .signal)) = 0 := by
    refine waiting_eq_zero fun j => ?_
    obtain rfl | hj := eq_or_ne j i
    · simp [Waiting]
    · have hj' : s.pos j = some (.wait g.bodd) := hl.2 j hj
      simp [Waiting, Function.update_of_ne hj, hj']
  have hat : ∀ j, At (g + 1) (s.calls j) (Function.update s.pos i (some .signal) j) := by
    refine at_update_pos (fun j hj => ?_) hc
    have hj' : s.pos j = some (.wait g.bodd) := hl.2 j hj
    have hat := hs.at' j
    rw [hj'] at hat ⊢
    rcases hat with ⟨hcall, -⟩ | ⟨-, hold⟩
    · exact .inr ⟨hcall, by simp⟩
    · simp at hold
  refine ⟨by simp, hat, .gathering ?_ ?_ ?_ ?_⟩
  · simpa [hnext] using hsem rfl
  · dsimp only
    omega
  · intro j b
    obtain rfl | hj := eq_or_ne j i
    · simp
    · have hj' : s.pos j = some (.wait g.bodd) := hl.2 j hj
      simp [Function.update_of_ne hj, hj']
  · simpa using hred

/-- A step that changes no member, of a participant that neither leads nor waits for the next flip. -/
theorem Flipped.move {x : Option Pos} (hs : Flipped g s) (hi : ¬ Waiting g (s.pos i))
    (hlead : ∀ b, s.pos i ≠ some (.reduce b) ∧ s.pos i ≠ some (.reset b) ∧ s.pos i ≠ some (.flip b))
    (hx : ¬ Waiting g x) (hx' : ∀ b, x ≠ some (.reduce b) ∧ x ≠ some (.reset b) ∧ x ≠ some (.flip b))
    {c : Nat} (hat : At g c x) :
    Flipped g ⟨s.mem, Function.update s.calls i c, Function.update s.pos i x⟩ :=
  ⟨hs.flag, at_update (fun j _ => hs.at' j) hat, hs.progress.gathering_update hi hlead hx hx'⟩

/-- `Flipped.move` for a step inside a call. -/
theorem Flipped.move_pos {x : Option Pos} (hs : Flipped g s) (hi : ¬ Waiting g (s.pos i))
    (hlead : ∀ b, s.pos i ≠ some (.reduce b) ∧ s.pos i ≠ some (.reset b) ∧ s.pos i ≠ some (.flip b))
    (hx : ¬ Waiting g x) (hx' : ∀ b, x ≠ some (.reduce b) ∧ x ≠ some (.reset b) ∧ x ≠ some (.flip b))
    (hat : At g (s.calls i) x) : Flipped g ⟨s.mem, s.calls, Function.update s.pos i x⟩ := by
  have hmove := hs.move hi hlead hx hx' hat
  rwa [Function.update_eq_self] at hmove

/-- Every step keeps the invariant; the flip moves on to the next number. -/
theorem Flipped.step (hs : Flipped g s) (h : step (barrier n) s i = some s') :
    ∃ g', Flipped g' s' := by
  have hat := hs.at' i
  rcases step_cases h with ⟨hpos, rfl⟩ | ⟨p, m, p', hpos, hexec, rfl⟩
  · -- the participant enters its next call
    rw [hpos] at hat
    exact ⟨g, hs.move (by simp [Waiting, hpos]) (by simp [hpos]) (by simp [Waiting, barrier])
      (by simp [barrier]) (congrArg (· + 1) hat)⟩
  · rw [hpos] at hat
    cases p with
    | readFlag =>
      cases hexec
      exact ⟨g, hs.move_pos (by simp [Waiting, hpos]) (by simp [hpos]) (by simp [Waiting]) (by simp)
        ⟨hat, hs.flag⟩⟩
    | count b =>
      obtain ⟨hc, rfl⟩ := hat
      exact ⟨g, hs.count hpos hc hexec⟩
    | reduce b =>
      obtain ⟨hc, rfl⟩ := hat
      obtain ⟨hl, hred, -⟩ := hs.progress.led hpos (.inl rfl)
      cases hexec
      refine ⟨g, hs.flag, at_update_pos (fun j _ => hs.at' j) ⟨hc, rfl⟩, .reset i hl.update ?_⟩
      rw [if_pos rfl] at hred
      rw [List.range'_concat, Nat.one_mul, Nat.add_comm 1 g, ← hred, ← hc]
    | reset b =>
      obtain ⟨hc, rfl⟩ := hat
      obtain ⟨hl, hred, -⟩ := hs.progress.led hpos (.inr (.inl rfl))
      cases hexec
      exact ⟨g, hs.flag, at_update_pos (fun j _ => hs.at' j) ⟨hc, rfl⟩,
        .flip i hl.update rfl (by simpa using hred)⟩
    | flip b =>
      obtain ⟨hc, rfl⟩ := hat
      cases hexec
      exact ⟨g + 1, hs.flip hpos hc⟩
    | signal =>
      cases hexec
      exact ⟨g, hs.move_pos (by simp [Waiting, hpos]) (by simp [hpos]) (by simp [Waiting]) (by simp)
        hat⟩
    | wait b =>
      simp only [barrier] at hexec
      split at hexec
      · next hflag =>
        cases hexec
        rw [hs.flag] at hflag
        -- the flag is not the one the participant read, so it has been released
        rcases hat with ⟨-, rfl⟩ | ⟨hc, rfl⟩
        · simp at hflag
        · exact ⟨g, hs.move_pos (by simp [Waiting, hpos]) (by simp [hpos]) (by simp [Waiting])
            (by simp) hc⟩
      · cases hexec

/-! ## The barrier -/

/-- Every reachable state is the state after some number of flips. -/
theorem flipped_of_reach (hn : 1 ≤ n)
    (h : Reach (step (barrier n)) (fun _ _ => True) (init n) s) : ∃ g, Flipped g s := by
  refine h.invariant (I := fun s => ∃ g, Flipped g s) ⟨0, flipped_init hn⟩ ?_
  intro s i s' hs _ hstep
  obtain ⟨g, hg⟩ := hs
  exact hg.step hstep

/-- A participant after `g` flips has entered call `g` and not returned from call `g + 1`. -/
theorem At.bounds {c : Nat} {x : Option Pos} (h : At g c x) :
    g ≤ c ∧ (if x.isSome then c - 1 else c) ≤ g := by
  unfold At at h
  split at h <;> simp <;> omega

theorem Flipped.le_calls (hs : Flipped g s) (j : Fin n) : g ≤ s.calls j := (hs.at' j).bounds.1

theorem Flipped.returned_le (hs : Flipped g s) (i : Fin n) : s.returned i ≤ g := (hs.at' i).bounds.2

/-- While a participant leads, all are in call `g + 1`. -/
theorem Led.calls_eq {q : Pos} (hl : Led g s i q) (hs : Flipped g s)
    (hq : q = .reset g.bodd ∨ q = .flip g.bodd) (j : Fin n) : s.calls j = g + 1 := by
  have hat := hs.at' j
  obtain rfl | hj := eq_or_ne j i
  · rw [hl.1] at hat
    rcases hq with rfl | rfl
    · exact hat.1
    · exact hat.1
  · have hj' : s.pos j = some (.wait g.bodd) := hl.2 j hj
    rw [hj'] at hat
    rcases hat with ⟨hc, -⟩ | ⟨-, hold⟩
    · exact hc
    · simp at hold

/-- The reductions have run once for each call number up to `m`, and `m` lies between the calls that
have returned and those that all have entered. -/
theorem Flipped.reductions (hs : Flipped g s) : ∃ m, s.mem.reductions = List.range' 1 m ∧
    (∀ i, s.returned i ≤ m) ∧ ∀ j, m ≤ s.calls j := by
  cases hs.progress with
  | gathering _ _ _ hred => exact ⟨g, hred, hs.returned_le, hs.le_calls⟩
  | reduce _ _ hred => exact ⟨g, hred, hs.returned_le, hs.le_calls⟩
  | reset l hl hred =>
    exact ⟨g + 1, hred, fun i => (hs.returned_le i).trans (Nat.le_succ g), fun j =>
      (hl.calls_eq hs (.inl rfl) j).ge⟩
  | flip l hl _ hred =>
    exact ⟨g + 1, hred, fun i => (hs.returned_le i).trans (Nat.le_succ g), fun j =>
      (hl.calls_eq hs (.inr rfl) j).ge⟩

/-- A participant inside that does not wait for the next flip can take a step. -/
theorem Flipped.exec_isSome (hs : Flipped g s) (hpos : s.pos i = some p)
    (hi : ¬ Waiting g (s.pos i)) : ((barrier n).exec i (s.calls i) s.mem p).isSome := by
  have hat := hs.at' i
  rw [hpos] at hat hi
  cases p with
  | wait b =>
    rcases hat with ⟨-, rfl⟩ | ⟨-, rfl⟩
    · exact absurd rfl hi
    · simp [barrier, hs.flag]
  | _ => rfl

/-- With all participants inside, one that does not wait for the next flip exists. -/
theorem Flipped.enabled (hs : Flipped g s) (hinside : ∀ i, (s.pos i).isSome) :
    Enabled (barrier n) s := by
  obtain ⟨i, hi⟩ : ∃ i, ¬ Waiting g (s.pos i) := by
    cases hs.progress with
    | gathering _ hlt _ _ =>
      by_contra hall
      push Not at hall
      have huniv : waiting g s.pos = n := by
        rw [waiting, Finset.filter_true_of_mem fun j _ => hall j, Finset.card_univ, Fintype.card_fin]
      omega
    | reduce l hl _ => exact ⟨l, by simp [Waiting, hl.1]⟩
    | reset l hl _ => exact ⟨l, by simp [Waiting, hl.1]⟩
    | flip l hl _ _ => exact ⟨l, by simp [Waiting, hl.1]⟩
  obtain ⟨p, hp⟩ := Option.isSome_iff_exists.1 (hinside i)
  exact enabled_of_exec hp (hs.exec_isSome hp hi)

/-- In every interleaving of any number of calls: no participant returns from its `k`-th call before
all have entered theirs; the vector reductions run once for each call number, after all have entered
that call and before any has returned from it; and with all participants inside some step is
enabled. -/
theorem centralized_barrier_separates (n : Nat) (hn : 1 ≤ n) (s : Team (Fin n) Members Pos)
    (h : Reach (step (barrier n)) (fun _ _ => True) (init n) s) :
    Separates s ∧
    (∃ m, s.mem.reductions = List.range' 1 m ∧ (∀ i, s.returned i ≤ m) ∧ ∀ j, m ≤ s.calls j) ∧
    ((∀ i, (s.pos i).isSome) → Enabled (barrier n) s) := by
  obtain ⟨g, hs⟩ := flipped_of_reach hn h
  exact ⟨fun i j => (hs.returned_le i).trans (hs.le_calls j), hs.reductions, hs.enabled⟩

/-- Two participants: the second completes the count and has returned, the first is released and has
not seen it yet. -/
theorem centralized_barrier_separates_two : ∃ s : Team (Fin 2) Members Pos,
    (s.returned 1 = 1 ∧ s.pos 0 = some (.wait false) ∧ s.mem.reductions = [1]) ∧ Separates s := by
  obtain ⟨s, hs, hp⟩ := exists_reach_of_run (step (barrier 2)) (fun _ => True) (init 2)
    [0, 0, 0, 1, 1, 1, 1, 1, 1, 1] (fun _ _ => trivial)
    (fun s => decide (s.returned 1 = 1 ∧ s.pos 0 = some (.wait false) ∧ s.mem.reductions = [1]))
    (by decide)
  exact ⟨s, of_decide_eq_true hp, (centralized_barrier_separates 2 (by decide) s hs).1⟩

end

end OmpSs.Barr.CentralizedBarrier
