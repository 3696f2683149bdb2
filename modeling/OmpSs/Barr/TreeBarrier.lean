import OmpSs.Lib.Rendezvous

/-!
# The tree barrier

`TreeBarrier` (`nanox-mx/src/plugins/barr/tree_barrier.cpp`): the participants are the nodes of the
binary tree with the children `2 * i + 1` and `2 * i + 2` of node `i`. A call waits for the children,
signals the parent, waits for the parent and signals the children; a signal writes the number of the
current phase, which runs through `1, 2, 0`, into a semaphore of the other node, and nothing is reset.

The argument counts for every participant how often it has carried out each stage of a call (`times`).
A semaphore is the number of signals it has received, modulo 3, and a node and its child are never more
than one signal apart, so equality modulo 3 is equality (`Wired`). That a participant returns from its
`k`-th call then says that the root has gathered all arrivals of call `k`.
-/

namespace OmpSs.Barr.TreeBarrier

open Lib Lib.Rendezvous

/-- Source: `NodeSems` (`tree_barrier.cpp:44`), without the condition objects, which only point to the
semaphores. -/
structure NodeSems where
  left : Nat := 0
  right : Nat := 0
  parent : Nat := 0
  phase : Nat := 1
deriving DecidableEq

/-- The steps of a call, in order. -/
inductive Stage
  | readPhase
  | waitLeft
  | waitRight
  | signalParent
  | waitParent
  | signalLeft
  | signalRight
  | updatePhase
deriving DecidableEq

/-- The next step of a participant, and its variable `currPhase`. -/
structure Pos where
  stage : Stage
  currPhase : Nat
deriving DecidableEq

section
variable {n : Nat}

/-- The write to the parent's semaphore; the root has no parent. -/
def signalParent (sems : Fin n → NodeSems) (myID : Fin n) (currPhase : Nat) : Fin n → NodeSems :=
  if myID.val ≠ 0 then
    let parent : Fin n := ⟨(myID.val - 1) / 2, by omega⟩
    if 2 * parent.val + 1 = myID.val then
      Function.update sems parent { sems parent with left := currPhase }
    else
      Function.update sems parent { sems parent with right := currPhase }
  else sems

/-- The write to a child's semaphore, if there is such a child. -/
def signalChild (sems : Fin n → NodeSems) (child currPhase : Nat) : Fin n → NodeSems :=
  if h : child < n then
    Function.update sems ⟨child, h⟩ { sems ⟨child, h⟩ with parent := currPhase }
  else sems

/-- The change of the phase at the end of a call. -/
def updatePhase (sems : Fin n → NodeSems) (myID : Fin n) : Fin n → NodeSems :=
  Function.update sems myID { sems myID with phase := ((sems myID).phase + 1) % 3 }

end

/-- Source: `TreeBarrier::barrier` (`tree_barrier.cpp:123`). The condition checkers hold the phase that
`currPhase` has. A stage of a child or of a parent that does not exist does nothing. -/
def barrier (numParticipants : Nat) :
    Procedure (Fin numParticipants) (Fin numParticipants → NodeSems) Pos where
  entry _ := ⟨.readPhase, 0⟩
  exec myID _ sems
    | ⟨.readPhase, _⟩ => some (sems, some ⟨.waitLeft, (sems myID).phase⟩)
    | ⟨.waitLeft, currPhase⟩ =>
      if 2 * myID.val + 1 < numParticipants ∧ (sems myID).left ≠ currPhase then none
      else some (sems, some ⟨.waitRight, currPhase⟩)
    | ⟨.waitRight, currPhase⟩ =>
      if 2 * myID.val + 2 < numParticipants ∧ (sems myID).right ≠ currPhase then none
      else some (sems, some ⟨.signalParent, currPhase⟩)
    | ⟨.signalParent, currPhase⟩ =>
      some (signalParent sems myID currPhase, some ⟨.waitParent, currPhase⟩)
    | ⟨.waitParent, currPhase⟩ =>
      if myID.val ≠ 0 ∧ (sems myID).parent ≠ currPhase then none
      else some (sems, some ⟨.signalLeft, currPhase⟩)
    | ⟨.signalLeft, currPhase⟩ =>
      some (signalChild sems (2 * myID.val + 1) currPhase, some ⟨.signalRight, currPhase⟩)
    | ⟨.signalRight, currPhase⟩ =>
      some (signalChild sems (2 * myID.val + 2) currPhase, some ⟨.updatePhase, currPhase⟩)
    | ⟨.updatePhase, _⟩ => some (updatePhase sems myID, none)

/-- The barrier after `init`. -/
abbrev init (numParticipants : Nat) : Team (Fin numParticipants) (Fin numParticipants → NodeSems) Pos :=
  start (Fin numParticipants) Pos fun _ => {}

/-! ## Counting stages -/

/-- The place of a stage in a call. -/
def Stage.rank : Stage → Nat
  | .readPhase => 0
  | .waitLeft => 1
  | .waitRight => 2
  | .signalParent => 3
  | .waitParent => 4
  | .signalLeft => 5
  | .signalRight => 6
  | .updatePhase => 7

/-- The stage is over for the current call. -/
def past (st : Stage) : Option Pos → Bool
  | none => true
  | some p => decide (st.rank < p.stage.rank)

section
variable {n : Nat}

/-- How often a participant has carried out a stage. -/
def times (s : Team (Fin n) (Fin n → NodeSems) Pos) (i : Fin n) (st : Stage) : Nat :=
  if past st (s.pos i) then s.calls i else s.calls i - 1

/-- A count of stages after participant `i` has carried out `st` once more. -/
def bump (T : Fin n → Stage → Nat) (i : Fin n) (st : Stage) : Fin n → Stage → Nat :=
  fun j st' => if j = i ∧ st' = st then T j st' + 1 else T j st'

variable {T : Fin n → Stage → Nat} {m : Fin n → NodeSems} {s s' : Team (Fin n) (Fin n → NodeSems) Pos}
  {i : Fin n} {st : Stage}

/-- A participant inside stage `st` of its current call. -/
structure Inside (s : Team (Fin n) (Fin n → NodeSems) Pos) (i : Fin n) (p : Pos) : Prop where
  pos : s.pos i = some p
  calls : 0 < s.calls i
  currPhase : p.stage ≠ .readPhase → p.currPhase = s.calls i % 3

/-- The stages of a call come in order. -/
theorem times_le (s : Team (Fin n) (Fin n → NodeSems) Pos) (i : Fin n) {st st' : Stage}
    (h : st'.rank ≤ st.rank) : times s i st ≤ times s i st' := by
  unfold times past
  cases s.pos i with
  | none => simp
  | some p =>
    simp only [decide_eq_true_eq]
    split <;> split <;> omega

theorem times_le_calls (s : Team (Fin n) (Fin n → NodeSems) Pos) (i : Fin n) (st : Stage) :
    times s i st ≤ s.calls i := by
  unfold times
  split <;> omega

/-- The calls that have returned are those whose last stage is over. -/
theorem returned_eq_times (s : Team (Fin n) (Fin n → NodeSems) Pos) (i : Fin n) :
    s.returned i = times s i .updatePhase := by
  unfold Team.returned times past
  cases s.pos i with
  | none => simp
  | some p =>
    have hlast : ¬ Stage.rank .updatePhase < p.stage.rank := by cases p.stage <;> decide
    simp [hlast]

theorem Inside.times_eq {p : Pos} (h : Inside s i p) (st : Stage) :
    times s i st = if st.rank < p.stage.rank then s.calls i else s.calls i - 1 := by
  simp [times, past, h.pos]

theorem Inside.currPhase_eq {p : Pos} (h : Inside s i p) (hst : p.stage ≠ .readPhase) :
    p.currPhase = (times s i p.stage + 1) % 3 := by
  have hc := h.calls
  rw [h.currPhase hst, h.times_eq, if_neg (lt_irrefl _)]
  omega

/-! ## The semaphores as counters -/

/-- The semaphores are the counts of the signals, modulo 3; a wait that is over has received its
signal. -/
structure Wired (m : Fin n → NodeSems) (T : Fin n → Stage → Nat) : Prop where
  left : ∀ p l : Fin n, l.val = 2 * p.val + 1 →
    (m p).left = T l .signalParent % 3 ∧ T p .waitLeft ≤ T l .signalParent
  right : ∀ p r : Fin n, r.val = 2 * p.val + 2 →
    (m p).right = T r .signalParent % 3 ∧ T p .waitRight ≤ T r .signalParent
  parentLeft : ∀ p l : Fin n, l.val = 2 * p.val + 1 →
    (m l).parent = T p .signalLeft % 3 ∧ T l .waitParent ≤ T p .signalLeft
  parentRight : ∀ p r : Fin n, r.val = 2 * p.val + 2 →
    (m r).parent = T p .signalRight % 3 ∧ T r .waitParent ≤ T p .signalRight
  phase : ∀ i : Fin n, (m i).phase = (T i .updatePhase + 1) % 3

theorem bump_of_ne {j : Fin n} {st' : Stage} (h : st' ≠ st) : bump T i st j st' = T j st' := by
  simp [bump, h]

theorem bump_same (j : Fin n) : bump T i st j st = if j = i then T j st + 1 else T j st := by
  simp [bump]

/-- A count stays below a bound that it has not reached. -/
theorem bump_le {j : Fin n} {st' : Stage} {k : Nat} (h : T j st' ≤ k)
    (hlt : j = i → st = st' → T i st < k) : bump T i st j st' ≤ k := by
  unfold bump
  split
  · next hp =>
    obtain ⟨rfl, rfl⟩ := hp
    exact hlt rfl rfl
  · exact h

theorem signalParent_left {p l : Fin n} {φ : Nat} (hl : l.val = 2 * p.val + 1) :
    (signalParent m i φ p).left = if l = i then φ else (m p).left := by
  unfold signalParent
  by_cases hli : l = i
  · subst hli
    have hp : (⟨(l.val - 1) / 2, by omega⟩ : Fin n) = p := Fin.ext (by simp only; omega)
    rw [if_pos (by omega)]
    simp only [hp]
    simp [hl]
  · have hne : l.val ≠ i.val := fun h => hli (Fin.ext h)
    rw [if_neg hli]
    split
    · dsimp only
      split
      · rw [Function.update_of_ne]
        intro hp
        have := congrArg Fin.val hp
        simp only at this
        omega
      · simp only [Function.update_apply]
        split
        · next hp => rw [hp]
        · rfl
    · rfl

theorem signalParent_right {p r : Fin n} {φ : Nat} (hr : r.val = 2 * p.val + 2) :
    (signalParent m i φ p).right = if r = i then φ else (m p).right := by
  unfold signalParent
  by_cases hri : r = i
  · subst hri
    have hp : (⟨(r.val - 1) / 2, by omega⟩ : Fin n) = p := Fin.ext (by simp only; omega)
    rw [if_pos (by omega)]
    simp only [hp]
    rw [if_neg (by omega)]
    simp
  · have hne : r.val ≠ i.val := fun h => hri (Fin.ext h)
    rw [if_neg hri]
    split
    · dsimp only
      split
      · simp only [Function.update_apply]
        split
        · next hp => rw [hp]
        · rfl
      · rw [Function.update_of_ne]
        intro hp
        have := congrArg Fin.val hp
        simp only at this
        omega
    · rfl

/-- A signal to the parent changes neither phases nor the semaphores of the children. -/
theorem signalParent_frame (j : Fin n) (φ : Nat) :
    (signalParent m i φ j).parent = (m j).parent ∧ (signalParent m i φ j).phase = (m j).phase := by
  unfold signalParent
  split
  · dsimp only
    split <;> simp only [Function.update_apply] <;> split <;> simp_all
  · exact ⟨rfl, rfl⟩

theorem signalChild_parent (j : Fin n) (child φ : Nat) :
    (signalChild m child φ j).parent = if j.val = child then φ else (m j).parent := by
  unfold signalChild
  split
  · next h =>
    simp only [Function.update_apply, Fin.ext_iff]
    split <;> rfl
  · next h =>
    rw [if_neg]
    have := j.isLt
    omega

/-- A signal to a child changes only the child's semaphore for the parent. -/
theorem signalChild_frame (j : Fin n) (child φ : Nat) :
    (signalChild m child φ j).left = (m j).left ∧ (signalChild m child φ j).right = (m j).right ∧
      (signalChild m child φ j).phase = (m j).phase := by
  unfold signalChild
  split
  · simp only [Function.update_apply]
    split <;> simp_all
  · exact ⟨rfl, rfl, rfl⟩

theorem updatePhase_phase (j : Fin n) :
    (updatePhase m i j).phase = if j = i then ((m j).phase + 1) % 3 else (m j).phase := by
  unfold updatePhase
  simp only [Function.update_apply]
  split
  · next h => rw [h]
  · rfl

theorem updatePhase_frame (j : Fin n) :
    (updatePhase m i j).left = (m j).left ∧ (updatePhase m i j).right = (m j).right ∧
      (updatePhase m i j).parent = (m j).parent := by
  unfold updatePhase
  simp only [Function.update_apply]
  split <;> simp_all

/-- A wait that is over, the signal having arrived, or a read of the phase. -/
theorem Wired.wait (h : Wired m T)
    (hl : st = .waitLeft → ∀ l : Fin n, l.val = 2 * i.val + 1 → T i .waitLeft < T l .signalParent)
    (hr : st = .waitRight → ∀ r : Fin n, r.val = 2 * i.val + 2 → T i .waitRight < T r .signalParent)
    (hpl : st = .waitParent → ∀ p : Fin n, i.val = 2 * p.val + 1 → T i .waitParent < T p .signalLeft)
    (hpr : st = .waitParent → ∀ p : Fin n, i.val = 2 * p.val + 2 →
      T i .waitParent < T p .signalRight)
    (hst : st = .readPhase ∨ st = .waitLeft ∨ st = .waitRight ∨ st = .waitParent) :
    Wired m (bump T i st) := by
  have hne : st ≠ .signalParent ∧ st ≠ .signalLeft ∧ st ≠ .signalRight ∧ st ≠ .updatePhase := by
    rcases hst with rfl | rfl | rfl | rfl <;> decide
  refine ⟨fun p l hpl' => ?_, fun p r hpr' => ?_, fun p l hpl' => ?_, fun p r hpr' => ?_, fun j => ?_⟩
  · rw [bump_of_ne hne.1.symm]
    refine ⟨(h.left p l hpl').1, bump_le (h.left p l hpl').2 ?_⟩
    rintro rfl rfl
    exact hl rfl l hpl'
  · rw [bump_of_ne hne.1.symm]
    refine ⟨(h.right p r hpr').1, bump_le (h.right p r hpr').2 ?_⟩
    rintro rfl rfl
    exact hr rfl r hpr'
  · rw [bump_of_ne hne.2.1.symm]
    refine ⟨(h.parentLeft p l hpl').1, bump_le (h.parentLeft p l hpl').2 ?_⟩
    rintro rfl rfl
    exact hpl rfl p hpl'
  · rw [bump_of_ne hne.2.2.1.symm]
    refine ⟨(h.parentRight p r hpr').1, bump_le (h.parentRight p r hpr').2 ?_⟩
    rintro rfl rfl
    exact hpr rfl p hpr'
  · rw [bump_of_ne hne.2.2.2.symm]
    exact h.phase j

/-- One more signal of `i`, on the semaphore that counts those of `p`. -/
theorem counted_signal {c : Fin n → Nat} {p : Fin n} {sem waits φ : Nat} {signalled : Prop}
    [Decidable signalled] (h : sem = c p % 3 ∧ waits ≤ c p) (hp : signalled ↔ p = i)
    (hφ : φ = (c i + 1) % 3) :
    (if signalled then φ else sem) = (if p = i then c p + 1 else c p) % 3 ∧
      waits ≤ if p = i then c p + 1 else c p := by
  obtain ⟨hsem, hwaits⟩ := h
  simp only [hp]
  split
  · next hi => exact ⟨by rw [hφ, hi], by omega⟩
  · exact ⟨hsem, hwaits⟩

/-- The signal to the parent. -/
theorem Wired.signalParent (h : Wired m T) {φ : Nat} (hφ : φ = (T i .signalParent + 1) % 3) :
    Wired (signalParent m i φ) (bump T i .signalParent) := by
  refine ⟨fun p l hl => ?_, fun p r hr => ?_, fun p l hl => ?_, fun p r hr => ?_, fun j => ?_⟩
  · rw [signalParent_left hl, bump_same, bump_of_ne (by decide)]
    exact counted_signal (c := fun j => T j .signalParent) (h.left p l hl) Iff.rfl hφ
  · rw [signalParent_right hr, bump_same, bump_of_ne (by decide)]
    exact counted_signal (c := fun j => T j .signalParent) (h.right p r hr) Iff.rfl hφ
  · rw [(signalParent_frame l φ).1, bump_of_ne (by decide), bump_of_ne (by decide)]
    exact h.parentLeft p l hl
  · rw [(signalParent_frame r φ).1, bump_of_ne (by decide), bump_of_ne (by decide)]
    exact h.parentRight p r hr
  · rw [(signalParent_frame j φ).2, bump_of_ne (by decide)]
    exact h.phase j

/-- The signal to the left child. -/
theorem Wired.signalLeft (h : Wired m T) {φ : Nat} (hφ : φ = (T i .signalLeft + 1) % 3) :
    Wired (signalChild m (2 * i.val + 1) φ) (bump T i .signalLeft) := by
  refine ⟨fun p l hl => ?_, fun p r hr => ?_, fun p l hl => ?_, fun p r hr => ?_, fun j => ?_⟩
  · rw [(signalChild_frame p _ φ).1, bump_of_ne (by decide), bump_of_ne (by decide)]
    exact h.left p l hl
  · rw [(signalChild_frame p _ φ).2.1, bump_of_ne (by decide), bump_of_ne (by decide)]
    exact h.right p r hr
  · rw [signalChild_parent, bump_same, bump_of_ne (by decide)]
    exact counted_signal (c := fun j => T j .signalLeft) (h.parentLeft p l hl) (by rw [Fin.ext_iff]; omega) hφ
  · rw [signalChild_parent, if_neg (by omega), bump_of_ne (by decide), bump_of_ne (by decide)]
    exact h.parentRight p r hr
  · rw [(signalChild_frame j _ φ).2.2, bump_of_ne (by decide)]
    exact h.phase j

/-- The signal to the right child. -/
theorem Wired.signalRight (h : Wired m T) {φ : Nat} (hφ : φ = (T i .signalRight + 1) % 3) :
    Wired (signalChild m (2 * i.val + 2) φ) (bump T i .signalRight) := by
  refine ⟨fun p l hl => ?_, fun p r hr => ?_, fun p l hl => ?_, fun p r hr => ?_, fun j => ?_⟩
  · rw [(signalChild_frame p _ φ).1, bump_of_ne (by decide), bump_of_ne (by decide)]
    exact h.left p l hl
  · rw [(signalChild_frame p _ φ).2.1, bump_of_ne (by decide), bump_of_ne (by decide)]
    exact h.right p r hr
  · rw [signalChild_parent, if_neg (by omega), bump_of_ne (by decide), bump_of_ne (by decide)]
    exact h.parentLeft p l hl
  · rw [signalChild_parent, bump_same, bump_of_ne (by decide)]
    exact counted_signal (c := fun j => T j .signalRight) (h.parentRight p r hr) (by rw [Fin.ext_iff]; omega) hφ
  · rw [(signalChild_frame j _ φ).2.2, bump_of_ne (by decide)]
    exact h.phase j

/-- The change of the phase. -/
theorem Wired.updatePhase (h : Wired m T) : Wired (updatePhase m i) (bump T i .updatePhase) := by
  refine ⟨fun p l hl => ?_, fun p r hr => ?_, fun p l hl => ?_, fun p r hr => ?_, fun j => ?_⟩
  · rw [(updatePhase_frame p).1, bump_of_ne (by decide), bump_of_ne (by decide)]
    exact h.left p l hl
  · rw [(updatePhase_frame p).2.1, bump_of_ne (by decide), bump_of_ne (by decide)]
    exact h.right p r hr
  · rw [(updatePhase_frame l).2.2, bump_of_ne (by decide), bump_of_ne (by decide)]
    exact h.parentLeft p l hl
  · rw [(updatePhase_frame r).2.2, bump_of_ne (by decide), bump_of_ne (by decide)]
    exact h.parentRight p r hr
  · have hj := h.phase j
    rw [updatePhase_phase, bump_same]
    split
    · omega
    · exact hj

/-! ## Steps -/

/-- What holds in every reachable state. -/
structure Counted (s : Team (Fin n) (Fin n → NodeSems) Pos) : Prop where
  wired : Wired s.mem (times s)
  inside : ∀ i p, s.pos i = some p → Inside s i p

theorem counted_init : Counted (init n) where
  wired := by constructor <;> simp [times, start]
  inside i p h := by simp [start] at h

theorem Stage.rank_injective {st st' : Stage} (h : st.rank = st'.rank) : st = st' := by
  cases st <;> cases st' <;> first | rfl | cases h

/-- A step leads to the next stage and hands on the phase. -/
theorem exec_shape {c : Nat} {m' : Fin n → NodeSems} {p : Pos} {x : Option Pos}
    (h : (barrier n).exec i c m p = some (m', x)) :
    (∀ st, past st x = decide (st.rank ≤ p.stage.rank)) ∧
    ∀ q, x = some q → q.currPhase = if p.stage = .readPhase then (m i).phase else p.currPhase := by
  obtain ⟨st, φ⟩ := p
  cases st with
  | waitLeft | waitRight | waitParent =>
    simp only [barrier] at h
    split at h
    · cases h
    · cases h
      exact ⟨fun st => by cases st <;> rfl, by simp⟩
  | _ =>
    cases h
    exact ⟨fun st => by cases st <;> rfl, by simp⟩

/-- A step inside a call carries out its stage once more. -/
theorem Inside.times_step {p : Pos} {x : Option Pos} (h : Inside s i p)
    (hx : ∀ st, past st x = decide (st.rank ≤ p.stage.rank)) (m : Fin n → NodeSems) :
    times ⟨m, s.calls, Function.update s.pos i x⟩ = bump (times s) i p.stage := by
  funext j st
  obtain rfl | hj := eq_or_ne j i
  · have hc := h.calls
    have hold := h.times_eq st
    simp only [times, Function.update_self, hx, decide_eq_true_eq] at hold ⊢
    unfold bump times
    rw [hold]
    by_cases hst : st = p.stage
    · subst hst
      simp
      omega
    · have hne : st.rank ≠ p.stage.rank := fun he => hst (Stage.rank_injective he)
      simp only [hst, and_false, if_false]
      split <;> split <;> omega
  · simp [times, bump, hj]

/-- Entering a call changes no count. -/
theorem times_enter (hpos : s.pos i = none) :
    times ⟨s.mem, Function.update s.calls i (s.calls i + 1),
      Function.update s.pos i (some ((barrier n).entry i))⟩ = times s := by
  funext j st
  obtain rfl | hj := eq_or_ne j i
  · simp [times, past, hpos, Stage.rank, barrier]
  · simp [times, hj]

/-- A semaphore that is the count of the signals, modulo 3, and has the phase of the wait: the wait has received
its signal. -/
theorem lt_of_received {waits : Prop} {a b φ sem : Nat} (hover : ¬ (waits ∧ sem ≠ φ)) (hwaits : waits)
    (hcount : sem = b % 3 ∧ a ≤ b) (hφ : φ = (a + 1) % 3) : a < b := by
  have hsem : sem = φ := not_not.1 fun hne => hover ⟨hwaits, hne⟩
  omega

/-- The stage of participant `i` keeps the semaphores the counts of the signals. -/
theorem Counted.wired_exec {p : Pos} {c : Nat} {x : Option Pos} (hs : Counted s)
    (hpos : s.pos i = some p) (h : (barrier n).exec i c s.mem p = some (m, x)) :
    Wired m (bump (times s) i p.stage) := by
  have hw := hs.wired
  have hin := hs.inside i p hpos
  obtain ⟨st, φ⟩ := p
  dsimp only
  cases st with
  | readPhase =>
    cases h
    exact hw.wait (by simp) (by simp) (by simp) (by simp) (.inl rfl)
  | waitLeft =>
    simp only [barrier] at h
    split at h
    · cases h
    · next hsem =>
      cases h
      refine hw.wait (fun _ l hl => ?_) (by simp) (by simp) (by simp) (.inr (.inl rfl))
      exact lt_of_received hsem (hl ▸ l.isLt) (hw.left i l hl) (hin.currPhase_eq (by simp))
  | waitRight =>
    simp only [barrier] at h
    split at h
    · cases h
    · next hsem =>
      cases h
      refine hw.wait (by simp) (fun _ r hr => ?_) (by simp) (by simp) (.inr (.inr (.inl rfl)))
      exact lt_of_received hsem (hr ▸ r.isLt) (hw.right i r hr) (hin.currPhase_eq (by simp))
  | signalParent =>
    cases h
    exact hw.signalParent (hin.currPhase_eq (by simp))
  | waitParent =>
    simp only [barrier] at h
    split at h
    · cases h
    · next hsem =>
      cases h
      refine hw.wait (by simp) (by simp) (fun _ p hp => ?_) (fun _ p hp => ?_)
        (.inr (.inr (.inr rfl)))
      · exact lt_of_received hsem (by omega) (hw.parentLeft p i hp) (hin.currPhase_eq (by simp))
      · exact lt_of_received hsem (by omega) (hw.parentRight p i hp) (hin.currPhase_eq (by simp))
  | signalLeft =>
    cases h
    exact hw.signalLeft (hin.currPhase_eq (by simp))
  | signalRight =>
    cases h
    exact hw.signalRight (hin.currPhase_eq (by simp))
  | updatePhase =>
    cases h
    exact hw.updatePhase

theorem Counted.step (hs : Counted s) (h : step (barrier n) s i = some s') : Counted s' := by
  rcases step_cases h with ⟨hpos, rfl⟩ | ⟨p, m, x, hpos, hexec, rfl⟩
  · have hT := times_enter hpos
    refine ⟨?_, fun j q hq => ?_⟩
    · show Wired s.mem _
      rw [hT]
      exact hs.wired
    · obtain rfl | hj := eq_or_ne j i
      · refine ⟨hq, by simp, fun hst => ?_⟩
        simp only [Function.update_self] at hq
        obtain rfl := Option.some.inj hq
        exact absurd rfl hst
      · have hin := hs.inside j q (by simpa [hj] using hq)
        exact ⟨hq, by simpa [hj] using hin.calls, by simpa [hj] using hin.currPhase⟩
  · have hin := hs.inside i p hpos
    obtain ⟨hpast, hphase⟩ := exec_shape hexec
    refine ⟨?_, fun j q hq => ?_⟩
    · show Wired m _
      rw [hin.times_step hpast m]
      exact hs.wired_exec hpos hexec
    · obtain rfl | hj := eq_or_ne j i
      · refine ⟨hq, hin.calls, fun _ => ?_⟩
        simp only [Function.update_self] at hq
        rw [hphase q hq]
        split
        · next hread =>
          -- the phase variable has been stepped once in each call that has returned
          have hph := hs.wired.phase j
          have htimes := hin.times_eq .updatePhase
          have hc := hin.calls
          rw [hread] at htimes
          simp [Stage.rank] at htimes
          rw [hph, htimes]
          show _ = s.calls j % 3
          congr 1
          omega
        · next hread => exact hin.currPhase hread
      · have hin := hs.inside j q (by simpa [hj] using hq)
        exact ⟨hq, hin.calls, hin.currPhase⟩

/-! ## The barrier -/

theorem counted_of_reach (h : Reach (step (barrier n)) (fun _ _ => True) (init n) s) : Counted s :=
  h.invariant counted_init fun _ _ _ hs _ hstep => hs.step hstep

/-- Each node but the root is a child. -/
theorem exists_parent (hi : i.val ≠ 0) :
    ∃ p : Fin n, p.val < i.val ∧ (i.val = 2 * p.val + 1 ∨ i.val = 2 * p.val + 2) :=
  ⟨⟨(i.val - 1) / 2, by omega⟩, by simp only; omega, by simp only; omega⟩

/-- What the root has gathered, every node has. -/
theorem Counted.root_le (hs : Counted s) {root : Fin n} (hroot : root.val = 0) (j : Fin n) :
    times s root .waitRight ≤ times s j .waitRight := by
  induction hk : j.val using Nat.strong_induction_on generalizing j with
  | _ k ih =>
    by_cases hj : j.val = 0
    · rw [Fin.ext (hroot.trans hj.symm)]
    · obtain ⟨p, hlt, hp | hp⟩ := exists_parent hj
      · calc times s root .waitRight ≤ times s p .waitRight := ih p.val (hk ▸ hlt) p rfl
          _ ≤ times s p .waitLeft := times_le s p (by decide)
          _ ≤ times s j .signalParent := (hs.wired.left p j hp).2
          _ ≤ times s j .waitRight := times_le s j (by decide)
      · calc times s root .waitRight ≤ times s p .waitRight := ih p.val (hk ▸ hlt) p rfl
          _ ≤ times s j .signalParent := (hs.wired.right p j hp).2
          _ ≤ times s j .waitRight := times_le s j (by decide)

/-- What a node has been told by its parent, the root has gathered. -/
theorem Counted.le_root (hs : Counted s) {root : Fin n} (hroot : root.val = 0) (j : Fin n) :
    times s j .waitParent ≤ times s root .waitRight := by
  induction hk : j.val using Nat.strong_induction_on generalizing j with
  | _ k ih =>
    by_cases hj : j.val = 0
    · rw [Fin.ext (hroot.trans hj.symm)]
      exact times_le s j (by decide)
    · obtain ⟨p, hlt, hp | hp⟩ := exists_parent hj
      · calc times s j .waitParent ≤ times s p .signalLeft := (hs.wired.parentLeft p j hp).2
          _ ≤ times s p .waitParent := times_le s p (by decide)
          _ ≤ times s root .waitRight := ih p.val (hk ▸ hlt) p rfl
      · calc times s j .waitParent ≤ times s p .signalRight := (hs.wired.parentRight p j hp).2
          _ ≤ times s p .waitParent := times_le s p (by decide)
          _ ≤ times s root .waitRight := ih p.val (hk ▸ hlt) p rfl

theorem Counted.separates (hs : Counted s) : Separates s := by
  intro i j
  let root : Fin n := ⟨0, i.pos⟩
  calc s.returned i = times s i .updatePhase := returned_eq_times s i
    _ ≤ times s i .waitParent := times_le s i (by decide)
    _ ≤ times s root .waitRight := hs.le_root rfl i
    _ ≤ times s j .waitRight := hs.root_le rfl j
    _ ≤ s.calls j := times_le_calls s j _

/-- The stages at which a participant can wait. -/
theorem blocked_cases {c : Nat} {p : Pos} (h : (barrier n).exec i c m p = none) :
    (p.stage = .waitLeft ∧ 2 * i.val + 1 < n ∧ (m i).left ≠ p.currPhase) ∨
    (p.stage = .waitRight ∧ 2 * i.val + 2 < n ∧ (m i).right ≠ p.currPhase) ∨
    (p.stage = .waitParent ∧ i.val ≠ 0 ∧ (m i).parent ≠ p.currPhase) := by
  obtain ⟨st, φ⟩ := p
  cases st with
  | waitLeft | waitRight | waitParent =>
    simp only [barrier] at h
    split at h
    · next hsem => simp [hsem]
    · cases h
  | _ => cases h

/-- Two participants do not wait for each other: `i` for the signal of its child `c`, its semaphore at
`left`, and `c` for the signal that `i` sends at `signal`. -/
theorem Counted.not_both_wait (hs : Counted s) {i c : Fin n} {p q : Pos} {left : Nat}
    {wait signal : Stage} (hp : s.pos i = some p) (hq : s.pos c = some q) (hst : p.stage = wait)
    (hqst : q.stage = .waitParent) (hwait : wait = .waitLeft ∨ wait = .waitRight)
    (hsignal : wait.rank < signal.rank)
    (h₁ : left = times s c .signalParent % 3 ∧ times s i wait ≤ times s c .signalParent)
    (h₂ : (s.mem c).parent = times s i signal % 3 ∧ times s c .waitParent ≤ times s i signal)
    (hsem : left ≠ p.currPhase) (hqsem : (s.mem c).parent ≠ q.currPhase) : False := by
  have hin := hs.inside i p hp
  have hqin := hs.inside c q hq
  have hc := hin.calls
  have hqc := hqin.calls
  have hphase := hin.currPhase (by rcases hwait with rfl | rfl <;> simp [hst])
  have hqphase := hqin.currPhase (by simp [hqst])
  have h₃ := hin.times_eq wait
  have h₄ := hin.times_eq signal
  have h₅ := hqin.times_eq .signalParent
  have h₆ := hqin.times_eq .waitParent
  rw [hst, if_neg (lt_irrefl _)] at h₃
  rw [hst, if_neg (by omega)] at h₄
  simp [hqst, Stage.rank] at h₅ h₆
  -- the child is in the same call as its parent or one behind
  rcases (by omega : s.calls c = s.calls i ∨ s.calls c = s.calls i - 1) with heq | heq
  · exact hsem (by rw [h₁.1, h₅, heq, hphase])
  · exact hqsem (by rw [h₂.1, h₄, ← heq, hqphase])

/-- With all participants inside and none able to move, all wait for their parents: a node that waits
for a child has a child that waits for it to signal what it has already signalled. -/
theorem Counted.waitParent_of_blocked (hs : Counted s) (hinside : ∀ i, (s.pos i).isSome)
    (hblocked : ¬ Enabled (barrier n) s) (i : Fin n) :
    ∃ p, s.pos i = some p ∧ p.stage = .waitParent ∧ i.val ≠ 0 ∧ (s.mem i).parent ≠ p.currPhase := by
  induction hk : n - i.val using Nat.strong_induction_on generalizing i with
  | _ k ih =>
    obtain ⟨p, hp⟩ := Option.isSome_iff_exists.1 (hinside i)
    have hnone : (barrier n).exec i (s.calls i) s.mem p = none := by
      by_contra hsome
      exact hblocked (enabled_of_exec hp (Option.isSome_iff_ne_none.2 hsome))
    rcases blocked_cases hnone with ⟨hst, hlt, hsem⟩ | ⟨hst, hlt, hsem⟩ | hparent
    · -- the left child waits for its parent, in a call that is not over for the parent
      obtain ⟨q, hq, hqst, -, hqsem⟩ := ih (n - (2 * i.val + 1)) (by omega) ⟨2 * i.val + 1, hlt⟩ rfl
      exact (hs.not_both_wait hp hq hst hqst (.inl rfl) (by decide) (hs.wired.left i _ rfl)
        (hs.wired.parentLeft i _ rfl) hsem hqsem).elim
    · obtain ⟨q, hq, hqst, -, hqsem⟩ := ih (n - (2 * i.val + 2)) (by omega) ⟨2 * i.val + 2, hlt⟩ rfl
      exact (hs.not_both_wait hp hq hst hqst (.inr rfl) (by decide) (hs.wired.right i _ rfl)
        (hs.wired.parentRight i _ rfl) hsem hqsem).elim
    · exact ⟨p, hp, hparent⟩

/-- In every interleaving of any number of calls no participant returns from its `k`-th call before all
have entered theirs, and with all participants inside some step is enabled. -/
theorem tree_barrier_separates (n : Nat) (hn : 1 ≤ n) (s : Team (Fin n) (Fin n → NodeSems) Pos)
    (h : Reach (step (barrier n)) (fun _ _ => True) (init n) s) :
    Separates s ∧ ((∀ i, (s.pos i).isSome) → Enabled (barrier n) s) := by
  have hs := counted_of_reach h
  refine ⟨hs.separates, fun hinside => ?_⟩
  by_contra hblocked
  obtain ⟨p, -, -, hroot, -⟩ := hs.waitParent_of_blocked hinside hblocked ⟨0, hn⟩
  exact hroot rfl

/-- Three participants: the left child has returned and entered its second call while the right child
has not seen its parent's signal. -/
theorem tree_barrier_separates_three : ∃ s : Team (Fin 3) (Fin 3 → NodeSems) Pos,
    (s.calls 1 = 2 ∧ s.returned 1 = 1 ∧ s.returned 2 = 0) ∧ Separates s := by
  obtain ⟨s, hs, hp⟩ := exists_reach_of_run (step (barrier 3)) (fun _ => True) (init 3)
    [0, 1, 1, 1, 1, 1, 2, 2, 2, 2, 2, 0, 0, 0, 0, 0, 0, 1, 1, 1, 1, 1] (fun _ _ => trivial)
    (fun s => decide (s.calls 1 = 2 ∧ s.returned 1 = 1 ∧ s.returned 2 = 0)) (by decide)
  exact ⟨s, of_decide_eq_true hp, (tree_barrier_separates 3 (by decide) s hs).1⟩

end

end OmpSs.Barr.TreeBarrier
