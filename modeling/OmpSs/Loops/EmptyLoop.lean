import OmpSs.Loops.DynamicFor
import OmpSs.Loops.GuidedFor

/-!
# Worksharing loops without iterations

`create` of the dynamic and the guided plugin (`nanox-mx/src/plugins/worksharing/dynamic.cpp`,
`guided.cpp`) takes the truncated quotient of the bounds' distance by the step, plus one, for the number of
iterations. Of an empty loop the quotient is not positive, so the number is 1 where the distance is shorter
than the step, and 0 or below else (`quotient_eq`). A chunk that is handed out all the same is checked by
`nextItem` against the upper bound, which is behind its lower bound, and the check fails. The dynamic plugin
rounds its number of chunks up from zero also where the number of iterations is negative.

The distance is an `int64_t`, which bounds in the wrong order may leave: then it wraps around to a distance in
the right order (`quotient_wrapped`), and iterations are counted that the loop does not have.
-/

namespace OmpSs.Loops

open Lib

/-- The check behind the bound check of both `nextItem`. Source: `dynamic.cpp:96`, `guided.cpp:112`. -/
def chunkInRange (data : WorkSharingLoopInfo) (item : WsItemLoop) : Prop :=
  item.lower * data.loopStep ≤ item.upper * data.loopStep

/-- What the calls of `nextItem` on an empty loop have to do: none returns an item to be executed, and the
check never fails. -/
structure Quiet (data : WorkSharingLoopInfo) (nextItem : Nat → Option WsItemLoop) : Prop where
  none : ∀ k, nextItem k = none
  inRange : ∀ k item, nextItem k = some item → chunkInRange data item

/-- The loop has no iterations: its bounds are in the wrong order for its step. -/
def WsInfoLoop.Empty (info : WsInfoLoop) : Prop :=
  0 < info.loop_step ∧ info.upper_bound < info.lower_bound ∨
    info.loop_step < 0 ∧ info.lower_bound < info.upper_bound

/-- The fields are of type `int64_t`. -/
structure WsInfoLoop.Typed (info : WsInfoLoop) : Prop where
  lower : Fits64 info.lower_bound
  upper : Fits64 info.upper_bound
  step : Fits64 info.loop_step
  chunk : Fits64 info.chunk_size

/-- How far the bounds are apart. -/
def WsInfoLoop.distance (info : WsInfoLoop) : Nat := (info.upper_bound - info.lower_bound).natAbs

instance (info : WsInfoLoop) : Decidable info.Empty := inferInstanceAs (Decidable (_ ∨ _))

variable {info : WsInfoLoop}

/-- The quotient of an empty loop is that of the distance by the length of the step, with the other sign. -/
theorem quotient_eq (h : info.Empty) : (info.upper_bound - info.lower_bound).tdiv info.loop_step =
    -((info.distance / info.loop_step.natAbs : Nat) : Int) := by
  have hneg : (info.upper_bound - info.lower_bound).tdiv info.loop_step =
      -((info.distance : Int).tdiv info.loop_step.natAbs) := by
    rcases h with ⟨hstep, hlt⟩ | ⟨hstep, hlt⟩
    · have hd : info.upper_bound - info.lower_bound = -(info.distance : Int) := by
        rw [WsInfoLoop.distance]
        omega
      rw [hd, Int.neg_tdiv, Int.natAbs_of_nonneg hstep.le]
    · have hd : info.upper_bound - info.lower_bound = info.distance := by
        rw [WsInfoLoop.distance]
        omega
      have hs : info.loop_step = -(info.loop_step.natAbs : Int) := by omega
      rw [hd, hs, Int.tdiv_neg]
      simp
  rw [hneg, ← Int.ofNat_tdiv]

theorem Empty.natAbs_pos (h : info.Empty) : 0 < info.loop_step.natAbs := by
  rcases h with ⟨hstep, -⟩ | ⟨hstep, -⟩ <;> omega

/-- A distance that is no `int64_t` wraps around to one in the right order for the step. -/
theorem quotient_wrapped (h : info.Empty) (hfields : info.Typed)
    (hwraps : ¬ Fits64 (info.upper_bound - info.lower_bound)) :
    (wrap64 (info.upper_bound - info.lower_bound)).tdiv info.loop_step =
      ((18446744073709551616 - info.distance) / info.loop_step.natAbs : Nat) := by
  obtain ⟨hlower, hupper, -, -⟩ := hfields
  unfold Fits64 at hlower hupper hwraps
  rcases h with ⟨hstep, hlt⟩ | ⟨hstep, hlt⟩
  · have hd : wrap64 (info.upper_bound - info.lower_bound) =
        (18446744073709551616 - info.distance : Nat) := by
      rw [wrap64, WsInfoLoop.distance]
      omega
    have hs : info.loop_step = info.loop_step.natAbs := by omega
    rw [hd, hs, ← Int.ofNat_tdiv, Int.natAbs_natCast]
  · have hd : wrap64 (info.upper_bound - info.lower_bound) =
        -((18446744073709551616 - info.distance : Nat) : Int) := by
      rw [wrap64, WsInfoLoop.distance]
      omega
    have hs : info.loop_step = -(info.loop_step.natAbs : Int) := by omega
    rw [hd, hs, Int.neg_tdiv, Int.tdiv_neg, Int.neg_neg, ← Int.ofNat_tdiv, Int.natAbs_neg, Int.natAbs_natCast]

/-- How many iterations `create` counts where the distance wraps around: a negative number only where the
count itself does. -/
theorem niters64_wrapped (h : info.Empty) (hfields : info.Typed)
    (hwraps : ¬ Fits64 (info.upper_bound - info.lower_bound)) :
    if info.loop_step.natAbs = 1 ∧ info.distance = 9223372036854775809 then
      niters64 info = some (-9223372036854775808)
    else ∀ niters, niters64 info = some niters → 0 < niters := by
  have hpos := Empty.natAbs_pos h
  have hstep : info.loop_step ≠ 0 := by omega
  have hquot := quotient_wrapped h hfields hwraps
  have hdistance : 9223372036854775808 ≤ info.distance ∧ info.distance < 18446744073709551616 := by
    obtain ⟨hlower, hupper, -, -⟩ := hfields
    unfold Fits64 at hlower hupper hwraps
    rw [WsInfoLoop.distance]
    omega
  unfold niters64
  dsimp only
  rw [hquot]
  split
  · next hmin =>
    obtain ⟨hone, hmin⟩ := hmin
    have htrap : ¬ (info.loop_step = 0 ∨
        wrap64 (info.upper_bound - info.lower_bound) = -9223372036854775808 ∧ info.loop_step = -1) := by
      rw [WsInfoLoop.distance] at hmin
      rw [wrap64]
      omega
    rw [if_neg htrap, hone, hmin]
    rfl
  · next hmin =>
    intro niters hniters
    split at hniters
    · cases hniters
    next htrap =>
    rw [← Option.some.inj hniters]
    rcases Nat.lt_or_ge 1 info.loop_step.natAbs with hlarge | hone
    · -- a step of 2 or more makes the quotient small
      have hle : (18446744073709551616 - info.distance) / info.loop_step.natAbs ≤
          (18446744073709551616 - info.distance) / 2 := Nat.div_le_div_left hlarge (by decide)
      generalize (18446744073709551616 - info.distance) / info.loop_step.natAbs = q at hle ⊢
      rw [wrap64_of_fits]
      · omega
      · unfold Fits64
        omega
    · obtain hone : info.loop_step.natAbs = 1 := by omega
      -- the quotient 2^63 is the one that traps
      have hnot : info.distance ≠ 9223372036854775808 := by
        intro heq
        unfold Fits64 at hwraps
        rw [WsInfoLoop.distance] at heq
        refine htrap (.inr ⟨?_, ?_⟩)
        · rw [wrap64]
          omega
        · rcases h with ⟨hpositive, hlt⟩ | ⟨hnegative, hlt⟩ <;> omega
      rw [hone, Nat.div_one, wrap64_of_fits]
      · omega
      · unfold Fits64
        omega

theorem niters64_wrapped_nonpos_iff (h : info.Empty) (hfields : info.Typed)
    (hwraps : ¬ Fits64 (info.upper_bound - info.lower_bound)) :
    (∃ niters, niters64 info = some niters ∧ niters ≤ 0) ↔
      info.loop_step.natAbs = 1 ∧ info.distance = 9223372036854775809 := by
  have hcount := niters64_wrapped h hfields hwraps
  constructor
  · rintro ⟨niters, hniters, hle⟩
    by_contra hnot
    rw [if_neg hnot] at hcount
    exact absurd (hcount niters hniters) (not_lt.2 hle)
  · intro hmin
    rw [if_pos hmin] at hcount
    exact ⟨_, hcount, by decide⟩

theorem niters64_eq_of_nonpos (h : info.Empty) (hfields : info.Typed)
    (hwraps : ¬ Fits64 (info.upper_bound - info.lower_bound)) {niters : Int} (hniters : niters64 info = some niters)
    (hle : niters ≤ 0) : niters = -9223372036854775808 := by
  have hcount := niters64_wrapped h hfields hwraps
  rw [if_pos ((niters64_wrapped_nonpos_iff h hfields hwraps).1 ⟨niters, hniters, hle⟩), hniters] at hcount
  exact Option.some.inj hcount

/-- In an empty loop whose distance is an `int64_t` no operation overflows. -/
theorem niters64_eq (h : info.Empty) (hfits : Fits64 (info.upper_bound - info.lower_bound)) :
    niters64 info = some (-((info.distance / info.loop_step.natAbs : Nat) : Int) + 1) := by
  have hpos := Empty.natAbs_pos h
  have hstep : info.loop_step ≠ 0 := by omega
  have hle : info.distance / info.loop_step.natAbs ≤ info.distance := Nat.div_le_self _ _
  have hdistance : info.distance ≤ 9223372036854775808 := by
    unfold Fits64 at hfits
    rw [WsInfoLoop.distance]
    omega
  rw [← quotient_eq h]
  refine niters64_of_fits hstep hfits ?_
  rw [quotient_eq h]
  generalize info.distance / info.loop_step.natAbs = q at hle ⊢
  unfold Fits64
  omega

/-- Where `nextItem` hands out the chunks that were counted, it is quiet if there are none. -/
theorem quiet_iff {data : WorkSharingLoopInfo} {nextItem : Nat → Option WsItemLoop}
    (h : ∀ k : Nat, nextItem k = none ↔ data.numOfChunks ≤ k) :
    Quiet data nextItem ↔ data.numOfChunks ≤ 0 := by
  constructor
  · exact fun hq => (h 0).1 (hq.none 0)
  · intro hle
    have hnone : ∀ k, nextItem k = none := fun k => (h k).2 (by omega)
    exact ⟨hnone, fun k item hitem => by rw [hnone k] at hitem; cases hitem⟩

/-! ## The dynamic plugin -/

namespace DynamicFor

theorem nextItem_eq_none_iff {data : WorkSharingLoopInfo} (k : Nat) :
    nextItem data k = none ↔ data.numOfChunks ≤ k := by
  rw [nextItem]
  split
  · next h => exact iff_of_true rfl h
  · next h => exact iff_of_false (by simp) h

/-- The chunks of an empty loop whose bounds are `m` whole steps apart. -/
theorem numOfChunks_nonpos_iff {m c : Nat} (hc : 0 < c) :
    (if (-(m : Int) + 1).tmod c ≠ 0 then (-(m : Int) + 1).tdiv c + 1 else (-(m : Int) + 1).tdiv c) ≤ 0 ↔
      m = 1 ∨ c + 1 ≤ m := by
  cases m with
  | zero =>
    have hquot : ((1 : Nat) : Int).tdiv c = (1 / c : Nat) := (Int.ofNat_tdiv 1 c).symm
    have hrem : ((1 : Nat) : Int).tmod c = (1 % c : Nat) := (Int.ofNat_tmod 1 c).symm
    have hdm := Nat.div_add_mod' 1 c
    have hone : -((0 : Nat) : Int) + 1 = (1 : Nat) := rfl
    rw [hone, hquot, hrem]
    -- one iteration is counted, which makes one chunk
    have hnot : ¬ (1 % c = 0 ∧ 1 / c = 0) := by
      rintro ⟨h0, h1⟩
      rw [h0, h1] at hdm
      omega
    generalize 1 / c = q at hnot ⊢
    generalize 1 % c = r at hnot ⊢
    split <;> omega
  | succ k =>
    have hk : -((k + 1 : Nat) : Int) + 1 = -(k : Int) := by omega
    have hquot : (-(k : Int)).tdiv c = -((k / c : Nat) : Int) := by rw [Int.neg_tdiv, ← Int.ofNat_tdiv]
    have hrem : (-(k : Int)).tmod c = -((k % c : Nat) : Int) := by rw [Int.neg_tmod, ← Int.ofNat_tmod]
    have hle : 1 ≤ k / c ↔ c ≤ k := by rw [Nat.le_div_iff_mul_le hc, Nat.one_mul]
    have hzero : k % c = 0 → k = 0 ∨ c ≤ k := by
      intro hmod
      rcases Nat.lt_or_ge k c with hlt | hge
      · rw [Nat.mod_eq_of_lt hlt] at hmod
        exact .inl hmod
      · exact .inr hge
    have hrest : k = 0 → k % c = 0 := by
      rintro rfl
      exact Nat.zero_mod c
    rw [hk, hquot, hrem]
    generalize k / c = q at hle ⊢
    generalize k % c = r at hzero hrest ⊢
    split <;> omega

theorem numOfChunks_pos {niters : Int} (h : 0 < niters) : 0 < (descriptor info niters).numOfChunks := by
  have hc : 1 ≤ max info.chunk_size 1 := le_max_right _ _
  have hquot : 0 ≤ niters.tdiv (max info.chunk_size 1) := Int.tdiv_nonneg h.le (by omega)
  have hsum := Int.mul_tdiv_add_tmod niters (max info.chunk_size 1)
  unfold descriptor
  dsimp only
  split
  · omega
  · next hrem =>
    rcases hquot.eq_or_lt with hzero | hpos
    · rw [← hzero, not_not.1 hrem] at hsum
      omega
    · exact hpos

/-- When the calls on an empty loop do what they have to: the distance of the bounds is the length of one
step or more, but less than that of two, or it is the length of a chunk and one step more. -/
theorem quiet_create64_iff (h : info.Empty) (hfields : info.Typed) :
    (∃ data, create64 info = some data ∧ Quiet data (nextItem data)) ↔
      if Fits64 (info.upper_bound - info.lower_bound) then
        info.loop_step.natAbs ≤ info.distance ∧ info.distance < 2 * info.loop_step.natAbs ∨
          ((max info.chunk_size 1).toNat + 1) * info.loop_step.natAbs ≤ info.distance
      else info.loop_step.natAbs = 1 ∧ info.distance = 9223372036854775809 := by
  have hpos := Empty.natAbs_pos h
  obtain ⟨c, hc⟩ : ∃ c : Nat, max info.chunk_size 1 = c := ⟨(max info.chunk_size 1).toNat, by omega⟩
  simp only [create64, Option.map_eq_some_iff, exists_exists_and_eq_and, quiet_iff nextItem_eq_none_iff]
  split
  · next hfits =>
    have hone : info.distance / info.loop_step.natAbs = 1 ↔
        info.loop_step.natAbs ≤ info.distance ∧ info.distance < 2 * info.loop_step.natAbs := by
      rw [Nat.div_eq_iff hpos]
      omega
    simp only [niters64_eq h hfits, Option.some.injEq, exists_eq_left', descriptor, hc, Int.toNat_natCast]
    rw [← hone, ← Nat.le_div_iff_mul_le hpos, numOfChunks_nonpos_iff (by omega)]
  · next hwraps =>
    rw [← niters64_wrapped_nonpos_iff h hfields hwraps]
    refine exists_congr fun niters => and_congr_right fun hniters => ?_
    rcases lt_or_ge 0 niters with hcount | hcount
    · have : 0 < (descriptor info niters).numOfChunks := numOfChunks_pos hcount
      omega
    · -- rounding up does not bring a count that wrapped around up to a chunk
      obtain rfl := niters64_eq_of_nonpos h hfields hwraps hniters hcount
      have hchunk := hfields.chunk.2
      have hmin : (-9223372036854775808 : Int) = -((9223372036854775809 : Nat) : Int) + 1 := by omega
      simp only [descriptor, hc]
      rw [hmin, numOfChunks_nonpos_iff (by omega)]
      omega

end DynamicFor

/-! ## The guided plugin -/

namespace GuidedFor

theorem nextItem_eq_none_iff {data : WorkSharingLoopInfo} (k : Nat) :
    nextItem data k = none ↔ data.numOfChunks ≤ k := by
  rw [nextItem]
  split
  · next h => exact iff_of_true rfl h
  · next h => exact iff_of_false (by simp) h

theorem le_of_countChunks {guided_divisor chunk_size niters n N : Int} {fuel : Nat}
    (h : countChunks guided_divisor chunk_size fuel niters n = some N) :
    n ≤ N ∧ (0 < niters → n < N) := by
  induction fuel generalizing niters n with
  | zero =>
    rw [countChunks] at h
    split at h
    · cases h
    · next hle =>
      cases h
      exact ⟨le_rfl, fun hpos => absurd hpos hle⟩
  | succ fuel ih =>
    rw [countChunks] at h
    split at h
    · have := (ih h).1
      omega
    · next hle =>
      cases h
      exact ⟨le_rfl, fun hpos => absurd hpos hle⟩

/-- Chunks are counted where iterations are. -/
theorem numOfChunks_create64 {data : WorkSharingLoopInfo} {num_participants : Nat} {niters : Int}
    (hniters : niters64 info = some niters) (h : create64 info num_participants = some data) :
    data.numOfChunks ≤ 0 ↔ niters ≤ 0 := by
  rw [create64, hniters, Option.bind_some] at h
  split at h
  · cases h
  obtain ⟨N, hN, rfl⟩ := Option.map_eq_some_iff.1 h
  have hle := le_of_countChunks hN
  constructor
  · intro hnone
    by_contra hpos
    exact absurd (hle.2 (by omega)) (not_lt.2 hnone)
  · intro hnone
    have hzero : niters.toNat = 0 := by omega
    rw [hzero, countChunks, if_neg (by omega)] at hN
    cases hN
    exact le_rfl

theorem exists_create64 (num_participants : Nat) {niters : Int} (hniters : niters64 info = some niters)
    (h : niters ≤ 0) : ∃ data, create64 info num_participants = some data := by
  have hzero : niters.toNat = 0 := by omega
  rw [create64, hniters, Option.bind_some, if_neg (by omega), hzero, countChunks, if_neg (by omega)]
  exact ⟨_, rfl⟩

/-- The calls on an empty loop do what they have to where its bounds are at least a step apart. -/
theorem quiet_create64_iff (h : info.Empty) (hfields : info.Typed) (num_participants : Nat) :
    (∃ data, create64 info num_participants = some data ∧ Quiet data (nextItem data)) ↔
      if Fits64 (info.upper_bound - info.lower_bound) then info.loop_step.natAbs ≤ info.distance
      else info.loop_step.natAbs = 1 ∧ info.distance = 9223372036854775809 := by
  have hpos := Empty.natAbs_pos h
  simp only [quiet_iff nextItem_eq_none_iff]
  -- it is quiet where no iterations are counted
  have hcounted : (∃ data, create64 info num_participants = some data ∧ data.numOfChunks ≤ 0) ↔
      ∃ niters, niters64 info = some niters ∧ niters ≤ 0 := by
    constructor
    · rintro ⟨data, hdata, hle⟩
      obtain ⟨niters, hniters, -⟩ := Option.bind_eq_some_iff.1 hdata
      exact ⟨niters, hniters, (numOfChunks_create64 hniters hdata).1 hle⟩
    · rintro ⟨niters, hniters, hle⟩
      obtain ⟨data, hdata⟩ := exists_create64 num_participants hniters hle
      exact ⟨data, hdata, (numOfChunks_create64 hniters hdata).2 hle⟩
  rw [hcounted]
  split
  · next hfits =>
    have hone : 1 ≤ info.distance / info.loop_step.natAbs ↔ info.loop_step.natAbs ≤ info.distance := by
      rw [Nat.le_div_iff_mul_le hpos, Nat.one_mul]
    rw [niters64_eq h hfits, ← hone]
    simp only [Option.some.injEq, exists_eq_left']
    generalize info.distance / info.loop_step.natAbs = m
    omega
  · next hwraps => exact niters64_wrapped_nonpos_iff h hfields hwraps

end GuidedFor

/-- On an empty loop no call of `nextItem` hands out an item and its check never fails. Where the distance of
the bounds is an `int64_t`, that is so for the dynamic plugin if and only if the distance is that of one step or
more but less than that of two, or at least that of a chunk and one step; for the guided plugin if and only if
it is that of a step or more. Where it is none, that is so for one distance alone, with a step of one. -/
theorem empty_loop_quiet_iff (info : WsInfoLoop) (hfields : info.Typed) (h : info.Empty)
    (num_participants : Nat) :
    ((∃ data, DynamicFor.create64 info = some data ∧ Quiet data (DynamicFor.nextItem data)) ↔
        if Fits64 (info.upper_bound - info.lower_bound) then
          info.loop_step.natAbs ≤ info.distance ∧ info.distance < 2 * info.loop_step.natAbs ∨
            ((max info.chunk_size 1).toNat + 1) * info.loop_step.natAbs ≤ info.distance
        else info.loop_step.natAbs = 1 ∧ info.distance = 9223372036854775809) ∧
      ((∃ data, GuidedFor.create64 info num_participants = some data ∧ Quiet data (GuidedFor.nextItem data)) ↔
        if Fits64 (info.upper_bound - info.lower_bound) then info.loop_step.natAbs ≤ info.distance
        else info.loop_step.natAbs = 1 ∧ info.distance = 9223372036854775809) :=
  ⟨DynamicFor.quiet_create64_iff h hfields, GuidedFor.quiet_create64_iff h hfields num_participants⟩

/-- From 6 down to 0 in steps of 3, with bounds in the wrong order for the step and chunks of one iteration:
the calls are quiet. -/
theorem empty_loop_quiet_far :
    (∃ data, DynamicFor.create64 ⟨6, 0, 3, 1⟩ = some data ∧ Quiet data (DynamicFor.nextItem data)) ∧
      ∃ data, GuidedFor.create64 ⟨6, 0, 3, 1⟩ 2 = some data ∧ Quiet data (GuidedFor.nextItem data) := by
  obtain ⟨hdynamic, hguided⟩ :=
    empty_loop_quiet_iff ⟨6, 0, 3, 1⟩ ⟨by decide, by decide, by decide, by decide⟩ (by decide) 2
  exact ⟨hdynamic.2 (by decide), hguided.2 (by decide)⟩

/-- The bounds 5 and 4 with the step 3: both plugins hand out a chunk, whose check fails. -/
theorem empty_loop_chunk :
    WsInfoLoop.Empty ⟨5, 4, 3, 1⟩ ∧
      (DynamicFor.create64 ⟨5, 4, 3, 1⟩).bind (DynamicFor.nextItem · 0) = some ⟨5, 4⟩ ∧
      (GuidedFor.create64 ⟨5, 4, 3, 1⟩ 2).bind (GuidedFor.nextItem · 0) = some ⟨5, 4⟩ ∧
      ¬ ∃ data, DynamicFor.create64 ⟨5, 4, 3, 1⟩ = some data ∧ Quiet data (DynamicFor.nextItem data) := by
  have hdata : DynamicFor.create64 ⟨5, 4, 3, 1⟩ = some (DynamicFor.create ⟨5, 4, 3, 1⟩) := by decide
  have hitem : DynamicFor.nextItem (DynamicFor.create ⟨5, 4, 3, 1⟩) 0 = some ⟨5, 4⟩ := by decide
  have hcheck : ¬ chunkInRange (DynamicFor.create ⟨5, 4, 3, 1⟩) ⟨5, 4⟩ := by
    rw [chunkInRange]
    decide
  refine ⟨by decide, by decide, by decide, ?_⟩
  rintro ⟨data, hcreate, hquiet⟩
  obtain rfl := Option.some.inj (hdata.symm.trans hcreate)
  exact hcheck (hquiet.inRange 0 _ hitem)

end OmpSs.Loops
