import OmpSs.Loops.Worksharing

/-!
# The static worksharing loop

`WorkSharingStaticFor` (`nanox-mx/src/plugins/worksharing/static.cpp`): every thread has a descriptor of
its own. With chunk size 0 each thread gets one item (`distribute_eq`); else the threads take the chunks
in turns (`interleave_eq`), each from the lower bound its descriptor has reached. An item's upper bound is
clipped to the loop's, and its flag `last` is set when the bounds meet (`last_itemOn`). Integers are exact.
-/

namespace OmpSs.Loops

open Lib

/-! ## The program -/

/-- Source: `nanos_ws_item_loop_t` (`core/nanos-int.h:218`). -/
structure LoopItem where
  lower : Int
  upper : Int
  execute : Bool
  last : Bool
deriving DecidableEq

/-- The values an item runs the loop body on. -/
def LoopItem.values (item : LoopItem) (loopStep : Int) : List Int :=
  iterations item.lower item.upper loopStep

namespace StaticWs

/-- Source: `WorkSharingStaticFor::create` (`static.cpp:34`). -/
def create (info : WsInfoLoop) : WorkSharingLoopInfo where
  lowerBound := info.lower_bound
  upperBound := info.upper_bound
  loopStep := info.loop_step
  chunkSize := info.chunk_size
  numOfChunks := 0

/-- The direction of the loop. -/
def sign (loopStep : Int) : Int := if loopStep < 0 then -1 else 1

/-- One item for each thread. Source: `static.cpp:93`. -/
def distribute (num_threads thid : Nat) (loop_data : WorkSharingLoopInfo) :
    WorkSharingLoopInfo × LoopItem :=
  let sign := sign loop_data.loopStep
  let niters := (loop_data.upperBound - loop_data.lowerBound).tdiv loop_data.loopStep + 1
  let adjust := niters.tmod num_threads
  let schunk := (niters.tdiv num_threads - 1) * loop_data.loopStep
  let lower := loop_data.lowerBound + (schunk + loop_data.loopStep) * thid +
    (if adjust > thid then thid * loop_data.loopStep else adjust * loop_data.loopStep)
  let upper := lower + schunk + (if adjust > thid then loop_data.loopStep else 0)
  ({ loop_data with lowerBound := loop_data.upperBound + loop_data.loopStep },
    { lower, upper, execute := lower * sign ≤ upper * sign, last := upper = loop_data.upperBound })

/-- The chunks in turns. Source: `static.cpp:102`. -/
def interleave (num_threads thid : Nat) (loop_data : WorkSharingLoopInfo) :
    WorkSharingLoopInfo × LoopItem :=
  let sign := sign loop_data.loopStep
  let lower := loop_data.lowerBound + loop_data.chunkSize * loop_data.loopStep * thid
  let unclipped := lower + loop_data.chunkSize * loop_data.loopStep - loop_data.loopStep
  let past := unclipped * sign ≥ loop_data.upperBound * sign
  let upper := if past then loop_data.upperBound else unclipped
  ({ loop_data with
      lowerBound := loop_data.lowerBound + loop_data.chunkSize * loop_data.loopStep * num_threads },
    { lower, upper, execute := lower * sign ≤ upper * sign, last := past })

/-- A call of thread `thid` of `num_threads`, with the thread's own descriptor and its item as the call
before left it. Source: `WorkSharingStaticFor::nextItem` (`static.cpp:69`). -/
def nextItem (num_threads thid : Nat) (loop_data : WorkSharingLoopInfo) (loop_item : LoopItem) :
    WorkSharingLoopInfo × LoopItem :=
  if loop_data.lowerBound * sign loop_data.loopStep > loop_data.upperBound * sign loop_data.loopStep then
    (loop_data, { loop_item with last := false, execute := false })
  else if loop_data.chunkSize = 0 then distribute num_threads thid loop_data
  else interleave num_threads thid loop_data

end StaticWs

/-! ## Bounds and iteration numbers -/

section
variable {lower upper step x y : Int} {m n q c t j : Nat}

/-- The plugin compares in the direction of the loop. -/
theorem StaticWs.le_sign_iff (h : step ≠ 0) :
    x * StaticWs.sign step ≤ y * StaticWs.sign step ↔ x * step ≤ y * step := by
  unfold StaticWs.sign
  split
  · next hneg =>
    rw [mul_le_mul_right_of_neg hneg]
    omega
  · next hpos =>
    rw [mul_le_mul_iff_of_pos_right (by omega : 0 < step)]
    omega

theorem iterate_le_iff (h : step ≠ 0) :
    (lower + m * step) * step ≤ upper * step ↔ m < tripCount lower upper step := by
  rw [lt_tripCount_iff h, within_iff h]

/-- An iteration is the upper bound when it is the final one and the step divides the range. -/
theorem iterate_eq_iff (h : step ≠ 0) (hpos : 0 < tripCount lower upper step) :
    lower + m * step = upper ↔ m + 1 = tripCount lower upper step ∧ step ∣ upper - lower := by
  have hsquare : 0 < step * step := mul_self_pos.2 h
  have hnat : ∀ k : Nat, lower + k * step = upper → k + 1 = tripCount lower upper step := by
    intro k hk
    have hin := (@iterate_le_iff lower upper step k h).1 (by rw [hk])
    have hout : ¬ k + 1 < tripCount lower upper step := by
      rw [← iterate_le_iff h]
      have : (lower + (k + 1 : Nat) * step) * step = upper * step + step * step := by
        rw [← hk]
        push_cast
        ring
      omega
    omega
  constructor
  · intro hm
    exact ⟨hnat m hm, m, by rw [← hm]; ring⟩
  · rintro ⟨hm, d, hd⟩
    have hupper : upper = lower + d * step := by
      rw [mul_comm d, ← hd]
      ring
    have hstart := (@iterate_le_iff lower upper step 0 h).2 hpos
    have hd0 : 0 ≤ d := by
      refine le_of_not_gt fun hneg => ?_
      have hmul := mul_neg_of_neg_of_pos hneg hsquare
      have : upper * step = lower * step + d * (step * step) := by
        rw [hupper]
        ring
      simp only [Nat.cast_zero, zero_mul, add_zero] at hstart
      omega
    obtain ⟨k, rfl⟩ := Int.eq_ofNat_of_zero_le hd0
    have hk := hnat k hupper.symm
    obtain rfl : k = m := by omega
    exact hupper.symm

/-- An iteration reaches the upper bound. -/
theorem le_iterate_iff (h : step ≠ 0) (hpos : 0 < tripCount lower upper step) :
    upper * step ≤ (lower + m * step) * step ↔ tripCount lower upper step ≤ m ∨
      (m + 1 = tripCount lower upper step ∧ step ∣ upper - lower) := by
  have hin := @iterate_le_iff lower upper step m h
  rw [← iterate_eq_iff h hpos]
  constructor
  · intro hle
    rcases eq_or_lt_of_le hle with heq | hlt
    · exact .inr (mul_right_cancel₀ h heq).symm
    · exact .inl (not_lt.1 fun hm => absurd (hin.2 hm) (not_le.2 hlt))
  · rintro (hm | heq)
    · exact (not_le.1 fun hle => absurd (hin.1 hle) (not_lt.2 hm)).le
    · rw [heq]

end

/-! ## The items of the static plugin -/

namespace StaticWs

section
variable {info : WsInfoLoop} {data : WorkSharingLoopInfo} {item : LoopItem} {T t j c : Nat}

/-- The number of iterations of the loop. -/
def trips (info : WsInfoLoop) : Nat := tripCount info.lower_bound info.upper_bound info.loop_step

/-- The item on `size` iterations from number `start` on, its upper bound clipped when `clip` says so; the
flag is set when the bounds meet. -/
def itemOn (info : WsInfoLoop) (start size : Nat) : LoopItem :=
  let unclipped := info.lower_bound + (start + size - 1 : Nat) * info.loop_step
  let past := info.upper_bound * info.loop_step ≤ unclipped * info.loop_step
  { lower := info.lower_bound + start * info.loop_step
    upper := if past then info.upper_bound else unclipped
    execute := true
    last := past }

/-- A thread's descriptor when its lower bound is the `k`-th iteration. -/
def movedTo (info : WsInfoLoop) (k : Nat) : WorkSharingLoopInfo :=
  { create info with lowerBound := info.lower_bound + k * info.loop_step }

/-- The first iteration of thread `t` when each thread gets one item. -/
def shareStart (info : WsInfoLoop) (T t : Nat) : Nat := trips info / T * t + min t (trips info % T)

/-- The number of iterations of thread `t` when each thread gets one item. -/
def shareSize (info : WsInfoLoop) (T t : Nat) : Nat := trips info / T + if t < trips info % T then 1 else 0

theorem shareStart_succ (info : WsInfoLoop) (T t : Nat) :
    shareStart info T (t + 1) = shareStart info T t + shareSize info T t := by
  unfold shareStart shareSize
  rw [Nat.mul_succ]
  split <;> omega

theorem shareStart_team (info : WsInfoLoop) (hT : 0 < T) : shareStart info T T = trips info := by
  have hlt := Nat.mod_lt (trips info) hT
  rw [shareStart, min_eq_right hlt.le, Nat.div_add_mod']

theorem shareStart_mono (info : WsInfoLoop) (T : Nat) {t t' : Nat} (h : t ≤ t') :
    shareStart info T t ≤ shareStart info T t' := by
  induction t', h using Nat.le_induction with
  | base => exact le_refl _
  | succ t' _ ih =>
    rw [shareStart_succ]
    omega

section
variable (hstep : info.loop_step ≠ 0) (hpos : 0 < trips info)
include hstep hpos

/-- A loop with an iteration starts within its bounds. -/
theorem start_le_end : info.lower_bound * info.loop_step ≤ info.upper_bound * info.loop_step := by
  have := (iterate_le_iff (m := 0) hstep).2 hpos
  simpa using this

/-- The flag of an item: the item reaches behind the final iteration, or ends with it and the step reaches
the upper bound. -/
theorem last_itemOn (start : Nat) {size : Nat} (hsize : 0 < size) : (itemOn info start size).last = true ↔
    trips info < start + size ∨
      (start + size = trips info ∧ info.loop_step ∣ info.upper_bound - info.lower_bound) := by
  have hreach := le_iterate_iff (m := start + size - 1) hstep hpos
  have hend : start + size - 1 + 1 = start + size := by omega
  have hlt : trips info ≤ start + size - 1 ↔ trips info < start + size := by omega
  rw [hend, show tripCount info.lower_bound info.upper_bound info.loop_step = trips info from rfl, hlt]
    at hreach
  simp only [itemOn, decide_eq_true_iff]
  exact hreach

/-- A flagged item has the final iteration. -/
theorem final_mem_values {start size : Nat} (hstart : start < trips info)
    (hlast : (itemOn info start size).last = true) :
    info.lower_bound + (trips info - 1 : Nat) * info.loop_step ∈
      (itemOn info start size).values info.loop_step := by
  simp only [itemOn, decide_eq_true_iff] at hlast
  simp only [LoopItem.values, itemOn, if_pos hlast]
  rw [mem_iterations hstep]
  refine ⟨trips info - 1 - start, ?_, ?_⟩
  · have : ((trips info - 1 : Nat) : Int) = start + (trips info - 1 - start : Nat) := by omega
    rw [this]
    ring
  · rw [within_iff hstep, iterate_le_iff hstep]
    exact Nat.sub_lt hpos Nat.one_pos

omit hpos in
/-- The interleaved distribution: the chunk's item, executed when its bounds are in order. -/
theorem interleave_eq (hchunk : info.chunk_size = c) (hc : 0 < c) (k : Nat) :
    interleave T t (movedTo info k) = (movedTo info (k + T * c),
      { itemOn info (k + t * c) c with
        execute := (itemOn info (k + t * c) c).lower * info.loop_step ≤
          (itemOn info (k + t * c) c).upper * info.loop_step }) := by
  have hlower : info.lower_bound + k * info.loop_step + c * info.loop_step * t =
      info.lower_bound + (k + t * c : Nat) * info.loop_step := by
    push_cast
    ring
  have hunclipped : info.lower_bound + (k + t * c : Nat) * info.loop_step + c * info.loop_step -
      info.loop_step = info.lower_bound + (k + t * c + c - 1 : Nat) * info.loop_step := by
    have : ((k + t * c + c - 1 : Nat) : Int) = (k + t * c : Nat) + c - 1 := by omega
    rw [this]
    ring
  have hnext : info.lower_bound + k * info.loop_step + c * info.loop_step * T =
      info.lower_bound + (k + T * c : Nat) * info.loop_step := by
    push_cast
    ring
  simp only [interleave, movedTo, create, itemOn, ge_iff_le, le_sign_iff hstep, hchunk, hlower, hunclipped,
    hnext]
  rfl

omit hpos in
/-- An item that starts in the loop has its bounds in order. -/
theorem lower_le_upper (start : Nat) {size : Nat} (hsize : 0 < size) (hstart : start < trips info) :
    (itemOn info start size).lower * info.loop_step ≤ (itemOn info start size).upper * info.loop_step := by
  simp only [itemOn]
  split
  · exact (iterate_le_iff hstep).2 hstart
  · have hsquare := mul_self_nonneg info.loop_step
    have hlast : ((start + size - 1 : Nat) : Int) = start + (size - 1 : Nat) := by omega
    have hmul : 0 ≤ ((size - 1 : Nat) : Int) * (info.loop_step * info.loop_step) :=
      mul_nonneg (Int.natCast_nonneg _) hsquare
    rw [hlast]
    linarith

omit hpos in
/-- An item that starts behind the loop has not. -/
theorem not_lower_le_upper {start size : Nat} (hsize : 0 < size) (hstart : trips info ≤ start) :
    ¬ (itemOn info start size).lower * info.loop_step ≤ (itemOn info start size).upper * info.loop_step := by
  have hbehind : ∀ m, trips info ≤ m →
      ¬ (info.lower_bound + (m : Nat) * info.loop_step) * info.loop_step ≤
        info.upper_bound * info.loop_step := fun m hm hle =>
    absurd ((iterate_le_iff hstep).1 hle) (not_lt.2 hm)
  have hpast := (not_le.1 (hbehind (start + size - 1) (by omega))).le
  simp only [itemOn, if_pos hpast]
  exact hbehind start hstart

/-- The distribution of one item to each thread. -/
theorem distribute_eq (hT : 0 < T) (ht : t < T) :
    (distribute T t (create info)).1 =
      { create info with lowerBound := info.upper_bound + info.loop_step } ∧
    (0 < shareSize info T t → (distribute T t (create info)).2 =
      itemOn info (shareStart info T t) (shareSize info T t)) ∧
    (shareSize info T t = 0 → (distribute T t (create info)).2.execute = false) := by
  have hwithin : within info.upper_bound info.loop_step info.lower_bound = true := by
    have := (lt_tripCount_iff (k := 0) hstep).1 hpos
    simpa using this
  have htrips : (info.upper_bound - info.lower_bound).tdiv info.loop_step + 1 = (trips info : Int) :=
    tdiv_add_one_eq hstep hwithin
  have hlower : info.lower_bound + (((trips info / T : Nat) - 1 : Int) * info.loop_step + info.loop_step) * t +
      (if ((trips info % T : Nat) : Int) > t then t * info.loop_step
        else (trips info % T : Nat) * info.loop_step) =
      info.lower_bound + (shareStart info T t : Nat) * info.loop_step := by
    unfold shareStart
    split
    · next hlt =>
      rw [min_eq_left (by omega)]
      push_cast
      ring
    · next hge =>
      rw [min_eq_right (by omega)]
      push_cast
      ring
  have hupper : info.lower_bound + (shareStart info T t : Nat) * info.loop_step +
      ((trips info / T : Nat) - 1 : Int) * info.loop_step +
      (if ((trips info % T : Nat) : Int) > t then info.loop_step else 0) =
      info.lower_bound + ((shareStart info T t : Int) + (shareSize info T t : Int) - 1) * info.loop_step := by
    unfold shareSize
    split
    · next hlt =>
      rw [if_pos (by omega)]
      push_cast
      ring
    · next hge =>
      rw [if_neg (by omega)]
      push_cast
      ring
  have hend : shareStart info T t + shareSize info T t ≤ trips info := by
    rw [← shareStart_succ, ← shareStart_team info hT]
    exact shareStart_mono info T ht
  refine ⟨rfl, fun hsize => ?_, fun hsize => ?_⟩
  · have hcast : (shareStart info T t : Int) + (shareSize info T t : Int) - 1 =
        ((shareStart info T t + shareSize info T t - 1 : Nat) : Int) := by omega
    have hin : (info.lower_bound + (shareStart info T t + shareSize info T t - 1 : Nat) * info.loop_step) *
        info.loop_step ≤ info.upper_bound * info.loop_step :=
      (iterate_le_iff hstep).2 (by show _ < trips info; omega)
    -- the item ends in the loop, so clipping changes nothing
    have hmeet : info.upper_bound * info.loop_step ≤ (info.lower_bound +
        (shareStart info T t + shareSize info T t - 1 : Nat) * info.loop_step) * info.loop_step ↔
        info.lower_bound + (shareStart info T t + shareSize info T t - 1 : Nat) * info.loop_step =
          info.upper_bound :=
      ⟨fun hle => mul_right_cancel₀ hstep (le_antisymm hin hle), fun heq => by rw [heq]⟩
    have horder := lower_le_upper hstep (shareStart info T t) hsize (by omega)
    simp only [distribute, create, htrips, ← Int.ofNat_tdiv, ← Int.ofNat_tmod, hlower, hupper, hcast,
      le_sign_iff hstep]
    have hclip : ∀ u : Int, (if u = info.upper_bound then info.upper_bound else u) = u := by
      intro u
      split
      · next heq => exact heq.symm
      · rfl
    simp only [itemOn, hmeet, hclip] at horder ⊢
    simp only [horder, decide_true]
  · have hsquare : 0 < info.loop_step * info.loop_step := mul_self_pos.2 hstep
    simp only [distribute, create, htrips, ← Int.ofNat_tdiv, ← Int.ofNat_tmod, hlower, hupper, hsize,
      le_sign_iff hstep]
    rw [decide_eq_false_iff_not]
    push_cast
    linarith

/-- A negative chunk size: the bounds of an item are never in order. -/
theorem interleave_neg (hchunk : info.chunk_size < 0) :
    (interleave T t (create info)).2.execute = false := by
  have hstart := start_le_end hstep hpos
  have hsquare : 0 < info.loop_step * info.loop_step := mul_self_pos.2 hstep
  have hback : info.chunk_size * (info.loop_step * info.loop_step) ≤ 0 :=
    (mul_neg_of_neg_of_pos hchunk hsquare).le
  have hturns : info.chunk_size * (info.loop_step * info.loop_step) * t ≤ 0 :=
    mul_nonpos_of_nonpos_of_nonneg hback (Int.natCast_nonneg t)
  have hpast : ¬ info.upper_bound * info.loop_step ≤ (info.lower_bound +
      info.chunk_size * info.loop_step * t + info.chunk_size * info.loop_step - info.loop_step) *
        info.loop_step := by
    intro hle
    have : (info.lower_bound + info.chunk_size * info.loop_step * t + info.chunk_size * info.loop_step -
        info.loop_step) * info.loop_step = info.lower_bound * info.loop_step +
          info.chunk_size * (info.loop_step * info.loop_step) * t +
          info.chunk_size * (info.loop_step * info.loop_step) - info.loop_step * info.loop_step := by ring
    linarith
  simp only [interleave, create, ge_iff_le, le_sign_iff hstep, hpast, if_false]
  rw [decide_eq_false_iff_not]
  intro hle
  have : (info.lower_bound + info.chunk_size * info.loop_step * t + info.chunk_size * info.loop_step -
      info.loop_step) * info.loop_step = (info.lower_bound + info.chunk_size * info.loop_step * t) *
        info.loop_step + info.chunk_size * (info.loop_step * info.loop_step) -
          info.loop_step * info.loop_step := by ring
  linarith

omit hpos in
/-- A descriptor whose loop is used up gives no item. -/
theorem nextItem_behind (item : LoopItem) (hstepEq : data.loopStep = info.loop_step)
    (hout : ¬ data.lowerBound * info.loop_step ≤ data.upperBound * info.loop_step) :
    (nextItem T t data item).2.execute = false := by
  rw [nextItem, hstepEq, if_pos (not_le.1 ((le_sign_iff hstep).not.2 hout))]

theorem nextItem_start : nextItem T t (create info) item =
    if info.chunk_size = 0 then distribute T t (create info) else interleave T t (create info) := by
  have hstart := start_le_end hstep hpos
  have hin : ¬ (create info).lowerBound * sign (create info).loopStep >
      (create info).upperBound * sign (create info).loopStep := not_lt.2 ((le_sign_iff hstep).2 hstart)
  rw [nextItem, if_neg hin]
  rfl

omit hpos in
/-- A call of the interleaved distribution. -/
theorem nextItem_chunk (item : LoopItem) (hchunk : info.chunk_size = c) (hc : 0 < c) (k : Nat) :
    (k + t * c < trips info →
      nextItem T t (movedTo info k) item = (movedTo info (k + T * c), itemOn info (k + t * c) c)) ∧
    (trips info ≤ k + t * c → (nextItem T t (movedTo info k) item).2.execute = false) := by
  have heq := interleave_eq (T := T) (t := t) hstep hchunk hc k
  have hzero : ¬ (movedTo info k).chunkSize = 0 := by
    show ¬ info.chunk_size = 0
    omega
  have hguard : ¬ (movedTo info k).lowerBound * sign (movedTo info k).loopStep >
      (movedTo info k).upperBound * sign (movedTo info k).loopStep ↔ k < trips info := by
    rw [gt_iff_lt, not_lt]
    exact (le_sign_iff hstep).trans (iterate_le_iff hstep)
  constructor
  · intro hin
    rw [nextItem, if_neg (hguard.2 (by omega)), if_neg hzero, heq]
    have horder := lower_le_upper hstep _ hc hin
    simp only [horder, decide_true]
    rfl
  · intro hout
    rw [nextItem]
    split
    · rfl
    · rw [heq]
      have horder := not_lower_le_upper hstep hc hout
      simp only [horder, decide_false]

end

end

end StaticWs

end OmpSs.Loops
