import OmpSs.Lib.CountedLoop

/-!
# The `static_for` slicer

`SlicerStaticFor` (`nanox-mx/src/plugins/slicers/static_for.cpp`) cuts a loop into one work
descriptor per valid thread; each runs `staticLoop`, which calls the outlined loop body on ranges.
`submit` is the distribution, in the block mode of `chunk == 0` and the interleaved mode of
`chunk > 0`; `staticLoop` the calls one work descriptor makes. Integers are exact: the results are
about loops whose arithmetic does not overflow 64 bits.

The proofs number the iterations of the loop. A work descriptor whose lower bound is that of
iteration `i` calls the body on the iterations `i .. i + c`, `i + d .. i + d + c` and so on
(`staticLoop_eq`), where `c` and `d` are its chunk and stride in iterations; the two modes differ in
the numbers `i`, `c` and `d` they hand out.
-/

namespace OmpSs.Loops

open Lib

/-- Source: `nanos_loop_info_t` (`core/nanos-int.h:194`), less the fields that the slicer does not
read. -/
structure LoopInfo where
  lower : Int
  upper : Int
  step : Int
  last : Bool := false
  chunk : Int
  stride : Int := 0
deriving DecidableEq

/-- One call of the outlined loop body, `((DeviceData::work_fct)(loop_info->args))(arg)`: what the
body finds in the loop information. -/
structure Call where
  lower : Int
  upper : Int
  step : Int
  last : Bool
deriving DecidableEq

/-- The body of the two loops of `staticLoop`, which differ in the direction of the comparison `le`
and in the chunk. `none` is a loop that has not ended after `fuel` calls. -/
def staticLoopFrom (le : Int → Int → Bool) (upper chunk stride : Int) :
    Nat → LoopInfo → Option (List Call)
  | 0, _ => none
  | fuel + 1, info =>
    if le info.lower upper then
      let info := { info with upper := info.lower + chunk }
      let info := if le upper info.upper then { info with upper := upper, last := true } else info
      (staticLoopFrom le upper chunk stride fuel { info with lower := info.lower + stride }).map
        (⟨info.lower, info.upper, info.step, info.last⟩ :: ·)
    else some []

/-- Source: `staticLoop` (`static_for.cpp:43`). The result is the list of calls of the loop body. -/
def staticLoop (info : LoopInfo) : Option (List Call) :=
  if info.upper > info.lower ∧ info.step ≤ 0 then some []
  else if info.upper < info.lower ∧ info.step ≥ 0 then some []
  else
    let info := { info with last := false }
    let fuel := (info.upper - info.lower).natAbs + 2
    if info.step < 0 then
      staticLoopFrom (fun a b => decide (a ≥ b)) info.upper (info.chunk + 1) info.stride fuel info
    else
      staticLoopFrom (fun a b => decide (a ≤ b)) info.upper (info.chunk - 1) info.stride fuel info

/-- The work descriptors `i`, `i + 1`, ... of the block mode: each is a copy of work descriptor 0
with its own lower bound and chunk. -/
def blockSlices (work : LoopInfo) (adjust chunk : Int) : Nat → Nat → Int → List LoopInfo
  | 0, _, _ => []
  | count + 1, i, lower =>
    let lower := lower + (chunk + if adjust > i - 1 then work.step else 0)
    { work with lower := lower, chunk := chunk + if adjust > i then work.step else 0 } ::
      blockSlices work adjust chunk count (i + 1) lower

/-- The work descriptors `i`, `i + 1`, ... of the interleaved mode, up to the first one that would
have no iterations. -/
def interleavedSlices (work : LoopInfo) (sign : Int) : Nat → Nat → List LoopInfo
  | 0, _ => []
  | count + 1, i =>
    if (work.lower + i * work.chunk) * sign > work.upper * sign then []
    else { work with lower := work.lower + i * work.chunk } ::
      interleavedSlices work sign count (i + 1)

/-- Source: `SlicerStaticFor::submit` (`static_for.cpp:91`), with the number of valid threads as a
parameter: the loop information of the work descriptors it creates, that of `work` first. -/
def submit (info : LoopInfo) (validThreads : Nat) : List LoopInfo :=
  if info.chunk = 0 then
    let niters := (info.upper - info.lower).tdiv info.step + 1
    let adjust := niters.tmod validThreads
    let chunk := niters.tdiv validThreads * info.step
    let work := { info with
      chunk := chunk + if adjust > 0 then info.step else 0
      stride := niters * info.step }
    work :: blockSlices work adjust chunk (validThreads - 1) 1 info.lower
  else
    let sign : Int := if info.step < 0 then -1 else 1
    let offset := info.chunk * info.step
    let work := { info with chunk := offset, stride := offset * validThreads }
    work :: interleavedSlices work sign (validThreads - 1) 1

/-- The calls of the loop body that a list of work descriptors makes. -/
def runAll (slices : List LoopInfo) : Option (List Call) := (slices.mapM staticLoop).map List.flatten

/-- All calls of the loop body, over all work descriptors. -/
def executed (info : LoopInfo) (validThreads : Nat) : Option (List Call) :=
  runAll (submit info validThreads)

/-! ## Iteration numbers -/

/-- The numbers `i`, `i + d`, `i + 2 * d`, ... below `n`. -/
def starts (n i d : Nat) : List Nat := (List.range ((n - i + d - 1) / d)).map fun j => i + j * d

section
variable {lower upper step : Int} {n i j c d : Nat}

theorem starts_of_le (hd : 0 < d) (h : n ≤ i) : starts n i d = [] := by
  have hzero : (n - i + d - 1) / d = 0 := Nat.div_eq_of_lt (by omega)
  rw [starts, hzero]
  rfl

theorem starts_of_lt (hd : 0 < d) (h : i < n) : starts n i d = i :: starts n (i + d) d := by
  have hcount : (n - i + d - 1) / d = (n - (i + d) + d - 1) / d + 1 := by
    rcases Nat.lt_or_ge n (i + d) with hlt | hge
    · rw [Nat.div_eq_of_lt_le (k := 1) (by omega) (by omega), Nat.div_eq_of_lt (by omega)]
    · rw [show n - i + d - 1 = (n - (i + d) + d - 1) + d by omega, Nat.add_div_right _ hd]
  rw [starts, hcount, List.range_succ_eq_map, List.map_cons, List.map_map, starts]
  refine congrArg₂ List.cons (by simp) (List.map_congr_left fun j _ => ?_)
  simp only [Function.comp, Nat.succ_eq_add_one]
  ring

theorem mem_starts (hd : 0 < d) {x : Nat} : x ∈ starts n i d ↔ x < n ∧ ∃ j, x = i + j * d := by
  simp only [starts, List.mem_map, List.mem_range]
  constructor
  · rintro ⟨j, hj, rfl⟩
    refine ⟨?_, j, rfl⟩
    have h1 : j + 1 ≤ (n - i + d - 1) / d := hj
    rw [Nat.le_div_iff_mul_le hd, Nat.add_mul] at h1
    omega
  · rintro ⟨hx, j, rfl⟩
    refine ⟨j, ?_, rfl⟩
    show j + 1 ≤ _
    rw [Nat.le_div_iff_mul_le hd, Nat.add_mul]
    omega

/-- The call on the iterations from `i` to `i + c`, cut off at the end of the loop. -/
def callAt (lower upper step : Int) (c i : Nat) : Call where
  lower := lower + i * step
  upper := if tripCount lower upper step ≤ i + c then upper
    else lower + (i + c : Nat) * step - if step < 0 then -1 else 1
  step := step
  last := decide (tripCount lower upper step ≤ i + c)

/-- The clipping test of `staticLoop`. -/
theorem within_clip_iff (h : step ≠ 0) :
    within (lower + i * step + (c * step - if step < 0 then -1 else 1)) step upper = true ↔
      tripCount lower upper step ≤ i + c := by
  rw [← not_lt, lt_tripCount_iff h]
  push_cast
  have hring : lower + (i + c) * step = lower + i * step + c * step := by ring
  rw [hring]
  unfold within
  split
  · simp only [decide_eq_true_eq]; omega
  · simp only [decide_eq_true_eq]; omega

/-- The calls from iteration `i` on. The flag `last` is only set by the call that ends the loop. -/
theorem staticLoopFrom_eq (h : step ≠ 0) (hd : 0 < d) (hcd : c ≤ d) (chunk stride : Int) :
    ∀ (fuel i : Nat) (u : Int), tripCount lower upper step - i < fuel →
    staticLoopFrom (fun a b => within b step a) upper
        (c * step - if step < 0 then -1 else 1) (d * step) fuel
        ⟨lower + i * step, u, step, false, chunk, stride⟩ =
      some ((starts (tripCount lower upper step) i d).map (callAt lower upper step c))
  | 0, i, _, hfuel => absurd hfuel (Nat.not_lt_zero _)
  | fuel + 1, i, u, hfuel => by
    unfold staticLoopFrom
    by_cases hi : i < tripCount lower upper step
    · have hin := (lt_tripCount_iff h).1 hi
      have hnext : lower + i * step + d * step = lower + (i + d : Nat) * step := by
        push_cast
        ring
      simp only [hin, if_true]
      rw [starts_of_lt hd hi, List.map_cons]
      by_cases hlast : tripCount lower upper step ≤ i + c
      · -- the last call: the next lower bound is past the end
        have hclip := (within_clip_iff (c := c) h).2 hlast
        have hend : ¬ within upper step (lower + (i + d : Nat) * step) = true := by
          rw [← lt_tripCount_iff h]
          omega
        simp only [hclip, if_true, hnext]
        obtain ⟨fuel, rfl⟩ : ∃ f, fuel = f + 1 := ⟨fuel - 1, by omega⟩
        unfold staticLoopFrom
        rw [starts_of_le hd (by omega)]
        simp only [hend]
        simp [callAt, hlast]
      · have hclip := fun hc => hlast ((within_clip_iff (c := c) h).1 hc)
        have hupper : lower + i * step + (c * step - if step < 0 then -1 else 1) =
            lower + (i + c : Nat) * step - if step < 0 then -1 else 1 := by
          push_cast
          ring
        rw [if_neg hclip, hnext, staticLoopFrom_eq h hd hcd chunk stride fuel (i + d) _ (by omega)]
        simp [callAt, hlast, hupper]
    · have hout : ¬ within upper step (lower + i * step) = true := fun hin =>
        hi ((lt_tripCount_iff h).2 hin)
      rw [starts_of_le hd (by omega)]
      simp [hout]

/-- A work descriptor that starts past the end calls nothing. -/
theorem staticLoop_of_not_within {info : LoopInfo}
    (hout : ¬ within info.upper info.step info.lower = true) : staticLoop info = some [] := by
  unfold within at hout
  unfold staticLoop
  split at hout
  · have : info.upper > info.lower ∧ info.step ≤ 0 := by
      simp only [decide_eq_true_eq] at hout
      omega
    rw [if_pos this]
  · have : ¬ (info.upper > info.lower ∧ info.step ≤ 0) ∧ info.upper < info.lower ∧
        info.step ≥ 0 := by
      simp only [decide_eq_true_eq] at hout
      omega
    rw [if_neg this.1, if_pos this.2]

/-- The other work descriptors: both directions of the loop are one loop over `within`. -/
theorem staticLoop_of_within {info : LoopInfo} (h : info.step ≠ 0)
    (hin : within info.upper info.step info.lower = true) :
    staticLoop info = staticLoopFrom (fun a b => within b info.step a) info.upper
      (info.chunk - if info.step < 0 then -1 else 1) info.stride
      ((info.upper - info.lower).natAbs + 2) { info with last := false } := by
  unfold staticLoop
  by_cases hneg : info.step < 0
  · have hle : (fun a b : Int => decide (a ≥ b)) = fun a b => within b info.step a := by
      funext a b
      simp [within, hneg]
    simp only [within, hneg, if_true, decide_eq_true_eq] at hin
    rw [if_neg (by omega), if_neg (by omega)]
    simp only [hneg, if_true, hle]
    rfl
  · have hle : (fun a b : Int => decide (a ≤ b)) = fun a b => within b info.step a := by
      funext a b
      simp [within, hneg]
    simp only [within, hneg, if_false, decide_eq_true_eq] at hin
    rw [if_neg (by omega), if_neg (by omega)]
    simp only [hneg, if_false, hle]

/-- The calls of a work descriptor that starts at iteration `i`, with a chunk of `c` and a stride of
`d` iterations. -/
theorem staticLoop_eq (h : step ≠ 0) (hd : 0 < d) (hcd : c ≤ d) (last : Bool) :
    staticLoop ⟨lower + i * step, upper, step, last, c * step, d * step⟩ =
      some ((starts (tripCount lower upper step) i d).map (callAt lower upper step c)) := by
  by_cases hi : i < tripCount lower upper step
  · have hfuel : tripCount lower upper step - i < (upper - (lower + i * step)).natAbs + 2 := by
      have hle : tripCount (lower + i * step) upper step ≤ _ := tripCount_le
      rw [tripCount_add h] at hle
      omega
    rw [staticLoop_of_within h ((lt_tripCount_iff h).1 hi)]
    exact staticLoopFrom_eq h hd hcd _ _ _ i upper hfuel
  · have hout := fun hin => hi ((lt_tripCount_iff h).2 hin)
    rw [starts_of_le hd (by omega), staticLoop_of_not_within hout]
    rfl

/-! ## Partitions of the iteration numbers -/

/-- A bound one short of iteration `j` lets through the iterations before `j`. -/
theorem within_short_iff (h : step ≠ 0) {k : Nat} :
    within (lower + j * step - if step < 0 then -1 else 1) step (lower + k * step) = true ↔
      k < j := by
  unfold within
  split
  · next hneg =>
    have hmul : (j : Int) * step < k * step ↔ (k : Int) < j := mul_lt_mul_right_of_neg hneg
    rw [decide_eq_true_iff]
    omega
  · next hpos =>
    have hmul : (k : Int) * step < j * step ↔ (k : Int) < j :=
      mul_lt_mul_iff_of_pos_right (by omega)
    rw [decide_eq_true_iff]
    omega

/-- The call on `i .. i + c` runs the iterations with these numbers. -/
theorem iterations_callAt (h : step ≠ 0) (p : Nat × Nat) :
    iterations (callAt lower upper step p.2 p.1).lower (callAt lower upper step p.2 p.1).upper step =
      (piece (tripCount lower upper step) p).map fun k : Nat => lower + (k : Int) * step := by
  refine iterations_piece h fun k => ?_
  show within (if _ then _ else _) step _ = true ↔ _
  split
  · next hlast =>
    rw [← lt_tripCount_iff h]
    omega
  · next hlast =>
    rw [within_short_iff h]
    omega

/-- What a distribution of a loop has to achieve: the executed ranges contain every iteration once and
nothing else, the flag `last` is set in the one range with the final iteration, and a loop without
iterations executes nothing. -/
structure Distributes (info : LoopInfo) (calls : List Call) : Prop where
  once : (calls.flatMap fun r => iterations r.lower r.upper r.step).Perm
    (iterations info.lower info.upper info.step)
  last : ∀ v, (iterations info.lower info.upper info.step).getLast? = some v →
    ∃ r, calls.filter (fun r => decide (v ∈ iterations r.lower r.upper r.step)) = [r] ∧
      calls.filter (·.last) = [r]
  none : iterations info.lower info.upper info.step = [] → calls = []

/-- Calls whose pieces partition the iteration numbers distribute the loop. -/
theorem distributes_of_pieces {info : LoopInfo} (h : info.step ≠ 0) (l : List (Nat × Nat))
    (hlt : ∀ p ∈ l, p.1 < tripCount info.lower info.upper info.step)
    (hl : (l.flatMap (piece (tripCount info.lower info.upper info.step))).Perm
      (List.range (tripCount info.lower info.upper info.step))) :
    Distributes info (l.map fun p => callAt info.lower info.upper info.step p.2 p.1) := by
  have honce : ((l.map fun p => callAt info.lower info.upper info.step p.2 p.1).flatMap
      fun r => iterations r.lower r.upper r.step).Perm
      (iterations info.lower info.upper info.step) := by
    rw [List.flatMap_map]
    refine List.Perm.trans (.of_eq ?_) (pieces_perm l _ hl)
    exact List.flatMap_congr fun p _ => iterations_callAt h p
  refine ⟨honce, fun v hv => ?_, fun hempty => ?_⟩
  · obtain ⟨hpos, rfl⟩ := getLast?_iterations hv
    obtain ⟨r, hr⟩ := exists_filter_eq_singleton (honce.nodup_iff.2 (nodup_iterations h))
      (honce.mem_iff.2 (List.mem_of_getLast? hv))
    refine ⟨r, hr, ?_⟩
    rw [← hr]
    refine List.filter_congr fun r' hr' => ?_
    obtain ⟨p, hp, rfl⟩ := List.mem_map.1 hr'
    -- both tests say that the piece reaches the last iteration number
    rw [Bool.eq_iff_iff, decide_eq_true_iff]
    have hmem : info.lower + ((tripCount info.lower info.upper info.step - 1 : Nat) : Int) * info.step
        ∈ iterations (callAt info.lower info.upper info.step p.2 p.1).lower
          (callAt info.lower info.upper info.step p.2 p.1).upper info.step ↔
        tripCount info.lower info.upper info.step ≤ p.1 + p.2 := by
      rw [iterations_callAt h, List.mem_map_of_injective (iterate_injective h info.lower), mem_piece]
      have := hlt p hp
      omega
    exact (decide_eq_true_iff).trans hmem.symm
  · rw [iterations_eq_nil hempty] at hlt
    rw [List.map_eq_nil_iff, List.eq_nil_iff_forall_not_mem]
    exact fun p hp => absurd (hlt p hp) (Nat.not_lt_zero _)

/-! ## The two modes -/

theorem runAll_cons {s : LoopInfo} {slices : List LoopInfo} {a b : List Call}
    (hs : staticLoop s = some a) (hslices : runAll slices = some b) :
    runAll (s :: slices) = some (a ++ b) := by
  unfold runAll at hslices ⊢
  obtain ⟨parts, hparts, rfl⟩ := Option.map_eq_some_iff.1 hslices
  rw [List.mapM_cons, hs, hparts]
  rfl

/-- Work descriptors that are given by numbers. -/
theorem runAll_map {α : Type*} {f : α → LoopInfo} {g : α → List Call} :
    ∀ l : List α, (∀ a ∈ l, staticLoop (f a) = some (g a)) →
      runAll (l.map f) = some (l.flatMap g)
  | [], _ => rfl
  | a :: l, hl => runAll_cons (hl a List.mem_cons_self)
      (runAll_map l fun b hb => hl b (List.mem_cons_of_mem a hb))

/-- Work descriptor `w` of the interleaved mode. -/
theorem staticLoop_interleaved (lower upper : Int) (h : step ≠ 0) {k t : Nat} (hk : 0 < k)
    (ht : 0 < t) (last : Bool) (w : Nat) :
    staticLoop ⟨lower + w * (k * step), upper, step, last, k * step, k * step * t⟩ =
      some ((starts (tripCount lower upper step) (w * k) (t * k)).map
        (callAt lower upper step k)) := by
  rw [← staticLoop_eq h (Nat.mul_pos ht hk) (Nat.le_mul_of_pos_left k ht) last]
  push_cast
  rw [Int.mul_assoc w, Int.mul_assoc t, Int.mul_comm (k * step) t]

/-- A slice is left out only where it and all later ones are empty. -/
theorem runAll_interleavedSlices (lower upper : Int) (h : step ≠ 0) {k t : Nat} (hk : 0 < k)
    (ht : 0 < t) (last : Bool) : ∀ count i : Nat,
    runAll (interleavedSlices ⟨lower, upper, step, last, k * step, k * step * t⟩
      (if step < 0 then -1 else 1) count i) =
      some ((List.range' i count).flatMap fun w =>
        (starts (tripCount lower upper step) (w * k) (t * k)).map (callAt lower upper step k))
  | 0, i => rfl
  | count + 1, i => by
    have hpast : (lower + i * (k * step)) * (if step < 0 then -1 else 1) >
        upper * (if step < 0 then -1 else 1) ↔ tripCount lower upper step ≤ i * k := by
      rw [← not_lt, lt_tripCount_iff h]
      push_cast
      rw [Int.mul_assoc]
      unfold within
      split <;> simp only [decide_eq_true_eq] <;> omega
    unfold interleavedSlices
    rcases Nat.lt_or_ge (i * k) (tripCount lower upper step) with hlt | hge
    · rw [if_neg fun hend => absurd (hpast.1 hend) (by omega)]
      exact runAll_cons (staticLoop_interleaved lower upper h hk ht last i)
        (runAll_interleavedSlices lower upper h hk ht last count (i + 1))
    · rw [if_pos (hpast.2 hge), List.flatMap_eq_nil_iff.2]
      · rfl
      intro w hw
      have hle : i * k ≤ w * k := Nat.mul_le_mul_right k (List.mem_range'_1.1 hw).1
      rw [starts_of_le (Nat.mul_pos ht hk) (by omega)]
      rfl

/-- Consecutive chunks of `c` iterations. -/
theorem flatMap_piece_starts (hc : 0 < c) (n : Nat) :
    ((starts n 0 c).flatMap fun s => piece n (s, c)) = List.range n := by
  have hpieces := flatMap_pieces (fun k => 0 + k * c) (fun _ => c) (by simp)
    (fun k => by ring) n ((n - 0 + c - 1) / c)
  rw [starts, List.flatMap_map, hpieces, min_eq_right]
  have hlt := Nat.lt_div_mul_add (a := n - 0 + c - 1) hc
  omega

/-- The chunks of all work descriptors are the chunks of the loop. -/
theorem interleaved_starts {k t : Nat} (hk : 0 < k) (ht : 0 < t) (n : Nat) :
    ((List.range t).flatMap fun w => starts n (w * k) (t * k)).Perm (starts n 0 k) := by
  have hnodup : ∀ i d, 0 < d → (starts n i d).Nodup := fun i d hd =>
    List.nodup_range.map fun a b hab => Nat.eq_of_mul_eq_mul_right hd (Nat.add_left_cancel hab)
  have htk : 0 < t * k := Nat.mul_pos ht hk
  rw [List.perm_ext_iff_of_nodup _ (hnodup 0 k hk)]
  · intro x
    simp only [List.mem_flatMap, List.mem_range, mem_starts htk, mem_starts hk]
    constructor
    · rintro ⟨w, _, hx, j, rfl⟩
      exact ⟨hx, w + j * t, by ring⟩
    · rintro ⟨hx, b, rfl⟩
      refine ⟨b % t, Nat.mod_lt b ht, hx, b / t, ?_⟩
      rw [← Nat.mul_assoc, ← Nat.add_mul, Nat.mul_comm (b / t), Nat.mod_add_div, Nat.zero_add]
  · rw [List.nodup_flatMap]
    refine ⟨fun w _ => hnodup _ _ htk, List.nodup_range.pairwise_of_forall_ne ?_⟩
    intro w hw w' hw' hne x hx hx'
    obtain ⟨_, j, rfl⟩ := (mem_starts htk).1 hx
    obtain ⟨_, j', hj'⟩ := (mem_starts htk).1 hx'
    rw [← Nat.mul_assoc, ← Nat.mul_assoc, ← Nat.add_mul, ← Nat.add_mul] at hj'
    have hsum := Nat.eq_of_mul_eq_mul_right hk hj'
    have hmod := congrArg (· % t) hsum
    simp only [Nat.add_mul_mod_self_right, Nat.mod_eq_of_lt (List.mem_range.1 hw),
      Nat.mod_eq_of_lt (List.mem_range.1 hw')] at hmod
    exact hne hmod

/-- The iteration number at which work descriptor `w` of the block mode starts, when every one gets
`q` iterations and the first `r` of them one more. -/
def blockStart (q r w : Nat) : Nat := w * q + min w r

/-- The number of iterations of work descriptor `w` of the block mode. -/
def blockSize (q r w : Nat) : Nat := q + if w < r then 1 else 0

theorem blockStart_succ (q r w : Nat) :
    blockStart q r (w + 1) = blockStart q r w + blockSize q r w := by
  unfold blockStart blockSize
  rw [Nat.add_mul]
  split <;> omega

/-- The blocks of `t` work descriptors end with the loop. -/
theorem blockStart_succ_le {n t w : Nat} (hw : w < t) :
    blockStart (n / t) (n % t) (w + 1) ≤ n := by
  have hsum := Nat.div_add_mod n t
  have hmul : (w + 1) * (n / t) ≤ t * (n / t) := Nat.mul_le_mul_right _ hw
  unfold blockStart
  omega

theorem blockStart_self {n t : Nat} (ht : 0 < t) : blockStart (n / t) (n % t) t = n := by
  have hsum := Nat.div_add_mod n t
  have hrem := Nat.mod_lt n ht
  unfold blockStart
  omega

/-- The chunk as the source computes it. -/
theorem blockSize_mul (q r w : Nat) (step : Int) :
    q * step + (if (r : Int) > w then step else 0) = blockSize q r w * step := by
  unfold blockSize
  simp only [gt_iff_lt, Nat.cast_lt]
  split <;> push_cast <;> ring

/-- The work descriptors of the block mode, by iteration numbers. -/
theorem blockSlices_eq (lower : Int) (work : LoopInfo) (q r : Nat) : ∀ count i : Nat,
    blockSlices work r (q * work.step) count (i + 1) (lower + blockStart q r i * work.step) =
      (List.range' (i + 1) count).map fun w => { work with
        lower := lower + blockStart q r w * work.step
        chunk := blockSize q r w * work.step }
  | 0, i => rfl
  | count + 1, i => by
    have hlower : lower + blockStart q r i * work.step +
        (q * work.step + if (r : Int) > ((i + 1 : Nat) : Int) - 1 then work.step else 0) =
        lower + blockStart q r (i + 1) * work.step := by
      have hi : ((i + 1 : Nat) : Int) - 1 = i := by omega
      rw [hi, blockSize_mul, blockStart_succ]
      push_cast
      ring
    rw [blockSlices]
    simp only [hlower, blockSize_mul]
    rw [blockSlices_eq lower work q r count (i + 1), List.range'_succ, List.map_cons]

/-- Where the loop is empty the work descriptors move backwards by at most the quotient each. -/
theorem blockSlices_lower {work : LoopInfo} {adjust q : Int} : ∀ (count i : Nat) (m : Int),
    i * min q 0 ≤ m →
    ∀ s ∈ blockSlices work adjust (q * work.step) count (i + 1) (lower + m * work.step),
      s.upper = work.upper ∧ s.step = work.step ∧
        ∃ m' : Int, ((i + count : Nat) : Int) * min q 0 ≤ m' ∧ s.lower = lower + m' * work.step
  | 0, _, _, _, s, hs => absurd hs List.not_mem_nil
  | count + 1, i, m, hm, s, hs => by
    -- the next work descriptor is `q` or `q + 1` iterations further on
    obtain ⟨m', hm', hle⟩ : ∃ m', lower + m * work.step + (q * work.step +
        if adjust > ((i + 1 : Nat) : Int) - 1 then work.step else 0) = lower + m' * work.step ∧
        ((i + 1 : Nat) : Int) * min q 0 ≤ m' := by
      have hstep : ((i + 1 : Nat) : Int) * min q 0 ≤ m + q := by
        push_cast
        have := min_le_left q 0
        linarith
      split
      · exact ⟨m + q + 1, by ring, by omega⟩
      · exact ⟨m + q, by ring, hstep⟩
    unfold blockSlices at hs
    simp only [hm'] at hs
    rcases List.mem_cons.1 hs with rfl | hs
    · refine ⟨rfl, rfl, m', le_trans ?_ hle, rfl⟩
      exact mul_le_mul_of_nonpos_right (by push_cast; omega) (min_le_right q 0)
    · have hrest := blockSlices_lower count (i + 1) m' hle s hs
      rwa [show i + 1 + count = i + (count + 1) by omega] at hrest

end

section
variable {info : LoopInfo} {t : Nat}

/-- The block mode on a loop with iterations. -/
theorem submit_block (h : info.step ≠ 0) (hchunk : info.chunk = 0) (ht : 0 < t)
    (hin : within info.upper info.step info.lower = true) {n : Nat}
    (hn : n = tripCount info.lower info.upper info.step) :
    submit info t = (List.range t).map fun w =>
      ⟨info.lower + blockStart (n / t) (n % t) w * info.step, info.upper, info.step, info.last,
        blockSize (n / t) (n % t) w * info.step, n * info.step⟩ := by
  obtain ⟨u, rfl⟩ : ∃ u, t = u + 1 := ⟨t - 1, by omega⟩
  have hquot : (n : Int).tdiv (u + 1 : Nat) = (n / (u + 1) : Nat) := (Int.ofNat_tdiv n (u + 1)).symm
  have hrem : (n : Int).tmod (u + 1 : Nat) = (n % (u + 1) : Nat) := (Int.ofNat_tmod n (u + 1)).symm
  have hfirst := blockSize_mul (n / (u + 1)) (n % (u + 1)) 0 info.step
  have hstart : info.lower + blockStart (n / (u + 1)) (n % (u + 1)) 0 * info.step = info.lower := by
    simp [blockStart]
  unfold submit
  simp only [hchunk, if_true, tdiv_add_one_eq h hin, ← hn, hquot, hrem]
  rw [List.range_eq_range', List.range'_succ, List.map_cons, hstart, ← hfirst]
  refine congrArg (List.cons _) ?_
  have hslices := blockSlices_eq info.lower
    { info with
      chunk := (n / (u + 1) : Nat) * info.step +
        if ((n % (u + 1) : Nat) : Int) > (0 : Nat) then info.step else 0
      stride := n * info.step } (n / (u + 1)) (n % (u + 1)) u 0
  simp only [hstart] at hslices
  exact hslices

theorem executed_block (h : info.step ≠ 0) (hchunk : info.chunk = 0) (ht : 0 < t)
    (hin : within info.upper info.step info.lower = true) {n : Nat}
    (hn : n = tripCount info.lower info.upper info.step) :
    executed info t = some ((List.range t).flatMap fun w =>
      (starts n (blockStart (n / t) (n % t) w) n).map
        (callAt info.lower info.upper info.step (blockSize (n / t) (n % t) w))) := by
  have hpos : 0 < n := by
    rw [hn, lt_tripCount_iff h]
    simpa using hin
  unfold executed
  rw [submit_block h hchunk ht hin hn]
  refine runAll_map _ fun w hw => ?_
  have hsize : blockSize (n / t) (n % t) w ≤ n := by
    have hle := blockStart_succ_le (n := n) (List.mem_range.1 hw)
    rw [blockStart_succ] at hle
    omega
  rw [staticLoop_eq h hpos hsize, ← hn]

/-- The block mode: every work descriptor runs one block. -/
theorem block_distributes (h : info.step ≠ 0) (hchunk : info.chunk = 0) (ht : 0 < t)
    (hin : within info.upper info.step info.lower = true) :
    ∃ calls, executed info t = some calls ∧ Distributes info calls := by
  obtain ⟨n, hn⟩ : ∃ n, n = tripCount info.lower info.upper info.step := ⟨_, rfl⟩
  have hpos : 0 < n := by
    rw [hn, lt_tripCount_iff h]
    simpa using hin
  have hdist := distributes_of_pieces h
    ((List.range t).flatMap fun w => (starts n (blockStart (n / t) (n % t) w) n).map
      fun i => (i, blockSize (n / t) (n % t) w))
  rw [← hn] at hdist
  refine ⟨_, executed_block h hchunk ht hin hn, ?_⟩
  simp only [List.map_flatMap, List.map_map, Function.comp_def] at hdist
  refine hdist ?_ (.of_eq ?_)
  · intro p hp
    obtain ⟨w, _, hp⟩ := List.mem_flatMap.1 hp
    obtain ⟨i, hi, rfl⟩ := List.mem_map.1 hp
    exact ((mem_starts hpos).1 hi).1
  · have hblocks := flatMap_pieces (blockStart (n / t) (n % t)) (blockSize (n / t) (n % t))
      (by simp [blockStart]) (blockStart_succ (n / t) (n % t)) n t
    rw [blockStart_self ht, min_self] at hblocks
    rw [List.flatMap_assoc, ← hblocks]
    refine List.flatMap_congr fun w hw => ?_
    have hend := blockStart_succ_le (n := n) (List.mem_range.1 hw)
    rw [blockStart_succ] at hend
    rcases Nat.lt_or_ge (blockStart (n / t) (n % t) w) n with hlt | hge
    · rw [starts_of_lt hpos hlt, starts_of_le hpos (by omega), List.map_singleton,
        List.flatMap_singleton]
    · rw [starts_of_le hpos hge, piece, Nat.sub_eq_zero_of_le (by simp only; omega)]
      rfl

/-- The truncating quotient, taken fewer times than the divisor, stays above the dividend. -/
theorem min_le_mul_tdiv (x : Int) {t : Nat} (ht : 0 < t) :
    min x 0 ≤ ((t - 1 : Nat) : Int) * min (x.tdiv t) 0 := by
  rcases le_or_gt 0 x with hx | hx
  · have hq : 0 ≤ x.tdiv t := Int.tdiv_nonneg hx (Int.natCast_nonneg t)
    rw [min_eq_right hq, Int.mul_zero]
    exact min_le_right x 0
  · have hdiv : x.tdiv t = -(-x / t) := by
      rw [← Int.tdiv_eq_ediv_of_nonneg (by omega), Int.neg_tdiv, Int.neg_neg]
    have hle := Int.ediv_mul_le (-x) (by omega : (t : Int) ≠ 0)
    have hnonneg : 0 ≤ -x / t := Int.ediv_nonneg (by omega) (by omega)
    rw [hdiv, min_eq_left hx.le, min_eq_left (by omega), Nat.cast_pred ht]
    linarith

/-- The block mode on a loop without iterations. -/
theorem block_of_not_within (h : info.step ≠ 0) (hchunk : info.chunk = 0) (ht : 0 < t)
    (hout : ¬ within info.upper info.step info.lower = true) : executed info t = some [] := by
  have hall : ∀ s ∈ submit info t, staticLoop s = some [] := by
    intro s hs
    unfold submit at hs
    simp only [hchunk, if_true] at hs
    rcases List.mem_cons.1 hs with rfl | hs
    · exact staticLoop_of_not_within hout
    · obtain ⟨hupper, hstep, m, hm, hlower⟩ := blockSlices_lower (t - 1) 0 0 (by simp) s
        (by simpa using hs)
      refine staticLoop_of_not_within ?_
      rw [hupper, hstep, hlower]
      rw [Nat.zero_add] at hm
      exact not_within_of_le h hout ((min_le_mul_tdiv _ ht).trans hm)
  have hrun := runAll_map (f := id) (submit info t) hall
  rw [List.map_id, List.flatMap_eq_nil_iff.2 fun _ _ => rfl] at hrun
  exact hrun

/-- The interleaved mode: the chunks are dealt out in turn. -/
theorem interleaved_distributes (h : info.step ≠ 0) (hchunk : 0 < info.chunk) (ht : 0 < t) :
    ∃ calls, executed info t = some calls ∧ Distributes info calls := by
  obtain ⟨n, hn⟩ : ∃ n, n = tripCount info.lower info.upper info.step := ⟨_, rfl⟩
  obtain ⟨k, hk⟩ : ∃ k : Nat, info.chunk = k := ⟨info.chunk.toNat, by omega⟩
  have hkpos : 0 < k := by omega
  have hdist := distributes_of_pieces h
    ((List.range t).flatMap fun w => (starts n (w * k) (t * k)).map fun i => (i, k))
  rw [← hn] at hdist
  refine ⟨_, ?_, hdist ?_ ?_⟩
  · simp only [List.map_flatMap, List.map_map, Function.comp_def]
    obtain ⟨u, rfl⟩ : ∃ u, t = u + 1 := ⟨t - 1, by omega⟩
    have hfirst := staticLoop_interleaved info.lower info.upper h hkpos ht info.last 0
    have hrest := runAll_interleavedSlices info.lower info.upper h hkpos ht info.last u 1
    rw [List.range_eq_range', List.range'_succ, List.flatMap_cons]
    unfold executed submit
    rw [if_neg (by omega), hk, hn]
    refine runAll_cons ?_ hrest
    simpa using hfirst
  · intro p hp
    obtain ⟨w, _, hp⟩ := List.mem_flatMap.1 hp
    obtain ⟨i, hi, rfl⟩ := List.mem_map.1 hp
    exact ((mem_starts (Nat.mul_pos ht hkpos)).1 hi).1
  · rw [← List.map_flatMap, List.flatMap_map]
    refine ((interleaved_starts hkpos ht n).flatMap_right _).trans (.of_eq ?_)
    rw [flatMap_piece_starts hkpos]

/-- For every loop, chunk size and number of valid threads, the work descriptors of the `static_for`
slicer execute every iteration once and nothing else, with the flag `last` set in the one range that
contains the final iteration. -/
theorem static_for_distributes (info : LoopInfo) (validThreads : Nat) (hstep : info.step ≠ 0)
    (hchunk : 0 ≤ info.chunk) (hthreads : 1 ≤ validThreads) :
    ∃ calls, executed info validThreads = some calls ∧ Distributes info calls := by
  rcases eq_or_lt_of_le hchunk with hzero | hpos
  · by_cases hin : within info.upper info.step info.lower = true
    · exact block_distributes hstep hzero.symm hthreads hin
    · refine ⟨[], block_of_not_within hstep hzero.symm hthreads hin, ?_⟩
      have hempty : iterations info.lower info.upper info.step = [] := by
        by_contra hne
        exact hin (within_of_iterations_ne_nil hne)
      refine ⟨by simp [hempty], fun v hv => ?_, fun _ => rfl⟩
      rw [hempty] at hv
      cases hv
  · exact interleaved_distributes hstep hpos hthreads

/-- Seven iterations downwards from 20 in steps of -3, in blocks for three threads: the first
work descriptor gets the odd one. -/
theorem static_for_distributes_downwards :
    executed ⟨20, 2, -3, false, 0, 0⟩ 3 = some [⟨20, 12, -3, false⟩, ⟨11, 6, -3, false⟩,
      ⟨5, 2, -3, true⟩] ∧
    ∃ calls, executed ⟨20, 2, -3, false, 0, 0⟩ 3 = some calls ∧
      Distributes ⟨20, 2, -3, false, 0, 0⟩ calls :=
  ⟨by decide, static_for_distributes _ 3 (by decide) (by decide) (by decide)⟩

end

end OmpSs.Loops
