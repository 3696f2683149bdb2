import OmpSs.Loops.EmptyLoop

/-!
# Overflow in the worksharing loops

`nextItem` of the dynamic and the guided plugin (`nanox-mx/src/plugins/worksharing/dynamic.cpp`,
`guided.cpp`) computes in `int64_t`. `nextItem64` has no result where one of its operations overflows. The
bound check of both compares multiples of the step where the static plugin compares multiples of its sign, so
the products of the bounds and the step have to fit, which are far larger than any value of the loop variable.
Two more computations leave the range of those values: the distance of a chunk from the lower bound, and for
the guided plugin the distance of the two bounds. The descriptors are those of `create64`, so a distance that
wraps around in `create` has left its chunks in them.

All the values that a call computes lie between those of the first and of the last chunk, so the exact
conditions (`DynamicFor.Computes`, `GuidedFor.Computes`) look at these two.
-/

namespace OmpSs.Loops

open Lib

/-! ## Overflow -/

/-- The bound check of both `nextItem`, with the check behind it in a build for debugging. Source:
`dynamic.cpp:94`, `guided.cpp:111`. -/
def checkBounds64 (debug : Bool) (data : WorkSharingLoopInfo) (item : WsItemLoop) : Option WsItemLoop :=
  (int64 (item.upper * data.loopStep)).bind fun upper =>
  (int64 (data.upperBound * data.loopStep)).bind fun bound =>
  let item := if upper > bound then { item with upper := data.upperBound } else item
  if debug then
    (int64 (item.lower * data.loopStep)).bind fun _ =>
    (int64 (item.upper * data.loopStep)).map fun _ => item
  else some item

section
variable {a b v : Int} {f : Int → Option α} {debug : Bool} {data : WorkSharingLoopInfo} {item : WsItemLoop}
  {j k m : Nat}

theorem isSome_bind_int64 : ((int64 v).bind f).isSome = true ↔ Fits64 v ∧ (f v).isSome = true := by
  unfold int64
  split
  · next h => exact (and_iff_right h).symm
  · next h => exact iff_of_false nofun fun hv => h hv.1

theorem isSome_map_int64 {g : Int → α} : ((int64 v).map g).isSome = true ↔ Fits64 v := by
  rw [Option.isSome_map, int64]
  split
  · next h => exact iff_of_true rfl h
  · next h => exact iff_of_false nofun h

theorem Fits64.between (ha : Fits64 a) (hb : Fits64 b) (h₁ : a ≤ v) (h₂ : v ≤ b) : Fits64 v :=
  ⟨ha.1.trans h₁, h₂.trans_lt hb.2⟩

/-- A smaller multiple fits. -/
theorem Fits64.mul_of_le (h : Fits64 (a * m)) (hk : k ≤ m) : Fits64 (a * k) := by
  have hzero : Fits64 0 := by decide
  have hk' : (k : Int) ≤ m := Nat.cast_le.2 hk
  rcases le_total 0 a with ha | ha
  · exact hzero.between h (mul_nonneg ha (Int.natCast_nonneg k)) (mul_le_mul_of_nonneg_left hk' ha)
  · exact h.between hzero (mul_le_mul_of_nonpos_left hk' ha)
      (mul_nonpos_of_nonpos_of_nonneg ha (Int.natCast_nonneg k))

/-- So does what lies on the way to a value of a progression. -/
theorem Fits64.add_mul_of_le (ha : Fits64 a) (h : Fits64 (a + m * b)) (hk : k ≤ m) : Fits64 (a + k * b) := by
  have hk' : (k : Int) ≤ m := Nat.cast_le.2 hk
  have hk0 := Int.natCast_nonneg k
  rcases le_total 0 b with hb | hb
  · exact ha.between h (le_add_of_nonneg_right (mul_nonneg hk0 hb))
      (Int.add_le_add_left (mul_le_mul_of_nonneg_right hk' hb) a)
  · exact h.between ha (Int.add_le_add_left (mul_le_mul_of_nonpos_right hk' hb) a)
      (add_le_of_nonpos_right (mul_nonpos_of_nonneg_of_nonpos hk0 hb))

/-- The products of the step and the values of the loop grow. -/
theorem product_le (h : j ≤ k) (lower step : Int) :
    (lower + j * step) * step ≤ (lower + k * step) * step := by
  have hsq := mul_le_mul_of_nonneg_right (Nat.cast_le (α := Int).2 h) (mul_self_nonneg step)
  have hring : ∀ m : Nat, (lower + m * step) * step = lower * step + m * (step * step) := by
    intro m
    ring
  rw [hring, hring]
  omega

/-- The check computes three products. -/
theorem isSome_checkBounds64_iff : (checkBounds64 debug data item).isSome = true ↔
    Fits64 (item.upper * data.loopStep) ∧ Fits64 (data.upperBound * data.loopStep) ∧
      (debug = true → Fits64 (item.lower * data.loopStep)) := by
  unfold checkBounds64
  rw [isSome_bind_int64, isSome_bind_int64]
  refine and_congr_right fun hupper => and_congr_right fun hbound => ?_
  cases debug with
  | false => simp
  | true =>
    rw [if_pos rfl, isSome_bind_int64, isSome_map_int64, forall_prop_of_true rfl]
    split
    · exact and_iff_left hbound
    · exact and_iff_left hupper

theorem int64_eq_some_iff {u : Int} : int64 v = some u ↔ Fits64 v ∧ v = u := by
  unfold int64
  split
  · next h => rw [Option.some_inj, and_iff_right h]
  · next h => exact iff_of_false nofun fun hv => h hv.1

end

/-- The lower and the upper bound fit, and so do all the values of the loop variable and those of one chunk
behind them. -/
structure WsInfoLoop.Fits (info : WsInfoLoop) : Prop where
  lower : Fits64 info.lower_bound
  upper : Fits64 info.upper_bound
  values : ∀ j : Nat,
    (j : Int) < tripCount info.lower_bound info.upper_bound info.loop_step + max info.chunk_size 1 →
      Fits64 (info.lower_bound + j * info.loop_step)

/-- What the bound checks of chunks with the given number of iterations in the first and in all of them
compute; the last chunk is not clipped before its check. -/
structure ProductsFit (debug : Bool) (info : WsInfoLoop) (first total : Int) : Prop where
  upper : Fits64 (info.upper_bound * info.loop_step)
  first : Fits64 ((info.lower_bound + (first - 1) * info.loop_step) * info.loop_step)
  last : Fits64 ((info.lower_bound + (total - 1) * info.loop_step) * info.loop_step)
  lower : debug = true → Fits64 (info.lower_bound * info.loop_step)

section
variable {info : WsInfoLoop} {debug : Bool} {first total j : Nat}

/-- The products of values between the end of the first chunk and that of the last one. -/
theorem ProductsFit.product (h : ProductsFit debug info (first + 1 : Nat) (total + 1 : Nat)) (hfirst : first ≤ j)
    (htotal : j ≤ total) : Fits64 ((info.lower_bound + j * info.loop_step) * info.loop_step) := by
  have hone : ∀ m : Nat, (((m + 1 : Nat) : Int) - 1) = m := fun m => by omega
  have hbegin := h.first
  have hend := h.last
  rw [hone] at hbegin hend
  exact hbegin.between hend (product_le hfirst _ _) (product_le htotal _ _)

/-- In a build for debugging, those of all values up to the end of the last chunk. -/
theorem ProductsFit.product_of_debug (h : ProductsFit debug info first (total + 1 : Nat)) (hd : debug = true)
    (htotal : j ≤ total) : Fits64 ((info.lower_bound + j * info.loop_step) * info.loop_step) := by
  have hone : (((total + 1 : Nat) : Int) - 1) = total := by omega
  have hend := h.last
  rw [hone] at hend
  refine (h.lower hd).between hend ?_ (product_le htotal _ _)
  simpa using product_le (Nat.zero_le j) info.lower_bound info.loop_step

end

/-! ## The dynamic plugin -/

namespace DynamicFor

/-- Source: `WorkSharingDynamicFor::nextItem` (`dynamic.cpp:78`), after `currentChunk++` has returned
`mychunk`. -/
def nextItem64 (debug : Bool) (data : WorkSharingLoopInfo) (mychunk : Nat) : Option (Option WsItemLoop) :=
  if (mychunk : Int) ≥ data.numOfChunks then some none
  else
    (int64 (data.chunkSize * data.loopStep)).bind fun chunk =>
    (int64 (chunk * mychunk)).bind fun offset =>
    (int64 (data.lowerBound + offset)).bind fun lower =>
    (int64 (lower + chunk)).bind fun past =>
    (int64 (past - data.loopStep)).bind fun upper =>
    (checkBounds64 debug data ⟨lower, upper⟩).map some

/-- The condition for chunks of `c` iterations, `count` of them. -/
structure Computes (debug : Bool) (info : WsInfoLoop) (c count : Int) : Prop where
  chunk : Fits64 (c * info.loop_step)
  offset : Fits64 (c * info.loop_step * (count - 1))
  past : iterations info.lower_bound info.upper_bound info.loop_step = [] →
    Fits64 (info.lower_bound + count * c * info.loop_step)
  products : ProductsFit debug info c (count * c)

section
variable {info : WsInfoLoop} {data : WorkSharingLoopInfo} {debug : Bool} {k c count : Nat}

theorem isSome_nextItem64_iff (hk : (k : Int) < data.numOfChunks) :
    (nextItem64 debug data k).isSome = true ↔ Fits64 (data.chunkSize * data.loopStep) ∧
      Fits64 (data.chunkSize * data.loopStep * k) ∧
      Fits64 (data.lowerBound + data.chunkSize * data.loopStep * k) ∧
      Fits64 (data.lowerBound + data.chunkSize * data.loopStep * k + data.chunkSize * data.loopStep) ∧
      Fits64 (data.lowerBound + data.chunkSize * data.loopStep * k + data.chunkSize * data.loopStep -
        data.loopStep) ∧
      Fits64 ((data.lowerBound + data.chunkSize * data.loopStep * k + data.chunkSize * data.loopStep -
        data.loopStep) * data.loopStep) ∧ Fits64 (data.upperBound * data.loopStep) ∧
      (debug = true → Fits64 ((data.lowerBound + data.chunkSize * data.loopStep * k) * data.loopStep)) := by
  rw [nextItem64, if_neg (by omega)]
  simp only [isSome_bind_int64, Option.isSome_map, isSome_checkBounds64_iff]

/-- The calls for all of at least one chunk. -/
theorem forall_isSome_nextItem64_iff {niters : Int} (hlower : Fits64 info.lower_bound) (hc : (descriptor info niters).chunkSize = (c + 1 : Nat))
    (hcount : (descriptor info niters).numOfChunks = (count + 1 : Nat)) :
    (∀ k, (nextItem64 debug (descriptor info niters) k).isSome = true) ↔
      Fits64 ((descriptor info niters).chunkSize * info.loop_step) ∧
      Fits64 ((descriptor info niters).chunkSize * info.loop_step * count) ∧
      Fits64 (info.lower_bound + ((count + 1) * (c + 1) : Nat) * info.loop_step) ∧
      ProductsFit debug info (c + 1 : Nat) (count * (c + 1) + c + 1 : Nat) := by
  -- the values at which chunk `k` begins, at which it ends, and behind it
  have hbegin : ∀ k : Nat, info.lower_bound + (descriptor info niters).chunkSize * info.loop_step * k =
      info.lower_bound + (k * (c + 1) : Nat) * info.loop_step := by
    intro k
    rw [hc]
    push_cast
    ring
  have hpast : ∀ k : Nat, info.lower_bound + (descriptor info niters).chunkSize * info.loop_step * k +
      (descriptor info niters).chunkSize * info.loop_step =
      info.lower_bound + ((k + 1) * (c + 1) : Nat) * info.loop_step := by
    intro k
    rw [hc]
    push_cast
    ring
  have hend : ∀ k : Nat, info.lower_bound + (descriptor info niters).chunkSize * info.loop_step * k +
      (descriptor info niters).chunkSize * info.loop_step - info.loop_step =
      info.lower_bound + (k * (c + 1) + c : Nat) * info.loop_step := by
    intro k
    rw [hc]
    push_cast
    ring
  have hin : ∀ k : Nat, (k : Int) < (descriptor info niters).numOfChunks ↔ k ≤ count := fun k => by omega
  have hiff : ∀ k ≤ count, (nextItem64 debug (descriptor info niters) k).isSome = true ↔
      Fits64 ((descriptor info niters).chunkSize * info.loop_step) ∧
      Fits64 ((descriptor info niters).chunkSize * info.loop_step * k) ∧
      Fits64 (info.lower_bound + (k * (c + 1) : Nat) * info.loop_step) ∧
      Fits64 (info.lower_bound + ((k + 1) * (c + 1) : Nat) * info.loop_step) ∧
      Fits64 (info.lower_bound + (k * (c + 1) + c : Nat) * info.loop_step) ∧
      Fits64 ((info.lower_bound + (k * (c + 1) + c : Nat) * info.loop_step) * info.loop_step) ∧
      Fits64 (info.upper_bound * info.loop_step) ∧
      (debug = true → Fits64 ((info.lower_bound + (k * (c + 1) : Nat) * info.loop_step) * info.loop_step)) := by
    intro k hk
    rw [isSome_nextItem64_iff ((hin k).2 hk), ← hend, ← hpast, ← hbegin]
    rfl
  have hone : ∀ m : Nat, (((m + 1 : Nat) : Int) - 1) = m := fun m => by omega
  constructor
  · intro h
    obtain ⟨-, -, -, -, -, hproduct, -, hdebug⟩ := (hiff 0 (Nat.zero_le _)).1 (h 0)
    obtain ⟨hchunk, hoffset, -, hafter, -, hproduct', hbound, -⟩ := (hiff count le_rfl).1 (h count)
    refine ⟨hchunk, hoffset, hafter, hbound, ?_, ?_, fun hd => ?_⟩
    · rw [hone]
      rwa [Nat.zero_mul, Nat.zero_add] at hproduct
    · rwa [hone]
    · have := hdebug hd
      rwa [Nat.zero_mul, Nat.cast_zero, Int.zero_mul, Int.add_zero] at this
  · rintro ⟨hchunk, hoffset, hafter, hproducts⟩ k
    by_cases hk : (k : Int) < (descriptor info niters).numOfChunks
    · have hle := (hin k).1 hk
      have hmul := Nat.mul_le_mul_right (c + 1) hle
      have hsucc := Nat.succ_mul count (c + 1)
      have hsucc' := Nat.succ_mul k (c + 1)
      rw [Nat.succ_eq_add_one] at hsucc hsucc'
      have hvalue : ∀ j ≤ (count + 1) * (c + 1), Fits64 (info.lower_bound + j * info.loop_step) :=
        fun j hj => hlower.add_mul_of_le hafter hj
      exact (hiff k hle).2 ⟨hchunk, hoffset.mul_of_le hle, hvalue _ (by omega), hvalue _ (by omega),
        hvalue _ (by omega), hproducts.product (by omega) (by omega), hproducts.upper,
        fun hd => hproducts.product_of_debug hd (by omega)⟩
    · rw [nextItem64, if_pos (by omega)]
      rfl

/-- Of a loop with iterations `create` counts as many as there are, or one at most where it overflows. -/
theorem niters64_le (hfits : info.Fits) {niters : Int}
    (hin : within info.upper_bound info.loop_step info.lower_bound = true) (h : niters64 info = some niters) :
    niters = (info.upper_bound - info.lower_bound).tdiv info.loop_step + 1 ∨ niters ≤ 1 := by
  have hstep : info.loop_step ≠ 0 := by
    intro hzero
    rw [niters64, if_pos (.inl hzero)] at h
    cases h
  have hsize := Int.natAbs_tdiv_le_natAbs (wrap64 (info.upper_bound - info.lower_bound)) info.loop_step
  obtain ⟨hlower, hupper, -⟩ := hfits
  unfold niters64 at h
  dsimp only at h
  split at h
  · cases h
  have h := Option.some.inj h
  by_cases hdistance : Fits64 (info.upper_bound - info.lower_bound)
  · rw [wrap64_of_fits hdistance] at h hsize
    by_cases hniters : Fits64 ((info.upper_bound - info.lower_bound).tdiv info.loop_step + 1)
    · rw [wrap64_of_fits hniters] at h
      exact .inl h.symm
    · -- the count is 2^63 or one more
      unfold Fits64 at hdistance hniters
      unfold wrap64 at h
      omega
  · -- the distance wraps around to one in the wrong order
    have hnonpos : (wrap64 (info.upper_bound - info.lower_bound)).tdiv info.loop_step ≤ 0 := by
      unfold Fits64 at hlower hupper hdistance
      unfold within at hin
      split at hin
      · have hin := of_decide_eq_true hin
        have hwrap : 0 ≤ wrap64 (info.upper_bound - info.lower_bound) := by
          unfold wrap64
          omega
        exact Int.tdiv_nonpos_of_nonneg_of_nonpos hwrap (by omega)
      · have hin := of_decide_eq_true hin
        have hwrap : 0 ≤ -wrap64 (info.upper_bound - info.lower_bound) := by
          unfold wrap64
          omega
        have := Int.tdiv_nonneg hwrap (b := info.loop_step) (by omega)
        rw [Int.neg_tdiv] at this
        omega
    generalize (wrap64 (info.upper_bound - info.lower_bound)).tdiv info.loop_step = q at h hsize hnonpos
    have hfits : (wrap64 (info.upper_bound - info.lower_bound)).natAbs ≤ 9223372036854775808 := by
      unfold wrap64
      omega
    rw [wrap64_of_fits] at h
    · omega
    · unfold Fits64
      omega

/-- A count of at most one makes at most one chunk. -/
theorem numOfChunks_le_one {niters : Int} (h : niters ≤ 1) : (descriptor info niters).numOfChunks ≤ 1 := by
  have hc : 1 ≤ max info.chunk_size 1 := le_max_right _ _
  unfold descriptor
  dsimp only
  generalize max info.chunk_size 1 = c at hc ⊢
  rcases h.lt_or_eq with hlt | rfl
  · have hquot : 0 ≤ (-niters).tdiv c := Int.tdiv_nonneg (by omega) (by omega)
    rw [Int.neg_tdiv] at hquot
    split <;> omega
  · rcases hc.eq_or_lt with rfl | hlarge
    · decide
    · rw [Int.tdiv_eq_zero_of_lt (by decide) hlarge]
      split <;> omega

/-- The chunks of a loop with iterations go at most one chunk beyond its end. -/
theorem numOfChunks_mul_le (hfits : info.Fits) {niters : Int}
    (hne : iterations info.lower_bound info.upper_bound info.loop_step ≠ [])
    (h : niters64 info = some niters) (hcount : (descriptor info niters).numOfChunks = (count + 1 : Nat))
    (hc : (descriptor info niters).chunkSize = (c + 1 : Nat)) :
    (count + 1) * (c + 1) < tripCount info.lower_bound info.upper_bound info.loop_step + (c + 1) := by
  have hin := within_of_iterations_ne_nil hne
  have hstep : info.loop_step ≠ 0 := by
    intro hzero
    rw [niters64, if_pos (.inl hzero)] at h
    cases h
  have hpos : 0 < tripCount info.lower_bound info.upper_bound info.loop_step := by
    rw [tripCount, if_pos hin]
    exact Nat.succ_pos _
  rcases niters64_le hfits hin h with rfl | hle
  · have hN : ((count + 1 : Nat) : Int) = _ := hcount.symm.trans (numOfChunks_create hstep hin hc rfl)
    have hmul := Nat.div_mul_le_self
      (tripCount info.lower_bound info.upper_bound info.loop_step + (c + 1) - 1) (c + 1)
    rw [← Int.ofNat_inj.1 hN] at hmul
    omega
  · have hone : (descriptor info niters).numOfChunks ≤ 1 := numOfChunks_le_one hle
    obtain rfl : count = 0 := by omega
    omega

/-- For every loop with the values the loop variable takes and those of one chunk more in range. -/
theorem forall_isSome_iff (info : WsInfoLoop) (hfits : info.Fits) (debug : Bool)
    (hdata : create64 info = some data) :
    (∀ k, (nextItem64 debug data k).isSome = true) ↔
      0 < data.numOfChunks → Computes debug info data.chunkSize data.numOfChunks := by
  obtain ⟨niters, hniters, rfl⟩ := Option.map_eq_some_iff.1 hdata
  rcases lt_or_ge 0 (descriptor info niters).numOfChunks with hpos | hnone
  · obtain ⟨count, hcount⟩ : ∃ count : Nat, (descriptor info niters).numOfChunks = (count + 1 : Nat) :=
      ⟨((descriptor info niters).numOfChunks - 1).toNat, by omega⟩
    obtain ⟨c, hc⟩ : ∃ c : Nat, (descriptor info niters).chunkSize = (c + 1 : Nat) := by
      have hone : 1 ≤ (descriptor info niters).chunkSize := le_max_right _ _
      exact ⟨((descriptor info niters).chunkSize - 1).toNat, by omega⟩
    have htotal : (descriptor info niters).numOfChunks * (descriptor info niters).chunkSize =
        ((count + 1) * (c + 1) : Nat) := by
      rw [hcount, hc]
      push_cast
      rfl
    have hpred : (descriptor info niters).numOfChunks - 1 = count := by omega
    have hlast : count * (c + 1) + c + 1 = (count + 1) * (c + 1) := by ring
    rw [forall_isSome_nextItem64_iff hfits.lower hc hcount, forall_prop_of_true hpos, hlast, ← htotal, ← hpred,
      ← hc]
    constructor
    · rintro ⟨hchunk, hoffset, hpast, hproducts⟩
      exact ⟨hchunk, hoffset, fun _ => hpast, hproducts⟩
    rintro ⟨hchunk, hoffset, hpast, hproducts⟩
    refine ⟨hchunk, hoffset, ?_, hproducts⟩
    by_cases hnil : iterations info.lower_bound info.upper_bound info.loop_step = []
    · exact hpast hnil
    · have hmul := numOfChunks_mul_le hfits hnil hniters hcount hc
      have hmax : max info.chunk_size 1 = (c + 1 : Nat) := hc
      rw [htotal]
      refine hfits.values _ ?_
      rw [hmax]
      omega
  · refine iff_of_true (fun k => ?_) fun h => absurd h (by omega)
    rw [nextItem64, if_pos (by omega)]
    rfl

end

end DynamicFor

/-! ## The guided plugin -/

namespace GuidedFor

/-- The loop of `nextItem` over the previous chunks. -/
def previous64 (data : WorkSharingLoopInfo) (guided_divisor : Int) : Nat → Option (Int × Int)
  | 0 =>
    (int64 (data.upperBound - data.lowerBound)).bind fun distance =>
    (int64 (distance.tdiv data.loopStep)).bind fun quotient =>
    (int64 (quotient + 1)).map fun niters => (niters, data.lowerBound)
  | i + 1 =>
    (previous64 data guided_divisor i).bind fun (niters, lower) =>
    let current := max (niters.tdiv guided_divisor) data.chunkSize
    (int64 (niters - current)).bind fun niters =>
    (int64 (current * data.loopStep)).bind fun offset =>
    (int64 (lower + offset)).map fun lower => (niters, lower)

/-- Source: `WorkSharingGuidedFor::nextItem` (`guided.cpp:83`), after `currentChunk++` has returned
`mychunk`. -/
def nextItem64 (debug : Bool) (data : WorkSharingLoopInfo) (mychunk : Nat) : Option (Option WsItemLoop) :=
  if (mychunk : Int) ≥ data.numOfChunks then some none
  else
    (int64 (data.numParticipants * GUIDED_FACTOR)).bind fun guided_divisor =>
    (previous64 data guided_divisor mychunk).bind fun (niters, lower) =>
    (int64 (max (niters.tdiv guided_divisor) data.chunkSize * data.loopStep)).bind fun size =>
    (int64 (lower + size)).bind fun past =>
    (int64 (past - data.loopStep)).bind fun upper =>
    (checkBounds64 debug data ⟨lower, upper⟩).map some

/-- The iterations of the first `k` chunks. -/
def chunkStart (data : WorkSharingLoopInfo) (k : Nat) : Int := ((List.range k).map (chunkAt data)).sum

/-- The condition for the chunks that are counted in `numOfChunks`. -/
structure Computes (debug : Bool) (info : WsInfoLoop) (data : WorkSharingLoopInfo) : Prop where
  divisor : Fits64 (data.numParticipants * GUIDED_FACTOR)
  distance : Fits64 (info.upper_bound - info.lower_bound)
  niters : Fits64 ((info.upper_bound - info.lower_bound).tdiv info.loop_step + 1)
  size : Fits64 (chunkAt data 0 * info.loop_step)
  past : iterations info.lower_bound info.upper_bound info.loop_step = [] →
    Fits64 (info.lower_bound + chunkStart data data.numOfChunks.toNat * info.loop_step)
  products : ProductsFit debug info (chunkAt data 0) (chunkStart data data.numOfChunks.toNat)

section
variable {info : WsInfoLoop} {data : WorkSharingLoopInfo} {debug : Bool} {k c count : Nat}

theorem previous64_eq_some_iff {p : Int × Int} :
    previous64 data (data.numParticipants * GUIDED_FACTOR) k = some p ↔
      (Fits64 (data.upperBound - data.lowerBound) ∧
        Fits64 ((data.upperBound - data.lowerBound).tdiv data.loopStep) ∧
        Fits64 ((data.upperBound - data.lowerBound).tdiv data.loopStep + 1)) ∧
      (∀ i < k, Fits64 (previous data (i + 1)).1 ∧ Fits64 (chunkAt data i * data.loopStep) ∧
        Fits64 (previous data (i + 1)).2) ∧ previous data k = p := by
  induction k generalizing p with
  | zero =>
    simp only [previous64, Option.bind_eq_some_iff, Option.map_eq_some_iff, int64_eq_some_iff]
    constructor
    · rintro ⟨-, ⟨hdistance, rfl⟩, -, ⟨hquotient, rfl⟩, -, ⟨hniters, rfl⟩, rfl⟩
      exact ⟨⟨hdistance, hquotient, hniters⟩, fun i hi => absurd hi (Nat.not_lt_zero i), rfl⟩
    · rintro ⟨⟨hdistance, hquotient, hniters⟩, -, rfl⟩
      exact ⟨_, ⟨hdistance, rfl⟩, _, ⟨hquotient, rfl⟩, _, ⟨hniters, rfl⟩, rfl⟩
  | succ k ih =>
    simp only [previous64, Option.bind_eq_some_iff, Option.map_eq_some_iff, int64_eq_some_iff, ih]
    constructor
    · rintro ⟨-, ⟨hbase, hbefore, rfl⟩, -, ⟨hniters, rfl⟩, -, ⟨hsize, rfl⟩, -, ⟨hlower, rfl⟩, rfl⟩
      refine ⟨hbase, fun i hi => ?_, rfl⟩
      rcases Nat.lt_succ_iff_lt_or_eq.1 hi with hi | rfl
      · exact hbefore i hi
      · exact ⟨hniters, hsize, hlower⟩
    · rintro ⟨hbase, hbefore, rfl⟩
      obtain ⟨hniters, hsize, hlower⟩ := hbefore k (Nat.lt_succ_self k)
      exact ⟨_, ⟨hbase, fun i hi => hbefore i (hi.trans (Nat.lt_succ_self k)), rfl⟩, _, ⟨hniters, rfl⟩, _,
        ⟨hsize, rfl⟩, _, ⟨hlower, rfl⟩, rfl⟩

theorem isSome_nextItem64_iff (hk : (k : Int) < data.numOfChunks) :
    (nextItem64 debug data k).isSome = true ↔ Fits64 (data.numParticipants * GUIDED_FACTOR) ∧
      (Fits64 (data.upperBound - data.lowerBound) ∧
        Fits64 ((data.upperBound - data.lowerBound).tdiv data.loopStep) ∧
        Fits64 ((data.upperBound - data.lowerBound).tdiv data.loopStep + 1)) ∧
      (∀ i < k, Fits64 (previous data (i + 1)).1 ∧ Fits64 (chunkAt data i * data.loopStep) ∧
        Fits64 (previous data (i + 1)).2) ∧
      Fits64 (chunkAt data k * data.loopStep) ∧ Fits64 (previous data (k + 1)).2 ∧
      Fits64 ((previous data (k + 1)).2 - data.loopStep) ∧
      Fits64 (((previous data (k + 1)).2 - data.loopStep) * data.loopStep) ∧
      Fits64 (data.upperBound * data.loopStep) ∧
      (debug = true → Fits64 ((previous data k).2 * data.loopStep)) := by
  have hbind : ∀ {o : Option (Int × Int)} {f : Int × Int → Option (Option WsItemLoop)},
      (o.bind f).isSome = true ↔ ∃ p, o = some p ∧ (f p).isSome = true := by
    intro o f
    cases o <;> simp
  rw [nextItem64, if_neg (by omega), isSome_bind_int64, hbind]
  simp only [previous64_eq_some_iff, isSome_bind_int64, Option.isSome_map, isSome_checkBounds64_iff]
  refine and_congr_right fun _ => ⟨?_, ?_⟩
  · rintro ⟨-, ⟨hbase, hbefore, rfl⟩, hchunk⟩
    exact ⟨hbase, hbefore, hchunk⟩
  · rintro ⟨hbase, hbefore, hchunk⟩
    exact ⟨_, ⟨hbase, hbefore, rfl⟩, hchunk⟩

/-! ## The series of chunks -/

theorem chunkStart_succ (data : WorkSharingLoopInfo) (k : Nat) :
    chunkStart data (k + 1) = chunkStart data k + chunkAt data k := by
  rw [chunkStart, List.range_succ, List.map_append, List.sum_append, List.map_singleton, List.sum_singleton]
  rfl

theorem previous_eq_chunkStart (data : WorkSharingLoopInfo) (k : Nat) : previous data k =
    ((data.upperBound - data.lowerBound).tdiv data.loopStep + 1 - chunkStart data k,
      data.lowerBound + chunkStart data k * data.loopStep) := by
  induction k with
  | zero => simp [previous, chunkStart]
  | succ k ih =>
    rw [previous_succ, chunkStart_succ, ih]
    refine Prod.ext ?_ ?_
    · dsimp only
      ring
    · dsimp only
      ring

theorem chunkStart_mono (hchunk : 1 ≤ data.chunkSize) {j : Nat} (h : j ≤ k) :
    chunkStart data j ≤ chunkStart data k := by
  induction k, h using Nat.le_induction with
  | base => exact le_rfl
  | succ k _ ih =>
    have := one_le_chunkAt hchunk k
    rw [chunkStart_succ]
    omega

/-- The first chunk is the largest. -/
theorem chunkAt_le (hchunk : 1 ≤ data.chunkSize) (hdivisor : 0 < data.numParticipants * GUIDED_FACTOR)
    (k : Nat) : chunkAt data k ≤ chunkAt data 0 := by
  refine max_le_max_right _ (Int.tdiv_le_tdiv hdivisor ?_)
  have := chunkStart_mono hchunk (Nat.zero_le k)
  rw [previous_eq_chunkStart, previous_eq_chunkStart]
  exact Int.sub_le_sub_left this _


/-- The calls for all of at least one chunk, the last of which begins before the iterations are used up. -/
theorem forall_isSome_nextItem64_iff (hlower : Fits64 data.lowerBound) (hdata : data.lowerBound = info.lower_bound)
    (hupper : data.upperBound = info.upper_bound) (hstep : data.loopStep = info.loop_step)
    (hchunk : 1 ≤ data.chunkSize) (hdivisor : 0 < data.numParticipants * GUIDED_FACTOR)
    (hcount : data.numOfChunks = (count + 1 : Nat)) (hleft : 0 < (previous data count).1) :
    (∀ k, (nextItem64 debug data k).isSome = true) ↔
      Fits64 (data.numParticipants * GUIDED_FACTOR) ∧ Fits64 (data.upperBound - data.lowerBound) ∧
      Fits64 ((data.upperBound - data.lowerBound).tdiv data.loopStep + 1) ∧
      Fits64 (chunkAt data 0 * data.loopStep) ∧
      Fits64 (data.lowerBound + chunkStart data (count + 1) * data.loopStep) ∧
      ProductsFit debug info (chunkAt data 0) (chunkStart data (count + 1)) := by
  have hone := one_le_chunkAt hchunk
  obtain ⟨a, ha⟩ : ∃ a : Nat → Nat, ∀ k, chunkAt data k = (a k + 1 : Nat) :=
    ⟨fun k => (chunkAt data k - 1).toNat, fun k => by have := hone k; dsimp only; omega⟩
  obtain ⟨e, he⟩ : ∃ e : Nat → Nat, ∀ k, chunkStart data k = e k :=
    ⟨fun k => (chunkStart data k).toNat, fun k => by
      have := chunkStart_mono hchunk (Nat.zero_le k)
      rw [show chunkStart data 0 = 0 from rfl] at this
      dsimp only
      omega⟩
  have hsucc : ∀ k, e (k + 1) = e k + (a k + 1) := fun k => by
    have := chunkStart_succ data k
    rw [he, he, ha] at this
    omega
  have hzero : e 0 = 0 := by
    have := he 0
    rw [show chunkStart data 0 = 0 from rfl] at this
    omega
  have hmono : ∀ {j k}, j ≤ k → e j ≤ e k := fun h => by
    have := chunkStart_mono hchunk h
    rw [he, he] at this
    omega
  have hprevious := previous_eq_chunkStart data
  simp only [he] at hprevious
  have hend : ∀ k, (previous data (k + 1)).2 - data.loopStep =
      data.lowerBound + (e k + a k : Nat) * data.loopStep := by
    intro k
    rw [hprevious, hsucc]
    push_cast
    ring
  have hin : ∀ k : Nat, (k : Int) < data.numOfChunks ↔ k ≤ count := fun k => by omega
  have hlast : chunkStart data (count + 1) = (e count + a count + 1 : Nat) := by
    rw [he, hsucc]
    rfl
  have hcast : ∀ m : Nat, (((m + 1 : Nat) : Int) - 1) = m := fun m => by omega
  rw [hlast, ha 0]
  constructor
  · intro h
    obtain ⟨hdiv, ⟨hdistance, -, hniters⟩, -, hsize, -, -, hproduct, hbound, hdebug⟩ :=
      (isSome_nextItem64_iff ((hin 0).2 (Nat.zero_le _))).1 (h 0)
    obtain ⟨-, -, -, -, hpast, -, hproduct', -, -⟩ := (isSome_nextItem64_iff ((hin count).2 le_rfl)).1 (h count)
    rw [hend] at hproduct hproduct'
    rw [hzero, Nat.zero_add] at hproduct
    rw [hprevious, hsucc] at hpast
    refine ⟨hdiv, hdistance, hniters, ha 0 ▸ hsize, hpast, ?_, ?_, ?_, fun hd => ?_⟩
    · rwa [hupper, hstep] at hbound
    · rwa [hcast, ← hdata, ← hstep]
    · rwa [hcast, ← hdata, ← hstep]
    · have := hdebug hd
      rwa [show (previous data 0).2 = data.lowerBound from rfl, hdata, hstep] at this
  · rintro ⟨hdiv, hdistance, hniters, hsize, hpast, hproducts⟩ k
    by_cases hk : (k : Int) < data.numOfChunks
    · have hle := (hin k).1 hk
      have hleft' := hleft
      rw [hprevious] at hleft'
      dsimp only at hleft'
      have hvalue : ∀ j ≤ e count + a count + 1, Fits64 (data.lowerBound + j * data.loopStep) := fun j hj =>
        hlower.add_mul_of_le hpast hj
      have hsmaller : ∀ i, Fits64 (chunkAt data i * data.loopStep) := fun i => by
        have hfirst := chunkAt_le hchunk hdivisor i
        rw [ha, ha] at hfirst
        rw [Int.mul_comm] at hsize ⊢
        rw [ha]
        exact hsize.mul_of_le (by omega)
      have hbefore : ∀ {i}, i < k → e (i + 1) ≤ e count := fun hi => hmono (by omega)
      have hnext := hmono (Nat.succ_le_succ hle)
      have hsucc' := hsucc k
      have hsucc'' := hsucc count
      rw [Nat.succ_eq_add_one, Nat.succ_eq_add_one] at hnext
      have hfits0 : Fits64 0 := by decide
      rw [isSome_nextItem64_iff hk, hend]
      refine ⟨hdiv, ⟨hdistance, hfits0.between hniters (by omega) (by omega), hniters⟩,
        fun i hi => ⟨?_, hsmaller i, ?_⟩, hsmaller k, ?_, hvalue _ (by omega), ?_, ?_, fun hd => ?_⟩
      · have := hbefore hi
        rw [hprevious]
        exact hfits0.between hniters (by dsimp only; omega) (by dsimp only; omega)
      · have := hbefore hi
        rw [hprevious]
        exact hvalue _ (by omega)
      · rw [hprevious]
        exact hvalue _ (by omega)
      · have hfirst := hmono (Nat.succ_le_succ (Nat.zero_le k))
        have := hsucc 0
        rw [Nat.succ_eq_add_one, Nat.succ_eq_add_one] at hfirst
        rw [hdata, hstep]
        exact hproducts.product (by omega) (by omega)
      · rw [hupper, hstep]
        exact hproducts.upper
      · rw [hprevious, hdata, hstep]
        exact hproducts.product_of_debug hd (by omega)
    · rw [nextItem64, if_pos (by omega)]
      rfl

/-- Where no operation of `create` overflows. -/
theorem forall_isSome_create_iff (info : WsInfoLoop) (hstep : info.loop_step ≠ 0) (hfits : info.Fits)
    {num_participants : Nat} (hparticipants : 1 ≤ num_participants) (debug : Bool) :
    ∃ data, create info num_participants = some data ∧
      ((∀ k, (nextItem64 debug data k).isSome = true) ↔ 0 < data.numOfChunks → Computes debug info data) := by
  have hchunk : 1 ≤ (initial info num_participants).chunkSize := le_max_right _ _
  obtain ⟨N, hcount, -, hN⟩ := countChunks_eq hchunk
    (previous (initial info num_participants) 0).1.toNat 0 (Int.self_le_toNat _)
  have hdivisor : 0 < (num_participants : Int) * GUIDED_FACTOR := by
    unfold GUIDED_FACTOR
    omega
  refine ⟨{ initial info num_participants with numOfChunks := N }, ?_, ?_⟩
  · rw [create]
    simp only [if_neg hdivisor.ne']
    rw [Option.map_eq_some_iff]
    exact ⟨N, hcount, rfl⟩
  · have hseries : ∀ k, k < N ↔
        0 < (previous { initial info num_participants with numOfChunks := N } k).1 := by
      intro k
      rw [previous_numOfChunks]
      exact hN k (Nat.zero_le k)
    generalize hdata : { initial info num_participants with numOfChunks := (N : Int) } = data at hseries ⊢
    have hnum : data.numOfChunks = N := by rw [← hdata]
    have hlower : data.lowerBound = info.lower_bound := by rw [← hdata]; rfl
    have hupper : data.upperBound = info.upper_bound := by rw [← hdata]; rfl
    have hloopStep : data.loopStep = info.loop_step := by rw [← hdata]; rfl
    have hsize : data.chunkSize = max info.chunk_size 1 := by rw [← hdata]; rfl
    have hparts : data.numParticipants = num_participants := by rw [← hdata]; rfl
    cases N with
    | zero =>
      refine iff_of_true (fun k => ?_) fun h => absurd h (by omega)
      rw [nextItem64, if_pos (by omega)]
      rfl
    | succ count =>
      have hleft := (hseries count).1 (Nat.lt_succ_self count)
      have hpos : (0 : Int) < data.numOfChunks := by omega
      have htoNat : data.numOfChunks.toNat = count + 1 := by omega
      rw [forall_isSome_nextItem64_iff (hlower ▸ hfits.lower) hlower hupper hloopStep (by omega)
        (hparts ▸ hdivisor) hnum hleft, forall_prop_of_true hpos, hlower, hupper, hloopStep, ← htoNat]
      constructor
      · rintro ⟨hdiv, hdistance, hniters, hfirst, hpast, hproducts⟩
        exact ⟨hdiv, hdistance, hniters, hfirst, fun _ => hpast, hproducts⟩
      rintro ⟨hdiv, hdistance, hniters, hfirst, hpast, hproducts⟩
      refine ⟨hdiv, hdistance, hniters, hfirst, ?_, hproducts⟩
      by_cases hnil : iterations info.lower_bound info.upper_bound info.loop_step = []
      · exact hpast hnil
      · -- the last chunk has at most as many iterations as are left, or the size that is asked for
        have hniters' := tdiv_add_one_eq hstep (within_of_iterations_ne_nil hnil)
        have hstart : chunkStart data 0 ≤ chunkStart data (count + 1) :=
          chunkStart_mono (by omega) (Nat.zero_le (count + 1))
        rw [show chunkStart data 0 = 0 from rfl] at hstart
        obtain ⟨e, he⟩ : ∃ e : Nat, chunkStart data (count + 1) = e :=
          ⟨(chunkStart data (count + 1)).toNat, by omega⟩
        have hlast := chunkStart_succ data count
        rw [previous_eq_chunkStart, hlower, hupper, hloopStep, hniters'] at hleft
        have hquot := Int.tdiv_le_self (data.numParticipants * GUIDED_FACTOR) hleft.le
        have hat : chunkAt data count = max _ data.chunkSize := rfl
        rw [previous_eq_chunkStart, hlower, hupper, hloopStep, hniters', hsize] at hat
        rw [htoNat, he]
        refine hfits.values e ?_
        dsimp only at hleft hquot hat
        omega

/-- What overflows nowhere is the descriptor over exact integers. -/
theorem create64_eq (hstep : info.loop_step ≠ 0) {num_participants : Nat} (hparticipants : 1 ≤ num_participants)
    (hdivisor : Fits64 (num_participants * GUIDED_FACTOR))
    (hdistance : Fits64 (info.upper_bound - info.lower_bound))
    (hniters : Fits64 ((info.upper_bound - info.lower_bound).tdiv info.loop_step + 1)) :
    create64 info num_participants = create info num_participants := by
  have hpos : ¬ (num_participants : Int) * GUIDED_FACTOR = 0 := by
    unfold GUIDED_FACTOR
    omega
  rw [create64, create, niters64_of_fits hstep hdistance hniters, Option.bind_some, wrap64_of_fits hdivisor]
  rw [if_neg (fun h => hpos h.2), if_neg hpos]

/-- For every loop with the values the loop variable takes and those of one chunk more in range. -/
theorem forall_isSome_iff (info : WsInfoLoop) (hfits : info.Fits) {num_participants : Nat} (debug : Bool)
    (hdata : create64 info num_participants = some data) :
    (∀ k, (nextItem64 debug data k).isSome = true) ↔ 0 < data.numOfChunks → Computes debug info data := by
  obtain ⟨niters, hniters, hcreate⟩ := Option.bind_eq_some_iff.1 hdata
  have hstep : info.loop_step ≠ 0 := by
    intro hzero
    rw [niters64, if_pos (.inl hzero)] at hniters
    cases hniters
  rcases lt_or_ge 0 data.numOfChunks with hpos | hnone
  · rw [forall_prop_of_true hpos]
    have hcounted : 0 < niters := by
      have := numOfChunks_create64 hniters hdata
      omega
    split at hcreate
    · cases hcreate
    next hdivisor =>
    have hparticipants : 1 ≤ num_participants := by
      by_contra hnone
      obtain rfl : num_participants = 0 := by omega
      exact hdivisor ⟨hcounted, rfl⟩
    have hfields : data.numParticipants = num_participants ∧ data.lowerBound = info.lower_bound ∧
        data.upperBound = info.upper_bound ∧ data.loopStep = info.loop_step := by
      obtain ⟨N, -, rfl⟩ := Option.map_eq_some_iff.1 hcreate
      exact ⟨rfl, rfl, rfl, rfl⟩
    obtain ⟨hparts, hlower, hupper, hloopStep⟩ := hfields
    have hexact : Fits64 (num_participants * GUIDED_FACTOR) →
        Fits64 (info.upper_bound - info.lower_bound) →
        Fits64 ((info.upper_bound - info.lower_bound).tdiv info.loop_step + 1) →
        ((∀ k, (nextItem64 debug data k).isSome = true) ↔ Computes debug info data) := by
      intro hdivisor hdistance hcount
      rw [create64_eq hstep hparticipants hdivisor hdistance hcount] at hdata
      obtain ⟨data', hdata', hiff⟩ := forall_isSome_create_iff info hstep hfits hparticipants debug
      obtain rfl := Option.some.inj (hdata.symm.trans hdata')
      rwa [forall_prop_of_true hpos] at hiff
    constructor
    · intro h
      obtain ⟨hdivisor, ⟨hdistance, -, hcount⟩, -⟩ := (isSome_nextItem64_iff (k := 0) (by omega)).1 (h 0)
      rw [hparts] at hdivisor
      rw [hlower, hupper] at hdistance
      rw [hlower, hupper, hloopStep] at hcount
      exact (hexact hdivisor hdistance hcount).1 h
    · intro h
      exact (hexact (hparts ▸ h.divisor) h.distance h.niters).2 h
  · refine iff_of_true (fun k => ?_) fun h => absurd h (by omega)
    rw [nextItem64, if_pos (by omega)]
    rfl

end

end GuidedFor

/-- In no call of `nextItem` on a descriptor that `create` fills in does an operation overflow, if and only if
what the first and the last of the chunks it counts compute fits. -/
theorem nextItem_no_overflow_iff (info : WsInfoLoop) (hfits : info.Fits) (num_participants : Nat) (debug : Bool) :
    (∀ data, DynamicFor.create64 info = some data →
        ((∀ k, (DynamicFor.nextItem64 debug data k).isSome = true) ↔
          0 < data.numOfChunks → DynamicFor.Computes debug info data.chunkSize data.numOfChunks)) ∧
      ∀ data, GuidedFor.create64 info num_participants = some data →
        ((∀ k, (GuidedFor.nextItem64 debug data k).isSome = true) ↔
          0 < data.numOfChunks → GuidedFor.Computes debug info data) :=
  ⟨fun _ => DynamicFor.forall_isSome_iff info hfits debug, fun _ => GuidedFor.forall_isSome_iff info hfits debug⟩

theorem fits_five_iterations : (WsInfoLoop.mk 0 9 2 2).Fits where
  lower := by decide
  upper := by decide
  values j hj := by
    have hcount : tripCount 0 9 2 = 5 := by decide
    rw [hcount] at hj
    unfold Fits64
    dsimp only at hj ⊢
    omega

/-- The loop from 0 to 9 in steps of 2, among two participants. -/
theorem nextItem_no_overflow_five_iterations :
    (∃ data, DynamicFor.create64 ⟨0, 9, 2, 2⟩ = some data ∧
        ∀ k, (DynamicFor.nextItem64 true data k).isSome = true) ∧
      ∃ data, GuidedFor.create64 ⟨0, 9, 2, 2⟩ 2 = some data ∧
        ∀ k, (GuidedFor.nextItem64 true data k).isSome = true := by
  obtain ⟨hdynamic, hguided⟩ := nextItem_no_overflow_iff ⟨0, 9, 2, 2⟩ fits_five_iterations 2 true
  have hdata : DynamicFor.create64 ⟨0, 9, 2, 2⟩ = some ⟨0, 9, 2, 2, 3, 0⟩ := by decide
  have hdata' : GuidedFor.create64 ⟨0, 9, 2, 2⟩ 2 = some ⟨0, 9, 2, 2, 3, 2⟩ := by decide
  refine ⟨⟨_, hdata, (hdynamic _ hdata).2 fun _ => ⟨by decide, by decide, by decide, ?_⟩⟩, _, hdata',
    (hguided _ hdata').2 fun _ => ?_⟩
  · exact ⟨by decide, by decide, by decide, by decide⟩
  · exact ⟨by decide, by decide, by decide, by decide, by decide, by decide, by decide, by decide, by decide⟩

/-- From 0 to 2^62 in steps of 4: the bound times the step is 2^64. -/
theorem nextItem_overflows :
    (WsInfoLoop.mk 0 4611686018427387904 4 1).Fits ∧
      (DynamicFor.create64 ⟨0, 4611686018427387904, 4, 1⟩).bind (DynamicFor.nextItem64 false · 0) = none ∧
      ¬ ∀ data, DynamicFor.create64 ⟨0, 4611686018427387904, 4, 1⟩ = some data →
        ∀ k, (DynamicFor.nextItem64 false data k).isSome = true := by
  have hdata : DynamicFor.create64 ⟨0, 4611686018427387904, 4, 1⟩ =
      some ⟨0, 4611686018427387904, 4, 1, 1152921504606846977, 0⟩ := by decide
  have hnone : (DynamicFor.create64 ⟨0, 4611686018427387904, 4, 1⟩).bind (DynamicFor.nextItem64 false · 0) = none := by
    decide
  refine ⟨⟨by decide, by decide, fun j hj => ?_⟩, hnone, fun h => ?_⟩
  · have hcount : tripCount 0 4611686018427387904 4 = 1152921504606846977 := by decide
    rw [hcount] at hj
    unfold Fits64
    dsimp only at hj ⊢
    omega
  · have hsome := h _ hdata 0
    rw [hdata, Option.bind_some] at hnone
    rw [hnone] at hsome
    cases hsome

end OmpSs.Loops
