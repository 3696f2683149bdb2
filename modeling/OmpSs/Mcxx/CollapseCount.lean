import OmpSs.Lib.LoopCount
import OmpSs.Mcxx.Cexpr
import OmpSs.Mcxx.LoopCollapse

/-!
# The number of elements of a collapsed loop in machine arithmetic

The number of elements that `compute_collapse_statements` generates for a loop
(`mcxx/src/tl/hlt/hlt-loop-collapse.cpp:248`) is evaluated in C, in the types of the bounds and of the step:
`(upper - lower + step) / step`, or zero where that is negative. Over exact integers this is the number of
iterations (`num_elements_eq`). Here the induction variable and the bounds are of type `int` or `unsigned`,
and the step is of one of these types too.

With `int` alone the count is right unless it overflows. As soon as a type is `unsigned` nothing is negative:
the count of a loop without iterations may be huge, and the division by a step that goes down is one by a huge
number. `numElements_iff` gives the exact condition for every loop that ends and whose own evaluation is
defined in C, the ones that wrap around included.
-/

namespace OmpSs.Mcxx.CollapseCount

open Lib Cexpr

/-! ## Loops and their evaluation in C -/

/-- The types `int` and `unsigned`. -/
def int32 (sign : Bool) : IntType := ⟨.four, sign⟩

theorem zero_inRange {sign : Bool} : (int32 sign).InRange 0 := by cases sign <;> decide

/-- The test of the loop, `i <= upper` or `i >= upper`. -/
inductive Test
  | lowerOrEqual
  | greaterOrEqual
deriving DecidableEq

/-- A loop whose induction variable and bounds have the type `int32 sign`, with a step of the type
`int32 step_sign`. -/
structure TypedLoop extends LoopCollapse.LoopInfo where
  sign : Bool
  step_sign : Bool
  test : Test
  lower_inRange : (int32 sign).InRange lower_bound
  upper_inRange : (int32 sign).InRange upper_bound
  step_inRange : (int32 step_sign).InRange step
  step_ne_zero : step ≠ 0

namespace TypedLoop

variable (l : TypedLoop)

/-- The type of a sum of the induction variable and the step. -/
def sumType : IntType := commonBytes (int32 l.sign) (int32 l.step_sign)

/-- The test of the source loop. -/
def passes (i : Int) : Bool := match l.test with
  | .lowerOrEqual => decide (i ≤ l.upper_bound)
  | .greaterOrEqual => decide (l.upper_bound ≤ i)

/-- The assignment `i = i + step` of the source loop; `none`: it overflows. -/
def next (i : Int) : Option Int :=
  (Arith.add.value l.sumType (l.sumType.convert i) (l.sumType.convert l.step)).map (int32 l.sign).convert

/-- The generated definition of the number of elements. Source: `hlt-loop-collapse.cpp:257`. -/
def numElementsExpr : Tree :=
  let upper := Tree.integer (int32 l.sign) l.upper_bound l.upper_inRange
  let lower := Tree.integer (int32 l.sign) l.lower_bound l.lower_inRange
  let step_var := Tree.integer (int32 l.step_sign) l.step l.step_inRange
  .arith .div (.arith .add (.arith .sub upper lower) step_var) step_var

/-- The variable for the number of elements, which has the type of the upper bound, after its definition and
its update; `none`: the definition overflows. Source: `hlt-loop-collapse.cpp:246` to `:295`. -/
def numElements : Option Int :=
  (Tree.cast (int32 l.sign) l.numElementsExpr).value.map fun num_elem =>
    let t := commonBytes (int32 l.sign) .signedInt
    if Rel.lt.holds (t.convert num_elem) (t.convert 0) then 0 else num_elem

/-! ## When the count is right -/

/-- The step in the arithmetic of `unsigned`. -/
def modStep : Int := l.step % 4294967296

/-- With `int` alone: the step goes the way the test looks, and no operation of the count overflows. -/
def ExactSigned : Prop :=
  (l.test = .lowerOrEqual ↔ 0 < l.step) ∧
    (int32 true).InRange (l.upper_bound - l.lower_bound) ∧
    (int32 true).InRange (l.upper_bound - l.lower_bound + l.step) ∧
    ¬ (l.step = -1 ∧ l.upper_bound - l.lower_bound + l.step = -2147483648)

/-- The least value of the type. -/
def least (sign : Bool) : Int := if sign then -2147483648 else 0

/-- With `unsigned` in a loop upwards: no iteration, and the bounds are at most a step apart; or some, the
sum does not wrap around, and neither does the loop. For an `int` variable a step of one is a case of its own,
whose count may be negative as an `int`. -/
def ExactUp : Prop :=
  let range := l.upper_bound - l.lower_bound
  (range < 0 ∧ (-range ≤ l.modStep ∨ (l.sign = true ∧ l.modStep = 1))) ∨
    (0 ≤ range ∧ range + l.modStep < 4294967296 ∧
      l.lower_bound + (range / l.modStep + 1) * l.modStep < least l.sign + 4294967296 ∧
      ¬ (l.sign = true ∧ l.modStep = 1 ∧ range = 2147483647))

/-- With `unsigned` in a loop downwards: no iteration, and the bounds are at least a step apart; or one
iteration on equal bounds, and the loop does not wrap around. -/
def ExactDown : Prop :=
  let range := l.upper_bound - l.lower_bound
  (0 < range ∧ (4294967296 - l.modStep ≤ range ∨
      (l.sign = true ∧ l.modStep = 1 ∧ range = 2147483647))) ∨
    (range = 0 ∧ least l.sign + (4294967296 - l.modStep) ≤ l.lower_bound)

/-- The condition for the count to be the number of iterations. -/
def Exact : Prop :=
  if l.sign && l.step_sign then l.ExactSigned
  else (l.sign = true → (int32 true).InRange (l.upper_bound - l.lower_bound)) ∧
    match l.test with
    | .lowerOrEqual => l.ExactUp
    | .greaterOrEqual => l.ExactDown

end TypedLoop

/-! ## The types -/

section
variable {l : TypedLoop} {sign : Bool} {x y i : Int}

open TypedLoop (least)

theorem commonBytes_int32 (a b : Bool) : commonBytes (int32 a) (int32 b) = int32 (a && b) := by
  cases a <;> cases b <;> rfl

theorem least_true : least true = -2147483648 := rfl

theorem least_false : least false = 0 := rfl

theorem least_cases : ∀ sign, least sign = -2147483648 ∨ least sign = 0
  | true => .inl rfl
  | false => .inr rfl

theorem inRange_int_iff : (int32 true).InRange x ↔ -2147483648 ≤ x ∧ x < 2147483648 := inRange_of_sign rfl

theorem inRange_unsigned_iff : (int32 false).InRange x ↔ 0 ≤ x ∧ x < 4294967296 := inRange_of_not_sign rfl

theorem inRange_int32_iff : (int32 sign).InRange x ↔ least sign ≤ x ∧ x < least sign + 4294967296 := by
  cases sign with
  | true => exact inRange_int_iff
  | false => exact inRange_unsigned_iff

theorem convert_int32 (sign : Bool) (x : Int) :
    (int32 sign).convert x = (x - least sign) % 4294967296 + least sign := by
  cases sign with
  | true =>
    show (BitVec.ofInt 32 x).toInt = (x - -2147483648) % 4294967296 + -2147483648
    rw [BitVec.toInt_ofInt, Int.bmod_def]
    omega
  | false =>
    rw [convert_unsigned rfl]
    show x % (2 : Int) ^ 32 = (x - 0) % 4294967296 + 0
    omega

theorem result_int32 (sign : Bool) (z : Int) : (int32 sign).result z =
    if sign = true then (if (int32 true).InRange z then some z else none) else some (z % 4294967296) := by
  cases sign <;> rfl

/-- The update of the number of elements: a negative one becomes zero. -/
theorem update_eq (hx : (int32 sign).InRange x) :
    (let t := commonBytes (int32 sign) .signedInt
      if Rel.lt.holds (t.convert x) (t.convert 0) then 0 else x) = if x < 0 then 0 else x := by
  have ht : commonBytes (int32 sign) .signedInt = int32 sign := by cases sign <;> rfl
  dsimp only
  rw [ht, convert_of_inRange hx, convert_of_inRange zero_inRange]
  simp [Rel.holds]

theorem modStep_pos (l : TypedLoop) : 0 < l.modStep ∧ l.modStep < 4294967296 := by
  have hrange := inRange_int32_iff.1 l.step_inRange
  have hne := l.step_ne_zero
  have hleast := least_cases l.step_sign
  unfold TypedLoop.modStep
  omega

/-! ## Evaluation with an unsigned type -/

theorem sumType_eq (l : TypedLoop) : l.sumType = int32 (l.sign && l.step_sign) := commonBytes_int32 _ _

/-- The loop wraps around at the end of the type. -/
theorem next_eq (hmixed : (l.sign && l.step_sign) = false) (hi : (int32 l.sign).InRange i) :
    l.next i = some (if i + l.modStep < least l.sign + 4294967296 then i + l.modStep
      else i + l.modStep - 4294967296) := by
  have hi := inRange_int32_iff.1 hi
  have hstep := modStep_pos l
  unfold TypedLoop.next Arith.value
  rw [sumType_eq, hmixed]
  simp only [result_int32, convert_int32, Bool.false_eq_true, if_false, Option.map_some]
  unfold TypedLoop.modStep at hstep ⊢
  rw [least_false]
  refine congrArg some ?_
  split <;> omega

theorem convert_unsigned32 (x : Int) : (int32 false).convert x = x % 4294967296 := by
  rw [convert_int32]
  show (x - 0) % 4294967296 + 0 = _
  omega

/-- The quotient of two values of type `unsigned` is one, too. -/
theorem ediv_bounds {d : Int} (hd : 0 < d) (z : Int) :
    0 ≤ z % 4294967296 / d ∧ z % 4294967296 / d < 4294967296 := by
  have hnonneg : 0 ≤ z % 4294967296 := Int.emod_nonneg _ (by decide)
  exact ⟨Int.ediv_nonneg hnonneg hd.le,
    lt_of_le_of_lt (Int.ediv_le_self _ hnonneg) (Int.emod_lt_of_pos _ (by decide))⟩

theorem value_div_unsigned {d : Int} (hd : 0 < d) (z : Int) :
    Arith.div.value (int32 false) (z % 4294967296) d = some (z % 4294967296 / d) := by
  have hbounds := ediv_bounds hd z
  show (if d = 0 then none else _) = _
  rw [if_neg hd.ne', result_int32, if_neg Bool.false_ne_true,
    Int.tdiv_eq_ediv_of_nonneg (Int.emod_nonneg _ (by decide)), Int.emod_eq_of_lt hbounds.1 hbounds.2]

/-- The conversion to the type of the variable, and the update: a quotient that the type does not have
becomes zero. -/
theorem update_convert_eq (sign : Bool) (hx : 0 ≤ x ∧ x < 4294967296) :
    (if (int32 sign).convert x < 0 then 0 else (int32 sign).convert x) =
      if sign = true ∧ 2147483648 ≤ x then 0 else x := by
  rw [convert_int32]
  cases sign with
  | true =>
    rw [least_true]
    simp only [true_and]
    split <;> split <;> omega
  | false =>
    rw [least_false]
    split <;> split <;> simp_all <;> omega

/-- The quotient of the generated code, in the arithmetic of `unsigned`. -/
def quotient (l : TypedLoop) : Int :=
  (l.upper_bound - l.lower_bound + l.modStep) % 4294967296 / l.modStep

/-- The number of elements as the generated code computes it. -/
theorem numElements_eq (hmixed : (l.sign && l.step_sign) = false) : l.numElements =
    if l.sign = true ∧ ¬ (int32 true).InRange (l.upper_bound - l.lower_bound) then none
    else some (if l.sign = true ∧ 2147483648 ≤ quotient l then 0 else quotient l) := by
  have hupper := convert_of_inRange l.upper_inRange
  have hlower := convert_of_inRange l.lower_inRange
  have hstep : (int32 false).convert l.step = l.modStep := convert_unsigned32 _
  have hquot (range : Int) : (Arith.add.value (int32 false) ((int32 false).convert range) l.modStep).bind
      (fun x => Arith.div.value (int32 false) ((int32 false).convert x) l.modStep) =
        some ((range + l.modStep) % 4294967296 / l.modStep) := by
    show ((int32 false).result _).bind _ = _
    rw [result_int32, if_neg Bool.false_ne_true, Option.bind_some, convert_unsigned32, convert_unsigned32,
      Int.emod_emod_of_dvd _ (dvd_refl _), Int.emod_add_emod, value_div_unsigned (modStep_pos l).1]
  have hexpr : l.numElementsExpr.value =
      ((int32 l.sign).result (l.upper_bound - l.lower_bound)).bind fun range =>
        some ((range + l.modStep) % 4294967296 / l.modStep) := by
    unfold TypedLoop.numElementsExpr
    simp only [Tree.value, Tree.type, Option.bind_some, commonBytes_int32, Bool.and_self, hmixed,
      Bool.false_and, hupper, hlower, hstep, Option.bind_assoc, hquot]
    rfl
  have hcast (z : Int) : (int32 l.sign).InRange ((int32 l.sign).convert z) := IntType.read_inRange _ _
  have hquotient := (update_eq (hcast (quotient l))).trans
    (update_convert_eq l.sign (ediv_bounds (modStep_pos l).1 _))
  unfold TypedLoop.numElements Tree.value
  rw [hexpr, result_int32]
  by_cases hsign : l.sign = true
  · by_cases hrange : (int32 true).InRange (l.upper_bound - l.lower_bound)
    · rw [if_pos hsign, if_pos hrange, if_neg fun h => h.2 hrange]
      exact congrArg some hquotient
    · rw [if_pos hsign, if_neg hrange, if_pos ⟨hsign, hrange⟩]
      rfl
  · rw [if_neg hsign, if_neg fun h => hsign h.1, Option.bind_some, Int.emod_add_emod]
    exact congrArg some hquotient

end

/-! ## Loops that wrap around -/

section
variable {test : Int → Bool} {next : Int → Option Int} {low s lower upper : Int} {n : Nat}

/-- The next value is the sum with `s`, which wraps around behind the values from `low` on. -/
structure Wraps (low s : Int) (next : Int → Option Int) : Prop where
  pos : 0 < s
  lt : s < 4294967296
  eq : ∀ i, low ≤ i → i < low + 4294967296 →
    next i = some (if i + s < low + 4294967296 then i + s else i + s - 4294967296)

theorem Wraps.next_lt (h : Wraps low s next) {i : Int} (hlow : low ≤ i) (hi : i + s < low + 4294967296) :
    next i = some (i + s) := by
  have := h.pos
  rw [h.eq i hlow (by omega), if_pos hi]

theorem Wraps.next_ge (h : Wraps low s next) {i : Int} (hi : i < low + 4294967296)
    (hge : low + 4294967296 ≤ i + s) : next i = some (i + s - 4294967296) := by
  have := h.lt
  rw [h.eq i (by omega) hi, if_neg (by omega)]

/-- The first `k` iterations of a loop that does not wrap around in them. -/
theorem Wraps.iterate (h : Wraps low s next) (hcount : Counts test next lower n) (hlow : low ≤ lower)
    {k : Int} (hk : 0 ≤ k) (hend : lower + k * s < low + 4294967296)
    (htest : ∀ i, lower ≤ i → i < lower + k * s → test i = true) :
    ∃ m : Nat, (n : Int) = k + m ∧ Counts test next (lower + k * s) m := by
  obtain ⟨k, rfl⟩ := Int.eq_ofNat_of_zero_le hk
  have hpos := h.pos
  have hle (j : Nat) (hj : j < k) : lower ≤ lower + j * s ∧ lower + (j + 1) * s ≤ lower + k * s := by
    have hsucc : (j : Int) + 1 ≤ k := by exact_mod_cast hj
    have := mul_le_mul_of_nonneg_right hsucc hpos.le
    have := mul_nonneg (Int.natCast_nonneg j) hpos.le
    omega
  have hsum (j : Nat) : lower + ((j : Int) + 1) * s = lower + j * s + s := by ring
  have hstays : ∀ j < k, test (lower + j * s) = true := fun j hj => htest _ (hle j hj).1 (by
    have := (hle j hj).2
    have := hsum j
    omega)
  obtain ⟨m, hm, hrest⟩ := hcount.iterate hstays fun j hj => by
    have := hle j hj
    rw [hsum] at this ⊢
    exact h.next_lt (by omega) (by omega)
  exact ⟨m, by exact_mod_cast hm, hrest⟩

/-- A loop upwards with an iteration: it ends when it first passes its bound, or it wraps around and goes
on. -/
theorem Wraps.counts_up (h : Wraps low s next) (htest : ∀ i, test i = decide (i ≤ upper))
    (hcount : Counts test next lower n) (hlow : low ≤ lower) (hle : lower ≤ upper)
    (hupper : upper < low + 4294967296) :
    if lower + ((upper - lower) / s + 1) * s < low + 4294967296 then (n : Int) = (upper - lower) / s + 1
    else (upper - lower) / s + 1 < n := by
  have hpos := h.pos
  have hlt := h.lt
  have hdiv := Int.ediv_mul_le (upper - lower) hpos.ne'
  have hdiv' := Int.lt_ediv_add_one_mul_self (upper - lower) hpos
  have hk : 0 ≤ (upper - lower) / s := Int.ediv_nonneg (by omega) hpos.le
  generalize (upper - lower) / s = k at *
  have hsum : (k + 1) * s = k * s + s := by ring
  obtain ⟨m, hm, hrest⟩ := h.iterate hcount hlow hk (by omega) fun i _ hi => by
    rw [htest, decide_eq_true_eq]
    omega
  have hin : test (lower + k * s) = true := by
    rw [htest, decide_eq_true_eq]
    omega
  have hnonneg := mul_nonneg hk hpos.le
  split
  · obtain ⟨m, rfl, hlast⟩ := (counts_of_next hin (h.next_lt (by omega) (by omega))).1 hrest
    have hout : test (lower + k * s + s) = false := by
      rw [htest, decide_eq_false_iff_not]
      omega
    obtain rfl := (counts_of_not_test hout).1 hlast
    exact hm
  · obtain ⟨m, rfl, hlast⟩ := (counts_of_next hin (h.next_ge (by omega) (by omega))).1 hrest
    have hagain : test (lower + k * s + s - 4294967296) = true := by
      rw [htest, decide_eq_true_eq]
      omega
    obtain ⟨_, m, -, rfl, -⟩ := (counts_of_test hagain).1 hlast
    push_cast at hm
    omega

/-- A loop downwards from its bound. -/
theorem Wraps.counts_down_self (h : Wraps low s next) (htest : ∀ i, test i = decide (upper ≤ i))
    (hcount : Counts test next upper n) (hlow : low ≤ upper) (hupper : upper < low + 4294967296) :
    (n : Int) = 1 ↔ low + (4294967296 - s) ≤ upper := by
  have hpos := h.pos
  have hlt := h.lt
  have hin : test upper = true := by
    rw [htest, decide_eq_true_eq]
  by_cases hwrap : low + 4294967296 ≤ upper + s
  · obtain ⟨m, rfl, hrest⟩ := (counts_of_next hin (h.next_ge hupper hwrap)).1 hcount
    have hout : test (upper + s - 4294967296) = false := by
      rw [htest, decide_eq_false_iff_not]
      omega
    obtain rfl := (counts_of_not_test hout).1 hrest
    exact iff_of_true (by norm_num) (by omega)
  · obtain ⟨m, rfl, hrest⟩ := (counts_of_next hin (h.next_lt hlow (by omega))).1 hcount
    have hagain : test (upper + s) = true := by
      rw [htest, decide_eq_true_eq]
      omega
    obtain ⟨_, m, -, rfl, -⟩ := (counts_of_test hagain).1 hrest
    exact iff_of_false (by push_cast; omega) (by omega)

/-- A loop downwards over more than one value: its number of iterations is not the count, which is one more
than the number of steps in the other part of the type. -/
theorem Wraps.counts_down_ne (h : Wraps low s next) (htest : ∀ i, test i = decide (upper ≤ i))
    (hcount : Counts test next lower n) (hlow : low ≤ upper) (hlt : upper < lower)
    (hlower : lower < low + 4294967296) (hfit : upper - lower + 4294967296 + s < 4294967296) :
    (n : Int) ≠ (upper - lower + 4294967296) / s + 1 := by
  have hpos := h.pos
  -- the loop goes upwards by `k` steps before it wraps around
  have hdiv := Int.ediv_mul_le (low + 4294967296 - lower - 1) hpos.ne'
  have hdiv' := Int.lt_ediv_add_one_mul_self (low + 4294967296 - lower - 1) hpos
  have hk : 0 ≤ (low + 4294967296 - lower - 1) / s := Int.ediv_nonneg (by omega) hpos.le
  generalize (low + 4294967296 - lower - 1) / s = k at *
  have hcdiv := Int.ediv_mul_le (upper - lower + 4294967296) hpos.ne'
  have hcdiv' := Int.lt_ediv_add_one_mul_self (upper - lower + 4294967296) hpos
  generalize (upper - lower + 4294967296) / s = q at *
  have hsum : (k + 1) * s = k * s + s := by ring
  have hnonneg := mul_nonneg hk hpos.le
  obtain ⟨m, hm, hrest⟩ := h.iterate hcount (by omega) hk (by omega) fun i hi _ => by
    rw [htest, decide_eq_true_eq]
    omega
  have hin : test (lower + k * s) = true := by
    rw [htest, decide_eq_true_eq]
    omega
  obtain ⟨m, rfl, hlast⟩ := (counts_of_next hin (h.next_ge (by omega) (by omega))).1 hrest
  push_cast at hm
  by_cases hout : lower + k * s + s - 4294967296 < upper
  · -- it ends there, before the count
    have hstop : test (lower + k * s + s - 4294967296) = false := by
      rw [htest, decide_eq_false_iff_not]
      omega
    obtain rfl := (counts_of_not_test hstop).1 hlast
    have hlt : k + 1 < q + 1 := lt_of_mul_lt_mul_right (by omega : (k + 1) * s < (q + 1) * s) hpos.le
    omega
  · -- it goes on
    have hagain : test (lower + k * s + s - 4294967296) = true := by
      rw [htest, decide_eq_true_eq]
      omega
    have hmore : (k + 2) * s = k * s + s + s := by ring
    have hle : q < k + 2 := lt_of_mul_lt_mul_right (by omega : q * s < (k + 2) * s) hpos.le
    rcases (by omega : q < k + 1 ∨ q = k + 1) with hless | rfl
    · obtain ⟨_, m, -, rfl, -⟩ := (counts_of_test hagain).1 hlast
      push_cast at hm
      omega
    · -- it is at its bound, and the next step does not wrap around
      obtain ⟨m, rfl, hnext⟩ := (counts_of_next hagain (h.next_lt (by omega) (by omega))).1 hlast
      have htwice : test (lower + k * s + s - 4294967296 + s) = true := by
        rw [htest, decide_eq_true_eq]
        omega
      obtain ⟨_, m, -, rfl, -⟩ := (counts_of_test htwice).1 hnext
      push_cast at hm
      omega

end

/-! ## The count with an unsigned type -/

section
variable {l : TypedLoop} {n : Nat} {s range : Int}

theorem wraps (hmixed : (l.sign && l.step_sign) = false) :
    Wraps (TypedLoop.least l.sign) l.modStep l.next :=
  ⟨(modStep_pos l).1, (modStep_pos l).2, fun _ hlow hi => next_eq hmixed (inRange_int32_iff.2 ⟨hlow, hi⟩)⟩

/-- The quotient of a sum that does not wrap around. -/
theorem emod_ediv_of_fit (hs : 0 < s) (h0 : 0 ≤ range + s) (hfit : range + s < 4294967296) :
    (range + s) % 4294967296 / s = range / s + 1 := by
  rw [Int.emod_eq_of_lt h0 hfit, Int.add_ediv_of_dvd_right (dvd_refl s), Int.ediv_self hs.ne']

/-- A sum that wraps around leaves less than the step. -/
theorem emod_ediv_of_wrap (hrange : range < 4294967296) (hwrap : 4294967296 ≤ range + s)
    (hs : s < 4294967296) : (range + s) % 4294967296 / s = 0 := by
  have hmod : (range + s) % 4294967296 = range + s - 4294967296 := by omega
  rw [hmod]
  exact Int.ediv_eq_zero_of_lt (by omega) (by omega)

/-- The quotient for a negative range, which is the one for the other part of the type. -/
theorem emod_ediv_of_neg (hs : 0 < s) (hrange : -4294967296 < range) (hneg : range + s < 0) :
    (range + s) % 4294967296 / s = (range + 4294967296) / s + 1 := by
  have hmod : (range + s) % 4294967296 = (range + 4294967296 + s) % 4294967296 := by omega
  rw [hmod, emod_ediv_of_fit hs (by omega) (by omega)]

/-- A quotient that `int` does not have. -/
theorem le_ediv_add_one_iff (hs : 0 < s) (h0 : 0 ≤ range) (hrange : range ≤ 2147483647) :
    2147483648 ≤ range / s + 1 ↔ s = 1 ∧ range = 2147483647 := by
  have hdiv := Int.ediv_mul_le range hs.ne'
  have hnonneg : 0 ≤ range / s := Int.ediv_nonneg h0 hs.le
  constructor
  · intro h
    rcases (by omega : s = 1 ∨ 2 ≤ s) with rfl | htwo
    · omega
    · have := mul_le_mul_of_nonneg_left htwo hnonneg
      omega
  · rintro ⟨rfl, rfl⟩
    decide

/-- The number of elements in the arithmetic of `unsigned`. -/
def clipped (sign : Bool) (q : Int) : Int := if sign = true ∧ 2147483648 ≤ q then 0 else q

theorem numElements_eq_some_iff (hmixed : (l.sign && l.step_sign) = false) : l.numElements = some (n : Int) ↔
    (l.sign = true → (int32 true).InRange (l.upper_bound - l.lower_bound)) ∧
      clipped l.sign (quotient l) = n := by
  rw [numElements_eq hmixed]
  by_cases hnone : l.sign = true ∧ ¬ (int32 true).InRange (l.upper_bound - l.lower_bound)
  · rw [if_pos hnone]
    exact iff_of_false (fun h => nomatch h) fun h => hnone.2 (h.1 hnone.1)
  · rw [if_neg hnone, Option.some.injEq]
    exact (and_iff_right fun hsign => not_not.1 fun hout => hnone ⟨hsign, hout⟩).symm

/-- The count of a loop upwards without iterations. -/
theorem clipped_eq_zero_of_neg {sign : Bool} (hs : 0 < s ∧ s < 4294967296)
    (hrange : -4294967296 < range) (hneg : range < 0) (hsign : sign = true → -2147483648 ≤ range) :
    clipped sign ((range + s) % 4294967296 / s) = 0 ↔ -range ≤ s ∨ (sign = true ∧ s = 1) := by
  unfold clipped
  by_cases hnear : -range ≤ s
  · have hzero : (range + s) % 4294967296 / s = 0 := by
      rw [Int.emod_eq_of_lt (by omega) (by omega)]
      exact Int.ediv_eq_zero_of_lt (by omega) (by omega)
    rw [hzero, ite_self]
    exact iff_of_true rfl (.inl hnear)
  · rw [emod_ediv_of_neg hs.1 hrange (by omega), or_iff_right hnear]
    have hdiv := Int.ediv_mul_le (range + 4294967296) hs.1.ne'
    have hnonneg : 0 ≤ (range + 4294967296) / s := Int.ediv_nonneg (by omega) hs.1.le
    cases sign with
    | false => simp only [Bool.false_eq_true, false_and, if_false, iff_false]; omega
    | true =>
      have hsign := hsign rfl
      simp only [true_and]
      rcases (by omega : s = 1 ∨ 2 ≤ s) with rfl | htwo
      · rw [if_pos (by omega)]
        exact iff_of_true rfl rfl
      · -- the quotient is positive as an `int`, too
        have := mul_le_mul_of_nonneg_left htwo hnonneg
        rw [if_neg (by omega)]
        omega

/-- The count for a range that is not negative. -/
theorem clipped_of_nonneg {sign : Bool} (hs : 0 < s ∧ s < 4294967296) (h0 : 0 ≤ range)
    (hrange : range < 4294967296) (hsign : sign = true → range ≤ 2147483647) :
    clipped sign ((range + s) % 4294967296 / s) =
      if range + s < 4294967296 ∧ ¬ (sign = true ∧ s = 1 ∧ range = 2147483647) then range / s + 1
      else 0 := by
  unfold clipped
  by_cases hfit : range + s < 4294967296
  · rw [emod_ediv_of_fit hs.1 (by omega) hfit]
    cases sign with
    | false => simp [hfit]
    | true =>
      have hbig := le_ediv_add_one_iff hs.1 h0 (hsign rfl)
      simp only [true_and, hfit, hbig]
      split <;> simp_all
  · rw [emod_ediv_of_wrap hrange (by omega) hs.2, ite_self, if_neg fun h => hfit h.1]

theorem range_le {sign : Bool} (hrange : sign = true → (int32 true).InRange range) (hsign : sign = true) :
    -2147483648 ≤ range ∧ range ≤ 2147483647 := by
  have hbounds := inRange_int_iff.1 (hrange hsign)
  omega

/-- The count of a loop upwards. -/
theorem numElements_up (hmixed : (l.sign && l.step_sign) = false) (htest : l.test = .lowerOrEqual)
    (hcount : Counts l.passes l.next l.lower_bound n) : l.numElements = some (n : Int) ↔
      (l.sign = true → (int32 true).InRange (l.upper_bound - l.lower_bound)) ∧ l.ExactUp := by
  have hpasses : ∀ i, l.passes i = decide (i ≤ l.upper_bound) := fun i => by
    rw [TypedLoop.passes, htest]
  have hlower := inRange_int32_iff.1 l.lower_inRange
  have hupper := inRange_int32_iff.1 l.upper_inRange
  have hs := modStep_pos l
  rw [numElements_eq_some_iff hmixed]
  refine and_congr_right fun hrange => ?_
  have hsigned := range_le hrange
  unfold TypedLoop.ExactUp quotient
  dsimp only
  rcases lt_or_ge (l.upper_bound - l.lower_bound) 0 with hneg | hnonneg
  · -- no iteration
    have hout : l.passes l.lower_bound = false := by
      rw [hpasses, decide_eq_false_iff_not]
      omega
    obtain rfl := (counts_of_not_test hout).1 hcount
    have hzero := clipped_eq_zero_of_neg hs (by omega) hneg fun hsign => (hsigned hsign).1
    rw [Nat.cast_zero, hzero, and_iff_right hneg]
    exact (or_iff_left fun h => absurd h.1 (by omega)).symm
  · have hup := (wraps hmixed).counts_up hpasses hcount hlower.1 (by omega) hupper.2
    rw [clipped_of_nonneg hs hnonneg (by omega) fun hsign => (hsigned hsign).2,
      or_iff_right (fun h => absurd h.1 (by omega)), and_iff_right hnonneg]
    have hdiv : 0 ≤ (l.upper_bound - l.lower_bound) / l.modStep := Int.ediv_nonneg hnonneg hs.1.le
    split at hup
    · next hends =>
      split
      · next hfit => exact iff_of_true hup.symm ⟨hfit.1, hends, hfit.2⟩
      · next hfit => exact iff_of_false (by omega) fun h => hfit ⟨h.1, h.2.2⟩
    · next hwraps =>
      refine iff_of_false ?_ fun h => hwraps h.2.1
      split <;> omega

theorem numElements_down (hmixed : (l.sign && l.step_sign) = false) (htest : l.test = .greaterOrEqual)
    (hcount : Counts l.passes l.next l.lower_bound n) : l.numElements = some (n : Int) ↔
      (l.sign = true → (int32 true).InRange (l.upper_bound - l.lower_bound)) ∧ l.ExactDown := by
  have hpasses : ∀ i, l.passes i = decide (l.upper_bound ≤ i) := fun i => by
    rw [TypedLoop.passes, htest]
  have hlower := inRange_int32_iff.1 l.lower_inRange
  have hupper := inRange_int32_iff.1 l.upper_inRange
  have hs := modStep_pos l
  rw [numElements_eq_some_iff hmixed]
  refine and_congr_right fun hrange => ?_
  have hsigned := range_le hrange
  unfold TypedLoop.ExactDown quotient
  dsimp only
  rcases lt_or_ge (l.upper_bound - l.lower_bound) 0 with hneg | hnonneg
  · -- more than one value
    have hin : l.passes l.lower_bound = true := by
      rw [hpasses, decide_eq_true_eq]
      omega
    have hpos : 0 < n := by
      obtain ⟨_, m, -, rfl, -⟩ := (counts_of_test hin).1 hcount
      exact Nat.succ_pos m
    refine iff_of_false (fun heq => ?_) fun h => by omega
    unfold clipped at heq
    rcases lt_or_ge (l.upper_bound - l.lower_bound + l.modStep) 0 with hfit | hnear
    · have hne := (wraps hmixed).counts_down_ne hpasses hcount hupper.1 (by omega) hlower.2 (by omega)
      rw [emod_ediv_of_neg hs.1 (by omega) hfit] at heq
      split at heq <;> omega
    · rw [Int.emod_eq_of_lt hnear (by omega), Int.ediv_eq_zero_of_lt hnear (by omega), ite_self] at heq
      omega
  · rw [clipped_of_nonneg hs hnonneg (by omega) fun hsign => (hsigned hsign).2]
    have hdiv : 0 ≤ (l.upper_bound - l.lower_bound) / l.modStep := Int.ediv_nonneg hnonneg hs.1.le
    rcases hnonneg.lt_or_eq with hpos | hzero
    · -- no iteration
      have hout : l.passes l.lower_bound = false := by
        rw [hpasses, decide_eq_false_iff_not]
        omega
      obtain rfl := (counts_of_not_test hout).1 hcount
      split
      · next hfit =>
        refine iff_of_false (by omega) ?_
        rintro (⟨-, hnear | hone⟩ | ⟨heq, -⟩)
        · omega
        · exact hfit.2 hone
        · omega
      · next hfit =>
        refine iff_of_true rfl (.inl ⟨hpos, ?_⟩)
        by_cases hlt : l.upper_bound - l.lower_bound + l.modStep < 4294967296
        · exact .inr (not_not.1 fun hone => hfit ⟨hlt, hone⟩)
        · exact .inl (by omega)
    · -- one value
      have hbounds : l.lower_bound = l.upper_bound := by omega
      rw [hbounds] at hcount ⊢
      have hself := (wraps hmixed).counts_down_self hpasses hcount hupper.1 hupper.2
      rw [Int.sub_self, Int.zero_ediv, if_pos ⟨by omega, fun h => by omega⟩, ← hself]
      omega

/-! ## The count with int alone -/

theorem next_signed (hsigned : (l.sign && l.step_sign) = true) {v w : Int} (hv : (int32 true).InRange v)
    (hnext : l.next v = some w) : w = v + l.step ∧ (int32 true).InRange w := by
  obtain ⟨hsign, hstep_sign⟩ := Bool.and_eq_true_iff.1 hsigned
  have hstep := l.step_inRange
  rw [hstep_sign] at hstep
  unfold TypedLoop.next Arith.value at hnext
  dsimp only at hnext
  rw [sumType_eq, hsigned, hsign, convert_of_inRange hv, convert_of_inRange hstep, result_int32,
    if_pos rfl] at hnext
  split at hnext
  · next hsum =>
    obtain rfl : (int32 true).convert (v + l.step) = w := Option.some.inj hnext
    rw [convert_of_inRange hsum]
    exact ⟨rfl, hsum⟩
  · cases hnext

/-- The quotient of two values of type `int` is one, too, but for the negation of the least value. -/
theorem inRange_tdiv_iff {z d : Int} (hz : (int32 true).InRange z) (hd : d ≠ 0) :
    (int32 true).InRange (z.tdiv d) ↔ ¬ (d = -1 ∧ z = -2147483648) := by
  rw [inRange_int_iff] at hz ⊢
  have habs : (z.tdiv d).natAbs = z.natAbs / d.natAbs := Int.natAbs_tdiv ..
  constructor
  · rintro h ⟨rfl, rfl⟩
    revert h
    decide
  · intro hnot
    rcases (by omega : d.natAbs = 1 ∨ 2 ≤ d.natAbs) with hone | htwo
    · rcases (by omega : d = 1 ∨ d = -1) with rfl | rfl
      · rw [Int.tdiv_one]
        omega
      · rw [Int.tdiv_neg, Int.tdiv_one]
        omega
    · have := Nat.div_le_div_left htwo (Nat.two_pos) (a := z.natAbs)
      omega

/-- The number of elements where nothing overflows. -/
theorem numElements_signed (hsigned : (l.sign && l.step_sign) = true) {v : Int} :
    l.numElements = some v ↔ (int32 true).InRange (l.upper_bound - l.lower_bound) ∧
      (int32 true).InRange (l.upper_bound - l.lower_bound + l.step) ∧
      ¬ (l.step = -1 ∧ l.upper_bound - l.lower_bound + l.step = -2147483648) ∧
      (if (l.upper_bound - l.lower_bound + l.step).tdiv l.step < 0 then 0
        else (l.upper_bound - l.lower_bound + l.step).tdiv l.step) = v := by
  obtain ⟨hsign, hstep_sign⟩ := Bool.and_eq_true_iff.1 hsigned
  have hstep := l.step_inRange
  rw [hstep_sign] at hstep
  have hupper := convert_of_inRange l.upper_inRange
  have hlower := convert_of_inRange l.lower_inRange
  have hexpr : l.numElementsExpr.value =
      ((int32 true).result (l.upper_bound - l.lower_bound)).bind fun range =>
        ((int32 true).result ((int32 true).convert range + l.step)).bind fun sum =>
          (int32 true).result (((int32 true).convert sum).tdiv l.step) := by
    unfold TypedLoop.numElementsExpr
    simp only [Tree.value, Tree.type, Option.bind_some, commonBytes_int32, Bool.and_self, hsign, hstep_sign,
      convert_of_inRange hstep, Option.bind_assoc, Arith.value, l.step_ne_zero, if_false]
    rw [← hsign, hupper, hlower]
  have hresult (z : Int) : (int32 true).result z = if (int32 true).InRange z then some z else none := rfl
  unfold TypedLoop.numElements Tree.value
  rw [hexpr, hresult]
  by_cases hrange : (int32 true).InRange (l.upper_bound - l.lower_bound)
  case neg =>
    rw [if_neg hrange]
    refine iff_of_false (fun h => ?_) fun h => hrange h.1
    cases h
  rw [if_pos hrange, Option.bind_some, convert_of_inRange hrange, hresult, and_iff_right hrange]
  by_cases hsum : (int32 true).InRange (l.upper_bound - l.lower_bound + l.step)
  case neg =>
    rw [if_neg hsum]
    refine iff_of_false (fun h => ?_) fun h => hsum h.1
    cases h
  rw [if_pos hsum, Option.bind_some, convert_of_inRange hsum, hresult, and_iff_right hsum,
    ← inRange_tdiv_iff hsum l.step_ne_zero]
  by_cases hquot : (int32 true).InRange ((l.upper_bound - l.lower_bound + l.step).tdiv l.step)
  case neg =>
    rw [if_neg hquot]
    refine iff_of_false (fun h => ?_) fun h => hquot h.1
    cases h
  rw [if_pos hquot, and_iff_right hquot, hsign, Option.map_some, Option.map_some, convert_of_inRange hquot,
    update_eq hquot, Option.some.injEq]

/-- The test of a loop whose step goes the way it looks. -/
theorem passes_eq_within (hagree : l.test = .lowerOrEqual ↔ 0 < l.step) (i : Int) :
    l.passes i = within l.upper_bound l.step i := by
  unfold TypedLoop.passes within
  cases htest : l.test with
  | lowerOrEqual => simp [not_lt.2 (hagree.1 htest).le]
  | greaterOrEqual =>
    have hnot : ¬ 0 < l.step := fun hpos => by
      rw [htest] at hagree
      cases hagree.2 hpos
    have hne := l.step_ne_zero
    simp [show l.step < 0 by omega]

/-- The test of a loop whose step goes the other way. -/
theorem passes_iff_of_not (hagree : ¬ (l.test = .lowerOrEqual ↔ 0 < l.step)) (i : Int) :
    l.passes i = true ↔ l.upper_bound * l.step ≤ i * l.step := by
  have hne := l.step_ne_zero
  unfold TypedLoop.passes
  cases htest : l.test with
  | lowerOrEqual =>
    have hneg : l.step < 0 := by
      by_contra hnot
      exact hagree (iff_of_true htest (by omega))
    rw [decide_eq_true_eq, mul_le_mul_right_of_neg hneg]
  | greaterOrEqual =>
    have hpos : 0 < l.step := by
      by_contra hnot
      exact hagree (iff_of_false (fun h => by rw [htest] at h; cases h) hnot)
    rw [decide_eq_true_eq, mul_le_mul_iff_of_pos_right hpos]

/-- A loop whose step goes the way its test looks has the iterations that it has over exact integers. One
whose step goes the other way has none, where the loop of that step has some. -/
theorem counts_signed (hsigned : (l.sign && l.step_sign) = true)
    (hcount : Counts l.passes l.next l.lower_bound n) :
    if l.test = .lowerOrEqual ↔ 0 < l.step then n = l.trips else n = 0 ∧ 0 < l.trips := by
  have hlower := l.lower_inRange
  rw [(Bool.and_eq_true_iff.1 hsigned).1] at hlower
  obtain ⟨hpassed, hstopped⟩ := hcount.exact hlower fun v w hv hnext => next_signed hsigned hv hnext
  have hne := l.step_ne_zero
  split
  · next hagree =>
    rw [passes_eq_within hagree] at hstopped
    refine le_antisymm ?_ (not_lt.1 fun hlt => ?_)
    · cases n with
      | zero => exact Nat.zero_le _
      | succ n =>
        have hlast := hpassed n (Nat.lt_succ_self n)
        rw [passes_eq_within hagree, ← lt_tripCount_iff hne] at hlast
        exact hlast
    · rw [LoopCollapse.LoopInfo.trips, lt_tripCount_iff hne, hstopped] at hlt
      cases hlt
  · next hagree =>
    have hout := mt (passes_iff_of_not hagree _).2 (Bool.eq_false_iff.1 hstopped)
    -- a step leads away from the bound, so the test would never fail
    have hsquare : 0 ≤ (n : Int) * (l.step * l.step) := mul_nonneg (Int.natCast_nonneg n) (mul_self_nonneg _)
    have hring : (l.lower_bound + n * l.step) * l.step = l.lower_bound * l.step + n * (l.step * l.step) := by
      ring
    have hzero : n = 0 := by
      by_contra hpos
      have hfirst := (passes_iff_of_not hagree _).1 (hpassed 0 (Nat.pos_of_ne_zero hpos))
      simp only [Nat.cast_zero, zero_mul, add_zero] at hfirst
      omega
    have hin : within l.upper_bound l.step l.lower_bound = true := (within_iff hne).2 (by omega)
    rw [LoopCollapse.LoopInfo.trips, tripCount, if_pos hin]
    exact ⟨hzero, Nat.succ_pos _⟩

theorem numElements_exact_signed (hsigned : (l.sign && l.step_sign) = true)
    (hcount : Counts l.passes l.next l.lower_bound n) : l.numElements = some (n : Int) ↔ l.ExactSigned := by
  have hcounts := counts_signed hsigned hcount
  rw [numElements_signed hsigned, LoopCollapse.num_elements_eq l.toLoopInfo l.step_ne_zero, Nat.cast_inj]
  unfold TypedLoop.ExactSigned
  split at hcounts
  · next hagree =>
    rw [and_iff_right hagree, hcounts, and_iff_left rfl]
  · next hagree =>
    exact iff_of_false (fun h => by omega) fun h => hagree h.1

end

/-- The loop `for (unsigned i = lower; i <= upper; i += step)`, with a step of type `int`. -/
def unsignedLoop (lower upper step : Int) (hlower : (int32 false).InRange lower)
    (hupper : (int32 false).InRange upper) (hstep : (int32 true).InRange step) (hne : step ≠ 0) :
    TypedLoop where
  lower_bound := lower
  upper_bound := upper
  step := step
  sign := false
  step_sign := true
  test := .lowerOrEqual
  lower_inRange := hlower
  upper_inRange := hupper
  step_inRange := hstep
  step_ne_zero := hne

end OmpSs.Mcxx.CollapseCount
