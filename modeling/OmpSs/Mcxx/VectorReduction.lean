import Mathlib.Tactic.Linarith
import OmpSs.Mcxx.StrengthReduction

/-!
# Strength reduction of vectors

The vector rules of `StrengthReduction` (`mcxx/src/tl/optimizations/tl-strength-reduction.cpp:257`). An
operation on two promoted scalars becomes the promotion of a scalar operation. A product with a constant on
its left that is a power of two becomes a shift left, and a quotient by one a shift right, where the
constant is a promoted scalar or, lane by lane, a literal.

`visitVector_lane_iff` says what becomes of the lanes. The rule for literals on the left of a product never
succeeds: it takes the node of a vector for a list. The one for quotients puts the shift counts together in
reverse. A shift right moves the sign in, also in the lanes of unsigned vectors: it is `VectorArithmeticShr`
that is built, and the shift of unsigned values has a node of its own.

Masks are left out: the nodes that are built have the mask of the node that they replace.
-/

namespace OmpSs.Mcxx.StrengthReduction

open Lib.Word

/-! ## Vectors and their lanes -/

/-- The vector expressions of lanes of 32 bits. Whether a node is constant stands at it; a promoted scalar
is if the scalar is. -/
inductive VectorExpr
  | var (constant : Bool) (x : Nat)
  | literal (constant : Bool) (scalar_values : List Word)
  | promotion (rhs : Expr)
  | binary (op : Op) (t : Ty) (constant : Bool) (lhs rhs : VectorExpr)
  | rcp (rhs : VectorExpr)

/-- Source: `is_constant`. -/
def VectorExpr.isConstant : VectorExpr → Bool
  | .var constant _ => constant
  | .literal constant _ => constant
  | .promotion rhs => rhs.constant.isSome
  | .binary _ _ constant _ _ => constant
  | .rcp _ => false

/-- Source: `is<Nodecl::VectorPromotion>()`. -/
def VectorExpr.isPromotion : VectorExpr → Bool
  | .promotion _ => true
  | _ => false

/-- The operation on two lanes. -/
def Op.evalLane : Op → Ty → Word → Word → Option Word
  | .arithmeticShr, _, a, b => if b.toNat < 32 then some (a.sshiftRight b.toNat) else none
  | op, t, a, b => op.eval t a b

/-- The value of a lane. Integers have no reciprocals. -/
def VectorExpr.lane (ρ : Nat → Word) (σ : Nat → Nat → Word) (i : Nat) : VectorExpr → Option Word
  | .var _ x => some (σ x i)
  | .literal _ scalar_values => scalar_values[i]?
  | .promotion rhs => rhs.eval ρ
  | .binary op t _ lhs rhs => (lhs.lane ρ σ i).bind fun a => (rhs.lane ρ σ i).bind fun b => op.evalLane t a b
  | .rcp _ => none

/-! ## The rules -/

/-- The shift counts of a literal, if its values are all powers of two: each one is put before those that are
there. Source: the loop of `visit(const Nodecl::VectorDiv&)` (`tl-strength-reduction.cpp:420`). -/
def shiftCounts (const_list : List Word) : Option (List Word) :=
  const_list.foldl (fun result_list integer_value => result_list.bind fun counts =>
    (pow2Exponent integer_value).map fun ctz => BitVec.ofNat 32 ctz :: counts) (some [])

/-- `none`: a literal of powers of two ends in an internal error, because the node of a vector is no list.
Source: `visit(const Nodecl::VectorMul&)` (`tl-strength-reduction.cpp:257`), after the walk of the operands.
-/
def visitVectorMul (t : Ty) (constant : Bool) : VectorExpr → VectorExpr → Option VectorExpr
  | .promotion a, .promotion b => some (.promotion (.binary .mul t none a b))
  | .promotion a, rhs => match a.constant.bind pow2Exponent with
    | some ctz => some (.binary .bitwiseShl t false rhs (.promotion (.lit (BitVec.ofNat 32 ctz))))
    | none => some (.binary .mul t constant (.promotion a) rhs)
  | .literal true const_list, rhs =>
    if const_list.all (fun integer_value => (pow2Exponent integer_value).isSome) then none
    else some (.binary .mul t constant (.literal true const_list) rhs)
  | lhs, rhs => some (.binary .mul t constant lhs rhs)

/-- The quotient by something that is constant. Source: the second branch of `visit(const Nodecl::VectorDiv&)`
(`tl-strength-reduction.cpp:386`). -/
def divByConstant (t : Ty) (constant : Bool) (lhs : VectorExpr) : VectorExpr → VectorExpr
  | .promotion b => match b.constant.bind pow2Exponent with
    | some ctz => .binary .arithmeticShr t false lhs (.promotion (.lit (BitVec.ofNat 32 ctz)))
    | none => .binary .div t constant lhs (.promotion b)
  | .literal c const_list => match shiftCounts const_list with
    | some result_list => .binary .arithmeticShr t false lhs (.literal false result_list)
    | none => .binary .div t constant lhs (.literal c const_list)
  | rhs => .binary .div t constant lhs rhs

/-- With fast mathematics a quotient by something that is not constant becomes a product with a reciprocal,
whatever the type is; that this product is walked again is left out. Source: `visit(const Nodecl::VectorDiv&)`
(`tl-strength-reduction.cpp:363`). -/
def visitVectorDiv (fast_math : Bool) (t : Ty) (constant : Bool) : VectorExpr → VectorExpr → VectorExpr
  | .promotion a, .promotion b => .promotion (.binary .div t none a b)
  | lhs, rhs =>
    if rhs.isConstant then divByConstant t constant lhs rhs
    else if fast_math then .binary .mul t false lhs (.rcp rhs)
    else .binary .div t constant lhs rhs

/-- Source: `visit(const Nodecl::VectorMod&)` (`tl-strength-reduction.cpp:503`), and in the same way
`visit(const Nodecl::VectorAdd&)` and `visit(const Nodecl::VectorMinus&)`. -/
def scalarize (op : Op) (t : Ty) (constant : Bool) : VectorExpr → VectorExpr → VectorExpr
  | .promotion a, .promotion b => .promotion (.binary op t none a b)
  | lhs, rhs => .binary op t constant lhs rhs

/-- The node of an operation whose operands have been walked. -/
def visitVector (fast_math : Bool) (op : Op) (t : Ty) (constant : Bool) (lhs rhs : VectorExpr) :
    Option VectorExpr := match op with
  | .mul => visitVectorMul t constant lhs rhs
  | .div => some (visitVectorDiv fast_math t constant lhs rhs)
  | .mod => some (scalarize .mod t constant lhs rhs)
  | .add => some (scalarize .add t constant lhs rhs)
  | .minus => some (scalarize .minus t constant lhs rhs)
  | op => some (.binary op t constant lhs rhs)

/-! ## Where the lanes are kept -/

/-- The exponent of a lane of a constant all of whose lanes are powers of two. -/
def VectorExpr.exponent (i : Nat) : VectorExpr → Option Nat
  | .promotion rhs => rhs.constant.bind pow2Exponent
  | .literal true const_list =>
    if const_list.all (fun integer_value => (pow2Exponent integer_value).isSome) then
      const_list[i]?.bind pow2Exponent
    else none
  | _ => none

/-- A shift of the sign by the second count gives the quotient by the power of two of the first: the counts
are the same or leave nothing of the dividend. A dividend with the highest bit set is shifted like a
negative one, so there must be nothing to divide by. -/
def Shifts (a : Word) (k k' : Nat) : Prop :=
  if a.msb then k = 0 ∧ (k' = 0 ∨ a = -1) else k = k' ∨ a.toNat < 2 ^ min k k'

/-- The rule for a node keeps its lanes: no product with a constant literal of powers of two on the left;
and of the quotients no reciprocal is taken, and each lane is shifted right by the count of the lane on the
other side. -/
def LanesKept (ρ : Nat → Word) (σ : Nat → Nat → Word) (n : Nat) (fast_math : Bool) (op : Op) (t : Ty)
    (lhs rhs : VectorExpr) : Prop :=
  match op with
  | .mul => ∀ const_list, lhs = .literal true const_list → ∃ c ∈ const_list, pow2Exponent c = none
  | .div => (lhs.isPromotion = true ∧ rhs.isPromotion = true) ∨
    ((∀ i < n, ∀ a ∈ lhs.lane ρ σ i, ∀ k ∈ rhs.exponent i, ∀ k' ∈ rhs.exponent (n - 1 - i), Shifts a k k') ∧
      (fast_math = true → rhs.isConstant = false →
        ∀ i < n, (VectorExpr.binary .div t false lhs rhs).lane ρ σ i = none))
  | _ => True

/-! ## One lane -/

/-- The quotient of a dividend that is not negative and a power of two. -/
theorem div_eval_twoPow {t : Ty} {a : Word} {k : Nat} (hk : k < 32) (ha : t = .signed → 0 ≤ a.toInt) :
    Op.div.eval t a (BitVec.twoPow 32 k) = some (a >>> k) := by
  have hzero : BitVec.twoPow 32 k ≠ 0 := by
    intro h
    have hnat := congrArg BitVec.toNat h
    rw [BitVec.toNat_twoPow_of_lt hk] at hnat
    exact absurd hnat (Nat.two_pow_pos k).ne'
  cases t with
  | unsigned => rw [Op.eval, if_neg hzero, BitVec.udiv_twoPow_eq_of_lt hk]
  | signed =>
    have hmsb : a.msb = false := by
      rw [BitVec.msb_eq_toInt, decide_eq_false_iff_not]
      exact not_lt.2 (ha rfl)
    rw [Op.eval, if_neg hzero, ofExact_eq_some, ← BitVec.sshiftRight_eq_of_msb_false hmsb]
    exact (toInt_sshiftRight_eq_tdiv_iff hk).2 (.inl (ha rfl))

theorem div_two_pow_eq_iff {a k k' : Nat} (hle : k ≤ k') : a / 2 ^ k' = a / 2 ^ k ↔ k = k' ∨ a < 2 ^ k := by
  rcases hle.eq_or_lt with rfl | hlt
  · simp
  rw [or_iff_right hlt.ne]
  have hsplit : a / 2 ^ k' = a / 2 ^ k / 2 ^ (k' - k) := by
    rw [Nat.div_div_eq_div_mul, ← pow_add, Nat.add_sub_cancel' hle]
  rw [hsplit, Nat.div_eq_self]
  have hpow : 2 ^ (k' - k) ≠ 1 := (Nat.one_lt_two_pow (by omega)).ne'
  rw [or_iff_left hpow, Nat.div_eq_zero_iff, or_iff_right (Nat.two_pow_pos k).ne']

/-- A negative number that a shift leaves as it is. -/
theorem sshiftRight_eq_self_iff {a : Word} {k : Nat} (hmsb : a.msb = true) (hk : k ≠ 0) :
    a.sshiftRight k = a ↔ a = -1 := by
  have hneg : a.toInt < 0 := BitVec.toInt_neg_of_msb_true hmsb
  have hpow : (2 : Int) ≤ ((2 ^ k : Nat) : Int) := by
    exact_mod_cast Nat.one_lt_two_pow hk
  have hone : (-1 : Word).toInt = -1 := by decide
  rw [← BitVec.toInt_inj, ← BitVec.toInt_inj (y := -1), BitVec.toInt_sshiftRight,
    Int.shiftRight_eq_div_pow, hone]
  constructor
  · intro h
    have := Int.lt_ediv_add_one_mul_self a.toInt (by omega : (0 : Int) < ((2 ^ k : Nat) : Int))
    rw [h] at this
    by_contra hne
    have hle := mul_le_mul_of_nonpos_left hpow (by omega : a.toInt + 1 ≤ 0)
    omega
  · intro h
    rw [h]
    generalize ((2 ^ k : Nat) : Int) = m at hpow
    exact ((Int.ediv_emod_unique (by omega : 0 < m)).2
      ⟨by omega, by omega, by omega⟩ : -1 / m = -1 ∧ -1 % m = m - 1).1

/-- **One lane**: the shift of the sign by one count is the shift by another. -/
theorem sshiftRight_eq_ushiftRight_iff {a : Word} {k k' : Nat} (hk' : k' < 32) :
    a.sshiftRight k' = a >>> k ↔ Shifts a k k' := by
  unfold Shifts
  split
  · next hmsb =>
    rcases Nat.eq_zero_or_pos k with rfl | hk
    · rw [BitVec.ushiftRight_zero]
      rcases Nat.eq_zero_or_pos k' with rfl | hk'
      · simp
      · rw [sshiftRight_eq_self_iff hmsb hk'.ne']
        simp [hk'.ne']
    · refine iff_of_false (fun h => ?_) fun h => absurd h.1 hk.ne'
      have hsign := congrArg BitVec.msb h
      rw [BitVec.msb_sshiftRight, hmsb, BitVec.msb_ushiftRight] at hsign
      simp [hk.ne'] at hsign
  · next hmsb =>
    rw [BitVec.sshiftRight_eq_of_msb_false (by simpa using hmsb), ← BitVec.toNat_inj,
      BitVec.toNat_ushiftRight, BitVec.toNat_ushiftRight, Nat.shiftRight_eq_div_pow,
      Nat.shiftRight_eq_div_pow]
    rcases Nat.le_total k k' with hle | hle
    · rw [div_two_pow_eq_iff hle, Nat.min_eq_left hle]
    · rw [eq_comm, div_two_pow_eq_iff hle, Nat.min_eq_right hle, eq_comm]

/-! ## One node -/

/-- The constant of a promoted scalar is the value of the scalar. -/
def VectorExpr.Constants (ρ : Nat → Word) (e : VectorExpr) : Prop :=
  ∀ s, e = .promotion s → ∀ c ∈ s.constant, s.eval ρ = some c

/-- A constant literal has a value for each lane. -/
def VectorExpr.Lanes (n : Nat) (e : VectorExpr) : Prop :=
  ∀ const_list, e = .literal true const_list → const_list.length = n

/-- All the values are powers of two. -/
abbrev allPow2 (const_list : List Word) : Bool :=
  const_list.all fun integer_value => (pow2Exponent integer_value).isSome

theorem pow2Exponent_eq_ctz {c : Word} (h : (pow2Exponent c).isSome = true) :
    pow2Exponent c = some (ctz c) := by
  unfold pow2Exponent at h ⊢
  split
  · rfl
  · next hne =>
    rw [if_neg hne] at h
    cases h

/-- The loop puts the shift counts together in reverse. -/
theorem shiftCounts_eq (const_list : List Word) : shiftCounts const_list =
    if allPow2 const_list then some (const_list.map fun c => BitVec.ofNat 32 (ctz c)).reverse else none := by
  have hnone (vs : List Word) : vs.foldl (fun result_list integer_value => result_list.bind fun counts =>
      (pow2Exponent integer_value).map fun ctz => BitVec.ofNat 32 ctz :: counts) none = none := by
    induction vs with
    | nil => rfl
    | cons c vs ih => exact ih
  have hsome (vs counts : List Word) : vs.foldl (fun result_list integer_value =>
      result_list.bind fun counts =>
        (pow2Exponent integer_value).map fun ctz => BitVec.ofNat 32 ctz :: counts) (some counts) =
      if allPow2 vs then some ((vs.map fun c => BitVec.ofNat 32 (ctz c)).reverse ++ counts) else none := by
    induction vs generalizing counts with
    | nil => rfl
    | cons c vs ih =>
      rw [List.foldl_cons, Option.bind_some]
      cases hc : pow2Exponent c with
      | none =>
        rw [Option.map_none, hnone, allPow2, List.all_cons, hc]
        rfl
      | some k =>
        have hctz : k = ctz c := Option.some.inj (hc.symm.trans (pow2Exponent_eq_ctz (by rw [hc]; rfl)))
        rw [Option.map_some, ih, allPow2, allPow2, List.all_cons, hc, hctz]
        simp
  rw [shiftCounts, hsome, List.append_nil]

section Node
variable {ρ : Nat → Word} {σ : Nat → Nat → Word} {n : Nat} {fast_math : Bool} {t : Ty} {constant : Bool}
  {lhs rhs : VectorExpr}

/-- The lanes of a literal of powers of two, and of its shift counts. -/
theorem lane_literal {const_list : List Word} {i : Nat} (hall : allPow2 const_list = true)
    (hi : i < const_list.length) :
    ∃ k < 32, (VectorExpr.literal true const_list).exponent i = some k ∧
      const_list[i]? = some (BitVec.twoPow 32 k) ∧
        (const_list.map fun c => BitVec.ofNat 32 (ctz c))[i]? = some (BitVec.ofNat 32 k) := by
  have hget : const_list[i]? = some const_list[i] := List.getElem?_eq_getElem hi
  have hpow := pow2Exponent_eq_ctz (List.all_eq_true.1 hall _ (List.getElem_mem hi))
  obtain ⟨-, hlt, htwo⟩ := pow2Exponent_eq_some hpow
  refine ⟨ctz const_list[i], hlt, ?_, ?_, ?_⟩
  · rw [VectorExpr.exponent, if_pos hall, hget, Option.bind_some, hpow]
  · rw [hget, ← htwo]
  · rw [List.getElem?_map, hget, Option.map_some]

/-- Only constants have exponents. -/
theorem VectorExpr.exponent_eq_none (hc : rhs.isConstant = false) (i : Nat) : rhs.exponent i = none := by
  cases rhs with
  | promotion b =>
    rw [VectorExpr.exponent, Option.isSome_eq_false_iff.1 hc |> Option.isNone_iff_eq_none.1]
    rfl
  | literal c vs =>
    cases c with
    | true => cases hc
    | false => rfl
  | var c x => rfl
  | binary op t c l r => rfl
  | rcp e => rfl

/-- What the rule does for a constant divisor: nothing, or a shift by the counts in reverse. -/
theorem divByConstant_cases (σ : Nat → Nat → Word) (t : Ty) (constant : Bool) (lhs : VectorExpr)
    (hc : rhs.isConstant = true) (hconst : rhs.Constants ρ) (hlanes : rhs.Lanes n) :
    (divByConstant t constant lhs rhs = .binary .div t constant lhs rhs ∧ ∀ i < n, rhs.exponent i = none) ∨
      ∃ rhs', divByConstant t constant lhs rhs = .binary .arithmeticShr t false lhs rhs' ∧
        ∀ i < n, ∃ k < 32, ∃ k' < 32, rhs.exponent i = some k ∧
          rhs.exponent (n - 1 - i) = some k' ∧ rhs.lane ρ σ i = some (BitVec.twoPow 32 k) ∧
            rhs'.lane ρ σ i = some (BitVec.ofNat 32 k') := by
  cases rhs with
  | promotion b =>
    rw [divByConstant]
    split
    · next k hk =>
      obtain ⟨c, hb, hpow⟩ := Option.bind_eq_some_iff.1 hk
      obtain ⟨-, hlt, rfl⟩ := pow2Exponent_eq_some hpow
      exact .inr ⟨_, rfl, fun i _ => ⟨k, hlt, k, hlt, hk, hk, hconst b rfl _ hb, rfl⟩⟩
    · next hk => exact .inl ⟨rfl, fun i _ => hk⟩
  | literal c vs =>
    obtain rfl : c = true := hc
    rw [divByConstant, shiftCounts_eq]
    split
    · next counts hcounts =>
      split at hcounts
      · next hall =>
        obtain rfl := Option.some.inj hcounts
        have hlen := hlanes vs rfl
        refine .inr ⟨_, rfl, fun i hi => ?_⟩
        obtain ⟨k, hlt, hk, htwo, -⟩ := lane_literal hall (by omega : i < vs.length)
        obtain ⟨k', hlt', hk', -, hcount⟩ := lane_literal hall (by omega : n - 1 - i < vs.length)
        refine ⟨k, hlt, k', hlt', hk, hk', htwo, ?_⟩
        rw [VectorExpr.lane, List.getElem?_reverse (by rw [List.length_map]; omega), List.length_map, hlen]
        exact hcount
      · cases hcounts
    · next hcounts =>
      split at hcounts
      · cases hcounts
      · next hall => exact .inl ⟨rfl, fun i _ => if_neg hall⟩
  | var c x => exact .inl ⟨rfl, fun _ _ => rfl⟩
  | binary op t c l r => exact .inl ⟨rfl, fun _ _ => rfl⟩
  | rcp e => cases hc

/-- What the rule for quotients does where not both operands are promoted: nothing, a shift by the counts in
reverse, or a reciprocal. -/
theorem visitVectorDiv_cases (σ : Nat → Nat → Word) (fast_math : Bool) (t : Ty) (constant : Bool)
    (hboth : ¬ (lhs.isPromotion = true ∧ rhs.isPromotion = true))
    (hconst : rhs.Constants ρ) (hlanes : rhs.Lanes n) :
    (visitVectorDiv fast_math t constant lhs rhs = .binary .div t constant lhs rhs ∧
        (∀ i < n, rhs.exponent i = none) ∧ (fast_math = true → rhs.isConstant = true)) ∨
      (∃ rhs', visitVectorDiv fast_math t constant lhs rhs = .binary .arithmeticShr t false lhs rhs' ∧
        rhs.isConstant = true ∧ ∀ i < n, ∃ k < 32, ∃ k' < 32, rhs.exponent i = some k ∧
          rhs.exponent (n - 1 - i) = some k' ∧ rhs.lane ρ σ i = some (BitVec.twoPow 32 k) ∧
            rhs'.lane ρ σ i = some (BitVec.ofNat 32 k')) ∨
      (visitVectorDiv fast_math t constant lhs rhs = .binary .mul t false lhs (.rcp rhs) ∧
        fast_math = true ∧ rhs.isConstant = false ∧ ∀ i < n, rhs.exponent i = none) := by
  have hnode : visitVectorDiv fast_math t constant lhs rhs =
      if rhs.isConstant then divByConstant t constant lhs rhs
      else if fast_math then .binary .mul t false lhs (.rcp rhs)
      else .binary .div t constant lhs rhs := by
    unfold visitVectorDiv
    split
    · exact absurd ⟨rfl, rfl⟩ hboth
    · rfl
  rw [hnode]
  cases hc : rhs.isConstant with
  | false =>
    have hexponent := VectorExpr.exponent_eq_none hc
    rw [if_neg (by decide)]
    split
    · next hfast => exact .inr (.inr ⟨rfl, hfast, rfl, fun i _ => hexponent i⟩)
    · next hfast => exact .inl ⟨rfl, fun i _ => hexponent i, fun h => absurd h hfast⟩
  | true =>
    rw [if_pos rfl]
    rcases divByConstant_cases σ t constant lhs hc hconst hlanes with ⟨hsame, hexponent⟩ | ⟨rhs', hshift, hk⟩
    · exact .inl ⟨hsame, hexponent, fun _ => rfl⟩
    · exact .inr (.inl ⟨rhs', hshift, rfl, hk⟩)

theorem eq_promotion {e : VectorExpr} (h : e.isPromotion = true) : ∃ s, e = .promotion s := by
  cases e with
  | promotion s => exact ⟨s, rfl⟩
  | var c x => cases h
  | literal c vs => cases h
  | binary op t c l r => cases h
  | rcp e => cases h

theorem lane_binary (op : Op) {i : Nat} {a b : Word} (ha : lhs.lane ρ σ i = some a)
    (hb : rhs.lane ρ σ i = some b) :
    (VectorExpr.binary op t constant lhs rhs).lane ρ σ i = op.evalLane t a b := by
  rw [VectorExpr.lane, ha, hb]
  rfl

/-- The quotients of a lane and what stands in its place after the shift. -/
theorem lane_shift_iff {rhs' : VectorExpr} {i k k' : Nat} (hk : k < 32) (hk' : k' < 32)
    (hpos : t = .signed → ∀ a ∈ lhs.lane ρ σ i, 0 ≤ a.toInt)
    (hb : rhs.lane ρ σ i = some (BitVec.twoPow 32 k)) (hb' : rhs'.lane ρ σ i = some (BitVec.ofNat 32 k')) :
    (∀ v ∈ (VectorExpr.binary .div t constant lhs rhs).lane ρ σ i,
        (VectorExpr.binary .arithmeticShr t false lhs rhs').lane ρ σ i = some v) ↔
      ∀ a ∈ lhs.lane ρ σ i, Shifts a k k' := by
  cases ha : lhs.lane ρ σ i with
  | none =>
    have hnone : (VectorExpr.binary .div t constant lhs rhs).lane ρ σ i = none := by
      rw [VectorExpr.lane, ha]
      rfl
    rw [hnone]
    exact iff_of_true nofun nofun
  | some a =>
    have hdiv : (VectorExpr.binary .div t constant lhs rhs).lane ρ σ i = some (a >>> k) :=
      (lane_binary .div ha hb).trans (div_eval_twoPow hk fun ht => hpos ht a ha)
    have hshr : (VectorExpr.binary .arithmeticShr t false lhs rhs').lane ρ σ i = some (a.sshiftRight k') := by
      rw [lane_binary .arithmeticShr ha hb', Op.evalLane, toNat_ofNat_of_lt hk', if_pos hk']
    rw [hdiv, hshr]
    simp only [Option.mem_def, Option.some.injEq, forall_eq', sshiftRight_eq_ushiftRight_iff hk']

/-- The lanes of a quotient. -/
theorem visitVectorDiv_lane_iff (hconst : rhs.Constants ρ) (hlanes : rhs.Lanes n)
    (hpos : t = .signed → ∀ i < n, ∀ a ∈ lhs.lane ρ σ i, 0 ≤ a.toInt) :
    (∀ i < n, ∀ v ∈ (VectorExpr.binary .div t constant lhs rhs).lane ρ σ i,
        (visitVectorDiv fast_math t constant lhs rhs).lane ρ σ i = some v) ↔
      LanesKept ρ σ n fast_math .div t lhs rhs := by
  by_cases hboth : lhs.isPromotion = true ∧ rhs.isPromotion = true
  · obtain ⟨a, rfl⟩ := eq_promotion hboth.1
    obtain ⟨b, rfl⟩ := eq_promotion hboth.2
    exact iff_of_true (fun i _ v hv => hv) (.inl hboth)
  rw [LanesKept, or_iff_right hboth]
  rcases visitVectorDiv_cases σ fast_math t constant hboth hconst hlanes
    with ⟨hnode, hexp, hfast⟩ | ⟨rhs', hnode, hc, hshift⟩ | ⟨hnode, hfast, hc, hexp⟩
  · rw [hnode]
    refine iff_of_true (fun i _ v hv => hv) ⟨fun i hi a _ k hk => ?_, fun hf hc => ?_⟩
    · cases (hexp i hi).symm.trans hk
    · cases (hfast hf).symm.trans hc
  · rw [hnode, and_iff_left fun _ hc' => by cases hc.symm.trans hc']
    refine forall₂_congr fun i hi => ?_
    obtain ⟨k, hk, k', hk', hexp, hexp', hb, hb'⟩ := hshift i hi
    rw [lane_shift_iff hk hk' (fun ht => hpos ht i hi) hb hb', hexp, hexp']
    simp only [Option.mem_def, Option.some.injEq, forall_eq']
  · have hnone (i : Nat) : (visitVectorDiv fast_math t constant lhs rhs).lane ρ σ i = none := by
      rw [hnode, VectorExpr.lane, VectorExpr.lane]
      cases lhs.lane ρ σ i <;> rfl
    have hfirst : ∀ i < n, ∀ a ∈ lhs.lane ρ σ i, ∀ k ∈ rhs.exponent i, ∀ k' ∈ rhs.exponent (n - 1 - i),
        Shifts a k k' := fun i hi a _ k hk => by cases (hexp i hi).symm.trans hk
    rw [and_iff_right hfirst, forall_prop_of_true hfast, forall_prop_of_true hc]
    refine forall₂_congr fun i hi => ?_
    rw [hnone, Option.eq_none_iff_forall_ne_some]
    constructor
    · intro h v hv
      cases h v hv
    · exact fun h v hv => absurd hv (h v)

/-- A product with a promoted power of two. -/
theorem lane_shl {i k : Nat} {v : Word} (hk : k < 32) (ha : lhs.lane ρ σ i = some (BitVec.twoPow 32 k))
    (hv : (VectorExpr.binary .mul t constant lhs rhs).lane ρ σ i = some v) :
    (VectorExpr.binary .bitwiseShl t false rhs (.promotion (.lit (BitVec.ofNat 32 k)))).lane ρ σ i =
      some v := by
  rw [VectorExpr.lane, ha, Option.bind_some] at hv
  obtain ⟨b, hb, hv⟩ := Option.bind_eq_some_iff.1 hv
  have hmul : v = BitVec.twoPow 32 k * b := by
    cases t with
    | signed => exact eq_mul_of_ofExact hv
    | unsigned => exact (Option.some.inj hv).symm
  rw [lane_binary .bitwiseShl hb rfl, Op.evalLane, Op.eval, toNat_ofNat_of_lt hk, if_pos hk, hmul,
    BitVec.twoPow_mul_eq_shiftLeft]
  intro h
  cases h

/-- The lanes of a product. -/
theorem visitVectorMul_lane_iff (hconst : lhs.Constants ρ) :
    (∃ e, visitVectorMul t constant lhs rhs = some e ∧ ∀ i < n,
        ∀ v ∈ (VectorExpr.binary .mul t constant lhs rhs).lane ρ σ i, e.lane ρ σ i = some v) ↔
      LanesKept ρ σ n fast_math .mul t lhs rhs := by
  unfold visitVectorMul
  split
  · exact iff_of_true ⟨_, rfl, fun i _ v hv => hv⟩ nofun
  · next a _ =>
    refine iff_of_true ?_ nofun
    split
    · next k hk =>
      obtain ⟨c, ha, hpow⟩ := Option.bind_eq_some_iff.1 hk
      obtain ⟨-, hlt, rfl⟩ := pow2Exponent_eq_some hpow
      have hlane (i : Nat) : (VectorExpr.promotion a).lane ρ σ i = some (BitVec.twoPow 32 k) :=
        hconst a rfl _ ha
      exact ⟨_, rfl, fun i _ v hv => lane_shl hlt (hlane i) hv⟩
    · exact ⟨_, rfl, fun i _ v hv => hv⟩
  · next const_list =>
    have hkept : LanesKept ρ σ n fast_math .mul t (.literal true const_list) rhs ↔
        ¬ allPow2 const_list = true := by
      simp only [LanesKept, VectorExpr.literal.injEq, true_and, forall_eq', allPow2, List.all_eq_true,
        not_forall, Option.not_isSome_iff_eq_none, exists_prop]
    rw [hkept]
    split
    · next hall => exact iff_of_false (fun ⟨_, he, _⟩ => nomatch he) fun h => h hall
    · next hall => exact iff_of_true ⟨_, rfl, fun i _ v hv => hv⟩ hall
  · next hliteral _ =>
    exact iff_of_true ⟨_, rfl, fun i _ v hv => hv⟩ fun const_list hlhs => absurd hlhs (hliteral const_list)

theorem scalarize_lane (op : Op) (hop : op ≠ .arithmeticShr) {i : Nat} {v : Word}
    (hv : (VectorExpr.binary op t constant lhs rhs).lane ρ σ i = some v) :
    (scalarize op t constant lhs rhs).lane ρ σ i = some v := by
  unfold scalarize
  split
  · rw [← hv]
    cases op <;> first | rfl | exact absurd rfl hop
  · exact hv

/-- A node whose rule keeps its lanes. -/
theorem visitVector_lane (op : Op) (constant : Bool) (hl : lhs.Constants ρ) (hr : rhs.Constants ρ)
    (hlanes : rhs.Lanes n) (hpos : t = .signed → ∀ i < n, ∀ a ∈ lhs.lane ρ σ i, 0 ≤ a.toInt)
    (h : LanesKept ρ σ n fast_math op t lhs rhs) :
    ∃ e, visitVector fast_math op t constant lhs rhs = some e ∧ ∀ i < n,
      ∀ v ∈ (VectorExpr.binary op t constant lhs rhs).lane ρ σ i, e.lane ρ σ i = some v := by
  cases op
  case mul => exact (visitVectorMul_lane_iff hl).2 h
  case div => exact ⟨_, rfl, (visitVectorDiv_lane_iff hr hlanes hpos).2 h⟩
  case mod => exact ⟨_, rfl, fun i _ v hv => scalarize_lane .mod nofun hv⟩
  case add => exact ⟨_, rfl, fun i _ v hv => scalarize_lane .add nofun hv⟩
  case minus => exact ⟨_, rfl, fun i _ v hv => scalarize_lane .minus nofun hv⟩
  all_goals exact ⟨_, rfl, fun i _ v hv => hv⟩

end Node

/-- **The lanes of a node that is visited** are kept exactly if `LanesKept`. -/
theorem visitVector_lane_iff (ρ : Nat → Word) (σ : Nat → Nat → Word) (n : Nat) (fast_math : Bool) (op : Op)
    (t : Ty) (constant : Bool) (lhs rhs : VectorExpr) (hl : lhs.Constants ρ) (hr : rhs.Constants ρ)
    (hlanes : rhs.Lanes n) (hpos : t = .signed → ∀ i < n, ∀ a ∈ lhs.lane ρ σ i, 0 ≤ a.toInt) :
    (∃ e, visitVector fast_math op t constant lhs rhs = some e ∧ ∀ i < n,
        ∀ v ∈ (VectorExpr.binary op t constant lhs rhs).lane ρ σ i, e.lane ρ σ i = some v) ↔
      LanesKept ρ σ n fast_math op t lhs rhs := by
  refine ⟨fun ⟨e, he, hlane⟩ => ?_, visitVector_lane op constant hl hr hlanes hpos⟩
  cases op
  case mul => exact (visitVectorMul_lane_iff hl).1 ⟨e, he, hlane⟩
  case div =>
    obtain rfl := Option.some.inj he
    exact (visitVectorDiv_lane_iff hr hlanes hpos).1 hlane
  all_goals trivial

/-- A literal that reads the same from both sides. -/
theorem visitVector_lane_iff_mirror :
    let rhs : VectorExpr := .literal true [2#32, 4#32, 4#32, 2#32]
    ∃ e, visitVector false .div .signed false (.var false 0) rhs = some e ∧ ∀ i < 4,
      ∀ v ∈ (VectorExpr.binary .div .signed false (.var false 0) rhs).lane (fun _ => 0) (fun _ _ => 9#32) i,
        e.lane (fun _ => 0) (fun _ _ => 9#32) i = some v := by
  intro rhs
  refine (visitVector_lane_iff (fun _ => 0) (fun _ _ => 9#32) 4 false .div .signed false (.var false 0) rhs
    nofun nofun ?_ ?_).2 (.inr ⟨?_, nofun⟩)
  · intro const_list h
    exact congrArg List.length (VectorExpr.literal.inj h).2.symm
  · intro _ i _ a ha
    obtain rfl : 9#32 = a := Option.some.inj ha
    decide
  · intro i hi a ha k hk k' hk'
    obtain rfl : 9#32 = a := Option.some.inj ha
    have hexp : ∀ i < 4, rhs.exponent i = rhs.exponent (4 - 1 - i) := by decide
    rw [Shifts, if_neg (by decide)]
    exact .inl (Option.some.inj (hk.symm.trans ((hexp i hi).trans hk')))

/-- A product with a literal of powers of two cannot be built, and the lanes of a quotient by one are
shifted in reverse. -/
theorem not_visitVector_lane :
    let const_list : VectorExpr := .literal true [2#32, 4#32]
    let node : VectorExpr := .binary .div .signed false (.var false 0) const_list
    visitVector false .mul .signed false const_list (.var false 0) = none ∧
      node.lane (fun _ => 0) (fun _ _ => 8#32) 0 = some 4#32 ∧
        (visitVector false .div .signed false (.var false 0) const_list).bind
          (VectorExpr.lane (fun _ => 0) (fun _ _ => 8#32) 0) = some 2#32 := by
  decide

end OmpSs.Mcxx.StrengthReduction
