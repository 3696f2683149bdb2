import OmpSs.Lib.Word

/-!
# Strength reduction

The scalar rules of `StrengthReduction` (`mcxx/src/tl/optimizations/tl-strength-reduction.cpp:50`): a
product with a constant power of two on its left becomes a shift left, a quotient by one a shift right, and
an unsigned remainder by one a mask. The operands of a node are reduced before the node; a node that a rule
replaces has no constant any more, so it does not fire the rule of the node around it.

A shift right rounds down, and the signed division rounds towards zero. `walk_preserves_iff` says that the
quotients with a negative dividend that a signed power of two does not divide are the only ones that
change.
-/

namespace OmpSs.Mcxx.StrengthReduction

open Lib.Word

/-! ## Expressions and their values -/

inductive Ty
  | signed
  | unsigned
deriving DecidableEq

abbrev Word := BitVec 32

inductive Op
  | add
  | minus
  | mul
  | div
  | mod
  | bitwiseShl
  | arithmeticShr
  | bitwiseAnd
deriving DecidableEq

/-- The integer expressions of 32 bits. The signedness of a value matters to the operations alone, and the
compiler converts the operands of an operation to its type; so the type stands at the operation, and a
conversion leaves the bits as they are. A node other than a literal may have a constant value, that of the
expression it stands for. -/
inductive Expr
  | lit (v : Word)
  | var (cv : Option Word) (x : Nat)
  | conversion (cv : Option Word) (nest : Expr)
  | binary (op : Op) (t : Ty) (cv : Option Word) (lhs rhs : Expr)
deriving DecidableEq

/-- The constant value of a node. Source: `is_constant` and `get_constant`. -/
def Expr.constant : Expr → Option Word
  | .lit v => some v
  | .var cv _ => cv
  | .conversion cv _ => cv
  | .binary _ _ cv _ _ => cv

/-- The operations of C; `none`: signed overflow, a division by zero, or a shift by too many bits. A shift
moves the bits of a negative number, and the sign comes in from the left. -/
def Op.eval : Op → Ty → Word → Word → Option Word
  | .add, .signed, a, b => ofExact 32 (a.toInt + b.toInt)
  | .add, .unsigned, a, b => some (a + b)
  | .minus, .signed, a, b => ofExact 32 (a.toInt - b.toInt)
  | .minus, .unsigned, a, b => some (a - b)
  | .mul, .signed, a, b => ofExact 32 (a.toInt * b.toInt)
  | .mul, .unsigned, a, b => some (a * b)
  | .div, .signed, a, b => if b = 0 then none else ofExact 32 (a.toInt.tdiv b.toInt)
  | .div, .unsigned, a, b => if b = 0 then none else some (a / b)
  | .mod, .signed, a, b => if b = 0 then none else
      (ofExact 32 (a.toInt.tdiv b.toInt)).bind fun _ => ofExact 32 (a.toInt.tmod b.toInt)
  | .mod, .unsigned, a, b => if b = 0 then none else some (a % b)
  | .bitwiseShl, _, a, b => if b.toNat < 32 then some (a <<< b.toNat) else none
  | .arithmeticShr, .signed, a, b => if b.toNat < 32 then some (a.sshiftRight b.toNat) else none
  | .arithmeticShr, .unsigned, a, b => if b.toNat < 32 then some (a >>> b.toNat) else none
  | .bitwiseAnd, _, a, b => some (a &&& b)

/-- The value of an expression under an assignment of the variables. -/
def Expr.eval (ρ : Nat → Word) : Expr → Option Word
  | .lit v => some v
  | .var _ x => some (ρ x)
  | .conversion _ e => e.eval ρ
  | .binary op t _ l r => (l.eval ρ).bind fun a => (r.eval ρ).bind fun b => op.eval t a b

/-- The constants of the nodes are the values of the nodes, where they have one. -/
def Expr.Annotated (ρ : Nat → Word) : Expr → Prop
  | .lit _ => True
  | .var cv x => ∀ c ∈ cv, ρ x = c
  | .conversion cv e => e.Annotated ρ ∧ ∀ c ∈ cv, ∀ v ∈ e.eval ρ, v = c
  | .binary op t cv l r =>
    l.Annotated ρ ∧ r.Annotated ρ ∧ ∀ c ∈ cv, ∀ v ∈ (Expr.binary op t cv l r).eval ρ, v = c

def Expr.subexpressions : Expr → List Expr
  | .lit v => [.lit v]
  | .var cv x => [.var cv x]
  | .conversion cv e => .conversion cv e :: e.subexpressions
  | .binary op t cv l r => .binary op t cv l r :: (l.subexpressions ++ r.subexpressions)

/-! ## The rules -/

/-- The exponent of a power of two. Source: the test `__builtin_popcount(integer_value) == 1`. -/
def pow2Exponent (integer_value : Word) : Option Nat :=
  if popcount integer_value = 1 then some (ctz integer_value) else none

/-- Source: `visit(const Nodecl::Mul&)` (`tl-strength-reduction.cpp:50`), after the walk of the operands. -/
def visitMul (t : Ty) (cv : Option Word) (lhs rhs : Expr) : Expr :=
  match lhs.constant.bind pow2Exponent with
  | some k => .binary .bitwiseShl t none rhs (.lit (BitVec.ofNat 32 k))
  | none => .binary .mul t cv lhs rhs

/-- Source: `visit(const Nodecl::Div&)` (`tl-strength-reduction.cpp:113`), for integers. -/
def visitDiv (t : Ty) (cv : Option Word) (lhs rhs : Expr) : Expr :=
  match rhs.constant.bind pow2Exponent with
  | some k => .binary .arithmeticShr t none lhs (.lit (BitVec.ofNat 32 k))
  | none => .binary .div t cv lhs rhs

/-- Source: `visit(const Nodecl::Mod&)` (`tl-strength-reduction.cpp:174`). -/
def visitMod (t : Ty) (cv : Option Word) (lhs rhs : Expr) : Expr :=
  match t, rhs.constant with
  | .unsigned, some integer_value =>
    if popcount integer_value = 1 then
      .binary .bitwiseAnd t none lhs (.lit (integer_value - 1))
    else .binary .mod t cv lhs rhs
  | _, _ => .binary .mod t cv lhs rhs

/-- The node of an operation whose operands have been walked. -/
def visit (op : Op) (t : Ty) (cv : Option Word) (lhs rhs : Expr) : Expr := match op with
  | .mul => visitMul t cv lhs rhs
  | .div => visitDiv t cv lhs rhs
  | .mod => visitMod t cv lhs rhs
  | op => .binary op t cv lhs rhs

/-- The expression that the walk leaves in the place of another. -/
def walk : Expr → Expr
  | .lit v => .lit v
  | .var cv x => .var cv x
  | .conversion cv e => .conversion cv (walk e)
  | .binary op t cv l r => visit op t cv (walk l) (walk r)

/-! ## Which rules fire -/

/-- Whether the rule of a node replaces it, by the constants that its operands have left. -/
def fires : Op → Ty → Option Word → Option Word → Bool
  | .mul, _, l, _ => (l.bind pow2Exponent).isSome
  | .div, _, _, r => (r.bind pow2Exponent).isSome
  | .mod, .unsigned, _, r => (r.bind pow2Exponent).isSome
  | _, _, _, _ => false

/-- The constant that a node has left after the walk: a node that is replaced has none. -/
def Expr.constantLeft : Expr → Option Word
  | .lit v => some v
  | .var cv _ => cv
  | .conversion cv _ => cv
  | .binary op t cv l r => if fires op t l.constantLeft r.constantLeft then none else cv

/-- A quotient that a shift gives too: the dividend is not negative, or a positive divisor divides it. -/
def Exact (a c : Word) : Prop := 0 ≤ a.toInt ∨ 0 < c.toInt ∧ c.toInt ∣ a.toInt

/-- Every signed division whose rule fires is by a power of two that leaves nothing to round up. -/
def Expr.RoundsRight (ρ : Nat → Word) : Expr → Prop
  | .lit _ => True
  | .var _ _ => True
  | .conversion _ e => e.RoundsRight ρ
  | .binary op t _ l r => l.RoundsRight ρ ∧ r.RoundsRight ρ ∧
    (op = .div → t = .signed → ∀ c ∈ r.constantLeft, popcount c = 1 → ∀ a ∈ l.eval ρ, Exact a c)

/-- The walk keeps the value of the expression and of each expression in it. -/
def Kept (ρ : Nat → Word) (e : Expr) : Prop :=
  ∀ s ∈ e.subexpressions, (walk s).eval ρ = s.eval ρ

theorem pow2Exponent_eq_some {c : Word} {k : Nat} (h : pow2Exponent c = some k) :
    popcount c = 1 ∧ k < 32 ∧ c = BitVec.twoPow 32 k := by
  unfold pow2Exponent at h
  split at h
  case isTrue hp =>
    cases h
    exact ⟨hp, eq_twoPow_of_popcount hp⟩
  case isFalse => cases h

theorem constant_visit (op : Op) (t : Ty) (cv : Option Word) (l r : Expr) :
    (visit op t cv l r).constant = if fires op t l.constant r.constant then none else cv := by
  cases op
  case mul =>
    rw [visit, visitMul, fires]
    split
    case h_1 hk => rw [hk]; rfl
    case h_2 hk => rw [hk]; rfl
  case div =>
    rw [visit, visitDiv, fires]
    split
    case h_1 hk => rw [hk]; rfl
    case h_2 hk => rw [hk]; rfl
  case mod =>
    cases t
    case signed => rfl
    case unsigned =>
      simp only [visit, visitMod, fires]
      cases r.constant with
      | none => rfl
      | some c =>
        simp only [Option.bind_some, pow2Exponent]
        split <;> rfl
  all_goals rfl

theorem constant_walk (e : Expr) : (walk e).constant = e.constantLeft := by
  induction e with
  | lit v => rfl
  | var cv x => rfl
  | conversion cv e _ => rfl
  | binary op t cv l r ihl ihr =>
    rw [walk, constant_visit, ihl, ihr]
    rfl

/-- The walk adds no constant. -/
theorem constant_of_constantLeft {e : Expr} {c : Word} (h : e.constantLeft = some c) :
    e.constant = some c := by
  cases e with
  | lit v => exact h
  | var cv x => exact h
  | conversion cv e => exact h
  | binary op t cv l r =>
    rw [Expr.constantLeft] at h
    split at h
    · cases h
    · exact h

theorem Expr.Annotated.constant_eq {ρ : Nat → Word} {e : Expr} {c v : Word} (h : e.Annotated ρ)
    (hc : e.constant = some c) (hv : e.eval ρ = some v) : v = c := by
  cases e with
  | lit w =>
    cases hc
    cases hv
    rfl
  | var cv x =>
    cases hv
    exact h c hc
  | conversion cv e => exact h.2 c hc v hv
  | binary op t cv l r => exact h.2.2 c hc v hv

/-! ## One node -/

/-- A product that does not overflow is the product of the words. -/
theorem eq_mul_of_ofExact {a b v : Word} (h : ofExact 32 (a.toInt * b.toInt) = some v) : v = a * b := by
  rw [ofExact_eq_some] at h
  rw [← BitVec.ofInt_toInt (x := v), h, BitVec.ofInt_mul, BitVec.ofInt_toInt, BitVec.ofInt_toInt]

theorem toNat_ofNat_of_lt {k : Nat} (h : k < 32) : (BitVec.ofNat 32 k).toNat = k := by
  rw [BitVec.toNat_ofNat, Nat.mod_eq_of_lt (by omega)]

section Node
variable {ρ : Nat → Word} {t : Ty} {cv : Option Word} {l r : Expr} {a b v : Word}
  (hl : l.eval ρ = some a) (hr : r.eval ρ = some b)

theorem eval_binary (op : Op) (hl : l.eval ρ = some a) (hr : r.eval ρ = some b) :
    (Expr.binary op t cv l r).eval ρ = op.eval t a b := by
  simp only [Expr.eval, hl, hr, Option.bind_some]

include hl hr

/-- The shift that replaces a product has the value of the product. -/
theorem eval_visitMul (hc : ∀ c ∈ l.constant, a = c) (hv : Op.mul.eval t a b = some v) :
    (visitMul t cv l r).eval ρ = some v := by
  unfold visitMul
  split
  case h_1 k hk =>
    obtain ⟨c, hlc, hk⟩ := Option.bind_eq_some_iff.1 hk
    obtain ⟨_, hlt, rfl⟩ := pow2Exponent_eq_some hk
    obtain rfl := hc _ hlc
    have hmul : v = BitVec.twoPow 32 k * b := by
      cases t with
      | signed => exact eq_mul_of_ofExact hv
      | unsigned => exact (Option.some.inj hv).symm
    rw [eval_binary _ hr rfl, Op.eval, toNat_ofNat_of_lt hlt, if_pos hlt, hmul,
      BitVec.twoPow_mul_eq_shiftLeft]
  case h_2 => rw [eval_binary _ hl hr, hv]

/-- The mask that replaces an unsigned remainder has the value of the remainder. -/
theorem eval_visitMod (hc : ∀ c ∈ r.constant, b = c) (hv : Op.mod.eval t a b = some v) :
    (visitMod t cv l r).eval ρ = some v := by
  unfold visitMod
  split
  case h_1 c hrc =>
    split
    case isTrue hp =>
      obtain rfl := hc c hrc
      obtain ⟨hlt, hb⟩ := eq_twoPow_of_popcount hp
      rw [eval_binary _ hl rfl]
      simp only [Op.eval] at hv ⊢
      split at hv
      · cases hv
      · rw [← hv, hb, umod_twoPow hlt]
    case isFalse => rw [eval_binary _ hl hr, hv]
  case h_2 => rw [eval_binary _ hl hr, hv]

/-- **The shift that replaces a quotient has the value of the quotient exactly when a signed one is
exact**. -/
theorem eval_visitDiv (hc : ∀ c ∈ r.constant, b = c) (hv : Op.div.eval t a b = some v) :
    (visitDiv t cv l r).eval ρ = some v ↔
      (t = .signed → ∀ c ∈ r.constant, popcount c = 1 → Exact a c) := by
  unfold visitDiv
  split
  case h_1 k hk =>
    obtain ⟨c, hrc, hk⟩ := Option.bind_eq_some_iff.1 hk
    obtain ⟨hp, hlt, hck⟩ := pow2Exponent_eq_some hk
    obtain rfl := hc _ hrc
    rw [eval_binary _ hl rfl]
    cases t with
    | unsigned =>
      simp only [Op.eval, toNat_ofNat_of_lt hlt, if_pos hlt] at hv ⊢
      split at hv
      case isTrue => cases hv
      case isFalse =>
        rw [← hv, hck, BitVec.udiv_twoPow_eq_of_lt hlt]
        exact iff_of_true rfl (fun h => by cases h)
    | signed =>
      simp only [Op.eval, toNat_ofNat_of_lt hlt, if_pos hlt] at hv ⊢
      split at hv
      case isTrue => cases hv
      case isFalse =>
        rw [ofExact_eq_some] at hv
        have hiff := toInt_sshiftRight_eq_tdiv_iff (x := a) hlt
        rw [← hck, ← hv] at hiff
        rw [Option.some.injEq, ← BitVec.toInt_inj, hiff]
        constructor
        · intro h _ c hc' _
          cases hrc.symm.trans hc'
          exact h
        · intro h
          exact h trivial _ hrc hp
  case h_2 hk =>
    rw [eval_binary _ hl hr, hv]
    refine iff_of_true rfl fun _ c hrc hp => ?_
    rw [hrc, Option.bind_some, pow2Exponent, if_pos hp] at hk
    cases hk

/-- One node, after its operands kept their values. -/
theorem eval_visit (op : Op) (hlc : ∀ c ∈ l.constant, a = c) (hrc : ∀ c ∈ r.constant, b = c)
    (hv : op.eval t a b = some v) :
    (visit op t cv l r).eval ρ = some v ↔
      (op = .div → t = .signed → ∀ c ∈ r.constant, popcount c = 1 → Exact a c) := by
  cases op
  case div =>
    rw [visit, eval_visitDiv hl hr hrc hv]
    exact ⟨fun h _ => h, fun h => h rfl⟩
  case mul => exact iff_of_true (eval_visitMul hl hr hlc hv) (fun h => by cases h)
  case mod => exact iff_of_true (eval_visitMod hl hr hrc hv) (fun h => by cases h)
  all_goals exact iff_of_true ((eval_binary _ hl hr).trans hv) (fun h => by cases h)

end Node

/-! ## Every node -/

/-- An expression with a value has operands with values. -/
theorem eval_binary_eq_some {ρ : Nat → Word} {op : Op} {t : Ty} {cv : Option Word} {l r : Expr} {v : Word}
    (h : (Expr.binary op t cv l r).eval ρ = some v) :
    ∃ a b, l.eval ρ = some a ∧ r.eval ρ = some b ∧ op.eval t a b = some v := by
  obtain ⟨a, ha, h⟩ := Option.bind_eq_some_iff.1 h
  obtain ⟨b, hb, h⟩ := Option.bind_eq_some_iff.1 h
  exact ⟨a, b, ha, hb, h⟩

theorem kept_conversion {ρ : Nat → Word} {cv : Option Word} {e : Expr} :
    Kept ρ (.conversion cv e) ↔ Kept ρ e := by
  unfold Kept
  rw [Expr.subexpressions, List.forall_mem_cons]
  constructor
  · intro h
    exact h.2
  · intro h
    have hself : e ∈ e.subexpressions := by cases e <;> exact List.mem_cons_self
    exact ⟨h e hself, h⟩

theorem kept_binary {ρ : Nat → Word} {op : Op} {t : Ty} {cv : Option Word} {l r : Expr} :
    Kept ρ (.binary op t cv l r) ↔ Kept ρ l ∧ Kept ρ r ∧
      (visit op t cv (walk l) (walk r)).eval ρ = (Expr.binary op t cv l r).eval ρ := by
  unfold Kept
  rw [Expr.subexpressions, List.forall_mem_cons, List.forall_mem_append, walk]
  tauto

theorem Kept.self {ρ : Nat → Word} {e : Expr} (h : Kept ρ e) : (walk e).eval ρ = e.eval ρ := by
  have hself : e ∈ e.subexpressions := by cases e <;> exact List.mem_cons_self
  exact h e hself

/-- The values are kept, in the expression and all over it, exactly when the signed divisions round
right. -/
theorem kept_iff {ρ : Nat → Word} {e : Expr} {v : Word} (ha : e.Annotated ρ) (hv : e.eval ρ = some v) :
    Kept ρ e ↔ e.RoundsRight ρ := by
  induction e generalizing v with
  | lit w => simp [Kept, Expr.subexpressions, walk, Expr.RoundsRight]
  | var cv x => simp [Kept, Expr.subexpressions, walk, Expr.RoundsRight]
  | conversion cv e ih => rw [kept_conversion, ih ha.1 hv, Expr.RoundsRight]
  | binary op t cv l r ihl ihr =>
    obtain ⟨a, b, hla, hrb, hop⟩ := eval_binary_eq_some hv
    have ihl := ihl ha.1 hla
    have ihr := ihr ha.2.1 hrb
    rw [kept_binary, Expr.RoundsRight, ihl, ihr, hv]
    refine and_congr_right fun hl => and_congr_right fun hr => ?_
    have hwl : (walk l).eval ρ = some a := (ihl.2 hl).self.trans hla
    have hwr : (walk r).eval ρ = some b := (ihr.2 hr).self.trans hrb
    have hlc : ∀ c ∈ (walk l).constant, a = c := by
      intro c hc
      rw [Option.mem_def, constant_walk] at hc
      exact ha.1.constant_eq (constant_of_constantLeft hc) hla
    have hrc : ∀ c ∈ (walk r).constant, b = c := by
      intro c hc
      rw [Option.mem_def, constant_walk] at hc
      exact ha.2.1.constant_eq (constant_of_constantLeft hc) hrb
    rw [eval_visit hwl hwr op hlc hrc hop, constant_walk, hla]
    constructor
    · intro h hd ht c hc hp a' ha'
      cases ha'
      exact h hd ht c hc hp
    · intro h hd ht c hc hp
      exact h hd ht c hc hp a rfl

/-- The quotient `x / 2` of a signed variable. -/
def half : Expr := .binary .div .signed none (.var none 0) (.lit 2#32)

end OmpSs.Mcxx.StrengthReduction
