import Mathlib.Order.Nat

/-!
# Expression reduction

The visitor that reduces expressions (`mcxx/src/tl/optimizations/tl-expression-reduction.cpp:40`) walks a
tree from the leaves up and rewrites each sum, difference and remainder whose operands it has rewritten:
constants are folded, constants of nested sums and differences are joined (the rules `R6a` to `R6h`), terms
that two sums share are dropped (`R30a` to `R30d`), and constants are moved to the front of sums (`R50a` to
`R51b`). Rule `R30c` makes a difference that it walks again.

`Slip` lists the visits that change a value: a difference of a cancelled constant and a term becomes the
term, not its opposite; `R30a` drops a sign; `R30d` subtracts a term from itself; and `1 % t` becomes `1`
for `t` one or minus one too. All other visits keep the value (`Kept.of_not_slip`), and so does a walk
without slips (`reduce_preserves`).
-/

namespace OmpSs.Mcxx.ExpressionReduction

/-! ## Expressions and their values -/

inductive Op
  | add
  | minus
  | mod
deriving DecidableEq

/-- The expressions over exact integers. A node may have a constant, the value the compiler computed for
it. -/
inductive Expr
  | const (v : Int)
  | var (x : Nat)
  | binary (op : Op) (cv : Option Int) (lhs rhs : Expr)
deriving DecidableEq

/-- The constant of a node. Source: `is_constant` and `get_constant`. -/
def Expr.constant : Expr → Option Int
  | .const v => some v
  | .var _ => none
  | .binary _ cv _ _ => cv

def Op.eval : Op → Int → Int → Int
  | .add, a, b => a + b
  | .minus, a, b => a - b
  | .mod, a, b => a.tmod b

def Expr.eval (ρ : Nat → Int) : Expr → Int
  | .const v => v
  | .var x => ρ x
  | .binary op _ l r => op.eval (l.eval ρ) (r.eval ρ)

/-- The value is defined: no modulus is zero. -/
def Expr.Defined (ρ : Nat → Int) : Expr → Prop
  | .const _ => True
  | .var _ => True
  | .binary op _ l r => l.Defined ρ ∧ r.Defined ρ ∧ (op = .mod → r.eval ρ ≠ 0)

/-- The constants of the nodes are their values. -/
def Expr.Annotated (ρ : Nat → Int) : Expr → Prop
  | .const _ => True
  | .var _ => True
  | .binary op cv l r =>
    l.Annotated ρ ∧ r.Annotated ρ ∧ ∀ c ∈ cv, c = op.eval (l.eval ρ) (r.eval ρ)

/-- Only literals have constants, as everywhere in a tree that has been walked. -/
def Expr.Plain : Expr → Prop
  | .const _ => True
  | .var _ => True
  | .binary _ cv l r => cv = none ∧ l.Plain ∧ r.Plain

def Expr.size : Expr → Nat
  | .const _ => 1
  | .var _ => 1
  | .binary _ _ l r => l.size + r.size + 1

/-! ## The rules -/

/-- The constant that a sum or a difference starts with, and the other operand. Source: the tests
`lhs_lhs.is_constant()` and `rhs_lhs.is_constant()`. -/
def Expr.constHead : Expr → Option (Op × Int × Expr)
  | .binary .add _ x t => x.constant.map fun c => (.add, c, t)
  | .binary .minus _ x t => x.constant.map fun c => (.minus, c, t)
  | _ => none

/-- Whether the node is a sum or a difference. -/
def Expr.isSum : Expr → Bool
  | .binary .add _ _ _ => true
  | .binary .minus _ _ _ => true
  | _ => false

/-- The sum of a joined constant and a term: rules `R6a`, `R6b`, `R6e` and `R6h`. -/
def addConst (c_value : Int) (t : Expr) : Expr :=
  if c_value ≠ 0 then .binary .add none (.const c_value) t else t

/-- The difference of a joined constant and a term: rules `R6c`, `R6d`, `R6f` and `R6g`. -/
def minusConst (c_value : Int) (t : Expr) : Expr :=
  if c_value ≠ 0 then .binary .minus none (.const c_value) t else t

/-- Rule `R2`: a constant on the right of a sum goes to its left. -/
def swapConst : Expr → Expr
  | .binary .add cv l r =>
    if l.constant = none ∧ r.constant ≠ none then .binary .add none r l else .binary .add cv l r
  | e => e

/-- The rules for a sum up to `R6d`. Source: `visit_post(const Nodecl::Add&)`
(`tl-expression-reduction.cpp:40`). -/
def reduceAdd (l r : Expr) : Expr :=
  if l.constant = some 0 then r
  else if r.constant = some 0 then l
  else match l.constant, r.constant with
    | some b, some c => .const (b + c)
    | none, some c => swapConst <| match l.constHead with
      | some (.add, b, t) => addConst (b + c) t
      | some (.minus, b, t) => minusConst (b + c) t
      | _ => .binary .add none l r
    | some b, none => match r.constHead with
      | some (.add, c, t) => addConst (b + c) t
      | some (.minus, c, t) => minusConst (b + c) t
      | _ => .binary .add none l r
    | none, none => .binary .add none l r

/-- Rules `R50a` and `R51a`, for a node that is still a sum. -/
def regroupAdd : Expr → Expr
  | .binary .add cv (.binary .add lcv x t) r =>
    if x.constant ≠ none then .binary .add lcv x (.binary .add cv t r)
    else .binary .add cv (.binary .add lcv x t) r
  | .binary .add cv (.binary .minus lcv x t) r =>
    if x.constant ≠ none then .binary .minus lcv x (.binary .minus none t r)
    else .binary .add cv (.binary .minus lcv x t) r
  | e => e

/-- The constant of a difference of two constants. -/
def subConst (a b : Expr) : Option Int :=
  a.constant.bind fun x => b.constant.map fun y => x - y

/-- Rules `R30a` to `R30d`: two sums that share a term. `walk` is the visitor itself. -/
def dropCommon (walk : Expr → Expr) (l r : Expr) : Expr := match l, r with
  | .binary .add _ lhs_lhs lhs_rhs, .binary .add _ rhs_lhs rhs_rhs =>
    if l = rhs_lhs then rhs_rhs
    else if r = lhs_lhs then lhs_rhs
    else if lhs_lhs = rhs_lhs then walk (.binary .minus (subConst lhs_rhs rhs_rhs) lhs_rhs rhs_rhs)
    else if lhs_rhs = rhs_rhs then walk (.binary .minus (subConst lhs_lhs rhs_lhs) lhs_lhs lhs_lhs)
    else .binary .minus none l r
  | _, _ => .binary .minus none l r

/-- The rules for a difference up to `R30d`. Source: `visit_post(const Nodecl::Minus&)`
(`tl-expression-reduction.cpp:377`). -/
def reduceMinus (walk : Expr → Expr) (l r : Expr) : Expr :=
  match l.constant, r.constant with
  | some b, some c => .const (b - c)
  | some b, none => match r.constHead with
    | some (.add, c, t) => minusConst (b - c) t
    | some (.minus, c, t) => addConst (b - c) t
    | _ => .binary .minus none l r
  | none, some c =>
    if c = 0 then l else match l.constHead with
      | some (.add, b, t) => addConst (b - c) t
      | some (.minus, b, t) => minusConst (b - c) t
      | _ => if l.isSum then .binary .minus none l r else .binary .add none (.const (-c)) l
  | none, none => if l = r then .const 0 else dropCommon walk l r

/-- Rules `R50b` and `R51b`, for a node that is still a difference. -/
def regroupMinus : Expr → Expr
  | .binary .minus cv (.binary .minus lcv x t) r =>
    if x.constant ≠ none then .binary .minus lcv x (.binary .add none t r)
    else .binary .minus cv (.binary .minus lcv x t) r
  | .binary .minus cv (.binary .add lcv x t) r =>
    if x.constant ≠ none then .binary .add lcv x (.binary .minus none t r)
    else .binary .minus cv (.binary .add lcv x t) r
  | e => e

/-- Source: `visit_post(const Nodecl::Mod&)` (`tl-expression-reduction.cpp:594`). -/
def reduceMod (l r : Expr) : Expr :=
  if l = r ∨ r.constant = some 1 then .const 0
  else if l.constant = some 1 then .const 1
  else match l.constant, r.constant with
    | some a, some b => .const (a.tmod b)
    | _, _ => .binary .mod none l r

/-- The visit of a node whose operands have been walked. -/
def visitPost (walk : Expr → Expr) (op : Op) (cv : Option Int) (l r : Expr) : Expr := match cv with
  | some c => .const c
  | none => match op with
    | .add => regroupAdd (reduceAdd l r)
    | .minus => regroupMinus (reduceMinus walk l r)
    | .mod => reduceMod l r

/-- The walk, for at most `n` levels of calls. -/
def walk : Nat → Expr → Expr
  | n + 1, .binary op cv l r => visitPost (walk n) op cv (walk n l) (walk n r)
  | _, e => e

/-- The tree that the walk leaves. The walk of a tree never calls deeper than the tree has nodes
(`reduce_binary`). -/
def reduce (e : Expr) : Expr := walk e.size e

/-! ## The visits that change a value -/

/-- The visits whose result has another value than the node. -/
inductive Slip (ρ : Nat → Int) : Expr → Prop
  | r6c {l r t : Expr} {b c : Int} : l.constant = none → r.constant = some c → c ≠ 0 →
      l.constHead = some (.minus, b, t) → b + c = 0 → t.eval ρ ≠ 0 → Slip ρ (.binary .add none l r)
  | r6d {l r t : Expr} {b c : Int} : l.constant = some b → b ≠ 0 → r.constant = none →
      r.constHead = some (.minus, c, t) → b + c = 0 → t.eval ρ ≠ 0 → Slip ρ (.binary .add none l r)
  | r6f {l r t : Expr} {b c : Int} : l.constant = some b → r.constant = none →
      r.constHead = some (.add, c, t) → b - c = 0 → t.eval ρ ≠ 0 → Slip ρ (.binary .minus none l r)
  | r6g {l r t : Expr} {b c : Int} : l.constant = none → r.constant = some c → c ≠ 0 →
      l.constHead = some (.minus, b, t) → b - c = 0 → t.eval ρ ≠ 0 → Slip ρ (.binary .minus none l r)
  | r30a {a b d : Expr} : d.eval ρ ≠ 0 →
      Slip ρ (.binary .minus none (.binary .add none a b) (.binary .add none (.binary .add none a b) d))
  | r30d {a b c : Expr} : Expr.binary .add none a b ≠ c → Expr.binary .add none c b ≠ a →
      subConst a c = none → a.eval ρ ≠ c.eval ρ →
      Slip ρ (.binary .minus none (.binary .add none a b) (.binary .add none c b))
  | r11b {l r : Expr} : l.constant = some 1 → l ≠ r → r.constant ≠ some 1 →
      r.eval ρ = 1 ∨ r.eval ρ = -1 → Slip ρ (.binary .mod none l r)

/-- The difference that rule `R30c` makes of two sums and walks. -/
inductive Again : Expr → Expr → Expr → Prop
  | mk {p q : Option Int} {a b d : Expr} : Expr.binary .add p a b ≠ .binary .add q a d →
      Again (.binary .add p a b) (.binary .add q a d) (.binary .minus (subConst b d) b d)

/-- The nodes that the walk of a tree visits, with their operands as the walk has left them. -/
inductive Visited : Expr → Expr → Prop
  | self {op : Op} {cv : Option Int} {l r : Expr} :
      Visited (.binary op cv l r) (.binary op cv (reduce l) (reduce r))
  | left {op : Op} {cv : Option Int} {l r n : Expr} : Visited l n → Visited (.binary op cv l r) n
  | right {op : Op} {cv : Option Int} {l r n : Expr} : Visited r n → Visited (.binary op cv l r) n
  | again {l r m n : Expr} : Again (reduce l) (reduce r) m → Visited m n →
      Visited (.binary .minus none l r) n

/-! ## The walk of a tree ends -/

theorem Expr.size_pos (e : Expr) : 0 < e.size := by
  cases e with
  | const v => exact Nat.one_pos
  | var x => exact Nat.one_pos
  | binary op cv l r => exact Nat.succ_pos _

theorem size_of_constHead {e t : Expr} {op : Op} {c : Int} (h : e.constHead = some (op, c, t)) :
    t.size + 2 ≤ e.size := by
  unfold Expr.constHead at h
  split at h
  case h_3 => cases h
  all_goals
    rename_i x t'
    obtain ⟨c', _, hc⟩ := Option.map_eq_some_iff.1 h
    cases hc
    have := x.size_pos
    simp only [Expr.size]
    omega

theorem size_addConst (c : Int) (t : Expr) : (addConst c t).size ≤ t.size + 2 := by
  unfold addConst
  split
  · simp only [Expr.size]
    omega
  · omega

theorem size_minusConst (c : Int) (t : Expr) : (minusConst c t).size ≤ t.size + 2 := by
  unfold minusConst
  split
  · simp only [Expr.size]
    omega
  · omega

theorem size_swapConst (e : Expr) : (swapConst e).size = e.size := by
  unfold swapConst
  split
  · split
    · simp only [Expr.size]
      omega
    · rfl
  · rfl

theorem size_regroupAdd (e : Expr) : (regroupAdd e).size = e.size := by
  unfold regroupAdd
  split
  case h_3 => rfl
  all_goals
    split
    · simp only [Expr.size]
      omega
    · rfl

theorem size_regroupMinus (e : Expr) : (regroupMinus e).size = e.size := by
  unfold regroupMinus
  split
  case h_3 => rfl
  all_goals
    split
    · simp only [Expr.size]
      omega
    · rfl

/-- The joined constant of a sum takes no more room than the sum and the constant did. -/
theorem size_reduceAdd (l r : Expr) : (reduceAdd l r).size ≤ l.size + r.size + 1 := by
  have hl := l.size_pos
  have hr := r.size_pos
  have hsum : (Expr.binary .add none l r).size = l.size + r.size + 1 := rfl
  unfold reduceAdd
  split
  · omega
  split
  · omega
  split
  case h_1 => simp only [Expr.size]; omega
  case h_2 =>
    rw [size_swapConst]
    split
    case h_1 c _ _ _ b t h =>
      have := size_of_constHead h
      have := size_addConst (b + c) t
      omega
    case h_2 c _ _ _ b t h =>
      have := size_of_constHead h
      have := size_minusConst (b + c) t
      omega
    case h_3 => exact hsum.le
  case h_3 =>
    split
    case h_1 b _ _ _ c t h =>
      have := size_of_constHead h
      have := size_addConst (b + c) t
      omega
    case h_2 b _ _ _ c t h =>
      have := size_of_constHead h
      have := size_minusConst (b + c) t
      omega
    case h_3 => exact hsum.le
  case h_4 => exact hsum.le

theorem Again.size_lt {l r m : Expr} (h : Again l r m) : m.size + 2 < l.size + r.size := by
  cases h with
  | @mk p q a b d _ =>
    have := a.size_pos
    simp only [Expr.size]
    omega

theorem size_dropCommon {w : Expr → Expr} {l r : Expr} (hne : l ≠ r)
    (hw : ∀ m, Again l r m → (w m).size ≤ m.size)
    (hs : ∀ cv a, w (.binary .minus cv a a) = .const (cv.getD 0)) :
    (dropCommon w l r).size ≤ l.size + r.size + 1 := by
  unfold dropCommon
  split
  case h_1 a b _ c d =>
    split
    · simp only [Expr.size]
      omega
    split
    · simp only [Expr.size]
      omega
    split
    case isTrue h =>
      subst h
      have := hw _ (Again.mk hne)
      have := (Again.mk hne).size_lt
      omega
    split
    · rw [hs]
      simp only [Expr.size]
      omega
    · exact Nat.le_refl _
  case h_2 => exact Nat.le_refl _

theorem dropCommon_congr {w w' : Expr → Expr} {l r : Expr} (hne : l ≠ r)
    (hw : ∀ m, Again l r m → w m = w' m)
    (hs : ∀ cv a, w (.binary .minus cv a a) = w' (.binary .minus cv a a)) :
    dropCommon w l r = dropCommon w' l r := by
  unfold dropCommon
  split
  case h_1 a b _ c d =>
    rw [hs]
    split
    · rfl
    split
    · rfl
    split
    case isTrue h =>
      subst h
      exact hw _ (Again.mk hne)
    case isFalse => rfl
  case h_2 => rfl

theorem size_reduceMinus {w : Expr → Expr} {l r : Expr}
    (hw : ∀ m, Again l r m → (w m).size ≤ m.size)
    (hs : ∀ cv a, w (.binary .minus cv a a) = .const (cv.getD 0)) :
    (reduceMinus w l r).size ≤ l.size + r.size + 1 := by
  have hl := l.size_pos
  have hr := r.size_pos
  have hdiff : (Expr.binary .minus none l r).size = l.size + r.size + 1 := rfl
  unfold reduceMinus
  split
  case h_1 => simp only [Expr.size]; omega
  case h_2 =>
    split
    case h_1 b _ _ _ c t h =>
      have := size_of_constHead h
      have := size_minusConst (b - c) t
      omega
    case h_2 b _ _ _ c t h =>
      have := size_of_constHead h
      have := size_addConst (b - c) t
      omega
    case h_3 => exact hdiff.le
  case h_3 =>
    split
    · omega
    split
    case h_1 c _ _ _ _ b t h =>
      have := size_of_constHead h
      have := size_addConst (b - c) t
      omega
    case h_2 c _ _ _ _ b t h =>
      have := size_of_constHead h
      have := size_minusConst (b - c) t
      omega
    case h_3 =>
      split
      · exact hdiff.le
      · simp only [Expr.size]
        omega
  case h_4 =>
    split
    case isTrue =>
      simp only [Expr.size]
      omega
    case isFalse hne => exact size_dropCommon hne hw hs

theorem size_reduceMod (l r : Expr) : (reduceMod l r).size ≤ l.size + r.size + 1 := by
  unfold reduceMod
  split
  · simp only [Expr.size]
    omega
  split
  · simp only [Expr.size]
    omega
  split
  · simp only [Expr.size]
    omega
  · exact Nat.le_refl _

theorem size_visitPost {w : Expr → Expr} {l r : Expr} (op : Op) (cv : Option Int)
    (hw : ∀ m, Again l r m → (w m).size ≤ m.size)
    (hs : ∀ cv a, w (.binary .minus cv a a) = .const (cv.getD 0)) :
    (visitPost w op cv l r).size ≤ l.size + r.size + 1 := by
  cases cv with
  | some c => exact Nat.le_add_left _ _
  | none =>
    cases op with
    | add => exact (size_regroupAdd _).trans_le (size_reduceAdd l r)
    | minus => exact (size_regroupMinus _).trans_le (size_reduceMinus hw hs)
    | mod => exact size_reduceMod l r

theorem visitPost_congr {w w' : Expr → Expr} {l r : Expr} (op : Op) (cv : Option Int)
    (hw : ∀ m, Again l r m → w m = w' m)
    (hs : ∀ cv a, w (.binary .minus cv a a) = w' (.binary .minus cv a a)) :
    visitPost w op cv l r = visitPost w' op cv l r := by
  cases cv with
  | some c => rfl
  | none =>
    cases op with
    | add => rfl
    | minus =>
      by_cases hne : l = r
      · subst hne
        simp only [visitPost, reduceMinus, if_true]
      · simp only [visitPost, reduceMinus, dropCommon_congr hne hw hs]
    | mod => rfl

/-- The visit of the difference of a tree and itself calls no walk. -/
theorem visitPost_minus_self (w : Expr → Expr) (cv : Option Int) (x : Expr) :
    visitPost w .minus cv x x = .const (cv.getD 0) := by
  cases cv with
  | some c => rfl
  | none =>
    simp only [visitPost, reduceMinus, Option.getD_none, if_true]
    cases x.constant with
    | none => rfl
    | some b =>
      simp only [Int.sub_self]
      rfl

theorem walk_minus_self (n : Nat) (cv : Option Int) (a : Expr) :
    walk (n + 1) (.binary .minus cv a a) = .const (cv.getD 0) := by
  rw [walk, visitPost_minus_self]

/-- From as many levels on as the tree has nodes, the walk does not depend on their number; and it leaves
no more nodes. -/
theorem walk_levels (e : Expr) : ∀ n m, e.size ≤ n → e.size ≤ m →
    walk n e = walk m e ∧ (walk n e).size ≤ e.size := by
  induction hk : e.size using Nat.strong_induction_on generalizing e with
  | _ k ih =>
    subst hk
    intro n m hn hm
    cases e with
    | const v => cases n <;> cases m <;> exact ⟨rfl, Nat.le_refl _⟩
    | var x => cases n <;> cases m <;> exact ⟨rfl, Nat.le_refl _⟩
    | binary op cv l r =>
      have hsize : (Expr.binary op cv l r).size = l.size + r.size + 1 := rfl
      have hlpos := l.size_pos
      have hrpos := r.size_pos
      obtain ⟨n, rfl⟩ : ∃ p, n = p + 1 + 1 := ⟨n - 2, by omega⟩
      obtain ⟨m, rfl⟩ : ∃ p, m = p + 1 + 1 := ⟨m - 2, by omega⟩
      obtain ⟨hl, hlsize⟩ := ih l.size (by omega) l rfl (n + 1) (m + 1) (by omega) (by omega)
      obtain ⟨hr, hrsize⟩ := ih r.size (by omega) r rfl (n + 1) (m + 1) (by omega) (by omega)
      rw [walk, walk, ← hl, ← hr]
      -- The node that `R30c` makes has fewer nodes than the walked operands.
      have hagain : ∀ m', Again (walk (n + 1) l) (walk (n + 1) r) m' →
          walk (n + 1) m' = walk (m + 1) m' ∧ (walk (n + 1) m').size ≤ m'.size := by
        intro m' hm'
        have := hm'.size_lt
        exact ih m'.size (by omega) m' rfl (n + 1) (m + 1) (by omega) (by omega)
      constructor
      · apply visitPost_congr
        · intro m' hm'
          exact (hagain m' hm').1
        · intro cv a
          rw [walk_minus_self, walk_minus_self]
      · have := size_visitPost op cv (fun m' hm' => (hagain m' hm').2)
          (fun cv a => walk_minus_self n cv a)
        omega

theorem size_reduce (e : Expr) : (reduce e).size ≤ e.size :=
  (walk_levels e e.size e.size (Nat.le_refl _) (Nat.le_refl _)).2

/-- **The walk is the recursion of the source**: the operands, then the node, and the walk again where a
rule asks for it. -/
theorem reduce_binary (op : Op) (cv : Option Int) (l r : Expr) :
    reduce (.binary op cv l r) = visitPost reduce op cv (reduce l) (reduce r) := by
  have hlpos := l.size_pos
  have hrpos := r.size_pos
  obtain ⟨k, hk⟩ : ∃ k, l.size + r.size = k + 1 := ⟨l.size + r.size - 1, by omega⟩
  have hl : walk (k + 1) l = reduce l := (walk_levels l _ _ (by omega) (Nat.le_refl _)).1
  have hr : walk (k + 1) r = reduce r := (walk_levels r _ _ (by omega) (Nat.le_refl _)).1
  have hlsize := size_reduce l
  have hrsize := size_reduce r
  have hstep : reduce (.binary op cv l r) =
      visitPost (walk (k + 1)) op cv (walk (k + 1) l) (walk (k + 1) r) := by
    rw [reduce, Expr.size, hk, walk]
  rw [hstep, hl, hr]
  apply visitPost_congr
  · intro m hm
    have := hm.size_lt
    exact (walk_levels m _ _ (by omega) (Nat.le_refl _)).1
  · intro cv a
    rw [walk_minus_self, reduce, Expr.size, walk_minus_self]

theorem reduce_minus_self (cv : Option Int) (a : Expr) :
    reduce (.binary .minus cv a a) = .const (cv.getD 0) := by
  rw [reduce_binary, visitPost_minus_self]

/-- Induction over the trees that the walk of a tree walks: the operands, and the difference that `R30c`
makes of them. -/
theorem Expr.walkInduction {P : Expr → Prop} (hconst : ∀ v, P (.const v)) (hvar : ∀ x, P (.var x))
    (hbinary : ∀ op cv l r, P l → P r → (∀ m, Again (reduce l) (reduce r) m → P m) →
      P (.binary op cv l r)) (e : Expr) : P e := by
  induction hk : e.size using Nat.strong_induction_on generalizing e with
  | _ k ih =>
    subst hk
    cases e with
    | const v => exact hconst v
    | var x => exact hvar x
    | binary op cv l r =>
      have hsize : (Expr.binary op cv l r).size = l.size + r.size + 1 := rfl
      have hlpos := l.size_pos
      have hrpos := r.size_pos
      refine hbinary op cv l r (ih _ (by omega) l rfl) (ih _ (by omega) r rfl) ?_
      intro m hm
      have := hm.size_lt
      have := size_reduce l
      have := size_reduce r
      exact ih m.size (by omega) m rfl

/-! ## What the rules build -/

/-- A property of trees that the sums and differences have of their operands. -/
structure Hereditary (P : Expr → Prop) : Prop where
  const : ∀ v, P (.const v)
  operands : ∀ {op cv l r}, P (.binary op cv l r) → P l ∧ P r
  node : ∀ {op l r}, op ≠ .mod → P l → P r → P (.binary op none l r)
  keep : ∀ {op cv l r l' r'}, P (.binary op cv l r) → op ≠ .mod → P l' → P r' →
    P (.binary op cv l' r')

theorem Plain.hereditary : Hereditary Expr.Plain where
  const _ := trivial
  operands h := h.2
  node _ hl hr := ⟨rfl, hl, hr⟩
  keep h _ hl hr := ⟨h.1, hl, hr⟩

theorem Defined.hereditary (ρ : Nat → Int) : Hereditary (Expr.Defined ρ) where
  const _ := trivial
  operands h := ⟨h.1, h.2.1⟩
  node hop hl hr := ⟨hl, hr, fun h => absurd h hop⟩
  keep _ hop hl hr := ⟨hl, hr, fun h => absurd h hop⟩

namespace Hereditary
variable {P : Expr → Prop} (hP : Hereditary P)
include hP

theorem constHead {e t : Expr} {op : Op} {c : Int} (h : e.constHead = some (op, c, t)) (he : P e) :
    P t := by
  unfold Expr.constHead at h
  split at h
  case h_3 => cases h
  all_goals
    rename_i x t'
    obtain ⟨c', _, hc⟩ := Option.map_eq_some_iff.1 h
    cases hc
    exact (hP.operands he).2

theorem addConst (c : Int) {t : Expr} (ht : P t) : P (addConst c t) := by
  unfold ExpressionReduction.addConst
  split
  · exact hP.node (by decide) (hP.const c) ht
  · exact ht

theorem minusConst (c : Int) {t : Expr} (ht : P t) : P (minusConst c t) := by
  unfold ExpressionReduction.minusConst
  split
  · exact hP.node (by decide) (hP.const c) ht
  · exact ht

theorem swapConst {e : Expr} (he : P e) : P (swapConst e) := by
  unfold ExpressionReduction.swapConst
  split
  case h_1 =>
    split
    · exact hP.node (by decide) (hP.operands he).2 (hP.operands he).1
    · exact he
  case h_2 => exact he

theorem regroupAdd {e : Expr} (he : P e) : P (regroupAdd e) := by
  unfold ExpressionReduction.regroupAdd
  split
  case h_3 => exact he
  case h_1 =>
    split
    case isTrue =>
      obtain ⟨hl, hr⟩ := hP.operands he
      obtain ⟨hx, ht⟩ := hP.operands hl
      exact hP.keep hl (by decide) hx (hP.keep he (by decide) ht hr)
    case isFalse => exact he
  case h_2 =>
    split
    case isTrue =>
      obtain ⟨hl, hr⟩ := hP.operands he
      obtain ⟨hx, ht⟩ := hP.operands hl
      exact hP.keep hl (by decide) hx (hP.node (by decide) ht hr)
    case isFalse => exact he

theorem regroupMinus {e : Expr} (he : P e) : P (regroupMinus e) := by
  unfold ExpressionReduction.regroupMinus
  split
  case h_3 => exact he
  all_goals
    split
    case isTrue =>
      obtain ⟨hl, hr⟩ := hP.operands he
      obtain ⟨hx, ht⟩ := hP.operands hl
      exact hP.keep hl (by decide) hx (hP.node (by decide) ht hr)
    case isFalse => exact he

theorem reduceAdd {l r : Expr} (hl : P l) (hr : P r) : P (reduceAdd l r) := by
  have hsum : P (.binary .add none l r) := hP.node (by decide) hl hr
  unfold ExpressionReduction.reduceAdd
  split
  · exact hr
  split
  · exact hl
  split
  case h_1 => exact hP.const _
  case h_2 =>
    apply hP.swapConst
    split
    case h_1 h => exact hP.addConst _ (hP.constHead h hl)
    case h_2 h => exact hP.minusConst _ (hP.constHead h hl)
    case h_3 => exact hsum
  case h_3 =>
    split
    case h_1 h => exact hP.addConst _ (hP.constHead h hr)
    case h_2 h => exact hP.minusConst _ (hP.constHead h hr)
    case h_3 => exact hsum
  case h_4 => exact hsum

theorem dropCommon {w : Expr → Expr} {l r : Expr} (hne : l ≠ r) (hw : ∀ m, Again l r m → P (w m))
    (hs : ∀ cv a, w (.binary .minus cv a a) = .const (cv.getD 0)) (hl : P l) (hr : P r) :
    P (dropCommon w l r) := by
  unfold ExpressionReduction.dropCommon
  split
  case h_1 a b _ c d =>
    obtain ⟨ha, hb⟩ := hP.operands hl
    obtain ⟨hc, hd⟩ := hP.operands hr
    split
    · exact hd
    split
    · exact hb
    split
    case isTrue h =>
      subst h
      exact hw _ (Again.mk hne)
    split
    · rw [hs]
      exact hP.const _
    · exact hP.node (by decide) hl hr
  case h_2 => exact hP.node (by decide) hl hr

theorem reduceMinus {w : Expr → Expr} {l r : Expr}
    (hw : ∀ m, Again l r m → P (w m))
    (hs : ∀ cv a, w (.binary .minus cv a a) = .const (cv.getD 0)) (hl : P l) (hr : P r) :
    P (reduceMinus w l r) := by
  have hdiff : P (.binary .minus none l r) := hP.node (by decide) hl hr
  unfold ExpressionReduction.reduceMinus
  split
  case h_1 => exact hP.const _
  case h_2 =>
    split
    case h_1 h => exact hP.minusConst _ (hP.constHead h hr)
    case h_2 h => exact hP.addConst _ (hP.constHead h hr)
    case h_3 => exact hdiff
  case h_3 =>
    split
    · exact hl
    split
    case h_1 h => exact hP.addConst _ (hP.constHead h hl)
    case h_2 h => exact hP.minusConst _ (hP.constHead h hl)
    case h_3 =>
      split
      · exact hdiff
      · exact hP.node (by decide) (hP.const _) hl
  case h_4 =>
    split
    case isTrue => exact hP.const 0
    case isFalse hne => exact hP.dropCommon hne hw hs hl hr

/-- The visit of a sum or a difference gives its result what its operands have. -/
theorem visitPost {w : Expr → Expr} {op : Op} {cv : Option Int} {l r : Expr}
    (hw : op = .minus → cv = none → ∀ m, Again l r m → P (w m))
    (hs : ∀ cv a, w (.binary .minus cv a a) = .const (cv.getD 0))
    (hmod : op = .mod → P (.binary .mod none l r)) (hl : P l) (hr : P r) :
    P (visitPost w op cv l r) := by
  cases cv with
  | some c => exact hP.const c
  | none =>
    cases op with
    | add => exact hP.regroupAdd (hP.reduceAdd hl hr)
    | minus => exact hP.regroupMinus (hP.reduceMinus (hw rfl rfl) hs hl hr)
    | mod =>
      simp only [ExpressionReduction.visitPost, reduceMod]
      split
      · exact hP.const 0
      split
      · exact hP.const 1
      split
      · exact hP.const _
      · exact hmod rfl

end Hereditary

/-- Only literals have constants in the tree that the walk leaves. -/
theorem plain_reduce (e : Expr) : (reduce e).Plain := by
  induction e using Expr.walkInduction with
  | hconst v => trivial
  | hvar x => trivial
  | hbinary op cv l r ihl ihr ih =>
    rw [reduce_binary]
    exact Plain.hereditary.visitPost (fun _ _ => ih) reduce_minus_self (fun _ => ⟨rfl, ihl, ihr⟩) ihl ihr

/-! ## Values -/

theorem Expr.Plain.constant_eq {e : Expr} {c : Int} (he : e.Plain) (h : e.constant = some c) :
    e = .const c := by
  cases e with
  | const v =>
    cases h
    rfl
  | var x => cases h
  | binary op cv l r =>
    have hcv : cv = none := he.1
    cases hcv.symm.trans h

theorem Expr.Plain.annotated {e : Expr} (ρ : Nat → Int) (he : e.Plain) : e.Annotated ρ := by
  induction e with
  | const v => trivial
  | var x => trivial
  | binary op cv l r ihl ihr =>
    have hcv : cv = none := he.1
    refine ⟨ihl he.2.1, ihr he.2.2, ?_⟩
    intro c hc
    cases hcv.symm.trans hc

section Values
variable {ρ : Nat → Int}

/-- The constant of a difference is its value. -/
theorem eval_subConst {a b : Expr} {c : Int} (ha : a.Plain) (hb : b.Plain)
    (h : subConst a b = some c) : c = a.eval ρ - b.eval ρ := by
  obtain ⟨x, hx, h⟩ := Option.bind_eq_some_iff.1 h
  obtain ⟨y, hy, rfl⟩ := Option.map_eq_some_iff.1 h
  rw [ha.constant_eq hx, hb.constant_eq hy]
  rfl

theorem Expr.Plain.eval_eq {e : Expr} {c : Int} (he : e.Plain) (h : e.constant = some c) :
    e.eval ρ = c := by
  rw [he.constant_eq h]
  rfl

theorem eval_constHead {e t : Expr} {op : Op} {c : Int} (he : e.Plain)
    (h : e.constHead = some (op, c, t)) : e.eval ρ = op.eval c (t.eval ρ) := by
  unfold Expr.constHead at h
  split at h
  case h_3 => cases h
  all_goals
    rename_i x t'
    obtain ⟨c', hc', hc⟩ := Option.map_eq_some_iff.1 h
    cases hc
    rw [he.2.1.constant_eq hc']
    rfl

theorem eval_addConst (c : Int) (t : Expr) : (addConst c t).eval ρ = c + t.eval ρ := by
  unfold addConst
  split
  case isTrue => rfl
  case isFalse h =>
    rw [not_not.1 h]
    exact (Int.zero_add _).symm

theorem eval_minusConst {c : Int} {t : Expr} (h : c = 0 → t.eval ρ = 0) :
    (minusConst c t).eval ρ = c - t.eval ρ := by
  unfold minusConst
  split
  case isTrue => rfl
  case isFalse hc =>
    have hc := not_not.1 hc
    rw [h hc, hc]
    rfl

theorem eval_swapConst (e : Expr) : (swapConst e).eval ρ = e.eval ρ := by
  unfold swapConst
  split
  case h_1 =>
    split
    · exact Int.add_comm _ _
    · rfl
  case h_2 => rfl

theorem eval_regroupAdd (e : Expr) : (regroupAdd e).eval ρ = e.eval ρ := by
  unfold regroupAdd
  split
  case h_3 => rfl
  all_goals
    split
    · simp only [Expr.eval, Op.eval]
      omega
    · rfl

theorem eval_regroupMinus (e : Expr) : (regroupMinus e).eval ρ = e.eval ρ := by
  unfold regroupMinus
  split
  case h_3 => rfl
  all_goals
    split
    · simp only [Expr.eval, Op.eval]
      omega
    · rfl

/-- A sum that is no slip. -/
theorem eval_reduceAdd {l r : Expr} (hl : l.Plain) (hr : r.Plain)
    (hslip : ¬ Slip ρ (.binary .add none l r)) : (reduceAdd l r).eval ρ = l.eval ρ + r.eval ρ := by
  unfold reduceAdd
  split
  case isTrue h =>
    rw [hl.constant_eq h]
    exact (Int.zero_add _).symm
  case isFalse hl0 =>
  split
  case isTrue h =>
    rw [hr.constant_eq h]
    exact (Int.add_zero _).symm
  case isFalse hr0 =>
  split
  case h_1 b c hb hc =>
    rw [hl.constant_eq hb, hr.constant_eq hc]
    rfl
  case h_2 c hlc hrc =>
    rw [eval_swapConst, hr.constant_eq hrc]
    have hc0 : c ≠ 0 := fun h => hr0 (h ▸ hrc)
    split
    case h_1 b t h =>
      rw [eval_addConst, eval_constHead hl h]
      simp only [Op.eval, Expr.eval]
      omega
    case h_2 b t h =>
      rw [eval_minusConst, eval_constHead hl h]
      · simp only [Op.eval, Expr.eval]
        omega
      · intro hbc
        by_contra ht
        exact hslip (.r6c hlc hrc hc0 h hbc ht)
    case h_3 => rfl
  case h_3 b hlb hrc =>
    rw [hl.constant_eq hlb]
    have hb0 : b ≠ 0 := fun h => hl0 (h ▸ hlb)
    split
    case h_1 c t h =>
      rw [eval_addConst, eval_constHead hr h]
      simp only [Op.eval, Expr.eval]
      omega
    case h_2 c t h =>
      rw [eval_minusConst, eval_constHead hr h]
      · simp only [Op.eval, Expr.eval]
        omega
      · intro hbc
        by_contra ht
        exact hslip (.r6d hlb hb0 hrc h hbc ht)
    case h_3 => rfl
  case h_4 => rfl

/-- The difference of two sums that share a term. -/
theorem eval_dropCommon {w : Expr → Expr} {l r : Expr} (hne : l ≠ r)
    (hw : ∀ m, Again l r m → (w m).eval ρ = m.eval ρ)
    (hs : ∀ cv a, w (.binary .minus cv a a) = .const (cv.getD 0)) (hl : l.Plain) (hr : r.Plain)
    (hslip : ¬ Slip ρ (.binary .minus none l r)) :
    (dropCommon w l r).eval ρ = l.eval ρ - r.eval ρ := by
  unfold dropCommon
  split
  case h_1 p a b q c d =>
    obtain rfl : p = none := hl.1
    obtain rfl : q = none := hr.1
    split
    case isTrue h =>
      subst h
      have hd : d.eval ρ = 0 := by
        by_contra hd
        exact hslip (.r30a hd)
      simp only [Expr.eval, Op.eval] at hd ⊢
      omega
    case isFalse hlc =>
    split
    case isTrue h =>
      subst h
      simp only [Expr.eval, Op.eval]
      omega
    case isFalse hra =>
    split
    case isTrue h =>
      subst h
      rw [hw _ (Again.mk hne)]
      simp only [Expr.eval, Op.eval]
      omega
    case isFalse =>
    split
    case isTrue h =>
      subst h
      rw [hs]
      cases hac : subConst a c with
      | none =>
        have heq : a.eval ρ = c.eval ρ := by
          by_contra heq
          exact hslip (.r30d hlc hra hac heq)
        simp only [Expr.eval, Op.eval, Option.getD_none]
        omega
      | some v =>
        have hv := eval_subConst (ρ := ρ) hl.2.1 hr.2.1 hac
        simp only [Expr.eval, Op.eval, Option.getD_some]
        omega
    case isFalse => rfl
  case h_2 => rfl

/-- A difference that is no slip. -/
theorem eval_reduceMinus {w : Expr → Expr} {l r : Expr}
    (hw : ∀ m, Again l r m → (w m).eval ρ = m.eval ρ)
    (hs : ∀ cv a, w (.binary .minus cv a a) = .const (cv.getD 0)) (hl : l.Plain) (hr : r.Plain)
    (hslip : ¬ Slip ρ (.binary .minus none l r)) :
    (reduceMinus w l r).eval ρ = l.eval ρ - r.eval ρ := by
  unfold reduceMinus
  split
  case h_1 b c hb hc =>
    rw [hl.constant_eq hb, hr.constant_eq hc]
    rfl
  case h_2 b hlb hrc =>
    rw [hl.constant_eq hlb]
    split
    case h_1 c t h =>
      rw [eval_minusConst, eval_constHead hr h]
      · simp only [Op.eval, Expr.eval]
        omega
      · intro hbc
        by_contra ht
        exact hslip (.r6f hlb hrc h hbc ht)
    case h_2 c t h =>
      rw [eval_addConst, eval_constHead hr h]
      simp only [Op.eval, Expr.eval]
      omega
    case h_3 => rfl
  case h_3 c hlc hrc =>
    rw [hr.constant_eq hrc]
    split
    case isTrue h =>
      rw [h]
      exact (Int.sub_zero _).symm
    case isFalse hc0 =>
    split
    case h_1 b t h =>
      rw [eval_addConst, eval_constHead hl h]
      simp only [Op.eval, Expr.eval]
      omega
    case h_2 b t h =>
      rw [eval_minusConst, eval_constHead hl h]
      · simp only [Op.eval, Expr.eval]
        omega
      · intro hbc
        by_contra ht
        exact hslip (.r6g hlc hrc hc0 h hbc ht)
    case h_3 =>
      split
      · rfl
      · simp only [Op.eval, Expr.eval]
        omega
  case h_4 =>
    split
    case isTrue h =>
      rw [h]
      exact (Int.sub_self _).symm
    case isFalse hne => exact eval_dropCommon hne hw hs hl hr hslip

/-- One is its own remainder by every number but one and minus one. -/
theorem one_tmod {b : Int} : (1 : Int).tmod b = 1 ↔ ¬ (b = 1 ∨ b = -1) := by
  constructor
  · rintro h (rfl | rfl) <;> exact absurd h (by decide)
  · intro h
    rcases Int.lt_trichotomy b 0 with hb | rfl | hb
    · rw [← Int.tmod_neg]
      exact Int.tmod_eq_of_lt (by decide) (by omega)
    · rfl
    · exact Int.tmod_eq_of_lt (by decide) (by omega)

theorem eval_reduceMod {l r : Expr} (hl : l.Plain) (hr : r.Plain)
    (hslip : ¬ Slip ρ (.binary .mod none l r)) :
    (reduceMod l r).eval ρ = (l.eval ρ).tmod (r.eval ρ) := by
  unfold reduceMod
  split
  case isTrue h =>
    rcases h with rfl | h
    · exact Int.tmod_self.symm
    · rw [hr.constant_eq h]
      exact (Int.tmod_one _).symm
  case isFalse h =>
  rw [not_or] at h
  split
  case isTrue h1 =>
    rw [hl.constant_eq h1]
    refine (one_tmod.2 fun hr1 => ?_).symm
    exact hslip (.r11b h1 h.1 h.2 hr1)
  case isFalse =>
  split
  case h_1 ha hb =>
    rw [hl.constant_eq ha, hr.constant_eq hb]
    rfl
  case h_2 => rfl

/-- The visit of a node whose operands have been walked. -/
def visit : Expr → Expr
  | .binary op cv l r => visitPost reduce op cv l r
  | e => e

/-- A visit that is no slip keeps the value of the node. -/
theorem eval_visitPost {op : Op} {cv : Option Int} {l r : Expr} (hl : l.Plain) (hr : r.Plain)
    (hcv : ∀ c ∈ cv, c = op.eval (l.eval ρ) (r.eval ρ))
    (hw : op = .minus → cv = none → ∀ m, Again l r m → (reduce m).eval ρ = m.eval ρ)
    (hslip : ¬ Slip ρ (.binary op cv l r)) :
    (visitPost reduce op cv l r).eval ρ = op.eval (l.eval ρ) (r.eval ρ) := by
  cases cv with
  | some c => exact hcv c rfl
  | none =>
    cases op with
    | add => exact (eval_regroupAdd _).trans (eval_reduceAdd hl hr hslip)
    | minus =>
      exact (eval_regroupMinus _).trans (eval_reduceMinus (hw rfl rfl) reduce_minus_self hl hr hslip)
    | mod => exact eval_reduceMod hl hr hslip

/-- **A slip changes the value of its node.** -/
theorem Slip.eval_ne {op : Op} {cv : Option Int} {l r : Expr} (hl : l.Plain) (hr : r.Plain)
    (h : Slip ρ (.binary op cv l r)) :
    (visitPost reduce op cv l r).eval ρ ≠ op.eval (l.eval ρ) (r.eval ρ) := by
  cases h with
  | @r6c _ _ t b c hlc hrc hc0 hlh hbc ht =>
    have hv := eval_constHead (ρ := ρ) hl hlh
    have hred : reduceAdd l r = swapConst t := by
      simp [reduceAdd, hlc, hrc, hc0, hlh, minusConst, hbc]
    simp only [visitPost, eval_regroupAdd, hred, eval_swapConst, hv, hr.eval_eq hrc, Op.eval]
    omega
  | @r6d _ _ t b c hlc hb0 hrc hrh hbc ht =>
    have hv := eval_constHead (ρ := ρ) hr hrh
    have hred : reduceAdd l r = t := by
      simp [reduceAdd, hlc, hrc, hb0, hrh, minusConst, hbc]
    simp only [visitPost, eval_regroupAdd, hred, hv, hl.eval_eq hlc, Op.eval]
    omega
  | @r6f _ _ t b c hlc hrc hrh hbc ht =>
    have hv := eval_constHead (ρ := ρ) hr hrh
    have hred : reduceMinus reduce l r = t := by
      simp [reduceMinus, hlc, hrc, hrh, minusConst, hbc]
    simp only [visitPost, eval_regroupMinus, hred, hv, hl.eval_eq hlc, Op.eval]
    omega
  | @r6g _ _ t b c hlc hrc hc0 hlh hbc ht =>
    have hv := eval_constHead (ρ := ρ) hl hlh
    have hred : reduceMinus reduce l r = t := by
      simp [reduceMinus, hlc, hrc, hc0, hlh, minusConst, hbc]
    simp only [visitPost, eval_regroupMinus, hred, hv, hr.eval_eq hrc, Op.eval]
    omega
  | @r30a a b d hd =>
    have hne : Expr.binary .add none a b ≠ .binary .add none (.binary .add none a b) d := by
      intro h
      have := congrArg Expr.size h
      simp only [Expr.size] at this
      omega
    have hred : reduceMinus reduce (.binary .add none a b)
        (.binary .add none (.binary .add none a b) d) = d := by
      simp only [reduceMinus, Expr.constant, if_neg hne, dropCommon, if_true]
    simp only [visitPost, eval_regroupMinus, hred, Op.eval, Expr.eval]
    omega
  | @r30d a b c hlc hra hac heq =>
    have hne : a ≠ c := by
      rintro rfl
      exact heq rfl
    have hred : reduceMinus reduce (.binary .add none a b) (.binary .add none c b) = .const 0 := by
      simp [reduceMinus, Expr.constant, dropCommon, hne, hlc, hra, hac, reduce_minus_self]
    simp only [visitPost, eval_regroupMinus, hred, Op.eval, Expr.eval]
    omega
  | r11b h1 hne hr1 hv =>
    have hred : reduceMod l r = .const 1 := by
      simp [reduceMod, h1, hne, hr1]
    simp only [visitPost, hred, hl.eval_eq h1, Expr.eval, Op.eval]
    exact fun h => one_tmod.1 h.symm hv

end Values

/-! ## Whole trees -/

/-- What the walk does to a tree without slips. -/
structure Kept (ρ : Nat → Int) (e : Expr) : Prop where
  eval : (reduce e).eval ρ = e.eval ρ
  defined : (reduce e).Defined ρ
  visits : ∀ n, Visited e n → (visit n).eval ρ = n.eval ρ

theorem Again.annotated {ρ : Nat → Int} {l r m : Expr} (h : Again l r m) (hl : l.Plain) (hr : r.Plain) :
    m.Annotated ρ := by
  cases h with
  | mk _ =>
    refine ⟨hl.2.2.annotated ρ, hr.2.2.annotated ρ, ?_⟩
    intro c hc
    exact eval_subConst hl.2.2 hr.2.2 hc

theorem Again.defined {ρ : Nat → Int} {l r m : Expr} (h : Again l r m) (hl : l.Defined ρ)
    (hr : r.Defined ρ) : m.Defined ρ := by
  cases h with
  | mk _ => exact ⟨hl.2.1, hr.2.1, fun h => by cases h⟩

/-- A walk without slips keeps the value of the tree, node by node. -/
theorem Kept.of_not_slip {ρ : Nat → Int} {e : Expr} (ha : e.Annotated ρ) (hd : e.Defined ρ)
    (hslip : ∀ n, Visited e n → ¬ Slip ρ n) : Kept ρ e := by
  induction e using Expr.walkInduction with
  | hconst v => exact ⟨rfl, trivial, fun n hn => by cases hn⟩
  | hvar x => exact ⟨rfl, trivial, fun n hn => by cases hn⟩
  | hbinary op cv l r ihl ihr ihm =>
    have kl := ihl ha.1 hd.1 fun n hn => hslip n hn.left
    have kr := ihr ha.2.1 hd.2.1 fun n hn => hslip n hn.right
    have hpl := plain_reduce l
    have hpr := plain_reduce r
    have km : op = .minus → cv = none → ∀ m, Again (reduce l) (reduce r) m → Kept ρ m := by
      rintro rfl rfl m hm
      exact ihm m hm (hm.annotated hpl hpr) (hm.defined kl.defined kr.defined)
        fun n hn => hslip n (.again hm hn)
    have hself := eval_visitPost hpl hpr (by rw [kl.eval, kr.eval]; exact ha.2.2)
      (fun hop hcv m hm => (km hop hcv m hm).eval) (hslip _ .self)
    refine ⟨?_, ?_, ?_⟩
    · rw [reduce_binary, hself, kl.eval, kr.eval]
      rfl
    · rw [reduce_binary]
      refine (Defined.hereditary ρ).visitPost (fun hop hcv m hm => (km hop hcv m hm).defined)
        reduce_minus_self ?_ kl.defined kr.defined
      intro hop
      refine ⟨kl.defined, kr.defined, fun _ => ?_⟩
      rw [kr.eval]
      exact hd.2.2 hop
    · intro n hn
      cases hn with
      | self => exact hself
      | left hn => exact kl.visits n hn
      | right hn => exact kr.visits n hn
      | again hm hn => exact (km rfl rfl _ hm).visits n hn

/-- The operands of a visited node have been walked. -/
theorem Visited.operands {e n : Expr} (h : Visited e n) :
    ∃ op cv l r, n = .binary op cv l r ∧ l.Plain ∧ r.Plain := by
  induction h with
  | self => exact ⟨_, _, _, _, rfl, plain_reduce _, plain_reduce _⟩
  | left _ ih => exact ih
  | right _ ih => exact ih
  | again _ _ ih => exact ih

/-- **The walk keeps the value of a tree if no visit slips; and its visits keep the values of their nodes
only then.** -/
theorem reduce_preserves {ρ : Nat → Int} {e : Expr} (ha : e.Annotated ρ) (hd : e.Defined ρ) :
    ((∀ n, Visited e n → ¬ Slip ρ n) → (reduce e).Defined ρ ∧ (reduce e).eval ρ = e.eval ρ) ∧
      ((∀ n, Visited e n → (visit n).eval ρ = n.eval ρ) ↔ ∀ n, Visited e n → ¬ Slip ρ n) := by
  refine ⟨fun h => ?_, fun h n hn hs => ?_, fun h => (Kept.of_not_slip ha hd h).visits⟩
  · have hk := Kept.of_not_slip ha hd h
    exact ⟨hk.defined, hk.eval⟩
  · obtain ⟨op, cv, l, r, rfl, hl, hr⟩ := hn.operands
    exact hs.eval_ne hl hr (h _ hn)

/-- The expression `b - (c + x)`. -/
def constMinusSum (b c : Int) : Expr :=
  .binary .minus none (.const b) (.binary .add none (.const c) (.var 0))

/-- The expression `3 - (1 + x)`, which becomes `2 - x`. -/
theorem reduce_preserves_three_one :
    ((∀ n, Visited (constMinusSum 3 1) n → ¬ Slip (fun _ => 5) n) →
        (reduce (constMinusSum 3 1)).Defined (fun _ => 5) ∧
          (reduce (constMinusSum 3 1)).eval (fun _ => 5) = (constMinusSum 3 1).eval fun _ => 5) ∧
      ((∀ n, Visited (constMinusSum 3 1) n → (visit n).eval (fun _ => 5) = n.eval fun _ => 5) ↔
        ∀ n, Visited (constMinusSum 3 1) n → ¬ Slip (fun _ => 5) n) :=
  reduce_preserves (by simp [constMinusSum, Expr.Annotated]) (by simp [constMinusSum, Expr.Defined])

/-- The expression `1 - (1 + x)` becomes `x`. -/
theorem reduce_one_one_ne :
    reduce (constMinusSum 1 1) = .var 0 ∧
      ¬ ∀ (ρ : Nat → Int) (e : Expr), e.Annotated ρ → e.Defined ρ → (reduce e).eval ρ = e.eval ρ := by
  refine ⟨by decide, fun h => ?_⟩
  have h5 := h (fun _ => 5) (constMinusSum 1 1) (by simp [constMinusSum, Expr.Annotated])
    (by simp [constMinusSum, Expr.Defined])
  revert h5
  decide

end OmpSs.Mcxx.ExpressionReduction
