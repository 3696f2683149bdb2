import OmpSs.Mcxx.FoldedRanges
import OmpSs.Mcxx.RangeValue

/-!
# Ranges and single values

`range_value_add`, `range_value_sub`, `range_value_mul` and `range_value_div`
(`tl-ranges-common.cpp:1252`) move the boundaries of a range by a value, a constant or a variable. A boundary
that is infinite stays, one that is a constant is folded with the value if that is one too, and of any other
the operation is built.

* To a minimum or a maximum the value is added element by element, and each sum is dropped: the boundary stays
  what it was. A sum or a difference that the fold takes past the end of its word or type bounds nothing
  (`rangeValueAdd_sound_iff`).
* Where the folds fit, a product and a quotient are those of exact integers (`rangeValueMul_sound_iff`).
-/

namespace OmpSs.Mcxx.FoldedRanges

open Lib Lib.Word Cexpr
open Ranges (Op)

variable {w : CValue}

/-! ## The operations -/

mutual
/-- Constants are interned, so they are equal if they have one value and one type. Source:
`Nodecl::Utils::structurally_equal_nodecls`. -/
def structurallyEqual : Boundary w → Boundary w → Bool
  | .const c, .const d => decide (c = d)
  | .minusInfinity, .minusInfinity => true
  | .plusInfinity, .plusInfinity => true
  | .symbol x, .symbol y => decide (x = y)
  | .minimum es, .minimum fs => structurallyEqualLists es fs
  | .maximum es, .maximum fs => structurallyEqualLists es fs
  | _, _ => false

def structurallyEqualLists : List (Boundary w) → List (Boundary w) → Bool
  | [], [] => true
  | e :: es, f :: fs => structurallyEqual e f && structurallyEqualLists es fs
  | _, _ => false
end

/-- The elements without those that are in the list already. Source: the loops over the elements in
`nodecl_value_add`. -/
def appendNew (exprs : List (Boundary w)) : List (Boundary w) :=
  exprs.foldl (fun l e => if l.any (structurallyEqual e) then l else l ++ [e]) []

/-- The element of a minimum or a maximum is appended, and not its sum with the value, which the source
computes and leaves. Source: `nodecl_value_add` (`tl-ranges-common.cpp:1252`). -/
def nodeclValueAdd (n v : Boundary w) : Expr w := match n with
  | .minusInfinity => .boundary n
  | .plusInfinity => .boundary n
  | .minimum exprs => .boundary (.minimum (appendNew exprs))
  | .maximum exprs => .boundary (.maximum (appendNew exprs))
  | n => match n.constant, v.constant with
    | some k, some l => .boundary (.const (k.add l))
    | _, _ => .binary .add n v

/-- Source: `range_value_add` (`tl-ranges-common.cpp:1290`). -/
def rangeValueAdd (r : Range w) (v : Boundary w) : ExprRange w :=
  ⟨nodeclValueAdd r.lower v, nodeclValueAdd r.upper v⟩

/-- What the other operations do with a boundary: `fold` is the operation on constants, `op` the one that is
built. -/
def boundaryValue (fold : Constant w → Constant w → Option (Constant w)) (op : Op) (b v : Boundary w) :
    Option (Expr w) := match b with
  | .minusInfinity => some (.boundary b)
  | .plusInfinity => some (.boundary b)
  | b => match b.constant, v.constant with
    | some k, some l => (fold k l).map fun m => .boundary (.const m)
    | _, _ => some (.binary op b v)

/-- Both boundaries. -/
def rangeValue (fold : Constant w → Constant w → Option (Constant w)) (op : Op) (r : Range w) (v : Boundary w) :
    Option (ExprRange w) :=
  (boundaryValue fold op r.lower v).bind fun lb => (boundaryValue fold op r.upper v).map fun ub => ⟨lb, ub⟩

/-- Source: `range_value_sub` (`tl-ranges-common.cpp:1307`). -/
def rangeValueSub : Range w → Boundary w → Option (ExprRange w) :=
  rangeValue (fun k l => some (k.sub l)) .minus

/-- Where a constant is not computed a division is built. Source: `range_value_mul`
(`tl-ranges-common.cpp:1338`). -/
def rangeValueMul : Range w → Boundary w → Option (ExprRange w) :=
  rangeValue (fun k l => some (k.mul l)) .div

/-- Source: `range_value_div` (`tl-ranges-common.cpp:1369`). -/
def rangeValueDiv : Range w → Boundary w → Option (ExprRange w) := rangeValue Constant.div .div

/-- The boundary is a minimum or a maximum. -/
def Boundary.IsExtremum (b : Boundary w) : Prop := b.exact.IsExtremum

/-! ## Values -/

mutual
theorem structurallyEqual_iff : ∀ n1 n2 : Boundary w, structurallyEqual n1 n2 = true ↔ n1 = n2
  | .const k, n2 => by cases n2 <;> simp [structurallyEqual]
  | .minusInfinity, n2 => by cases n2 <;> simp [structurallyEqual]
  | .plusInfinity, n2 => by cases n2 <;> simp [structurallyEqual]
  | .symbol x, n2 => by cases n2 <;> simp [structurallyEqual]
  | .minimum es, n2 => by cases n2 <;> simp [structurallyEqual, structurallyEqualLists_iff es]
  | .maximum es, n2 => by cases n2 <;> simp [structurallyEqual, structurallyEqualLists_iff es]

theorem structurallyEqualLists_iff : ∀ es fs : List (Boundary w), structurallyEqualLists es fs = true ↔ es = fs
  | [], fs => by cases fs <;> simp [structurallyEqualLists]
  | e :: es, fs => by
    cases fs <;> simp [structurallyEqualLists, structurallyEqual_iff e, structurallyEqualLists_iff es]
end

section
variable {ρ : Nat → Int} {b v n : Boundary w} {r : Range w} {e : Expr w} {k l c : Constant w} {t : IntType}
  {x z : Int}

theorem mem_appendNew (exprs : List (Boundary w)) : n ∈ appendNew exprs ↔ n ∈ exprs := by
  have hfold (l : List (Boundary w)) :
      n ∈ exprs.foldl (fun l e => if l.any (structurallyEqual e) then l else l ++ [e]) l ↔ n ∈ l ∨ n ∈ exprs := by
    induction exprs generalizing l with
    | nil => simp
    | cons e exprs ih =>
      rw [List.foldl_cons, ih, List.mem_cons]
      split
      · next hin =>
        have hmem : e ∈ l := by simpa [structurallyEqual_iff] using hin
        constructor
        · tauto
        · rintro (h | rfl | h)
          exacts [.inl h, .inl hmem, .inr h]
      · rw [List.mem_append, List.mem_singleton, or_assoc]
  rw [appendNew, hfold, or_iff_right List.not_mem_nil]

theorem mem_exactList {exprs : List (Boundary w)} {m : Ranges.Boundary} :
    m ∈ exactList exprs ↔ ∃ e ∈ exprs, e.exact = m := by
  induction exprs with
  | nil => simp [exactList]
  | cons e exprs ih => simp [exactList, ih, eq_comm]

theorem mem_exactList_appendNew {exprs : List (Boundary w)} {m : Ranges.Boundary} :
    m ∈ exactList (appendNew exprs) ↔ m ∈ exactList exprs := by
  simp only [mem_exactList, mem_appendNew]

/-- A minimum or a maximum stays what it is. -/
theorem eval_nodeclValueAdd_of_isExtremum (h : n.IsExtremum) (v : Boundary w) :
    (nodeclValueAdd n v).exact.eval ρ = some (n.eval ρ) := by
  cases n with
  | minimum exprs =>
    refine congrArg some (eq_of_forall_le_iff fun u => ?_)
    simp only [Boundary.eval, Boundary.exact, Ranges.Boundary.eval, Ranges.le_evalMinimum_iff, mem_exactList_appendNew]
  | maximum exprs =>
    refine congrArg some (eq_of_forall_ge_iff fun u => ?_)
    simp only [Boundary.eval, Boundary.exact, Ranges.Boundary.eval, Ranges.evalMaximum_le_iff, mem_exactList_appendNew]
  | const k => exact h.elim
  | minusInfinity => exact h.elim
  | plusInfinity => exact h.elim
  | symbol y => exact h.elim

/-- A value with a constant is that constant. -/
theorem eq_const_of_eval (hv : v.eval ρ = (z : ExtInt)) (hl : v.constant = some l) : v = .const l ∧ l.stored = z := by
  cases v with
  | const m =>
    obtain rfl := Option.some.inj hl
    exact ⟨rfl, by simpa [Boundary.eval, Boundary.exact, Ranges.Boundary.eval] using hv⟩
  | minusInfinity => exact absurd hv (by simp [Boundary.eval, Boundary.exact, Ranges.Boundary.eval])
  | plusInfinity => exact absurd hv (by simp [Boundary.eval, Boundary.exact, Ranges.Boundary.eval])
  | symbol x => cases hl
  | minimum exprs => cases hl
  | maximum exprs => cases hl

/-! ## Sums and differences -/

/-- What a boundary moved by `z` becomes: a fold of the sum of constants, or an expression whose value is
moved. -/
inductive Moved (ρ : Nat → Int) (b v : Boundary w) (z : Int) (sum : Constant w → Constant w → Int) :
    Expr w → Prop
  | folded {k l c : Constant w} : b = .const k → v = .const l → sum k l = k.stored + z →
      FoldsTo (k.common l) (sum k l) c → Moved ρ b v z sum (.boundary (.const c))
  | exact {e : Expr w} : (∀ k l, b = .const k → v ≠ .const l) →
      e.exact.eval ρ = some (b.eval ρ + (z : ExtInt)) → Moved ρ b v z sum e

/-- The sum of the boundary and the value, if it is folded, is in the word and type from one side on. -/
def FoldsAbove (sum : Constant w → Constant w → Int) (b v : Boundary w) : Prop :=
  ∀ k l, b = .const k → v = .const l → least w (k.common l) ≤ sum k l

def FoldsBelow (sum : Constant w → Constant w → Int) (b v : Boundary w) : Prop :=
  ∀ k l, b = .const k → v = .const l → sum k l ≤ greatest w (k.common l)

theorem moved_nodeclValueAdd (h : ¬ n.IsExtremum) (hv : v.eval ρ = (z : ExtInt)) :
    Moved ρ n v z (fun k l => k.stored + l.stored) (nodeclValueAdd n v) := by
  have hbinary : (Expr.binary .add n v).exact.eval ρ = some (n.eval ρ + (z : ExtInt)) := by
    change Op.eval .add (n.eval ρ) (v.eval ρ) = _
    rw [hv]
    rfl
  cases n with
  | minimum exprs => exact absurd trivial h
  | maximum exprs => exact absurd trivial h
  | const k =>
    simp only [nodeclValueAdd, Boundary.constant]
    split
    · next k' l hk hl =>
      obtain rfl := Option.some.inj hk
      obtain ⟨rfl, hz⟩ := eq_const_of_eval hv hl
      exact .folded rfl rfl (by rw [hz]) (foldsTo_add k l)
    · next hnot =>
      refine .exact (fun k' l hk hl => hnot k l rfl ?_) hbinary
      rw [hl]
  | minusInfinity => exact .exact (fun _ _ hk => absurd hk (by simp)) rfl
  | plusInfinity => exact .exact (fun _ _ hk => absurd hk (by simp)) rfl
  | symbol y => exact .exact (fun _ _ hk => absurd hk (by simp)) hbinary

theorem moved_boundaryValue (b : Boundary w) (hv : v.eval ρ = (z : ExtInt)) :
    ∃ e, boundaryValue (fun k l => some (k.sub l)) .minus b v = some e ∧
      Moved ρ b v (-z) (fun k l => k.stored - l.stored) e := by
  have hbinary : (Expr.binary .minus b v).exact.eval ρ = some (b.eval ρ + ((-z : Int) : ExtInt)) := by
    change Op.eval .minus (b.eval ρ) (v.eval ρ) = _
    rw [hv]
    rfl
  cases b with
  | minusInfinity => exact ⟨_, rfl, .exact (fun _ _ hk => absurd hk (by simp)) rfl⟩
  | plusInfinity => exact ⟨_, rfl, .exact (fun _ _ hk => absurd hk (by simp)) rfl⟩
  | const k =>
    simp only [boundaryValue, Boundary.constant]
    split
    · next k' l hk hl =>
      obtain rfl := Option.some.inj hk
      obtain ⟨rfl, hz⟩ := eq_const_of_eval hv hl
      exact ⟨_, rfl, .folded rfl rfl (by rw [hz, Int.sub_eq_add_neg]) (foldsTo_sub k l)⟩
    · next hnot =>
      refine ⟨_, rfl, .exact (fun k' l hk hl => hnot k l rfl ?_) hbinary⟩
      rw [hl]
  | minimum exprs => exact ⟨_, rfl, .exact (fun _ _ hk => absurd hk (by simp)) hbinary⟩
  | maximum exprs => exact ⟨_, rfl, .exact (fun _ _ hk => absurd hk (by simp)) hbinary⟩
  | symbol y => exact ⟨_, rfl, .exact (fun _ _ hk => absurd hk (by simp)) hbinary⟩

/-- A lower boundary that is moved bounds the values that are. -/
theorem Moved.lower {sum : Constant w → Constant w → Int} (hmoved : Moved ρ r.lower v z sum e)
    (h : (r.values ρ).Nonempty) :
    ∃ L, e.exact.eval ρ = some L ∧
      ((∀ x ∈ r.values ρ, L ≤ ((x + z : Int) : ExtInt)) ↔ FoldsAbove sum r.lower v) := by
  cases hmoved with
  | exact hnot heval =>
    exact ⟨_, heval, iff_of_true (fun x hx => (Ranges.add_mem_interval hx z).1)
      fun k l hk hl => absurd hl (hnot k l hk)⟩
  | @folded k l c hk hl hsum hfold =>
    have hlower : r.lower.eval ρ = (k.stored : ExtInt) := by
      rw [hk]
      rfl
    have hmem : k.stored ∈ r.values ρ := by
      obtain ⟨x, hx, hx'⟩ := h
      exact ⟨hlower.le, hlower.ge.trans (hx.trans hx')⟩
    refine ⟨(c.stored : ExtInt), rfl, ?_⟩
    trans least w (k.common l) ≤ sum k l
    · rw [← hfold.le_iff, hsum]
      constructor
      · exact fun hle => by exact_mod_cast hle _ hmem
      · intro hle x hx
        have : k.stored ≤ x := by exact_mod_cast hlower.ge.trans hx.1
        exact_mod_cast (by omega : c.stored ≤ x + z)
    · constructor
      · intro hle k' l' hk' hl'
        cases hk.symm.trans hk'
        cases hl.symm.trans hl'
        exact hle
      · exact fun hfolds => hfolds k l hk hl

theorem Moved.upper {sum : Constant w → Constant w → Int} (hmoved : Moved ρ r.upper v z sum e)
    (h : (r.values ρ).Nonempty) :
    ∃ U, e.exact.eval ρ = some U ∧
      ((∀ x ∈ r.values ρ, ((x + z : Int) : ExtInt) ≤ U) ↔ FoldsBelow sum r.upper v) := by
  cases hmoved with
  | exact hnot heval =>
    exact ⟨_, heval, iff_of_true (fun x hx => (Ranges.add_mem_interval hx z).2)
      fun k l hk hl => absurd hl (hnot k l hk)⟩
  | @folded k l c hk hl hsum hfold =>
    have hupper : r.upper.eval ρ = (k.stored : ExtInt) := by
      rw [hk]
      rfl
    have hmem : k.stored ∈ r.values ρ := by
      obtain ⟨x, hx, hx'⟩ := h
      exact ⟨(hx.trans hx').trans hupper.le, hupper.ge⟩
    refine ⟨(c.stored : ExtInt), rfl, ?_⟩
    trans sum k l ≤ greatest w (k.common l)
    · rw [← hfold.ge_iff, hsum]
      constructor
      · exact fun hle => by exact_mod_cast hle _ hmem
      · intro hle x hx
        have : x ≤ k.stored := by exact_mod_cast hx.2.trans hupper.le
        exact_mod_cast (by omega : x + z ≤ c.stored)
    · constructor
      · intro hle k' l' hk' hl'
        cases hk.symm.trans hk'
        cases hl.symm.trans hl'
        exact hle
      · exact fun hfolds => hfolds k l hk hl

/-- A minimum or a maximum is folded with nothing. -/
theorem not_const_of_isExtremum (h : b.IsExtremum) : b ≠ .const k := by
  rintro rfl
  exact h

/-- The lower boundary of the sum. -/
theorem nodeclValueAdd_lower (h : (r.values ρ).Nonempty) (hv : v.eval ρ = (z : ExtInt)) :
    ∃ L, (nodeclValueAdd r.lower v).exact.eval ρ = some L ∧
      ((∀ x ∈ r.values ρ, L ≤ ((x + z : Int) : ExtInt)) ↔
        (r.lower.IsExtremum → r.lower.eval ρ = ⊥ ∨ 0 ≤ z) ∧
          FoldsAbove (fun k l => k.stored + l.stored) r.lower v) := by
  by_cases hextremum : r.lower.IsExtremum
  · refine ⟨_, eval_nodeclValueAdd_of_isExtremum hextremum v, (Ranges.forall_le_add_iff h).trans ?_⟩
    exact ⟨fun hle => ⟨fun _ => hle, fun k l hk => absurd hk (not_const_of_isExtremum hextremum)⟩,
      fun hle => hle.1 hextremum⟩
  · obtain ⟨L, hL, hiff⟩ := (moved_nodeclValueAdd hextremum hv).lower h
    exact ⟨L, hL, hiff.trans (and_iff_right fun h => absurd h hextremum).symm⟩

/-- The upper boundary of the sum. -/
theorem nodeclValueAdd_upper (h : (r.values ρ).Nonempty) (hv : v.eval ρ = (z : ExtInt)) :
    ∃ U, (nodeclValueAdd r.upper v).exact.eval ρ = some U ∧
      ((∀ x ∈ r.values ρ, ((x + z : Int) : ExtInt) ≤ U) ↔
        (r.upper.IsExtremum → r.upper.eval ρ = ⊤ ∨ z ≤ 0) ∧
          FoldsBelow (fun k l => k.stored + l.stored) r.upper v) := by
  by_cases hextremum : r.upper.IsExtremum
  · refine ⟨_, eval_nodeclValueAdd_of_isExtremum hextremum v, (Ranges.forall_add_le_iff h).trans ?_⟩
    exact ⟨fun hle => ⟨fun _ => hle, fun k l hk => absurd hk (not_const_of_isExtremum hextremum)⟩,
      fun hle => hle.1 hextremum⟩
  · obtain ⟨U, hU, hiff⟩ := (moved_nodeclValueAdd hextremum hv).upper h
    exact ⟨U, hU, hiff.trans (and_iff_right fun h => absurd h hextremum).symm⟩

/-- A range of folded boundaries whose values are known bounds what it has to, one side at a time. -/
theorem forall_mem_exact_iff {e : ExprRange w} {L U : ExtInt} {f : Int → Int} (hL : e.lower.exact.eval ρ = some L)
    (hU : e.upper.exact.eval ρ = some U) :
    (∀ x ∈ r.values ρ, f x ∈ e.values ρ) ↔
      (∀ x ∈ r.values ρ, L ≤ (f x : ExtInt)) ∧ ∀ x ∈ r.values ρ, (f x : ExtInt) ≤ U := by
  have hmem (x : Int) : x ∈ e.values ρ ↔ x ∈ interval L U := Ranges.mem_values_iff (e := e.exact) hL hU
  simp only [hmem, mem_interval, forall_and]

/-- **A range shifted by a value** bounds the shifted values exactly if no minimum or maximum for a boundary
would have had to move outwards in the sum, and no fold takes a boundary past the end of its word or type. -/
theorem rangeValueAdd_sound_iff (r : Range w) (v : Boundary w) (ρ : Nat → Int) (z : Int)
    (hv : v.eval ρ = (z : ExtInt)) :
    (∀ x ∈ r.values ρ, x + z ∈ (rangeValueAdd r v).values ρ ∧ ∃ e ∈ rangeValueSub r v, x - z ∈ e.values ρ) ↔
      r.values ρ = ∅ ∨
        (((r.lower.IsExtremum → r.lower.eval ρ = ⊥ ∨ 0 ≤ z) ∧
            FoldsAbove (fun k l => k.stored + l.stored) r.lower v) ∧
          (r.upper.IsExtremum → r.upper.eval ρ = ⊤ ∨ z ≤ 0) ∧
            FoldsBelow (fun k l => k.stored + l.stored) r.upper v) ∧
          FoldsAbove (fun k l => k.stored - l.stored) r.lower v ∧
            FoldsBelow (fun k l => k.stored - l.stored) r.upper v := by
  rcases Set.eq_empty_or_nonempty (r.values ρ) with hempty | hvalue
  · exact iff_of_true (by simp [hempty]) (.inl hempty)
  rw [or_iff_right hvalue.ne_empty]
  obtain ⟨L, hL, hlower⟩ := nodeclValueAdd_lower hvalue hv
  obtain ⟨U, hU, hupper⟩ := nodeclValueAdd_upper hvalue hv
  obtain ⟨lb, hlb, hmoved⟩ := moved_boundaryValue r.lower hv
  obtain ⟨ub, hub, hmoved'⟩ := moved_boundaryValue r.upper hv
  obtain ⟨L', hL', hlower'⟩ := hmoved.lower hvalue
  obtain ⟨U', hU', hupper'⟩ := hmoved'.upper hvalue
  have hsub : rangeValueSub r v = some ⟨lb, ub⟩ := by
    rw [rangeValueSub, rangeValue, hlb, hub]
    rfl
  simp only [hsub, Option.mem_def, Option.some.injEq, exists_eq_left', Int.sub_eq_add_neg, forall_and]
  rw [forall_mem_exact_iff (e := rangeValueAdd r v) (f := fun x => x + z) hL hU,
    forall_mem_exact_iff (e := ⟨lb, ub⟩) (f := fun x => x + -z) hL' hU', hlower, hupper, hlower', hupper']
  simp only [Int.sub_eq_add_neg]

end

/-- From one to a variable, moved by three. -/
theorem rangeValueAdd_sound_iff_symbol :
    let r : Range .int64 := ⟨.const (.ofInt _ 1), .symbol 0⟩
    let v : Boundary .int64 := .const (.ofInt _ 3)
    v.eval (fun _ => 4) = ((3 : Int) : ExtInt) ∧ ∀ x ∈ r.values fun _ => 4,
      x + 3 ∈ (rangeValueAdd r v).values (fun _ => 4) ∧
        ∃ e ∈ rangeValueSub r v, x - 3 ∈ e.values fun _ => 4 := by
  intro r v
  have hlower {P : Constant .int64 → Constant .int64 → Prop} (h : P (.ofInt _ 1) (.ofInt _ 3)) (k l : Constant .int64)
      (hk : r.lower = .const k) (hl : v = .const l) : P k l := by
    obtain rfl := Boundary.const.inj hk
    obtain rfl := Boundary.const.inj hl
    exact h
  refine ⟨rfl, (rangeValueAdd_sound_iff r v (fun _ => 4) 3 rfl).2 (.inr ⟨⟨⟨False.elim, ?_⟩, False.elim, ?_⟩, ?_, ?_⟩)⟩
  · exact hlower (P := fun k l => least .int64 (k.common l) ≤ k.stored + l.stored) (by decide)
  · exact fun k l hk => nomatch hk
  · exact hlower (P := fun k l => least .int64 (k.common l) ≤ k.stored - l.stored) (by decide)
  · exact fun k l hk => nomatch hk

/-- The range from `1` to the least of a variable and `5`, the variable being `4`, and the value `3`: the
sum is the range `[4, 4]`. -/
theorem not_rangeValueAdd_sound :
    let r : Range .int128 := ⟨.const (.ofInt _ 1), .minimum [.symbol 0, .const (.ofInt _ 5)]⟩
    let v : Boundary .int128 := .const (.ofInt _ 3)
    4 ∈ r.values (fun _ => 4) ∧ v.eval (fun _ => 4) = ((3 : Int) : ExtInt) ∧
      4 + 3 ∉ (rangeValueAdd r v).values fun _ => 4 := by
  intro r v
  have hupper : r.upper.eval (fun _ => 4) = ((4 : Int) : ExtInt) := by decide
  refine ⟨⟨Ranges.eval_const_le.2 (by decide), hupper.ge⟩, rfl, ?_⟩
  rintro ⟨l, -, u, hu, -, hle⟩
  obtain rfl : ((4 : Int) : ExtInt) = u := by
    rw [← hupper]
    exact Option.some.inj ((eval_nodeclValueAdd_of_isExtremum (n := r.upper) trivial v).symm.trans hu)
  exact absurd hle (by norm_cast)

/-- From `0U` to `10U` less one: the fold of the lower boundary is the greatest `unsigned int`. -/
example :
    (rangeValueSub ⟨.const (.ofUnsigned .int128 0), .const (.ofUnsigned .int128 10)⟩
        (.const (.ofInt .int128 1))).map ExprRange.exact =
      some ⟨.boundary (.const 4294967295), .boundary (.const 9)⟩ := rfl

section
variable {ρ : Nat → Int} {b v : Boundary w} {r : Range w} {k l : Constant w} {z : Int}

/-! ## Products and quotients -/

/-- The quotient of two constants is folded exactly: the wide words are divided as they are, so those of an
unsigned type must not be negative. -/
def QuotientFits (k l : Constant w) : Prop :=
  Fits w (k.common l) (k.stored.tdiv l.stored) ∧ ((k.common l).sign = false → 0 ≤ k.stored ∧ 0 ≤ l.stored)

instance (k l : Constant w) : Decidable (QuotientFits k l) := inferInstanceAs (Decidable (_ ∧ _))

/-- An operation that is folded has an operation on integers for its fold. -/
def FoldsAs (fold : Constant w → Constant w → Option (Constant w)) (f : Int → Int → Int) (b v : Boundary w) :
    Prop :=
  ∀ k l, b = .const k → v = .const l → ∃ m, fold k l = some m ∧ m.stored = f k.stored l.stored

/-- The word of a constant, read with a sign. -/
theorem toInt_of_unsigned (hs : k.type.sign = false) (hlt : k.type.bits < w.bits) : k.i.toInt = k.stored := by
  have hmade := k.made hs
  have hpow : 2 ^ k.type.bits ≤ 2 ^ (w.bits - 1) := Nat.pow_le_pow_right (by decide) (by omega)
  have hword : 2 ^ w.bits = 2 * 2 ^ (w.bits - 1) := by cases w <;> decide
  rw [ConstValue.stored, hs, if_neg Bool.false_ne_true, BitVec.toInt_eq_toNat_of_lt (by omega)]

theorem toInt_of_signed (hs : k.type.sign = true) : k.i.toInt = k.stored := by
  rw [ConstValue.stored, if_pos hs]

theorem toNat_of_nonneg (h : 0 ≤ k.stored) : (k.i.toNat : Int) = k.stored := by
  unfold ConstValue.stored at *
  split
  · next hs =>
    rw [if_pos hs, BitVec.toInt_eq_toNat_cond] at h
    have := k.i.isLt
    rw [BitVec.toInt_eq_toNat_cond]
    split <;> omega
  · rfl

theorem div_of_fits (hl : l.stored ≠ 0) (h : QuotientFits k l) :
    ∃ m, k.div l = some m ∧ m.stored = k.stored.tdiv l.stored := by
  obtain ⟨hfits, hnonneg⟩ := h
  have hzero : l.i ≠ 0 := by
    intro hzero
    rw [ConstValue.stored, hzero] at hl
    exact hl (by split <;> simp)
  suffices hword : (if (k.common l).sign then trapping BitVec.sdiv k.i l.i else trappingZero BitVec.udiv k.i l.i) =
      some (BitVec.ofInt w.bits (k.stored.tdiv l.stored)) by
    rw [Constant.div, hword]
    exact ⟨_, rfl, (foldsTo_getInteger _ _).eq_of_fits hfits⟩
  cases hs : (k.common l).sign with
  | true =>
    have hbits := (k.common l).bits_le w
    obtain ⟨⟨-, hk⟩, -, hl'⟩ := commonBytes_signed hs
    have hki : k.i.toInt = k.stored := by
      cases hs : k.type.sign with
      | true => exact toInt_of_signed hs
      | false => exact toInt_of_unsigned hs ((hk hs).trans_le hbits)
    have hli : l.i.toInt = l.stored := by
      cases hs : l.type.sign with
      | true => exact toInt_of_signed hs
      | false => exact toInt_of_unsigned hs ((hl' hs).trans_le hbits)
    have hoverflow : ¬ (k.i = BitVec.intMin w.bits ∧ l.i = -1) := by
      rintro ⟨hmin, hminus⟩
      rw [← hki, ← hli, hmin, hminus] at hfits
      have := hfits.2
      unfold greatest at this
      rw [if_pos hs] at this
      revert this
      cases w <;> decide
    rw [if_pos rfl, trapping, if_neg (by tauto), ← BitVec.ofInt_toInt (x := k.i.sdiv l.i),
      BitVec.toInt_sdiv_of_ne_or_ne _ _ (by tauto), hki, hli]
  | false =>
    obtain ⟨hk, hl'⟩ := hnonneg hs
    rw [if_neg Bool.false_ne_true, trappingZero, if_neg hzero, Int.tdiv_eq_ediv_of_nonneg hk,
      ← toNat_of_nonneg hk, ← toNat_of_nonneg hl', ← Int.natCast_ediv, ← BitVec.toNat_udiv, ofInt_toNat]
    rfl

theorem boundaryValue_const (fold : Constant w → Constant w → Option (Constant w)) (op : Op) (k : Constant w)
    (v : Boundary w) : boundaryValue fold op (.const k) v = match v.constant with
      | some l => (fold k l).map fun m => .boundary (.const m)
      | none => some (.binary op (.const k) v) := by
  cases v <;> rfl

/-- Where what is folded is exact, the boundary is that of exact integers. -/
theorem boundaryValue_exact {fold : Constant w → Constant w → Option (Constant w)} {f : Int → Int → Int} (op : Op)
    (hv : v.eval ρ = (z : ExtInt)) (hfold : FoldsAs fold f b v) :
    ∃ e, boundaryValue fold op b v = some e ∧ e.exact = Ranges.boundaryValue f op b.exact v.exact := by
  cases b with
  | const k =>
    rw [Boundary.exact, Ranges.boundaryValue_const, constant_exact, boundaryValue_const]
    cases hl : v.constant with
    | none => exact ⟨_, rfl, rfl⟩
    | some l =>
      obtain ⟨rfl, -⟩ := eq_const_of_eval hv hl
      obtain ⟨m, hm, hstored⟩ := hfold k l rfl rfl
      refine ⟨.boundary (.const m), ?_, ?_⟩
      · simp only [hm, Option.map_some]
      · rw [Expr.exact, Boundary.exact, hstored]
        rfl
  | minusInfinity => exact ⟨_, rfl, rfl⟩
  | plusInfinity => exact ⟨_, rfl, rfl⟩
  | symbol y => exact ⟨_, rfl, rfl⟩
  | minimum exprs => exact ⟨_, rfl, rfl⟩
  | maximum exprs => exact ⟨_, rfl, rfl⟩

/-- What is folded for the boundaries of a range fits. -/
def BothFit (P : Constant w → Constant w → Prop) (r : Range w) (v : Boundary w) : Prop :=
  ∀ k l, r.lower = .const k ∨ r.upper = .const k → v = .const l → P k l

theorem rangeValue_exact {fold : Constant w → Constant w → Option (Constant w)} {f : Int → Int → Int} (op : Op)
    {P : Constant w → Constant w → Prop} (hv : v.eval ρ = (z : ExtInt))
    (hP : ∀ k l, l.stored = z → P k l → ∃ m, fold k l = some m ∧ m.stored = f k.stored l.stored)
    (h : BothFit P r v) :
    ∃ e, rangeValue fold op r v = some e ∧
      e.exact = ⟨Ranges.boundaryValue f op r.lower.exact v.exact, Ranges.boundaryValue f op r.upper.exact v.exact⟩ := by
  have hfold {b : Boundary w} (hb : ∀ k, b = .const k → r.lower = .const k ∨ r.upper = .const k) :
      FoldsAs fold f b v := fun k l hk hl =>
    hP k l (eq_const_of_eval hv (congrArg Boundary.constant hl)).2 (h k l (hb k hk) hl)
  obtain ⟨lb, hlb, hlower⟩ := boundaryValue_exact op hv (hfold fun k => .inl)
  obtain ⟨ub, hub, hupper⟩ := boundaryValue_exact op hv (hfold fun k => .inr)
  refine ⟨⟨lb, ub⟩, ?_, ?_⟩
  · rw [rangeValue, hlb, hub]
    rfl
  · rw [ExprRange.exact, hlower, hupper]

/-- **A range scaled by a value** without minima and maxima for its boundaries, where the folds fit. -/
theorem rangeValueMul_sound_iff (r : Range w) (v : Boundary w) (ρ : Nat → Int) (z : Int)
    (hl : ¬ r.lower.IsExtremum) (hu : ¬ r.upper.IsExtremum) (hv : v.eval ρ = (z : ExtInt)) :
    (BothFit (fun k l => Fits w (k.common l) (k.stored * l.stored)) r v →
        ((∀ x ∈ r.values ρ, ∃ e ∈ rangeValueMul r v, x * z ∈ e.values ρ) ↔ r.values ρ = ∅ ∨
          (Ranges.LowerScaled (Ranges.Folded r.lower.exact v.exact) z (r.lower.eval ρ) (r.upper.eval ρ) ∧
            Ranges.UpperScaled (Ranges.Folded r.upper.exact v.exact) z (r.lower.eval ρ) (r.upper.eval ρ)))) ∧
      (z ≠ 0 → BothFit QuotientFits r v →
        ((∀ x ∈ r.values ρ, ∃ e ∈ rangeValueDiv r v, x.tdiv z ∈ e.values ρ) ↔ r.values ρ = ∅ ∨ 0 < z ∨
          (r.lower.eval ρ = ⊥ ∧ r.upper.eval ρ = ⊤) ∨
          ∃ k l : Int, r.lower.eval ρ = (k : ExtInt) ∧ r.upper.eval ρ = (l : ExtInt) ∧
            k.tdiv z = l.tdiv z)) := by
  obtain ⟨hmul, hdiv⟩ := Ranges.rangeValueMul_bounds_iff r.exact v.exact ρ z hl hu hv
  constructor
  · intro hfits
    obtain ⟨e, he, hexact⟩ := rangeValue_exact (f := (· * ·)) .div hv
      (fun k l _ hkl => ⟨_, rfl, (foldsTo_mul k l).eq_of_fits hkl⟩) hfits
    rw [rangeValueMul, he]
    simp only [Option.mem_def, Option.some.injEq, exists_eq_left', ExprRange.values, hexact]
    exact hmul
  · intro hz hfits
    obtain ⟨e, he, hexact⟩ := rangeValue_exact (f := Int.tdiv) .div hv
      (fun k l hl hkl => div_of_fits (hl ▸ hz) hkl) hfits
    rw [rangeValueDiv, he]
    simp only [Option.mem_def, Option.some.injEq, exists_eq_left', ExprRange.values, hexact]
    exact hdiv hz

end

/-- From one to four, by two. -/
theorem rangeValueMul_sound_iff_pos :
    let r : Range .int64 := ⟨.const (.ofInt _ 1), .const (.ofInt _ 4)⟩
    let v : Boundary .int64 := .const (.ofInt _ 2)
    (¬ r.lower.IsExtremum ∧ ¬ r.upper.IsExtremum ∧ v.eval (fun _ => 0) = ((2 : Int) : ExtInt)) ∧
      (∀ x ∈ r.values fun _ => 0, ∃ e ∈ rangeValueMul r v, x * 2 ∈ e.values fun _ => 0) ∧
        ∀ x ∈ r.values fun _ => 0, ∃ e ∈ rangeValueDiv r v, x.tdiv 2 ∈ e.values fun _ => 0 := by
  intro r v
  have hboth {P : Constant .int64 → Constant .int64 → Prop} (h1 : P (.ofInt _ 1) (.ofInt _ 2))
      (h4 : P (.ofInt _ 4) (.ofInt _ 2)) : BothFit P r v := by
    rintro k l (hk | hk) hl
    · obtain rfl := Boundary.const.inj hk
      obtain rfl := Boundary.const.inj hl
      exact h1
    · obtain rfl := Boundary.const.inj hk
      obtain rfl := Boundary.const.inj hl
      exact h4
  have h := rangeValueMul_sound_iff r v (fun _ => 0) 2 id id rfl
  refine ⟨⟨id, id, rfl⟩, (h.1 (hboth (by decide) (by decide))).2 (.inr ⟨?_, ?_⟩),
    (h.2 (by decide) (hboth (by decide) (by decide))).2 (.inr (.inl (by decide)))⟩
  · exact .inr (.inl ⟨⟨rfl, rfl⟩, .inl (by decide)⟩)
  · exact .inr (.inl ⟨⟨rfl, rfl⟩, .inl (by decide)⟩)

/-- The range `[1, 2]` by `-1` is `[-1, -2]`. -/
theorem not_rangeValueMul_sound :
    let r : Range .int128 := ⟨.const (.ofInt _ 1), .const (.ofInt _ 2)⟩
    let v : Boundary .int128 := .const (.ofInt _ (-1))
    1 ∈ r.values (fun _ => 0) ∧ v.eval (fun _ => 0) = ((-1 : Int) : ExtInt) ∧
      ¬ ∃ e ∈ rangeValueMul r v, 1 * -1 ∈ e.values fun _ => 0 := by
  intro r v
  refine ⟨⟨Ranges.eval_const_le.2 (by decide), Ranges.le_eval_const.2 (by decide)⟩, rfl, ?_⟩
  rintro ⟨e, he, l, hl, u, hu, -, hle⟩
  cases he
  obtain rfl : ((-2 : Int) : ExtInt) = u := Option.some.inj hu
  exact absurd hle (by norm_cast)

/-- From `0U` to `100000U` by `100000U`: the greatest product is less than others. -/
example :
    (rangeValueMul ⟨.const (.ofUnsigned .int128 0), .const (.ofUnsigned .int128 100000)⟩
        (.const (.ofUnsigned .int128 100000))).map ExprRange.exact =
      some ⟨.boundary (.const 0), .boundary (.const 1410065408)⟩ := rfl

end OmpSs.Mcxx.FoldedRanges
