import OmpSs.Lib.CountedLoop
import OmpSs.Lib.MixedRadix

/-!
# Loop collapsing

`LoopCollapse::collapse` (`mcxx/src/tl/hlt/hlt-loop-collapse.cpp:508`) turns a perfect nest of counted
loops into one loop over the number of the iteration in the nest. `compute_collapse_statements` walks the
nest from the innermost loop outwards; for each loop it generates the variables for its step, its number
of elements and their product, and the expression that gets the loop's index back from the number:
the number over the elements of the loops inside, modulo the loop's own elements. Source and target are
given a meaning here (`nest`, `Collapsed.run`), and `collapse_run` says that they run the body on the same
index tuples in the same order. Integers are exact; the bounds and steps are the values of their
expressions, which do not change in the nest.
-/

namespace OmpSs.Mcxx.LoopCollapse

open Lib

/-! ## The generated code -/

/-- The variables of the generated code, by the nesting level of their loop: `collapse_i_step`,
`collapse_i_num_elements`, `collapse_i_rounded_size`, `collapse_it`, `collapse_total_num_elements` and the
induction variables. -/
inductive Sym
  | step (i : Nat)
  | numElements (i : Nat)
  | roundedSize (i : Nat)
  | it
  | total
  | induction (i : Nat)
deriving DecidableEq

/-- The expressions of the generated code. Conversions and parentheses have no meaning over exact integers
and are left out. -/
inductive Expr
  | lit (v : Int)
  | sym (s : Sym)
  | add (lhs rhs : Expr)
  | minus (lhs rhs : Expr)
  | mul (lhs rhs : Expr)
  | div (lhs rhs : Expr)
  | mod (lhs rhs : Expr)
  | lowerThan (lhs rhs : Expr)
  | conditional (cond then_ else_ : Expr)
deriving DecidableEq

inductive Stmt
  | assign (s : Sym) (e : Expr)
  | ifThen (cond : Expr) (s : Sym) (e : Expr)
deriving DecidableEq

/-- The control of the generated loop: a `for` of C and C++, or a `DO` of Fortran with its range. -/
inductive LoopControl
  | for (s : Sym) (init cond next : Expr)
  | range (s : Sym) (lower upper step : Expr)
deriving DecidableEq

/-- The statements before the loop, the loop's control, and the statements of its body before the
original body. -/
structure Collapsed where
  statements : List Stmt
  control : LoopControl
  body : List Stmt
deriving DecidableEq

/-- Source: `LoopInfo` (`hlt-loop-collapse.cpp:85`), with the values of the bounds and the step; the
induction variable is known by its level. -/
structure LoopInfo where
  lower_bound : Int
  upper_bound : Int
  step : Int
deriving DecidableEq

inductive Language
  | c
  | fortran
deriving DecidableEq

/-! ## The transformation -/

/-- The update that follows the definition of the number of elements: the number is made positive or zero.
Source: `hlt-loop-collapse.cpp:278`. -/
def numElemUpdate (language : Language) (i : Nat) : Stmt := match language with
  | .c => .assign (.numElements i) (.conditional (.lowerThan (.sym (.numElements i)) (.lit 0)) (.lit 0)
      (.sym (.numElements i)))
  | .fortran => .ifThen (.lowerThan (.sym (.numElements i)) (.lit 0)) (.numElements i) (.lit 0)

/-- The generated definitions and updates for the loop at level `i`. Source: `hlt-loop-collapse.cpp:223`. -/
def loopStatements (language : Language) (i : Nat) (l : LoopInfo) : List Stmt :=
  [.assign (.step i) (.lit l.step),
    .assign (.numElements i)
      (.div (.add (.minus (.lit l.upper_bound) (.lit l.lower_bound)) (.sym (.step i))) (.sym (.step i))),
    numElemUpdate language i,
    .assign (.roundedSize i) (.mul (.sym (.numElements i)) (.sym (.step i)))]

/-- The statement that gets the index of the loop at level `i` back. Source:
`hlt-loop-collapse.cpp:336`. -/
def inductionStatement (i : Nat) (l : LoopInfo) (num_elem_in_nested_loops : Expr) : Stmt :=
  .assign (.induction i) (.add (.lit l.lower_bound)
    (.mod (.mul (.div (.sym .it) num_elem_in_nested_loops) (.sym (.step i))) (.sym (.roundedSize i))))

/-- The loop from the innermost level to the outermost: the statements before the generated loop, those of
its body, and the product of the numbers of elements. The levels from `i` on are given. Source:
`compute_collapse_statements` (`hlt-loop-collapse.cpp:188`). -/
def computeCollapseStatements (language : Language) (i : Nat) :
    List LoopInfo → List Stmt × List Stmt × Expr
  | [] => ([], [], .lit 1)
  | l :: inner =>
    let r := computeCollapseStatements language (i + 1) inner
    (r.1 ++ loopStatements language i l, inductionStatement i l r.2.2 :: r.2.1,
      .mul (.sym (.numElements i)) r.2.2)

/-- Source: `LoopCollapse::collapse` (`hlt-loop-collapse.cpp:508`). The loops are listed from the outermost
in. -/
def collapse (language : Language) (loops : List LoopInfo) : Collapsed :=
  let r := computeCollapseStatements language 0 loops
  match language with
  | .c =>
    { statements := r.1 ++ [.assign .total r.2.2]
      control := .for .it (.lit 0) (.lowerThan (.sym .it) (.sym .total)) (.add (.sym .it) (.lit 1))
      body := r.2.1 }
  | .fortran =>
    { statements := r.1 ++ [.assign .total (.minus r.2.2 (.lit 1))]
      control := .range .it (.lit 0) (.sym .total) (.lit 1)
      body := r.2.1 }

/-! ## What the code means -/

abbrev Env := Sym → Int

/-- The value of an expression; `none`: it divides or takes a modulo by zero. -/
def Expr.eval (ρ : Env) : Expr → Option Int
  | .lit v => some v
  | .sym s => some (ρ s)
  | .add a b => (a.eval ρ).bind fun x => (b.eval ρ).map fun y => x + y
  | .minus a b => (a.eval ρ).bind fun x => (b.eval ρ).map fun y => x - y
  | .mul a b => (a.eval ρ).bind fun x => (b.eval ρ).map fun y => x * y
  | .div a b => (a.eval ρ).bind fun x => (b.eval ρ).bind fun y => if y = 0 then none else some (x.tdiv y)
  | .mod a b => (a.eval ρ).bind fun x => (b.eval ρ).bind fun y => if y = 0 then none else some (x.tmod y)
  | .lowerThan a b => (a.eval ρ).bind fun x => (b.eval ρ).map fun y => if x < y then 1 else 0
  | .conditional c a b => (c.eval ρ).bind fun x => if x ≠ 0 then a.eval ρ else b.eval ρ

def Stmt.exec (ρ : Env) : Stmt → Option Env
  | .assign s e => (e.eval ρ).map fun v => Function.update ρ s v
  | .ifThen c s e => (c.eval ρ).bind fun x =>
    if x ≠ 0 then (e.eval ρ).map fun v => Function.update ρ s v else some ρ

def execAll (ρ : Env) (stmts : List Stmt) : Option Env := stmts.foldlM Stmt.exec ρ

namespace Collapsed

variable (code : Collapsed) (levels : Nat)

/-- The indices the original body sees. -/
def indices (ρ : Env) : List Int := (List.range levels).map fun i => ρ (.induction i)

/-- A `for` of C from the test on: the index tuples the body is run on. `none`: a division by zero, or no
end after `fuel` tests. -/
def runFor (s : Sym) (cond next : Expr) : Nat → Env → Option (List (List Int))
  | 0, _ => none
  | fuel + 1, ρ => (cond.eval ρ).bind fun c =>
    if c = 0 then some []
    else (execAll ρ code.body).bind fun ρ' => (next.eval ρ').bind fun v =>
      (runFor s cond next fuel (Function.update ρ' s v)).map fun rest => indices levels ρ' :: rest

/-- A `DO` of Fortran over the values of its range. -/
def runRange (s : Sym) : List Int → Env → Option (List (List Int))
  | [], _ => some []
  | v :: vs, ρ => (execAll (Function.update ρ s v) code.body).bind fun ρ' =>
    (runRange s vs ρ').map fun rest => indices levels ρ' :: rest

/-- The index tuples the collapsed loop runs the body on, in order. -/
def run (fuel : Nat) (ρ : Env) : Option (List (List Int)) :=
  (execAll ρ code.statements).bind fun ρ' => match code.control with
    | .for s init cond next => (init.eval ρ').bind fun v =>
      code.runFor levels s cond next fuel (Function.update ρ' s v)
    | .range s lower upper step => (lower.eval ρ').bind fun l => (upper.eval ρ').bind fun u =>
      (step.eval ρ').bind fun d => code.runRange levels s (iterations l u d) ρ'

end Collapsed

/-- The index tuples the nest runs its body on, in order. -/
def nest : List LoopInfo → List (List Int)
  | [] => [[]]
  | l :: inner =>
    (iterations l.lower_bound l.upper_bound l.step).flatMap fun v => (nest inner).map (v :: ·)

/-! ## Numbers of elements -/

/-- The number of iterations of a loop. -/
def LoopInfo.trips (l : LoopInfo) : Nat := tripCount l.lower_bound l.upper_bound l.step

/-- The number of iterations of a nest. -/
def total (loops : List LoopInfo) : Nat := (loops.map LoopInfo.trips).prod

@[simp] theorem total_nil : total [] = 1 := rfl

@[simp] theorem total_cons (l : LoopInfo) (inner : List LoopInfo) :
    total (l :: inner) = l.trips * total inner := List.prod_cons

/-- The generated count for a range of length `d` in the direction of a step of size `n`. -/
theorem clipped_tdiv {d n : Int} (hn : 0 < n) :
    (if (d + n).tdiv n < 0 then 0 else (d + n).tdiv n) = if 0 ≤ d then d.tdiv n + 1 else 0 := by
  rcases lt_or_ge d 0 with hd | hd
  · -- the sum is less than the step, or negative
    have hle : (d + n).tdiv n ≤ 0 := by
      rcases lt_or_ge (d + n) 0 with hsum | hsum
      · rw [← Int.neg_neg (d + n), Int.neg_tdiv]
        have := Int.tdiv_nonneg (a := -(d + n)) (by omega) hn.le
        omega
      · rw [Int.tdiv_eq_zero_of_lt hsum (by omega)]
    rw [if_neg (by omega : ¬ 0 ≤ d)]
    split <;> omega
  · have hdiv : (d + n).tdiv n = d.tdiv n + 1 := by
      rw [Int.tdiv_eq_ediv_of_nonneg (by omega), Int.tdiv_eq_ediv_of_nonneg hd, ← Int.one_mul n,
        Int.one_mul, ← Int.add_mul_ediv_right d 1 hn.ne', Int.one_mul]
    have := Int.tdiv_nonneg hd hn.le
    rw [if_pos hd, hdiv, if_neg (by omega)]

/-- The generated count, where it is not negative, is the number of iterations; elsewhere there are
none. -/
theorem num_elements_eq (l : LoopInfo) (h : l.step ≠ 0) :
    (if (l.upper_bound - l.lower_bound + l.step).tdiv l.step < 0 then 0
      else (l.upper_bound - l.lower_bound + l.step).tdiv l.step) = (l.trips : Int) := by
  have htrips : (l.trips : Int) = if within l.upper_bound l.step l.lower_bound then
      (l.upper_bound - l.lower_bound).tdiv l.step + 1 else 0 := by
    split
    · next hin => exact (tdiv_add_one_eq h hin).symm
    · next hout => rw [LoopInfo.trips, tripCount, if_neg hout, Nat.cast_zero]
  rw [htrips]
  rcases lt_or_gt_of_ne h with hneg | hpos
  · have hflip : ∀ x : Int, x.tdiv l.step = (-x).tdiv (-l.step) := fun x => by
      rw [Int.neg_tdiv, Int.tdiv_neg, Int.neg_neg]
    have hsum : -(l.upper_bound - l.lower_bound + l.step) =
        l.lower_bound - l.upper_bound + -l.step := by ring
    rw [hflip (_ + _), hsum, clipped_tdiv (by omega), hflip (l.upper_bound - l.lower_bound), Int.neg_sub]
    simp only [within, hneg, if_true, decide_eq_true_eq, Int.sub_nonneg]
  · rw [clipped_tdiv hpos]
    simp only [within, not_lt.2 hpos.le, if_false, decide_eq_true_eq, Int.sub_nonneg]

/-! ## The statements before the loop -/

section
variable {ρ ρ' : Env} {language : Language} {i : Nat} {l : LoopInfo} {loops : List LoopInfo}

@[simp] theorem execAll_nil (ρ : Env) : execAll ρ [] = some ρ := rfl

@[simp] theorem execAll_cons (ρ : Env) (s : Stmt) (rest : List Stmt) :
    execAll ρ (s :: rest) = (s.exec ρ).bind fun ρ' => execAll ρ' rest := rfl

theorem exec_assign (ρ : Env) (s : Sym) (e : Expr) :
    (Stmt.assign s e).exec ρ = (e.eval ρ).map fun v => Function.update ρ s v := rfl

theorem execAll_append (ρ : Env) (s t : List Stmt) :
    execAll ρ (s ++ t) = (execAll ρ s).bind fun ρ' => execAll ρ' t := by
  rw [execAll, List.foldlM_append]
  rfl

/-- The variables of the level `i` have their values for the loop `l`. -/
structure SetFor (ρ : Env) (i : Nat) (l : LoopInfo) : Prop where
  step : ρ (.step i) = l.step
  numElements : ρ (.numElements i) = l.trips
  roundedSize : ρ (.roundedSize i) = l.trips * l.step

/-- The variables of all levels from `i` on have their values. -/
def Prepared (ρ : Env) : Nat → List LoopInfo → Prop
  | _, [] => True
  | i, l :: inner => SetFor ρ i l ∧ Prepared ρ (i + 1) inner

/-- The variables of the levels from `i` on are the same. -/
def SameFrom (i : Nat) (ρ ρ' : Env) : Prop :=
  ∀ j, i ≤ j → ρ' (.step j) = ρ (.step j) ∧ ρ' (.numElements j) = ρ (.numElements j) ∧
    ρ' (.roundedSize j) = ρ (.roundedSize j)

theorem Prepared.congr (h : Prepared ρ i loops) (hsame : SameFrom i ρ ρ') : Prepared ρ' i loops := by
  induction loops generalizing i with
  | nil => trivial
  | cons l inner ih =>
    obtain ⟨hset, hinner⟩ := h
    obtain ⟨hstep, hnum, hrounded⟩ := hsame i (le_refl i)
    exact ⟨⟨hstep.trans hset.step, hnum.trans hset.numElements, hrounded.trans hset.roundedSize⟩,
      ih hinner fun j hj => hsame j (by omega)⟩

/-- In both languages the update replaces a negative number by 0. -/
theorem exec_numElemUpdate (ρ : Env) (language : Language) (i : Nat) :
    (numElemUpdate language i).exec ρ = some (Function.update ρ (.numElements i)
      (if ρ (.numElements i) < 0 then 0 else ρ (.numElements i))) := by
  cases language with
  | c =>
    simp only [numElemUpdate, Stmt.exec, Expr.eval, Option.bind_some, Option.map_some]
    split <;> simp
  | fortran =>
    simp only [numElemUpdate, Stmt.exec, Expr.eval, Option.bind_some, Option.map_some]
    split
    · simp
    · simp

/-- The definitions of one level do not divide by zero, set the level's variables and leave those of other
levels alone. -/
theorem exec_loopStatements (ρ : Env) (language : Language) (i : Nat) (l : LoopInfo) (hstep : l.step ≠ 0) :
    ∃ ρ', execAll ρ (loopStatements language i l) = some ρ' ∧ SetFor ρ' i l ∧ SameFrom (i + 1) ρ ρ' := by
  have hcount := num_elements_eq l hstep
  refine ⟨Function.update (Function.update (Function.update (Function.update ρ (.step i) l.step)
      (.numElements i) ((l.upper_bound - l.lower_bound + l.step).tdiv l.step)) (.numElements i) l.trips)
      (.roundedSize i) (l.trips * l.step), ?_, ⟨?_, ?_, ?_⟩, fun j hj => ?_⟩
  · simp only [loopStatements, execAll_cons, execAll_nil, exec_numElemUpdate, exec_assign, Expr.eval,
      Option.bind_some, Option.map_some, Function.update_self, hstep, if_false, hcount]
    simp
  · simp
  · simp
  · simp
  · have hne : j ≠ i := by omega
    simp [hne]

/-- The statements before the loop, up to the total. -/
theorem exec_computeCollapseStatements (ρ : Env) (language : Language) (i : Nat)
    (hstep : ∀ l ∈ loops, l.step ≠ 0) :
    ∃ ρ', execAll ρ (computeCollapseStatements language i loops).1 = some ρ' ∧ Prepared ρ' i loops := by
  induction loops generalizing i with
  | nil => exact ⟨ρ, rfl, trivial⟩
  | cons l inner ih =>
    obtain ⟨ρ₁, hinner, hprepared⟩ := ih (i + 1) fun l' hl' => hstep l' (List.mem_cons_of_mem _ hl')
    obtain ⟨ρ₂, hown, hset, hsame⟩ := exec_loopStatements ρ₁ language i l (hstep l List.mem_cons_self)
    refine ⟨ρ₂, ?_, hset, hprepared.congr hsame⟩
    rw [computeCollapseStatements, execAll_append, hinner, Option.bind_some, hown]

/-- The product of the numbers of elements. -/
theorem eval_num_elem (language : Language) (h : Prepared ρ i loops) :
    (computeCollapseStatements language i loops).2.2.eval ρ = some (total loops : Int) := by
  induction loops generalizing i with
  | nil => rfl
  | cons l inner ih =>
    simp only [computeCollapseStatements, Expr.eval, Option.bind_some, ih h.2, Option.map_some,
      h.1.numElements, total_cons, Nat.cast_mul]

/-! ## The body of the loop -/

/-- The indices of iteration `k`. -/
def indexTuple : List LoopInfo → Nat → List Int
  | [], _ => []
  | l :: inner, k =>
    (l.lower_bound + (k / total inner % l.trips : Nat) * l.step) :: indexTuple inner k

/-- The index that the generated expression gets back. -/
theorem mul_tmod_mul {n : Nat} (q : Nat) {step : Int} (hstep : step ≠ 0) :
    ((q : Int) * step).tmod (n * step) = (q % n : Nat) * step := by
  rcases lt_or_gt_of_ne hstep with hneg | hpos
  · have := Int.mul_tmod_mul_of_pos (q : Int) (n : Int) (by omega : 0 < -step)
    rw [← Int.tmod_neg, ← Int.mul_neg, ← Int.neg_neg ((q : Int) * step), Int.neg_tmod, ← Int.mul_neg,
      Int.mul_comm (q : Int), Int.mul_comm (n : Int), this, ← Int.ofNat_tmod]
    ring
  · rw [Int.mul_comm (q : Int), Int.mul_comm (n : Int), Int.mul_tmod_mul_of_pos _ _ hpos, ← Int.ofNat_tmod,
      Int.mul_comm]

/-- The statements of the body get the indices of iteration `k` back without a division by zero, and write
nothing else. -/
theorem exec_body (language : Language) {k : Nat} (h : Prepared ρ i loops) (hit : ρ .it = k)
    (hstep : ∀ l ∈ loops, l.step ≠ 0) (hpos : 0 < total loops) :
    ∃ ρ', execAll ρ (computeCollapseStatements language i loops).2.1 = some ρ' ∧
      (List.range loops.length).map (fun j => ρ' (.induction (i + j))) = indexTuple loops k ∧
      ∀ s, (∀ j, i ≤ j → s ≠ .induction j) → ρ' s = ρ s := by
  induction loops generalizing ρ i with
  | nil => exact ⟨ρ, rfl, rfl, fun _ _ => rfl⟩
  | cons l inner ih =>
    obtain ⟨hset, hinner⟩ := h
    rw [total_cons] at hpos
    have hinnerPos : 0 < total inner := Nat.pos_of_mul_pos_left hpos
    have htrips : 0 < l.trips := Nat.pos_of_mul_pos_right hpos
    have hstepl := hstep l List.mem_cons_self
    set v : Int := l.lower_bound + (k / total inner % l.trips : Nat) * l.step with hv
    have heval : (inductionStatement i l (computeCollapseStatements language (i + 1) inner).2.2).exec ρ =
        some (Function.update ρ (.induction i) v) := by
      have hne : ¬ (total inner : Int) = 0 := by omega
      have hne' : ¬ (l.trips : Int) * l.step = 0 := mul_ne_zero (by omega) hstepl
      simp only [inductionStatement, Stmt.exec, Expr.eval, eval_num_elem language hinner, hit, hset.step,
        hset.roundedSize, Option.bind_some, Option.map_some, hne, hne', if_false, ← Int.ofNat_tdiv,
        mul_tmod_mul _ hstepl, hv]
    have hprepared : Prepared (Function.update ρ (.induction i) v) (i + 1) inner :=
      hinner.congr fun j _ => by simp
    obtain ⟨ρ', hexec, hindices, hframe⟩ := ih hprepared (by simp [hit])
      (fun l' hl' => hstep l' (List.mem_cons_of_mem _ hl')) hinnerPos
    refine ⟨ρ', ?_, ?_, fun s hs => ?_⟩
    · rw [computeCollapseStatements, execAll_cons, heval, Option.bind_some, hexec]
    · rw [List.length_cons, List.range_succ_eq_map, List.map_cons, List.map_map, indexTuple, ← hindices]
      congr 1
      · rw [Nat.add_zero, hframe _ fun j hj heq => by cases heq; omega]
        exact Function.update_self _ _ _
      · refine List.map_congr_left fun j _ => ?_
        rw [Function.comp_apply, Nat.succ_add_eq_add_succ]
    · rw [hframe s fun j hj => hs j (by omega)]
      exact Function.update_of_ne (hs i (le_refl i)) _ _

end

/-! ## The loop -/

section
variable {ρ : Env} {language : Language} {loops : List LoopInfo} {code : Collapsed} {N : Nat}

/-- The indices depend on the number of the iteration in the nest only. -/
theorem indexTuple_add (loops : List LoopInfo) (x o : Nat) :
    indexTuple loops (o + total loops * x) = indexTuple loops o := by
  induction loops generalizing x with
  | nil => rfl
  | cons l inner ih =>
    rw [indexTuple, indexTuple, total_cons]
    have hmove : o + l.trips * total inner * x = o + total inner * (l.trips * x) := by ring
    rw [hmove, ih]
    rcases Nat.eq_zero_or_pos (total inner) with hzero | hpos
    · rw [hzero, Nat.zero_mul, Nat.add_zero]
    · rw [Nat.add_mul_div_left _ _ hpos, Nat.add_mul_mod_self_left]

/-- The nest numbers its iterations from 0 on, the innermost index varying fastest. -/
theorem nest_eq (loops : List LoopInfo) : nest loops = (List.range (total loops)).map (indexTuple loops) := by
  induction loops with
  | nil => rfl
  | cons l inner ih =>
    have hrows := flatMap_rows 0 l.trips (total inner)
    simp only [← List.range_eq_range', Nat.mul_zero, Nat.add_zero, List.map_id'] at hrows
    rw [total_cons, Nat.mul_comm, ← hrows, nest, iterations, List.flatMap_map, List.map_flatMap]
    refine List.flatMap_congr fun x hx => ?_
    rw [ih, List.map_map, List.map_map]
    refine List.map_congr_left fun o ho => ?_
    have hlt := List.mem_range.1 ho
    have hxlt : x < l.trips := List.mem_range.1 hx
    rw [Function.comp_apply, Function.comp_apply, indexTuple, indexTuple_add,
      Nat.add_mul_div_left _ _ (by omega), Nat.div_eq_of_lt hlt, Nat.zero_add,
      Nat.mod_eq_of_lt hxlt]

/-- The `for` loop from iteration `k` on. -/
theorem runFor_eq (code : Collapsed) (hbody : code.body = (computeCollapseStatements language 0 loops).2.1)
    (hstep : ∀ l ∈ loops, l.step ≠ 0) (m fuel : Nat) {k : Nat} (hprepared : Prepared ρ 0 loops)
    (htotal : ρ .total = (total loops : Int)) (hit : ρ .it = k) (hm : k + m = total loops) (hfuel : m < fuel) :
    code.runFor loops.length .it (.lowerThan (.sym .it) (.sym .total)) (.add (.sym .it) (.lit 1)) fuel ρ =
      some ((List.range' k m).map (indexTuple loops)) := by
  induction m generalizing fuel k ρ with
  | zero =>
    obtain ⟨fuel, rfl⟩ : ∃ f, fuel = f + 1 := ⟨fuel - 1, by omega⟩
    have hend : ¬ ρ .it < ρ .total := by rw [hit, htotal]; omega
    simp only [Collapsed.runFor, Expr.eval, Option.bind_some, Option.map_some, hend, if_false, if_true]
    rfl
  | succ m ih =>
    obtain ⟨fuel, rfl⟩ : ∃ f, fuel = f + 1 := ⟨fuel - 1, by omega⟩
    have hgo : ρ .it < ρ .total := by rw [hit, htotal]; omega
    obtain ⟨ρ', hexec, hindices, hframe⟩ := exec_body language hprepared hit hstep (by omega)
    have hit' : ρ' .it = k := by rw [hframe .it fun j _ => by simp, hit]
    have hnext := ih fuel (ρ := Function.update ρ' .it (ρ' .it + 1)) (k := k + 1)
      (hprepared.congr fun j _ => by simp [hframe]) (by simp [hframe, htotal]) (by simp [hit'])
      (by omega) (by omega)
    simp only [Nat.zero_add] at hindices
    simp only [Collapsed.runFor, Expr.eval, Option.bind_some, Option.map_some, hgo, if_true, hbody, hexec,
      one_ne_zero, if_false, hnext, Collapsed.indices, hindices, List.range'_succ, List.map_cons]

/-- The `DO` loop over iterations of the nest. -/
theorem runRange_eq (code : Collapsed) (hbody : code.body = (computeCollapseStatements language 0 loops).2.1)
    (hstep : ∀ l ∈ loops, l.step ≠ 0) (ks : List Nat) (hks : ∀ k ∈ ks, k < total loops)
    (hprepared : Prepared ρ 0 loops) :
    code.runRange loops.length .it (ks.map fun k : Nat => (k : Int)) ρ =
      some (ks.map (indexTuple loops)) := by
  induction ks generalizing ρ with
  | nil => rfl
  | cons k ks ih =>
    have hk := hks k List.mem_cons_self
    have hset : Prepared (Function.update ρ .it (k : Int)) 0 loops := hprepared.congr fun j _ => by simp
    obtain ⟨ρ', hexec, hindices, hframe⟩ := exec_body language (k := k) hset (by simp) hstep
      (by omega : 0 < total loops)
    have hrest := ih (ρ := ρ') (fun k' hk' => hks k' (List.mem_cons_of_mem _ hk'))
      (hset.congr fun j _ => by simp [hframe])
    simp only [Nat.zero_add] at hindices
    simp only [List.map_cons, Collapsed.runRange, hbody, hexec, Option.bind_some, hrest, Option.map_some,
      Collapsed.indices, hindices]

/-- The range of the `DO` loop. -/
theorem iterations_range (n : Nat) :
    iterations 0 ((n : Int) - 1) 1 = (List.range n).map fun k : Nat => (k : Int) := by
  have htrips : tripCount 0 ((n : Int) - 1) 1 = n := by
    refine eq_of_forall_lt_iff fun k => ?_
    rw [lt_tripCount_iff one_ne_zero, within_iff one_ne_zero]
    omega
  rw [iterations, htrips]
  refine List.map_congr_left fun k _ => ?_
  ring

/-- **Loop collapsing is correct.** For every nest, with steps of either sign and loops with or without
iterations, the collapsed loop runs the body on the same index tuples in the same order, and no executed
expression divides or takes a modulo by zero. -/
theorem collapse_run (language : Language) (loops : List LoopInfo) (hstep : ∀ l ∈ loops, l.step ≠ 0)
    (ρ : Env) : ∃ enough, ∀ fuel, enough ≤ fuel →
      (collapse language loops).run loops.length fuel ρ = some (nest loops) := by
  refine ⟨total loops + 1, fun fuel hfuel => ?_⟩
  obtain ⟨ρ₁, hexec, hprepared⟩ := exec_computeCollapseStatements ρ language 0 hstep
  have hproduct := eval_num_elem language hprepared
  rw [nest_eq]
  cases language with
  | c =>
    have hrun := runFor_eq (collapse .c loops) rfl hstep (total loops) fuel
      (ρ := Function.update (Function.update ρ₁ .total (total loops)) .it 0) (k := 0)
      (hprepared.congr fun j _ => by simp) (by simp) (by simp) (Nat.zero_add _) hfuel
    rw [← List.range_eq_range'] at hrun
    simp only [Collapsed.run, collapse, execAll_append, hexec, Option.bind_some, execAll_cons, execAll_nil,
      exec_assign, hproduct, Option.map_some, Expr.eval]
    exact hrun
  | fortran =>
    have hrun := runRange_eq (collapse .fortran loops) rfl hstep (List.range (total loops))
      (fun k hk => List.mem_range.1 hk) (ρ := Function.update ρ₁ .total (total loops - 1))
      (hprepared.congr fun j _ => by simp)
    simp only [Collapsed.run, collapse, execAll_append, hexec, Option.bind_some, execAll_cons, execAll_nil,
      exec_assign, hproduct, Option.map_some, Expr.eval, Function.update_self, iterations_range]
    exact hrun

/-- A nest of two loops, one counting down by 2 and one up by 3. -/
theorem collapse_run_down_up : ∃ enough, ∀ fuel, enough ≤ fuel →
    (collapse .c [⟨5, 0, -2⟩, ⟨1, 6, 3⟩]).run 2 fuel (fun _ => 0) =
      some [[5, 1], [5, 4], [3, 1], [3, 4], [1, 1], [1, 4]] :=
  collapse_run .c [⟨5, 0, -2⟩, ⟨1, 6, 3⟩] (by decide) fun _ => 0

end

end OmpSs.Mcxx.LoopCollapse
