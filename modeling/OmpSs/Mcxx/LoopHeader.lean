import OmpSs.Lib.LoopIndices
import OmpSs.Mcxx.LoopUnroll

/-!
# The bounds of a `for` statement

`ForStatementHelper` (`mcxx/src/tl/tl-nodecl-utils.cpp:1937`) reads a lower bound, an upper bound and a step
off the header of a `for` statement of C. `analyze_loop_header_old` makes the bounds closed and
`analyze_loop_header_new` half-open, so that one of them needs the integer next to the bound of the test
whenever the test does not have the form that it is after.

A `Header` is the header as it is in the source, with its own meaning in C (`indices`), and
`Header.loopControl` is the tree that the front end makes of it: the right operand of `+=` is converted to the
type of the induction variable, the operands of a sum are converted to their common type and the sum is
converted back, and the operands of a comparison are left as they are. The analysis works on the tree.
-/

namespace OmpSs.Mcxx.LoopHeader

open Lib Cexpr
open CollapseCount (int32)
open LoopUnroll (Test minimalInteger constant)

/-! ## Headers and their meaning in C -/

/-- An expression that the loop does not change. The compiler may know its value. -/
structure Operand where
  type : IntType
  value : Int
  constant : Bool
  inRange : type.InRange value

/-- `++i`, `i++`, `--i`, `i--`, `i += incr`, `i -= incr`, `i = i + incr`, `i = incr + i` and
`i = i - incr`. -/
inductive Increment
  | preincrement
  | postincrement
  | predecrement
  | postdecrement
  | addAssignment (incr : Operand)
  | minusAssignment (incr : Operand)
  | assignAdd (incr : Operand)
  | assignAddLeft (incr : Operand)
  | assignMinus (incr : Operand)

/-- A header with an induction variable of the type `int32 sign`, which is on the left of its test or on the
right. -/
structure Header where
  sign : Bool
  init : Operand
  test : Test
  lhs_is_var : Bool
  bound : Operand
  next : Increment

/-- The assignment `i = i op v`, for a `v` of the type `t`; `none`: it overflows. -/
def assigned (var : IntType) (op : Arith) (t : IntType) (v i : Int) : Option Int :=
  let common := commonBytes var t
  (op.value common (common.convert i) (common.convert v)).map var.convert

def Increment.advance (var : IntType) (i : Int) : Increment → Option Int
  | .preincrement => assigned var .add .signedInt 1 i
  | .postincrement => assigned var .add .signedInt 1 i
  | .predecrement => assigned var .sub .signedInt 1 i
  | .postdecrement => assigned var .sub .signedInt 1 i
  | .addAssignment incr => assigned var .add incr.type incr.value i
  | .minusAssignment incr => assigned var .sub incr.type incr.value i
  | .assignAdd incr => assigned var .add incr.type incr.value i
  | .assignAddLeft incr => assigned var .add incr.type incr.value i
  | .assignMinus incr => assigned var .sub incr.type incr.value i

namespace Header

variable (h : Header)

/-- The type of the induction variable. -/
def var : IntType := int32 h.sign

def start : Int := h.var.convert h.init.value

/-- The test, for an induction variable with the value `i`. -/
def passes (i : Int) : Bool :=
  let common := commonBytes h.var h.bound.type
  if h.lhs_is_var then h.test.rel.holds (common.convert i) (common.convert h.bound.value)
  else h.test.rel.holds (common.convert h.bound.value) (common.convert i)

def advance (i : Int) : Option Int := h.next.advance h.var i

/-- The sequence of index values of the loop. -/
def indices (k : Nat) : Option Int := indexAt h.passes h.advance k h.start

/-- Nothing that the header does in the loop overflows. -/
def WellDefined : Prop := GoesOn h.passes h.advance h.start

end Header

/-! ## Trees of the front end -/

/-- Expressions of the front end. The types that the analysis writes into the nodes it makes are left out: a
sum has the common type of its operands. Source: `Nodecl::NodeclBase`. -/
inductive Nodecl
  | symbol
  | operand (o : Operand)
  | integerLiteral (t : IntType) (v : Int)
  | conversion (t : IntType) (nest : Nodecl)
  | arith (op : Arith) (lhs rhs : Nodecl)
  | neg (rhs : Nodecl)

namespace Nodecl

def type (var : IntType) : Nodecl → IntType
  | .symbol => var
  | .operand o => o.type
  | .integerLiteral t _ => t
  | .conversion t _ => t
  | .arith _ a b => commonBytes (a.type var) (b.type var)
  | .neg a => commonBytes (a.type var) .signedInt

/-- The value in front of the loop, where the induction variable has none yet; `none`: it is undefined. -/
def eval (var : IntType) : Nodecl → Option Int
  | .symbol => none
  | .operand o => some o.value
  | .integerLiteral _ v => some v
  | .conversion t e => (e.eval var).map t.convert
  | .arith op a b => (a.eval var).bind fun x => (b.eval var).bind fun y =>
    let t := commonBytes (a.type var) (b.type var)
    op.value t (t.convert x) (t.convert y)
  | .neg a => (a.eval var).bind fun x =>
    let t := commonBytes (a.type var) .signedInt
    t.result (-t.convert x)

/-- Source: `NodeclBase::no_conv` (`tl-nodecl-base.cpp:36`). -/
def noConv : Nodecl → Nodecl
  | .conversion _ nest => nest.noConv
  | e => e

/-- The node is the induction variable, under conversions or not. -/
def isVar (e : Nodecl) : Bool := match e.noConv with
  | .symbol => true
  | _ => false

/-- What `get_lhs` and `get_rhs` of `Nodecl::Add` and `Nodecl::Minus` read, whatever the node is; `none`: the
null node. Source: `nodecl_get_child` (`cxx-nodecl-inline.h:296`). -/
def child : Nodecl → Nat → Option Nodecl
  | .conversion _ nest, 0 => some nest
  | .arith _ lhs _, 0 => some lhs
  | .arith _ _ rhs, 1 => some rhs
  | .neg rhs, 0 => some rhs
  | _, _ => none

/-- The constant of a node. A conversion casts the one of its operand. Source:
`cxx_nodecl_make_conversion_on_rvalue` (`cxx-exprtype.c:25944`). -/
def constant (w : CValue) : Nodecl → Option (ConstValue w)
  | .operand o => if o.constant then some (constValueGetInteger (BitVec.ofInt w.bits o.value) o.type) else none
  | .conversion t nest => (nest.constant w).map fun c => constValueCastToBytes c t
  | _ => none

end Nodecl

/-- Source: `cxx_nodecl_make_conversion` (`cxx-exprtype.c:26007`). -/
def makeConversion (var t : IntType) (e : Nodecl) : Nodecl := if e.type var = t then e else .conversion t e

/-- The third part of a loop control. -/
inductive Next
  | preincrement (rhs : Nodecl)
  | postincrement (rhs : Nodecl)
  | predecrement (rhs : Nodecl)
  | postdecrement (rhs : Nodecl)
  | addAssignment (lhs rhs : Nodecl)
  | minusAssignment (lhs rhs : Nodecl)
  | assignment (lhs rhs : Nodecl)

/-- The right-hand side of the initialization, the test with its operands, and the increment. Source:
`Nodecl::LoopControl`. -/
structure LoopControl where
  init : Nodecl
  test : Test
  lhs : Nodecl
  rhs : Nodecl
  next : Next

/-- The assignment of a sum or difference, whose operands are converted to their common type. Source:
`compute_type_no_overload_add_operation` (`cxx-exprtype.c:3659`) and
`compute_bin_nonoperator_assig_only_arithmetic_type` (`cxx-exprtype.c:6039`). -/
def makeAssignment (var : IntType) (op : Arith) (lhs rhs : Nodecl) : Next :=
  let common := commonBytes (lhs.type var) (rhs.type var)
  .assignment .symbol
    (makeConversion var var (.arith op (makeConversion var common lhs) (makeConversion var common rhs)))

/-- Source: `compute_type_no_overload_assig_arithmetic_or_pointer_type` (`cxx-exprtype.c:5845`) for the
assignments with an operator. -/
def Increment.next (var : IntType) : Increment → Next
  | .preincrement => .preincrement .symbol
  | .postincrement => .postincrement .symbol
  | .predecrement => .predecrement .symbol
  | .postdecrement => .postdecrement .symbol
  | .addAssignment incr => .addAssignment .symbol (makeConversion var var (.operand incr))
  | .minusAssignment incr => .minusAssignment .symbol (makeConversion var var (.operand incr))
  | .assignAdd incr => makeAssignment var .add .symbol (.operand incr)
  | .assignAddLeft incr => makeAssignment var .add (.operand incr) .symbol
  | .assignMinus incr => makeAssignment var .sub .symbol (.operand incr)

/-- The tree of a header. Source: `compute_type_no_overload_relational_operator_flags`
(`cxx-exprtype.c:5014`) for the operands of the test, which keep their types. -/
def Header.loopControl (h : Header) : LoopControl where
  init := makeConversion h.var h.var (.operand h.init)
  test := h.test
  lhs := if h.lhs_is_var then .symbol else .operand h.bound
  rhs := if h.lhs_is_var then .operand h.bound else .symbol
  next := h.next.next h.var

/-! ## The analysis -/

inductive LoopTrend
  | strictlyIncreasing
  | strictlyDecreasing
deriving DecidableEq

/-- What the analysis finds out; the step may be the null node. Source: `ForStatementHelperBase`
(`tl-nodecl-utils.hpp:481`). -/
structure ForStatementInfo where
  lower_bound : Nodecl
  upper_bound : Nodecl
  step : Option Nodecl
  loop_trend : LoopTrend

section
variable {w : CValue}

/-- Source: `const_value_to_nodecl` (`cxx-cexpr.c:1748`). -/
def constValueToNodecl (v : ConstValue w) : Nodecl := .integerLiteral (minimalInteger v.type.sign v.stored) v.stored

/-- Source: `UNOP_FUN(neg, -)` (`cxx-cexpr.c:3806`). -/
def constValueNeg (v1 : ConstValue w) : ConstValue w := constValueGetInteger (-v1.i) v1.type

end

section
variable (w : CValue)

/-- Source: `const_value_get_one(4, 1)`. -/
def constValueGetOne : ConstValue w := constant w true 1

/-- Source: `const_value_get_minus_one(4, 1)`. -/
def constValueGetMinusOne : ConstValue w := constant w true (-1)

/-- The bound with one added to it or taken from it, which the analysis computes at once if it is a constant.
Source: the code that is repeated for each of the tests (`tl-nodecl-utils.cpp:2048`). -/
def nextToBound (op : Arith) (e : Nodecl) : Option Nodecl := match e.constant w with
  | some c => (op.fold c (constValueGetOne w)).map constValueToNodecl
  | none => some (.arith op e (constValueToNodecl (constValueGetOne w)))

/-- The closed bound. Source: `tl-nodecl-utils.cpp:2029` to `:2210`. -/
def analyzeTestOld (c : LoopControl) : Option (Nodecl × LoopTrend) :=
  if c.lhs.isVar || c.rhs.isVar then
    match c.test, c.lhs.isVar with
    | .lowerThan, true => (nextToBound w .sub c.rhs).map (·, .strictlyIncreasing)
    | .lowerThan, false => (nextToBound w .add c.lhs).map (·, .strictlyDecreasing)
    | .lowerOrEqual, true => some (c.rhs, .strictlyIncreasing)
    | .lowerOrEqual, false => some (c.lhs, .strictlyDecreasing)
    | .greaterThan, true => (nextToBound w .add c.rhs).map (·, .strictlyDecreasing)
    | .greaterThan, false => (nextToBound w .sub c.lhs).map (·, .strictlyIncreasing)
    | .greaterOrEqual, true => some (c.rhs, .strictlyDecreasing)
    | .greaterOrEqual, false => some (c.lhs, .strictlyIncreasing)
  else none

/-- The open bound. Source: `tl-nodecl-utils.cpp:2439` to `:2620`. -/
def analyzeTestNew (c : LoopControl) : Option (Nodecl × LoopTrend) :=
  if c.lhs.isVar || c.rhs.isVar then
    match c.test, c.lhs.isVar with
    | .lowerThan, true => some (c.rhs, .strictlyIncreasing)
    | .lowerThan, false => some (c.lhs, .strictlyDecreasing)
    | .lowerOrEqual, true => (nextToBound w .add c.rhs).map (·, .strictlyIncreasing)
    | .lowerOrEqual, false => (nextToBound w .sub c.lhs).map (·, .strictlyDecreasing)
    | .greaterThan, true => some (c.rhs, .strictlyDecreasing)
    | .greaterThan, false => some (c.lhs, .strictlyIncreasing)
    | .greaterOrEqual, true => (nextToBound w .sub c.rhs).map (·, .strictlyDecreasing)
    | .greaterOrEqual, false => (nextToBound w .add c.lhs).map (·, .strictlyIncreasing)
  else none

/-- Source: `tl-nodecl-utils.cpp:2253`. -/
def negated (rhs : Nodecl) : Nodecl := match rhs.constant w with
  | some c => constValueToNodecl (constValueNeg c)
  | none => .neg rhs

/-- The step, which is looked for under the conversions of a right-hand side and read off the right-hand side
itself; `none`: the header is not valid. Source: `tl-nodecl-utils.cpp:2214` to `:2332`, and `:2624` to
`:2742`, which are the same. -/
def analyzeNext : Next → Option (Option Nodecl)
  | .preincrement rhs => if rhs.isVar then some (constValueToNodecl (constValueGetOne w)) else none
  | .postincrement rhs => if rhs.isVar then some (constValueToNodecl (constValueGetOne w)) else none
  | .predecrement rhs => if rhs.isVar then some (constValueToNodecl (constValueGetMinusOne w)) else none
  | .postdecrement rhs => if rhs.isVar then some (constValueToNodecl (constValueGetMinusOne w)) else none
  | .addAssignment lhs rhs => if lhs.isVar then some rhs else none
  | .minusAssignment lhs rhs => if lhs.isVar then some (negated w rhs) else none
  | .assignment lhs rhs =>
    if lhs.isVar then
      match rhs.noConv with
      | .arith .add a b =>
        if a.isVar then some (rhs.child 1) else if b.isVar then some (rhs.child 0) else none
      | .arith .sub a _ => if a.isVar then some ((rhs.child 1).map (negated w)) else none
      | _ => none
    else none

/-- Source: `ForStatementHelper::analyze_loop_header_old` (`tl-nodecl-utils.cpp:1941`). -/
def analyzeLoopHeaderOld (c : LoopControl) : Option ForStatementInfo := do
  let (upper_bound, loop_trend) ← analyzeTestOld w c
  let step ← analyzeNext w c.next
  some { lower_bound := c.init, upper_bound, step, loop_trend }

/-- Source: `ForStatementHelper::analyze_loop_header_new` (`tl-nodecl-utils.cpp:2349`). -/
def analyzeLoopHeaderNew (c : LoopControl) : Option ForStatementInfo := do
  let (upper_bound, loop_trend) ← analyzeTestNew w c
  let step ← analyzeNext w c.next
  some { lower_bound := c.init, upper_bound, step, loop_trend }

end

/-! ## What the bounds stand for -/

/-- The half-open range in the direction of the step. -/
def withinOpen (upper step v : Int) : Bool := if step < 0 then decide (upper < v) else decide (v < upper)

namespace ForStatementInfo

variable (r : ForStatementInfo) (var : IntType)

/-- The values of the bounds and of the step. -/
def Values (lower upper step : Int) : Prop :=
  r.lower_bound.eval var = some lower ∧ r.upper_bound.eval var = some upper ∧
    (r.step.bind fun e => e.eval var) = some step

/-- The index values of the closed range: `[lower, upper]` for a positive step, `[upper, lower]` for a
negative one. -/
def Closed (indices : Nat → Option Int) : Prop :=
  ∃ lower upper step, r.Values var lower upper step ∧
    ∀ k, indices k = indexAt (within upper step) (fun i => some (i + step)) k lower

/-- The index values of the half-open range. -/
def HalfOpen (indices : Nat → Option Int) : Prop :=
  ∃ lower upper step, r.Values var lower upper step ∧
    ∀ k, indices k = indexAt (withinOpen upper step) (fun i => some (i + step)) k lower

end ForStatementInfo

/-- Both analyses find bounds and a step that stand for the index values of the loop. -/
def Header.Denoted (w : CValue) (h : Header) : Prop :=
  (∃ r, analyzeLoopHeaderOld w h.loopControl = some r ∧ r.Closed h.var h.indices) ∧
    ∃ r, analyzeLoopHeaderNew w h.loopControl = some r ∧ r.HalfOpen h.var h.indices

end OmpSs.Mcxx.LoopHeader
