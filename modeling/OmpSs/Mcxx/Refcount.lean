import OmpSs.Lib.DepthFirst
import OmpSs.Lib.Run
import Mathlib.Logic.Function.Basic
import Mathlib.Order.Defs.LinearOrder

/-!
# Reference counts with cycle collection

`mcxx_refcount.c` (`mcxx/lib`) counts the references of objects. An object whose count comes to zero is
released: the counts of the objects its fields point to are decremented, and it is freed. An object whose
count is decremented and stays positive may be part of a cycle that nothing else refers to; it is kept in
the buffer of roots, and `mcxx_collectcycles` looks for such cycles by trial deletion. From the roots on it
takes the references between objects off their counts (`markgray`), then puts those of the objects back
that have references from elsewhere (`scan`, `scanblack`), and frees the others (`collectwhite`). The buffer
has `MCXX_MAX_ROOTS` places; when it is full a collection starts by itself.

A pointer is a number, and an address is used once. Access to memory that is not allocated is `none`, as is
freeing it. The callback `walk` of an object's type passes its fields on, and `dealloc` does nothing to the
counts.
-/

namespace OmpSs.Mcxx

open Lib

/-! ## The objects -/

/-- Source: `mcxx_ref_colour_t` (`mcxx_refcount.h:37`). -/
inductive Colour
  /-- In use or free. -/
  | black
  /-- Possible member of cycle. -/
  | gray
  /-- Member of garbage cycle. -/
  | white
  /-- Possible root of cycle. -/
  | purple
deriving DecidableEq

/-- Source: `MCXX_REFCOUNT_OBJECT` (`mcxx_refcount.h:55`), with the pointers that `desc->walk` passes on. -/
structure Object where
  count : Int
  buffered : Bool
  colour : Colour
  fields : List (Option Nat)
deriving DecidableEq

/-- Source: `MCXX_MAX_ROOTS` (`mcxx_refcount.c:88`). -/
def maxRoots : Nat := 1024

/-- The objects created so far, which of them are allocated, and the two sets of `mcxx_refcount.c`. -/
@[ext]
structure Refcount where
  size : Nat := 0
  obj : Nat → Object := fun _ => ⟨0, false, .black, []⟩
  allocated : Nat → Bool := fun _ => false
  roots : List Nat := []
  freeSet : List Nat := []

namespace Refcount

def modify (s : Refcount) (p : Nat) (f : Object → Object) : Refcount :=
  { s with obj := Function.update s.obj p (f (s.obj p)) }

def addCount (s : Refcount) (p : Nat) (d : Int) : Refcount :=
  s.modify p fun o => { o with count := o.count + d }

def setColour (s : Refcount) (p : Nat) (colour : Colour) : Refcount :=
  s.modify p fun o => { o with colour }

def setBuffered (s : Refcount) (p : Nat) (buffered : Bool) : Refcount :=
  s.modify p fun o => { o with buffered }

/-- A field of the object `p` points to `q`. -/
def Points (s : Refcount) (p q : Nat) : Prop := some q ∈ (s.obj p).fields

/-! ## The sets -/

/-- Source: `mcxx_remove_from_roots` (`mcxx_refcount.c:477`). -/
def removeFromRoots (s : Refcount) (p : Nat) : Refcount := { s with roots := s.roots.erase p }

/-- Source: `mcxx_add_to_free_set` (`mcxx_refcount.c:521`). -/
def addToFreeSet (s : Refcount) (p : Nat) : Refcount :=
  if p ∈ s.freeSet then s else { s with freeSet := s.freeSet ++ [p] }

def free (s : Refcount) (p : Nat) : Option Refcount :=
  if s.allocated p then some { s with allocated := Function.update s.allocated p false } else none

/-- Source: `mcxx_release_free_set` (`mcxx_refcount.c:545`). -/
def releaseFreeSet (s : Refcount) : Option Refcount :=
  (s.freeSet.foldlM free s).map fun s => { s with freeSet := [] }

/-! ## The collection

Each of the four recursions is given by what a call does before the walk over the fields, and by the calls
of that walk. They end within a depth of one call more than there are objects. -/

/-- `mcxx_markgray` up to its walk. Source: `mcxx_refcount.c:340`. -/
def markgrayCall (s : Refcount) (p : Nat) : Refcount × List (Option Nat) :=
  if (s.obj p).colour ≠ .gray then (s.setColour p .gray, (s.obj p).fields) else (s, [])

/-- Source: `mcxx_markgray_aux` (`mcxx_refcount.c:324`). -/
def markgrayAux (s : Refcount) : Option Nat → Option (Refcount × List (Option Nat))
  | none => some (s, [])
  | some p => if s.allocated p then some ((s.addCount p (-1)).markgrayCall p) else none

/-- Source: `mcxx_markgray` (`mcxx_refcount.c:340`). -/
def markgray (s : Refcount) (p : Nat) : Option Refcount :=
  (s.markgrayCall p).2.foldlM (depthFirst markgrayAux (s.size + 1)) (s.markgrayCall p).1

/-- Source: `mcxx_scanblack_aux` (`mcxx_refcount.c:400`). -/
def scanblackAux (s : Refcount) : Option Nat → Option (Refcount × List (Option Nat))
  | none => some (s, [])
  | some p =>
    if s.allocated p then
      let s := s.addCount p 1
      if (s.obj p).colour ≠ .black then some (s.setColour p .black, (s.obj p).fields) else some (s, [])
    else none

/-- Source: `mcxx_scanblack` (`mcxx_refcount.c:422`). -/
def scanblack (s : Refcount) (p : Nat) : Option Refcount :=
  (s.obj p).fields.foldlM (depthFirst scanblackAux (s.size + 1)) (s.setColour p .black)

/-- `mcxx_scan` up to its walk. Source: `mcxx_refcount.c:365`. -/
def scanCall (s : Refcount) : Option Nat → Option (Refcount × List (Option Nat))
  | none => some (s, [])
  | some p =>
    if s.allocated p then
      if (s.obj p).colour = .gray then
        if 0 < (s.obj p).count then (s.scanblack p).map fun s => (s, [])
        else some (s.setColour p .white, (s.obj p).fields)
      else some (s, [])
    else none

/-- Source: `mcxx_scan` (`mcxx_refcount.c:365`). -/
def scan (s : Refcount) (p : Nat) : Option Refcount := depthFirst scanCall (s.size + 1) s (some p)

/-- What is to come in `mcxx_collectwhite`: a call of the function, or the addition that follows the walk
over an object. -/
inductive WhiteCall
  | visit (p : Option Nat)
  | add (p : Nat)
deriving DecidableEq

/-- `mcxx_collectwhite` up to its walk, and what follows the walk. Source: `mcxx_refcount.c:446`. -/
def collectwhiteCall (s : Refcount) : WhiteCall → Option (Refcount × List WhiteCall)
  | .visit none => some (s, [])
  | .visit (some p) =>
    if s.allocated p then
      if (s.obj p).colour = .white ∧ (s.obj p).buffered = false then
        some (s.setColour p .black, (s.obj p).fields.map .visit ++ [.add p])
      else some (s, [])
    else none
  | .add p => some (s.addToFreeSet p, [])

/-- Source: `mcxx_collectwhite` (`mcxx_refcount.c:446`). -/
def collectwhite (s : Refcount) (p : Nat) : Option Refcount :=
  depthFirst collectwhiteCall (s.size + 1) s (.visit (some p))

/-- One turn of the loop of `mcxx_markroots`. -/
def markRoot (s : Refcount) (p : Nat) : Option Refcount :=
  if s.allocated p then
    if (s.obj p).colour = .purple then s.markgray p
    else
      let s := (s.setBuffered p false).removeFromRoots p
      if (s.obj p).colour = .black ∧ (s.obj p).count = 0 then some (s.addToFreeSet p) else some s
  else none

/-- The loop runs over a copy of the roots. Source: `mcxx_markroots` (`mcxx_refcount.c:245`). -/
def markroots (s : Refcount) : Option Refcount := s.roots.foldlM markRoot s

/-- Source: `mcxx_scanroots` (`mcxx_refcount.c:287`). -/
def scanroots (s : Refcount) : Option Refcount := s.roots.foldlM scan s

/-- One turn of the loop of `mcxx_collectroots`. -/
def collectRoot (s : Refcount) (p : Nat) : Option Refcount :=
  if s.allocated p then (s.setBuffered p false).collectwhite p else none

/-- Source: `mcxx_collectroots` (`mcxx_refcount.c:302`). -/
def collectroots (s : Refcount) : Option Refcount :=
  (s.roots.foldlM collectRoot s).map fun s => { s with roots := [] }

/-- Source: `mcxx_collectcycles` (`mcxx_refcount.c:230`). -/
def collectcycles (s : Refcount) : Option Refcount :=
  s.markroots.bind fun s => s.scanroots.bind fun s => s.collectroots.bind releaseFreeSet

/-! ## Possible roots -/

/-- Source: `mcxx_append_to_roots` (`mcxx_refcount.c:455`). -/
def appendToRoots (s : Refcount) (p : Nat) : Option Refcount :=
  let s := { s with roots := s.roots ++ [p] }
  if s.roots.length = maxRoots then s.collectcycles else some s

/-- Source: `mcxx_possible_root` (`mcxx_refcount.c:199`). -/
def possibleRoot (s : Refcount) (p : Nat) : Option Refcount :=
  if (s.obj p).colour ≠ .purple then
    let s := s.setColour p .purple
    if (s.obj p).buffered = false then (s.setBuffered p true).appendToRoots p else some s
  else some s

end Refcount

/-! ## The calls of a program -/

/-- The module and its program: the objects, the references that the program holds itself, and the objects
under release, the innermost first, each with the fields that its walk has not come to. -/
structure Machine where
  heap : Refcount := {}
  ext : Nat → Nat := fun _ => 0
  releasing : List (Nat × List (Option Nat)) := []

namespace Machine

/-- A call of `mcxx_decrement`, up to the walk over the fields of a released object. Source:
`mcxx_refcount.c:110`. -/
def decrement (m : Machine) : Option Nat → Option Machine
  | none => some m
  | some p =>
    if m.heap.allocated p then
      let s := m.heap.addCount p (-1)
      if (s.obj p).count = 0 then
        some { m with heap := s, releasing := (p, (s.obj p).fields) :: m.releasing }
      else if (s.obj p).count < 0 then none
      else ((s.possibleRoot p).bind fun s => s.releaseFreeSet).map fun s => { m with heap := s }
    else none

/-- The release under way goes on: with the next field of the object, or with what follows the walk in
`mcxx_release` and in the call of `mcxx_decrement` it belongs to. Source: `mcxx_refcount.c:154`. -/
def walk (m : Machine) : Option Machine :=
  match m.releasing with
  | [] => none
  | (p, field :: rest) :: releasing =>
    if m.heap.allocated p then decrement { m with releasing := (p, rest) :: releasing } field else none
  | (p, []) :: releasing =>
    if m.heap.allocated p then
      let s := m.heap.setColour p .black
      let s := if (s.obj p).buffered = false then s.addToFreeSet p else s
      s.releaseFreeSet.map fun s => { m with heap := s, releasing }
    else none

/-- What can happen. -/
inductive Op
  /-- A new object with so many fields, all `NULL`. -/
  | create (fields : Nat)
  /-- A field of an object takes over a reference of the program, and the program the one of the field. -/
  | store (p i : Nat) (value : Option Nat)
  | increment (p : Nat)
  | decrement (p : Nat)
  | collectcycles
  /-- The release under way goes on. -/
  | walk
deriving DecidableEq

/-- Source: `REF_NEW_GENERIC` (`mcxx_refcount.h:86`). -/
def create (m : Machine) (fields : Nat) : Machine :=
  { m with
    heap := { m.heap with
      size := m.heap.size + 1
      obj := Function.update m.heap.obj m.heap.size ⟨1, false, .black, List.replicate fields none⟩
      allocated := Function.update m.heap.allocated m.heap.size true }
    ext := Function.update m.ext m.heap.size 1 }

/-- The references of the program after the exchange of one for another. -/
def exchange (ext : Nat → Nat) (given taken : Option Nat) (p : Nat) : Nat :=
  ext p - (if given = some p then 1 else 0) + (if taken = some p then 1 else 0)

/-- Source: the assignment of `REF_SET` (`mcxx_refcount.h:118`), between the two calls. -/
def store (m : Machine) (p i : Nat) (value : Option Nat) : Machine :=
  { m with
    heap := m.heap.modify p fun o => { o with fields := o.fields.set i value }
    ext := exchange m.ext value ((m.heap.obj p).fields.getD i none) }

/-- Source: `mcxx_increment` (`mcxx_refcount.c:96`). -/
def increment (m : Machine) (p : Nat) : Machine :=
  { m with
    heap := m.heap.modify p fun o => { o with count := o.count + 1, colour := .black }
    ext := Function.update m.ext p (m.ext p + 1) }

/-- One step. `none`: memory that is not allocated is read or freed, or the program is aborted. -/
def exec (m : Machine) : Op → Option Machine
  | .create fields => some (m.create fields)
  | .store p i value => if m.heap.allocated p then some (m.store p i value) else none
  | .increment p => if m.heap.allocated p then some (m.increment p) else none
  | .decrement p => decrement { m with ext := Function.update m.ext p (m.ext p - 1) } (some p)
  | .collectcycles => m.heap.collectcycles.map fun s => { m with heap := s }
  | .walk => m.walk

/-- References lead from the program to the object. -/
def Reachable (m : Machine) (p : Nat) : Prop :=
  ∃ q, 0 < m.ext q ∧ Relation.ReflTransGen m.heap.Points q p

/-- What a program does: it acts when no release is under way, it gives up the references it has, and it
names the objects it can reach, which a store leaves in its reach. -/
def Legal (m : Machine) : Op → Prop
  | .create _ | .collectcycles => m.releasing = []
  | .store p i value => m.releasing = [] ∧ i < (m.heap.obj p).fields.length ∧
      (∀ q, value = some q → 0 < m.ext q) ∧ m.Reachable p ∧ (m.store p i value).Reachable p
  | .increment p => m.releasing = [] ∧ m.Reachable p
  | .decrement p => m.releasing = [] ∧ 0 < m.ext p
  | .walk => m.releasing ≠ []

/-- The next field of the object under release fills the buffer of roots. -/
def FillsRoots (m : Machine) : Prop :=
  ∃ p q rest releasing, m.releasing = (p, some q :: rest) :: releasing ∧ 1 < (m.heap.obj q).count ∧
    (m.heap.obj q).colour ≠ .purple ∧ (m.heap.obj q).buffered = false ∧
    m.heap.roots.length + 1 = maxRoots

/-- Where the release under way fills the buffer of roots, none of the objects under release is in it. -/
def Guarded (m : Machine) (op : Op) : Prop :=
  op = .walk → m.FillsRoots → ∀ f ∈ m.releasing, (m.heap.obj f.1).buffered = false

end Machine

end OmpSs.Mcxx
