import Mathlib.Data.List.Basic

/-!
# Dependable objects, trackable objects and the state of a dependencies domain

The data model of the Nanos++ dependency system (`nanox-mx/src/core`) and the operations of
`DependableObject`. A `DependableObject` is a task (`DOSubmit`, or `DOWait` when it waits) or a
`CommutationDO`; objects are named by the identifiers, natural numbers, that
`setId ( _lastDepObjId++ )` hands out, so a smaller identifier is an earlier submission. A
`TrackableObject` is the status of a piece of data: its last writer, the readers since then and the open
commutation object. `DepState τ M` is a
domain at one moment: its objects and the map `M` from data to statuses, with targets of type `τ`.

The virtual functions of `DependenciesDomain` that an object calls while it finishes are the class
`DependenciesDomain`; each plugin is an instance. Locks are left out: every operation below is one
atomic step of the source. Left out as well, since no operation here reads them: the predecessor
lists and the `_num`, `_lss` numbering that only schedule policies use, task reductions and
instrumentation.
-/

namespace OmpSs.Deps

/-- The kind of a data access. Source: `nanos_access_type_internal_t`
(`core/nanos-int.h:69`), less `can_rename`, which no domain reads. -/
structure AccessType where
  input : Bool
  output : Bool
  concurrent : Bool
  commutative : Bool
deriving DecidableEq

namespace AccessType

/-- An access that reads. -/
def inAccess : AccessType := ⟨true, false, false, false⟩

/-- An access that writes. -/
def outAccess : AccessType := ⟨false, true, false, false⟩

/-- An access that reads and writes. -/
def inoutAccess : AccessType := ⟨true, true, false, false⟩

/-- A concurrent access. -/
def concurrentAccess : AccessType := ⟨true, true, true, false⟩

/-- A commutative access. -/
def commutativeAccess : AccessType := ⟨true, true, false, true⟩

/-- The access goes through a `CommutationDO`. -/
def isCommutation (a : AccessType) : Bool := a.concurrent || a.commutative

/-- The access is `in`, `out` or `inout`. -/
def Plain (a : AccessType) : Prop := a = inAccess ∨ a = outAccess ∨ a = inoutAccess

/-- The access is of one of the five kinds a task can declare: `in`, `out`, `inout`, `concurrent`
or `commutative`. The plugins reject or assert against every other combination of flags. -/
def Valid (a : AccessType) : Prop :=
  a.Plain ∨ a = concurrentAccess ∨ a = commutativeAccess

instance (a : AccessType) : Decidable a.Plain := inferInstanceAs (Decidable (_ ∨ _ ∨ _))

instance (a : AccessType) : Decidable a.Valid := inferInstanceAs (Decidable (_ ∨ _ ∨ _))

end AccessType

/-- The status of a piece of data. Source: `TrackableObject` (`core/trackableobject_decl.hpp:34`);
the default value is its default constructor. -/
structure TrackableObject where
  lastWriter : Option Nat := none
  versionReaders : List Nat := []
  commDO : Option Nat := none
  hold : Bool := false
deriving DecidableEq

namespace TrackableObject

/-- Source: `TrackableObject::hasReaders` (`core/trackableobject.hpp:96`). -/
def hasReaders (o : TrackableObject) : Bool := !o.versionReaders.isEmpty

/-- Source: `TrackableObject::isEmpty` (`core/trackableobject.hpp:117`). -/
def isEmpty (o : TrackableObject) : Bool :=
  o.lastWriter.isNone && o.versionReaders.isEmpty && o.commDO.isNone

/-- Source: `TrackableObject::setLastWriter` (`core/trackableobject.hpp:52`). -/
def setLastWriter (o : TrackableObject) (x : Nat) : TrackableObject :=
  { o with lastWriter := some x }

/-- Source: `TrackableObject::deleteLastWriter` (`core/trackableobject.hpp:60`). -/
def deleteLastWriter (o : TrackableObject) (x : Nat) : TrackableObject :=
  if o.lastWriter = some x then { o with lastWriter := none } else o

/-- Source: `TrackableObject::setReader` (`core/trackableobject.hpp:84`). -/
def setReader (o : TrackableObject) (x : Nat) : TrackableObject :=
  { o with versionReaders := o.versionReaders ++ [x] }

/-- Source: `TrackableObject::flushReaders` (`core/trackableobject.hpp:94`). -/
def flushReaders (o : TrackableObject) : TrackableObject := { o with versionReaders := [] }

/-- Source: `TrackableObject::deleteReader` (`core/trackableobject.hpp:99`), a `std::list::remove`
of every occurrence. -/
def deleteReader (o : TrackableObject) (x : Nat) : TrackableObject :=
  { o with versionReaders := o.versionReaders.filter (· ≠ x) }

/-- Source: `TrackableObject::setCommDO` (`core/trackableobject.hpp:119`). -/
def setCommDO (o : TrackableObject) (c : Option Nat) : TrackableObject := { o with commDO := c }

end TrackableObject

/-- What a `CommutationDO` adds to a dependable object (`core/commutationdepobj_decl.hpp:32`): the
data it closes and whether it closes commutative rather than concurrent accesses. -/
structure CommutationDO (τ : Type) where
  target : τ
  commutative : Bool
deriving DecidableEq

/-- A dependable object (`core/dependableobject_decl.hpp:83`). `commutation` is `none` for a task.
`successors` is the `std::set` of successors in the order they were added. `finished` records that
`DependableObject::finished` has released the successors; the source keeps no such flag. -/
structure DependableObject (τ : Type) where
  numPredecessors : Int := 0
  references : Int := 1
  successors : List Nat := []
  outputObjects : List τ := []
  readObjects : List τ := []
  waits : Bool := false
  submitted : Bool := false
  commutation : Option (CommutationDO τ) := none
  finished : Bool := false

/-- A dependencies domain at one moment: the next identifier, the objects with smaller
identifiers, and the plugin's map from data to statuses. -/
structure DepState (τ M : Type) where
  lastDepObjId : Nat
  obj : Nat → DependableObject τ
  map : M

/-- The virtual functions of `DependenciesDomain` that an object calls on its domain when it
finishes; each plugin overrides them. -/
class DependenciesDomain (τ : outParam Type) (M : Type) where
  deleteLastWriter : M → Nat → τ → M
  deleteReader : M → Nat → τ → M
  removeCommDO : M → Nat → τ → M

/-- Access to the statuses of a plugin's map by their handles `κ`: a `TrackableObject &` of the
source is a handle here. -/
class StatusMap (κ : outParam Type) (M : Type) where
  status : M → κ → TrackableObject
  setStatus : M → κ → TrackableObject → M

namespace DepState

section
variable {τ M : Type}

/-- The object `x` replaced by `f` of it. -/
def modifyObj (s : DepState τ M) (x : Nat) (f : DependableObject τ → DependableObject τ) :
    DepState τ M :=
  { s with obj := fun y => if y = x then f (s.obj y) else s.obj y }

/-- A new object with the next identifier. -/
def newObj (s : DepState τ M) (o : DependableObject τ) : DepState τ M :=
  { s with
    lastDepObjId := s.lastDepObjId + 1
    obj := fun y => if y = s.lastDepObjId then o else s.obj y }

/-- Source: `DependableObject::increasePredecessors` (`core/dependableobject.hpp:119`). -/
def increasePredecessors (s : DepState τ M) (x : Nat) : DepState τ M :=
  s.modifyObj x fun o => { o with numPredecessors := o.numPredecessors + 1 }

/-- The decrement in `DependableObject::decreasePredecessors`, before it looks at the result. -/
def decrementPredecessors (s : DepState τ M) (x : Nat) : DepState τ M :=
  s.modifyObj x fun o => { o with numPredecessors := o.numPredecessors - 1 }

/-- Source: `DependableObject::addSuccessor` (`core/dependableobject.hpp:181`), on the object `w`:
an object is not its own successor, and `_successors` is a set. The flag says whether `x` was
inserted. -/
def addSuccessor (s : DepState τ M) (w x : Nat) : Bool × DepState τ M :=
  if w = x then (false, s)
  else if x ∈ (s.obj w).successors then (false, s)
  else (true, s.modifyObj w fun o => { o with successors := o.successors ++ [x] })

/-- Source: `DependableObject::addWriteTarget` (`core/dependableobject.hpp:249`). -/
def addWriteTarget (s : DepState τ M) (x : Nat) (target : τ) : DepState τ M :=
  s.modifyObj x fun o => { o with outputObjects := o.outputObjects ++ [target] }

/-- Source: `DependableObject::addReadTarget` (`core/dependableobject.hpp:259`). -/
def addReadTarget (s : DepState τ M) (x : Nat) (target : τ) : DepState τ M :=
  s.modifyObj x fun o => { o with readObjects := o.readObjects ++ [target] }

/-- Source: `DependableObject::resetReferences` (`core/dependableobject.hpp:274`). -/
def resetReferences (s : DepState τ M) (x : Nat) : DepState τ M :=
  s.modifyObj x fun o => { o with references := 1 }

/-- Source: `DependableObject::submitted` (`core/dependableobject.hpp:292`). -/
def setSubmitted (s : DepState τ M) (x : Nat) : DepState τ M :=
  s.modifyObj x fun o => { o with submitted := true }

variable [DependenciesDomain τ M]

/-- Source: `DependableObject::finished` (`core/dependableobject.cpp:28`), with the call of
`decreasePredecessors` on each successor as a parameter. The batch release decrements the counters
in the same way; it differs in how ready tasks are handed to the scheduler. -/
def finishedWith (dec : DepState τ M → Nat → DepState τ M) (s : DepState τ M) (x : Nat) :
    DepState τ M :=
  let s := s.modifyObj x fun o => { o with references := o.references - 1 }
  let o := s.obj x
  if o.references = 0 then
    let m := o.outputObjects.foldl (fun m t => DependenciesDomain.deleteLastWriter m x t) s.map
    let m := o.readObjects.foldl (fun m t => DependenciesDomain.deleteReader m x t) m
    let s := ({ s with map := m } : DepState τ M).modifyObj x fun o => { o with finished := true }
    o.successors.foldl dec s
  else s

/-- Source: `DependableObject::decreasePredecessors` (`core/dependableobject.hpp:124`) with
`dependenciesSatisfied` inlined: a task whose counter reaches 0 is handed to the scheduler
(`DOSubmit::dependenciesSatisfied`), a `CommutationDO` finishes at once
(`CommutationDO::dependenciesSatisfied`, `core/commutationdepobj.hpp:30`). The fuel bounds the
depth of that recursion. -/
def decreasePredecessors : Nat → DepState τ M → Nat → DepState τ M
  | 0, s, x => s.decrementPredecessors x
  | fuel + 1, s, x =>
    let s := s.decrementPredecessors x
    if (s.obj x).numPredecessors = 0 then
      match (s.obj x).commutation with
      | none => s
      | some c =>
        finishedWith (decreasePredecessors fuel)
          { s with map := DependenciesDomain.removeCommDO s.map x c.target } x
    else s

/-- `decreasePredecessors` with fuel for every object of the domain. -/
def decrease (s : DepState τ M) (x : Nat) : DepState τ M :=
  decreasePredecessors s.lastDepObjId s x

/-- `DependableObject::finished` of the domain's object `x`. -/
def finish (s : DepState τ M) (x : Nat) : DepState τ M :=
  finishedWith (decreasePredecessors s.lastDepObjId) s x

end

end DepState

end OmpSs.Deps
