import OmpSs.Lib.Run
import OmpSs.Deps.BaseDomain

/-!
# The plain dependencies domain

`PlainDependenciesDomain` (`plugins/deps/plain_deps.cpp`): data are addresses, each with a status of
its own in `_addressDependencyMap`. `Plain.step` is the domain as a transition system: a task is
submitted with its list of accesses, a ready task finishes, or `finalizeAllReductions` closes the
open commutation objects. A `fatal` of the source is an error of `Except`. A `DOWait` is not a task,
and `finished` never runs on it; `submitDependableObject` takes it into account, the runs do not
have it.
-/

namespace OmpSs.Deps

open DepState

/-- Source: `_addressDependencyMap` (`plain_deps.cpp:39`): the addresses that have a status, in
the order they got it, and the statuses. -/
structure DepsMap where
  keys : List Nat
  trackable : Nat → TrackableObject

instance : StatusMap Nat DepsMap where
  status m a := m.trackable a
  setStatus m a o := { m with trackable := fun b => if b = a then o else m.trackable b }

namespace DepsMap

/-- Source: `PlainDependenciesDomain::lookupDependency` (`plain_deps.cpp:53`). -/
def lookupDependency (m : DepsMap) (a : Nat) : DepsMap :=
  if a ∈ m.keys then m
  else { keys := m.keys ++ [a], trackable := fun b => if b = a then {} else m.trackable b }

/-- The update of the status at `a`, when there is one. -/
def update (m : DepsMap) (a : Nat) (f : TrackableObject → TrackableObject) : DepsMap :=
  if a ∈ m.keys then StatusMap.setStatus m a (f (m.trackable a)) else m

/-- Source: `PlainDependenciesDomain::deleteLastWriter` (`plain_deps.cpp:157`). -/
def deleteLastWriter (m : DepsMap) (x a : Nat) : DepsMap := m.update a (·.deleteLastWriter x)

/-- Source: `PlainDependenciesDomain::deleteReader` (`plain_deps.cpp:171`). -/
def deleteReader (m : DepsMap) (x a : Nat) : DepsMap := m.update a (·.deleteReader x)

/-- Source: `PlainDependenciesDomain::removeCommDO` (`plain_deps.cpp:187`). -/
def removeCommDO (m : DepsMap) (x a : Nat) : DepsMap :=
  m.update a fun o => if o.commDO = some x then o.setCommDO none else o

end DepsMap

instance : DependenciesDomain Nat DepsMap where
  deleteLastWriter := DepsMap.deleteLastWriter
  deleteReader := DepsMap.deleteReader
  removeCommDO := DepsMap.removeCommDO

namespace Plain

/-- The state of a plain domain. -/
abbrev State := DepState Nat DepsMap

/-- The accesses of a task: the address and the kind of each. -/
abbrev Accesses := List (Nat × AccessType)

/-- Source: `PlainDependenciesDomain::submitDependableObjectDataAccess` (`plain_deps.cpp:125`). -/
def submitDependableObjectDataAccess (s : State) (x a : Nat) (ty : AccessType) :
    Except String State :=
  let s : State := { s with map := s.map.lookupDependency a }
  if (s.statusAt a).lastWriter = some x then .ok s
  else if ty.concurrent || ty.commutative then
    .ok (s.submitDependableObjectCommutativeDataAccess x a a ty)
  else if ty.output && ty.input then
    let s := s.submitDependableObjectInoutDataAccess x a a
    .ok (if (s.obj x).waits then s else s.addReadTarget x a)
  else if ty.output then
    .ok (s.submitDependableObjectOutputDataAccess x a a)
  else if ty.input then
    let s := s.submitDependableObjectInputDataAccess x a
    .ok (if (s.obj x).waits then s else s.addReadTarget x a)
  else .error "Invalid data access"

/-- The loop over the accesses in `submitDependableObjectInternal`: a NULL address is ignored. -/
def submitAccesses (x : Nat) : Accesses → State → Except String State
  | [], s => .ok s
  | (a, ty) :: accesses, s =>
    if a = 0 then submitAccesses x accesses s
    else
      match submitDependableObjectDataAccess s x a ty with
      | .ok s => submitAccesses x accesses s
      | .error msg => .error msg

/-- Source: `PlainDependenciesDomain::submitDependableObjectInternal` (`plain_deps.cpp:79`) on a
new object with the next identifier. -/
def submitDependableObject (s : State) (waits : Bool) (accesses : Accesses) :
    Except String State :=
  let x := s.lastDepObjId
  let s := (s.newObj { waits := waits }).increasePredecessors x
  match submitAccesses x accesses s with
  | .ok s => .ok ((s.setSubmitted x).decrease x)
  | .error msg => .error msg

/-- Source: `PlainDependenciesDomain::finalizeAllReductions` (`plain_deps.cpp:248`). The loop runs
over the map in the unspecified order of an `unordered_map`, here `order`; its body is that of
`finalizeReduction`. -/
def finalizeAllReductions (s : State) (order : List Nat) : State :=
  order.foldl (fun s a => s.finalizeReduction a) s

/-! ## Runs -/

/-- The steps of the domain. -/
inductive Event where
  | submit (accesses : Accesses)
  | finish (x : Nat)
  | finalizeAllReductions (order : List Nat)

/-- The domain with a record of the accesses each task was submitted with. -/
structure Sys where
  dom : State
  accesses : Nat → Accesses

/-- A new domain. -/
def init : Sys where
  dom := { lastDepObjId := 0, obj := fun _ => {}, map := { keys := [], trackable := fun _ => {} } }
  accesses _ := []

/-- `x` is a task of the domain, not a commutation object. -/
def Task (s : State) (x : Nat) : Prop := x < s.lastDepObjId ∧ (s.obj x).commutation = none

/-- `x` is a task that can run: it has been submitted, its counter has reached 0, and it has not
finished. -/
def Ready (s : State) (x : Nat) : Prop :=
  Task s x ∧ (s.obj x).submitted = true ∧ (s.obj x).numPredecessors = 0 ∧
    (s.obj x).finished = false

instance (s : State) (x : Nat) : Decidable (Task s x) := inferInstanceAs (Decidable (_ ∧ _))

instance (s : State) (x : Nat) : Decidable (Ready s x) := inferInstanceAs (Decidable (_ ∧ _))

/-- One step. Only a ready task finishes; `finalizeAllReductions` visits every entry of the map
once. -/
def step (S : Sys) : Event → Option Sys
  | .submit accesses =>
    match submitDependableObject S.dom false accesses with
    | .ok d => some
        { dom := d
          accesses := fun x => if x = S.dom.lastDepObjId then accesses else S.accesses x }
    | .error _ => none
  | .finish x => if Ready S.dom x then some { S with dom := S.dom.finish x } else none
  | .finalizeAllReductions order =>
    if order.Perm S.dom.map.keys then some { S with dom := finalizeAllReductions S.dom order }
    else none

end Plain

end OmpSs.Deps
