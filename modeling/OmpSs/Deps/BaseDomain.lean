import OmpSs.Deps.DependableObject

/-!
# `BaseDependenciesDomain`

The code the dependency plugins share (`plugins/deps/basedependenciesdomain.hpp`): how a submitted
object comes to depend on the last writer and the readers of a status, registers itself there, and
how concurrent and commutative accesses are closed by a `CommutationDO`. Each operation takes the
handle `k` of the status the source takes by reference. Scheduling callbacks and instrumentation
are left out.
-/

namespace OmpSs.Deps.DepState

open DependenciesDomain StatusMap

section
variable {τ M κ : Type} [StatusMap κ M]

/-- The status at `k`. -/
def statusAt (s : DepState τ M) (k : κ) : TrackableObject := status s.map k

/-- The status at `k` replaced by `f` of it. -/
def modifyStatus (s : DepState τ M) (k : κ) (f : TrackableObject → TrackableObject) :
    DepState τ M :=
  { s with map := setStatus s.map k (f (status s.map k)) }

omit [StatusMap κ M] in
/-- `if ( w->addSuccessor( x ) ) x.increasePredecessors()`, the pair of calls by which `x` comes to
depend on `w`. -/
def depend (s : DepState τ M) (w x : Nat) : DepState τ M :=
  let (inserted, s) := s.addSuccessor w x
  if inserted then s.increasePredecessors x else s

/-- Source: `dependOnLastWriter` (`basedependenciesdomain.hpp:52`). -/
def dependOnLastWriter (s : DepState τ M) (x : Nat) (k : κ) : DepState τ M :=
  match (s.statusAt k).lastWriter with
  | none => s
  | some w => if w = x then s else s.depend w x

/-- Source: `dependOnReaders` (`basedependenciesdomain.hpp:118`). -/
def dependOnReaders (s : DepState τ M) (x : Nat) (k : κ) : DepState τ M :=
  (s.statusAt k).versionReaders.foldl (fun s r => if r = x then s else s.depend r x) s

/-- Source: `setAsWriter` (`basedependenciesdomain.hpp:176`). -/
def setAsWriter (s : DepState τ M) (x : Nat) (k : κ) (target : τ) : DepState τ M :=
  let s := s.modifyStatus k TrackableObject.flushReaders
  if (s.obj x).waits then s
  else (s.addWriteTarget x target).modifyStatus k (·.setLastWriter x)

/-- Source: `dependOnReadersAndSetAsWriter` (`basedependenciesdomain.hpp:189`). -/
def dependOnReadersAndSetAsWriter (s : DepState τ M) (x : Nat) (k : κ) (target : τ) :
    DepState τ M :=
  (s.dependOnReaders x k).setAsWriter x k target

/-- Source: `addAsReader` (`basedependenciesdomain.hpp:196`). -/
def addAsReader (s : DepState τ M) (x : Nat) (k : κ) : DepState τ M :=
  s.modifyStatus k (·.setReader x)

/-- Source: `createCommutationDO` (`basedependenciesdomain.hpp:202`). The new object has the
identifier `s.lastDepObjId`. -/
def createCommutationDO (s : DepState τ M) (k : κ) (target : τ) (a : AccessType) :
    Nat × DepState τ M :=
  let c := s.lastDepObjId
  let s := s.newObj { commutation := some ⟨target, a.commutative⟩ }
  let s := (s.increasePredecessors c).increasePredecessors c
  let s := s.modifyStatus k (·.setCommDO (some c))
  (c, s.addWriteTarget c target)

/-- Source: `setUpInitialCommutationDependableObject` (`basedependenciesdomain.hpp:240`). -/
def setUpInitialCommutationDependableObject (s : DepState τ M) (k : κ) (target : τ)
    (a : AccessType) : Option Nat × DepState τ M :=
  if (s.statusAt k).hasReaders then
    let c := s.lastDepObjId
    let s := s.newObj { commutation := some ⟨target, a.commutative⟩ }
    let s := s.increasePredecessors c
    let s := s.dependOnReaders c k
    let s := s.modifyStatus k TrackableObject.flushReaders
    let s := s.addWriteTarget c target
    (some c, s.modifyStatus k (·.setLastWriter c))
  else (none, s)

variable [DependenciesDomain τ M]

/-- Source: `finalizeReduction` (`basedependenciesdomain.hpp:33`). -/
def finalizeReduction (s : DepState τ M) (k : κ) : DepState τ M :=
  match (s.statusAt k).commDO with
  | none => s
  | some c =>
    let s := s.modifyStatus k (·.setCommDO none)
    let s := s.modifyStatus k (·.setLastWriter c)
    (s.resetReferences c).decrease c

/-- Source: `setUpTargetCommutationDependableObject` (`basedependenciesdomain.hpp:216`). -/
def setUpTargetCommutationDependableObject (s : DepState τ M) (k : κ) (target : τ)
    (a : AccessType) : Nat × DepState τ M :=
  match (s.statusAt k).commDO with
  | none => s.createCommutationDO k target a
  | some c =>
    if ((s.obj c).commutation.map CommutationDO.commutative) ≠ some a.commutative then
      (s.finalizeReduction k).createCommutationDO k target a
    else
      let s' := s.increasePredecessors c
      if (s.obj c).numPredecessors = 0 then s'.createCommutationDO k target a else (c, s')

/-- Source: `submitDependableObjectCommutativeDataAccess` (`basedependenciesdomain.hpp:269`). -/
def submitDependableObjectCommutativeDataAccess (s : DepState τ M) (x : Nat) (k : κ)
    (target : τ) (a : AccessType) : DepState τ M :=
  let (initialCommDO, s) := s.setUpInitialCommutationDependableObject k target a
  let (commDO, s) := s.setUpTargetCommutationDependableObject k target a
  let (_, s) := s.addSuccessor x commDO
  let s := s.dependOnLastWriter x k
  match initialCommDO with
  | none => s
  | some i => s.decrease i

/-- Source: `submitDependableObjectInoutDataAccess` (`basedependenciesdomain.hpp:306`). -/
def submitDependableObjectInoutDataAccess (s : DepState τ M) (x : Nat) (k : κ) (target : τ) :
    DepState τ M :=
  let s := s.finalizeReduction k
  let s := s.dependOnLastWriter x k
  s.dependOnReadersAndSetAsWriter x k target

/-- Source: `submitDependableObjectInputDataAccess` (`basedependenciesdomain.hpp:315`). -/
def submitDependableObjectInputDataAccess (s : DepState τ M) (x : Nat) (k : κ) : DepState τ M :=
  let s := s.finalizeReduction k
  let s := s.dependOnLastWriter x k
  if (s.obj x).waits then s else s.addAsReader x k

/-- Source: `submitDependableObjectOutputDataAccess` (`basedependenciesdomain.hpp:327`). The last
writer is looked at only when the status has no readers. -/
def submitDependableObjectOutputDataAccess (s : DepState τ M) (x : Nat) (k : κ) (target : τ) :
    DepState τ M :=
  let s := s.finalizeReduction k
  let s := if (s.statusAt k).hasReaders then s else s.dependOnLastWriter x k
  s.dependOnReadersAndSetAsWriter x k target

/-- Source: `submitDependableObjectOutputNoWriteDataAccess` (`basedependenciesdomain.hpp:341`). -/
def submitDependableObjectOutputNoWriteDataAccess (s : DepState τ M) (x : Nat) (k : κ) :
    DepState τ M :=
  (s.finalizeReduction k).dependOnReaders x k

/-- Source: `submitDependableObjectInputNoReadDataAccess` (`basedependenciesdomain.hpp:349`). -/
def submitDependableObjectInputNoReadDataAccess (s : DepState τ M) (x : Nat) (k : κ) :
    DepState τ M :=
  (s.finalizeReduction k).dependOnLastWriter x k

end

end OmpSs.Deps.DepState
