import OmpSs.Lib.Run
import OmpSs.Lib.SortedMap
import OmpSs.Deps.TaskGraph

/-!
# The contiguous regions dependencies domain

`CRegionsDependenciesDomain` (`plugins/deps/cregions_deps.cpp`): data are byte ranges, and a range gets a
status when the first access starts at its address. The ranges lie in three tables, by their size: a vector
for the big ones, and two maps, searched from the address less the greatest size of the table on. A cache
keeps, for every range, the big ones that it has been found to overlap, and how much of the vector has been
looked through. The maps compare ranges by their addresses only (`DepsRegion::operator<`).

A status is named by the address of the range that it was made for. The reserve of the vector and the
destructor are left out.
-/

namespace OmpSs.Deps

open DepState

/-- A byte range, with its last address. Source: `DepsRegion` (`support/depsregion_decl.hpp:31`), less the
dimensions, which nothing reads, and the status of the range, which its address names. -/
structure DepsRegion where
  address : Nat
  endAddress : Nat
deriving DecidableEq

namespace DepsRegion

/-- Source: `DepsRegion::overlap` (`support/depsregion.hpp:45`). -/
def overlap (r obj : DepsRegion) : Bool :=
  !(decide (obj.endAddress < r.address) || decide (obj.address > r.endAddress))

/-- Source: `DepsRegion::getSize` (`support/depsregion.hpp:72`). -/
def getSize (r : DepsRegion) : Nat := (r.endAddress + 2 ^ 64 - r.address) % 2 ^ 64

end DepsRegion

/-- What the cache keeps of a range. Source: `CRegionsPair` (`cregions_deps.cpp:33`). -/
structure CRegionsPair where
  trackableObjs : List Nat
  itNum : Nat

/-- The tables of a domain and the statuses. Source: `cregions_deps.cpp:72`. The maps keep the key with the
value, since a key is more than what it is compared by. -/
structure CRegionsMap where
  addressDependencyVector : List DepsRegion
  addressDependencyCache : Lib.SortedMap Nat (DepsRegion × CRegionsPair)
  addressDependencySmall : Lib.SortedMap Nat DepsRegion
  addressDependencyMid : Lib.SortedMap Nat DepsRegion
  trackable : Nat → TrackableObject

instance : StatusMap Nat CRegionsMap where
  status m a := m.trackable a
  setStatus m a o := { m with trackable := fun b => if b = a then o else m.trackable b }

namespace CRegionsMap

/-- Source: `_sizeThresholdSmall` (`cregions_deps.cpp:366`). -/
def sizeThresholdSmall : Nat := 500

/-- Source: `_sizeThresholdMid` (`cregions_deps.cpp:367`). -/
def sizeThresholdMid : Nat := 200000

/-- The loop over one of the two maps (`cregions_deps.cpp:139`, `cregions_deps.cpp:156`), from the first
address on that a range of the map can have. -/
def overlapping (m : Lib.SortedMap Nat DepsRegion) (sizeThreshold : Nat) (target : DepsRegion) : List Nat :=
  let startAddress := (target.address + 2 ^ 64 - (sizeThreshold + 1)) % 2 ^ 64
  ((m.visited startAddress target.endAddress).filter fun e => e.2.overlap target).map (·.1)

/-- Source: `CRegionsDependenciesDomain::lookupDependency` (`cregions_deps.cpp:83`). -/
def lookupDependency (m : CRegionsMap) (target : DepsRegion) : List Nat × CRegionsMap :=
  let itCache := m.addressDependencyCache.find? target.address
  let hasToInsert := itCache.isNone
  let (key, cacheItem) := itCache.getD (target, ⟨[target.address], 0⟩)
  let vector := if hasToInsert && decide (sizeThresholdMid < target.getSize) then
    m.addressDependencyVector ++ [target] else m.addressDependencyVector
  -- the range itself is past the end of what is looked through
  let new := (m.addressDependencyVector.drop cacheItem.itNum).filter (·.overlap target)
  let objs := cacheItem.trackableObjs ++ new.map (·.address)
  let small := if hasToInsert && decide (target.getSize ≤ sizeThresholdSmall) then
    m.addressDependencySmall.insert target.address target else m.addressDependencySmall
  let mid := if hasToInsert && decide (sizeThresholdSmall < target.getSize) &&
      decide (target.getSize ≤ sizeThresholdMid) then
    m.addressDependencyMid.insert target.address target else m.addressDependencyMid
  (objs ++ overlapping small sizeThresholdSmall target ++ overlapping mid sizeThresholdMid target,
    { addressDependencyVector := vector
      addressDependencyCache :=
        m.addressDependencyCache.insert target.address (key, ⟨objs, vector.length⟩)
      addressDependencySmall := small
      addressDependencyMid := mid
      trackable := if hasToInsert then fun a => if a = target.address then {} else m.trackable a
        else m.trackable })

/-- The status of a range replaced by `f` of it. -/
def update (m : CRegionsMap) (target : DepsRegion) (f : TrackableObject → TrackableObject) : CRegionsMap :=
  StatusMap.setStatus m target.address (f (m.trackable target.address))

/-- Source: `CRegionsDependenciesDomain::deleteLastWriter` (`cregions_deps.cpp:335`). -/
def deleteLastWriter (m : CRegionsMap) (x : Nat) (target : DepsRegion) : CRegionsMap :=
  m.update target (·.deleteLastWriter x)

/-- Source: `CRegionsDependenciesDomain::deleteReader` (`cregions_deps.cpp:344`). -/
def deleteReader (m : CRegionsMap) (x : Nat) (target : DepsRegion) : CRegionsMap :=
  m.update target (·.deleteReader x)

/-- Source: `CRegionsDependenciesDomain::removeCommDO` (`cregions_deps.cpp:354`). -/
def removeCommDO (m : CRegionsMap) (x : Nat) (target : DepsRegion) : CRegionsMap :=
  m.update target fun o => if o.commDO = some x then o.setCommDO none else o

end CRegionsMap

instance : DependenciesDomain DepsRegion CRegionsMap where
  deleteLastWriter := CRegionsMap.deleteLastWriter
  deleteReader := CRegionsMap.deleteReader
  removeCommDO := CRegionsMap.removeCommDO

/-- An access to `size` bytes, of the address space, from an address on. Source: `DataAccess`
(`core/dataaccess_decl.hpp:41`), of which the domain reads `getDepAddress`, `getSize` and the flags. -/
structure DataAccess where
  depAddress : Nat
  size : Nat
  flags : AccessType
  fits : depAddress < 2 ^ 64 ∧ depAddress + size ≤ 2 ^ 64
deriving DecidableEq

namespace CRegions

/-- The state of a contiguous regions domain. -/
abbrev State := DepState DepsRegion CRegionsMap

/-- The statuses in which the task in progress has registered, and whether as a writer. Source: `statusMap`
(`cregions_deps.cpp:232`). -/
abbrev Registered := Nat → Option Bool

/-- Source: the range of an access (`cregions_deps.cpp:238`). -/
def target (dep : DataAccess) : DepsRegion :=
  ⟨dep.depAddress, (dep.depAddress + dep.size + 2 ^ 64 - 1) % 2 ^ 64⟩

/-- One round of the loop over the accesses processed earlier (`cregions_deps.cpp:215`). -/
def addDep (newDep : DataAccess) : List DataAccess → List DataAccess
  | [] => [newDep]
  | currentDep :: filteredDeps =>
    if newDep.depAddress = currentDep.depAddress ∧ newDep.size = currentDep.size then
      { currentDep with flags := { currentDep.flags with
          input := newDep.flags.input || currentDep.flags.input
          output := newDep.flags.output || currentDep.flags.output } } :: filteredDeps
    else currentDep :: addDep newDep filteredDeps

/-- The accesses of a task, those to one range put in common; a NULL address is ignored. Source:
`cregions_deps.cpp:206`. -/
def filteredDeps (accesses : List DataAccess) : List DataAccess :=
  accesses.foldl (fun deps newDep => if newDep.depAddress = 0 then deps else addDep newDep deps) []

/-- One round of the loop over the other statuses (`cregions_deps.cpp:299`). -/
def accessOther (x : Nat) (ty : AccessType) (p : State × Registered) (stat : Nat) : State × Registered :=
  let (s, statusMap) := p
  let plain := !ty.concurrent && !ty.commutative
  match statusMap stat with
  | none =>
    let s := if ty.output && plain then s.submitDependableObjectOutputNoWriteDataAccess x stat else s
    (if ty.input && plain then s.submitDependableObjectInputNoReadDataAccess x stat else s, statusMap)
  | some isWriter =>
    if !isWriter && ty.output && plain then
      let s := s.modifyStatus stat (·.deleteReader x)
      let s := s.submitDependableObjectOutputNoWriteDataAccess x stat
      (s.submitDependableObjectInputDataAccess x stat,
        fun k => if k = stat then some true else statusMap k)
    else (s, statusMap)

/-- `statusMap.insert`, which keeps an entry that is there. -/
def insertStatus (statusMap : Registered) (status : Nat) (isWriter : Bool) : Registered := fun k =>
  if k = status then some ((statusMap k).getD isWriter) else statusMap k

/-- Source: `CRegionsDependenciesDomain::submitDependableObjectDataAccess` (`cregions_deps.cpp:260`). -/
def submitDependableObjectDataAccess (s : State) (statusMap : Registered) (x : Nat) (target : DepsRegion)
    (ty : AccessType) : Except String (State × Registered) :=
  if (ty.concurrent || ty.commutative) && (!(ty.input && ty.output) || (s.obj x).waits) then
    .error "Commutation/concurrent task must be inout"
  else if ty.concurrent && ty.commutative then .error "Task cannot be concurrent AND commutative"
  else
    let (objs, m) := s.map.lookupDependency target
    let s : State := { s with map := m }
    let status := target.address
    let accessed : Except String (State × Registered) :=
      if ty.concurrent || ty.commutative then
        .ok (s.submitDependableObjectCommutativeDataAccess x status target ty, statusMap)
      else if ty.input && ty.output then
        .ok (s.submitDependableObjectInoutDataAccess x status target, insertStatus statusMap status true)
      else if ty.input then
        .ok (s.submitDependableObjectInputDataAccess x status, insertStatus statusMap status false)
      else if ty.output then
        .ok (s.submitDependableObjectOutputDataAccess x status target, insertStatus statusMap status true)
      else .error "Invalid data access"
    accessed.map fun p =>
      let (s, statusMap) := objs.tail.foldl (accessOther x ty) p
      let s := if (s.obj x).waits || ty.concurrent || ty.commutative then s
        else if ty.output then s.addWriteTarget x target
        else if ty.input then s.addReadTarget x target
        else s
      (s, statusMap)

/-- The loop over the filtered accesses in `submitDependableObjectInternal`. -/
def submitAccesses (x : Nat) : List DataAccess → State × Registered → Except String State
  | [], (s, _) => .ok s
  | dep :: deps, (s, statusMap) =>
    match submitDependableObjectDataAccess s statusMap x (target dep) dep.flags with
    | .ok p => submitAccesses x deps p
    | .error msg => .error msg

/-- The new object of a submission, with the increment that keeps it from becoming ready. -/
def enter (s : State) (waits : Bool) : State :=
  (s.newObj { waits := waits }).increasePredecessors s.lastDepObjId

/-- Source: `CRegionsDependenciesDomain::submitDependableObjectInternal` (`cregions_deps.cpp:195`) on a new
object with the next identifier. -/
def submitDependableObjectInternal (s : State) (waits : Bool) (accesses : List DataAccess) :
    Except String State :=
  let x := s.lastDepObjId
  match submitAccesses x (filteredDeps accesses) (enter s waits, fun _ => none) with
  | .ok s => .ok ((s.setSubmitted x).decrease x)
  | .error msg => .error msg

/-! ## Runs -/

/-- The steps of the domain. -/
inductive Event where
  | submit (accesses : List DataAccess)
  | finish (x : Nat)

/-- The domain with a record of the accesses each task was submitted with. -/
structure Sys where
  dom : State
  accesses : Nat → List DataAccess

/-- A new domain. -/
def init : Sys where
  dom := { lastDepObjId := 0, obj := fun _ => {}, map := ⟨[], .empty, .empty, .empty, fun _ => {}⟩ }
  accesses _ := []

/-- `x` is a task that can run: it has been submitted, its counter has reached 0, and it has not
finished. -/
def Ready (s : State) (x : Nat) : Prop :=
  x < s.lastDepObjId ∧ (s.obj x).commutation = none ∧ (s.obj x).submitted = true ∧
    (s.obj x).numPredecessors = 0 ∧ (s.obj x).finished = false

instance (s : State) (x : Nat) : Decidable (Ready s x) :=
  inferInstanceAs (Decidable (_ ∧ _ ∧ _ ∧ _ ∧ _))

/-- One step. Only a ready task finishes. -/
def step (S : Sys) : Event → Option Sys
  | .submit accesses =>
    match submitDependableObjectInternal S.dom false accesses with
    | .ok d => some
        { dom := d
          accesses := fun x => if x = S.dom.lastDepObjId then accesses else S.accesses x }
    | .error _ => none
  | .finish x => if Ready S.dom x then some { S with dom := S.dom.finish x } else none

end CRegions

end OmpSs.Deps
