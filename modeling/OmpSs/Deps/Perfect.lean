import OmpSs.Deps.BaseDomain
import OmpSs.Deps.RegionDomain
import OmpSs.Support.RegionTreePopulate

/-!
# The perfect region dependencies domain

`PerfectRegionDependenciesDomain` (`plugins/deps/perfect_regions_deps.cpp`): the leaves of the region tree
are disjoint. An access runs `findAndPopulate`, which cuts the leaves that reach out of its region, copies
their statuses to the parts and adds what is missing, and then treats every leaf of the region like a datum
of its own. The parameter `wide` is what a shift by the width of a word gives (`RegionPart`).
-/

namespace OmpSs.Deps

open DepState Support

/-- Source: the copy constructor and the assignment of `TrackableObject`
(`core/trackableobject_decl.hpp:60`, `core/trackableobject.hpp:30`), which take the last writer only. -/
def TrackableObject.copy (o : TrackableObject) : TrackableObject := { lastWriter := o.lastWriter }

namespace Perfect

open RegionDomain (State Accesses Sys Event)

section
variable (wide : BitVec 64 → Option (BitVec 64))

/-- The leaves of the region of an access, and the map that has them. -/
def populate (m : RegionMap) (target : FullRegion) : Option (List FullRegion × RegionMap) := do
  let (m, wholeRegion, subregions) ←
    RegionTree.findAndPopulate wide TrackableObject.copy m target.toRegion (-1)
  some ((subregions ++ wholeRegion.toList).map fullRegion, m)

/-- The end of the round for one leaf: an empty entry goes. -/
def release (m : RegionMap) (k : Region) : RegionMap :=
  let status := { StatusMap.status m k with hold := false }
  let m : RegionMap := StatusMap.setStatus m k status
  if status.isEmpty then erase m k else m

/-- One round of the loop over the leaves. -/
def accessSubregion (x : Nat) (ty : AccessType) (s : State) (subregion : FullRegion) :
    Except String State :=
  let k := subregion.toRegion
  let accessed : Except String State :=
    if ty.concurrent || ty.commutative then
      .ok (s.submitDependableObjectCommutativeDataAccess x k subregion ty)
    else if ty.input && ty.output then .ok (s.submitDependableObjectInoutDataAccess x k subregion)
    else if ty.input then .ok (s.submitDependableObjectInputDataAccess x k)
    else if ty.output then .ok (s.submitDependableObjectOutputDataAccess x k subregion)
    else .error "Invalid data access"
  accessed.map fun s => { s with map := release s.map k }

/-- Source: `PerfectRegionDependenciesDomain::submitDependableObjectDataAccess`
(`perfect_regions_deps.cpp:142`). -/
def submitDependableObjectDataAccess (s : State) (x : Nat) (target : FullRegion) (ty : AccessType) :
    Except String State :=
  if (ty.concurrent || ty.commutative) && (!(ty.input && ty.output) || (s.obj x).waits) then
    .error "Commutation/concurrent task must be inout"
  else if ty.concurrent && ty.commutative then .error "Task cannot be concurrent AND commutative"
  else
    match populate wide s.map target with
    | none => .error "shift by the width of a word"
    | some (subregions, m) =>
      let s : State := { s with map := (subregions.map (·.toRegion)).foldl RegionMap.hold m }
      (subregions.foldlM (accessSubregion x ty) s).map fun s =>
        if (s.obj x).waits || ty.concurrent || ty.commutative then s
        else if ty.output then s.addWriteTarget x target
        else if ty.input then s.addReadTarget x target
        else s

/-- Source: `PerfectRegionDependenciesDomain::submitDependableObjectInternal`
(`perfect_regions_deps.cpp:50`). -/
def submitDependableObjectInternal : State → Bool → Accesses → Except String State :=
  RegionDomain.submitDependableObjectInternal wide (submitDependableObjectDataAccess wide)

/-- The domain as a transition system. -/
def step : Sys → Event → Option Sys := RegionDomain.step wide (submitDependableObjectDataAccess wide)

end

end Perfect

end OmpSs.Deps
