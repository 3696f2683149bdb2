import OmpSs.Deps.BaseRegions
import OmpSs.Deps.RegionDomain

/-!
# The region dependencies domain

`RegionDependenciesDomain` (`plugins/deps/regions_deps.cpp`): data are regions, and the map from regions
to statuses is a region tree. An access depends on all entries that intersect its region and registers
itself in the entry of the region, which is added if there is none; then empty entries go, and after a
write also those that lie in its region. A search of a tree always ends (`WellShaped.container`), so that
the other case is not kept apart. The parameter `wide` is what a shift by the width of a word gives where
the accesses of a task are coalesced (`Coalesce`).
-/

namespace OmpSs.Deps

open DepState Support

namespace Regions

open RegionDomain (State Accesses Sys Event)

/-- The entries that intersect the region of an access, and the map with an entry for the region. -/
def lookup (m : RegionMap) (target : FullRegion) : Option (List Region × RegionMap) := do
  let (wholeRegion, subregions) ← findExactAndMatching m target.toRegion
  match wholeRegion with
  | some accessor => some (subregions.map (·.region) ++ [accessor.region], m)
  | none =>
    let m ← addOverlapping m target.toRegion none
    some (subregions.map (·.region), m)

/-- One round of the loop that ends an access: an empty entry goes, and one that a write subsumes. -/
def release (target : FullRegion) (output : Bool) (m : RegionMap) (k : Region) : RegionMap :=
  let status := { StatusMap.status m k with hold := false }
  let m : RegionMap := StatusMap.setStatus m k status
  if status.isEmpty then erase m k
  else if output && k ≠ target.toRegion && target.toRegion.contains k then erase m k
  else m

/-- Source: `RegionDependenciesDomain::submitDependableObjectDataAccess` (`regions_deps.cpp:142`). -/
def submitDependableObjectDataAccess (s : State) (x : Nat) (target : FullRegion) (ty : AccessType) :
    Except String State :=
  if (ty.concurrent || ty.commutative) && (!(ty.input && ty.output) || (s.obj x).waits) then
    .error "Commutation/concurrent task must be inout"
  else if ty.concurrent && ty.commutative then .error "Task cannot be concurrent AND commutative"
  else
    let (subregions, m) := (lookup s.map target).getD ([], s.map)
    let s : State := { s with map := subregions.foldl RegionMap.hold m }
    let k := target.toRegion
    let accessed : Except String State :=
      if ty.concurrent || ty.commutative then
        .ok (BaseRegions.submitDependableObjectCommutativeDataAccess s x subregions k target ty)
      else if ty.input && ty.output then
        .ok (BaseRegions.submitDependableObjectInoutDataAccess s x subregions k target)
      else if ty.input then
        .ok (BaseRegions.submitDependableObjectInputDataAccess s x subregions k target)
      else if ty.output then
        .ok (BaseRegions.submitDependableObjectOutputDataAccess s x subregions k target)
      else .error "Invalid data access"
    accessed.map fun s =>
      let s : State := { s with map := subregions.foldl (release target ty.output) s.map }
      if (s.obj x).waits || ty.concurrent || ty.commutative then s
      else if ty.output then s.addWriteTarget x target
      else if ty.input then s.addReadTarget x target
      else s

section
variable (wide : BitVec 64 → Option (BitVec 64))

/-- Source: `RegionDependenciesDomain::submitDependableObjectInternal` (`regions_deps.cpp:50`). -/
def submitDependableObjectInternal : State → Bool → Accesses → Except String State :=
  RegionDomain.submitDependableObjectInternal wide submitDependableObjectDataAccess

/-- The domain as a transition system. -/
def step : Sys → Event → Option Sys := RegionDomain.step wide submitDependableObjectDataAccess

end

end Regions

end OmpSs.Deps
