import OmpSs.Deps.TaskGraph

/-!
# `BaseRegionsDependenciesDomain`

The code that the region plugins add to `BaseDependenciesDomain`
(`plugins/deps/baseregionsdependenciesdomain.hpp`): the object of an access depends on the statuses of
several pieces of data (`container`) and registers itself in one. The busy wait of `finalizeReduction`
for another thread is left out, since every operation is one atomic step. An initial commutation object
gets no identifier from the source; here it has the next name, as only its identity matters.
-/

namespace OmpSs.Deps.BaseRegions

open DepState DependenciesDomain StatusMap

section
variable {τ M κ : Type} [StatusMap κ M]

/-- Source: `dependOnLastWriter` (`baseregionsdependenciesdomain.hpp:60`). -/
def dependOnLastWriter (s : DepState τ M) (x : Nat) (container : List κ) : DepState τ M :=
  container.foldl (fun s k => s.dependOnLastWriter x k) s

/-- Source: `dependOnReaders` (`baseregionsdependenciesdomain.hpp:69`). -/
def dependOnReaders (s : DepState τ M) (x : Nat) (container : List κ) : DepState τ M :=
  container.foldl (fun s k => s.dependOnReaders x k) s

/-- Source: `createCommutationDO` (`baseregionsdependenciesdomain.hpp:76`), which unlike that of the
base increments the counter once. -/
def createCommutationDO (s : DepState τ M) (k : κ) (target : τ) (a : AccessType) :
    Nat × DepState τ M :=
  let c := s.lastDepObjId
  let s := s.newObj { commutation := some ⟨target, a.commutative⟩ }
  let s := s.increasePredecessors c
  let s := s.modifyStatus k (·.setCommDO (some c))
  (c, s.addWriteTarget c target)

/-- Source: `setUpInitialCommutationDependableObject` (`baseregionsdependenciesdomain.hpp:88`). -/
def setUpInitialCommutationDependableObject (s : DepState τ M) (container : List κ) (k : κ)
    (target : τ) (a : AccessType) : Option Nat × DepState τ M :=
  match (s.statusAt k).commDO with
  | some _ => (none, s)
  | none =>
    let c := s.lastDepObjId
    let s := s.newObj { commutation := some ⟨target, a.commutative⟩ }
    let s := s.increasePredecessors c
    let s := container.foldl (fun s k => (s.dependOnReaders c k).dependOnLastWriter c k) s
    let s := s.modifyStatus k TrackableObject.flushReaders
    let s := s.addWriteTarget c target
    (some c, s.modifyStatus k (·.setLastWriter c))

variable [DependenciesDomain τ M]

/-- Source: `finalizeReduction` (`baseregionsdependenciesdomain.hpp:30`). -/
def finalizeReduction (s : DepState τ M) (container : List κ) (target : τ) : DepState τ M :=
  container.foldl (fun s k =>
    match (s.statusAt k).commDO with
    | none => s
    | some c =>
      let s := s.modifyStatus k (·.setCommDO none)
      let s := s.increasePredecessors c
      let s := s.addWriteTarget c target
      let s := s.modifyStatus k (·.setLastWriter c)
      (s.resetReferences c).decrease c) s

/-- Source: `setUpTargetCommutationDependableObject` (`basedependenciesdomain.hpp:216`) with the
virtual `createCommutationDO` of the region plugins. -/
def setUpTargetCommutationDependableObject (s : DepState τ M) (k : κ) (target : τ)
    (a : AccessType) : Nat × DepState τ M :=
  match (s.statusAt k).commDO with
  | none => createCommutationDO s k target a
  | some c =>
    if ((s.obj c).commutation.map CommutationDO.commutative) ≠ some a.commutative then
      createCommutationDO (s.finalizeReduction k) k target a
    else
      let s' := s.increasePredecessors c
      if (s.obj c).numPredecessors = 0 then createCommutationDO s' k target a else (c, s')

/-- Source: `submitDependableObjectCommutativeDataAccess` (`baseregionsdependenciesdomain.hpp:125`). -/
def submitDependableObjectCommutativeDataAccess (s : DepState τ M) (x : Nat) (container : List κ)
    (k : κ) (target : τ) (a : AccessType) : DepState τ M :=
  let (initialCommDO, s) := setUpInitialCommutationDependableObject s container k target a
  let (commDO, s) := setUpTargetCommutationDependableObject s k target a
  let (_, s) := s.addSuccessor x commDO
  let s := s.dependOnLastWriter x k
  match initialCommDO with
  | none => s
  | some i => s.decrease i

/-- Source: `submitDependableObjectInoutDataAccess` (`baseregionsdependenciesdomain.hpp:145`). -/
def submitDependableObjectInoutDataAccess (s : DepState τ M) (x : Nat) (container : List κ) (k : κ)
    (target : τ) : DepState τ M :=
  let s := finalizeReduction s container target
  let s := dependOnLastWriter s x container
  let s := dependOnReaders s x container
  s.setAsWriter x k target

/-- Source: `submitDependableObjectInputDataAccess` (`baseregionsdependenciesdomain.hpp:154`). -/
def submitDependableObjectInputDataAccess (s : DepState τ M) (x : Nat) (container : List κ) (k : κ)
    (target : τ) : DepState τ M :=
  let s := finalizeReduction s container target
  let s := dependOnLastWriter s x container
  if (s.obj x).waits then s else s.addAsReader x k

/-- Source: `submitDependableObjectOutputDataAccess` (`baseregionsdependenciesdomain.hpp:165`). Unlike
in the base the last writers are always looked at. -/
def submitDependableObjectOutputDataAccess (s : DepState τ M) (x : Nat) (container : List κ) (k : κ)
    (target : τ) : DepState τ M :=
  let s := finalizeReduction s container target
  let s := dependOnLastWriter s x container
  let s := dependOnReaders s x container
  s.setAsWriter x k target

end

/-! ## Accesses without commutation objects -/

section
variable {τ M κ : Type} [StatusMap κ M] {s : DepState τ M} {x : Nat} {k : κ} {target : τ}

/-- The objects that the statuses record as last writers. -/
def lastWriters (s : DepState τ M) (container : List κ) : List Nat :=
  container.flatMap fun k => (s.statusAt k).lastWriter.toList

/-- The objects that the statuses record as readers. -/
def readers (s : DepState τ M) (container : List κ) : List Nat :=
  container.flatMap fun k => (s.statusAt k).versionReaders

/-- A loop in which `x` comes to depend on what the statuses record. -/
theorem foldl_dependAll (f : TrackableObject → List Nat) (container : List κ) (s : DepState τ M) :
    container.foldl (fun s k => s.dependAll x (f (s.statusAt k))) s =
      s.dependAll x (container.flatMap fun k => f (s.statusAt k)) := by
  induction container generalizing s with
  | nil => rfl
  | cons k container ih =>
    have hd := depended_dependAll (s := s) (x := x) (f (s.statusAt k))
    rw [List.foldl_cons, ih, List.flatMap_cons]
    simp only [hd.statusAt]
    exact (List.foldl_append ..).symm

theorem dependOnLastWriter_eq (container : List κ) :
    dependOnLastWriter s x container = s.dependAll x (lastWriters s container) := by
  unfold dependOnLastWriter
  simp only [DepState.dependOnLastWriter_eq]
  exact foldl_dependAll (fun o => o.lastWriter.toList) container s

theorem dependOnReaders_eq (container : List κ) :
    dependOnReaders s x container = s.dependAll x (readers s container) :=
  foldl_dependAll (·.versionReaders) container s

theorem finalizeReduction_of_none [DependenciesDomain τ M] {container : List κ}
    (h : ∀ k ∈ container, (s.statusAt k).commDO = none) :
    finalizeReduction s container target = s := by
  unfold finalizeReduction
  induction container with
  | nil => rfl
  | cons k container ih =>
    rw [List.foldl_cons, h k List.mem_cons_self]
    exact ih fun k' hk' => h k' (List.mem_cons_of_mem k hk')

/-- A write makes the object depend on everything recorded. -/
theorem inoutAccess_eq [DependenciesDomain τ M] {container : List κ}
    (h : ∀ k ∈ container, (s.statusAt k).commDO = none) :
    submitDependableObjectInoutDataAccess s x container k target =
      (s.dependAll x (lastWriters s container ++ readers s container)).setAsWriter x k target := by
  have hd := depended_dependAll (s := s) (x := x) (lastWriters s container)
  have hreaders : readers (s.dependAll x (lastWriters s container)) container =
      readers s container := by
    unfold readers
    simp only [hd.statusAt]
  unfold submitDependableObjectInoutDataAccess
  dsimp only
  rw [finalizeReduction_of_none h, dependOnLastWriter_eq, dependOnReaders_eq, hreaders]
  congr 1
  exact (List.foldl_append ..).symm

/-- A read makes the object depend on the last writers. -/
theorem inputAccess_eq [DependenciesDomain τ M] {container : List κ}
    (h : ∀ k ∈ container, (s.statusAt k).commDO = none) (hw : (s.obj x).waits = false) :
    submitDependableObjectInputDataAccess s x container k target =
      (s.dependAll x (lastWriters s container)).addAsReader x k := by
  unfold submitDependableObjectInputDataAccess
  dsimp only
  rw [finalizeReduction_of_none h, dependOnLastWriter_eq, if_neg]
  rw [(depended_dependAll _).obj, hw]
  exact Bool.false_ne_true

end

end OmpSs.Deps.BaseRegions
