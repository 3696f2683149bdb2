import OmpSs.Core.RegionCache
import Mathlib.Data.List.Induction

/-!
# The root location of a task

A copy of a task may be rooted at a memory space by the directory entry of its object. `isRooted`
(`nanox-mx/src/core/memcontroller.cpp`) asks whether the copies of a task have one common root. It compares
each root with the first, but keeps only the last comparison (`foldl_compare`), so that a root in between
that differs goes unnoticed (`rooted_right_iff`).
-/

namespace OmpSs.Core

/-! ## The program -/

/-- Source: `memory_space_id_t` (`nanos-int.h:126`). -/
abbrev MemorySpaceId := UInt32

/-- The entry of a region in the directory. Source: the field `_rooted` of `DirectoryEntryData`
(`regiondirectory_decl.hpp`). -/
structure DirectoryEntryData where
  rooted : MemorySpaceId
deriving DecidableEq

/-- Source: `DirectoryEntryData::isRooted` (`regiondirectory.hpp:246`). -/
def DirectoryEntryData.isRooted (e : DirectoryEntryData) : Bool := e.rooted != -1

/-- Source: `DirectoryEntryData::getRootedLocation` (`regiondirectory.hpp:241`). -/
def DirectoryEntryData.getRootedLocation (e : DirectoryEntryData) : MemorySpaceId := e.rooted

/-- The location of a rooted copy. Source: `MemCacheCopy::isRooted` (`memcachecopy.hpp:93`). -/
def MemCacheCopy.isRooted (directory : GlobalReg → DirectoryEntryData) (m : MemCacheCopy) :
    Option MemorySpaceId :=
  let e := directory m.reg
  if e.isRooted then some e.getRootedLocation else none

namespace MemController

/-- The location as `isRooted` compares it: the locations of node 0 are the host. `nodeNumber` is the node
of a separate memory. Source: `memcontroller.cpp:533`. -/
def nodeLocation (nodeNumber : MemorySpaceId → UInt32) (thisLoc : MemorySpaceId) : MemorySpaceId :=
  if thisLoc = 0 then 0 else if nodeNumber thisLoc ≠ 0 then thisLoc else 0

/-- The variables of the loop. -/
structure Rooting where
  result : Bool
  refLoc : MemorySpaceId

/-- The comparison of one root. Source: `memcontroller.cpp:534`. -/
def compare (v : Rooting) (thisLoc : MemorySpaceId) : Rooting :=
  if v.refLoc = -1 then ⟨true, thisLoc⟩ else ⟨v.refLoc == thisLoc, v.refLoc⟩

/-- The answer, and the value of the argument `loc` behind the call. Source: `MemController::isRooted`
(`memcontroller.cpp:527`). -/
def isRooted (directory : GlobalReg → DirectoryEntryData) (nodeNumber : MemorySpaceId → UInt32)
    (copies : List MemCacheCopy) (loc : MemorySpaceId) : Bool × MemorySpaceId :=
  let v := copies.foldl (fun v m => match m.isRooted directory with
    | some thisLoc => compare v (nodeLocation nodeNumber thisLoc)
    | none => v) ⟨false, -1⟩
  (v.result, if v.result then v.refLoc else loc)

/-! ## The roots of the copies -/

/-- The root locations of the rooted copies, in order. -/
def roots (directory : GlobalReg → DirectoryEntryData) (nodeNumber : MemorySpaceId → UInt32)
    (copies : List MemCacheCopy) : List MemorySpaceId :=
  (copies.filterMap (·.isRooted directory)).map (nodeLocation nodeNumber)

section
variable {directory : GlobalReg → DirectoryEntryData} {nodeNumber : MemorySpaceId → UInt32}
  {copies : List MemCacheCopy} {loc : MemorySpaceId}

/-- A copy that is not rooted is passed over. -/
theorem foldl_copies (v : Rooting) :
    copies.foldl (fun v m => match m.isRooted directory with
      | some thisLoc => compare v (nodeLocation nodeNumber thisLoc)
      | none => v) v = (roots directory nodeNumber copies).foldl compare v := by
  induction copies generalizing v with
  | nil => rfl
  | cons m copies ih =>
    rw [List.foldl_cons, ih]
    cases hm : m.isRooted directory with
    | none => simp [roots, hm]
    | some thisLoc => simp [roots, hm]

/-- The value `-1` is no root location. -/
theorem ne_of_mem_roots {r : MemorySpaceId} (h : r ∈ roots directory nodeNumber copies) : r ≠ -1 := by
  obtain ⟨thisLoc, hloc, rfl⟩ := List.mem_map.1 h
  obtain ⟨m, -, hm⟩ := List.mem_filterMap.1 hloc
  have hne : thisLoc ≠ -1 := by
    simp only [MemCacheCopy.isRooted, DirectoryEntryData.isRooted, DirectoryEntryData.getRootedLocation,
      bne_iff_ne, ne_eq, ite_not, Option.ite_none_left_eq_some, Option.some.injEq] at hm
    exact hm.2 ▸ hm.1
  rw [nodeLocation]
  split
  · decide
  · split
    · exact hne
    · decide

/-- The loop keeps the first root and the comparison of the last with it. -/
theorem foldl_compare {r : MemorySpaceId} (hr : r ≠ -1) (rest : List MemorySpaceId) :
    (r :: rest).foldl compare ⟨false, -1⟩ = ⟨(r :: rest).getLast? == some r, r⟩ := by
  induction rest using List.reverseRecOn with
  | nil => simp [compare]
  | append_singleton rest x ih =>
    rw [← List.cons_append, List.foldl_append, ih, List.foldl_cons, List.foldl_nil, compare, if_neg hr,
      List.getLast?_concat]
    simp [eq_comm]

/-- What is returned: whether the last root is the first, and the first. -/
theorem isRooted_eq : isRooted directory nodeNumber copies loc =
    match roots directory nodeNumber copies with
    | [] => (false, loc)
    | r :: rest => if (r :: rest).getLast? = some r then (true, r) else (false, loc) := by
  rw [isRooted, foldl_copies]
  cases hroots : roots directory nodeNumber copies with
  | nil => rfl
  | cons r rest =>
    have hmem : r ∈ roots directory nodeNumber copies := by
      rw [hroots]
      exact List.mem_cons_self
    have hr : r ≠ -1 := ne_of_mem_roots hmem
    rw [foldl_compare hr]
    by_cases hlast : (r :: rest).getLast? = some r
    · simp [hlast]
    · simp [hlast, beq_false_of_ne hlast]

/-- The copies have a common root: some copy is rooted, and all that are have the same location. -/
def CommonRoot (directory : GlobalReg → DirectoryEntryData) (nodeNumber : MemorySpaceId → UInt32)
    (copies : List MemCacheCopy) (r : MemorySpaceId) : Prop :=
  r ∈ roots directory nodeNumber copies ∧ ∀ r' ∈ roots directory nodeNumber copies, r' = r

/-- The answer is true exactly where the copies have a common root, which is then returned, if and only if
the roots are all the same or the last of them differs from the first. -/
theorem rooted_right_iff :
    (((isRooted directory nodeNumber copies loc).1 = true ↔
          ∃ r, CommonRoot directory nodeNumber copies r) ∧
        ((isRooted directory nodeNumber copies loc).1 = true →
          CommonRoot directory nodeNumber copies (isRooted directory nodeNumber copies loc).2)) ↔
      (∀ r ∈ roots directory nodeNumber copies, ∀ r' ∈ roots directory nodeNumber copies, r' = r) ∨
        (roots directory nodeNumber copies).getLast? ≠ (roots directory nodeNumber copies).head? := by
  rw [isRooted_eq]
  simp only [CommonRoot]
  cases roots directory nodeNumber copies with
  | nil => simp
  | cons r rest =>
    have hr : r ∈ r :: rest := List.mem_cons_self
    have hlast : (∀ r' ∈ r :: rest, r' = r) → (r :: rest).getLast? = some r := by
      intro hsame
      rw [List.getLast?_eq_some_getLast (List.cons_ne_nil r rest)]
      exact congrArg some (hsame _ (List.getLast_mem _))
    have hcommon : (∃ r₀, r₀ ∈ r :: rest ∧ ∀ r' ∈ r :: rest, r' = r₀) ↔ ∀ r' ∈ r :: rest, r' = r := by
      constructor
      · rintro ⟨r₀, -, hsame⟩ r' hr'
        exact (hsame r' hr').trans (hsame r hr).symm
      · exact fun hsame => ⟨r, hr, hsame⟩
    have hpairs : (∀ r₁ ∈ r :: rest, ∀ r₂ ∈ r :: rest, r₂ = r₁) ↔ ∀ r' ∈ r :: rest, r' = r :=
      ⟨fun h => h r hr, fun h r₁ h₁ r₂ h₂ => (h r₂ h₂).trans (h r₁ h₁).symm⟩
    dsimp only
    rw [hcommon, hpairs, List.head?_cons]
    by_cases heq : (r :: rest).getLast? = some r
    · rw [if_pos heq]
      simp only [true_iff, forall_const, ne_eq, heq, not_true_eq_false, or_false]
      exact ⟨And.left, fun h => ⟨h, hr, h⟩⟩
    · rw [if_neg heq]
      simp only [Bool.false_eq_true, false_iff, false_implies, and_true, ne_eq, heq,
        not_false_eq_true, or_true, iff_true]
      exact fun hsame => heq (hlast hsame)

end

/-- Three copies rooted at the memory spaces 1, 2 and 1 of different nodes: the answer is that 1 is the
common root. -/
theorem rooted_second_differs :
    let directory : GlobalReg → DirectoryEntryData := fun reg => ⟨if reg.id = 2 then 2 else 1⟩
    let copies : List MemCacheCopy := [⟨⟨0, 1⟩, none, .writeBack, none⟩, ⟨⟨0, 2⟩, none, .writeBack, none⟩,
      ⟨⟨0, 3⟩, none, .writeBack, none⟩]
    isRooted directory id copies 0 = (true, 1) ∧ ¬ ∃ r, CommonRoot directory id copies r := by
  refine ⟨by decide, ?_⟩
  rintro ⟨r, -, hsame⟩
  have h1 := hsame 1 (by decide)
  have h2 := hsame 2 (by decide)
  rw [← h2] at h1
  exact absurd h1 (by decide)

end MemController

end OmpSs.Core
