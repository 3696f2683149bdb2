import OmpSs.Lib.Run
import Mathlib.Data.Finset.Basic
import Mathlib.Data.Finset.Filter
import Mathlib.Algebra.Group.Nat.Defs

/-!
# Entries of the region directory

`DirectoryEntryData` (`nanox-mx/src/core/regiondirectory.hpp`) records of one region its version, the memory
spaces that hold this version, and the processing elements that made it in their own memory space. Three
operations write the two sets: a new access, the rooting of the region, and the removal of a memory space.
The removal takes the processing elements of the memory space away too (`Consistent.delAccess`); the other
two, when they clear the memory spaces, leave the processing elements as they are (`addAccess_iff`,
`addRootedAccess_iff`).
-/

namespace OmpSs.Core.DirectoryEntry

open Lib

/-! ## The program -/

/-- Source: `DirectoryEntryData` (`regiondirectory_decl.hpp:31`), with the version of its base class. The
device operations, the home and the base address take no part in the operations. -/
structure DirectoryEntryData (PE : Type*) where
  version : Nat := 1
  location : Finset Nat
  pes : Finset PE := ∅
  rooted : Nat := 2 ^ 32 - 1
  firstWriterPE : Option PE := none

/-- Source: `DirectoryEntryData::DirectoryEntryData( memory_space_id_t home )` (`regiondirectory.hpp:42`);
the default constructor is the one for the host. -/
def new (PE : Type*) (home : Nat) : DirectoryEntryData PE := { location := {home} }

section
variable {PE : Type*} [DecidableEq PE] (getMemorySpaceId : PE → Nat)

/-- `_pes.insert( pe )`, for a processing element that works in the memory space of the access. -/
def insertPE (pes : Finset PE) (pe : Option PE) (loc : Nat) : Finset PE := match pe with
  | none => pes
  | some p => if loc = getMemorySpaceId p then insert p pes else pes

/-- Source: `DirectoryEntryData::addAccess` (`regiondirectory.hpp:106`). -/
def addAccess (d : DirectoryEntryData PE) (pe : Option PE) (loc version : Nat) : DirectoryEntryData PE :=
  if version > d.version then
    { d with
      location := {loc}
      version := version
      pes := insertPE getMemorySpaceId d.pes pe loc
      firstWriterPE := if version = 2 then pe else d.firstWriterPE }
  else if version = d.version then
    { d with
      location := insert loc d.location
      pes := insertPE getMemorySpaceId d.pes pe loc }
  else d

/-- Source: `DirectoryEntryData::addRootedAccess` (`regiondirectory.hpp:143`). `none`: the version is not
the current one. -/
def addRootedAccess (d : DirectoryEntryData PE) (loc version : Nat) : Option (DirectoryEntryData PE) :=
  if version = d.version then some { d with location := {loc}, version := version, rooted := loc }
  else none

/-- Source: `DirectoryEntryData::delAccess` (`regiondirectory.hpp:155`): whether no memory space is left, and
the entry. -/
def delAccess (d : DirectoryEntryData PE) (from_ : Nat) : Bool × DirectoryEntryData PE :=
  (decide (d.location.erase from_ = ∅),
    { d with
      location := d.location.erase from_
      pes := d.pes.filter fun p => getMemorySpaceId p ≠ from_ })

/-- The operations on an entry. -/
inductive Call (PE : Type*)
  | addAccess (pe : Option PE) (loc version : Nat)
  | addRootedAccess (loc version : Nat)
  | delAccess (from_ : Nat)

/-- The entry after a call that is accepted. -/
def step (d : DirectoryEntryData PE) : Call PE → Option (DirectoryEntryData PE)
  | .addAccess pe loc version => some (addAccess getMemorySpaceId d pe loc version)
  | .addRootedAccess loc version => addRootedAccess d loc version
  | .delAccess from_ => some (delAccess getMemorySpaceId d from_).2

/-! ## Processing elements and memory spaces -/

/-- Every processing element recorded has its memory space recorded. -/
def Consistent (d : DirectoryEntryData PE) : Prop := ∀ p ∈ d.pes, getMemorySpaceId p ∈ d.location

/-- A call that clears the memory spaces finds only processing elements of the one it inserts. -/
def KeepsPEs (d : DirectoryEntryData PE) : Call PE → Prop
  | .addAccess _ loc version => d.version < version → ∀ p ∈ d.pes, getMemorySpaceId p = loc
  | .addRootedAccess loc _ => ∀ p ∈ d.pes, getMemorySpaceId p = loc
  | .delAccess _ => True

instance (d : DirectoryEntryData PE) : DecidablePred (KeepsPEs getMemorySpaceId d)
  | .addAccess _ loc version =>
    inferInstanceAs (Decidable (d.version < version → ∀ p ∈ d.pes, getMemorySpaceId p = loc))
  | .addRootedAccess loc _ => inferInstanceAs (Decidable (∀ p ∈ d.pes, getMemorySpaceId p = loc))
  | .delAccess _ => isTrue trivial

variable {getMemorySpaceId} {d d' : DirectoryEntryData PE} {p : PE} {pe : Option PE} {loc version : Nat}

theorem mem_insertPE {pes : Finset PE} : p ∈ insertPE getMemorySpaceId pes pe loc ↔
    p ∈ pes ∨ (pe = some p ∧ getMemorySpaceId p = loc) := by
  unfold insertPE
  split
  · simp
  · next q =>
    split
    · next h =>
      rw [Finset.mem_insert, Option.some_inj]
      constructor
      · rintro (rfl | hp)
        · exact .inr ⟨rfl, h.symm⟩
        · exact .inl hp
      · rintro (hp | ⟨rfl, -⟩)
        · exact .inr hp
        · exact .inl rfl
    · next h =>
      refine ⟨.inl, fun hp => hp.resolve_right ?_⟩
      rintro ⟨hq, rfl⟩
      exact h (congrArg getMemorySpaceId (Option.some_inj.1 hq).symm)

/-- The processing elements of a cleared entry. -/
theorem forall_insertPE_iff : (∀ q ∈ insertPE getMemorySpaceId d.pes pe loc, getMemorySpaceId q = loc) ↔
    ∀ q ∈ d.pes, getMemorySpaceId q = loc := by
  simp only [mem_insertPE]
  exact ⟨fun h q hq => h q (.inl hq), fun h q hq => hq.elim (h q) And.right⟩

theorem addAccess_iff (hd : Consistent getMemorySpaceId d) :
    Consistent getMemorySpaceId (addAccess getMemorySpaceId d pe loc version) ↔
      KeepsPEs getMemorySpaceId d (.addAccess pe loc version) := by
  unfold addAccess KeepsPEs
  split
  · next hnew =>
    simp only [Consistent, Finset.mem_singleton, forall_insertPE_iff]
    exact ⟨fun h _ => h, fun h => h hnew⟩
  · next hold =>
    refine iff_of_true ?_ fun hnew => absurd hnew hold
    split
    · intro q hq
      rcases mem_insertPE.1 hq with hq | ⟨-, hloc⟩
      · exact Finset.mem_insert_of_mem (hd q hq)
      · exact hloc ▸ Finset.mem_insert_self loc d.location
    · exact hd

omit [DecidableEq PE] in
theorem addRootedAccess_iff (h : addRootedAccess d loc version = some d') :
    Consistent getMemorySpaceId d' ↔ KeepsPEs getMemorySpaceId d (.addRootedAccess loc version) := by
  unfold addRootedAccess at h
  split at h
  · cases h
    simp only [Consistent, Finset.mem_singleton, KeepsPEs]
  · cases h

omit [DecidableEq PE] in
theorem Consistent.delAccess (hd : Consistent getMemorySpaceId d) (from_ : Nat) :
    Consistent getMemorySpaceId (delAccess getMemorySpaceId d from_).2 := by
  intro p hp
  obtain ⟨hp, hne⟩ := Finset.mem_filter.1 hp
  exact Finset.mem_erase.2 ⟨hne, hd p hp⟩

/-- One call. -/
theorem step_consistent_iff (hd : Consistent getMemorySpaceId d) {c : Call PE}
    (h : step getMemorySpaceId d c = some d') :
    Consistent getMemorySpaceId d' ↔ KeepsPEs getMemorySpaceId d c := by
  cases c with
  | addAccess pe loc version =>
    cases h
    exact addAccess_iff hd
  | addRootedAccess loc version => exact addRootedAccess_iff h
  | delAccess from_ =>
    cases h
    exact iff_of_true (hd.delAccess from_) trivial

/-- **The recorded processing elements and memory spaces agree** in every run whose calls clear the memory
spaces only while all recorded processing elements are of the one that is inserted; and no other call keeps
the agreement. -/
theorem consistent_of_reach (getMemorySpaceId : PE → Nat) (home : Nat) (d : DirectoryEntryData PE)
    (h : Reach (step getMemorySpaceId) (KeepsPEs getMemorySpaceId) (new PE home) d) :
    Consistent getMemorySpaceId d ∧ ∀ c d', step getMemorySpaceId d c = some d' →
      (Consistent getMemorySpaceId d' ↔ KeepsPEs getMemorySpaceId d c) := by
  have hd : Consistent getMemorySpaceId d := h.invariant (I := Consistent getMemorySpaceId)
    (fun p hp => absurd hp (Finset.notMem_empty p))
    fun _ _ _ hs hok hstep => (step_consistent_iff hs hstep).2 hok
  exact ⟨hd, fun c d' => step_consistent_iff hd⟩

end

/-- Two accesses to one version in two memory spaces, the removal of one of them, and a new version in the
other. -/
theorem consistent_of_reach_two : ∃ d : DirectoryEntryData Nat,
    (d.location = {2} ∧ d.pes = {2}) ∧ Consistent id d := by
  obtain ⟨d, hd, hp⟩ := exists_reach_of_guarded_run (step id) (KeepsPEs id) (new Nat 0)
    [.addAccess (some 1) 1 2, .addAccess (some 2) 2 2, .delAccess 1, .addAccess none 2 3]
    (fun d => decide (d.location = {2} ∧ d.pes = {2})) (by decide)
  exact ⟨d, of_decide_eq_true hp, (consistent_of_reach id 0 d hd).1⟩

/-- Two processing elements write two versions in turn, each in its memory space. -/
theorem not_consistent_of_new_version : ∃ d : DirectoryEntryData Nat,
    Reach (step id) (fun _ _ => True) (new Nat 0) d ∧ ¬ Consistent id d := by
  obtain ⟨d, hd, hp⟩ := exists_reach_of_run (step id) (fun _ => True) (new Nat 0)
    [.addAccess (some 1) 1 2, .addAccess (some 2) 2 3] (by simp)
    (fun d => decide (1 ∈ d.pes ∧ 1 ∉ d.location)) (by decide)
  obtain ⟨hpe, hloc⟩ := of_decide_eq_true hp
  exact ⟨d, hd, fun h => hloc (h 1 hpe)⟩

end OmpSs.Core.DirectoryEntry
