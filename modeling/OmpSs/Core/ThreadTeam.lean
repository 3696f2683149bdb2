import OmpSs.Lib.Run
import OmpSs.Lib.SortedMap
import Mathlib.Data.Finset.Basic
import Mathlib.Data.List.Range

/-!
# The ids of a thread team

A `ThreadTeam` (`nanox-mx/src/core/threadteam.hpp:118`) numbers its threads: `_threads` maps the id of each
member to its thread, and `_idList` says of every id ever handed out whether it is in use. `addThread`
looks for the first id that is not, `removeThread` gives one back.

`popThread` takes the member with the last id out of `_threads` and gives the last id of `_idList` back.
After the removal of the last member these are two ids (`popThread_iff`): the one of the popped thread stays
marked for good.
-/

namespace OmpSs.Core.ThreadTeam

open Lib

/-! ## The program -/

/-- Source: `ThreadTeam` (`threadteam_decl.hpp:51`), with the fields that the operations write. -/
structure Team (T : Type*) where
  threads : SortedMap Nat T := .empty
  idList : SortedMap Nat Bool := .empty
  expectedThreads : Finset T := ∅
  starSize : Nat := 0
  creatorId : Int := -1

section
variable {T : Type*} [DecidableEq T]

/-- The search of `addThread` from `id` on, `n` being `_idList.size() - id`. `_idList[id]` adds a missing
id. Before it stops the search changes nothing, so the size stays the same. -/
def findId (idList : SortedMap Nat Bool) : Nat → Nat → Nat × SortedMap Nat Bool
  | 0, id => (id, idList)
  | n + 1, id => match idList.find? id with
    | some true => findId idList n (id + 1)
    | some false => (id, idList)
    | none => (id, idList.insert id false)

/-- Source: `ThreadTeam::addThread` (`threadteam.hpp:118`). -/
def addThread (t : Team T) (thread : T) (star creator : Bool) : Nat × Team T :=
  let search := findId t.idList t.idList.entries.length 0
  (search.1,
    { threads := t.threads.insert search.1 thread
      idList := search.2.insert search.1 true
      expectedThreads := insert thread t.expectedThreads
      starSize := if star then t.starSize + 1 else t.starSize
      creatorId := if creator then search.1 else t.creatorId })

/-- Source: `ThreadTeam::removeThread` (`threadteam.hpp:136`). -/
def removeThread (t : Team T) (id : Nat) : Nat × Team T :=
  ((t.threads.erase id).entries.length,
    { t with threads := t.threads.erase id, idList := t.idList.insert id false })

/-- Source: `ThreadTeam::popThread` (`threadteam.hpp:144`). `none`: there is no last thread or no last id. -/
def popThread (t : Team T) : Option (T × Team T) :=
  match t.threads.entries.getLast?, t.idList.entries.getLast? with
  | some last, some lastId =>
    some (last.2,
      { t with threads := t.threads.erase last.1, idList := t.idList.insert lastId.1 false })
  | _, _ => none

/-- The operations on a team. -/
inductive Call (T : Type*)
  | addThread (thread : T) (star creator : Bool)
  | removeThread (id : Nat)
  | popThread

def step (t : Team T) : Call T → Option (Team T)
  | .addThread thread star creator => some (addThread t thread star creator).2
  | .removeThread id => some (removeThread t id).2
  | .popThread => (popThread t).map (·.2)

/-! ## Marked ids and members -/

/-- The id is marked as used. -/
def Marked (t : Team T) (id : Nat) : Prop := t.idList.find? id = some true

/-- The id is the one of a thread of the team. -/
def Member (t : Team T) (id : Nat) : Prop := ∃ thread, t.threads.find? id = some thread

/-- The ids marked are the ones of the members. -/
def IdsExact (t : Team T) : Prop := ∀ id, Marked t id ↔ Member t id

/-- A thread is popped only while the last id of `_idList` is the one of a member. -/
def LastMarked (t : Team T) : Call T → Prop
  | .popThread => t.idList.entries.getLast?.map (·.1) = t.threads.entries.getLast?.map (·.1)
  | _ => True

instance (t : Team T) : DecidablePred (LastMarked t)
  | .addThread .. => isTrue trivial
  | .removeThread _ => isTrue trivial
  | .popThread =>
    inferInstanceAs (Decidable (t.idList.entries.getLast?.map (·.1) = t.threads.entries.getLast?.map (·.1)))

variable {t t' : Team T} {id j n : Nat} {idList : SortedMap Nat Bool} {thread : T} {star creator : Bool}

/-- The search returns an id that is not marked, and marks none. -/
theorem findId_spec (hn : n + id = idList.entries.length) (hbelow : ∀ j < id, idList.find? j = some true) :
    idList.find? (findId idList n id).1 ≠ some true ∧
      ∀ j, (findId idList n id).2.find? j = some true ↔ idList.find? j = some true := by
  induction n generalizing id with
  | zero =>
    refine ⟨fun hmarked => ?_, fun j => .rfl⟩
    -- the map has the keys up to `id`, one more than it has entries
    have hsub : List.range (id + 1) ⊆ idList.entries.map (·.1) := fun j hj => by
      have hj' : idList.find? j = some true := by
        rcases Nat.lt_succ_iff_lt_or_eq.1 (List.mem_range.1 hj) with hlt | rfl
        · exact hbelow j hlt
        · exact hmarked
      exact List.mem_map.2 ⟨_, SortedMap.find?_eq_some_iff.1 hj', rfl⟩
    have hlen := (List.nodup_range.subperm hsub).length_le
    rw [List.length_range, List.length_map] at hlen
    omega
  | succ n ih =>
    unfold findId
    split
    · next h =>
      refine ih (by omega) fun j hj => ?_
      rcases Nat.lt_succ_iff_lt_or_eq.1 hj with hlt | rfl
      · exact hbelow j hlt
      · exact h
    · next h => exact ⟨by simp [h], fun j => .rfl⟩
    · next h =>
      refine ⟨by simp [h], fun j => ?_⟩
      rw [SortedMap.find?_insert]
      split
      · next heq => simp [heq, h]
      · rfl

/-- The id that `addThread` returns was not marked. -/
theorem not_marked_addThread (t : Team T) (thread : T) (star creator : Bool) :
    ¬ Marked t (addThread t thread star creator).1 :=
  (findId_spec (Nat.add_zero _) fun _ hj => absurd hj (Nat.not_lt_zero _)).1

theorem marked_addThread : Marked (addThread t thread star creator).2 j ↔
    j = (addThread t thread star creator).1 ∨ Marked t j := by
  have hspec : (findId t.idList t.idList.entries.length 0).2.find? j = some true ↔
      t.idList.find? j = some true :=
    (findId_spec (Nat.add_zero _) fun _ hj => absurd hj (Nat.not_lt_zero _)).2 j
  show ((findId t.idList t.idList.entries.length 0).2.insert _ true).find? j = some true ↔ _
  rw [SortedMap.find?_insert]
  split
  · next h => simp [h, addThread]
  · next h =>
    rw [hspec]
    exact (or_iff_right h).symm

theorem member_addThread : Member (addThread t thread star creator).2 j ↔
    j = (addThread t thread star creator).1 ∨ Member t j := by
  show (∃ x, (t.threads.insert (addThread t thread star creator).1 thread).find? j = some x) ↔ _
  rw [SortedMap.find?_insert]
  split
  · next h => simp [h]
  · next h => exact (or_iff_right h).symm

omit [DecidableEq T] in
theorem marked_removeThread : Marked (removeThread t id).2 j ↔ j ≠ id ∧ Marked t j := by
  show (t.idList.insert id false).find? j = some true ↔ _
  rw [SortedMap.find?_insert]
  split
  · next h => simp [h]
  · next h => exact (and_iff_right h).symm

omit [DecidableEq T] in
theorem member_removeThread : Member (removeThread t id).2 j ↔ j ≠ id ∧ Member t j := by
  show (∃ x, (t.threads.erase id).find? j = some x) ↔ _
  rw [SortedMap.find?_erase]
  split
  · next h => simp [h]
  · next h => exact (and_iff_right h).symm

omit [DecidableEq T] in
/-- What a popped thread leaves: the last member's id is no member's any more, and the last id of the list
is not marked. -/
theorem popThread_spec (h : popThread t = some (thread, t')) : ∃ last lastId,
    t.threads.entries.getLast? = some last ∧ t.idList.entries.getLast? = some lastId ∧
      (∀ j, Marked t' j ↔ j ≠ lastId.1 ∧ Marked t j) ∧ ∀ j, Member t' j ↔ j ≠ last.1 ∧ Member t j := by
  unfold popThread at h
  split at h
  · next last lastId hlast hlastId =>
    cases h
    exact ⟨last, lastId, hlast, hlastId, fun j => marked_removeThread, fun j => member_removeThread⟩
  · cases h

omit [DecidableEq T] in
theorem mem_threads_of_getLast? {last : Nat × T} (h : t.threads.entries.getLast? = some last) :
    Member t last.1 :=
  ⟨last.2, SortedMap.find?_eq_some_iff.2 (SortedMap.le_of_getLast? h).1⟩

omit [DecidableEq T] in
/-- A pop keeps the ids exact if and only if the two last ids are the same. -/
theorem popThread_iff (ht : IdsExact t) (h : popThread t = some (thread, t')) :
    IdsExact t' ↔ LastMarked t .popThread := by
  obtain ⟨last, lastId, hlast, hlastId, hmarked, hmember⟩ := popThread_spec h
  simp only [LastMarked, hlast, hlastId, Option.map_some, Option.some_inj]
  constructor
  · intro hexact
    -- the id of the popped thread is marked unless it is the last id
    by_contra hne
    have hstill : Marked t' last.1 :=
      (hmarked _).2 ⟨Ne.symm hne, (ht _).2 (mem_threads_of_getLast? hlast)⟩
    exact ((hmember _).1 ((hexact _).1 hstill)).1 rfl
  · intro heq j
    rw [hmarked, hmember, heq, ht j]

/-- One call. -/
theorem step_idsExact_iff (ht : IdsExact t) {c : Call T} (h : step t c = some t') :
    IdsExact t' ↔ LastMarked t c := by
  cases c with
  | addThread thread star creator =>
    cases h
    exact iff_of_true (fun j => by rw [marked_addThread, member_addThread, ht j]) trivial
  | removeThread id =>
    cases h
    exact iff_of_true (fun j => by rw [marked_removeThread, member_removeThread, ht j]) trivial
  | popThread =>
    obtain ⟨⟨thread, t''⟩, hpop, rfl⟩ := Option.map_eq_some_iff.1 h
    exact popThread_iff ht hpop

/-- **The id table is exact** in every run that pops threads only while the last id is a member's: the
marked ids are the members' ids, the next id handed out is no member's, and no other call keeps this. -/
theorem idsExact_of_reach (t : Team T) (h : Reach step LastMarked {} t) :
    IdsExact t ∧ (∀ thread star creator, ¬ Member t (addThread t thread star creator).1) ∧
      ∀ c t', step t c = some t' → (IdsExact t' ↔ LastMarked t c) := by
  have ht : IdsExact t := h.invariant (I := IdsExact)
    (fun id => iff_of_false (fun hmarked => nomatch hmarked) fun ⟨_, hmember⟩ => nomatch hmember)
    fun _ _ _ hs hok hstep => (step_idsExact_iff hs hstep).2 hok
  exact ⟨ht, fun thread star creator hmember => not_marked_addThread t thread star creator ((ht _).2 hmember),
    fun c t' => step_idsExact_iff ht⟩

/-- In every run, also one that leaves ids marked, the members' ids are marked. So an id handed out is never
a member's. -/
theorem not_member_addThread_of_reach (h : Reach step (fun _ _ => True) {} t) :
    ¬ Member t (addThread t thread star creator).1 := by
  have hmarked : ∀ id, Member t id → Marked t id := by
    refine h.invariant (I := fun t : Team T => ∀ id, Member t id → Marked t id)
      (fun id ⟨_, hmember⟩ => nomatch hmember) fun s c s' hs _ hstep id hid => ?_
    cases c with
    | addThread thread star creator =>
      cases hstep
      exact marked_addThread.2 ((member_addThread.1 hid).imp_right (hs id))
    | removeThread j =>
      cases hstep
      exact marked_removeThread.2 ((member_removeThread.1 hid).imp_right (hs id))
    | popThread =>
      obtain ⟨⟨thread, s''⟩, hpop, rfl⟩ := Option.map_eq_some_iff.1 hstep
      obtain ⟨last, lastId, hlast, hlastId, hm, hmem⟩ := popThread_spec hpop
      obtain ⟨hne, hid⟩ := (hmem id).1 hid
      refine (hm id).2 ⟨fun heq => ?_, hs id hid⟩
      -- the last id of the list is not below the last member's
      obtain ⟨x, hx⟩ := hid
      have hle := (SortedMap.le_of_getLast? hlast).2 _ (SortedMap.find?_eq_some_iff.1 hx)
      have hlastMarked := hs last.1 (mem_threads_of_getLast? hlast)
      have hge := (SortedMap.le_of_getLast? hlastId).2 _ (SortedMap.find?_eq_some_iff.1 hlastMarked)
      simp only at hle hge
      omega
  exact fun hmember => not_marked_addThread t thread star creator (hmarked _ hmember)

end

/-- A team of three that loses its last thread and takes another one in. -/
theorem idsExact_of_reach_three : ∃ t : Team Nat,
    t.threads.entries = [(0, 10), (1, 11), (2, 13)] ∧ IdsExact t := by
  obtain ⟨t, ht, hp⟩ := exists_reach_of_guarded_run step LastMarked ({} : Team Nat)
    [.addThread 10 false true, .addThread 11 false false, .addThread 12 false false, .popThread,
      .addThread 13 false false]
    (fun t => decide (t.threads.entries = [(0, 10), (1, 11), (2, 13)])) (by decide)
  exact ⟨t, of_decide_eq_true hp, (idsExact_of_reach t ht).1⟩

/-- A team of three loses thread 2, and then its last thread, which is thread 1: the id 1 stays marked. -/
theorem not_idsExact_of_pop : ∃ t : Team Nat, Reach step (fun _ _ => True) {} t ∧ ¬ IdsExact t := by
  obtain ⟨t, ht, hp⟩ := exists_reach_of_run step (fun _ => True) ({} : Team Nat)
    [.addThread 10 false true, .addThread 11 false false, .addThread 12 false false, .removeThread 2,
      .popThread] (by simp)
    (fun t => decide (t.idList.find? 1 = some true ∧ t.threads.find? 1 = none)) (by decide)
  obtain ⟨hmarked, hnone⟩ := of_decide_eq_true hp
  refine ⟨t, ht, fun hexact => ?_⟩
  obtain ⟨thread, hthread⟩ := (hexact 1).1 hmarked
  rw [hnone] at hthread
  cases hthread

end OmpSs.Core.ThreadTeam
