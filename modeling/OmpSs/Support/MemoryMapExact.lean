import OmpSs.Lib.Run
import OmpSs.Support.MemoryMapFill
import OmpSs.Support.MemoryMapUint64

/-!
# Registering intervals

Two lookups of a `MemoryMap` that insert an interval which is not there, each of them once for pointers
(`memorymap.hpp`) and once for numbers (`memorymap.cpp`). The versions differ in what they return: the
place of the pointer, or the number.

* `getExactOrFullyOverlappingInsertIfNotFound` also finds an entry that contains the interval. It compares
  the interval with the entries on both sides of its place.
* `getExactInsertIfNotFound` compares it with one of them only: with the entry behind the place where there
  is one (`Guarded`).
-/

namespace OmpSs.Support

open Lib

section
variable {V β : Type*} {l : List (Entry V)} {e : Entry V} {key : MemoryChunk}

/-! ## Insertion -/

/-- The insertion of a key that is not in the map. Source: `std::map::insert`. -/
def insertEntry (l : List (Entry V)) (key : MemoryChunk) (v : Option V) : List (Entry V) :=
  below l key.addr ++ MemoryMapUint64.insertAt key v (lowerBound l key.addr)

/-! ## The lookups -/

/-- Both versions of `getExactInsertIfNotFound`, by what they return for an entry and for a conflict, and by
the value they insert. -/
def exactInsertIfNotFound (slot : Entry V → β) (invalid : β) (new : Option V) (l : List (Entry V))
    (key : MemoryChunk) : List (Entry V) × β :=
  match lowerBound l key.addr with
  | [] => match l.getLast? with
    | none => (insertEntry l key new, slot (key, new))
    | some last =>
      if last.1.checkOverlap key = .noOverlap then (insertEntry l key new, slot (key, new))
      else (l, invalid)
  | it :: _ =>
    -- less than addr
    if key.addr < it.1.addr then
      if it.1.checkOverlap key = .noOverlap then (insertEntry l key new, slot (key, new))
      else (l, invalid)
    -- same addr, wrong length
    else if it.1.len ≠ key.len then (l, invalid)
    else (l, slot it)

/-- Source: `MemoryMap::getExactInsertIfNotFound` (`memorymap.hpp:1394`). `none`: `NULL`. -/
def getExactInsertIfNotFound (l : List (Entry V)) (key : MemoryChunk) :
    List (Entry V) × Option MemoryChunk :=
  exactInsertIfNotFound (fun e => some e.1) none none l key

/-- Source: `MemoryMap<uint64_t>::getExactInsertIfNotFound` (`memorymap.cpp:199`). -/
def MemoryMapUint64.getExactInsertIfNotFound (l : List (Entry V)) (key : MemoryChunk)
    (valIfNotFound valIfNotValid : Option V) : List (Entry V) × Option V :=
  exactInsertIfNotFound (fun e => e.2) valIfNotValid valIfNotFound l key

/-- The answers of `checkOverlap` for an entry that contains the key. -/
def OverlapType.isSubchunk : OverlapType → Bool
  | .subchunkOverlap | .subchunkBeginOverlap | .subchunkEndOverlap => true
  | _ => false

/-- What the second lookup leaves: the map, its answer, the flag `exact`, and the conflict it reports. -/
structure Lookup (V β : Type*) where
  map : List (Entry V)
  val : β
  exact : Bool
  conflict : Option MemoryChunk := none

/-- Both versions of `getExactOrFullyOverlappingInsertIfNotFound`. `failed`: the flag after a conflict with
the entry before the key, which the version for pointers does not write. -/
def exactOrFullyOverlapping (slot : Entry V → β) (invalid : β) (new : Option V) (failed : Bool)
    (l : List (Entry V)) (key : MemoryChunk) : Lookup V β :=
  let inserted : Lookup V β := { map := insertEntry l key new, val := slot (key, new), exact := true }
  -- the entry before the place of the key
  let previous (it : Entry V) : Lookup V β :=
    if it.1.checkOverlap key = .noOverlap then inserted
    else if (it.1.checkOverlap key).isSubchunk then { map := l, val := slot it, exact := false }
    else { map := l, val := invalid, exact := failed, conflict := some it.1 }
  match lowerBound l key.addr with
  | [] => match l.getLast? with
    | none => inserted
    | some last => previous last
  | it :: _ =>
    -- key less than it->first, not total overlap guaranteed
    if key.addr < it.1.addr then
      if it.1.checkOverlap key = .noOverlap then
        match (below l key.addr).getLast? with
        | none => inserted
        | some last => previous last
      else { map := l, val := invalid, exact := false, conflict := some it.1 }
    -- same addr, wrong length
    else if it.1.len ≠ key.len then
      if (it.1.checkOverlap key).isSubchunk then { map := l, val := slot it, exact := false }
      else { map := l, val := invalid, exact := false, conflict := some it.1 }
    else { map := l, val := slot it, exact := true }

/-- Source: `MemoryMap::getExactOrFullyOverlappingInsertIfNotFound` (`memorymap.hpp:1316`). `none`: `NULL`. -/
def getExactOrFullyOverlappingInsertIfNotFound (l : List (Entry V)) (key : MemoryChunk) (exact : Bool) :
    Lookup V (Option MemoryChunk) :=
  { exactOrFullyOverlapping (fun e => some e.1) none none exact l key with conflict := none }

/-- Source: `MemoryMap<uint64_t>::getExactOrFullyOverlappingInsertIfNotFound` (`memorymap.cpp:249`). -/
def MemoryMapUint64.getExactOrFullyOverlappingInsertIfNotFound (l : List (Entry V)) (key : MemoryChunk)
    (valIfNotFound valIfNotValid : Option V) : Lookup V (Option V) :=
  exactOrFullyOverlapping (fun e => e.2) valIfNotValid valIfNotFound false l key

/-! ## Places in a map -/

theorem checkOverlap_eq_noOverlap_iff {c : MemoryChunk} (hc : 0 < c.len) (hkey : 0 < key.len) :
    c.checkOverlap key = .noOverlap ↔ key.meets c = false := by
  rw [MemoryChunk.meets_eq_false]
  constructor
  · intro h
    have hov := c.checkOverlap_holds key hc
    rw [h] at hov
    exact hov.symm.imp And.left And.left
  · rintro (h | h)
    · exact MemoryMapUint64.checkOverlap_of_after h hkey
    · exact MemoryMapUint64.checkOverlap_of_before h hc

theorem isSubchunk_checkOverlap_iff {c : MemoryChunk} (hc : 0 < c.len) (hkey : 0 < key.len) :
    (c.checkOverlap key).isSubchunk = true ↔ c.contains key = true := by
  have hov := c.checkOverlap_holds key hc
  rw [MemoryChunk.contains_iff]
  cases htype : c.checkOverlap key <;> rw [htype] at hov <;>
    simp only [OverlapType.Holds, MemoryChunk.stop] at hov <;>
    simp [OverlapType.isSubchunk, MemoryChunk.stop] <;> omega

theorem mem_iff_below_or_lowerBound (l : List (Entry V)) (a : Nat) :
    e ∈ l ↔ e ∈ below l a ∨ e ∈ lowerBound l a := by
  rw [← List.mem_append, MemoryMapUint64.below_append_lowerBound]

theorem below_eq_self {a : Nat} (h : lowerBound l a = []) : below l a = l := by
  have hsplit := MemoryMapUint64.below_append_lowerBound l a
  rwa [h, List.append_nil] at hsplit

theorem mem_below_of_lt (hl : Laid l) {a : Nat} (he : e ∈ l) (hlt : e.1.addr < a) : e ∈ below l a := by
  refine ((mem_iff_below_or_lowerBound l a).1 he).resolve_right fun hlb => ?_
  exact absurd (MemoryMapUint64.le_of_mem_lowerBound hl hlb) (not_le_of_gt hlt)

section Places
variable (hl : Laid l) (hpos : 0 < key.len)
include hl

/-- The entry behind the place of the key is the first one there. -/
theorem addr_le_of_lowerBound {it : Entry V} {rest : List (Entry V)}
    (hlb : lowerBound l key.addr = it :: rest) (he : e ∈ lowerBound l key.addr) :
    it.1.addr ≤ e.1.addr := by
  rw [← MemoryMapUint64.below_append_lowerBound l key.addr] at hl
  rw [hlb] at he
  exact (hlb ▸ (laid_append.1 hl).2.1).addr_le_of_mem he

theorem first_behind {it : Entry V} {rest : List (Entry V)} (hlb : lowerBound l key.addr = it :: rest) :
    it ∈ l ∧ 0 < it.1.len ∧ key.addr ≤ it.1.addr ∧ it.1.addr < it.1.stop := by
  have hmem : it ∈ lowerBound l key.addr := hlb ▸ List.mem_cons_self
  have hit : it ∈ l := mem_of_mem_lowerBound hmem
  exact ⟨hit, hl.nonempty it hit, MemoryMapUint64.le_of_mem_lowerBound hl hmem, hl.addr_lt_stop hit⟩

/-- Of the entries before the place of the key only the last one can meet it. -/
theorem getLast?_of_meets (he : e ∈ below l key.addr) (hmeets : key.meets e.1 = true) :
    (below l key.addr).getLast? = some e := by
  rcases List.eq_nil_or_concat (below l key.addr) with hnil | ⟨init, p, hp⟩
  · rw [hnil] at he
    cases he
  · rw [List.concat_eq_append] at hp
    have hlaid := hl
    rw [← MemoryMapUint64.below_append_lowerBound l key.addr, hp] at hlaid
    have hlt : p.1.addr < key.addr := MemoryMapUint64.lt_of_mem_below (hp ▸ List.mem_concat_self)
    rw [hp] at he ⊢
    rcases List.mem_append.1 he with he | he
    · have hle := (laid_append.1 (laid_append.1 hlaid).1).2.2 e he p (List.mem_singleton_self p)
      rw [MemoryChunk.meets_eq_true] at hmeets
      omega
    · rw [List.mem_singleton.1 he, List.getLast?_concat]

/-- The entries do not overlap after the insertion if and only if none meets the key. -/
theorem laid_insert_iff (hpos : 0 < key.len) (v : Option V) :
    Laid (below l key.addr ++ (key, v) :: lowerBound l key.addr) ↔ ∀ e ∈ l, key.meets e.1 = false := by
  constructor
  · intro h e he
    obtain ⟨-, hlb, hcross⟩ := laid_append.1 h
    rw [MemoryChunk.meets_eq_false]
    rcases (mem_iff_below_or_lowerBound l key.addr).1 he with he | he
    · exact .inr (hcross e he _ List.mem_cons_self)
    · exact .inl ((laid_cons.1 hlb).2.1 e he)
  · intro h
    refine (MemoryMapUint64.addChunk_of_disjoint hl hpos (fun e he x hx hx' => ?_) v).2
    have hmeets := (MemoryChunk.meets_iff hpos (hl.nonempty e he)).2 ⟨x, hx, hx'⟩
    rw [h e he] at hmeets
    cases hmeets

end Places

theorem insertEntry_eq (v : Option V) (h : ∀ it ∈ (lowerBound l key.addr).head?, key.addr < it.1.addr) :
    insertEntry l key v = below l key.addr ++ (key, v) :: lowerBound l key.addr := by
  rw [insertEntry]
  cases hlb : lowerBound l key.addr with
  | nil => rfl
  | cons it rest =>
    have hlt := h it (by rw [hlb]; rfl)
    rw [MemoryMapUint64.insertAt, if_neg (by omega)]

/-! ## Exact intervals -/

/-- What the first lookup should do: find the entry of the interval, insert an interval that meets no entry,
and fail otherwise. -/
structure ExactInsert (slot : Entry V → β) (invalid : β) (new : Option V) (l : List (Entry V))
    (key : MemoryChunk) (r : List (Entry V) × β) : Prop where
  found : ∀ v, (key, v) ∈ l → r = (l, slot (key, v))
  added : (∀ e ∈ l, key.meets e.1 = false) →
    r = (below l key.addr ++ (key, new) :: lowerBound l key.addr, slot (key, new))
  failed : (∀ v, (key, v) ∉ l) → (∃ e ∈ l, key.meets e.1 = true) → r = (l, invalid)
  laid : Laid r.1

/-- The key does not begin inside an entry, or this is the last entry, or the next one begins inside the
key. -/
def Guarded (l : List (Entry V)) (key : MemoryChunk) : Prop :=
  ∀ p ∈ l, p.1.addr < key.addr → key.addr < p.1.stop →
    (∀ e ∈ l, e.1.addr ≤ p.1.addr) ∨ ∃ e ∈ l, key.addr < e.1.addr ∧ e.1.addr < key.stop

/-- An entry before the place of the key that meets it. -/
def MeetsPrevious (l : List (Entry V)) (key : MemoryChunk) : Prop :=
  ∃ p ∈ below l key.addr, key.meets p.1 = true

theorem guarded_of_not_meetsPrevious (hl : Laid l) (hpos : 0 < key.len) (h : ¬ MeetsPrevious l key) :
    Guarded l key := by
  intro p hp hlt hlt'
  refine absurd ⟨p, mem_below_of_lt hl hp hlt, ?_⟩ h
  rw [MemoryChunk.meets_eq_true]
  simp only [MemoryChunk.stop] at hlt' ⊢
  omega

/-- Where an entry starts with the key, no entry before reaches into it. -/
theorem guarded_of_mem (hl : Laid l) {it : Entry V} (hit : it ∈ l) (haddr : it.1.addr = key.addr) :
    Guarded l key := by
  intro p hp hlt hlt'
  have hit' := hl.addr_lt_stop hit
  rcases hl.before_or_behind hp hit with rfl | hle | hle
  · omega
  · omega
  · omega

variable {slot : Entry V → β} {invalid : β} {new : Option V}

/-- The three outcomes of the lookup. An interval that is inserted meets no entry where the key is guarded,
and only there. -/
theorem exactInsertIfNotFound_cases (slot : Entry V → β) (invalid : β) (new : Option V) (hl : Laid l)
    (hpos : 0 < key.len) :
    (∃ v, (key, v) ∈ l ∧ exactInsertIfNotFound slot invalid new l key = (l, slot (key, v)) ∧
      Guarded l key) ∨
    ((∀ v, (key, v) ∉ l) ∧ (∃ e ∈ l, key.meets e.1 = true) ∧
      exactInsertIfNotFound slot invalid new l key = (l, invalid) ∧ Guarded l key) ∨
    ((∀ v, (key, v) ∉ l) ∧ (Guarded l key ↔ ∀ e ∈ l, key.meets e.1 = false) ∧
      exactInsertIfNotFound slot invalid new l key =
        (below l key.addr ++ (key, new) :: lowerBound l key.addr, slot (key, new))) := by
  have hlt_of_below : ∀ e ∈ below l key.addr, e.1.addr < key.addr := fun e he =>
    MemoryMapUint64.lt_of_mem_below he
  have hfree : (∀ e ∈ l, key.meets e.1 = false) → Guarded l key := by
    intro hfree
    refine guarded_of_not_meetsPrevious hl hpos fun ⟨p, hp, hmeets⟩ => ?_
    rw [hfree p ((mem_iff_below_or_lowerBound l _).2 (.inl hp))] at hmeets
    cases hmeets
  unfold exactInsertIfNotFound
  cases hlb : lowerBound l key.addr with
  | nil =>
    have hmem : ∀ e ∈ l, e ∈ below l key.addr := fun e he =>
      ((mem_iff_below_or_lowerBound l key.addr).1 he).resolve_right (by rw [hlb]; exact List.not_mem_nil)
    have hnot : ∀ v, (key, v) ∉ l := fun v hv => lt_irrefl _ (hlt_of_below _ (hmem _ hv))
    have hins : insertEntry l key new = below l key.addr ++ [(key, new)] := by
      rw [insertEntry_eq new (by rw [hlb]; simp), hlb]
    have hlast := below_eq_self hlb
    cases hgl : l.getLast? with
    | none =>
      rw [List.getLast?_eq_none_iff] at hgl
      subst hgl
      exact .inr (.inr ⟨hnot, ⟨fun _ e he => (by cases he), hfree⟩, by rw [hins]⟩)
    | some last =>
      have hlastmem : last ∈ l := List.mem_of_getLast? hgl
      have hlen := hl.nonempty last hlastmem
      dsimp only
      split
      · next hno =>
        rw [checkOverlap_eq_noOverlap_iff hlen hpos] at hno
        have hall : ∀ e ∈ l, key.meets e.1 = false := by
          intro e he
          by_contra hmeets
          have heq := getLast?_of_meets hl (hmem e he) (by simpa using hmeets)
          rw [hlast, hgl, Option.some.injEq] at heq
          exact hmeets (heq ▸ hno)
        exact .inr (.inr ⟨hnot, ⟨fun _ => hall, hfree⟩, by rw [hins]⟩)
      · next hov =>
        rw [checkOverlap_eq_noOverlap_iff hlen hpos, Bool.not_eq_false] at hov
        refine .inr (.inl ⟨hnot, ⟨last, hlastmem, hov⟩, rfl, fun p hp hlt hlt' => .inl fun e he => ?_⟩)
        have hltp := hl.addr_lt_stop he
        have hlte := hlt_of_below e (hmem e he)
        rcases hl.before_or_behind he hp with rfl | hle | hle
        · exact le_refl _
        · omega
        · omega
  | cons it rest =>
    obtain ⟨hit, hlen, hge, hstop⟩ := first_behind hl hlb
    have hmeets : it.1.addr < key.stop → key.meets it.1 = true := fun h =>
      MemoryChunk.meets_eq_true.2 ⟨h, by omega⟩
    dsimp only
    split
    · next hlt =>
      have hnot : ∀ v, (key, v) ∉ l := by
        intro v hv
        rcases (mem_iff_below_or_lowerBound l key.addr).1 hv with hv | hv
        · exact lt_irrefl _ (hlt_of_below _ hv)
        · exact absurd (addr_le_of_lowerBound hl hlb hv) (not_le_of_gt hlt)
      have hins : insertEntry l key new = below l key.addr ++ (key, new) :: it :: rest := by
        rw [insertEntry_eq new (by rw [hlb]; rintro _ ⟨⟩; exact hlt), hlb]
      split
      · next hno =>
        rw [checkOverlap_eq_noOverlap_iff hlen hpos, MemoryChunk.meets_eq_false] at hno
        refine .inr (.inr ⟨hnot, ⟨fun hguard e he => ?_, hfree⟩, by rw [hins]⟩)
        rw [MemoryChunk.meets_eq_false]
        rcases (mem_iff_below_or_lowerBound l key.addr).1 he with hb | hb
        · -- an entry that reaches into the key is neither the last one nor followed by one in the key
          by_contra hno'
          have hlte := hlt_of_below e hb
          rcases hguard e he hlte (by omega) with hall | ⟨e', he', hlt', hlt''⟩
          · have := hall it hit
            omega
          · rcases (mem_iff_below_or_lowerBound l key.addr).1 he' with hb' | hb'
            · have := hlt_of_below e' hb'
              omega
            · have := addr_le_of_lowerBound hl hlb hb'
              omega
        · have := addr_le_of_lowerBound hl hlb hb
          omega
      · next hov =>
        rw [checkOverlap_eq_noOverlap_iff hlen hpos, Bool.not_eq_false] at hov
        have hin := (MemoryChunk.meets_eq_true.1 hov).1
        exact .inr (.inl ⟨hnot, ⟨it, hit, hov⟩, rfl, fun _ _ _ _ => .inr ⟨it, hit, hlt, hin⟩⟩)
    · next hlt =>
      have haddr : it.1.addr = key.addr := by omega
      split
      · next hne =>
        refine .inr (.inl ⟨fun v hv => ?_, ⟨it, hit, hmeets ?_⟩, rfl, guarded_of_mem hl hit haddr⟩)
        · have heq := hl.eq_of_inChunk hit hv (x := key.addr) ⟨haddr.le, by omega⟩
            ⟨le_refl _, by simp only [MemoryChunk.stop]; omega⟩
          exact hne (by rw [heq])
        · simp only [MemoryChunk.stop]
          omega
      · next hlen' =>
        have hkey : it = (key, it.2) := by
          obtain ⟨⟨addr, len⟩, v⟩ := it
          obtain ⟨addr', len'⟩ := key
          dsimp only at haddr hlen'
          rw [haddr, not_not.1 hlen']
        exact .inl ⟨it.2, hkey ▸ hit, by rw [← hkey], guarded_of_mem hl hit haddr⟩

theorem not_mem_of_not_meets (hpos : 0 < key.len) (h : ∀ e ∈ l, key.meets e.1 = false) (v : Option V) :
    (key, v) ∉ l := by
  intro hv
  have hmeets := h _ hv
  simp only [MemoryChunk.meets_eq_false, MemoryChunk.stop] at hmeets
  omega

/-- The lookup does what it should if and only if the key is guarded. -/
theorem exactInsert_iff (slot : Entry V → β) (invalid : β) (new : Option V) (hl : Laid l)
    (hpos : 0 < key.len) :
    ExactInsert slot invalid new l key (exactInsertIfNotFound slot invalid new l key) ↔ Guarded l key := by
  rcases exactInsertIfNotFound_cases slot invalid new hl hpos with
    ⟨v, hv, hr, hguard⟩ | ⟨hnot, hmeets, hr, hguard⟩ | ⟨hnot, hguard, hr⟩
  · rw [hr]
    refine ⟨fun _ => hguard, fun _ => ⟨fun v' hv' => ?_, fun hfree => ?_, fun hnot => ?_, hl⟩⟩
    · have hkey : key.InChunk key.addr := ⟨le_refl _, by simp only [MemoryChunk.stop]; omega⟩
      rw [hl.eq_of_inChunk hv hv' hkey hkey]
    · exact absurd hv (not_mem_of_not_meets hpos hfree v)
    · exact absurd hv (hnot v)
  · rw [hr]
    refine ⟨fun _ => hguard, fun _ => ⟨fun v hv => absurd hv (hnot v), fun hfree => ?_, fun _ _ => rfl, hl⟩⟩
    obtain ⟨e, he, hmeets⟩ := hmeets
    rw [hfree e he] at hmeets
    cases hmeets
  · rw [hr, hguard]
    constructor
    · intro h
      exact (laid_insert_iff hl hpos new).1 h.laid
    · intro hfree
      refine ⟨fun v hv => absurd hv (hnot v), fun _ => rfl, fun _ hmeets => ?_,
        (laid_insert_iff hl hpos new).2 hfree⟩
      obtain ⟨e, he, hmeets⟩ := hmeets
      rw [hfree e he] at hmeets
      cases hmeets

/-- **Both versions of `getExactInsertIfNotFound` do what they should if and only if the key is guarded**;
and a run of calls whose keys are guarded keeps the entries disjoint. -/
theorem getExactInsertIfNotFound_iff (hl : Laid l) (hpos : 0 < key.len)
    (valIfNotFound valIfNotValid : Option V) :
    (ExactInsert (fun e => some e.1) none none l key (getExactInsertIfNotFound l key) ↔ Guarded l key) ∧
    (ExactInsert (fun e => e.2) valIfNotValid valIfNotFound l key
      (MemoryMapUint64.getExactInsertIfNotFound l key valIfNotFound valIfNotValid) ↔ Guarded l key) ∧
    (∀ l', Reach (fun l k => some (getExactInsertIfNotFound l k).1)
      (fun l k => 0 < k.len ∧ Guarded l k) l l' → Laid l') ∧
    (∀ l', Reach (fun l (c : MemoryChunk × Option V × Option V) =>
        some (MemoryMapUint64.getExactInsertIfNotFound l c.1 c.2.1 c.2.2).1)
      (fun l c => 0 < c.1.len ∧ Guarded l c.1) l l' → Laid l') := by
  refine ⟨exactInsert_iff _ _ _ hl hpos, exactInsert_iff _ _ _ hl hpos, fun l' h => ?_, fun l' h => ?_⟩
  · refine h.invariant hl fun s k s' hs hok hstep => ?_
    cases hstep
    exact ((exactInsert_iff _ _ _ hs hok.1).2 hok.2).laid
  · refine h.invariant hl fun s c s' hs hok hstep => ?_
    cases hstep
    exact ((exactInsert_iff _ _ _ hs hok.1).2 hok.2).laid

/-- Two objects with a gap between them. -/
def twoObjects : List (Entry Nat) := [(⟨0, 10⟩, some 1), (⟨20, 5⟩, some 2)]

theorem laid_twoObjects : Laid twoObjects :=
  laid_cons.2 ⟨by decide, by simp [MemoryChunk.stop], laid_cons.2 ⟨by decide, by simp, .nil⟩⟩

/-- The object from 10 to 20 fits the gap. -/
theorem getExactInsertIfNotFound_iff_gap :
    ExactInsert (fun e => some e.1) none none twoObjects ⟨10, 10⟩
      (getExactInsertIfNotFound twoObjects ⟨10, 10⟩) :=
  (getExactInsertIfNotFound_iff laid_twoObjects (by decide) none none).1.2
    (by simp [Guarded, twoObjects, MemoryChunk.stop])

/-- The object from 5 to 15 is inserted, although the first one reaches into it. -/
theorem getExactInsertIfNotFound_overlaps :
    ¬ ExactInsert (fun e => some e.1) none none twoObjects ⟨5, 10⟩
      (getExactInsertIfNotFound twoObjects ⟨5, 10⟩) ∧
    ¬ ExactInsert (fun e => e.2) (some 0) (some 3) twoObjects ⟨5, 10⟩
      (MemoryMapUint64.getExactInsertIfNotFound twoObjects ⟨5, 10⟩ (some 3) (some 0)) := by
  have hnot : ∀ v, ((⟨5, 10⟩ : MemoryChunk), v) ∉ twoObjects := by simp [twoObjects]
  have hmeets : ∃ e ∈ twoObjects, (⟨5, 10⟩ : MemoryChunk).meets e.1 = true :=
    ⟨_, List.mem_cons_self, by decide⟩
  constructor
  · intro h
    have := h.failed hnot hmeets
    revert this
    decide
  · intro h
    have := h.failed hnot hmeets
    revert this
    decide

/-! ## Containing intervals -/

/-- What the second lookup should do: find the entry that contains the interval, insert an interval that
meets no entry, and fail where an entry meets the interval and does not contain it. -/
structure OverlappingInsert (slot : Entry V → β) (invalid : β) (new : Option V) (l : List (Entry V))
    (key : MemoryChunk) (r : Lookup V β) : Prop where
  found : ∀ e ∈ l, e.1.contains key = true → r.map = l ∧ r.val = slot e ∧ r.exact = decide (e.1 = key)
  added : (∀ e ∈ l, key.meets e.1 = false) →
    r.map = below l key.addr ++ (key, new) :: lowerBound l key.addr ∧ r.val = slot (key, new) ∧ r.exact = true
  failed : (∃ e ∈ l, key.meets e.1 = true ∧ e.1.contains key = false) → r.map = l ∧ r.val = invalid
  laid : Laid r.map

/-- The outcomes of the second lookup. -/
inductive Outcome (slot : Entry V → β) (invalid : β) (new : Option V) (l : List (Entry V))
    (key : MemoryChunk) (r : Lookup V β) : Prop
  | found (e : Entry V) (mem : e ∈ l) (contains : e.1.contains key = true) (map : r.map = l)
      (val : r.val = slot e) (exact : r.exact = decide (e.1 = key))
  | added (free : ∀ e ∈ l, key.meets e.1 = false)
      (map : r.map = below l key.addr ++ (key, new) :: lowerBound l key.addr)
      (val : r.val = slot (key, new)) (exact : r.exact = true)
  | failed (e : Entry V) (mem : e ∈ l) (meets : key.meets e.1 = true) (contains : e.1.contains key = false)
      (map : r.map = l) (val : r.val = invalid) (conflict : r.conflict = some e.1)

theorem meets_of_contains {c : MemoryChunk} (hpos : 0 < key.len) (h : c.contains key = true) :
    key.meets c = true := by
  rw [MemoryChunk.contains_iff] at h
  simp only [MemoryChunk.meets_eq_true, MemoryChunk.stop] at h ⊢
  omega

/-- No other entry meets an interval that an entry contains. -/
theorem eq_of_contains_of_meets (hl : Laid l) {e' : Entry V} (he : e ∈ l) (he' : e' ∈ l)
    (h : e.1.contains key = true) (h' : key.meets e'.1 = true) : e = e' := by
  have hlt := hl.addr_lt_stop he
  rw [MemoryChunk.contains_iff] at h
  rw [MemoryChunk.meets_eq_true] at h'
  rcases hl.before_or_behind he he' with heq | hle | hle
  · exact heq
  · omega
  · omega

/-- The comparison with the entry before the place of the key, when no entry behind it meets the key. -/
theorem outcome_of_previous {slot : Entry V → β} {invalid : β} {new : Option V} {failed : Bool}
    {p : Entry V} (hl : Laid l) (hpos : 0 < key.len) (hp : (below l key.addr).getLast? = some p)
    (hrest : ∀ e ∈ lowerBound l key.addr, key.stop ≤ e.1.addr) :
    Outcome slot invalid new l key
      (if p.1.checkOverlap key = .noOverlap then
        { map := insertEntry l key new, val := slot (key, new), exact := true }
      else if (p.1.checkOverlap key).isSubchunk then { map := l, val := slot p, exact := false }
      else { map := l, val := invalid, exact := failed, conflict := some p.1 }) := by
  have hpbelow : p ∈ below l key.addr := List.mem_of_getLast? hp
  have hpmem : p ∈ l := (mem_iff_below_or_lowerBound l key.addr).2 (.inl hpbelow)
  have hlt := MemoryMapUint64.lt_of_mem_below hpbelow
  have hlen := hl.nonempty p hpmem
  split
  · next hno =>
    rw [checkOverlap_eq_noOverlap_iff hlen hpos] at hno
    refine .added (fun e he => ?_) (insertEntry_eq new ?_) rfl rfl
    · rcases (mem_iff_below_or_lowerBound l key.addr).1 he with hb | hb
      · by_contra hmeets
        have heq := getLast?_of_meets hl hb (by simpa using hmeets)
        rw [hp, Option.some.injEq] at heq
        exact hmeets (heq ▸ hno)
      · exact MemoryChunk.meets_eq_false.2 (.inl (hrest e hb))
    · intro it hit
      have := hrest it (List.mem_of_mem_head? hit)
      simp only [MemoryChunk.stop] at this
      omega
  · next hov =>
    rw [checkOverlap_eq_noOverlap_iff hlen hpos, Bool.not_eq_false] at hov
    split
    · next hsub =>
      rw [isSubchunk_checkOverlap_iff hlen hpos] at hsub
      refine .found p hpmem hsub rfl rfl (decide_eq_false fun heq => ?_).symm
      rw [heq] at hlt
      exact lt_irrefl _ hlt
    · next hsub =>
      rw [isSubchunk_checkOverlap_iff hlen hpos, Bool.not_eq_true] at hsub
      exact .failed p hpmem hov hsub rfl rfl rfl

theorem exactOrFullyOverlapping_outcome (slot : Entry V → β) (invalid : β) (new : Option V) (failed : Bool)
    (hl : Laid l) (hpos : 0 < key.len) :
    Outcome slot invalid new l key (exactOrFullyOverlapping slot invalid new failed l key) := by
  unfold exactOrFullyOverlapping
  cases hlb : lowerBound l key.addr with
  | nil =>
    have hlast := below_eq_self hlb
    cases hgl : l.getLast? with
    | none =>
      rw [List.getLast?_eq_none_iff] at hgl
      subst hgl
      exact .added (fun e he => by cases he) (insertEntry_eq new (by rw [hlb]; simp)) rfl rfl
    | some last =>
      exact outcome_of_previous hl hpos (by rwa [hlast]) (by rw [hlb]; simp)
  | cons it rest =>
    obtain ⟨hit, hlen, hge, hstop⟩ := first_behind hl hlb
    dsimp only
    split
    · next hlt =>
      split
      · next hno =>
        rw [checkOverlap_eq_noOverlap_iff hlen hpos, MemoryChunk.meets_eq_false] at hno
        have hrest : ∀ e ∈ lowerBound l key.addr, key.stop ≤ e.1.addr := by
          intro e he
          have := addr_le_of_lowerBound hl hlb he
          omega
        cases hgl : (below l key.addr).getLast? with
        | none =>
          rw [List.getLast?_eq_none_iff] at hgl
          refine .added (fun e he => ?_) (insertEntry_eq new (by rw [hlb]; rintro _ ⟨⟩; exact hlt)) rfl rfl
          rcases (mem_iff_below_or_lowerBound l key.addr).1 he with hb | hb
          · rw [hgl] at hb
            cases hb
          · exact MemoryChunk.meets_eq_false.2 (.inl (hrest e hb))
        | some last => exact outcome_of_previous hl hpos hgl hrest
      · next hov =>
        rw [checkOverlap_eq_noOverlap_iff hlen hpos, Bool.not_eq_false] at hov
        refine .failed it hit hov ?_ rfl rfl rfl
        rw [← Bool.not_eq_true, MemoryChunk.contains_iff]
        omega
    · next hlt =>
      have haddr : it.1.addr = key.addr := by omega
      split
      · next hne =>
        have hexact : it.1 ≠ key := fun heq => hne (by rw [heq])
        split
        · next hsub =>
          rw [isSubchunk_checkOverlap_iff hlen hpos] at hsub
          exact .found it hit hsub rfl rfl (decide_eq_false hexact).symm
        · next hsub =>
          rw [isSubchunk_checkOverlap_iff hlen hpos, Bool.not_eq_true] at hsub
          refine .failed it hit (MemoryChunk.meets_eq_true.2 ⟨?_, by omega⟩) hsub rfl rfl rfl
          simp only [MemoryChunk.stop]
          omega
      · next hlen' =>
        have hkey : it.1 = key := by
          obtain ⟨⟨addr, len⟩, v⟩ := it
          obtain ⟨addr', len'⟩ := key
          dsimp only at haddr hlen' ⊢
          rw [haddr, not_not.1 hlen']
        refine .found it hit (MemoryChunk.contains_iff.2 ?_) rfl rfl (decide_eq_true hkey).symm
        rw [hkey]
        exact ⟨le_refl _, le_refl _⟩

/-- Each outcome is the one that should be. -/
theorem Outcome.overlappingInsert {slot : Entry V → β} {invalid : β} {new : Option V} {r : Lookup V β}
    (h : Outcome slot invalid new l key r) (hl : Laid l) (hpos : 0 < key.len) :
    OverlappingInsert slot invalid new l key r := by
  cases h with
  | found e he hin hmap hval hexact =>
    refine ⟨fun e' he' hin' => ?_, fun hfree => ?_, fun ⟨e', he', hmeets, hout⟩ => ?_, hmap ▸ hl⟩
    · rw [← eq_of_contains_of_meets hl he he' hin (meets_of_contains hpos hin')]
      exact ⟨hmap, hval, hexact⟩
    · have hmeets := meets_of_contains hpos hin
      rw [hfree e he] at hmeets
      cases hmeets
    · rw [← eq_of_contains_of_meets hl he he' hin hmeets, hin] at hout
      cases hout
  | added hfree hmap hval hexact =>
    refine ⟨fun e he hin => ?_, fun _ => ⟨hmap, hval, hexact⟩, fun ⟨e, he, hmeets, _⟩ => ?_,
      hmap ▸ (laid_insert_iff hl hpos new).2 hfree⟩
    · have hmeets := meets_of_contains hpos hin
      rw [hfree e he] at hmeets
      cases hmeets
    · rw [hfree e he] at hmeets
      cases hmeets
  | failed e he hmeets hout hmap hval _ =>
    refine ⟨fun e' he' hin => ?_, fun hfree => ?_, fun _ => ⟨hmap, hval⟩, hmap ▸ hl⟩
    · rw [← eq_of_contains_of_meets hl he' he hin hmeets, hin] at hout
      cases hout
    · rw [hfree e he] at hmeets
      cases hmeets

/-- The pointer of the one version is the one to the number that the other returns, or the one is `NULL`
and the other the number for a failure. -/
structure VersionsAgree (valIfNotValid : Option V) (g : Lookup V (Option MemoryChunk))
    (u : Lookup V (Option V)) : Prop where
  found : ∀ k, g.val = some k → (∃ v, (k, v) ∈ u.map ∧ u.val = v) ∧ u.exact = g.exact
  failed : g.val = none → u.val = valIfNotValid
  keys : g.map.map Prod.fst = u.map.map Prod.fst

theorem versionsAgree (hl : Laid l) (hpos : 0 < key.len) (exact : Bool)
    (valIfNotFound valIfNotValid : Option V) :
    VersionsAgree valIfNotValid (getExactOrFullyOverlappingInsertIfNotFound l key exact)
      (MemoryMapUint64.getExactOrFullyOverlappingInsertIfNotFound l key valIfNotFound valIfNotValid) := by
  have hg := exactOrFullyOverlapping_outcome (fun e => some e.1) none (none : Option V) exact hl hpos
  have hu := (exactOrFullyOverlapping_outcome (fun e => e.2) valIfNotValid valIfNotFound false hl
    hpos).overlappingInsert hl hpos
  rw [getExactOrFullyOverlappingInsertIfNotFound, MemoryMapUint64.getExactOrFullyOverlappingInsertIfNotFound]
  cases hg with
  | found e he hin hmap hval hexact =>
    obtain ⟨hmap', hval', hexact'⟩ := hu.found e he hin
    refine ⟨fun k hk => ⟨⟨e.2, ?_, hval'⟩, hexact'.trans hexact.symm⟩, fun hk => ?_, by rw [hmap, hmap']⟩
    · cases hval.symm.trans hk
      exact hmap'.symm ▸ he
    · cases hval.symm.trans hk
  | added hfree hmap hval hexact =>
    obtain ⟨hmap', hval', hexact'⟩ := hu.added hfree
    refine ⟨fun k hk => ⟨⟨valIfNotFound, ?_, hval'⟩, hexact'.trans hexact.symm⟩, fun hk => ?_, ?_⟩
    · cases hval.symm.trans hk
      rw [hmap']
      exact List.mem_append_right _ List.mem_cons_self
    · cases hval.symm.trans hk
    · rw [hmap, hmap', List.map_append, List.map_append]
      rfl
  | failed e he hmeets hout hmap hval _ =>
    obtain ⟨hmap', hval'⟩ := hu.failed ⟨e, he, hmeets, hout⟩
    exact ⟨fun k hk => (by cases hval.symm.trans hk), fun _ => hval', by rw [hmap, hmap']⟩

/-- **Both versions of `getExactOrFullyOverlappingInsertIfNotFound` find, insert or fail as they should, and
they agree.** -/
theorem getExactOrFullyOverlapping_right (hl : Laid l) (hpos : 0 < key.len) (exact : Bool)
    (valIfNotFound valIfNotValid : Option V) :
    OverlappingInsert (fun e => some e.1) none none l key
      (getExactOrFullyOverlappingInsertIfNotFound l key exact) ∧
    OverlappingInsert (fun e => e.2) valIfNotValid valIfNotFound l key
      (MemoryMapUint64.getExactOrFullyOverlappingInsertIfNotFound l key valIfNotFound valIfNotValid) ∧
    VersionsAgree valIfNotValid (getExactOrFullyOverlappingInsertIfNotFound l key exact)
      (MemoryMapUint64.getExactOrFullyOverlappingInsertIfNotFound l key valIfNotFound valIfNotValid) := by
  have hg := (exactOrFullyOverlapping_outcome (fun e => some e.1) none (none : Option V) exact hl
    hpos).overlappingInsert hl hpos
  exact ⟨⟨hg.found, hg.added, hg.failed, hg.laid⟩,
    (exactOrFullyOverlapping_outcome _ _ _ _ hl hpos).overlappingInsert hl hpos,
    versionsAgree hl hpos exact valIfNotFound valIfNotValid⟩

/-- A request inside the first object gets its value. -/
theorem getExactOrFullyOverlapping_right_object :
    OverlappingInsert (fun e => e.2) (some 0) (some 3) twoObjects ⟨2, 5⟩
      (MemoryMapUint64.getExactOrFullyOverlappingInsertIfNotFound twoObjects ⟨2, 5⟩ (some 3) (some 0)) ∧
    (MemoryMapUint64.getExactOrFullyOverlappingInsertIfNotFound twoObjects ⟨2, 5⟩ (some 3) (some 0)).val =
      some 1 :=
  ⟨(getExactOrFullyOverlapping_right laid_twoObjects (by decide) false (some 3) (some 0)).2.1, rfl⟩

end

end OmpSs.Support
