import OmpSs.Deps.CRegions

/-!
# What a lookup finds

The tables hold the range of every status in the table of its size, and the cache knows which of the big
ranges a range overlaps among those that it has been compared with (`Tables`). So a lookup gives the statuses
of all ranges that share a byte with its own (`lookupDependency_spec`), if the address of its range was not
used with another size before, and if the search bounds of the maps do not pass below 0 (`Found`).
-/

namespace OmpSs.Deps

namespace DepsRegion

/-- The byte at `x` is in the range. -/
def Contains (r : DepsRegion) (x : Nat) : Prop := r.address ≤ x ∧ x ≤ r.endAddress

/-- The last address is one of the address space. -/
def Fits (r : DepsRegion) : Prop := r.endAddress < 2 ^ 64

variable {r obj : DepsRegion} {x : Nat}

theorem overlap_iff : r.overlap obj = true ↔ r.address ≤ obj.endAddress ∧ obj.address ≤ r.endAddress := by
  simp [overlap]

theorem overlap_of_contains (hr : r.Contains x) (hobj : obj.Contains x) : r.overlap obj = true :=
  overlap_iff.2 ⟨hr.1.trans hobj.2, hobj.1.trans hr.2⟩

theorem getSize_of_contains (hr : r.Contains x) (hend : r.Fits) :
    r.getSize = r.endAddress - r.address := by
  obtain ⟨h₁, h₂⟩ := hr
  unfold Fits at hend
  have heq : r.endAddress + 2 ^ 64 - r.address = r.endAddress - r.address + 2 ^ 64 := by omega
  rw [getSize, heq, Nat.add_mod_right, Nat.mod_eq_of_lt (by omega)]

end DepsRegion

namespace CRegionsMap

open Lib

/-- The range that the status of an address was made for. -/
def range (m : CRegionsMap) (a : Nat) : Option DepsRegion := (m.addressDependencyCache.find? a).map (·.1)

/-- A range lies in the table of its size. -/
structure Holds (m : CRegionsMap) (r : DepsRegion) : Prop where
  small : r.getSize ≤ sizeThresholdSmall → (r.address, r) ∈ m.addressDependencySmall.entries
  mid : sizeThresholdSmall < r.getSize → r.getSize ≤ sizeThresholdMid →
    (r.address, r) ∈ m.addressDependencyMid.entries
  big : sizeThresholdMid < r.getSize → r ∈ m.addressDependencyVector

/-- What the cache knows of a range: its own status comes first, and the big ranges that it overlaps are
there as far as the vector has been looked through. -/
structure Cached (vector : List DepsRegion) (r : DepsRegion) (item : CRegionsPair) : Prop where
  own : ∃ l, item.trackableObjs = r.address :: l
  itNum : item.itNum ≤ vector.length
  seen : ∀ big ∈ vector.take item.itNum, big.overlap r = true → big.address ≠ r.address →
    big.address ∈ item.trackableObjs

/-- The invariant of the tables. -/
structure Tables (m : CRegionsMap) : Prop where
  key : ∀ e ∈ m.addressDependencyCache.entries, e.2.1.address = e.1 ∧ e.2.1.Fits
  holds : ∀ e ∈ m.addressDependencyCache.entries, m.Holds e.2.1
  cached : ∀ e ∈ m.addressDependencyCache.entries, Cached m.addressDependencyVector e.2.1 e.2.2
  fresh : ∀ a, m.range a = none → m.trackable a = {}

/-- A lookup of the range is not misled: the address was not used with another size, and the bounds of the
searches pass below 0 only where there is nothing to find. -/
def Found (m : CRegionsMap) (target : DepsRegion) : Prop :=
  (∀ e ∈ m.addressDependencyCache.entries, e.1 = target.address → e.2.1 = target) ∧
  (target.address ≤ sizeThresholdSmall → ∀ e ∈ m.addressDependencySmall.entries,
    e.1 ≠ target.address → e.2.overlap target = false) ∧
  (target.address ≤ sizeThresholdMid → ∀ e ∈ m.addressDependencyMid.entries,
    e.1 ≠ target.address → e.2.overlap target = false)

instance (m : CRegionsMap) (target : DepsRegion) : Decidable (m.Found target) :=
  inferInstanceAs (Decidable (_ ∧ _ ∧ _))

section
variable {m : CRegionsMap} {target r : DepsRegion} {a k x : Nat} {item : CRegionsPair}

theorem range_eq_some (h : m.Tables) : m.range k = some r ↔
    r.address = k ∧ ∃ item, (k, r, item) ∈ m.addressDependencyCache.entries := by
  unfold range
  rw [Option.map_eq_some_iff]
  constructor
  · rintro ⟨⟨r, item⟩, hfind, rfl⟩
    have hmem := SortedMap.find?_eq_some_iff.1 hfind
    exact ⟨(h.key _ hmem).1, item, hmem⟩
  · rintro ⟨-, item, hmem⟩
    exact ⟨_, SortedMap.find?_eq_some_iff.2 hmem, rfl⟩

/-- The search of a map finds the ranges that share a byte with the target and are not greater than the
ranges of the map. -/
theorem mem_overlapping {entries : SortedMap Nat DepsRegion} {sizeThreshold : Nat}
    (hlow : sizeThreshold < target.address) (haddr : target.address < 2 ^ 64)
    (hr : (r.address, r) ∈ entries.entries) (hend : r.Fits)
    (hsize : r.getSize ≤ sizeThreshold) (hx : r.Contains x) (hxt : target.Contains x) :
    r.address ∈ overlapping entries sizeThreshold target := by
  rw [DepsRegion.getSize_of_contains hx hend] at hsize
  obtain ⟨h₁, h₂⟩ := hx
  obtain ⟨h₃, h₄⟩ := hxt
  have hstart : (target.address + 2 ^ 64 - (sizeThreshold + 1)) % 2 ^ 64 =
      target.address - (sizeThreshold + 1) := by
    have heq : target.address + 2 ^ 64 - (sizeThreshold + 1) =
        target.address - (sizeThreshold + 1) + 2 ^ 64 := by omega
    rw [heq, Nat.add_mod_right, Nat.mod_eq_of_lt (by omega)]
  refine List.mem_map.2 ⟨(r.address, r), List.mem_filter.2 ⟨SortedMap.mem_visited hr ?_ ?_, ?_⟩, rfl⟩
  · rw [hstart]
    show target.address - (sizeThreshold + 1) ≤ r.address
    omega
  · exact h₁.trans h₄
  · exact DepsRegion.overlap_of_contains ⟨h₁, h₂⟩ ⟨h₃, h₄⟩

/-! ## One lookup -/

/-- What the cache has for a range, before or after the range is entered. -/
theorem exists_cached (h : m.Tables) (hfound : m.Found target) :
    ∃ item, (m.addressDependencyCache.find? target.address).getD (target, ⟨[target.address], 0⟩) =
      (target, item) ∧ Cached m.addressDependencyVector target item := by
  cases hfind : m.addressDependencyCache.find? target.address with
  | none => exact ⟨_, rfl, ⟨[], rfl⟩, Nat.zero_le _, nofun⟩
  | some v =>
    obtain ⟨key, item⟩ := v
    have hmem := SortedMap.find?_eq_some_iff.1 hfind
    obtain rfl : key = target := hfound.1 _ hmem rfl
    exact ⟨item, rfl, h.cached _ hmem⟩

/-- The table of the ranges up to a size, with the range if it is new and has such a size. -/
theorem mem_entered {entries : SortedMap Nat DepsRegion} {new : Bool} {e : Nat × DepsRegion}
    (he : e ∈ entries.entries) (hne : new = true → e.1 ≠ target.address) :
    e ∈ (if new then entries.insert target.address target else entries).entries := by
  split
  · next hnew => exact SortedMap.mem_insert.2 (.inr ⟨he, hne hnew⟩)
  · exact he

/-- The tables after a lookup hold what they held, and the range. -/
theorem holds_lookupDependency (hr : m.Holds r)
    (hne : m.addressDependencyCache.find? target.address = none → r.address ≠ target.address) :
    (m.lookupDependency target).2.Holds r := by
  have hnew : ∀ {b : Bool}, ((m.addressDependencyCache.find? target.address).isNone && b) = true →
      r.address ≠ target.address := fun hb => hne (Option.isNone_iff_eq_none.1 (Bool.and_eq_true_iff.1 hb).1)
  refine ⟨fun hs => mem_entered (hr.small hs) hnew, fun hs hm => ?_, fun hb => ?_⟩
  · refine mem_entered (hr.mid hs hm) fun hb => ?_
    rw [Bool.and_assoc] at hb
    exact hnew hb
  · show r ∈ ite _ _ _
    split
    · exact List.mem_append_left _ (hr.big hb)
    · exact hr.big hb

theorem holds_target (h : m.Tables) (hfound : m.Found target) :
    (m.lookupDependency target).2.Holds target := by
  cases hfind : m.addressDependencyCache.find? target.address with
  | some v =>
    have hmem := SortedMap.find?_eq_some_iff.1 hfind
    have hkey : v.1 = target := hfound.1 _ hmem rfl
    refine holds_lookupDependency (hkey ▸ h.holds _ hmem) fun hnone => ?_
    rw [hfind] at hnone
    cases hnone
  | none =>
    refine ⟨fun hs => ?_, fun hs hm => ?_, fun hb => ?_⟩
    · show _ ∈ (ite _ _ _ : SortedMap Nat DepsRegion).entries
      rw [hfind, if_pos (by simpa using hs)]
      exact SortedMap.mem_insert.2 (.inl rfl)
    · show _ ∈ (ite _ _ _ : SortedMap Nat DepsRegion).entries
      rw [hfind, if_pos (by simpa using ⟨hs, hm⟩)]
      exact SortedMap.mem_insert.2 (.inl rfl)
    · show target ∈ ite _ _ _
      rw [hfind, if_pos (by simpa using hb)]
      exact List.mem_append_right _ List.mem_cons_self

/-- The vector after a lookup. -/
theorem addressDependencyVector_lookupDependency (m : CRegionsMap) (target : DepsRegion) :
    (m.lookupDependency target).2.addressDependencyVector = m.addressDependencyVector ∨
      m.addressDependencyCache.find? target.address = none ∧
        (m.lookupDependency target).2.addressDependencyVector = m.addressDependencyVector ++ [target] := by
  show ite _ _ _ = _ ∨ _ ∧ ite _ _ _ = _
  split
  · next hnew => exact .inr ⟨Option.isNone_iff_eq_none.1 (Bool.and_eq_true_iff.1 hnew).1, rfl⟩
  · exact .inl rfl

/-- The big ranges that a lookup adds to those that the cache has. -/
def unseen (m : CRegionsMap) (target : DepsRegion) (item : CRegionsPair) : List Nat :=
  ((m.addressDependencyVector.drop item.itNum).filter (·.overlap target)).map (·.address)

/-- The result of a lookup and the cache after it. -/
theorem lookupDependency_eq
    (hitem : (m.addressDependencyCache.find? target.address).getD (target, ⟨[target.address], 0⟩) =
      (target, item)) :
    (m.lookupDependency target).1 = item.trackableObjs ++ m.unseen target item ++
        overlapping (m.lookupDependency target).2.addressDependencySmall sizeThresholdSmall target ++
        overlapping (m.lookupDependency target).2.addressDependencyMid sizeThresholdMid target ∧
      (m.lookupDependency target).2.addressDependencyCache = m.addressDependencyCache.insert target.address
        (target, ⟨item.trackableObjs ++ m.unseen target item,
          (m.lookupDependency target).2.addressDependencyVector.length⟩) := by
  unfold lookupDependency
  simp only [hitem]
  exact ⟨rfl, rfl⟩

/-- The big ranges that overlap the target are among those that the cache had and those that are added. -/
theorem mem_unseen (hcached : Cached m.addressDependencyVector target item)
    (hr : r ∈ m.addressDependencyVector) (hover : r.overlap target = true)
    (hne : r.address ≠ target.address) : r.address ∈ item.trackableObjs ++ m.unseen target item := by
  rw [← List.take_append_drop item.itNum m.addressDependencyVector] at hr
  rcases List.mem_append.1 hr with hr | hr
  · exact List.mem_append_left _ (hcached.seen r hr hover hne)
  · exact List.mem_append_right _ (List.mem_map_of_mem (List.mem_filter.2 ⟨hr, hover⟩))

/-- The cache entry of the target after the lookup. -/
theorem cached_target (hcached : Cached m.addressDependencyVector target item) :
    Cached (m.lookupDependency target).2.addressDependencyVector target
      ⟨item.trackableObjs ++ m.unseen target item,
        (m.lookupDependency target).2.addressDependencyVector.length⟩ := by
  obtain ⟨l, hl⟩ := hcached.own
  refine ⟨⟨l ++ m.unseen target item, by simp only [hl, List.cons_append]⟩, le_refl _,
    fun big hbig hover hne => ?_⟩
  rw [List.take_length] at hbig
  rcases addressDependencyVector_lookupDependency m target with hvector | ⟨-, hvector⟩
  · rw [hvector] at hbig
    exact mem_unseen hcached hbig hover hne
  · rw [hvector] at hbig
    rcases List.mem_append.1 hbig with hbig | hbig
    · exact mem_unseen hcached hbig hover hne
    · rw [List.mem_singleton.1 hbig] at hne
      exact absurd rfl hne

/-- The other cache entries after the lookup. -/
theorem cached_lookupDependency (hcached : Cached m.addressDependencyVector r item) :
    Cached (m.lookupDependency target).2.addressDependencyVector r item := by
  rcases addressDependencyVector_lookupDependency m target with hvector | ⟨-, hvector⟩
  · rw [hvector]
    exact hcached
  · rw [hvector]
    refine ⟨hcached.own, hcached.itNum.trans (by simp), fun big hbig => hcached.seen big ?_⟩
    rwa [List.take_append_of_le_length hcached.itNum] at hbig

/-- The statuses after a lookup: a new range gets an empty one, which is what it had. -/
theorem trackable_lookupDependency (h : m.Tables) (a : Nat) :
    (m.lookupDependency target).2.trackable a = m.trackable a := by
  show (ite _ _ _ : Nat → TrackableObject) a = m.trackable a
  split
  · next hnew =>
    dsimp only
    by_cases ha : a = target.address
    · rw [if_pos ha, h.fresh a]
      rw [range, ha, Option.isNone_iff_eq_none.1 hnew]
      rfl
    · rw [if_neg ha]
  · rfl

/-- **One lookup.** The status of the range comes first, and the statuses of all ranges that share a byte
with it follow. -/
theorem lookupDependency_spec (h : m.Tables) (haddr : target.address < 2 ^ 64) (hfits : target.Fits)
    (hfound : m.Found target) :
    ∃ others, (m.lookupDependency target).1 = target.address :: others ∧
      (m.lookupDependency target).2.Tables ∧
      (∀ k, (m.lookupDependency target).2.range k = if k = target.address then some target else m.range k) ∧
      ∀ k r x, m.range k = some r → k ≠ target.address → r.Contains x → target.Contains x → k ∈ others := by
  obtain ⟨item, hitem, hcached⟩ := exists_cached h hfound
  obtain ⟨hobjs, hcache⟩ := lookupDependency_eq hitem
  obtain ⟨l, hl⟩ := hcached.own
  have hentry : ∀ e ∈ (m.lookupDependency target).2.addressDependencyCache.entries,
      e = (target.address, target, ⟨item.trackableObjs ++ m.unseen target item,
          (m.lookupDependency target).2.addressDependencyVector.length⟩) ∨
        e ∈ m.addressDependencyCache.entries ∧ e.1 ≠ target.address := by
    intro e he
    rw [hcache] at he
    exact SortedMap.mem_insert.1 he
  have hholds : ∀ e ∈ m.addressDependencyCache.entries, (m.lookupDependency target).2.Holds e.2.1 :=
    fun e he => holds_lookupDependency (h.holds e he) fun hnone heq => by
      rw [(h.key e he).1] at heq
      exact SortedMap.find?_eq_none_iff.1 hnone e.2 (heq ▸ he)
  have hrange : ∀ k, (m.lookupDependency target).2.range k =
      if k = target.address then some target else m.range k := by
    intro k
    unfold range
    rw [hcache, SortedMap.find?_insert]
    split <;> rfl
  refine ⟨_, by rw [hobjs, hl]; rfl, ⟨?_, ?_, ?_, ?_⟩, hrange, ?_⟩
  · intro e he
    rcases hentry e he with rfl | ⟨he, -⟩
    · exact ⟨rfl, hfits⟩
    · exact h.key e he
  · intro e he
    rcases hentry e he with rfl | ⟨he, -⟩
    · exact holds_target h hfound
    · exact hholds e he
  · intro e he
    rcases hentry e he with rfl | ⟨he, -⟩
    · exact cached_target hcached
    · exact cached_lookupDependency (h.cached e he)
  · intro a ha
    rw [hrange] at ha
    split at ha
    · cases ha
    · rw [trackable_lookupDependency h]
      exact h.fresh a ha
  · intro k r x hk hne hx hxt
    obtain ⟨rfl, item', hmem⟩ := (range_eq_some h).1 hk
    have hold := h.holds _ hmem
    have hnew := hholds _ hmem
    have hfits' := (h.key _ hmem).2
    have hover := DepsRegion.overlap_of_contains hx hxt
    rcases le_or_gt r.getSize sizeThresholdSmall with hs | hs
    · refine List.mem_append_left _ (List.mem_append_right _ ?_)
      rcases le_or_gt target.address sizeThresholdSmall with hlow | hlow
      · rw [hfound.2.1 hlow _ (hold.small hs) hne] at hover
        cases hover
      · exact mem_overlapping hlow haddr (hnew.small hs) hfits' hs hx hxt
    · rcases le_or_gt r.getSize sizeThresholdMid with hm | hb
      · refine List.mem_append_right _ ?_
        rcases le_or_gt target.address sizeThresholdMid with hlow | hlow
        · rw [hfound.2.2 hlow _ (hold.mid hs hm) hne] at hover
          cases hover
        · exact mem_overlapping hlow haddr (hnew.mid hs hm) hfits' hm hx hxt
      · have hobj := mem_unseen hcached (hold.big hb) hover hne
        rw [hl] at hobj
        exact List.mem_append_left _ (List.mem_append_left _ (List.mem_of_ne_of_mem hne hobj))

end

end CRegionsMap

end OmpSs.Deps
