import OmpSs.Core.GlobalReg
import Mathlib.Tactic.Linarith
import Mathlib.Tactic.Ring

/-!
# The region cache of a device

`RegionCache` (`nanox-mx/src/core/regioncache.cpp`) keeps the device copies of host data: a map from host
intervals to chunks (`_chunks`), each chunk an interval of device memory with a count of the tasks that
use it. A task names its data by a list of copies, several of which may be of one region.
`prepareRegions` finds or allocates a chunk for every distinct region and takes one reference on it,
`allocateTaskMemory` gives the repeating copies a chunk and takes one reference more for each, and
`releaseRegions` drops one reference for each distinct region.

What the device's allocator answers, which locks are free and whether `invalidate` finds chunks to evict
is a parameter (`Host`). Evicting itself is left out: where the source starts an invalidation the
functions return `none`, as where it ends with `fatal`.
-/

namespace OmpSs.Core

open Support

/-! ## The program -/

/-- Source: `AllocatedChunk` (`regioncache_decl.hpp:44`). -/
structure AllocatedChunk where
  address : Nat
  hostAddress : Nat
  size : Nat
  refs : Int := 0
deriving DecidableEq

/-- The host interval of a chunk. -/
def AllocatedChunk.hostInterval (a : AllocatedChunk) : MemoryChunk := ⟨a.hostAddress, a.size⟩

/-- What an entry of the map can point to besides `NULL`: the marks `-1` (being invalidated) and `-2`
(kept for a task that waits for an invalidation), and a chunk. -/
inductive ChunkPtr
  | invalidated
  | reserved
  | chunk (p : Nat)
deriving DecidableEq

/-- The chunk map, the chunk objects (a pointer is an index), the bytes allocated on the device, and how
often a reference was removed from a chunk that had none. Source: `RegionCache`
(`regioncache_decl.hpp:116`). -/
structure RegionCache where
  chunks : MemoryMap ChunkPtr := .empty
  objects : List AllocatedChunk := []
  allocatedBytes : Nat := 0
  underflows : Nat := 0

/-- Source: `RegionCache::CachePolicy` (`regioncache_decl.hpp:118`). -/
inductive CachePolicy
  | writeBack
  | writeThrough
  | noCache
deriving DecidableEq

/-- Source: `MemCacheCopy` (`memcachecopy_decl.hpp:28`). The field `_allocFrom` is `-1` (`none`) or an
index. -/
structure MemCacheCopy where
  reg : GlobalReg
  chunk : Option Nat := none
  policy : CachePolicy := .writeBack
  allocFrom : Option Nat := none
deriving DecidableEq

/-- The device and the other threads, with a state `δ` of their own. -/
structure Host (δ : Type*) where
  /-- `Device::getMemCapacity`. -/
  memCapacity : Nat
  /-- `Device::memAllocate`, `none` for `NULL`. -/
  memAllocate : δ → Nat → Option Nat × δ
  /-- The cache's lock is free. -/
  tryAcquire : δ → Bool × δ
  /-- A chunk's lock is free. -/
  trylock : δ → Nat → Bool × δ
  /-- `RegionCache::invalidate` finds chunks to evict. -/
  invalidate : δ → Nat → Bool × δ

namespace RegionCache

section
variable {δ : Type*} (host : Host δ) (shape : GlobalReg → Shape)

/-- Source: `AllocatedChunk::addReference` (`regioncache.hpp:46`). -/
def addReference (c : RegionCache) (p : Nat) : RegionCache :=
  { c with objects := c.objects.modify p fun a => { a with refs := a.refs + 1 } }

/-- The count of references of a chunk. Source: `AllocatedChunk::getReferenceCount`
(`regioncache.hpp:75`). -/
def getReferenceCount (c : RegionCache) (p : Nat) : Int :=
  match c.objects[p]? with
  | none => 0
  | some a => a.refs

/-- Source: `AllocatedChunk::removeReference` (`regioncache.hpp:53`). -/
def removeReference (c : RegionCache) (p : Nat) : RegionCache :=
  { c with
    objects := c.objects.modify p fun a => { a with refs := a.refs - 1 }
    underflows := if c.getReferenceCount p = 0 then c.underflows + 1 else c.underflows }

/-- A new chunk for the entry `k` of the map. -/
def newChunk (c : RegionCache) (k : MemoryChunk) (deviceMem allocSize : Nat) : RegionCache :=
  { c with
    chunks := c.chunks.assign k (some (.chunk c.objects.length))
    objects := c.objects ++ [{ address := deviceMem, hostAddress := k.addr, size := k.len }]
    allocatedBytes := c.allocatedBytes + allocSize }

/-- What the search for a region's chunk ends with. -/
inductive Found
  /-- A chunk, of before or new. -/
  | chunk (p : Nat)
  /-- The device has no memory for a new chunk. -/
  | exhausted
  /-- The entry is being invalidated, or its chunk is too small. -/
  | busy
  /-- The request meets several entries. -/
  | split
deriving DecidableEq

/-- The search that `tryGetAddress` and `getOrCreateChunk` start with. Source: `regioncache.cpp:1010`,
`:1165`. -/
def findChunk (s : Shape) (c : RegionCache) (d : δ) : Found × RegionCache × δ :=
  let results := c.chunks.getOrAddChunkDoNotFragment s.dataChunk s.dataChunk_pos
  let c' := { c with chunks := results.1 }
  match results.2 with
  | [k] =>
    match results.1.valueOf k with
    | none =>
      match host.memAllocate d s.getDataSize with
      | (some deviceMem, d') =>
        (.chunk c.objects.length, c'.newChunk k deviceMem s.getDataSize, d')
      | (none, d') => (.exhausted, c', d')
    | some (.chunk p) =>
      if k.addr ≤ s.getRealFirstAddress ∧
          k.len + k.addr ≥ s.getRealFirstAddress + s.getDataSize then (.chunk p, c', d)
      else (.busy, c', d)
    | some .invalidated | some .reserved => (.busy, c', d)
  | _ => (.split, c', d)

/-- A chunk with a reference for the task, or `NULL`. Source: `RegionCache::tryGetAddress`
(`regioncache.cpp:998`). -/
def tryGetAddress (s : Shape) (c : RegionCache) (d : δ) : Option (Option Nat × RegionCache × δ) :=
  match findChunk host s c d with
  | (.split, _, _) => none
  | (.chunk p, c', d') =>
    match host.trylock d' p with
    | (true, d'') => some (some p, c'.addReference p, d'')
    | (false, d'') => some (none, c', d'')
  | (.exhausted, c', d') | (.busy, c', d') => some (none, c', d')

/-- Source: `RegionCache::getOrCreateChunk` (`regioncache.cpp:1155`). -/
def getOrCreateChunk (s : Shape) (c : RegionCache) (d : δ) :
    Option (Option Nat × RegionCache × δ) :=
  match findChunk host s c d with
  | (.chunk p, c', d') => some (some p, c'.addReference p, d')
  | (.exhausted, c', d') =>
    match host.invalidate d' s.getDataSize with
    | (true, _) => none
    | (false, d'') => some (none, c', d'')
  | (.busy, c', d') | (.split, c', d') => some (none, c', d')

/-- The first loop of `prepareRegions`: the distinct regions in the order of their first copies, and in
every repeating copy the index, in that order, of the first region that `!=` does not tell from the
copy's. Source: `regioncache.cpp:1684`. -/
def compact (regions : List GlobalReg) : List MemCacheCopy → List GlobalReg × List MemCacheCopy
  | [] => (regions, [])
  | m :: ms =>
    if m.reg ∈ regions then
      let allocIdx := regions.findIdx fun r => !r.differs m.reg
      let r := compact regions ms
      (r.1, { m with allocFrom := some allocIdx } :: r.2)
    else
      let r := compact (regions ++ [m.reg]) ms
      (r.1, { m with allocFrom := none } :: r.2)

/-- The loop over the distinct regions (the copies whose `_allocFrom` is `-1`) that attempts to allocate
without invalidations. Source: `regioncache.cpp:1714`. -/
def tryAll : List MemCacheCopy → RegionCache → δ → Option (List MemCacheCopy × RegionCache × δ)
  | [], c, d => some ([], c, d)
  | m :: ms, c, d =>
    if m.allocFrom = none ∧ m.chunk = none then
      (tryGetAddress host (shape m.reg) c d).bind fun r =>
        (tryAll ms r.2.1 r.2.2).map fun r' => ({ m with chunk := r.1 } :: r'.1, r'.2)
    else (tryAll ms c d).map fun r => (m :: r.1, r.2)

/-- The loop over the distinct regions that still have no chunk, and whether all have one after it.
Source: `regioncache.cpp:1731`. -/
def createAll : List MemCacheCopy → RegionCache → δ →
    Option (Bool × List MemCacheCopy × RegionCache × δ)
  | [], c, d => some (true, [], c, d)
  | m :: ms, c, d =>
    if m.allocFrom = none ∧ m.chunk = none then
      (getOrCreateChunk host (shape m.reg) c d).bind fun r =>
        (createAll ms r.2.1 r.2.2).map fun r' =>
          (r.1.isSome && r'.1, { m with chunk := r.1 } :: r'.2.1, r'.2.2)
    else (createAll ms c d).map fun r => (r.1, m :: r.2.1, r.2.2)

/-- The chunks of a failed allocation are released. Source: `regioncache.cpp:1762`. -/
def rollback : List MemCacheCopy → RegionCache → List MemCacheCopy × RegionCache
  | [], c => ([], c)
  | m :: ms, c =>
    match m.allocFrom, m.chunk with
    | none, some p =>
      let r := rollback ms (c.removeReference p)
      ({ m with chunk := none } :: r.1, r.2)
    | _, _ =>
      let r := rollback ms c
      (m :: r.1, r.2)

/-- Source: `RegionCache::prepareRegions` (`regioncache.cpp:1678`). -/
def prepareRegions (copies : List MemCacheCopy) (c : RegionCache) (d : δ) :
    Option (Bool × List MemCacheCopy × RegionCache × δ) :=
  let r := compact [] copies
  if (r.1.map fun q => (shape q).getDataSize).sum ≤ host.memCapacity then
    match host.tryAcquire d with
    | (false, d') => some (false, r.2, c, d')
    | (true, d') =>
      (tryAll host shape r.2 c d').bind fun t =>
        (createAll host shape t.1 t.2.1 t.2.2).map fun q =>
          if q.1 then q
          else
            let b := rollback q.2.1 q.2.2.1
            (false, b.1, b.2, q.2.2.2)
  else none

/-- The chunk that holds a region. Source: `RegionCache::_getAllocatedChunk` (`regioncache.cpp:1268`). -/
def getAllocatedChunk (c : RegionCache) (s : Shape) : Option Nat :=
  match c.chunks.getChunk s.extent with
  | [(_, some (.chunk p))] => some p
  | _ => none

/-- Source: `RegionCache::releaseRegions` (`regioncache.cpp:1643`). -/
def releaseRegions (released : List GlobalReg) : List MemCacheCopy → RegionCache → Option RegionCache
  | [], c => some c
  | m :: ms, c =>
    if m.reg ∈ released then releaseRegions released ms c
    else
      (c.getAllocatedChunk (shape m.reg)).bind fun p =>
        let c' := c.removeReference p
        match c'.objects[p]? with
        | some a =>
          if a.refs = 0 ∧ m.policy = .noCache then
            releaseRegions (released ++ [m.reg]) ms
              { c' with
                chunks := c'.chunks.removeChunks a.hostInterval
                allocatedBytes := c'.allocatedBytes - a.size }
          else releaseRegions (released ++ [m.reg]) ms c'
        | none => none

end

end RegionCache

/-- The part of a task's memory controller that allocation uses. Source: `MemController`
(`memcontroller_decl.hpp:30`). -/
structure MemController where
  copies : List MemCacheCopy
  memoryAllocated : Bool := false
deriving DecidableEq

namespace MemController

open RegionCache

section
variable {δ : Type*} (host : Host δ) (shape : GlobalReg → Shape)

/-- The loop of `allocateTaskMemory` that gives every repeating copy the chunk of the copy at index
`_allocFrom`; `done` are the copies before the loop's index. Source: `memcontroller.cpp:291`. -/
def shareChunks (done : List MemCacheCopy) :
    List MemCacheCopy → RegionCache → Option (List MemCacheCopy × RegionCache)
  | [], c => some (done, c)
  | m :: ms, c =>
    match m.allocFrom with
    | none => shareChunks (done ++ [m]) ms c
    | some targetChunk =>
      match (done ++ m :: ms)[targetChunk]?.bind (·.chunk) with
      | none => none
      | some p => shareChunks (done ++ [{ m with chunk := some p }]) ms (c.addReference p)

/-- A task that runs on a device with a memory of its own. Source: `MemController::allocateTaskMemory`
(`memcontroller.cpp:226`). -/
def allocateTaskMemory (ctl : MemController) (c : RegionCache) (d : δ) :
    Option (Bool × MemController × RegionCache × δ) :=
  if ctl.memoryAllocated then some (true, ctl, c, d)
  else
    (prepareRegions host shape ctl.copies c d).bind fun r =>
      if r.1 then
        (shareChunks [] r.2.1 r.2.2.1).map fun q => (true, ⟨q.1, true⟩, q.2, r.2.2.2)
      else some (false, ⟨r.2.1, false⟩, r.2.2)

end

end MemController

/-! ## What the operations keep -/

namespace RegionCache

section
variable {c c' c'' : RegionCache} {k k' : MemoryChunk} {p q : Nat}

/-- The entry `k` of the map points to the chunk `p`. -/
def Holds (c : RegionCache) (k : MemoryChunk) (p : Nat) : Prop := (k, some (.chunk p)) ∈ c.chunks.entries

/-- `k` is an interval of the map. -/
def HasKey (c : RegionCache) (k : MemoryChunk) : Prop := ∃ v, (k, v) ∈ c.chunks.entries

/-- The chunk of an entry is an object with the entry's interval, and no two entries share one. -/
structure Sound (c : RegionCache) : Prop where
  object : ∀ k p, c.Holds k p → ∃ a, c.objects[p]? = some a ∧ a.hostInterval = k
  injective : ∀ k k' p, c.Holds k p → c.Holds k' p → k = k'

/-- The map keeps its intervals and its chunks; what is new lies in one of the intervals of `N`. -/
structure Grows (N : List MemoryChunk) (c c' : RegionCache) : Prop where
  holds : ∀ k p, c.Holds k p → c'.Holds k p
  keys : ∀ k, c.HasKey k → c'.HasKey k
  added : ∀ k, c'.HasKey k → c.HasKey k ∨ ∃ n ∈ N, n.contains k = true

theorem Grows.refl (N : List MemoryChunk) (c : RegionCache) : Grows N c c :=
  ⟨fun _ _ h => h, fun _ h => h, fun _ h => .inl h⟩

theorem Grows.trans {N : List MemoryChunk} (h : Grows N c c') (h' : Grows N c' c'') : Grows N c c'' where
  holds k p hk := h'.holds k p (h.holds k p hk)
  keys k hk := h'.keys k (h.keys k hk)
  added k hk := (h'.added k hk).elim (h.added k) .inr

theorem Grows.mono {N N' : List MemoryChunk} (h : Grows N c c') (hN : ∀ n ∈ N, n ∈ N') :
    Grows N' c c' where
  holds := h.holds
  keys := h.keys
  added k hk := (h.added k hk).imp_right fun ⟨n, hn, hin⟩ => ⟨n, hN n hn, hin⟩

theorem Holds.hasKey (h : c.Holds k p) : c.HasKey k := ⟨_, h⟩

/-- Two intervals of the map that contain a common nonempty one are one. -/
theorem HasKey.eq_of_contains {n : MemoryChunk} (h : c.HasKey k) (h' : c.HasKey k') (hn : 0 < n.len)
    (hk : k.contains n = true) (hk' : k'.contains n = true) : k = k' := by
  obtain ⟨v, hv⟩ := h
  obtain ⟨v', hv'⟩ := h'
  have hin : n.InChunk n.addr := ⟨le_refl _, by simp only [MemoryChunk.stop]; omega⟩
  have := MemoryMap.eq_of_inChunk hv hv' (MemoryChunk.contains_inChunk hk hin)
    (MemoryChunk.contains_inChunk hk' hin)
  exact congrArg Prod.fst this

/-! ### References -/

@[simp] theorem addReference_chunks (c : RegionCache) (p : Nat) : (c.addReference p).chunks = c.chunks := rfl

@[simp] theorem removeReference_chunks (c : RegionCache) (p : Nat) :
    (c.removeReference p).chunks = c.chunks := rfl

@[simp] theorem addReference_underflows (c : RegionCache) (p : Nat) :
    (c.addReference p).underflows = c.underflows := rfl

theorem getReferenceCount_eq (c : RegionCache) (p : Nat) :
    c.getReferenceCount p = (c.objects[p]?.map (·.refs)).getD 0 := by
  unfold getReferenceCount
  split <;> next h => simp [h]

theorem getReferenceCount_addReference (h : p < c.objects.length) :
    (c.addReference p).getReferenceCount q = c.getReferenceCount q + if q = p then 1 else 0 := by
  simp only [getReferenceCount_eq, addReference, List.getElem?_modify]
  rcases eq_or_ne p q with rfl | hne
  · simp [List.getElem?_eq_getElem h]
  · simp [hne, hne.symm]

theorem getReferenceCount_removeReference (h : p < c.objects.length) :
    (c.removeReference p).getReferenceCount q = c.getReferenceCount q - if q = p then 1 else 0 := by
  simp only [getReferenceCount_eq, removeReference, List.getElem?_modify]
  rcases eq_or_ne p q with rfl | hne
  · simp [List.getElem?_eq_getElem h]
  · simp [hne, hne.symm]

theorem removeReference_underflows (h : 0 < c.getReferenceCount p) :
    (c.removeReference p).underflows = c.underflows := by
  simp only [removeReference, if_neg (ne_of_gt h)]

theorem Sound.lt_length (h : c.Sound) (hk : c.Holds k p) : p < c.objects.length := by
  obtain ⟨a, ha, -⟩ := h.object k p hk
  exact (List.getElem?_eq_some_iff.1 ha).1

/-- Changing the count of a chunk keeps the cache sound. -/
theorem Sound.modify (h : c.Sound) (f : AllocatedChunk → AllocatedChunk)
    (hf : ∀ a, (f a).hostInterval = a.hostInterval) (hchunks : c'.chunks = c.chunks)
    (hobjects : c'.objects = c.objects.modify p f) : c'.Sound where
  object k q hk := by
    rw [Holds, hchunks] at hk
    obtain ⟨a, ha, hint⟩ := h.object k q hk
    rw [hobjects, List.getElem?_modify, ha]
    refine ⟨_, rfl, ?_⟩
    split
    · rw [hf, hint]
    · exact hint
  injective k k' q hk hk' := by
    rw [Holds, hchunks] at hk hk'
    exact h.injective k k' q hk hk'

theorem Sound.addReference (h : c.Sound) : (c.addReference p).Sound :=
  h.modify (p := p) (fun a => { a with refs := a.refs + 1 }) (fun _ => rfl) rfl rfl

theorem Sound.removeReference (h : c.Sound) : (c.removeReference p).Sound :=
  h.modify (p := p) (fun a => { a with refs := a.refs - 1 }) (fun _ => rfl) rfl rfl

theorem Grows.of_chunks {N : List MemoryChunk} (h : c'.chunks = c.chunks) : Grows N c c' := by
  refine ⟨fun k p hk => ?_, fun k hk => ?_, fun k hk => .inl ?_⟩
  · rwa [Holds, h]
  · rwa [HasKey, h]
  · rwa [HasKey, h] at hk

/-! ### Finding a chunk -/

/-- The cache with the entries a request adds. -/
theorem Sound.insert {m' : MemoryMap ChunkPtr} {key : MemoryChunk} {results : List MemoryChunk}
    (h : c.Sound) (hins : Inserted key c.chunks.entries (m'.entries, results)) :
    ({ c with chunks := m' } : RegionCache).Sound ∧ Grows [key] c { c with chunks := m' } := by
  have hold : ∀ k p, ({ c with chunks := m' } : RegionCache).Holds k p → c.Holds k p := by
    intro k p hk
    rcases hins.added _ hk with hk | ⟨hnone, -⟩
    · exact hk
    · cases hnone
  refine ⟨⟨fun k p hk => h.object k p (hold k p hk), fun k k' p hk hk' =>
    h.injective k k' p (hold k p hk) (hold k' p hk')⟩, ?_⟩
  refine ⟨fun k p hk => hins.kept _ hk, fun k ⟨v, hv⟩ => ⟨v, hins.kept _ hv⟩, fun k ⟨v, hv⟩ => ?_⟩
  rcases hins.added _ hv with hv | ⟨-, hin⟩
  · exact .inl ⟨v, hv⟩
  · exact .inr ⟨key, by simp, hin⟩

/-- The cache with a new chunk for an entry that pointed to none. -/
theorem Sound.newChunk (h : c.Sound) (hk : (k, none) ∈ c.chunks.entries) (deviceMem allocSize : Nat) :
    (c.newChunk k deviceMem allocSize).Sound ∧
      Grows [] c (c.newChunk k deviceMem allocSize) ∧
      (c.newChunk k deviceMem allocSize).Holds k c.objects.length ∧
      ∀ q, (c.newChunk k deviceMem allocSize).getReferenceCount q = c.getReferenceCount q := by
  have hholds : ∀ k' p, (c.newChunk k deviceMem allocSize).Holds k' p ↔
      c.Holds k' p ∨ (k' = k ∧ p = c.objects.length) := by
    intro k' p
    simp only [Holds, RegionCache.newChunk, MemoryMap.mem_assign]
    constructor
    · rintro (⟨hk', -⟩ | ⟨heq, -⟩)
      · exact .inl hk'
      · simp only [Prod.mk.injEq, Option.some.injEq, ChunkPtr.chunk.injEq] at heq
        exact .inr heq
    · rintro (hk' | ⟨rfl, rfl⟩)
      · refine .inl ⟨hk', fun heq => ?_⟩
        have := MemoryMap.eq_of_key hk' hk heq
        cases congrArg Prod.snd this
      · exact .inr ⟨rfl, none, hk⟩
  have hkey : ∀ k', (c.newChunk k deviceMem allocSize).HasKey k' ↔ c.HasKey k' := by
    intro k'
    simp only [HasKey, RegionCache.newChunk, MemoryMap.mem_assign]
    constructor
    · rintro ⟨v, ⟨hv, -⟩ | ⟨heq, w, hw⟩⟩
      · exact ⟨v, hv⟩
      · simp only [Prod.mk.injEq] at heq
        exact ⟨w, heq.1 ▸ hw⟩
    · rintro ⟨v, hv⟩
      rcases eq_or_ne k' k with rfl | hne
      · exact ⟨_, .inr ⟨rfl, v, hv⟩⟩
      · exact ⟨v, .inl ⟨hv, hne⟩⟩
  refine ⟨⟨fun k' p hk' => ?_, fun k₁ k₂ p h₁ h₂ => ?_⟩, ⟨fun k' p hk' => (hholds k' p).2 (.inl hk'),
    fun k' hk' => (hkey k').2 hk', fun k' hk' => .inl ((hkey k').1 hk')⟩,
    (hholds k _).2 (.inr ⟨rfl, rfl⟩), fun q => ?_⟩
  · simp only [RegionCache.newChunk]
    rcases (hholds k' p).1 hk' with hk' | ⟨rfl, rfl⟩
    · obtain ⟨a, ha, hint⟩ := h.object k' p hk'
      have hlt := (List.getElem?_eq_some_iff.1 ha).1
      exact ⟨a, by rw [List.getElem?_append_left hlt, ha], hint⟩
    · exact ⟨_, by rw [List.getElem?_concat_length], rfl⟩
  · rcases (hholds k₁ p).1 h₁ with hold₁ | ⟨hk₁, hp⟩
    · rcases (hholds k₂ p).1 h₂ with hold₂ | ⟨-, hp⟩
      · exact h.injective k₁ k₂ p hold₁ hold₂
      · exact absurd (h.lt_length hold₁) (hp ▸ lt_irrefl _)
    · rcases (hholds k₂ p).1 h₂ with hold₂ | ⟨hk₂, -⟩
      · exact absurd (h.lt_length hold₂) (hp ▸ lt_irrefl _)
      · rw [hk₁, hk₂]
  · simp only [getReferenceCount_eq, RegionCache.newChunk]
    rcases lt_trichotomy q c.objects.length with hlt | rfl | hgt
    · rw [List.getElem?_append_left hlt]
    · simp
    · rw [List.getElem?_eq_none (by simp; omega), List.getElem?_eq_none (by omega)]

/-- What every step of an allocation keeps: the cache stays sound, it grows by parts of `N`, and the
removals of references stay above zero. -/
structure Kept (N : List MemoryChunk) (c c' : RegionCache) : Prop where
  sound : c'.Sound
  grows : Grows N c c'
  underflows : c'.underflows = c.underflows

theorem Kept.refl {N : List MemoryChunk} (h : c.Sound) : Kept N c c := ⟨h, .refl N c, rfl⟩

theorem Kept.trans {N : List MemoryChunk} (h : Kept N c c') (h' : Kept N c' c'') : Kept N c c'' :=
  ⟨h'.sound, h.grows.trans h'.grows, h'.underflows.trans h.underflows⟩

theorem Kept.mono {N N' : List MemoryChunk} (h : Kept N c c') (hN : ∀ n ∈ N, n ∈ N') : Kept N' c c' :=
  ⟨h.sound, h.grows.mono hN, h.underflows⟩

theorem Kept.addReference {N : List MemoryChunk} (h : Kept N c c') : Kept N c (c'.addReference p) :=
  ⟨h.sound.addReference, h.grows.trans (.of_chunks rfl), h.underflows⟩

/-- The chunk that holds a region's data: its interval contains the interval the region is asked for
by. -/
def HoldsData (c : RegionCache) (s : Shape) (p : Nat) : Prop :=
  ∃ k, c.Holds k p ∧ k.contains s.dataChunk = true

theorem HoldsData.mono {N : List MemoryChunk} {s : Shape} (h : c.HoldsData s p) (hg : Grows N c c') :
    c'.HoldsData s p := by
  obtain ⟨k, hk, hin⟩ := h
  exact ⟨k, hg.holds k p hk, hin⟩

theorem HoldsData.lt_length {s : Shape} (h : c.HoldsData s p) (hs : c.Sound) : p < c.objects.length := by
  obtain ⟨k, hk, -⟩ := h
  exact hs.lt_length hk

theorem findChunk_spec {δ : Type*} (host : Host δ) (s : Shape) (d : δ) (h : c.Sound)
    {f : Found} {d' : δ} (hf : findChunk host s c d = (f, c', d')) :
    Kept [s.dataChunk] c c' ∧ (∀ q, c'.getReferenceCount q = c.getReferenceCount q) ∧
      ∀ p, f = .chunk p → c'.HoldsData s p := by
  have hins := c.chunks.getOrAddChunkDoNotFragment_inserted s.dataChunk_pos
  obtain ⟨hsound, hgrows⟩ := h.insert hins
  have hkept : Kept [s.dataChunk] c
      { c with chunks := (c.chunks.getOrAddChunkDoNotFragment s.dataChunk s.dataChunk_pos).1 } :=
    ⟨hsound, hgrows, rfl⟩
  unfold findChunk at hf
  dsimp only at hf
  split at hf
  · next k hk =>
    rw [hk] at hins
    obtain ⟨hin, -⟩ := hins.single s.dataChunk_pos
    obtain ⟨v, hv⟩ := hins.results k (by simp)
    rw [MemoryMap.valueOf_eq hv] at hf
    split at hf
    · split at hf
      · cases hf
        obtain ⟨hsound', hgrows', hholds, hcount⟩ := hsound.newChunk hv _ s.getDataSize
        refine ⟨⟨hsound', hgrows.trans (hgrows'.mono (by simp)), rfl⟩, hcount, fun p hp => ?_⟩
        cases hp
        exact ⟨k, hholds, hin⟩
      · cases hf
        exact ⟨hkept, fun _ => rfl, fun p hp => by cases hp⟩
    · split at hf
      · cases hf
        refine ⟨hkept, fun _ => rfl, fun p hp => ?_⟩
        cases hp
        exact ⟨k, hv, hin⟩
      · cases hf
        exact ⟨hkept, fun _ => rfl, fun p hp => by cases hp⟩
    all_goals
      cases hf
      exact ⟨hkept, fun _ => rfl, fun p hp => by cases hp⟩
  · cases hf
    exact ⟨hkept, fun _ => rfl, fun p hp => by cases hp⟩

/-- What `tryGetAddress` and `getOrCreateChunk` do: the chunk they return holds the region's data and got
one reference, all other counts stay. -/
structure Referenced (s : Shape) (c : RegionCache) (o : Option Nat) (c' : RegionCache) : Prop where
  kept : Kept [s.dataChunk] c c'
  count : ∀ q, c'.getReferenceCount q = c.getReferenceCount q + if o = some q then 1 else 0
  holds : ∀ p, o = some p → c'.HoldsData s p

section
variable {δ : Type*} {host : Host δ} {s : Shape} {d d' : δ} {o : Option Nat}

theorem Referenced.of_null (hkept : Kept [s.dataChunk] c c')
    (hcount : ∀ q, c'.getReferenceCount q = c.getReferenceCount q) : Referenced s c none c' :=
  ⟨hkept, fun q => by simp [hcount q], fun p hp => by cases hp⟩

theorem Referenced.of_found (hkept : Kept [s.dataChunk] c c')
    (hcount : ∀ q, c'.getReferenceCount q = c.getReferenceCount q) (hholds : c'.HoldsData s p) :
    Referenced s c (some p) (c'.addReference p) := by
  refine ⟨hkept.addReference, fun q => ?_, fun p' hp' => ?_⟩
  · rw [getReferenceCount_addReference (hholds.lt_length hkept.sound), hcount q]
    simp only [Option.some.injEq, eq_comm]
  · cases hp'
    exact hholds.mono (N := []) (.of_chunks rfl)

theorem tryGetAddress_referenced (h : c.Sound) (hr : tryGetAddress host s c d = some (o, c', d')) :
    Referenced s c o c' := by
  unfold tryGetAddress at hr
  split at hr
  · cases hr
  · next hf =>
    obtain ⟨hkept, hcount, hholds⟩ := findChunk_spec host s d h hf
    split at hr
    · cases hr
      exact .of_found hkept hcount (hholds _ rfl)
    · cases hr
      exact .of_null hkept hcount
  all_goals
    next hf =>
    cases hr
    obtain ⟨hkept, hcount, -⟩ := findChunk_spec host s d h hf
    exact .of_null hkept hcount

theorem getOrCreateChunk_referenced (h : c.Sound)
    (hr : getOrCreateChunk host s c d = some (o, c', d')) : Referenced s c o c' := by
  unfold getOrCreateChunk at hr
  split at hr
  · next hf =>
    cases hr
    obtain ⟨hkept, hcount, hholds⟩ := findChunk_spec host s d h hf
    exact .of_found hkept hcount (hholds _ rfl)
  · next hf =>
    obtain ⟨hkept, hcount, -⟩ := findChunk_spec host s d h hf
    split at hr
    · cases hr
    · cases hr
      exact .of_null hkept hcount
  all_goals
    next hf =>
    cases hr
    obtain ⟨hkept, hcount, -⟩ := findChunk_spec host s d h hf
    exact .of_null hkept hcount

end

/-! ### The copies of a task -/

/-- The number of references the copies with `_allocFrom = -1` hold on a chunk: one for each distinct
region. -/
def ownRefs (ms : List MemCacheCopy) (q : Nat) : Nat :=
  ms.countP fun m => decide (m.allocFrom = none ∧ m.chunk = some q)

/-- The number of references the repeating copies hold on a chunk. -/
def sharedRefs (ms : List MemCacheCopy) (q : Nat) : Nat :=
  ms.countP fun m => decide (m.allocFrom ≠ none ∧ m.chunk = some q)

theorem ownRefs_cons (m : MemCacheCopy) (ms : List MemCacheCopy) (q : Nat) :
    ownRefs (m :: ms) q =
      ownRefs ms q + if m.allocFrom = none ∧ m.chunk = some q then 1 else 0 := by
  simp only [ownRefs, List.countP_cons, decide_eq_true_eq]

theorem sharedRefs_cons (m : MemCacheCopy) (ms : List MemCacheCopy) (q : Nat) :
    sharedRefs (m :: ms) q =
      sharedRefs ms q + if m.allocFrom ≠ none ∧ m.chunk = some q then 1 else 0 := by
  simp only [sharedRefs, List.countP_cons, decide_eq_true_eq]

/-- A copy without its chunk. -/
def fixed (m : MemCacheCopy) : MemCacheCopy := { m with chunk := none }

/-- The values of `_allocFrom` after `prepareRegions`. -/
def allocFroms (regions : List GlobalReg) : List GlobalReg → List (Option Nat)
  | [] => []
  | r :: rs =>
    if r ∈ regions then some (regions.findIdx fun q => !q.differs r) :: allocFroms regions rs
    else none :: allocFroms (regions ++ [r]) rs

/-- A repeating copy is given the index of an earlier copy. -/
theorem lt_of_allocFroms {regions rs : List GlobalReg} {i t : Nat}
    (h : (allocFroms regions rs)[i]? = some (some t)) : t < regions.length + i := by
  induction rs generalizing regions i with
  | nil => cases h
  | cons r rs ih =>
    unfold allocFroms at h
    split at h
    · next hmem =>
      cases i with
      | zero =>
        simp only [List.getElem?_cons_zero, Option.some.injEq] at h
        rw [← h]
        exact List.findIdx_lt_length_of_exists ⟨r, hmem, by simp [GlobalReg.differs]⟩
      | succ i =>
        have := ih (List.getElem?_cons_succ ▸ h)
        omega
    · cases i with
      | zero => simp at h
      | succ i =>
        have := ih (List.getElem?_cons_succ ▸ h)
        simp only [List.length_append, List.length_singleton] at this
        omega

theorem compact_spec (regions : List GlobalReg) (ms : List MemCacheCopy) :
    (compact regions ms).2.map (fun m => (m.reg, m.chunk, m.policy)) =
        ms.map (fun m => (m.reg, m.chunk, m.policy)) ∧
      (compact regions ms).2.map (·.allocFrom) = allocFroms regions (ms.map (·.reg)) := by
  induction ms generalizing regions with
  | nil => exact ⟨rfl, rfl⟩
  | cons m ms ih =>
    simp only [compact, List.map_cons, allocFroms]
    split
    · obtain ⟨hsame, hfroms⟩ := ih regions
      exact ⟨by simp [hsame], by simp [hfroms]⟩
    · obtain ⟨hsame, hfroms⟩ := ih (regions ++ [m.reg])
      exact ⟨by simp [hsame], by simp [hfroms]⟩

section
variable {δ : Type*} {host : Host δ} {shape : GlobalReg → Shape} {ms ms' ms'' : List MemCacheCopy}
  {d d' : δ}

/-- The intervals a list of copies asks for. -/
def dataChunks (shape : GlobalReg → Shape) (ms : List MemCacheCopy) : List MemoryChunk :=
  ms.map fun m => (shape m.reg).dataChunk

/-- The chunk of every copy with `_allocFrom = -1` holds the data of the copy's region. -/
def OwnHold (shape : GlobalReg → Shape) (c : RegionCache) (ms : List MemCacheCopy) : Prop :=
  ∀ m ∈ ms, m.allocFrom = none → ∀ p, m.chunk = some p → c.HoldsData (shape m.reg) p

/-- What the loops of `prepareRegions` do: copies that own a chunk get one that holds their data, and the
counts change by the references of the copies. -/
structure Filled (shape : GlobalReg → Shape) (ms : List MemCacheCopy) (c : RegionCache)
    (ms' : List MemCacheCopy) (c' : RegionCache) : Prop where
  kept : Kept (dataChunks shape ms) c c'
  same : ms'.map fixed = ms.map fixed
  count : ∀ q, c'.getReferenceCount q + ownRefs ms q = c.getReferenceCount q + ownRefs ms' q
  holds : OwnHold shape c' ms'
  shared : sharedRefs ms' = sharedRefs ms

theorem OwnHold.mono {N : List MemoryChunk} (h : OwnHold shape c ms) (hg : Grows N c c') :
    OwnHold shape c' ms :=
  fun m hm hown p hp => (h m hm hown p hp).mono hg

theorem OwnHold.of_cons (h : OwnHold shape c (m :: ms)) :
    OwnHold shape c [m] ∧ OwnHold shape c ms :=
  (List.forall_mem_cons.1 h).imp_left List.forall_mem_singleton.2

theorem Filled.refl (hs : c.Sound) (h : OwnHold shape c ms) : Filled shape ms c ms c :=
  ⟨.refl hs, rfl, fun _ => rfl, h, rfl⟩

theorem map_eq_of_fixed {α : Type*} (f : MemCacheCopy → α) (hf : ∀ m, f (fixed m) = f m)
    (h : ms'.map fixed = ms.map fixed) : ms'.map f = ms.map f := by
  have hmap := congrArg (List.map f) h
  simpa only [List.map_map, Function.comp_def, hf] using hmap

theorem dataChunks_of_fixed (h : ms'.map fixed = ms.map fixed) :
    dataChunks shape ms' = dataChunks shape ms :=
  map_eq_of_fixed _ (fun _ => rfl) h

theorem Filled.trans (h : Filled shape ms c ms' c') (h' : Filled shape ms' c' ms'' c'') :
    Filled shape ms c ms'' c'' where
  kept := h.kept.trans (dataChunks_of_fixed h.same ▸ h'.kept)
  same := h'.same.trans h.same
  count q := by
    have h₁ := h.count q
    have h₂ := h'.count q
    omega
  holds := h'.holds
  shared := h'.shared.trans h.shared

/-- A copy in front that the loop leaves alone. -/
theorem Filled.cons_same {m : MemCacheCopy} (h : Filled shape ms c ms' c')
    (hm : OwnHold shape c [m]) : Filled shape (m :: ms) c (m :: ms') c' where
  kept := h.kept.mono fun n hn => List.mem_cons_of_mem _ hn
  same := by simp only [List.map_cons, h.same]
  count q := by
    have := h.count q
    simp only [ownRefs_cons]
    push_cast
    omega
  holds m' hm' := by
    rcases List.mem_cons.1 hm' with rfl | hm'
    · exact (hm.mono h.kept.grows) m' (by simp)
    · exact h.holds m' hm'
  shared := by
    funext q
    have := congrFun h.shared q
    simp only [sharedRefs_cons]
    omega

/-- A copy in front that gets what the search for its chunk returns. -/
theorem Filled.cons_referenced {m : MemCacheCopy} {o : Option Nat} (hown : m.allocFrom = none)
    (hnull : m.chunk = none) (hr : Referenced (shape m.reg) c o c') (h : Filled shape ms c' ms' c'') :
    Filled shape (m :: ms) c ({ m with chunk := o } :: ms') c'' where
  kept := by
    refine Kept.trans (hr.kept.mono fun n hn => ?_) (h.kept.mono fun n hn => List.mem_cons_of_mem _ hn)
    rw [List.mem_singleton.1 hn]
    exact List.mem_cons_self
  same := by
    simp only [List.map_cons, h.same]
    rfl
  count q := by
    have h₁ := h.count q
    have h₂ := hr.count q
    simp only [ownRefs_cons, hown, hnull, true_and, reduceCtorEq, if_false]
    push_cast
    rw [h₂] at h₁
    linarith
  holds m' hm' := by
    rcases List.mem_cons.1 hm' with rfl | hm'
    · intro _ p hp
      exact (hr.holds p hp).mono h.kept.grows
    · exact h.holds m' hm'
  shared := by
    funext q
    have := congrFun h.shared q
    simpa only [sharedRefs_cons, hown, ne_eq, not_true_eq_false, false_and, if_false,
      Nat.add_zero] using this

theorem tryAll_filled (hs : c.Sound) (hhold : OwnHold shape c ms)
    (h : tryAll host shape ms c d = some (ms', c', d')) : Filled shape ms c ms' c' := by
  induction ms generalizing c d ms' with
  | nil => cases h; exact .refl hs hhold
  | cons m ms ih =>
    obtain ⟨hm, hrest⟩ := hhold.of_cons
    rw [tryAll] at h
    split at h
    · next hcond =>
      obtain ⟨⟨o, c₁, d₁⟩, hr, h⟩ := Option.bind_eq_some_iff.1 h
      obtain ⟨⟨ms₁, c₂, d₂⟩, hrest', h⟩ := Option.map_eq_some_iff.1 h
      cases h
      have href := tryGetAddress_referenced hs hr
      exact .cons_referenced hcond.1 hcond.2 href
        (ih href.kept.sound (hrest.mono href.kept.grows) hrest')
    · obtain ⟨⟨ms₁, c₂, d₂⟩, hrest', h⟩ := Option.map_eq_some_iff.1 h
      cases h
      exact .cons_same (ih hs hrest hrest') hm

theorem createAll_filled {ok : Bool} (hs : c.Sound) (hhold : OwnHold shape c ms)
    (h : createAll host shape ms c d = some (ok, ms', c', d')) :
    Filled shape ms c ms' c' ∧
      (ok = true → ∀ m ∈ ms', m.allocFrom = none → m.chunk.isSome = true) := by
  induction ms generalizing c d ms' ok with
  | nil =>
    cases h
    exact ⟨.refl hs hhold, fun _ m hm => by cases hm⟩
  | cons m ms ih =>
    obtain ⟨hm, hrest⟩ := hhold.of_cons
    rw [createAll] at h
    split at h
    · next hcond =>
      obtain ⟨⟨o, c₁, d₁⟩, hr, h⟩ := Option.bind_eq_some_iff.1 h
      obtain ⟨⟨ok₁, ms₁, c₂, d₂⟩, hrest', h⟩ := Option.map_eq_some_iff.1 h
      cases h
      have href := getOrCreateChunk_referenced hs hr
      obtain ⟨hfilled, hok⟩ := ih href.kept.sound (hrest.mono href.kept.grows) hrest'
      refine ⟨.cons_referenced hcond.1 hcond.2 href hfilled, fun hand m' hm' hown => ?_⟩
      simp only [Bool.and_eq_true] at hand
      rcases List.mem_cons.1 hm' with rfl | hm'
      · exact hand.1
      · exact hok hand.2 m' hm' hown
    · next hcond =>
      obtain ⟨⟨ok₁, ms₁, c₂, d₂⟩, hrest', h⟩ := Option.map_eq_some_iff.1 h
      cases h
      obtain ⟨hfilled, hok⟩ := ih hs hrest hrest'
      refine ⟨.cons_same hfilled hm, fun hand m' hm' hown => ?_⟩
      rcases List.mem_cons.1 hm' with rfl | hm'
      · exact Option.isSome_iff_ne_none.2 fun hnone => hcond ⟨hown, hnone⟩
      · exact hok hand m' hm' hown

/-- A failed allocation gives back the references of the copies that own a chunk. -/
structure RolledBack (ms : List MemCacheCopy) (c : RegionCache) (ms' : List MemCacheCopy)
    (c' : RegionCache) : Prop where
  chunks : c'.chunks = c.chunks
  sound : c'.Sound
  same : ms'.map fixed = ms.map fixed
  count : ∀ q, c'.getReferenceCount q = c.getReferenceCount q - ownRefs ms q
  null : ∀ m ∈ ms', m.allocFrom = none → m.chunk = none
  shared : sharedRefs ms' = sharedRefs ms
  underflows : (∀ q, 0 ≤ c'.getReferenceCount q) → c'.underflows = c.underflows

theorem rollback_spec (hs : c.Sound) (hhold : OwnHold shape c ms) :
    RolledBack ms c (rollback ms c).1 (rollback ms c).2 := by
  induction ms generalizing c with
  | nil =>
    refine ⟨rfl, hs, rfl, fun q => ?_, fun m hm => ?_, rfl, fun _ => rfl⟩
    · simp [rollback, ownRefs]
    · cases hm
  | cons m ms ih =>
    have hrest := hhold.of_cons.2
    rw [rollback]
    split
    · next p hown hp =>
      have hlt := (hhold m (by simp) hown p hp).lt_length hs
      have hr := ih (c := c.removeReference p) hs.removeReference
        (hrest.mono (N := []) (.of_chunks rfl))
      have hcount : ∀ q, (rollback ms (c.removeReference p)).2.getReferenceCount q =
          c.getReferenceCount q - ownRefs (m :: ms) q := by
        intro q
        have := hr.count q
        rw [getReferenceCount_removeReference hlt] at this
        rw [this, ownRefs_cons]
        simp only [hown, hp, true_and, Option.some.injEq, eq_comm (a := p)]
        push_cast
        ring
      refine ⟨hr.chunks, hr.sound, ?_, hcount, fun m' hm' hown' => ?_, ?_, fun hnonneg => ?_⟩
      · simp only [List.map_cons, hr.same]
        rfl
      · rcases List.mem_cons.1 hm' with rfl | hm'
        · rfl
        · exact hr.null m' hm' hown'
      · funext q
        have := congrFun hr.shared q
        simp only [sharedRefs_cons, hown, ne_eq, not_true_eq_false, false_and, if_false, this]
      · -- the count only falls from here on, so it was positive when the reference was removed
        rw [hr.underflows hnonneg, removeReference_underflows]
        have hfinal := hnonneg p
        rw [hcount p, ownRefs_cons, if_pos ⟨hown, hp⟩] at hfinal
        push_cast at hfinal
        have : (0 : Int) ≤ ownRefs ms p := Int.natCast_nonneg _
        linarith
    · next hcond =>
      have hr := ih (c := c) hs hrest
      have hnull : m.allocFrom = none → m.chunk = none := by
        intro hown
        cases hc : m.chunk with
        | none => rfl
        | some p => exact absurd hc (hcond p hown)
      refine ⟨hr.chunks, hr.sound, ?_, fun q => ?_, fun m' hm' hown' => ?_, ?_, hr.underflows⟩
      · simp only [List.map_cons, hr.same]
      · have hnot : ¬ (m.allocFrom = none ∧ m.chunk = some q) := by
          rintro ⟨hown, hc⟩
          rw [hnull hown] at hc
          cases hc
        rw [hr.count q, ownRefs_cons, if_neg hnot, Nat.add_zero]
      · rcases List.mem_cons.1 hm' with rfl | hm'
        · exact hnull hown'
        · exact hr.null m' hm' hown'
      · funext q
        simp only [sharedRefs_cons, congrFun hr.shared q]

/-- The copies of a task as `prepareRegions` leaves them. -/
structure Prepared (shape : GlobalReg → Shape) (copies : List MemCacheCopy) (c : RegionCache)
    (ms' : List MemCacheCopy) (c' : RegionCache) : Prop where
  kept : Kept (dataChunks shape copies) c c'
  regs : ms'.map (·.reg) = copies.map (·.reg)
  froms : ms'.map (·.allocFrom) = allocFroms [] (copies.map (·.reg))
  policies : ms'.map (·.policy) = copies.map (·.policy)

/-- The chunk of every copy, where it has one, holds the data of the copy's region. -/
def AllHold (shape : GlobalReg → Shape) (c : RegionCache) (ms : List MemCacheCopy) : Prop :=
  ∀ m ∈ ms, ∀ p, m.chunk = some p → c.HoldsData (shape m.reg) p

theorem compact_ownHold (regions : List GlobalReg) (h : AllHold shape c ms) :
    OwnHold shape c (compact regions ms).2 := by
  intro m hm _ p hp
  have hmem : (m.reg, m.chunk, m.policy) ∈ (compact regions ms).2.map fun m => (m.reg, m.chunk, m.policy) :=
    List.mem_map.2 ⟨m, hm, rfl⟩
  rw [(compact_spec regions ms).1] at hmem
  obtain ⟨m₀, hm₀, heq⟩ := List.mem_map.1 hmem
  simp only [Prod.mk.injEq] at heq
  rw [← heq.1]
  exact h m₀ hm₀ p (heq.2.1.trans hp)

/-- After the compaction the copies have their old regions and policies and the new `_allocFrom`. -/
theorem prepared_of_compact (hkept : Kept (dataChunks shape (compact [] ms).2) c c')
    (hsame : ms'.map fixed = (compact [] ms).2.map fixed) : Prepared shape ms c ms' c' := by
  have hspec := compact_spec [] ms
  have hregs : (compact [] ms).2.map (·.reg) = ms.map (·.reg) := by
    simpa [Function.comp_def] using congrArg (List.map Prod.fst) hspec.1
  have hpolicies : (compact [] ms).2.map (·.policy) = ms.map (·.policy) := by
    simpa [Function.comp_def] using congrArg (List.map fun e => e.2.2) hspec.1
  have hdata : dataChunks shape (compact [] ms).2 = dataChunks shape ms := by
    have := congrArg (List.map fun r => (shape r).dataChunk) hregs
    simpa [dataChunks, Function.comp_def] using this
  exact ⟨hdata ▸ hkept, (map_eq_of_fixed _ (fun _ => rfl) hsame).trans hregs,
    (map_eq_of_fixed _ (fun _ => rfl) hsame).trans hspec.2,
    (map_eq_of_fixed _ (fun _ => rfl) hsame).trans hpolicies⟩

/-- The cases of `prepareRegions`: the cache's lock is taken, all copies that own a chunk have one, or
what was taken is given back. -/
theorem prepareRegions_cases {ok : Bool} (hs : c.Sound) (hhold : AllHold shape c ms)
    (h : prepareRegions host shape ms c d = some (ok, ms', c', d')) :
    (ok = false ∧ ms' = (compact [] ms).2 ∧ c' = c) ∨
    (ok = true ∧ Filled shape (compact [] ms).2 c ms' c' ∧
      ∀ m ∈ ms', m.allocFrom = none → m.chunk.isSome = true) ∨
    (ok = false ∧ ∃ ms₁ c₁, Filled shape (compact [] ms).2 c ms₁ c₁ ∧ RolledBack ms₁ c₁ ms' c') := by
  unfold prepareRegions at h
  dsimp only at h
  split at h
  · split at h
    · cases h
      exact .inl ⟨rfl, rfl, rfl⟩
    · obtain ⟨⟨ms₁, c₁, d₁⟩, htry, h⟩ := Option.bind_eq_some_iff.1 h
      obtain ⟨⟨ok₂, ms₂, c₂, d₂⟩, hcreate, h⟩ := Option.map_eq_some_iff.1 h
      have hfill₁ := tryAll_filled hs (compact_ownHold [] hhold) htry
      obtain ⟨hfill₂, hall⟩ := createAll_filled hfill₁.kept.sound hfill₁.holds hcreate
      have hfill := hfill₁.trans hfill₂
      cases ok₂ with
      | true =>
        cases h
        exact .inr (.inl ⟨rfl, hfill, hall rfl⟩)
      | false =>
        cases h
        exact .inr (.inr ⟨rfl, ms₂, c₂, hfill, rollback_spec hfill.kept.sound hfill.holds⟩)
  · cases h

end

end

end RegionCache

end OmpSs.Core
