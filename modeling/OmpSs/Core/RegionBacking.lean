import OmpSs.Core.RegionCache
import OmpSs.Lib.Run

/-!
# The device memory behind the chunks

A chunk records the size of its entry in the map; the device memory is allocated for the request that
finds the entry without a chunk (`tryGetAddress`, `getOrCreateChunk`,
`nanox-mx/src/core/regioncache.cpp:998`, `:1155`). The two sizes are the same when the request made the
entry. An entry of an earlier request whose allocation failed stays in the map without a chunk, and a
smaller request inside it then gets a chunk of the entry's size with device memory for the request only.
`Host.recording` is a device that remembers what it has allocated.
-/

namespace OmpSs.Core

open Support

/-- The device with a record of its allocations, in their order: the address and the size of each. -/
def Host.recording {δ : Type*} (host : Host δ) : Host (δ × List (Nat × Nat)) where
  memCapacity := host.memCapacity
  memAllocate d size :=
    match host.memAllocate d.1 size with
    | (some deviceMem, d') => (some deviceMem, d', d.2 ++ [(deviceMem, size)])
    | (none, d') => (none, d', d.2)
  tryAcquire d := ((host.tryAcquire d.1).1, (host.tryAcquire d.1).2, d.2)
  trylock d p := ((host.trylock d.1 p).1, (host.trylock d.1 p).2, d.2)
  invalidate d size := ((host.invalidate d.1 size).1, (host.invalidate d.1 size).2, d.2)

namespace RegionCache

/-- A cache on a device with a record of the allocations. -/
structure Backed (δ : Type*) where
  cache : RegionCache
  device : δ
  allocations : List (Nat × Nat)

/-- A call of the cache for a region of the given shape. -/
inductive Request
  | tryGetAddress (s : Shape)
  | getOrCreateChunk (s : Shape)

def Request.shape : Request → Shape
  | .tryGetAddress s | .getOrCreateChunk s => s

section
variable {δ : Type*} (host : Host δ)

/-- One call. A call that ends with `fatal` or finds chunks to evict is not admitted. -/
def step (S : Backed δ) : Request → Option (Backed δ)
  | .tryGetAddress s => (tryGetAddress host.recording s S.cache (S.device, S.allocations)).map
      fun r => ⟨r.2.1, r.2.2.1, r.2.2.2⟩
  | .getOrCreateChunk s => (getOrCreateChunk host.recording s S.cache (S.device, S.allocations)).map
      fun r => ⟨r.2.1, r.2.2.1, r.2.2.2⟩

/-- Every chunk in the map has device memory of at least its size, and the bytes allocated are
counted: chunk number `p` was made by allocation number `p`. -/
structure OwnsEnough (S : Backed δ) : Prop where
  owned : ∀ k p, S.cache.Holds k p → ∃ a n, S.cache.objects[p]? = some a ∧
    S.allocations[p]? = some (a.address, n) ∧ a.size ≤ n
  counted : S.cache.allocatedBytes = (S.allocations.map (·.2)).sum

/-- The request does not lie inside a larger entry that has no chunk, unless the device has no memory for
it. -/
def OwnEntry (S : Backed δ) (r : Request) : Prop :=
  ∀ e ∈ S.cache.chunks.entries, e.2 = none → e.1.contains r.shape.dataChunk = true →
    e.1.len ≤ r.shape.getDataSize ∨ (host.memAllocate S.device r.shape.getDataSize).1 = none

instance (S : Backed δ) (r : Request) : Decidable (OwnEntry host S r) :=
  inferInstanceAs (Decidable (∀ e ∈ S.cache.chunks.entries, _))

end

/-! ## What a call keeps -/

section
variable {δ : Type*} {host : Host δ} {S S' : Backed δ} {r : Request}

/-- The invariant: the cache is sound, and chunk number `p` was made by allocation number `p`. -/
structure Made (S : Backed δ) : Prop where
  sound : S.cache.Sound
  lengths : S.cache.objects.length = S.allocations.length
  made : ∀ (p : Nat) (a : AllocatedChunk), S.cache.objects[p]? = some a →
    ∃ n, S.allocations[p]? = some (a.address, n) ∧ a.size ≤ n
  counted : S.cache.allocatedBytes = (S.allocations.map (·.2)).sum

theorem Made.ownsEnough (h : Made S) : OwnsEnough S := by
  refine ⟨fun k p hk => ?_, h.counted⟩
  obtain ⟨a, ha, -⟩ := h.sound.object k p hk
  obtain ⟨n, hn, hle⟩ := h.made p a ha
  exact ⟨a, n, ha, hn, hle⟩

/-- Only the map differs. -/
theorem Made.of_chunks {m : MemoryMap ChunkPtr} (h : Made S) {d : δ}
    (hs : ({ S.cache with chunks := m } : RegionCache).Sound) :
    Made ⟨{ S.cache with chunks := m }, d, S.allocations⟩ :=
  ⟨hs, h.lengths, h.made, h.counted⟩

theorem Made.addReference (h : Made S) (p : Nat) (d : δ) :
    Made ⟨S.cache.addReference p, d, S.allocations⟩ where
  sound := h.sound.addReference
  lengths := by simp only [RegionCache.addReference, List.length_modify, h.lengths]
  made q a ha := by
    rw [RegionCache.addReference, List.getElem?_modify] at ha
    obtain ⟨b, hb, hab⟩ := Option.map_eq_some_iff.1 ha
    obtain ⟨n, hn, hle⟩ := h.made q b hb
    have hsame : a.address = b.address ∧ a.size = b.size := by
      split at hab <;> subst hab <;> exact ⟨rfl, rfl⟩
    exact ⟨n, by rw [hsame.1, hn], by rw [hsame.2]; exact hle⟩
  counted := h.counted

/-- A new chunk for an entry that is no larger than the allocation. -/
theorem Made.newChunk {k : MemoryChunk} {deviceMem size : Nat} (h : Made S)
    (hk : (k, none) ∈ S.cache.chunks.entries) (hlen : k.len ≤ size) (d : δ) :
    Made ⟨S.cache.newChunk k deviceMem size, d, S.allocations ++ [(deviceMem, size)]⟩ where
  sound := (h.sound.newChunk hk deviceMem size).1
  lengths := by simp only [RegionCache.newChunk, List.length_append, h.lengths, List.length_singleton]
  made p a ha := by
    simp only [RegionCache.newChunk] at ha
    rcases Nat.lt_or_ge p S.cache.objects.length with hlt | hge
    · rw [List.getElem?_append_left hlt] at ha
      obtain ⟨n, hn, hle⟩ := h.made p a ha
      exact ⟨n, by rw [List.getElem?_append_left (h.lengths ▸ hlt), hn], hle⟩
    · rw [List.getElem?_append_right hge, List.getElem?_singleton] at ha
      split at ha
      · next hp =>
        cases ha
        refine ⟨size, ?_, hlen⟩
        rw [List.getElem?_append_right (h.lengths ▸ hge), ← h.lengths, hp, List.getElem?_cons_zero]
      · cases ha
  counted := by
    simp only [RegionCache.newChunk, h.counted, List.map_append, List.map_cons, List.map_nil,
      List.sum_append, List.sum_singleton]

/-- The search for a region's chunk keeps the invariant. -/
theorem Made.findChunk (h : Made S) {s : Shape} {f : Found} {c' : RegionCache}
    {d' : δ × List (Nat × Nat)}
    (hown : ∀ e ∈ S.cache.chunks.entries, e.2 = none → e.1.contains s.dataChunk = true →
      e.1.len ≤ s.getDataSize ∨ (host.memAllocate S.device s.getDataSize).1 = none)
    (hf : RegionCache.findChunk host.recording s S.cache (S.device, S.allocations) = (f, c', d')) :
    Made ⟨c', d'.1, d'.2⟩ := by
  have hins := S.cache.chunks.getOrAddChunkDoNotFragment_inserted s.dataChunk_pos
  obtain ⟨hsound, -⟩ := h.sound.insert hins
  have hadded : ∀ d, Made ⟨_, d, S.allocations⟩ := fun d => h.of_chunks (d := d) hsound
  unfold RegionCache.findChunk at hf
  dsimp only at hf
  split at hf
  · next k hk =>
    rw [hk] at hins
    obtain ⟨hin, hfrom⟩ := hins.single s.dataChunk_pos
    obtain ⟨v, hv⟩ := hins.results k (by simp)
    rw [MemoryMap.valueOf_eq hv] at hf
    cases v with
    | none =>
      simp only [Host.recording] at hf
      rcases halloc : host.memAllocate S.device s.getDataSize with ⟨_ | deviceMem, d₁⟩
      · rw [halloc] at hf
        cases hf
        exact hadded _
      · rw [halloc] at hf
        cases hf
        have hlen : k.len ≤ s.getDataSize := by
          rcases hfrom with ⟨w, hw⟩ | ⟨rfl, -⟩
          · -- the entry is an old one, and it still points to no chunk
            have hnone : w = none := by
              have := MemoryMap.eq_of_key (hins.kept _ hw) hv rfl
              exact congrArg Prod.snd this
            exact (hown (k, w) hw hnone hin).resolve_right (by rw [halloc]; simp)
          · exact le_refl _
        exact (hadded d₁).newChunk hv hlen d₁
    | some v =>
      cases v with
      | chunk p =>
        dsimp only at hf
        split at hf
        all_goals
          cases hf
          exact hadded _
      | invalidated | reserved =>
        cases hf
        exact hadded _
  · cases hf
    exact hadded _

/-- A call keeps the invariant. -/
theorem Made.step (h : Made S) (hown : OwnEntry host S r) (hs : step host S r = some S') : Made S' := by
  cases r with
  | tryGetAddress s =>
    obtain ⟨⟨o, c', d'⟩, hr, rfl⟩ := Option.map_eq_some_iff.1 hs
    unfold RegionCache.tryGetAddress at hr
    split at hr
    · cases hr
    · next p c₁ d₁ hf =>
      have hfound := h.findChunk hown hf
      simp only [Host.recording] at hr
      cases hlock : (host.trylock d₁.1 p).1 with
      | true =>
        rw [hlock] at hr
        cases hr
        exact hfound.addReference p _
      | false =>
        rw [hlock] at hr
        cases hr
        exact ⟨hfound.sound, hfound.lengths, hfound.made, hfound.counted⟩
    all_goals
      next hf =>
      cases hr
      exact h.findChunk hown hf
  | getOrCreateChunk s =>
    obtain ⟨⟨o, c', d'⟩, hr, rfl⟩ := Option.map_eq_some_iff.1 hs
    unfold RegionCache.getOrCreateChunk at hr
    split at hr
    · next p c₁ d₁ hf =>
      cases hr
      exact (h.findChunk hown hf).addReference p _
    · next c₁ d₁ hf =>
      have hfound := h.findChunk hown hf
      simp only [Host.recording] at hr
      cases hinv : (host.invalidate d₁.1 s.getDataSize).1 with
      | true =>
        rw [hinv] at hr
        cases hr
      | false =>
        rw [hinv] at hr
        cases hr
        exact ⟨hfound.sound, hfound.lengths, hfound.made, hfound.counted⟩
    all_goals
      next hf =>
      cases hr
      exact h.findChunk hown hf

theorem Made.empty (d : δ) : Made ⟨{}, d, []⟩ where
  sound := ⟨fun k p hk => (List.not_mem_nil hk).elim, fun k k' p hk => (List.not_mem_nil hk).elim⟩
  lengths := rfl
  made p a ha := by cases ha
  counted := rfl

/-- **Chunks own their memory.** In a run from the empty cache in which no request is served by a larger
entry without a chunk, every chunk has device memory of at least its size and every allocated byte is
counted. -/
theorem ownsEnough_of_reach {d : δ} (h : Lib.Reach (RegionCache.step host) (OwnEntry host) ⟨{}, d, []⟩ S) :
    OwnsEnough S := by
  have hmade : Made S := h.invariant (Made.empty d) fun _ _ _ hI hok hs => hI.step hok hs
  exact hmade.ownsEnough

end

/-! ## A request inside an entry that has no chunk -/

/-- A device whose memory has 64 bytes and never runs out for a request that fits in it. -/
def smallHost : Host Unit where
  memCapacity := 64
  memAllocate d size := (if size ≤ 64 then some 4096 else none, d)
  tryAcquire d := (true, d)
  trylock d _ := (true, d)
  invalidate d _ := (false, d)

/-- A region of one dimension at address 0. -/
def linear (size : Nat) (h : 0 < size) : Shape where
  dims := [(size, ⟨0, size⟩)]
  realBaseAddress := 0
  pos d hd := by rw [List.mem_singleton.1 hd]; exact h

/-- A run of calls that all make their own entries or find their chunk. -/
theorem ownsEnough_of_reach_two_calls :
    ∃ S, Lib.Reach (step smallHost) (OwnEntry smallHost) ⟨{}, (), []⟩ S ∧ S.allocations = [(4096, 32)] ∧
      OwnsEnough S := by
  obtain ⟨S, hreach, hp⟩ := Lib.exists_reach_of_guarded_run (step smallHost) (OwnEntry smallHost)
    ⟨{}, (), []⟩ [.tryGetAddress (linear 32 (by decide)), .getOrCreateChunk (linear 8 (by decide))]
    (fun S => S.allocations == [(4096, 32)]) (by decide)
  exact ⟨S, hreach, by simpa using hp, ownsEnough_of_reach hreach⟩

/-- The device has no memory for 100 bytes; the request for 10 of them then makes a chunk of 100 bytes
with 10 bytes of device memory. -/
theorem chunk_larger_than_allocation :
    ∃ S, Lib.Reach (step smallHost) (fun _ _ => True) ⟨{}, (), []⟩ S ∧ ¬ OwnsEnough S := by
  obtain ⟨S, hreach, hp⟩ := Lib.exists_reach_of_run (step smallHost) (fun _ => True)
    ⟨{}, (), []⟩ [.tryGetAddress (linear 100 (by decide)), .tryGetAddress (linear 10 (by decide))]
    (fun _ _ => trivial)
    (fun S => S.cache.chunks.entries == [(⟨0, 100⟩, some (.chunk 0))] &&
      S.cache.objects.map (fun a => a.size) == [100] && S.allocations == [(4096, 10)]) (by decide)
  refine ⟨S, hreach, fun h => ?_⟩
  simp only [Bool.and_eq_true, beq_iff_eq] at hp
  obtain ⟨a, n, ha, hn, hle⟩ := h.owned ⟨0, 100⟩ 0 (by rw [Holds, hp.1.1]; exact List.mem_singleton_self _)
  have hsize : S.cache.objects[0]?.map (fun a => a.size) = some 100 := by
    rw [← List.getElem?_map, hp.1.2]
    rfl
  rw [ha] at hsize
  rw [hp.2] at hn
  simp only [Option.map_some, Option.some.injEq, List.getElem?_cons_zero, Prod.mk.injEq] at hsize hn
  omega

end RegionCache

end OmpSs.Core
