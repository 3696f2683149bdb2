import OmpSs.Core.RegionCache
import Mathlib.Data.List.Nodup
import Mathlib.Data.List.Perm.Subperm

/-!
# Can evictions make room for a set of chunks?

`RegionCache::canInvalidateToFit` (`nanox-mx/src/core/regioncache.cpp:1933`) looks for evictable chunks
of exactly the requested sizes: a double loop over the map's entries and the sizes, with a flag for
each size and a count of the flags that are set. The loop does not skip the entries whose pointer is one
of the marks `-1` and `-2`, and one chunk sets the flags of all the sizes equal to its own.
`canInvalidateToFit_sound_iff` says for which maps and requests the answer is right all the same.
-/

namespace OmpSs.Core.RegionCache

open Support

/-! ## The program -/

/-- The chunk a pointer leads to. -/
def deref (c : RegionCache) (p : Nat) : AllocatedChunk := c.objects.getD p ⟨0, 0, 0, 0⟩

section
variable (c : RegionCache) (rooted : Nat → Bool)

/-- A chunk that no task uses and that is not the home of its data; `rooted` is
`AllocatedChunk::isRooted`. -/
def evictable (p : Nat) : Bool := (c.deref p).refs = 0 ∧ !rooted p

/-- The inner loop over the sizes and their flags, with `allocated_count` before and after it. Source:
`regioncache.cpp:1950`. -/
def markFits (size numChunks : Nat) : List (Nat × Bool) → Nat → List (Nat × Bool) × Nat
  | [], allocated_count => ([], allocated_count)
  | (s, allocated) :: rest, allocated_count =>
    if allocated_count < numChunks then
      if !allocated ∧ size = s then
        let r := markFits size numChunks rest (allocated_count + 1)
        ((s, true) :: r.1, r.2)
      else
        let r := markFits size numChunks rest allocated_count
        ((s, allocated) :: r.1, r.2)
    else ((s, allocated) :: rest, allocated_count)

/-- The outer loop over the entries of the map. `none`: a mark is used as the address of a chunk. -/
def fitLoop (numChunks : Nat) :
    List (Entry ChunkPtr) → List (Nat × Bool) → Nat → Option Nat
  | [], _, allocated_count => some allocated_count
  | (_, v) :: rest, sizes, allocated_count =>
    if allocated_count < numChunks then
      match v with
      | none => fitLoop numChunks rest sizes allocated_count
      | some .invalidated | some .reserved => none
      | some (.chunk p) =>
        if c.evictable rooted p then
          let r := markFits (c.deref p).size numChunks sizes allocated_count
          fitLoop numChunks rest r.1 r.2
        else fitLoop numChunks rest sizes allocated_count
    else some allocated_count

/-- Source: `RegionCache::canInvalidateToFit` (`regioncache.cpp:1933`). -/
def canInvalidateToFit (sizes : List Nat) : Option Bool :=
  (fitLoop c rooted sizes.length c.chunks.entries (sizes.map fun s => (s, false)) 0).map
    fun allocated_count => allocated_count == sizes.length

/-! ## What it should compute -/

/-- The entries with an evictable chunk: the host interval and the chunk. -/
def evictables (l : List (Entry ChunkPtr)) : List (MemoryChunk × Nat) :=
  l.filterMap fun e => match e.2 with
    | some (.chunk p) => if c.evictable rooted p then some (e.1, p) else none
    | _ => none

/-- The sizes of the evictable chunks. -/
def evictableSizes (l : List (Entry ChunkPtr)) : List Nat :=
  (c.evictables rooted l).map fun e => (c.deref e.2).size

/-- Every requested size has an evictable chunk of exactly this size, no two the same one. -/
def Fits (sizes : List Nat) : Prop :=
  ∃ chosen : List (MemoryChunk × Nat), chosen.Nodup ∧
    (∀ e ∈ chosen, e ∈ c.evictables rooted c.chunks.entries) ∧
    chosen.map (fun e => (c.deref e.2).size) = sizes

/-- The answer is right: no mark is taken for a chunk, and `true` means that the sizes fit. -/
structure FitsSoundly (sizes : List Nat) : Prop where
  defined : c.canInvalidateToFit rooted sizes ≠ none
  fits : c.canInvalidateToFit rooted sizes = some true → c.Fits rooted sizes

/-- The pointer is one of the marks. -/
def marked : Option ChunkPtr → Bool
  | some .invalidated | some .reserved => true
  | _ => false

/-- The entries before the first mark. -/
def beforeMark : List (Entry ChunkPtr) := c.chunks.entries.takeWhile fun e => !marked e.2

/-- When the answer is right: if the map has a mark, the evictable chunks before the first one have all
the requested sizes; and if they have, no size is requested more often than there are evictable chunks of
it. -/
def Distinguished (sizes : List Nat) : Prop :=
  ((∃ e ∈ c.chunks.entries, marked e.2 = true) →
    ∀ s ∈ sizes, s ∈ c.evictableSizes rooted c.beforeMark) ∧
  ((∀ s ∈ sizes, s ∈ c.evictableSizes rooted c.beforeMark) →
    ∀ s ∈ sizes, sizes.count s ≤ (c.evictableSizes rooted c.chunks.entries).count s)

instance (sizes : List Nat) : Decidable (c.Distinguished rooted sizes) :=
  inferInstanceAs (Decidable (_ ∧ _))

end

/-! ## The loops -/

section
variable {c : RegionCache} {rooted : Nat → Bool} {sizes E : List Nat} {size n : Nat}

@[simp] theorem marked_none : marked none = false := rfl

@[simp] theorem marked_chunk (p : Nat) : marked (some (.chunk p)) = false := rfl

@[simp] theorem marked_invalidated : marked (some .invalidated) = true := rfl

@[simp] theorem marked_reserved : marked (some .reserved) = true := rfl

@[simp] theorem evictableSizes_nil : c.evictableSizes rooted [] = [] := rfl

@[simp] theorem evictableSizes_none (k : MemoryChunk) (l : List (Entry ChunkPtr)) :
    c.evictableSizes rooted ((k, none) :: l) = c.evictableSizes rooted l := rfl

@[simp] theorem evictableSizes_chunk (k : MemoryChunk) (p : Nat) (l : List (Entry ChunkPtr)) :
    c.evictableSizes rooted ((k, some (.chunk p)) :: l) =
      if c.evictable rooted p = true then (c.deref p).size :: c.evictableSizes rooted l
      else c.evictableSizes rooted l := by
  unfold evictableSizes evictables
  split
  · next hp => simp [hp]
  · next hp => simp [hp]

/-- The inner loop sets the flags of all the sizes equal to the chunk's; where it stops early all the
flags are set. -/
theorem markFits_eq (size n : Nat) : ∀ (l : List (Nat × Bool)) (count : Nat),
    count + l.countP (fun e => !e.2) ≤ n → markFits size n l count =
      (l.map fun e => (e.1, e.2 || size == e.1), count + l.countP fun e => !e.2 && size == e.1)
  | [], count, _ => by simp [markFits]
  | (s, allocated) :: rest, count, hle => by
    rw [List.countP_cons] at hle
    rw [markFits]
    by_cases hlt : count < n
    · rw [if_pos hlt]
      by_cases hmark : (!allocated) = true ∧ size = s
      · rw [if_pos hmark]
        obtain ⟨hfree, rfl⟩ := hmark
        simp only [hfree, if_true] at hle
        have ih := markFits_eq size n rest (count + 1) (by omega)
        simp only [ih, List.map_cons, List.countP_cons, hfree, beq_self_eq_true, Bool.or_true,
          Bool.and_true, if_true, Prod.mk.injEq, true_and]
        omega
      · rw [if_neg hmark]
        have ih := markFits_eq size n rest count (by omega)
        have hflag : (allocated || size == s) = allocated := by
          cases allocated <;> simp_all
        have hcount : ((!allocated) && size == s) = false := by
          cases allocated <;> simp_all
        simp only [ih, List.map_cons, List.countP_cons, hflag, hcount, Bool.false_eq_true, if_false,
          Nat.add_zero]
    · rw [if_neg hlt]
      -- no flag is left to set
      have hall : ((s, allocated) :: rest).countP (fun e => !e.2) = 0 := by
        rw [List.countP_cons]
        omega
      rw [List.countP_eq_zero] at hall
      have hset : ∀ e ∈ (s, allocated) :: rest, e.2 = true := fun e he => by
        simpa using hall e he
      have hmap : ((s, allocated) :: rest).map (fun e => (e.1, e.2 || size == e.1)) =
          (s, allocated) :: rest := by
        rw [List.map_congr_left fun e he => by rw [hset e he, Bool.true_or, ← hset e he]]
        exact List.map_id _
      have hzero : ((s, allocated) :: rest).countP (fun e => !e.2 && size == e.1) = 0 := by
        rw [List.countP_eq_zero]
        intro e he
        simp [hset e he]
      rw [hmap, hzero, Nat.add_zero]

/-- The flags after chunks of the sizes in `E`. -/
def flags (sizes E : List Nat) : List (Nat × Bool) := sizes.map fun s => (s, decide (s ∈ E))

/-- Counts of two properties of which no element has both. -/
theorem countP_add_countP {p q r : Nat → Bool} (h : ∀ s, (p s).toNat + (q s).toNat = (r s).toNat)
    (l : List Nat) : l.countP p + l.countP q = l.countP r := by
  induction l with
  | nil => rfl
  | cons s l ih =>
    have hs := h s
    simp only [List.countP_cons]
    cases hp : p s <;> cases hq : q s <;> cases hr : r s <;> simp_all <;> omega

/-- A chunk after chunks of the sizes in `E`. -/
theorem markFits_flags (sizes E : List Nat) (size : Nat) :
    markFits size sizes.length (flags sizes E) (sizes.countP (· ∈ E)) =
      (flags sizes (E ++ [size]), sizes.countP (· ∈ E ++ [size])) := by
  have hsum : sizes.countP (· ∈ E) + (flags sizes E).countP (fun e => !e.2) = sizes.length := by
    have hlength : sizes.length = sizes.countP fun _ => true := by simp
    rw [flags, List.countP_map, hlength]
    refine countP_add_countP (fun s => ?_) sizes
    by_cases hs : s ∈ E <;> simp [hs]
  have hcount : sizes.countP (· ∈ E) + (flags sizes E).countP (fun e => !e.2 && size == e.1) =
      sizes.countP (· ∈ E ++ [size]) := by
    rw [flags, List.countP_map]
    refine countP_add_countP (fun s => ?_) sizes
    rcases eq_or_ne size s with rfl | hne
    · by_cases hs : size ∈ E <;> simp [hs]
    · by_cases hs : s ∈ E <;> simp [hs, hne, hne.symm]
  rw [markFits_eq _ _ _ _ hsum.le, hcount]
  refine Prod.ext ?_ rfl
  rw [flags, flags, List.map_map]
  refine List.map_congr_left fun s _ => ?_
  simp [eq_comm, Bool.beq_eq_decide_eq]

/-- The sizes that the outer loop has seen where it stops: before the first mark, after chunks of the
sizes in `E`. -/
def seen (c : RegionCache) (rooted : Nat → Bool) (E : List Nat) (l : List (Entry ChunkPtr)) : List Nat :=
  E ++ c.evictableSizes rooted (l.takeWhile fun e => !marked e.2)

/-- The outer loop counts the requested sizes it has seen; it is stopped by a mark while one is
missing. -/
theorem fitLoop_eq (sizes : List Nat) : ∀ (l : List (Entry ChunkPtr)) (E : List Nat),
    (((∃ e ∈ l, marked e.2 = true) → ∀ s ∈ sizes, s ∈ seen c rooted E l) →
      fitLoop c rooted sizes.length l (flags sizes E) (sizes.countP (· ∈ E)) =
        some (sizes.countP (· ∈ seen c rooted E l))) ∧
    (¬ ((∃ e ∈ l, marked e.2 = true) → ∀ s ∈ sizes, s ∈ seen c rooted E l) →
      fitLoop c rooted sizes.length l (flags sizes E) (sizes.countP (· ∈ E)) = none)
  | [], E => by simp [fitLoop, seen]
  | (k, v) :: rest, E => by
    have hdone : ¬ sizes.countP (· ∈ E) < sizes.length → ∀ F : List Nat,
        sizes.countP (· ∈ E ++ F) = sizes.countP (· ∈ E) ∧ ∀ s ∈ sizes, s ∈ E ++ F := by
      intro hge F
      have hall : ∀ s ∈ sizes, s ∈ E := by
        have hle := List.countP_le_length (p := (· ∈ E)) (l := sizes)
        have heq : sizes.countP (· ∈ E) = sizes.length := by omega
        simpa using List.countP_eq_length.1 heq
      have hall' : ∀ s ∈ sizes, s ∈ E ++ F := fun s hs => List.mem_append_left F (hall s hs)
      refine ⟨?_, hall'⟩
      rw [List.countP_eq_length.2 (by simpa using hall'), List.countP_eq_length.2 (by simpa using hall)]
    unfold fitLoop
    split
    · next hlt =>
      cases v with
      | none =>
        have hseen : seen c rooted E ((k, none) :: rest) = seen c rooted E rest := by simp [seen]
        have hmark : (∃ e ∈ ((k, none) :: rest : List (Entry ChunkPtr)), marked e.2 = true) ↔
            ∃ e ∈ rest, marked e.2 = true := by simp
        rw [hseen, hmark]
        exact fitLoop_eq sizes rest E
      | some v =>
        cases v with
        | invalidated | reserved =>
          have hnot : ¬ ∀ s ∈ sizes, s ∈ E := fun hall => by
            rw [List.countP_eq_length.2 (by simpa using hall)] at hlt
            exact lt_irrefl _ hlt
          refine ⟨fun hok => absurd (hok ⟨_, List.mem_cons_self, rfl⟩) ?_, fun _ => rfl⟩
          simpa [seen] using hnot
        | chunk p =>
          have hmark : (∃ e ∈ ((k, some (.chunk p)) :: rest : List (Entry ChunkPtr)), marked e.2 = true) ↔
              ∃ e ∈ rest, marked e.2 = true := by simp
          by_cases hp : c.evictable rooted p = true
          · have hseen : seen c rooted E ((k, some (.chunk p)) :: rest) =
                seen c rooted (E ++ [(c.deref p).size]) rest := by simp [seen, hp]
            rw [hseen, hmark]
            simp only [hp, if_true, markFits_flags]
            exact fitLoop_eq sizes rest (E ++ [(c.deref p).size])
          · have hseen : seen c rooted E ((k, some (.chunk p)) :: rest) = seen c rooted E rest := by
              simp [seen, hp]
            rw [hseen, hmark]
            simp only [hp, Bool.false_eq_true, if_false]
            exact fitLoop_eq sizes rest E
    · next hge =>
      obtain ⟨hcount, hall⟩ := hdone hge
        (c.evictableSizes rooted (((k, v) :: rest).takeWhile fun e => !marked e.2))
      exact ⟨fun _ => congrArg some hcount.symm, fun hno => absurd (fun _ => hall) hno⟩

theorem canInvalidateToFit_eq (sizes : List Nat) :
    (((∃ e ∈ c.chunks.entries, marked e.2 = true) →
        ∀ s ∈ sizes, s ∈ c.evictableSizes rooted c.beforeMark) →
      (c.canInvalidateToFit rooted sizes ≠ none ∧
        (c.canInvalidateToFit rooted sizes = some true ↔
          ∀ s ∈ sizes, s ∈ c.evictableSizes rooted c.beforeMark))) ∧
    (¬ ((∃ e ∈ c.chunks.entries, marked e.2 = true) →
        ∀ s ∈ sizes, s ∈ c.evictableSizes rooted c.beforeMark) →
      c.canInvalidateToFit rooted sizes = none) := by
  have hrun := @fitLoop_eq c rooted sizes c.chunks.entries []
  have hflags : flags sizes [] = sizes.map fun s => (s, false) := by simp [flags]
  have hzero : sizes.countP (· ∈ ([] : List Nat)) = 0 := by simp
  have hseen : seen c rooted [] c.chunks.entries = c.evictableSizes rooted c.beforeMark := rfl
  rw [hflags, hzero, hseen] at hrun
  refine ⟨fun hok => ?_, fun hno => ?_⟩
  · rw [canInvalidateToFit, hrun.1 hok]
    refine ⟨by simp, ?_⟩
    rw [Option.map_some, Option.some_inj, beq_iff_eq, List.countP_eq_length]
    simp
  · rw [canInvalidateToFit, hrun.2 hno]
    rfl

/-! ## Fitting -/

/-- Distinct elements with given values can be chosen when every value is there often enough. -/
theorem exists_nodup_map_eq_iff {α : Type} [DecidableEq α] {f : α → Nat} {l : List α} (hl : l.Nodup)
    (values : List Nat) :
    (∃ chosen : List α, chosen.Nodup ∧ (∀ a ∈ chosen, a ∈ l) ∧ chosen.map f = values) ↔
      ∀ v ∈ values, values.count v ≤ (l.map f).count v := by
  have hcount : (∀ v ∈ values, values.count v ≤ (l.map f).count v) ↔ values.Subperm (l.map f) := by
    rw [List.subperm_iff_count]
    refine ⟨fun h v => ?_, fun h v _ => h v⟩
    by_cases hv : v ∈ values
    · exact h v hv
    · rw [List.count_eq_zero_of_not_mem hv]
      exact Nat.zero_le _
  rw [hcount]
  constructor
  · rintro ⟨chosen, hnodup, hmem, rfl⟩
    obtain ⟨l', hperm, hsub⟩ := hnodup.subperm hmem
    exact ⟨l'.map f, hperm.map f, hsub.map f⟩
  · rintro ⟨l', hperm, hsub⟩
    obtain ⟨l₁, hl₁, rfl⟩ := List.sublist_map_iff.1 hsub
    have hcomp : Relation.Comp (fun a b => a = List.map f b) (fun a b => a.Perm b) values l₁ := by
      rw [List.eq_map_comp_perm]
      exact hperm.symm
    obtain ⟨l₂, rfl, hl₂⟩ := hcomp
    exact ⟨l₂, hl₂.nodup_iff.2 (hl.sublist hl₁), fun a ha => hl₁.subset (hl₂.subset ha), rfl⟩

theorem nodup_entries (c : RegionCache) : c.chunks.entries.Nodup := by
  refine c.chunks.laid.ordered.imp_of_mem fun {a b} ha _ hab heq => ?_
  have hlt := c.chunks.laid.addr_lt_stop ha
  rw [heq] at hab hlt
  exact absurd (lt_of_lt_of_le hlt hab) (lt_irrefl _)

theorem nodup_evictables (c : RegionCache) (rooted : Nat → Bool) :
    (c.evictables rooted c.chunks.entries).Nodup := by
  refine List.Nodup.filterMap (fun e e' b he he' => ?_) c.nodup_entries
  obtain ⟨k, _ | _ | _ | p⟩ := e <;> obtain ⟨k', _ | _ | _ | p'⟩ := e' <;> simp_all
  rw [← he.2] at he'
  simpa [eq_comm] using he'.2

theorem fits_iff (sizes : List Nat) : c.Fits rooted sizes ↔
    ∀ s ∈ sizes, sizes.count s ≤ (c.evictableSizes rooted c.chunks.entries).count s :=
  exists_nodup_map_eq_iff (c.nodup_evictables rooted) sizes

/-- **`canInvalidateToFit` is right for exactly these maps and requests.** -/
theorem canInvalidateToFit_sound_iff (c : RegionCache) (rooted : Nat → Bool) (sizes : List Nat) :
    c.FitsSoundly rooted sizes ↔ c.Distinguished rooted sizes := by
  obtain ⟨hok, hno⟩ := @canInvalidateToFit_eq c rooted sizes
  constructor
  · rintro ⟨hdefined, hfits⟩
    have hmark := not_not.1 fun h => hdefined (hno h)
    refine ⟨hmark, fun hall => (fits_iff sizes).1 (hfits ((hok hmark).2.2 hall))⟩
  · rintro ⟨hmark, hcount⟩
    obtain ⟨hdefined, htrue⟩ := hok hmark
    exact ⟨hdefined, fun h => (fits_iff sizes).2 (hcount (htrue.1 h))⟩

/-- A cache with one entry, of 8 bytes. -/
def oneEntry (v : ChunkPtr) : RegionCache where
  chunks := (MemoryMap.empty.getOrAddChunkDoNotFragment ⟨0, 8⟩ (by decide)).1.assign ⟨0, 8⟩ (some v)
  objects := [⟨0, 0, 8, 0⟩]

/-- One evictable chunk of 8 bytes serves two requests of 8 bytes; the mark `-1` is taken for a chunk. -/
theorem canInvalidateToFit_not_sound :
    ¬ (oneEntry (.chunk 0)).FitsSoundly (fun _ => false) [8, 8] ∧
    ¬ (oneEntry .invalidated).FitsSoundly (fun _ => false) [8] := by
  refine ⟨fun h => ?_, fun h => h.defined (by decide)⟩
  have hcount := (fits_iff [8, 8]).1 (h.fits (by decide))
  exact absurd hcount (by decide)

end

end OmpSs.Core.RegionCache
