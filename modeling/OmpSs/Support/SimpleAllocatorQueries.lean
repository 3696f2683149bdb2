import OmpSs.Lib.FirstFit
import OmpSs.Support.SimpleAllocator

/-!
# Queries to the simple allocator

`SimpleAllocator::canAllocate` (`nanox-mx/src/support/simpleallocator.cpp:263`) tells a caller which of
several requests would fail. It fills one free chunk after the other with the requests that still fit, where
`allocate` looks for a chunk request by request; both are first fit (`canAllocate_eq`, `failed_eq`).

`SimpleAllocator::getBasePointer` (`simpleallocator.cpp:238`) looks for the allocated chunk of an address. It
reads the entry that `lower_bound` finds before it knows that there is one, and its last comparison adds the
size to the address in 64 bits (`getBasePointer_iff`).
-/

namespace OmpSs.Support.SimpleAllocator

open Lib FirstFit

/-! ## The program -/

/-- The inner loop of `canAllocate` on a free chunk: `marked` pairs `sizes` with `allocated`, `count` is
`allocated_chunks`. -/
def fillChunk (thisSize count : Nat) : List (Nat × Bool) → Nat × List (Nat × Bool)
  | [] => (count, [])
  | (size, allocated) :: marked =>
    if allocated = false ∧ size ≤ thisSize then
      let rest := fillChunk (thisSize - size) (count + 1) marked
      (rest.1, (size, true) :: rest.2)
    else
      let rest := fillChunk thisSize count marked
      (rest.1, (size, allocated) :: rest.2)

/-- Source: `SimpleAllocator::canAllocate` (`simpleallocator.cpp:263`): what is written to
`remainingSizes`. -/
def canAllocate (s : SimpleAllocator) (sizes : List Nat) : List Nat :=
  let filled := s.freeChunks.entries.foldl (fun t chunk => fillChunk chunk.2 t.1 t.2)
    (0, sizes.map fun size => (size, false))
  if filled.1 < sizes.length then
    let remaining := (filled.2.filter fun m => m.2 == false).map (·.1)
    if remaining.length < sizes.length then remaining ++ [0] else remaining
  else [0]

/-- Source: `SimpleAllocator::getBasePointer` (`simpleallocator.cpp:238`). `none`: it reads the entry of the
end iterator. -/
def getBasePointer (s : SimpleAllocator) (address size : Nat) : Option Nat :=
  if s.allocatedChunks.entries.length = 0 then some 0
  else match s.allocatedChunks.lowerBound address with
    | none => none
    | some (start, len) =>
      if start = address ∧ len ≥ size then some start
      else match s.allocatedChunks.before start with
        | none => some 0
        | some (start', len') =>
          if start' < address ∧ add64 start' len' ≥ add64 address size then some start' else some 0

/-! ## First fit -/

/-- The requests that fail when they are made one after the other. -/
def failed (s : SimpleAllocator) : List Nat → List Nat
  | [] => []
  | size :: sizes =>
    if (allocate s size).1 = 0 then size :: failed (allocate s size).2 sizes
    else failed (allocate s size).2 sizes

/-- What `canAllocate` should write: the requests that would fail, and a 0 after them if there is room; the
first cell is 0 exactly if none would. -/
structure Predicts (s : SimpleAllocator) (sizes : List Nat) : Prop where
  written : canAllocate s sizes =
    failed s sizes ++ if (failed s sizes).length < sizes.length then [0] else []
  first : (canAllocate s sizes).head? = some 0 ↔ failed s sizes = []

/-- The requests that are not marked. -/
def unmarked (marked : List (Nat × Bool)) : List Nat := (marked.filter fun m => m.2 == false).map (·.1)

theorem fillChunk_spec (thisSize count : Nat) (marked : List (Nat × Bool)) :
    unmarked (fillChunk thisSize count marked).2 = leftover thisSize (unmarked marked) ∧
      (fillChunk thisSize count marked).1 + (unmarked (fillChunk thisSize count marked).2).length =
        count + (unmarked marked).length := by
  induction marked generalizing thisSize count with
  | nil => exact ⟨rfl, rfl⟩
  | cons m marked ih =>
    obtain ⟨size, allocated⟩ := m
    rw [fillChunk]
    split
    · next h =>
      obtain ⟨rfl, hfit⟩ := h
      obtain ⟨hleft, hcount⟩ := ih (thisSize - size) (count + 1)
      have hunmarked : unmarked ((size, false) :: marked) = size :: unmarked marked := rfl
      refine ⟨?_, ?_⟩
      · rw [hunmarked, leftover, if_pos hfit]
        exact hleft
      · rw [hunmarked, List.length_cons]
        have hsame : unmarked ((size, true) :: (fillChunk (thisSize - size) (count + 1) marked).2) =
            unmarked (fillChunk (thisSize - size) (count + 1) marked).2 := rfl
        rw [hsame]
        dsimp only
        omega
    · next h =>
      obtain ⟨hleft, hcount⟩ := ih thisSize count
      cases allocated with
      | true => exact ⟨hleft, hcount⟩
      | false =>
        have hfit : ¬ size ≤ thisSize := fun hle => h ⟨rfl, hle⟩
        have hunmarked : ∀ l, unmarked ((size, false) :: l) = size :: unmarked l := fun _ => rfl
        refine ⟨?_, ?_⟩
        · dsimp only
          rw [hunmarked, hunmarked, leftover, if_neg hfit, hleft]
        · dsimp only
          rw [hunmarked, hunmarked, List.length_cons, List.length_cons]
          omega

theorem foldl_fillChunk_spec (chunks : List (Nat × Nat)) (count : Nat) (marked : List (Nat × Bool)) :
    unmarked (chunks.foldl (fun t chunk => fillChunk chunk.2 t.1 t.2) (count, marked)).2 =
        refused (chunks.map (·.2)) (unmarked marked) ∧
      (chunks.foldl (fun t chunk => fillChunk chunk.2 t.1 t.2) (count, marked)).1 +
          (refused (chunks.map (·.2)) (unmarked marked)).length = count + (unmarked marked).length := by
  induction chunks generalizing count marked with
  | nil => exact ⟨(refused_nil _).symm, by rw [List.map_nil, refused_nil]; rfl⟩
  | cons chunk chunks ih =>
    obtain ⟨hleft, hcount⟩ := fillChunk_spec chunk.2 count marked
    obtain ⟨hrest, hsum⟩ := ih (fillChunk chunk.2 count marked).1 (fillChunk chunk.2 count marked).2
    rw [hleft] at hrest hsum
    rw [List.foldl_cons, List.map_cons, refused_cons]
    refine ⟨hrest, hsum.trans ?_⟩
    rw [← hleft]
    exact hcount

/-- What `canAllocate` writes, by the requests that first fit refuses. -/
theorem canAllocate_eq (s : SimpleAllocator) {sizes : List Nat} (hne : sizes ≠ []) :
    canAllocate s sizes = refused (s.freeChunks.entries.map (·.2)) sizes ++
      if (refused (s.freeChunks.entries.map (·.2)) sizes).length < sizes.length then [0] else [] := by
  obtain ⟨hleft, hcount⟩ := foldl_fillChunk_spec s.freeChunks.entries 0
    (sizes.map fun size => (size, false))
  have hall : unmarked (sizes.map fun size => (size, false)) = sizes := by
    simp [unmarked, List.filter_map, Function.comp_def]
  rw [hall] at hleft hcount
  have hpos := List.length_pos_iff.2 hne
  unfold canAllocate
  dsimp only
  generalize s.freeChunks.entries.foldl (fun t chunk => fillChunk chunk.2 t.1 t.2)
    (0, sizes.map fun size => (size, false)) = filled at hleft hcount ⊢
  change (if filled.1 < sizes.length then
    if (unmarked filled.2).length < sizes.length then unmarked filled.2 ++ [0] else unmarked filled.2
    else [0]) = _
  rw [hleft]
  split
  · split <;> simp
  · next hdone =>
    have hnone : refused (s.freeChunks.entries.map (·.2)) sizes = [] :=
      List.length_eq_zero_iff.1 (by omega)
    rw [hnone, List.length_nil, if_pos hpos, List.nil_append]

section
variable {base len : Nat} {s : SimpleAllocator} {sizes : List Nat} {size : Nat}

/-- `allocate` places a request in the first free chunk with room for it, and drops a chunk that is used
up. -/
theorem Sound.allocate_place (hs : Sound base len s) (hbase : base ≠ 0) (hwrap : base + len < 2 ^ 64)
    (hsize : 0 < size) :
    match place size (s.freeChunks.entries.map (·.2)) with
    | none => SimpleAllocator.allocate s size = (0, s)
    | some bins => (SimpleAllocator.allocate s size).1 ≠ 0 ∧
        (SimpleAllocator.allocate s size).2.freeChunks.entries.map (·.2) =
          bins.filter fun c => decide (0 < c) := by
  cases hfind : s.freeChunks.entries.find? fun e => !decide (e.2 < size) with
  | none =>
    have hsmall : ∀ c ∈ s.freeChunks.entries.map (·.2), ¬ size ≤ c := fun c hc => by
      obtain ⟨d, hd, rfl⟩ := List.mem_map.1 hc
      simpa using List.find?_eq_none.1 hfind d hd
    rw [place_eq_none hsmall]
    show SimpleAllocator.allocate s size = (0, s)
    rw [SimpleAllocator.allocate, hfind]
  | some c =>
    obtain ⟨targetAddr, chunkSize⟩ := c
    have hfit : size ≤ chunkSize := by simpa using List.find?_some hfind
    obtain ⟨-, l, l', hsplit, hl⟩ := List.find?_eq_some_iff_append.1 hfind
    have hsmall : ∀ c ∈ l.map (·.2), ¬ size ≤ c := fun c hc => by
      obtain ⟨d, hd, rfl⟩ := List.mem_map.1 hc
      simpa using hl d hd
    have hmem : (targetAddr, chunkSize) ∈ s.freeChunks.entries := List.mem_of_find?_eq_some hfind
    obtain ⟨hlo, hhi⟩ := bounds_of_tiles hs.tiles (List.mem_append_left _ hmem) (by simp only; omega)
    simp only at hlo hhi
    have hpos : ∀ d ∈ s.freeChunks.entries, 0 < d.2 := fun d hd => hs.pos d (List.mem_append_left _ hd)
    have herase := SortedMap.entries_erase hsplit
    rw [hsplit, List.map_append, List.map_cons, place_append hsmall hfit]
    dsimp only
    rw [hsplit] at hpos
    have hkeep : ∀ l₁ : List (Nat × Nat), (∀ d ∈ l₁, 0 < d.2) →
        (l₁.map (·.2)).filter (fun c => decide (0 < c)) = l₁.map (·.2) := fun l₁ h₁ =>
      List.filter_eq_self.2 fun c hc => by
        obtain ⟨d, hd, rfl⟩ := List.mem_map.1 hc
        exact decide_eq_true (h₁ d hd)
    rw [List.filter_append, List.filter_cons, hkeep l fun d hd => hpos d (List.mem_append_left _ hd),
      hkeep l' fun d hd => hpos d (List.mem_append_right _ (List.mem_cons_of_mem _ hd))]
    unfold SimpleAllocator.allocate
    rw [hfind]
    refine ⟨by show targetAddr ≠ 0; omega, ?_⟩
    dsimp only
    split
    · next hgt =>
      rw [if_pos (decide_eq_true (Nat.sub_pos_of_lt hgt)), add64_eq (by omega),
        SortedMap.entries_insert herase]
      · simp
      · intro d hd
        have hsorted := s.freeChunks.sorted
        rw [hsplit] at hsorted
        have hlt := (List.pairwise_append.1 hsorted).2.2 d hd _ List.mem_cons_self
        simp only at hlt
        omega
      · intro d hd
        -- the chunks behind start after the end of the one that is taken
        have hsorted := s.freeChunks.sorted
        rw [hsplit] at hsorted
        have hlt := List.rel_of_pairwise_cons (List.pairwise_append.1 hsorted).2.1 hd
        have hdisj := hs.tiles.disjoint
        rw [hsplit] at hdisj
        have hapart :=
          List.rel_of_pairwise_cons (List.pairwise_append.1 (List.pairwise_append.1 hdisj).1).2.1 hd
        have hpos' := hpos d (List.mem_append_right _ (List.mem_cons_of_mem _ hd))
        have hside := before_or_after hapart (by simp only; omega) hpos'
        simp only at hlt hside
        omega
    · next hle =>
      have hused : ¬ decide (0 < chunkSize - size) = true := by
        rw [decide_eq_true_eq]
        omega
      rw [if_neg hused, herase, List.map_append]

/-- The requests that fail are those that first fit refuses. -/
theorem Sound.failed_eq (hs : Sound base len s) (hbase : base ≠ 0) (hwrap : base + len < 2 ^ 64)
    (hsizes : ∀ size ∈ sizes, 0 < size) :
    failed s sizes = refused (s.freeChunks.entries.map (·.2)) sizes := by
  induction sizes generalizing s with
  | nil => rfl
  | cons size sizes ih =>
    have hsize := hsizes size List.mem_cons_self
    have hrest : ∀ x ∈ sizes, 0 < x := fun x hx => hsizes x (List.mem_cons_of_mem _ hx)
    have hplaced := hs.allocate_place hbase hwrap hsize
    rw [failed]
    cases hplace : place size (s.freeChunks.entries.map (·.2)) with
    | none =>
      rw [hplace] at hplaced
      dsimp only at hplaced
      rw [hplaced, if_pos rfl, refused_of_place_eq_none hplace, ih hs hrest]
    | some bins =>
      rw [hplace] at hplaced
      obtain ⟨hne, hbins⟩ := hplaced
      rw [if_neg hne, refused_of_place_eq_some hplace,
        ih (hs.allocate hbase hwrap hsize).1 hrest, hbins]
      refine refused_filter (fun x hx c hc => ?_) bins
      have hc : ¬ 0 < c := of_decide_eq_false hc
      have hx := hrest x hx
      omega

theorem predicts_of_failed_eq (hne : sizes ≠ []) (hsizes : ∀ size ∈ sizes, 0 < size)
    (h : failed s sizes = refused (s.freeChunks.entries.map (·.2)) sizes) : Predicts s sizes := by
  have hwritten : canAllocate s sizes =
      failed s sizes ++ if (failed s sizes).length < sizes.length then [0] else [] := by
    rw [h, canAllocate_eq s hne]
  refine ⟨hwritten, ?_⟩
  rw [hwritten]
  cases hfailed : failed s sizes with
  | nil => simp [List.length_pos_iff.2 hne]
  | cons x xs =>
    have hx : x ∈ sizes := by
      have hmem : x ∈ refused (s.freeChunks.entries.map (·.2)) sizes := by
        rw [← h, hfailed]
        exact List.mem_cons_self
      exact refused_subset _ _ hmem
    have hpos := hsizes x hx
    simp
    omega

/-- In an area of no bytes all requests fail. -/
theorem failed_new_zero (base : Nat) (hsizes : ∀ size ∈ sizes, 0 < size) :
    failed (new base 0) sizes = refused ((new base 0).freeChunks.entries.map (·.2)) sizes := by
  have hbins : (new base 0).freeChunks.entries.map (·.2) = [0] := rfl
  rw [hbins, refused_cons, refused_nil, leftover_eq_self fun x hx => by have := hsizes x hx; omega]
  induction sizes with
  | nil => rfl
  | cons size sizes ih =>
    have hsize := hsizes size List.mem_cons_self
    have hnone : SimpleAllocator.allocate (new base 0) size = (0, new base 0) := by
      simp [SimpleAllocator.allocate, new, SortedMap.empty, SortedMap.insert, hsize]
    rw [failed, hnone, if_pos rfl, ih fun x hx => hsizes x (List.mem_cons_of_mem _ hx)]

/-- **`canAllocate` predicts `allocate`**, in every history of legal calls in which no wrapped size test
passes, for every list of requests. -/
theorem canAllocate_predicts (base len : Nat) (hbase : base ≠ 0) (hwrap : base + len < 2 ^ 64)
    (s : SimpleAllocator) (h : Reach step (fun s e => Legal base len e ∧ NoWrap s e) (new base len) s)
    (sizes : List Nat) (hne : sizes ≠ []) (hsizes : ∀ size ∈ sizes, 0 < size) : Predicts s sizes := by
  rcases sound_or_new hbase hwrap h with hs | ⟨rfl, rfl⟩
  · exact predicts_of_failed_eq hne hsizes (hs.failed_eq hbase hwrap hsizes)
  · exact predicts_of_failed_eq hne hsizes (failed_new_zero base hsizes)

end

/-- Two free chunks, of 10 and 70 bytes, and four requests: the third one finds no room. -/
theorem canAllocate_predicts_four : ∃ s : SimpleAllocator,
    (s.freeChunks.entries = [(1, 10), (31, 70)] ∧ canAllocate s [60, 8, 12, 9] = [12, 0]) ∧
      Predicts s [60, 8, 12, 9] := by
  obtain ⟨s, hs, hp⟩ := exists_reach_of_guarded_run step (fun s e => Legal 1 100 e ∧ NoWrap s e)
    (new 1 100) [.allocate 10, .allocate 20, .free 1]
    (fun s => decide (s.freeChunks.entries = [(1, 10), (31, 70)] ∧ canAllocate s [60, 8, 12, 9] = [12, 0]))
    (by decide)
  exact ⟨s, of_decide_eq_true hp,
    canAllocate_predicts 1 100 (by decide) (by decide) s hs [60, 8, 12, 9] (by decide) (by decide)⟩

/-- A request whose size test wraps is recorded as allocated, and its release makes a free chunk that runs
past the end of the address space. Three requests fit, by `canAllocate`; but what the first of them leaves of
that chunk lies at the address 0, so that the last one gets a null pointer. -/
theorem not_predicts_of_wrapped_request : ∃ s : SimpleAllocator,
    Reach step (fun _ e => Legal 1 100 e) (new 1 100) s ∧ ¬ Predicts s [2 ^ 64 - 8, 100, 1] := by
  obtain ⟨s, hs, hp⟩ := exists_reach_of_run step (Legal 1 100) (new 1 100)
    [.alignedAllocate 8 (2 ^ 64 - 7), .free 8] (by decide)
    (fun s => decide (canAllocate s [2 ^ 64 - 8, 100, 1] = [0] ∧ failed s [2 ^ 64 - 8, 100, 1] = [1]))
    (by decide)
  obtain ⟨hcan, hfailed⟩ := of_decide_eq_true hp
  refine ⟨s, hs, fun hpredicts => ?_⟩
  have hnone := hpredicts.first.1 (by rw [hcan]; rfl)
  rw [hfailed] at hnone
  cases hnone

/-! ## The chunk of an address -/

/-- The chunk contains `[address, address + size)`. -/
def Contains (c : Nat × Nat) (address size : Nat) : Prop := c.1 ≤ address ∧ address + size ≤ c.1 + c.2

/-- What `getBasePointer` should return: the start of an allocated chunk that contains the range, or 0 if there
is none; without reading the end of the map. -/
def FindsBase (s : SimpleAllocator) (address size : Nat) : Prop :=
  ∃ start, getBasePointer s address size = some start ∧
    ((∃ c ∈ s.allocatedChunks.entries, Contains c address size ∧ start = c.1) ∨
      ((∀ c ∈ s.allocatedChunks.entries, ¬ Contains c address size) ∧ start = 0))

/-- Nothing is allocated, or a chunk starts at the address or behind it; and if the end of the range wraps
around, the chunks that start below the address end below that. -/
def BaseOk (s : SimpleAllocator) (address size : Nat) : Prop :=
  s.allocatedChunks.entries = [] ∨
    ((∃ c ∈ s.allocatedChunks.entries, address ≤ c.1) ∧
      (2 ^ 64 ≤ address + size → ∀ c ∈ s.allocatedChunks.entries, c.1 < address →
        c.1 + c.2 < address + size - 2 ^ 64))

section
variable {base len : Nat} {s : SimpleAllocator} {address size : Nat} {c d : Nat × Nat}

/-- Allocated chunks end before the next one starts. -/
theorem Sound.allocated_before (hs : Sound base len s) (hc : c ∈ s.allocatedChunks.entries)
    (hd : d ∈ s.allocatedChunks.entries) (hlt : c.1 < d.1) : c.1 + c.2 ≤ d.1 := by
  have hperm := SortedMap.perm_erase (k := c.1) (v := c.2) hc
  have htiles : Tiles InChunk (c :: ((s.allocatedChunks.erase c.1).entries ++ s.freeChunks.entries)) _ :=
    hs.tiles.perm (List.perm_append_comm.trans (hperm.append_right _))
  have hd' : d ∈ (s.allocatedChunks.erase c.1).entries := SortedMap.mem_erase.2 ⟨hd, hlt.ne'⟩
  have hposc : 0 < c.2 := hs.pos c (List.mem_append_right _ hc)
  have hposd : 0 < d.2 := hs.pos d (List.mem_append_right _ hd)
  have hside := before_or_after_of_tiles htiles (List.mem_append_left _ hd') hposc hposd
  omega

/-- The lookup where there is a chunk from the address on: that chunk if it starts there and is long enough,
else the chunk before, if its end is not below that of the range. -/
theorem getBasePointer_eq (hlow : s.allocatedChunks.lowerBound address = some d) :
    getBasePointer s address size = some (
      if d.1 = address ∧ d.2 ≥ size then d.1
      else match s.allocatedChunks.before d.1 with
        | none => 0
        | some c => if c.1 < address ∧ add64 c.1 c.2 ≥ add64 address size then c.1 else 0) := by
  have hne : s.allocatedChunks.entries.length ≠ 0 := fun hzero => by
    have hmem := (SortedMap.lowerBound_eq_some hlow).1
    rw [List.length_eq_zero_iff.1 hzero] at hmem
    cases hmem
  rw [getBasePointer, if_neg hne, hlow]
  dsimp only
  split
  · rfl
  · cases s.allocatedChunks.before d.1 with
    | none => rfl
    | some c =>
      dsimp only
      split <;> rfl

theorem Sound.findsBase_iff (hs : Sound base len s) (hbase : base ≠ 0) (hwrap : base + len < 2 ^ 64)
    (haddress : address < 2 ^ 64) (hsize : size < 2 ^ 64) :
    FindsBase s address size ↔ BaseOk s address size := by
  have hchunk : ∀ c ∈ s.allocatedChunks.entries, 0 < c.2 ∧ 0 < c.1 ∧ c.1 + c.2 < 2 ^ 64 := fun c hc => by
    have hpos := hs.pos c (List.mem_append_right _ hc)
    have hin := bounds_of_tiles hs.tiles (List.mem_append_right _ hc) hpos
    omega
  rcases List.eq_nil_or_concat s.allocatedChunks.entries with hnil | ⟨_, _, hcons⟩
  · refine iff_of_true ⟨0, ?_, .inr ⟨fun c hc => ?_, rfl⟩⟩ (.inl hnil)
    · rw [getBasePointer, hnil]
      rfl
    · rw [hnil] at hc
      cases hc
  have hne : s.allocatedChunks.entries ≠ [] := by
    rw [hcons]
    simp
  rw [BaseOk, or_iff_right hne]
  cases hlow : s.allocatedChunks.lowerBound address with
  | none =>
    -- every chunk starts below the address: the end of the map is read
    have hbelow := SortedMap.lowerBound_eq_none hlow
    refine iff_of_false (fun ⟨start, hstart, _⟩ => ?_) fun ⟨⟨c, hc, hle⟩, _⟩ => ?_
    · rw [getBasePointer, if_neg fun hzero => hne (List.length_eq_zero_iff.1 hzero), hlow] at hstart
      cases hstart
    · have := hbelow c hc
      omega
  | some d =>
    obtain ⟨hd, hle, hmin⟩ := SortedMap.lowerBound_eq_some hlow
    obtain ⟨hdpos, hdbase, hdend⟩ := hchunk d hd
    rw [FindsBase, getBasePointer_eq hlow]
    simp only [Option.some_inj, exists_eq_left']
    have hfrom : ∃ c ∈ s.allocatedChunks.entries, address ≤ c.1 := ⟨d, hd, hle⟩
    rw [and_iff_right hfrom]
    split
    · next hperfect =>
      refine iff_of_true (.inl ⟨d, hd, ⟨hperfect.1.le, by omega⟩, rfl⟩) fun hover => ?_
      omega
    · next hother =>
      -- no chunk from the address on contains the range
      have hbehind : ∀ c ∈ s.allocatedChunks.entries, address ≤ c.1 → ¬ Contains c address size := by
        rintro c hc hge ⟨hstart, hend⟩
        have heq : c = d := SortedMap.eq_of_key_eq hc hd (by
          have := hmin c hc hge
          omega)
        subst heq
        exact hother ⟨by omega, by omega⟩
      cases hbefore : s.allocatedChunks.before d.1 with
      | none =>
        have hleast := SortedMap.before_eq_none hbefore
        refine iff_of_true (.inr ⟨fun c hc => hbehind c hc (hle.trans (hleast c hc)), rfl⟩)
          fun _ c hc hlt => ?_
        have := hleast c hc
        omega
      | some c =>
        obtain ⟨hc, hcd, hmax⟩ := SortedMap.before_eq_some hbefore
        obtain ⟨hcpos, hcbase, hcend⟩ := hchunk c hc
        have hca : c.1 < address := by
          by_contra hge
          have := hmin c hc (not_lt.1 hge)
          omega
        -- the chunks below `c` end before it starts
        have hlast : ∀ e ∈ s.allocatedChunks.entries, e.1 < address → e = c ∨ e.1 + e.2 ≤ c.1 := by
          intro e he hlt
          rcases Nat.lt_or_eq_of_le (hmax e he (by omega)) with hlt' | heq
          · exact .inr (hs.allocated_before he hc hlt')
          · exact .inl (SortedMap.eq_of_key_eq he hc heq)
        dsimp only
        rw [add64_eq hcend]
        rcases Nat.lt_or_ge (address + size) (2 ^ 64) with hfits | hover
        · -- the end of the range does not wrap
          rw [add64_eq hfits]
          refine iff_of_true ?_ fun hover => by omega
          split
          · next hin => exact .inl ⟨c, hc, ⟨hca.le, hin.2⟩, rfl⟩
          · next hout =>
            refine .inr ⟨fun e he hcontains => ?_, rfl⟩
            rcases Nat.lt_or_ge e.1 address with hlt | hge
            · obtain ⟨-, hend⟩ := hcontains
              rcases hlast e he hlt with rfl | hend'
              · exact hout ⟨hca, hend⟩
              · omega
            · exact hbehind e he hge hcontains
        · -- it wraps: no chunk contains the range
          have hsum : add64 address size = address + size - 2 ^ 64 := by
            rw [add64, Nat.mod_eq_sub_mod hover, Nat.mod_eq_of_lt (by omega)]
          have hnone : ∀ e ∈ s.allocatedChunks.entries, ¬ Contains e address size := fun e he ⟨_, hend⟩ => by
            have := (hchunk e he).2.2
            omega
          rw [hsum]
          split
          · next hin =>
            refine iff_of_false ?_ fun hshort => ?_
            · rintro (⟨e, he, hcontains, -⟩ | ⟨-, hzero⟩)
              · exact hnone e he hcontains
              · omega
            · have := hshort hover c hc hca
              omega
          · next hout =>
            refine iff_of_true (.inr ⟨hnone, rfl⟩) fun _ e he hlt => ?_
            have hclt : c.1 + c.2 < address + size - 2 ^ 64 := by
              by_contra hge
              exact hout ⟨hca, not_lt.1 hge⟩
            rcases hlast e he hlt with rfl | hend
            · exact hclt
            · omega

/-- **`getBasePointer` finds the chunk exactly if** a chunk starts at the address or behind it (or nothing is
allocated), and the range does not wrap around to an address that a chunk below it reaches. -/
theorem getBasePointer_iff (base len : Nat) (hbase : base ≠ 0) (hwrap : base + len < 2 ^ 64)
    (s : SimpleAllocator) (h : Reach step (fun s e => Legal base len e ∧ NoWrap s e) (new base len) s)
    (address size : Nat) (haddress : address < 2 ^ 64) (hsize : size < 2 ^ 64) :
    FindsBase s address size ↔ BaseOk s address size := by
  rcases sound_or_new hbase hwrap h with hs | ⟨rfl, rfl⟩
  · exact hs.findsBase_iff hbase hwrap haddress hsize
  · exact iff_of_true ⟨0, rfl, .inr ⟨fun c hc => (nomatch hc), rfl⟩⟩ (.inl rfl)

end

/-- A range inside the first of two chunks. -/
theorem getBasePointer_iff_inner : ∃ s : SimpleAllocator,
    s.allocatedChunks.entries = [(1, 10), (11, 20)] ∧ FindsBase s 4 6 := by
  obtain ⟨s, hs, hp⟩ := exists_reach_of_guarded_run step (fun s e => Legal 1 100 e ∧ NoWrap s e)
    (new 1 100) [.allocate 10, .allocate 20]
    (fun s => decide (s.allocatedChunks.entries = [(1, 10), (11, 20)])) (by decide)
  have hentries := of_decide_eq_true hp
  refine ⟨s, hentries,
    (getBasePointer_iff 1 100 (by decide) (by decide) s hs 4 6 (by decide) (by decide)).2 (.inr ⟨?_, ?_⟩)⟩
  · rw [hentries]
    exact ⟨(11, 20), by simp, by decide⟩
  · intro hover
    omega

/-- The same range when the chunk is the only one: `lower_bound` finds nothing, and the end of the map is
read. -/
theorem not_findsBase_of_last : ∃ s : SimpleAllocator,
    Reach step (fun _ e => Legal 1 100 e) (new 1 100) s ∧ s.allocatedChunks.entries = [(1, 10)] ∧
      ¬ FindsBase s 4 6 := by
  obtain ⟨s, hs, hp⟩ := exists_reach_of_run step (Legal 1 100) (new 1 100) [.allocate 10] (by decide)
    (fun s => decide (s.allocatedChunks.entries = [(1, 10)] ∧ getBasePointer s 4 6 = none))
    (by decide)
  obtain ⟨hentries, hnone⟩ := of_decide_eq_true hp
  refine ⟨s, hs, hentries, fun ⟨start, hstart, _⟩ => ?_⟩
  rw [hnone] at hstart
  cases hstart

end OmpSs.Support.SimpleAllocator
