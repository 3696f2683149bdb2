import OmpSs.Core.RegionEvict
import OmpSs.Lib.Runs
import OmpSs.Support.MemoryMapUint64

/-!
# The selection of chunks to evict

`RegionCache::selectChunksToInvalidate` (`nanox-mx/src/core/regioncache.cpp:852`) looks for adjacent
chunks of device memory, evictable or free, that together have the size of an allocation. From every chunk
it looks ahead until the size is reached (`lookAhead`); of the runs that reach it, the one with the fewest
dirty bytes is selected, and a second loop walks it again and collects its evictable chunks (`selectFrom`).
The second loop starts with the length of the first chunk and adds it once more, so that it can stop before
the size is reached. `selectsRoom_iff` says for which layouts the selected chunks make room all the same.
-/

namespace OmpSs.Core

open Lib Support Support.MemoryMapUint64

/-- A chunk to evict: the entry of the map that points to it, and the chunk. -/
abbrev Target := MemoryChunk × Nat

namespace RegionCache

/-! ## The program -/

section
variable (c : RegionCache) (rooted dirty : Nat → Bool) (copies : List MemCacheCopy)
  (free : List MemoryChunk) (allocSize : Nat)

/-- The device interval of a chunk. -/
def deviceInterval (p : Nat) : MemoryChunk := ⟨(c.deref p).address, (c.deref p).size⟩

/-- The chunk of one of the task's copies. Source: `regioncache.cpp:881`. -/
def mine (p : Nat) : Bool := copies.any fun copy => copy.chunk == some p

/-- The loop over the entries of the map: the evictable chunks in device memory, and the number of the
others that are not the task's. Source: `regioncache.cpp:868`. -/
def collect : List (Entry ChunkPtr) → List (Entry Target) → Nat → Option (List (Entry Target) × Nat)
  | [], device_mem, otherReferencedChunks => some (device_mem, otherReferencedChunks)
  | (k, v) :: rest, device_mem, otherReferencedChunks => match v with
    | none | some .reserved => collect rest device_mem otherReferencedChunks
    | some .invalidated => collect rest device_mem (otherReferencedChunks + 1)
    | some (.chunk p) =>
      if c.evictable rooted p then
        (addChunk device_mem (c.deviceInterval p) (some (k, p))).bind fun device_mem =>
          collect rest device_mem otherReferencedChunks
      else collect rest device_mem (otherReferencedChunks + if mine copies p then 0 else 1)

/-- The bytes that have to be copied back before the chunk is evicted. -/
def dirtyBytes (e : Entry Target) : Nat := match e.2 with
  | none => 0
  | some t => if dirty t.2 then e.1.len else 0

/-- The loop that looks ahead from a chunk at `addr`: the dirty bytes of the run, where it reaches the
size. Source: `regioncache.cpp:922`. -/
def lookAhead (addr : Nat) : List (Entry Target) → Nat → Nat → Option Nat
  | [], len, num_chunks => if len < allocSize then none else some num_chunks
  | ahead :: rest, len, num_chunks =>
    if len < allocSize then
      if addr + len = ahead.1.addr then
        lookAhead addr rest (len + ahead.1.len) (num_chunks + dirtyBytes dirty ahead)
      else none
    else some num_chunks

/-- The chunks from which a run reaches the size, with its dirty bytes; a chunk is given as the rest of the
map from it on. Source: `regioncache.cpp:912`. -/
def candidates : List (Entry Target) → List (Nat × List (Entry Target))
  | [] => []
  | e :: rest =>
    match lookAhead dirty allocSize e.1.addr rest e.1.len (dirtyBytes dirty e) with
    | some num_chunks => (num_chunks, e :: rest) :: candidates rest
    | none => candidates rest

/-- The first candidate of the least key. Source: `candidates.begin()->second.front()`. -/
def front {α : Type} : List (Nat × α) → Option (Nat × α)
  | [] => none
  | p :: l => match front l with
    | none => some p
    | some q => if q.1 < p.1 then some q else some p

/-- The loop over the selected run. `none`: it passes the end of the map. Source: `regioncache.cpp:943`. -/
def selectFrom : List (Entry Target) → Nat → Option (List Target)
  | [], len => if len < allocSize then none else some []
  | selected :: rest, len =>
    if len < allocSize then
      (selectFrom rest (len + selected.1.len)).map fun chunksToInvalidate =>
        selected.2.toList ++ chunksToInvalidate
    else some []

/-- The selection of a run in device memory. Source: `regioncache.cpp:938`. -/
def selectRun (device_mem : List (Entry Target)) : Option (List Target) :=
  match front (candidates dirty allocSize device_mem) with
  | none => some []
  | some (_, []) => none
  | some (_, selected :: rest) => selectFrom allocSize (selected :: rest) selected.1.len

/-- The chunks to evict, and the number of chunks in use by other tasks. Source:
`RegionCache::selectChunksToInvalidate` (`regioncache.cpp:852`). -/
def selectChunksToInvalidate : Option (List Target × Nat) :=
  (collect c rooted copies c.chunks.entries [] 0).bind fun r =>
    (addAll (free.map fun chunk => (chunk, none)) r.1).bind fun device_mem =>
      (selectRun dirty allocSize device_mem).map fun chunksToInvalidate => (chunksToInvalidate, r.2)

/-! ## What it should compute -/

/-- The device memory to look through: the evictable chunks and the free chunks. -/
def pieces : List (Entry Target) :=
  ((c.evictables rooted c.chunks.entries).map fun t => (c.deviceInterval t.2, some t)) ++
    free.map fun chunk => (chunk, none)

/-- The device intervals of the evictable and the free chunks are nonempty and do not overlap. -/
structure DisjointPieces : Prop where
  nonempty : ∀ e ∈ c.pieces rooted free, 0 < e.1.len
  disjoint : (c.pieces rooted free).Pairwise fun a b => ∀ x, a.1.InChunk x → ¬ b.1.InChunk x

/-- The start of a chunk in device memory. -/
abbrev start (e : Entry Target) : Nat := e.1.addr

/-- The length of a chunk in device memory. -/
abbrev length (e : Entry Target) : Nat := e.1.len

/-- Some run of address-contiguous evictable or free chunks has the size. -/
def HasRun : Prop :=
  ∃ a r, (∀ e ∈ r, e ∈ c.pieces rooted free) ∧ RunFrom start length a r ∧ allocSize ≤ total length r

/-- A free chunk alone has the size. -/
def FreeSuffices : Prop := ∃ chunk ∈ free, allocSize ≤ chunk.len

/-- The chunks `out` together with the free chunks contain a device interval of the size. -/
def Room (out : List Target) : Prop :=
  ∃ a, ∀ x, a ≤ x → x < a + allocSize →
    (∃ chunk ∈ free, chunk.InChunk x) ∨ ∃ t ∈ out, (c.deviceInterval t.2).InChunk x

/-- The selection is right: where a run has the size and no free chunk has, evictable chunks that make
room; else nothing. -/
structure SelectsRoom (out : List Target) : Prop where
  room : c.HasRun rooted free allocSize → ¬ FreeSuffices free allocSize →
    out ≠ [] ∧ (∀ t ∈ out, t ∈ c.evictables rooted c.chunks.entries) ∧ c.Room free allocSize out
  nothing : ¬ (c.HasRun rooted free allocSize ∧ ¬ FreeSuffices free allocSize) → out = []

/-- The run from `a` on that the search chooses: it has the fewest dirty bytes of all the runs that just
reach the size, and of those with as few it is the first. -/
structure Chosen (a : Nat) (r : List (Entry Target)) : Prop where
  pieces : ∀ e ∈ r, e ∈ c.pieces rooted free
  shortest : Shortest start length allocSize a r
  least : ∀ a' r', (∀ e ∈ r', e ∈ c.pieces rooted free) → Shortest start length allocSize a' r' →
    total (dirtyBytes dirty) r < total (dirtyBytes dirty) r' ∨
      total (dirtyBytes dirty) r = total (dirtyBytes dirty) r' ∧ a ≤ a'

/-- The chunk `e` of the run is walked: the chunks before it have less than the size even with the first
one counted twice. -/
def Walked (r : List (Entry Target)) (e : Entry Target) : Prop :=
  ∃ p s, r = p ++ e :: s ∧ total length (r.take 1) + total length p < allocSize

/-- When the selection is right. If a free chunk has the size, only free chunks of the chosen run are
walked; else an evictable one is walked, and all of them are unless a run of free chunks has the size. -/
structure WalkMakesRoom : Prop where
  freeSuffices : FreeSuffices free allocSize → ∀ a r, c.Chosen rooted dirty free allocSize a r →
    ∀ e, Walked allocSize r e → e.2 = none
  walked : ¬ FreeSuffices free allocSize → ∀ a r, c.Chosen rooted dirty free allocSize a r →
    ∃ e, Walked allocSize r e ∧ e.2 ≠ none
  complete : ¬ FreeSuffices free allocSize → ∀ a r, c.Chosen rooted dirty free allocSize a r →
    (∀ e ∈ r, e.2 ≠ none → Walked allocSize r e) ∨
      ∃ b q, (∀ e ∈ q, e.2 = none ∧ e.1 ∈ free) ∧ RunFrom start length b q ∧ allocSize ≤ total length q

end

/-! ## Device memory -/

section
variable {c : RegionCache} {rooted dirty : Nat → Bool} {copies : List MemCacheCopy}
  {free : List MemoryChunk} {allocSize : Nat}

/-- The loop over the entries adds the device intervals of the evictable chunks, and counts. -/
theorem collect_eq (l : List (Entry ChunkPtr)) (m : List (Entry Target)) (n : Nat) :
    (collect c rooted copies l m n).map Prod.fst =
      addAll ((c.evictables rooted l).map fun t => (c.deviceInterval t.2, some t)) m := by
  induction l generalizing m n with
  | nil => rfl
  | cons e l ih =>
    obtain ⟨k, v⟩ := e
    cases v with
    | none => exact ih m n
    | some v =>
      cases v with
      | invalidated => exact ih m (n + 1)
      | reserved => exact ih m n
      | chunk p =>
        by_cases hp : c.evictable rooted p = true
        · have hcons : c.evictables rooted ((k, some (.chunk p)) :: l) = (k, p) :: c.evictables rooted l := by
            simp [evictables, hp]
          rw [hcons, List.map_cons, addAll, collect]
          simp only [hp, if_true, Option.map_bind]
          exact congrArg _ (funext fun m' => ih m' n)
        · have hskip : c.evictables rooted ((k, some (.chunk p)) :: l) = c.evictables rooted l := by
            simp [evictables, hp]
          rw [hskip, collect]
          simp only [hp, Bool.false_eq_true, if_false]
          exact ih m _

/-- Device memory holds the evictable and the free chunks, in order. -/
theorem exists_device_mem (hd : c.DisjointPieces rooted free) :
    ∃ device_mem, Laid device_mem ∧ (∀ e, e ∈ device_mem ↔ e ∈ c.pieces rooted free) ∧
      ∃ n, c.selectChunksToInvalidate rooted dirty copies free allocSize =
        (selectRun dirty allocSize device_mem).map fun chunksToInvalidate => (chunksToInvalidate, n) := by
  obtain ⟨m, hm, hlaid, hmem⟩ := addAll_of_disjoint Laid.nil hd.nonempty (by
    rw [List.append_nil]
    exact hd.disjoint)
  rw [pieces, addAll_append, ← @collect_eq c rooted copies c.chunks.entries [] 0] at hm
  obtain ⟨r, hr, hfree⟩ := Option.bind_eq_some_iff.1 hm
  obtain ⟨⟨m', n⟩, hcollect, rfl⟩ := Option.map_eq_some_iff.1 hr
  refine ⟨m, hlaid, fun e => by simpa using hmem e, n, ?_⟩
  rw [selectChunksToInvalidate, hcollect, Option.bind_some, hfree, Option.bind_some]

/-! ## The search -/

variable {m r : List (Entry Target)} {e : Entry Target}

/-- Looking ahead from the end of a run finds the shortest run that goes on from there. -/
theorem lookAhead_eq_some {addr len num_chunks d : Nat} :
    lookAhead dirty allocSize addr m len num_chunks = some d ↔
      ∃ r, r <+: m ∧ RunFrom start length (addr + len) r ∧ allocSize ≤ len + total length r ∧
        (∀ p s, r = p ++ s → s ≠ [] → len + total length p < allocSize) ∧
        d = num_chunks + total (dirtyBytes dirty) r := by
  induction m generalizing len num_chunks with
  | nil =>
    rw [lookAhead]
    split
    · next hlt =>
      refine ⟨fun h => (by cases h), ?_⟩
      rintro ⟨r, hr, -, hge, -⟩
      rw [List.prefix_nil.1 hr, total_nil] at hge
      omega
    · next hge =>
      constructor
      · intro h
        cases h
        refine ⟨[], List.prefix_refl _, trivial, by rw [total_nil]; omega, fun p s hps hs => ?_, rfl⟩
        exact absurd (List.append_eq_nil_iff.1 hps.symm).2 hs
      · rintro ⟨r, hr, -, -, -, rfl⟩
        rw [List.prefix_nil.1 hr, total_nil, Nat.add_zero]
  | cons ahead rest ih =>
    rw [lookAhead]
    split
    · next hlt =>
      split
      · next haddr =>
        rw [ih]
        constructor
        · rintro ⟨r, hr, hrun, hge, hshort, rfl⟩
          refine ⟨ahead :: r, List.cons_prefix_cons.2 ⟨rfl, hr⟩, ⟨haddr.symm, ?_⟩, ?_, ?_, ?_⟩
          · rwa [Nat.add_assoc]
          · simp only [total_cons, length]
            omega
          · intro p s hps hs
            cases p with
            | nil => rwa [total_nil]
            | cons a p =>
              obtain ⟨rfl, rfl⟩ := List.cons.inj hps
              have := hshort p s rfl hs
              simp only [total_cons, length]
              omega
          · rw [total_cons, Nat.add_assoc]
        · rintro ⟨r, hr, hrun, hge, hshort, rfl⟩
          cases r with
          | nil =>
            rw [total_nil] at hge
            omega
          | cons a r =>
            obtain ⟨rfl, hrest⟩ := List.cons_prefix_cons.1 hr
            refine ⟨r, hrest, ?_, ?_, fun p s hps hs => ?_, ?_⟩
            · rw [← Nat.add_assoc]
              exact hrun.2
            · simp only [total_cons, length] at hge
              omega
            · have := hshort (a :: p) s (by rw [hps]; rfl) hs
              simp only [total_cons, length] at this
              omega
            · rw [total_cons, Nat.add_assoc]
      · next haddr =>
        refine ⟨fun h => (by cases h), ?_⟩
        rintro ⟨r, hr, hrun, hge, -⟩
        cases r with
        | nil =>
          rw [total_nil] at hge
          omega
        | cons a r =>
          obtain ⟨rfl, -⟩ := List.cons_prefix_cons.1 hr
          exact absurd hrun.1.symm haddr
    · next hge =>
      constructor
      · intro h
        cases h
        refine ⟨[], List.nil_prefix, trivial, by rw [total_nil]; omega, fun p s hps hs => ?_, rfl⟩
        exact absurd (List.append_eq_nil_iff.1 hps.symm).2 hs
      · rintro ⟨r, -, -, -, hshort, rfl⟩
        -- The size is reached: a shortest run is empty.
        cases r with
        | nil => rw [total_nil, Nat.add_zero]
        | cons a r =>
          have := hshort [] (a :: r) rfl (List.cons_ne_nil _ _)
          rw [total_nil] at this
          omega

/-- Looking ahead from a chunk finds the shortest run from it. -/
theorem lookAhead_cons_eq_some (hn : 0 < allocSize) {d : Nat} :
    lookAhead dirty allocSize e.1.addr m e.1.len (dirtyBytes dirty e) = some d ↔
      ∃ r, r <+: e :: m ∧ Shortest start length allocSize e.1.addr r ∧ d = total (dirtyBytes dirty) r := by
  rw [lookAhead_eq_some]
  constructor
  · rintro ⟨r, hr, hrun, hge, hshort, rfl⟩
    refine ⟨e :: r, List.cons_prefix_cons.2 ⟨rfl, hr⟩, ⟨⟨rfl, hrun⟩, ?_, ?_⟩, ?_⟩
    · rwa [total_cons]
    · intro p s hps hs
      cases p with
      | nil => rwa [total_nil]
      | cons a p =>
        obtain ⟨rfl, rfl⟩ := List.cons.inj hps
        rw [total_cons]
        exact hshort p s rfl hs
    · rw [total_cons]
  · rintro ⟨r, hr, hs, rfl⟩
    cases r with
    | nil =>
      have := hs.reaches
      rw [total_nil] at this
      omega
    | cons a r =>
      obtain ⟨rfl, hrest⟩ := List.cons_prefix_cons.1 hr
      refine ⟨r, hrest, hs.run.2, ?_, fun p s hps hne => ?_, ?_⟩
      · have := hs.reaches
        rwa [total_cons] at this
      · have := hs.shortest (a :: p) s (by rw [hps]; rfl) hne
        rwa [total_cons] at this
      · rw [total_cons]

/-- A run of a size that is not zero starts with its first chunk. -/
theorem addr_eq_of_prefix (hn : 0 < allocSize) {a : Nat} (h : Shortest start length allocSize a r)
    (hr : r <+: e :: m) : a = e.1.addr := by
  cases r with
  | nil =>
    have := h.reaches
    rw [total_nil] at this
    omega
  | cons b r =>
    obtain ⟨rfl, -⟩ := List.cons_prefix_cons.1 hr
    exact h.run.1.symm

/-- The run `r` from `a` on has the fewest dirty bytes of the runs in device memory that just reach the
size, and of those with as few it is the first. -/
def First (dirty : Nat → Bool) (allocSize : Nat) (m : List (Entry Target)) (a : Nat)
    (r : List (Entry Target)) : Prop :=
  ∀ a' r', r' <:+: m → Shortest start length allocSize a' r' →
    total (dirtyBytes dirty) r < total (dirtyBytes dirty) r' ∨
      total (dirtyBytes dirty) r = total (dirtyBytes dirty) r' ∧ a ≤ a'

/-- A run is first if it is among the runs that start with the first chunk, and among the others. -/
theorem First.cons {e : Entry Target} {rest r : List (Entry Target)} {a : Nat}
    (hfront : ∀ a' r', r' <+: e :: rest → Shortest start length allocSize a' r' →
      total (dirtyBytes dirty) r < total (dirtyBytes dirty) r' ∨
        total (dirtyBytes dirty) r = total (dirtyBytes dirty) r' ∧ a ≤ a')
    (hrest : First dirty allocSize rest a r) : First dirty allocSize (e :: rest) a r := by
  intro a' r' hr' hs'
  rcases List.infix_cons_iff.1 hr' with hpre | hinf
  · exact hfront a' r' hpre hs'
  · exact hrest a' r' hinf hs'

/-- The first candidate of the least key is the first run with the fewest dirty bytes. -/
theorem front_candidates (hm : Laid m) (hn : 0 < allocSize) :
    (front (candidates dirty allocSize m) = none →
      ∀ a r, r <:+: m → ¬ Shortest start length allocSize a r) ∧
    ∀ d s, front (candidates dirty allocSize m) = some (d, s) →
      ∃ a r, r <+: s ∧ s <:+ m ∧ Shortest start length allocSize a r ∧
        d = total (dirtyBytes dirty) r ∧ First dirty allocSize m a r := by
  induction m with
  | nil =>
    refine ⟨fun _ a r hr hs => ?_, fun d s h => (by cases h)⟩
    have := hs.reaches
    rw [List.eq_nil_of_infix_nil hr, total_nil] at this
    omega
  | cons e rest ih =>
    obtain ⟨-, hle, hrest⟩ := laid_cons.1 hm
    obtain ⟨ihnone, ihsome⟩ := ih hrest
    have hlook := @lookAhead_cons_eq_some dirty allocSize rest e hn
    rw [candidates]
    cases hl : lookAhead dirty allocSize e.1.addr rest e.1.len (dirtyBytes dirty e) with
    | none =>
      -- No run from the first chunk reaches the size.
      have hno : ∀ a r, r <+: e :: rest → ¬ Shortest start length allocSize a r := by
        intro a r hr hs
        have ha := addr_eq_of_prefix hn hs hr
        subst ha
        have := hlook.2 ⟨r, hr, hs, rfl⟩
        rw [hl] at this
        cases this
      refine ⟨fun h a r hr hs => ?_, fun d s h => ?_⟩
      · rcases List.infix_cons_iff.1 hr with hpre | hinf
        · exact hno a r hpre hs
        · exact ihnone h a r hinf hs
      · obtain ⟨a, r, hr, hsuf, hs, hd, hfirst⟩ := ihsome d s h
        exact ⟨a, r, hr, hsuf.trans (List.suffix_cons _ _), hs, hd,
          .cons (fun a' r' hpre hs' => absurd hs' (hno a' r' hpre)) hfirst⟩
    | some d₀ =>
      obtain ⟨r₀, hr₀, hs₀, rfl⟩ := hlook.1 hl
      -- Runs from the first chunk are the one found there.
      have honly : ∀ a r, r <+: e :: rest → Shortest start length allocSize a r →
          r = r₀ ∧ a = e.1.addr := fun a r hr hs =>
        ⟨hs.eq_of_prefix hs₀ hr hr₀, addr_eq_of_prefix hn hs hr⟩
      have hown : First dirty allocSize rest e.1.addr r₀ →
          First dirty allocSize (e :: rest) e.1.addr r₀ := .cons fun a' r' hpre hs' => by
        obtain ⟨rfl, rfl⟩ := honly a' r' hpre hs'
        exact .inr ⟨rfl, Nat.le_refl _⟩
      simp only [front]
      cases hf : front (candidates dirty allocSize rest) with
      | none =>
        refine ⟨fun h => (by cases h), fun d s h => ?_⟩
        cases h
        exact ⟨_, r₀, hr₀, List.suffix_refl _, hs₀, rfl,
          hown fun a' r' hinf hs' => absurd hs' (ihnone hf a' r' hinf)⟩
      | some q =>
        obtain ⟨a, r, hr, hsuf, hs, hd, hfirst⟩ := ihsome q.1 q.2 hf
        simp only
        split
        · next hlt =>
          refine ⟨fun h => (by cases h), fun d s h => ?_⟩
          cases h
          refine ⟨a, r, hr, hsuf.trans (List.suffix_cons _ _), hs, hd,
            .cons (fun a' r' hpre hs' => ?_) hfirst⟩
          obtain ⟨rfl, rfl⟩ := honly a' r' hpre hs'
          exact .inl (hd ▸ hlt)
        · next hge =>
          refine ⟨fun h => (by cases h), fun d s h => ?_⟩
          cases h
          refine ⟨_, r₀, hr₀, List.suffix_refl _, hs₀, rfl, hown fun a' r' hinf hs' => ?_⟩
          -- The first chunk lies before all the others.
          have hea : e.1.addr ≤ a' := by
            cases r' with
            | nil =>
              have := hs'.reaches
              rw [total_nil] at this
              omega
            | cons b r' =>
              have := hle b (hinf.subset List.mem_cons_self)
              have hb := hs'.run.1
              simp only [MemoryChunk.stop, start] at this hb
              omega
          rcases hfirst a' r' hinf hs' with hlt | ⟨heq, -⟩ <;> omega

/-- The second loop collects the evictable chunks up to where its count reaches the size. -/
theorem selectFrom_append {s : List (Entry Target)} {len : Nat} (h : allocSize ≤ len + total length r) :
    ∃ out, selectFrom allocSize (r ++ s) len = some out ∧ ∀ t, t ∈ out ↔
      ∃ p e q, r = p ++ e :: q ∧ len + total length p < allocSize ∧ e.2 = some t := by
  induction r generalizing len with
  | nil =>
    rw [total_nil] at h
    refine ⟨[], ?_, fun t => ⟨fun ht => (by cases ht), ?_⟩⟩
    · rw [List.nil_append]
      cases s with
      | nil => rw [selectFrom, if_neg (by omega)]
      | cons b s => rw [selectFrom, if_neg (by omega)]
    · rintro ⟨p, e, q, hpq, -⟩
      cases p <;> cases hpq
  | cons b r ih =>
    rw [List.cons_append, selectFrom]
    split
    · next hlt =>
      have hlen : allocSize ≤ len + b.1.len + total length r := by
        simpa only [total_cons, length, Nat.add_assoc] using h
      obtain ⟨out, hout, hmem⟩ := ih hlen
      refine ⟨b.2.toList ++ out, by rw [hout, Option.map_some], fun t => ?_⟩
      rw [List.mem_append, hmem, Option.mem_toList]
      constructor
      · rintro (hb | ⟨p, e, q, rfl, hlt', he⟩)
        · exact ⟨[], b, r, rfl, by rwa [total_nil], hb⟩
        · refine ⟨b :: p, e, q, rfl, ?_, he⟩
          simp only [total_cons, length]
          omega
      · rintro ⟨p, e, q, hpq, hlt', he⟩
        cases p with
        | nil =>
          obtain ⟨rfl, rfl⟩ := List.cons.inj hpq
          exact .inl he
        | cons a p =>
          obtain ⟨rfl, rfl⟩ := List.cons.inj hpq
          refine .inr ⟨p, e, q, rfl, ?_, he⟩
          simp only [total_cons, length] at hlt'
          omega
    · next hge =>
      refine ⟨[], rfl, fun t => ⟨fun ht => (by cases ht), ?_⟩⟩
      rintro ⟨p, e, q, -, hlt, -⟩
      omega

/-! ## The chosen run -/

theorem of_mem_pieces_some {t : Target} (he : e ∈ c.pieces rooted free) (ht : e.2 = some t) :
    t ∈ c.evictables rooted c.chunks.entries ∧ e = (c.deviceInterval t.2, some t) := by
  rcases List.mem_append.1 he with he | he
  · obtain ⟨t', ht', rfl⟩ := List.mem_map.1 he
    cases ht
    exact ⟨ht', rfl⟩
  · obtain ⟨f, -, rfl⟩ := List.mem_map.1 he
    cases ht

theorem of_mem_pieces_none (he : e ∈ c.pieces rooted free) (hnone : e.2 = none) : e.1 ∈ free := by
  rcases List.mem_append.1 he with he | he
  · obtain ⟨t, -, rfl⟩ := List.mem_map.1 he
    cases hnone
  · obtain ⟨f, hf, rfl⟩ := List.mem_map.1 he
    exact hf

theorem mem_pieces_free {f : MemoryChunk} (hf : f ∈ free) :
    ((f, none) : Entry Target) ∈ c.pieces rooted free :=
  List.mem_append_right _ (List.mem_map_of_mem hf)

theorem Walked.mem (h : Walked allocSize r e) : e ∈ r := by
  obtain ⟨p, s, rfl, -⟩ := h
  exact List.mem_append_right _ List.mem_cons_self

variable {a : Nat} {out : List Target}

theorem Chosen.ne_nil (hn : 0 < allocSize) (h : c.Chosen rooted dirty free allocSize a r) : r ≠ [] := by
  rintro rfl
  have := h.shortest.reaches
  rw [total_nil] at this
  omega

/-- No free chunks end where the chosen run starts: with them, a run with as few dirty bytes would start
before it. -/
theorem Chosen.le_of_free (h : c.Chosen rooted dirty free allocSize a r) {b : Nat} {q : List (Entry Target)}
    (hrun : RunFrom start length b q) (hq : ∀ e ∈ q, e ∈ c.pieces rooted free)
    (hfree : ∀ e ∈ q, e.2 = none) (hend : b + total length q = a) : a ≤ b := by
  have hlong : RunFrom start length b (q ++ r) := runFrom_append.2 ⟨hrun, hend ▸ h.shortest.run⟩
  have hreaches : allocSize ≤ total length (q ++ r) := by
    have := h.shortest.reaches
    rw [total_append]
    omega
  obtain ⟨r', hpre, hs'⟩ := hlong.exists_shortest hreaches
  have hmem' : ∀ e ∈ r', e ∈ c.pieces rooted free := by
    intro e he
    rcases List.mem_append.1 (hpre.subset he) with heq | her
    · exact hq e heq
    · exact h.pieces e her
  have hclean : total (dirtyBytes dirty) q = 0 := total_eq_zero fun e he => by
    rw [dirtyBytes, hfree e he]
  have hle : total (dirtyBytes dirty) r' ≤ total (dirtyBytes dirty) (q ++ r) := total_le_of_prefix hpre
  rw [total_append, hclean, Nat.zero_add] at hle
  rcases h.least b r' hmem' hs' with hlt | ⟨-, hab⟩
  · exact absurd hle (Nat.not_le.2 hlt)
  · exact hab

/-- A run of chunks of `out` and free chunks makes room. -/
theorem room_of_run {b : Nat} {q : List (Entry Target)} (hq : ∀ e ∈ q, e ∈ c.pieces rooted free)
    (hsel : ∀ e ∈ q, ∀ t, e.2 = some t → t ∈ out) (hrun : RunFrom start length b q)
    (hreach : allocSize ≤ total length q) : c.Room free allocSize out := by
  refine ⟨b, fun x hx hx' => ?_⟩
  obtain ⟨e, he, hex⟩ := hrun.cover hx (by omega)
  cases ht : e.2 with
  | none => exact .inl ⟨e.1, of_mem_pieces_none (hq e he) ht, hex⟩
  | some t =>
    refine .inr ⟨t, hsel e he t ht, ?_⟩
    rw [(of_mem_pieces_some (hq e he) ht).2] at hex
    exact hex

section DeviceMem
variable (hm : Laid m) (hmem : ∀ e, e ∈ m ↔ e ∈ c.pieces rooted free)
include hm hmem

/-- There is one chosen run. -/
theorem Chosen.unique {a' : Nat} {r' : List (Entry Target)} (h : c.Chosen rooted dirty free allocSize a r)
    (h' : c.Chosen rooted dirty free allocSize a' r') : r = r' := by
  have haa : a = a' := by
    have h₁ := h.least a' r' h'.pieces h'.shortest
    have h₂ := h'.least a r h.pieces h.shortest
    omega
  subst haa
  exact h.shortest.unique hm.ordered hm.nonempty h'.shortest (fun e he => (hmem e).2 (h.pieces e he))
    (fun e he => (hmem e).2 (h'.pieces e he))

/-- The selection collects the walked chunks of the chosen run; where no run has the size it is empty. -/
theorem selectRun_spec (hn : 0 < allocSize) :
    (¬ c.HasRun rooted free allocSize → selectRun dirty allocSize m = some []) ∧
    (c.HasRun rooted free allocSize → ∃ a r out, c.Chosen rooted dirty free allocSize a r ∧
      selectRun dirty allocSize m = some out ∧
        ∀ t, t ∈ out ↔ ∃ e, Walked allocSize r e ∧ e.2 = some t) := by
  obtain ⟨hnone, hsome⟩ := @front_candidates dirty allocSize m hm hn
  have hstretch : ∀ {a r}, RunFrom start length a r → (∀ e ∈ r, e ∈ c.pieces rooted free) → r <:+: m := by
    intro a r hr hp
    obtain ⟨p, s, hps⟩ := hr.exists_append hm.ordered hm.nonempty fun e he => (hmem e).2 (hp e he)
    exact ⟨p, s, hps.symm⟩
  have hrun : c.HasRun rooted free allocSize ↔
      ∃ a r, r <:+: m ∧ Shortest start length allocSize a r := by
    constructor
    · rintro ⟨a, r, hp, hr, hreach⟩
      obtain ⟨r', hpre, hs⟩ := hr.exists_shortest hreach
      exact ⟨a, r', hstretch hs.run fun e he => hp e (hpre.subset he), hs⟩
    · rintro ⟨a, r, hr, hs⟩
      exact ⟨a, r, fun e he => (hmem e).1 (hr.subset he), hs.run, hs.reaches⟩
  rw [hrun, selectRun]
  cases hf : front (candidates dirty allocSize m) with
  | none =>
    refine ⟨fun _ => rfl, ?_⟩
    rintro ⟨a, r, hr, hs⟩
    exact absurd hs (hnone hf a r hr)
  | some q =>
    obtain ⟨d, s⟩ := q
    obtain ⟨a, r, ⟨s', rfl⟩, hsuf, hs, -, hfirst⟩ := hsome d s hf
    have hrm : r <:+: m := (List.prefix_append r s').isInfix.trans hsuf.isInfix
    have hchosen : c.Chosen rooted dirty free allocSize a r :=
      ⟨fun e he => (hmem e).1 (hrm.subset he), hs,
        fun a' r' hr' hs' => hfirst a' r' (hstretch hs'.run hr') hs'⟩
    refine ⟨fun hno => absurd ⟨a, r, hrm, hs⟩ hno, fun _ => ?_⟩
    cases r with
    | nil => exact absurd rfl (hchosen.ne_nil hn)
    | cons e r =>
      have hlen : allocSize ≤ e.1.len + total length (e :: r) := by
        have := hs.reaches
        omega
      obtain ⟨out, hout, hmemout⟩ := selectFrom_append (s := s') hlen
      refine ⟨a, e :: r, out, hchosen, hout, fun t => (hmemout t).trans ?_⟩
      constructor
      · rintro ⟨p, x, q, hpq, hlt, ht⟩
        exact ⟨x, ⟨p, q, hpq, by simpa [total_cons] using hlt⟩, ht⟩
      · rintro ⟨x, ⟨p, q, hpq, hlt⟩, ht⟩
        exact ⟨p, x, q, hpq, by simpa [total_cons] using hlt, ht⟩

/-- Room is made by a run of free and walked chunks. -/
theorem Chosen.exists_run_of_room (h : c.Chosen rooted dirty free allocSize a r) (hn : 0 < allocSize)
    (hout : ∀ t, t ∈ out ↔ ∃ e, Walked allocSize r e ∧ e.2 = some t) (hroom : c.Room free allocSize out) :
    ∃ b q, (∀ e ∈ q, e ∈ m) ∧ (∀ e ∈ q, e.2 ≠ none → Walked allocSize r e) ∧ RunFrom start length b q ∧
      allocSize ≤ total length q := by
  obtain ⟨b, hb⟩ := hroom
  let kept (e : Entry Target) : Bool := decide (∀ t ∈ e.2, t ∈ out)
  have hcover : ∀ x, b ≤ x → x < b + allocSize →
      ∃ e ∈ m.filter kept, start e ≤ x ∧ x < start e + length e := by
    intro x hx hx'
    rcases hb x hx hx' with ⟨f, hf, hfx⟩ | ⟨t, ht, htx⟩
    · refine ⟨(f, none), List.mem_filter.2 ⟨(hmem _).2 (mem_pieces_free hf), ?_⟩, hfx⟩
      simp [kept]
    · obtain ⟨e, he, het⟩ := (hout t).1 ht
      have hpe := h.pieces e he.mem
      refine ⟨e, List.mem_filter.2 ⟨(hmem e).2 hpe, ?_⟩, ?_⟩
      · simpa [kept, het] using ht
      · rw [(of_mem_pieces_some hpe het).2]
        exact htx
  obtain ⟨q, b', hsub, hrun, hb', hend⟩ :=
    exists_runFrom_of_cover (hm.ordered.sublist List.filter_sublist) hn hcover
  have hreach : b + allocSize ≤ b' + total length q := hend
  refine ⟨b', q, fun e he => (List.mem_filter.1 (hsub.mem he)).1, fun e he hne => ?_, hrun, by omega⟩
  obtain ⟨hem, hkept⟩ := List.mem_filter.1 (hsub.mem he)
  obtain ⟨t, ht⟩ := Option.ne_none_iff_exists'.1 hne
  obtain ⟨x, hx, hxt⟩ := (hout t).1 (of_decide_eq_true hkept t ht)
  rw [(of_mem_pieces_some ((hmem e).1 hem) ht).2, ← (of_mem_pieces_some (h.pieces x hx.mem) hxt).2]
  exact hx

/-- Where a run of free and walked chunks has the size, and a walked chunk, all the evictable chunks of the
chosen run are walked. -/
theorem Chosen.walked_of_run (h : c.Chosen rooted dirty free allocSize a r) (hn : 0 < allocSize) {b : Nat}
    {q : List (Entry Target)} (hqm : ∀ e ∈ q, e ∈ m) (hqw : ∀ e ∈ q, e.2 ≠ none → Walked allocSize r e)
    (hrun : RunFrom start length b q) (hreach : allocSize ≤ total length q) (heq : e ∈ q)
    (hew : Walked allocSize r e) {f : Entry Target} (hfr : f ∈ r) (hfne : f.2 ≠ none) :
    Walked allocSize r f := by
  by_contra hfw
  have hpos : ∀ e ∈ m, 0 < length e := hm.nonempty
  have hcommon : ∀ {g k : Entry Target}, g ∈ q → k ∈ r → start g ≤ start k →
      start k < start g + length g → k ∈ q := by
    intro g k hg hk hle hlt
    have hkm := (hmem k).2 (h.pieces k hk)
    rw [← hm.eq_of_inChunk (hqm g hg) hkm (x := start k) ⟨hle, hlt⟩
      ⟨Nat.le_refl _, Nat.lt_add_of_pos_right (hpos k hkm)⟩]
    exact hg
  -- The chunk `e` lies before the chunk `f` that is not walked.
  have her := hew.mem
  obtain ⟨p, s, hps, hlt⟩ := hew
  obtain ⟨p', s', hps'⟩ := List.append_of_mem hfr
  have hge : allocSize ≤ total length (r.take 1) + total length p' :=
    Nat.not_lt.1 fun hlt' => hfw ⟨p', s', hps', hlt'⟩
  have hat : ∀ {p s : List (Entry Target)} {e : Entry Target}, r = p ++ e :: s →
      start e = a + total length p := by
    intro p s e hps
    have := h.shortest.run
    rw [hps, runFrom_append] at this
    exact this.2.1
  have hestart := hat hps
  have hfstart := hat hps'
  have hshort := h.shortest.shortest p' (f :: s') hps' (List.cons_ne_nil _ _)
  -- So the run ends before `f`, and starts before the chosen run.
  have hqend : b + total length q ≤ start f := by
    by_contra hgt
    have hbf := hrun.le heq
    obtain ⟨g, hg, hle, hlt⟩ := hrun.cover (x := start f) (by omega) (Nat.not_le.1 hgt)
    exact hfw (hqw f (hcommon hg hfr hle hlt) hfne)
  have hba : b < a := by omega
  -- It passes the start of the chosen run, and the chunks it has before are free.
  obtain ⟨e₀, r₀, hr₀⟩ := List.exists_cons_of_ne_nil (h.ne_nil hn)
  have he₀start : start e₀ = a := hat (p := []) hr₀
  have haq : a < b + total length q := by
    have h₁ := h.shortest.run.le her
    have h₂ := hrun.stop_le heq
    have h₃ := hpos e (hqm e heq)
    omega
  obtain ⟨g, hg, hle, hlt'⟩ := hrun.cover (x := a) hba.le haq
  obtain ⟨q₀, q₁, hq₀⟩ := List.append_of_mem
    (hcommon hg (hr₀ ▸ List.mem_cons_self) (he₀start ▸ hle) (he₀start ▸ hlt'))
  subst hq₀
  obtain ⟨hrun₀, hstart₀, -⟩ := runFrom_append.1 hrun
  have hq₀ : ∀ e ∈ q₀, e ∈ q₀ ++ e₀ :: q₁ := fun e he => List.mem_append_left _ he
  have hfree₀ : ∀ e ∈ q₀, e.2 = none := by
    intro e he
    by_contra hne
    have h₁ := h.shortest.run.le (hqw e (hq₀ e he) hne).mem
    have h₂ := hrun₀.stop_le he
    have h₃ := hpos e (hqm e (hq₀ e he))
    omega
  have hab := h.le_of_free hrun₀ (fun e he => (hmem e).1 (hqm e (hq₀ e he))) hfree₀ (by omega)
  omega

/-- If the walked chunks make room, then all the evictable chunks of the chosen run are walked, or a run of
free chunks has the size. -/
theorem Chosen.complete_of_room (h : c.Chosen rooted dirty free allocSize a r) (hn : 0 < allocSize)
    (hout : ∀ t, t ∈ out ↔ ∃ e, Walked allocSize r e ∧ e.2 = some t) (hroom : c.Room free allocSize out) :
    (∀ e ∈ r, e.2 ≠ none → Walked allocSize r e) ∨
      ∃ b q, (∀ e ∈ q, e.2 = none ∧ e.1 ∈ free) ∧ RunFrom start length b q ∧ allocSize ≤ total length q := by
  obtain ⟨b, q, hqm, hqw, hrun, hreach⟩ := h.exists_run_of_room hm hmem hn hout hroom
  by_cases hall : ∀ e ∈ q, e.2 = none
  · exact .inr ⟨b, q, fun e he => ⟨hall e he, of_mem_pieces_none ((hmem e).1 (hqm e he)) (hall e he)⟩,
      hrun, hreach⟩
  · push Not at hall
    obtain ⟨e, he, hne⟩ := hall
    exact .inl fun f hf hfne => h.walked_of_run hm hmem hn hqm hqw hrun hreach he (hqw e he hne) hf hfne

/-- The chunks selected in device memory make room for exactly these layouts. -/
theorem selectRun_makesRoom_iff (hn : 0 < allocSize) :
    (∃ out, selectRun dirty allocSize m = some out ∧ c.SelectsRoom rooted free allocSize out) ↔
      c.WalkMakesRoom rooted dirty free allocSize := by
  obtain ⟨hnothing, hchosen⟩ := @selectRun_spec c rooted dirty free allocSize m hm hmem hn
  by_cases hrun : c.HasRun rooted free allocSize
  · obtain ⟨a, r, out, hr, hsel, hout⟩ := hchosen hrun
    have honly : ∀ {a' r'}, c.Chosen rooted dirty free allocSize a' r' → r' = r := fun h =>
      h.unique hm hmem hr
    have hne : out ≠ [] ↔ ∃ e, Walked allocSize r e ∧ e.2 ≠ none := by
      constructor
      · intro hne
        obtain ⟨t, ht⟩ := List.exists_mem_of_ne_nil out hne
        obtain ⟨e, he, het⟩ := (hout t).1 ht
        exact ⟨e, he, by simp [het]⟩
      · rintro ⟨e, he, hne⟩
        obtain ⟨t, ht⟩ := Option.ne_none_iff_exists'.1 hne
        exact List.ne_nil_of_mem ((hout t).2 ⟨e, he, ht⟩)
    constructor
    · rintro ⟨out', hsel', hroom, hno⟩
      cases hsel.symm.trans hsel'
      refine ⟨fun hfree a' r' h' e he => ?_, fun hfree a' r' h' => ?_, fun hfree a' r' h' => ?_⟩
      · cases honly h'
        by_contra hene
        exact hne.2 ⟨e, he, hene⟩ (hno fun h => h.2 hfree)
      · cases honly h'
        exact hne.1 (hroom hrun hfree).1
      · cases honly h'
        exact hr.complete_of_room hm hmem hn hout (hroom hrun hfree).2.2
    · intro hgood
      refine ⟨out, hsel, fun _ hfree => ⟨hne.2 (hgood.walked hfree a r hr), fun t ht => ?_, ?_⟩,
        fun hno => ?_⟩
      · obtain ⟨e, he, het⟩ := (hout t).1 ht
        exact (of_mem_pieces_some (hr.pieces e he.mem) het).1
      · rcases hgood.complete hfree a r hr with hall | ⟨b, q, hq, hrunq, hreach⟩
        · refine room_of_run hr.pieces (fun e he t ht => ?_) hr.shortest.run hr.shortest.reaches
          exact (hout t).2 ⟨e, hall e he (by simp [ht]), ht⟩
        · refine @room_of_run c rooted free allocSize out b q (fun e he => ?_) (fun e he t ht => ?_) hrunq
            hreach
          · rw [← Prod.mk.eta (p := e), (hq e he).1]
            exact mem_pieces_free (hq e he).2
          · rw [(hq e he).1] at ht
            cases ht
      · have hfree : FreeSuffices free allocSize := by
          by_contra h
          exact hno ⟨hrun, h⟩
        by_contra hne'
        obtain ⟨e, he, hene⟩ := hne.1 hne'
        exact hene (hgood.freeSuffices hfree a r hr e he)
  · have hno : ∀ {a r}, ¬ c.Chosen rooted dirty free allocSize a r := fun {a r} h =>
      hrun ⟨a, r, h.pieces, h.shortest.run, h.shortest.reaches⟩
    refine ⟨fun _ => ⟨fun _ _ _ h => absurd h hno, fun _ _ _ h => absurd h hno,
      fun _ _ _ h => absurd h hno⟩, fun _ => ⟨[], hnothing hrun, fun h => absurd h hrun, fun _ => rfl⟩⟩

end DeviceMem

/-! ## The selection -/

/-- **The selected chunks make room for exactly these layouts.** -/
theorem selectsRoom_iff (hd : c.DisjointPieces rooted free) (hn : 0 < allocSize) :
    (∃ out n, c.selectChunksToInvalidate rooted dirty copies free allocSize = some (out, n) ∧
      c.SelectsRoom rooted free allocSize out) ↔ c.WalkMakesRoom rooted dirty free allocSize := by
  obtain ⟨m, hm, hmem, n, hsel⟩ := @exists_device_mem c rooted dirty copies free allocSize hd
  rw [← selectRun_makesRoom_iff hm hmem hn, hsel]
  constructor
  · rintro ⟨out, n', hout, hroom⟩
    obtain ⟨out', hout', heq⟩ := Option.map_eq_some_iff.1 hout
    cases heq
    exact ⟨out, hout', hroom⟩
  · rintro ⟨out, hout, hroom⟩
    exact ⟨out, n, by rw [hout, Option.map_some], hroom⟩

/-- One evictable chunk of 8 bytes, with 8 free bytes behind it. -/
theorem oneEntry_disjointPieces :
    (oneEntry (.chunk 0)).DisjointPieces (fun _ => false) [⟨8, 8⟩] where
  nonempty := by decide
  disjoint := by
    refine List.pairwise_cons.2 ⟨fun b hb x hx hbx => ?_, List.pairwise_singleton _ _⟩
    cases List.mem_singleton.1 hb
    exact absurd (lt_of_le_of_lt hbx.1 hx.2) (by decide)

/-- The chunk and the free bytes behind it hold a request of 16 bytes. -/
theorem oneEntry_selectsRoom_iff :
    (∃ out n, (oneEntry (.chunk 0)).selectChunksToInvalidate (fun _ => false) (fun _ => true) [] [⟨8, 8⟩] 16 =
        some (out, n) ∧ (oneEntry (.chunk 0)).SelectsRoom (fun _ => false) [⟨8, 8⟩] 16 out) ↔
      (oneEntry (.chunk 0)).WalkMakesRoom (fun _ => false) (fun _ => true) [⟨8, 8⟩] 16 :=
  selectsRoom_iff oneEntry_disjointPieces (by decide)

/-- A single evictable chunk has the size, but the loop over the selected run ends before it. -/
theorem oneEntry_not_selectsRoom :
    ¬ ∃ out n, (oneEntry (.chunk 0)).selectChunksToInvalidate (fun _ => false) (fun _ => true) [] [] 8 =
      some (out, n) ∧ (oneEntry (.chunk 0)).SelectsRoom (fun _ => false) [] 8 out := by
  rintro ⟨out, n, hsel, hroom⟩
  have hrun : (oneEntry (.chunk 0)).selectChunksToInvalidate (fun _ => false) (fun _ => true) [] [] 8 =
      some ([], 0) := by decide
  cases hrun.symm.trans hsel
  have hhas : (oneEntry (.chunk 0)).HasRun (fun _ => false) [] 8 :=
    ⟨0, [(⟨0, 8⟩, some (⟨0, 8⟩, 0))], by decide, ⟨rfl, trivial⟩, by decide⟩
  have hfree : ¬ FreeSuffices [] 8 := by
    rintro ⟨f, hf, -⟩
    cases hf
  exact (hroom.room hhas hfree).1 rfl

end

end RegionCache

end OmpSs.Core
