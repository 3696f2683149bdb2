import OmpSs.Core.RegionCache
import OmpSs.Lib.Run
import Mathlib.Algebra.Order.BigOperators.Group.Finset
import Mathlib.Algebra.Order.Ring.Int
import Mathlib.Data.Fintype.Basic

/-!
# The memory of the tasks of a device

`allocateTaskMemory` gives a repeating copy the chunk of the copy at index `_allocFrom`. That number
counts distinct regions, and it is the number of the first region of the same object (`!=` looks at the
object only), but it is read as an index into the copies. So the chunk of a copy is the one prepared for
the copy that a chain of such indices leads to (`sources`), and it holds the copy's region when an
interval contains both (`chunks_cover_iff`).

A repeating copy takes a reference, and `releaseRegions` removes one for each distinct region. So the
counts of the chunks are the references of the tasks in flight and, for good, those of the repeating
copies of all tasks (`Counted`).
-/

namespace OmpSs.Core

open Lib Support

namespace MemController

open RegionCache

section
variable {δ : Type*} {host : Host δ} {shape : GlobalReg → Shape} {c c' : RegionCache}
  {ms ms' done P : List MemCacheCopy} {σ : List Nat}

/-! ## The repeating copies -/

/-- For each copy the copy whose chunk it gets, from the values of `_allocFrom`: itself, or what the copy
at that index got. -/
def sources (done : List Nat) : List (Option Nat) → List Nat
  | [] => done
  | none :: froms => sources (done ++ [done.length]) froms
  | some t :: froms => sources (done ++ [done[t]?.getD 0]) froms

/-- The copies of `done` have the chunks of the copies of `P` at the indices `σ`, which own theirs. -/
def Shares (P done : List MemCacheCopy) (σ : List Nat) : Prop :=
  List.Forall₂ (fun m s => ∃ m₀, P[s]? = some m₀ ∧ m₀.allocFrom = none ∧ m.chunk = m₀.chunk) done σ

theorem Shares.get {i : Nat} {m : MemCacheCopy} (h : Shares P done σ) (hm : done[i]? = some m) :
    ∃ s m₀, σ[i]? = some s ∧ P[s]? = some m₀ ∧ m₀.allocFrom = none ∧ m.chunk = m₀.chunk := by
  induction h generalizing i with
  | nil => cases hm
  | @cons a b done' σ' hab _ ih =>
    cases i with
    | zero =>
      obtain ⟨m₀, hm₀, hown, hchunk⟩ := hab
      simp only [List.getElem?_cons_zero, Option.some.injEq] at hm
      exact ⟨b, m₀, rfl, hm₀, hown, hm ▸ hchunk⟩
    | succ i => exact ih (by simpa using hm)

/-- What the loop over the repeating copies does. -/
structure Shared (P : List MemCacheCopy) (done ms : List MemCacheCopy) (c : RegionCache)
    (ms' : List MemCacheCopy) (c' : RegionCache) : Prop where
  same : ms'.map fixed = (done ++ ms).map fixed
  chunks : c'.chunks = c.chunks
  sound : c'.Sound
  underflows : c'.underflows = c.underflows
  count : ∀ q, c'.getReferenceCount q + sharedRefs done q = c.getReferenceCount q + sharedRefs ms' q
  own : ownRefs ms' = ownRefs (done ++ ms)
  keeps : ∀ m ∈ ms', m.allocFrom = none → m ∈ done ++ ms

theorem sharedRefs_append (ms ms' : List MemCacheCopy) (q : Nat) :
    sharedRefs (ms ++ ms') q = sharedRefs ms q + sharedRefs ms' q := List.countP_append

theorem ownRefs_append (ms ms' : List MemCacheCopy) (q : Nat) :
    ownRefs (ms ++ ms') q = ownRefs ms q + ownRefs ms' q := List.countP_append

/-- The loop never meets a copy without a chunk: an index it follows is that of an earlier copy. -/
theorem shareChunks_spec (hs : c.Sound) (hhold : OwnHold shape c P)
    (hsome : ∀ m ∈ P, m.allocFrom = none → m.chunk.isSome = true) (hshares : Shares P done σ)
    (hP : P.drop done.length = ms)
    (hlt : ∀ i t, (ms.map (·.allocFrom))[i]? = some (some t) → t < done.length + i) :
    ∃ ms' c', shareChunks done ms c = some (ms', c') ∧ Shared P done ms c ms' c' ∧
      Shares P ms' (sources σ (ms.map (·.allocFrom))) := by
  induction ms generalizing done σ c with
  | nil =>
    refine ⟨done, c, rfl, ⟨by simp, rfl, hs, rfl, fun _ => rfl, by simp, fun m hm _ => by simpa using hm⟩,
      hshares⟩
  | cons m ms ih =>
    have hm : P[done.length]? = some m := by
      rw [← List.head?_drop, hP]
      rfl
    have hdrop : P.drop (done.length + 1) = ms := by
      rw [← List.tail_drop, hP]
      rfl
    have hlt' : ∀ m' : MemCacheCopy, ∀ i t, (ms.map (·.allocFrom))[i]? = some (some t) →
        t < (done ++ [m']).length + i := by
      intro m' i t hi
      have := hlt (i + 1) t (by simpa using hi)
      simp only [List.length_append, List.length_singleton]
      omega
    rw [shareChunks]
    split
    · next hown =>
      have hshares' : Shares P (done ++ [m]) (σ ++ [done.length]) :=
        List.rel_append hshares (.cons ⟨m, hm, hown, rfl⟩ .nil)
      obtain ⟨ms', c', hrun, hshared, hall⟩ := ih hs hhold hshares' (by simpa using hdrop) (hlt' m)
      refine ⟨ms', c', hrun, ⟨by simpa using hshared.same, hshared.chunks, hshared.sound,
        hshared.underflows, fun q => ?_, by simpa using hshared.own,
        fun m' hm' hown' => by simpa using hshared.keeps m' hm' hown'⟩, ?_⟩
      · have := hshared.count q
        rw [sharedRefs_append, sharedRefs_cons] at this
        simpa [hown, sharedRefs] using this
      · simpa only [List.map_cons, hown, sources, hshares.length_eq] using hall
    · next t ht =>
      -- the copy at index `t` was handled before and has a chunk
      have hlen : t < done.length := by simpa using hlt 0 t (by simp [ht])
      obtain ⟨mt, hmt⟩ : ∃ mt, done[t]? = some mt := ⟨_, List.getElem?_eq_getElem hlen⟩
      obtain ⟨st, m₀, hst, hm₀, hown₀, hchunk⟩ := hshares.get hmt
      obtain ⟨p, hp⟩ := Option.isSome_iff_exists.1 (hsome m₀ (List.mem_of_getElem? hm₀) hown₀)
      have hget : (done ++ m :: ms)[t]?.bind (·.chunk) = some p := by
        rw [List.getElem?_append_left hlen, hmt]
        exact hchunk.trans hp
      rw [hget]
      have hplt := (hhold m₀ (List.mem_of_getElem? hm₀) hown₀ p hp).lt_length hs
      have hshares' : Shares P (done ++ [{ m with chunk := some p }]) (σ ++ [st]) :=
        List.rel_append hshares (.cons ⟨m₀, hm₀, hown₀, hp.symm⟩ .nil)
      obtain ⟨ms', c', hrun, hshared, hall⟩ := ih (c := c.addReference p) hs.addReference
        (hhold.mono (N := []) (.of_chunks rfl)) hshares' (by simpa using hdrop) (hlt' _)
      refine ⟨ms', c', hrun, ⟨?_, hshared.chunks, hshared.sound, hshared.underflows, fun q => ?_, ?_,
        fun m' hm' hown' => ?_⟩, ?_⟩
      · rw [hshared.same]
        simp [fixed]
      · have hcount := hshared.count q
        rw [getReferenceCount_addReference hplt, sharedRefs_append, sharedRefs_cons] at hcount
        simp only [ht, ne_eq, reduceCtorEq, not_false_eq_true, true_and, Option.some.injEq,
          eq_comm (a := p)] at hcount
        simp only [sharedRefs, List.countP_nil] at hcount ⊢
        push_cast at hcount
        linarith
      · rw [hshared.own]
        funext q
        simp [ownRefs_append, ownRefs_cons, ht]
      · have hmem := hshared.keeps m' hm' hown'
        simp only [List.append_assoc, List.mem_append, List.mem_cons, List.not_mem_nil, or_false] at hmem
        rcases hmem with hmem | rfl | hmem
        · exact List.mem_append_left _ hmem
        · rw [ht] at hown'
          cases hown'
        · exact List.mem_append_right _ (List.mem_cons_of_mem _ hmem)
      · simpa only [List.map_cons, ht, sources, hst, Option.getD_some] using hall

/-- The loop over all copies, after `prepareRegions`. -/
theorem shareChunks_prepared {copies : List MemCacheCopy} (hs : c.Sound) (hhold : OwnHold shape c ms)
    (hsome : ∀ m ∈ ms, m.allocFrom = none → m.chunk.isSome = true)
    (hfroms : ms.map (·.allocFrom) = allocFroms [] (copies.map (·.reg))) :
    ∃ ms' c', shareChunks [] ms c = some (ms', c') ∧ Shared ms [] ms c ms' c' ∧
      Shares ms ms' (sources [] (allocFroms [] (copies.map (·.reg)))) := by
  have hlt : ∀ i t, (ms.map (·.allocFrom))[i]? = some (some t) →
      t < ([] : List MemCacheCopy).length + i := by
    intro i t hi
    rw [hfroms] at hi
    exact lt_of_allocFroms hi
  obtain ⟨ms', c', hrun, hshared, hshares⟩ := shareChunks_spec hs hhold hsome .nil rfl hlt
  exact ⟨ms', c', hrun, hshared, hfroms ▸ hshares⟩

/-! ## Which chunk a copy gets -/

/-- Every region of a task has a copy that owns a chunk. -/
theorem exists_own_of_mem {regions rs : List GlobalReg} {r : GlobalReg} (h : r ∈ rs) (hnot : r ∉ regions) :
    ∃ i : Nat, rs[i]? = some r ∧ (allocFroms regions rs)[i]? = some none := by
  induction rs generalizing regions with
  | nil => cases h
  | cons r' rs ih =>
    unfold allocFroms
    rcases eq_or_ne r r' with rfl | hne
    · exact ⟨0, rfl, by simp [hnot]⟩
    · have hmem : r ∈ rs := (List.mem_cons.1 h).resolve_left hne
      split
      · obtain ⟨i, hi, hown⟩ := ih hmem hnot
        exact ⟨i + 1, by simpa using hi, by simpa using hown⟩
      · have hnot' : r ∉ regions ++ [r'] := by simp [hnot, hne]
        obtain ⟨i, hi, hown⟩ := ih hmem hnot'
        exact ⟨i + 1, by simpa using hi, by simpa using hown⟩

/-- The chunk of a copy is one of the cache, and its host interval contains the copy's region. -/
def ChunkCovers (c : RegionCache) (s : Shape) (m : MemCacheCopy) : Prop :=
  ∃ p k a, m.chunk = some p ∧ c.Holds k p ∧ c.objects[p]? = some a ∧
    a.hostInterval.contains s.extent = true

/-- Every copy can use the chunk of the copy it is led to: an interval, of the cache before or asked for
by the task, contains the bytes asked for there and reaches from the first to the last byte of the copy's
own region. -/
def Suits (shape : GlobalReg → Shape) (c : RegionCache) (regs : List GlobalReg) : Prop :=
  ∀ (i j : Nat) (r r' : GlobalReg), regs[i]? = some r →
    (sources [] (allocFroms [] regs))[i]? = some j → regs[j]? = some r' →
    ∃ k, (c.HasKey k ∨ ∃ q ∈ regs, k = (shape q).dataChunk) ∧
      k.contains (shape r').dataChunk = true ∧ k.contains (shape r).extent = true

theorem contains_trans {a b c : MemoryChunk} (h : a.contains b = true) (h' : b.contains c = true) :
    a.contains c = true := by
  rw [MemoryChunk.contains_iff] at *
  exact ⟨le_trans h.1 h'.1, le_trans h'.2 h.2⟩

/-- The interval of a chunk that holds the data of the region `r'` contains another interval exactly when
an interval of before, or one the task asks for, contains both. -/
theorem holds_contains_iff {N : List MemoryChunk} {k n : MemoryChunk} {p : Nat} {s : Shape}
    (hg : Grows N c c') (hN : ∀ n ∈ N, ∃ k, c'.HasKey k ∧ k.contains n = true) (hk : c'.Holds k p)
    (hin : k.contains s.dataChunk = true) :
    k.contains n = true ↔
      ∃ k', (c.HasKey k' ∨ k' ∈ N) ∧ k'.contains s.dataChunk = true ∧ k'.contains n = true := by
  constructor
  · intro hn
    rcases hg.added k hk.hasKey with hold | ⟨n', hn', hcon⟩
    · exact ⟨k, .inl hold, hin, hn⟩
    · exact ⟨n', .inr hn', contains_trans hcon hin, contains_trans hcon hn⟩
  · rintro ⟨k', hk', hin', hn⟩
    rcases hk' with hold | hnew
    · rwa [hk.hasKey.eq_of_contains (hg.keys k' hold) s.dataChunk_pos hin hin']
    · obtain ⟨k'', hk'', hcon⟩ := hN k' hnew
      rw [hk.hasKey.eq_of_contains hk'' s.dataChunk_pos hin (contains_trans hcon hin')]
      exact contains_trans hcon hn

/-- When `prepareRegions` succeeds, the task gets its memory, and the chunk of every copy covers the
copy's region exactly when the regions suit the places the indices lead to. -/
theorem chunks_cover_iff {copies ms : List MemCacheCopy} {c₁ : RegionCache} {d d₁ : δ} (hs : c.Sound)
    (hhold : AllHold shape c copies)
    (hprep : prepareRegions host shape copies c d = some (true, ms, c₁, d₁)) :
    ∃ ctl c', allocateTaskMemory host shape ⟨copies, false⟩ c d = some (true, ctl, c', d₁) ∧
      ctl.copies.map (·.reg) = copies.map (·.reg) ∧
      ((∀ m ∈ ctl.copies, ChunkCovers c' (shape m.reg) m) ↔ Suits shape c (copies.map (·.reg))) := by
  obtain ⟨hbad, -⟩ | ⟨-, hfill, hsome⟩ | ⟨hbad, -⟩ := prepareRegions_cases hs hhold hprep
  · cases hbad
  swap
  · cases hbad
  have hprepared := prepared_of_compact hfill.kept hfill.same
  obtain ⟨ms', c', hrun, hshared, hshares⟩ :=
    shareChunks_prepared hfill.kept.sound hfill.holds hsome hprepared.froms
  have hregs : ms'.map (·.reg) = copies.map (·.reg) :=
    (map_eq_of_fixed _ (fun _ => rfl) (by simpa using hshared.same)).trans hprepared.regs
  refine ⟨⟨ms', true⟩, c', ?_, hregs, ?_⟩
  · simp [allocateTaskMemory, hprep, hrun]
  -- the entries of the cache are those of the end of `prepareRegions`
  have hholds : ∀ k p, c'.Holds k p ↔ c₁.Holds k p := fun k p => by
    simp only [Holds, hshared.chunks]
  have hN : ∀ n ∈ dataChunks shape copies, ∃ k, c₁.HasKey k ∧ k.contains n = true := by
    intro n hn
    obtain ⟨m, hm, rfl⟩ := List.mem_map.1 hn
    obtain ⟨i, hi, hown⟩ := exists_own_of_mem (List.mem_map.2 ⟨m, hm, rfl⟩) (List.not_mem_nil)
    rw [← hprepared.regs, List.getElem?_map, Option.map_eq_some_iff] at hi
    rw [← hprepared.froms, List.getElem?_map, Option.map_eq_some_iff] at hown
    obtain ⟨m₁, hm₁, hreg⟩ := hi
    obtain ⟨m₂, hm₂, hown⟩ := hown
    obtain rfl : m₁ = m₂ := by rw [hm₁] at hm₂; exact Option.some.inj hm₂
    have hmem := List.mem_of_getElem? hm₁
    obtain ⟨p, hp⟩ := Option.isSome_iff_exists.1 (hsome m₁ hmem hown)
    obtain ⟨k, hk, hin⟩ := hfill.holds m₁ hmem hown p hp
    exact ⟨k, hk.hasKey, hreg ▸ hin⟩
  -- one copy: the chunk it has, and what that says of the copy it is led to
  have hcopy : ∀ (i : Nat) m, ms'[i]? = some m → ∃ j r',
      (sources [] (allocFroms [] (copies.map (·.reg))))[i]? = some j ∧
      (copies.map (·.reg))[j]? = some r' ∧
      (ChunkCovers c' (shape m.reg) m ↔ ∃ k, (c.HasKey k ∨ k ∈ dataChunks shape copies) ∧
        k.contains (shape r').dataChunk = true ∧ k.contains (shape m.reg).extent = true) := by
    intro i m hm
    obtain ⟨j, m₀, hj, hm₀, hown, hchunk⟩ := hshares.get hm
    have hmem := List.mem_of_getElem? hm₀
    obtain ⟨p, hp⟩ := Option.isSome_iff_exists.1 (hsome m₀ hmem hown)
    obtain ⟨k, hk, hin⟩ := hfill.holds m₀ hmem hown p hp
    refine ⟨j, m₀.reg, hj, ?_, ?_⟩
    · rw [← hprepared.regs, List.getElem?_map, hm₀]
      rfl
    · rw [← holds_contains_iff hprepared.kept.grows hN hk hin]
      constructor
      · rintro ⟨p', k', a, hp', hk', ha, hcon⟩
        obtain rfl : p' = p := Option.some.inj (hp'.symm.trans (hchunk.trans hp))
        obtain ⟨a', ha', hint⟩ := hshared.sound.object k p' ((hholds k p').2 hk)
        obtain rfl : a = a' := Option.some.inj (ha.symm.trans ha')
        rwa [hint] at hcon
      · intro hcon
        obtain ⟨a, ha, hint⟩ := hshared.sound.object k p ((hholds k p).2 hk)
        exact ⟨p, k, a, hchunk.trans hp, (hholds k p).2 hk, ha, by rwa [hint]⟩
  have hdata : ∀ k, k ∈ dataChunks shape copies ↔ ∃ q ∈ copies.map (·.reg), k = (shape q).dataChunk := by
    intro k
    simp only [dataChunks, List.mem_map]
    constructor
    · rintro ⟨m, hm, rfl⟩
      exact ⟨m.reg, ⟨m, hm, rfl⟩, rfl⟩
    · rintro ⟨q, ⟨m, hm, rfl⟩, rfl⟩
      exact ⟨m, hm, rfl⟩
  constructor
  · intro hall i j r r' hr hj hr'
    rw [← hregs, List.getElem?_map, Option.map_eq_some_iff] at hr
    obtain ⟨m, hm, rfl⟩ := hr
    obtain ⟨j', r'', hj', hr'', hiff⟩ := hcopy i m hm
    obtain rfl : j' = j := Option.some.inj (hj'.symm.trans hj)
    obtain rfl : r'' = r' := Option.some.inj (hr''.symm.trans hr')
    simpa only [hdata] using hiff.1 (hall m (List.mem_of_getElem? hm))
  · intro hsuits m hm
    obtain ⟨i, hi⟩ := List.getElem?_of_mem hm
    obtain ⟨j, r', hj, hr', hiff⟩ := hcopy i m hi
    refine hiff.2 ?_
    have hr : (copies.map (·.reg))[i]? = some m.reg := by
      rw [← hregs, List.getElem?_map, hi]
      rfl
    simpa only [hdata] using hsuits i j m.reg r' hr hj hr'

end

/-! ### Two objects, one region each -/

/-- A device that always has memory, and no other threads. -/
def freeHost : Host Unit where
  memCapacity := 2 ^ 20
  memAllocate _ _ := (some 0, ())
  tryAcquire _ := (true, ())
  trylock _ _ := (true, ())
  invalidate _ _ := (false, ())

/-- Objects of 64 bytes, 4096 bytes apart, each a region as a whole. -/
def wholeShape (r : GlobalReg) : Shape where
  dims := [(64, ⟨0, 64⟩)]
  realBaseAddress := 4096 * r.key
  pos := by simp

theorem sound_empty : ({} : RegionCache).Sound where
  object _ _ h := by cases h
  injective _ _ _ h := by cases h

/-- A task with a region twice in a row at the end of its list. -/
theorem chunks_cover_iff_abb :
    ∃ ctl c', allocateTaskMemory freeHost wholeShape
        ⟨[{ reg := ⟨1, 1⟩ }, { reg := ⟨2, 1⟩ }, { reg := ⟨2, 1⟩ }], false⟩ {} () = some (true, ctl, c', ()) ∧
      ctl.copies.map (·.reg) = [⟨1, 1⟩, ⟨2, 1⟩, ⟨2, 1⟩] ∧
      ((∀ m ∈ ctl.copies, ChunkCovers c' (wholeShape m.reg) m) ↔
        Suits wholeShape {} [⟨1, 1⟩, ⟨2, 1⟩, ⟨2, 1⟩]) :=
  chunks_cover_iff sound_empty (fun m hm p hp => by simp at hm; rcases hm with rfl | rfl <;> cases hp) rfl

/-- With the copies `A A B B` the last copy gets the chunk of `A`: its region is the second distinct one,
and the copy at index 1 is of `A`. -/
theorem not_covered_aabb :
    ∃ ctl c', (∃ ms c₁, prepareRegions freeHost wholeShape
        [{ reg := ⟨1, 1⟩ }, { reg := ⟨1, 1⟩ }, { reg := ⟨2, 1⟩ }, { reg := ⟨2, 1⟩ }] {} () =
          some (true, ms, c₁, ())) ∧
      allocateTaskMemory freeHost wholeShape
        ⟨[{ reg := ⟨1, 1⟩ }, { reg := ⟨1, 1⟩ }, { reg := ⟨2, 1⟩ }, { reg := ⟨2, 1⟩ }], false⟩ {} () =
          some (true, ctl, c', ()) ∧
      ¬ ∀ m ∈ ctl.copies, ChunkCovers c' (wholeShape m.reg) m := by
  refine ⟨_, _, ⟨_, _, rfl⟩, rfl, fun h => ?_⟩
  obtain ⟨p, k, a, hp, -, ha, hcon⟩ := h ⟨⟨2, 1⟩, some 0, .writeBack, some 1⟩ (by decide)
  cases hp
  cases ha
  revert hcon
  decide

end MemController

/-! ## Releasing -/

namespace RegionCache

section
variable {shape : GlobalReg → Shape} {c c' : RegionCache} {ms : List MemCacheCopy}

/-- The lookup of a region whose data a chunk holds finds that chunk, if it returns. -/
theorem getAllocatedChunk_eq {s : Shape} {p p' : Nat} (h : c.HoldsData s p)
    (hget : c.getAllocatedChunk s = some p') : p' = p := by
  obtain ⟨k, hk, hin⟩ := h
  have hfirst : k.InChunk s.extent.addr :=
    MemoryChunk.contains_inChunk hin ⟨le_refl _, Nat.lt_add_of_pos_right s.getDataSize_pos⟩
  have hhead := MemoryMap.getChunk_head? s.extent_pos hk hfirst
  unfold getAllocatedChunk at hget
  split at hget
  · next hres =>
    rw [hres] at hhead
    cases hget
    simpa using congrArg (fun o => o.map Prod.snd) hhead
  · cases hget

/-- What `releaseRegions` does with a write-back policy: it removes the references of the copies that own
a chunk. -/
structure Released (ms : List MemCacheCopy) (c c' : RegionCache) : Prop where
  chunks : c'.chunks = c.chunks
  sound : c'.Sound
  count : ∀ q, c'.getReferenceCount q = c.getReferenceCount q - ownRefs ms q
  underflows : (∀ q, 0 ≤ c'.getReferenceCount q) → c'.underflows = c.underflows

theorem releaseRegions_spec {released : List GlobalReg} (hs : c.Sound) (hhold : OwnHold shape c ms)
    (hfroms : ms.map (·.allocFrom) = allocFroms released (ms.map (·.reg)))
    (hsome : ∀ m ∈ ms, m.allocFrom = none → m.chunk.isSome = true)
    (hpolicy : ∀ m ∈ ms, m.policy ≠ .noCache)
    (h : releaseRegions shape released ms c = some c') : Released ms c c' := by
  induction ms generalizing c released with
  | nil =>
    cases h
    exact ⟨rfl, hs, fun q => by simp [ownRefs], fun _ => rfl⟩
  | cons m ms ih =>
    have hrest := hhold.of_cons.2
    have hsome' : ∀ m' ∈ ms, m'.allocFrom = none → m'.chunk.isSome = true :=
      fun m' hm' => hsome m' (List.mem_cons_of_mem _ hm')
    have hpolicy' : ∀ m' ∈ ms, m'.policy ≠ .noCache := fun m' hm' => hpolicy m' (List.mem_cons_of_mem _ hm')
    simp only [List.map_cons, allocFroms] at hfroms
    rw [releaseRegions] at h
    split at h
    · next hmem =>
      rw [if_pos hmem] at hfroms
      obtain ⟨hdup, hfroms⟩ := List.cons_eq_cons.1 hfroms
      have hr := ih hs hrest hfroms hsome' hpolicy' h
      refine ⟨hr.chunks, hr.sound, fun q => ?_, hr.underflows⟩
      rw [hr.count q, ownRefs_cons, if_neg (by simp [hdup]), Nat.add_zero]
    · next hmem =>
      rw [if_neg hmem] at hfroms
      obtain ⟨hown, hfroms⟩ := List.cons_eq_cons.1 hfroms
      obtain ⟨p', hget, h⟩ := Option.bind_eq_some_iff.1 h
      obtain ⟨p, hp⟩ := Option.isSome_iff_exists.1 (hsome m (by simp) hown)
      have hholds := hhold m (by simp) hown p hp
      obtain rfl := getAllocatedChunk_eq hholds hget
      have hlt := hholds.lt_length hs
      dsimp only at h
      split at h
      · rw [if_neg (fun hand => hpolicy m (by simp) hand.2)] at h
        have hr := ih (c := c.removeReference p') hs.removeReference
          (hrest.mono (N := []) (.of_chunks rfl)) hfroms hsome' hpolicy' h
        have hcount : ∀ q, c'.getReferenceCount q = c.getReferenceCount q - ownRefs (m :: ms) q := by
          intro q
          rw [hr.count q, getReferenceCount_removeReference hlt, ownRefs_cons]
          simp only [hown, hp, true_and, Option.some.injEq, eq_comm (a := p')]
          push_cast
          ring
        refine ⟨hr.chunks, hr.sound, hcount, fun hnonneg => ?_⟩
        rw [hr.underflows hnonneg, removeReference_underflows]
        have hfinal := hnonneg p'
        rw [hcount p', ownRefs_cons, if_pos ⟨hown, hp⟩] at hfinal
        push_cast at hfinal
        have : (0 : Int) ≤ ownRefs ms p' := Int.natCast_nonneg _
        linarith
      · cases h

end

end RegionCache

/-! ## The tasks of a device -/

/-- The cache of a device, its allocator and the other threads, the tasks, and which of them have released
their regions. -/
structure TaskSystem (τ δ : Type*) where
  cache : RegionCache := {}
  dev : δ
  task : τ → MemController
  released : τ → Bool := fun _ => false

/-- A call of `allocateTaskMemory` (which a task repeats until it succeeds) or of `releaseRegions`. -/
inductive TaskEvent (τ : Type*)
  | allocate (t : τ)
  | release (t : τ)

namespace TaskSystem

open RegionCache MemController

section
variable {τ δ : Type*} [DecidableEq τ] (host : Host δ) (shape : GlobalReg → Shape)

/-- Tasks before they are allocated, with the regions of their copies. -/
def init (tasks : τ → List GlobalReg) (d : δ) : TaskSystem τ δ where
  dev := d
  task t := ⟨(tasks t).map fun r => { reg := r }, false⟩

/-- A task releases its regions once, after its memory was allocated. -/
def step (s : TaskSystem τ δ) : TaskEvent τ → Option (TaskSystem τ δ)
  | .allocate t =>
    if s.released t then none
    else
      (allocateTaskMemory host shape (s.task t) s.cache s.dev).map fun r =>
        { s with cache := r.2.2.1, dev := r.2.2.2, task := Function.update s.task t r.2.1 }
  | .release t =>
    if (s.task t).memoryAllocated && !s.released t then
      (releaseRegions shape [] (s.task t).copies s.cache).map fun c =>
        { s with cache := c, released := Function.update s.released t true }
    else none

variable {host shape} {tasks : τ → List GlobalReg} {s s' : TaskSystem τ δ} {d₀ : δ}

/-- The copies of an allocated task: every copy has a chunk, and the chunks of those that own one hold
their data. -/
structure TaskReady (shape : GlobalReg → Shape) (rs : List GlobalReg) (c : RegionCache)
    (ms : List MemCacheCopy) : Prop where
  regs : ms.map (·.reg) = rs
  froms : ms.map (·.allocFrom) = allocFroms [] rs
  policies : ∀ m ∈ ms, m.policy = .writeBack
  chunk : ∀ m ∈ ms, m.chunk.isSome = true
  holds : OwnHold shape c ms

/-- The copies of a task that has no memory. -/
structure TaskIdle (rs : List GlobalReg) (ms : List MemCacheCopy) : Prop where
  regs : ms.map (·.reg) = rs
  policies : ∀ m ∈ ms, m.policy = .writeBack
  chunk : ∀ m ∈ ms, m.chunk = none

/-- The references a task has on a chunk: those of the repeating copies stay when the task is released. -/
def taskRefs (s : TaskSystem τ δ) (q : Nat) (t : τ) : Int :=
  sharedRefs (s.task t).copies q + if s.released t then 0 else (ownRefs (s.task t).copies q : Int)

/-- The invariant of all runs: the count of every chunk is the sum of the tasks' references on it. -/
structure Counted [Fintype τ] (shape : GlobalReg → Shape) (tasks : τ → List GlobalReg)
    (s : TaskSystem τ δ) : Prop where
  sound : s.cache.Sound
  ready : ∀ t, (s.task t).memoryAllocated = true → TaskReady shape (tasks t) s.cache (s.task t).copies
  idle : ∀ t, (s.task t).memoryAllocated = false → TaskIdle (tasks t) (s.task t).copies
  allocated : ∀ t, s.released t = true → (s.task t).memoryAllocated = true
  count : ∀ q, s.cache.getReferenceCount q = ∑ t, s.taskRefs q t
  underflows : s.cache.underflows = 0

/-! ### What an allocation does -/

theorem TaskReady.mono {N : List MemoryChunk} {rs : List GlobalReg} {c c' : RegionCache}
    {ms : List MemCacheCopy} (h : TaskReady shape rs c ms) (hg : Grows N c c') :
    TaskReady shape rs c' ms :=
  ⟨h.regs, h.froms, h.policies, h.chunk, h.holds.mono hg⟩

/-- The references of copies without chunks. -/
theorem refs_of_null {ms : List MemCacheCopy} (h : ∀ m ∈ ms, m.chunk = none) (q : Nat) :
    ownRefs ms q = 0 ∧ sharedRefs ms q = 0 := by
  refine ⟨List.countP_eq_zero.2 fun m hm => ?_, List.countP_eq_zero.2 fun m hm => ?_⟩ <;>
    simp [h m hm]

/-- Copies that hold no reference have no chunk. -/
theorem null_of_refs {ms : List MemCacheCopy} (hown : ∀ m ∈ ms, m.allocFrom = none → m.chunk = none)
    (hshared : ∀ q, sharedRefs ms q = 0) : ∀ m ∈ ms, m.chunk = none := by
  intro m hm
  cases hfrom : m.allocFrom with
  | none => exact hown m hm hfrom
  | some t =>
    cases hchunk : m.chunk with
    | none => rfl
    | some q =>
      have := List.countP_eq_zero.1 (hshared q) m hm
      simp [hfrom, hchunk] at this

theorem policies_of_map {ms ms' : List MemCacheCopy} (h : ms'.map (·.policy) = ms.map (·.policy))
    (hms : ∀ m ∈ ms, m.policy = .writeBack) : ∀ m ∈ ms', m.policy = .writeBack := by
  intro m hm
  have hmem : m.policy ∈ ms'.map (·.policy) := List.mem_map.2 ⟨m, hm, rfl⟩
  rw [h] at hmem
  obtain ⟨m₀, hm₀, heq⟩ := List.mem_map.1 hmem
  rw [← heq]
  exact hms m₀ hm₀

/-- What `allocateTaskMemory` does for a task without memory: the task gets its memory and its
references, or nothing changes but the entries of the map. -/
theorem allocateTaskMemory_idle {rs : List GlobalReg} {ctl ctl' : MemController} {c c' : RegionCache}
    {d d' : δ} {ok : Bool} (hs : c.Sound) (hflag : ctl.memoryAllocated = false)
    (hidle : TaskIdle rs ctl.copies) (hnonneg : ∀ q, 0 ≤ c.getReferenceCount q)
    (h : allocateTaskMemory host shape ctl c d = some (ok, ctl', c', d')) :
    Kept (dataChunks shape ctl.copies) c c' ∧
      (ctl'.memoryAllocated = true ∧ TaskReady shape rs c' ctl'.copies ∧
        (∀ q, c'.getReferenceCount q =
          c.getReferenceCount q + sharedRefs ctl'.copies q + ownRefs ctl'.copies q) ∨
      ctl'.memoryAllocated = false ∧ TaskIdle rs ctl'.copies ∧
        ∀ q, c'.getReferenceCount q = c.getReferenceCount q) := by
  have hhold : AllHold shape c ctl.copies := fun m hm p hp => by
    rw [hidle.chunk m hm] at hp
    cases hp
  have hnull : ∀ m ∈ (compact [] ctl.copies).2, m.chunk = none := by
    intro m hm
    have hmem : m.chunk ∈ (compact [] ctl.copies).2.map (·.chunk) := List.mem_map.2 ⟨m, hm, rfl⟩
    have hchunks : (compact [] ctl.copies).2.map (·.chunk) = ctl.copies.map (·.chunk) := by
      simpa [Function.comp_def] using congrArg (List.map fun e => e.2.1) (compact_spec [] ctl.copies).1
    rw [hchunks] at hmem
    obtain ⟨m₀, hm₀, heq⟩ := List.mem_map.1 hmem
    rw [← heq, hidle.chunk m₀ hm₀]
  rw [allocateTaskMemory, if_neg (by simp [hflag])] at h
  obtain ⟨⟨ok₁, ms₁, c₁, d₁⟩, hprep, hrest⟩ := Option.bind_eq_some_iff.1 h
  clear h
  obtain ⟨rfl, rfl, rfl⟩ | ⟨rfl, hfill, hsome⟩ | ⟨rfl, ms₂, c₂, hfill, hback⟩ :=
    prepareRegions_cases hs hhold hprep
  · -- the cache's lock is taken
    cases hrest
    have hkept := Kept.refl (N := dataChunks shape (compact [] ctl.copies).2) hs
    have hprepared := prepared_of_compact hkept rfl
    refine ⟨.refl hs, .inr ⟨rfl, ⟨hprepared.regs.trans hidle.regs, ?_, hnull⟩, fun _ => rfl⟩⟩
    exact policies_of_map hprepared.policies hidle.policies
  · have hprepared := prepared_of_compact hfill.kept hfill.same
    obtain ⟨ms', c'', hrun, hshared, hshares⟩ :=
      shareChunks_prepared hfill.kept.sound hfill.holds hsome hprepared.froms
    simp only [if_true, hrun, Option.map_some, Option.some.injEq, Prod.mk.injEq] at hrest
    obtain ⟨-, rfl, rfl, -⟩ := hrest
    have hsame : ms'.map fixed = ms₁.map fixed := hshared.same
    have hgrows : Grows [] c₁ c'' := .of_chunks hshared.chunks
    refine ⟨⟨hshared.sound, hprepared.kept.grows.trans (hgrows.mono (by simp)),
      hshared.underflows.trans hprepared.kept.underflows⟩, .inl ⟨rfl, ⟨?_, ?_, ?_, ?_, ?_⟩, ?_⟩⟩
    · exact ((map_eq_of_fixed _ (fun _ => rfl) hsame).trans hprepared.regs).trans hidle.regs
    · rw [map_eq_of_fixed (fun m => m.allocFrom) (fun _ => rfl) hsame, hprepared.froms, hidle.regs]
    · exact policies_of_map ((map_eq_of_fixed _ (fun _ => rfl) hsame).trans hprepared.policies)
        hidle.policies
    · intro m hm
      obtain ⟨i, hi⟩ := List.getElem?_of_mem hm
      obtain ⟨j, m₀, -, hm₀, hown, hchunk⟩ := hshares.get hi
      rw [hchunk]
      exact hsome m₀ (List.mem_of_getElem? hm₀) hown
    · intro m hm hown
      exact hfill.holds.mono hgrows m (hshared.keeps m hm hown) hown
    · intro q
      have h₁ := hfill.count q
      have h₂ := hshared.count q
      rw [(refs_of_null hnull q).1] at h₁
      rw [hshared.own]
      simp only [sharedRefs, List.countP_nil, List.nil_append] at h₂ ⊢
      push_cast at h₁ h₂
      linarith
  · cases hrest
    have hcount : ∀ q, c'.getReferenceCount q = c.getReferenceCount q := by
      intro q
      have h₁ := hfill.count q
      rw [(refs_of_null hnull q).1] at h₁
      rw [hback.count q]
      push_cast at h₁
      linarith
    have hprepared := prepared_of_compact hfill.kept (hback.same.trans hfill.same)
    have hgrows : Grows [] c₂ c' := .of_chunks hback.chunks
    have hbelow : c'.underflows = c₂.underflows := hback.underflows fun q => hcount q ▸ hnonneg q
    refine ⟨⟨hback.sound, hprepared.kept.grows.trans (hgrows.mono (by simp)),
      hbelow.trans hprepared.kept.underflows⟩, .inr ⟨rfl, ⟨hprepared.regs.trans hidle.regs, ?_, ?_⟩, hcount⟩⟩
    · exact policies_of_map hprepared.policies hidle.policies
    · refine null_of_refs hback.null fun q => ?_
      rw [hback.shared, hfill.shared]
      exact (refs_of_null hnull q).2

/-! ### Runs -/

variable [Fintype τ]

omit [DecidableEq τ] in
theorem counted_init (tasks : τ → List GlobalReg) (d : δ) : Counted shape tasks (init tasks d) where
  sound := sound_empty
  ready t h := by cases h
  idle t _ := by
    refine ⟨by simp [init, Function.comp_def], fun m hm => ?_, fun m hm => ?_⟩ <;>
      obtain ⟨r, -, rfl⟩ := List.mem_map.1 hm <;> rfl
  allocated t h := by cases h
  count q := by
    refine (Finset.sum_eq_zero fun t _ => ?_).symm
    have hnull : ∀ m ∈ ((init tasks d).task t).copies, m.chunk = none := by
      intro m hm
      obtain ⟨r, -, rfl⟩ := List.mem_map.1 hm
      rfl
    obtain ⟨hown, hshared⟩ := refs_of_null hnull q
    simp [taskRefs, hown, hshared]
  underflows := rfl

omit [DecidableEq τ] [Fintype τ] in
theorem taskRefs_nonneg (s : TaskSystem τ δ) (q : Nat) (t : τ) : 0 ≤ s.taskRefs q t := by
  unfold taskRefs
  split <;> omega

omit [DecidableEq τ] in
theorem Counted.nonneg (h : Counted shape tasks s) (q : Nat) : 0 ≤ s.cache.getReferenceCount q := by
  rw [h.count q]
  exact Finset.sum_nonneg fun t _ => s.taskRefs_nonneg q t

/-- A sum over the tasks in which one term changes. -/
theorem sum_change {f g : τ → Int} {t : τ} (h : ∀ t', t' ≠ t → g t' = f t') :
    ∑ t', g t' = (∑ t', f t') + (g t - f t) := by
  have hrest : ∑ t' ∈ Finset.univ.erase t, g t' = ∑ t' ∈ Finset.univ.erase t, f t' :=
    Finset.sum_congr rfl fun t' ht' => h t' (Finset.ne_of_mem_erase ht')
  rw [← Finset.add_sum_erase _ g (Finset.mem_univ t), ← Finset.add_sum_erase _ f (Finset.mem_univ t), hrest]
  ring

theorem counted_allocate {t : τ} (h : Counted shape tasks s)
    (hstep : step host shape s (.allocate t) = some s') : Counted shape tasks s' := by
  rw [step] at hstep
  split at hstep
  · cases hstep
  · next hreleased =>
    obtain ⟨⟨ok, ctl, c', d'⟩, hrun, hs'⟩ := Option.map_eq_some_iff.1 hstep
    subst hs'
    cases hflag : (s.task t).memoryAllocated with
    | true =>
      rw [allocateTaskMemory, if_pos hflag] at hrun
      cases hrun
      rwa [Function.update_eq_self]
    | false =>
      obtain ⟨hkept, hcases⟩ := allocateTaskMemory_idle h.sound hflag (h.idle t hflag) h.nonneg hrun
      have hbefore : ∀ q, s.taskRefs q t = 0 := by
        intro q
        obtain ⟨hown, hshared⟩ := refs_of_null (h.idle t hflag).chunk q
        simp [taskRefs, hown, hshared]
      refine ⟨hkept.sound, fun t' ht' => ?_, fun t' ht' => ?_, fun t' ht' => ?_, fun q => ?_,
        hkept.underflows.trans h.underflows⟩
      · rcases eq_or_ne t' t with rfl | hne
        · dsimp only at ht' ⊢
          rw [Function.update_self] at ht' ⊢
          rcases hcases with ⟨-, hready, -⟩ | ⟨hfalse, -, -⟩
          · exact hready
          · rw [hfalse] at ht'
            cases ht'
        · dsimp only at ht' ⊢
          rw [Function.update_of_ne hne] at ht' ⊢
          exact (h.ready t' ht').mono hkept.grows
      · rcases eq_or_ne t' t with rfl | hne
        · dsimp only at ht' ⊢
          rw [Function.update_self] at ht' ⊢
          rcases hcases with ⟨htrue, -, -⟩ | ⟨-, hidle, -⟩
          · rw [htrue] at ht'
            cases ht'
          · exact hidle
        · dsimp only at ht' ⊢
          rw [Function.update_of_ne hne] at ht' ⊢
          exact h.idle t' ht'
      · rcases eq_or_ne t' t with rfl | hne
        · exact absurd ht' hreleased
        · dsimp only
          rw [Function.update_of_ne hne]
          exact h.allocated t' ht'
      · have hother : ∀ t', t' ≠ t →
            taskRefs { s with cache := c', dev := d', task := Function.update s.task t ctl } q t' =
              s.taskRefs q t' := by
          intro t' hne
          simp only [taskRefs, Function.update_of_ne hne]
        rw [sum_change hother, ← h.count q, hbefore q]
        simp only [taskRefs, Function.update_self, if_neg hreleased]
        rcases hcases with ⟨-, -, hcount⟩ | ⟨-, hidle, hcount⟩
        · rw [hcount q]
          ring
        · obtain ⟨hown, hshared⟩ := refs_of_null hidle.chunk q
          simp [hcount q, hown, hshared]

theorem counted_release {t : τ} (h : Counted shape tasks s)
    (hstep : step host shape s (.release t) = some s') : Counted shape tasks s' := by
  rw [step] at hstep
  split at hstep
  · next hcond =>
    simp only [Bool.and_eq_true, Bool.not_eq_true'] at hcond
    obtain ⟨c', hrun, hs'⟩ := Option.map_eq_some_iff.1 hstep
    subst hs'
    have hready := h.ready t hcond.1
    have hrel := releaseRegions_spec h.sound hready.holds (hready.regs ▸ hready.froms)
      (fun m hm _ => hready.chunk m hm) (fun m hm => by simp [hready.policies m hm]) hrun
    have hgrows : Grows [] s.cache c' := .of_chunks hrel.chunks
    have hcount : ∀ q, c'.getReferenceCount q =
        ∑ t', taskRefs { s with cache := c', released := Function.update s.released t true } q t' := by
      intro q
      have hother : ∀ t', t' ≠ t →
          taskRefs { s with cache := c', released := Function.update s.released t true } q t' =
            s.taskRefs q t' := by
        intro t' hne
        simp only [taskRefs, Function.update_of_ne hne]
      rw [sum_change hother, ← h.count q, hrel.count q]
      simp only [taskRefs, Function.update_self, if_true, hcond.2, Bool.false_eq_true, if_false]
      ring
    have hnonneg : ∀ q, 0 ≤ c'.getReferenceCount q := by
      intro q
      rw [hcount q]
      exact Finset.sum_nonneg fun t' _ => taskRefs_nonneg _ q t'
    refine ⟨hrel.sound, fun t' ht' => (h.ready t' ht').mono hgrows, h.idle, fun t' ht' => ?_, hcount,
      (hrel.underflows hnonneg).trans h.underflows⟩
    rcases eq_or_ne t' t with rfl | hne
    · exact hcond.1
    · dsimp only at ht'
      rw [Function.update_of_ne hne] at ht'
      exact h.allocated t' ht'
  · cases hstep

theorem counted_of_reach
    (h : Reach (step host shape) (fun _ _ => True) (init tasks d₀) s) : Counted shape tasks s := by
  refine h.invariant (counted_init tasks d₀) fun s e s' ih _ hstep => ?_
  cases e with
  | allocate t => exact counted_allocate ih hstep
  | release t => exact counted_release ih hstep

/-! ### The repeating copies keep their references -/

/-- A list of regions without repetition has no repeating copy. -/
theorem allocFroms_eq_none_iff {regions rs : List GlobalReg} :
    (∀ o ∈ allocFroms regions rs, o = none) ↔ rs.Nodup ∧ ∀ r ∈ rs, r ∉ regions := by
  induction rs generalizing regions with
  | nil => simp [allocFroms]
  | cons r rs ih =>
    unfold allocFroms
    split
    · next hmem => simp [hmem]
    · next hmem =>
      simp only [List.forall_mem_cons, true_and, ih, List.nodup_cons, List.mem_append,
        List.mem_singleton, not_or]
      constructor
      · rintro ⟨hnodup, hall⟩
        exact ⟨⟨fun hr => (hall r hr).2 rfl, hnodup⟩, hmem, fun r' hr' => (hall r' hr').1⟩
      · rintro ⟨⟨hr, hnodup⟩, -, hall⟩
        exact ⟨hnodup, fun r' hr' => ⟨hall r' hr', fun heq => hr (heq ▸ hr')⟩⟩

/-- The repeating copies of an allocated task hold no reference exactly when there are none. -/
theorem TaskReady.sharedRefs_eq_zero_iff {rs : List GlobalReg} {c : RegionCache}
    {ms : List MemCacheCopy} (h : TaskReady shape rs c ms) : (∀ q, sharedRefs ms q = 0) ↔ rs.Nodup := by
  have hiff : rs.Nodup ↔ ∀ m ∈ ms, m.allocFrom = none := by
    have := @allocFroms_eq_none_iff [] rs
    rw [← h.froms] at this
    simpa using this.symm
  rw [hiff]
  constructor
  · intro hzero m hm
    by_contra hfrom
    obtain ⟨q, hq⟩ := Option.isSome_iff_exists.1 (h.chunk m hm)
    have := List.countP_eq_zero.1 (hzero q) m hm
    simp [hfrom, hq] at this
  · intro hnone q
    refine List.countP_eq_zero.2 fun m hm => ?_
    simp [hnone m hm]

/-- In every run no count falls below zero; and when all tasks that were allocated have been released, the
counts are zero exactly when none of them has two copies of one region. -/
theorem references_balanced_iff
    (h : Reach (step host shape) (fun _ _ => True) (init tasks d₀) s) :
    s.cache.underflows = 0 ∧ (∀ q, 0 ≤ s.cache.getReferenceCount q) ∧
      ((∀ t, (s.task t).memoryAllocated = true → s.released t = true) →
        ((∀ q, s.cache.getReferenceCount q = 0) ↔
          ∀ t, (s.task t).memoryAllocated = true → (tasks t).Nodup)) := by
  have hinv := counted_of_reach h
  refine ⟨hinv.underflows, hinv.nonneg, fun hall => ?_⟩
  have hrefs : ∀ q t, s.taskRefs q t = sharedRefs (s.task t).copies q := by
    intro q t
    cases hflag : (s.task t).memoryAllocated with
    | true => simp [taskRefs, hall t hflag]
    | false =>
      obtain ⟨hown, hshared⟩ := refs_of_null (hinv.idle t hflag).chunk q
      simp [taskRefs, hown, hshared]
  have hzero : (∀ q, s.cache.getReferenceCount q = 0) ↔ ∀ q t, sharedRefs (s.task t).copies q = 0 := by
    refine forall_congr' fun q => ?_
    rw [hinv.count q, Finset.sum_eq_zero_iff_of_nonneg fun t _ => s.taskRefs_nonneg q t]
    simp only [Finset.mem_univ, forall_true_left, hrefs, Nat.cast_eq_zero]
  rw [hzero]
  constructor
  · intro hshared t hflag
    exact (hinv.ready t hflag).sharedRefs_eq_zero_iff.1 fun q => hshared q t
  · intro hnodup q t
    cases hflag : (s.task t).memoryAllocated with
    | true => exact (hinv.ready t hflag).sharedRefs_eq_zero_iff.2 (hnodup t hflag) q
    | false => exact (refs_of_null (hinv.idle t hflag).chunk q).2

end

/-- Two tasks that share a region, allocated before either is released. -/
theorem references_balanced_two :
    ∃ s, Reach (step freeHost wholeShape) (fun _ _ => True)
        (init (fun t : Bool => if t then [⟨1, 1⟩, ⟨2, 1⟩] else [⟨2, 1⟩]) ()) s ∧
      (∀ t, s.released t = true) ∧ ∀ q, s.cache.getReferenceCount q = 0 := by
  obtain ⟨s, hreach, hs⟩ := exists_reach_of_run (step freeHost wholeShape) (fun _ => True)
    (init (fun t : Bool => if t then [⟨1, 1⟩, ⟨2, 1⟩] else [⟨2, 1⟩]) ())
    [.allocate true, .allocate false, .release true, .release false] (fun _ _ => trivial)
    (fun s => s.released true && s.released false) (by decide +kernel)
  have hreleased : ∀ t, s.released t = true := by
    intro t
    simp only [Bool.and_eq_true] at hs
    cases t with
    | true => exact hs.1
    | false => exact hs.2
  refine ⟨s, hreach, hreleased, ((references_balanced_iff hreach).2.2 fun t _ => hreleased t).2 ?_⟩
  intro t _
  cases t <;> decide

/-- A task with two copies of one region leaves a reference behind. -/
theorem not_balanced_aa :
    ¬ ∀ s, Reach (step freeHost wholeShape) (fun _ _ => True)
        (init (fun _ : Unit => [⟨1, 1⟩, ⟨1, 1⟩]) ()) s →
      (∀ t, (s.task t).memoryAllocated = true → s.released t = true) →
      ∀ q, s.cache.getReferenceCount q = 0 := by
  intro h
  obtain ⟨s, hreach, hs⟩ := exists_reach_of_run (step freeHost wholeShape) (fun _ => True)
    (init (fun _ : Unit => [⟨1, 1⟩, ⟨1, 1⟩]) ()) [.allocate (), .release ()] (fun _ _ => trivial)
    (fun s => s.released () && decide (s.cache.getReferenceCount 0 = 1)) (by decide)
  simp only [Bool.and_eq_true, decide_eq_true_eq] at hs
  have hzero := h s hreach (fun _ _ => hs.1) 0
  rw [hs.2] at hzero
  cases hzero

end TaskSystem

end OmpSs.Core
