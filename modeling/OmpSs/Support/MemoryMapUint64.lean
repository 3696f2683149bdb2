import OmpSs.Support.MemoryMap

/-!
# Maps from address intervals to numbers

`MemoryMap<uint64_t>` (`nanox-mx/src/support/memorymap.cpp:56`) has an insertion of its own: a chunk that
overlaps entries is merged with them, and the entries it runs over are deleted. A chunk that overlaps no
entry is added at its place (`addChunk_of_disjoint`).
-/

namespace OmpSs.Support.MemoryMapUint64

/-- Source: `MemoryChunk::expandIncluding` (`memorymap.hpp:131`). -/
def expandIncluding (this mcB : MemoryChunk) : MemoryChunk :=
  { this with len := (mcB.addr + mcB.len) - this.addr }

section
variable {V : Type*}

/-- The insertion of a new key before the entry of the hint; an entry with the key's start stays as it
is. -/
def insertAt (key : MemoryChunk) (data : Option V) : List (Entry V) → List (Entry V)
  | [] => [(key, data)]
  | (k, v) :: rest => if k.addr = key.addr then (k, v) :: rest else (key, data) :: (k, v) :: rest

/-- The loop over the entries behind the first one: the last entry the key is expanded to, and the entries
that stay. `none`: the loop reads the end of the map. Source: `memorymap.cpp:123`. -/
def walkOverlapped (iterKey : MemoryChunk) :
    List (Entry V) → Option (Option MemoryChunk × List (Entry V))
  | [] => none
  | (hint, v) :: rest => match hint.checkOverlap iterKey with
    | .noOverlap =>
      if iterKey.addr < hint.addr then some (none, (hint, v) :: rest) else walkOverlapped iterKey rest
    | .beginOverlap | .subchunkBeginOverlap => some (some hint, rest)
    | .endOverlap | .totalOverlap | .totalBeginOverlap => walkOverlapped iterKey rest
    | .subchunkOverlap | .totalEndOverlap | .subchunkEndOverlap => some (none, rest)

/-- The insertion, from the entry of the hint on. -/
def insertFromHint (key : MemoryChunk) (data : Option V) : List (Entry V) → Option (List (Entry V))
  | [] => some [(key, data)]
  | (hint, v) :: rest => match hint.checkOverlap key with
    | .noOverlap =>
      if hint.addr < key.addr then some ((hint, v) :: insertAt key data rest)
      else some ((key, data) :: (hint, v) :: rest)
    | .beginOverlap | .totalEndOverlap => some ((key, data) :: (hint, v) :: rest)
    | .subchunkOverlap | .subchunkBeginOverlap | .subchunkEndOverlap =>
      some ((expandIncluding hint key, v) :: rest)
    | .endOverlap | .totalBeginOverlap =>
      (walkOverlapped key rest).map fun r => (expandIncluding hint (r.1.getD key), v) :: r.2
    | .totalOverlap =>
      (walkOverlapped key rest).map fun r =>
        ((match r.1 with
          | some last => expandIncluding key last
          | none => key), data) :: r.2

/-- Source: `MemoryMap<uint64_t>::insertWithOverlapButNotGenerateIntersects` (`memorymap.cpp:56`). -/
def insertWithOverlap (l : List (Entry V)) (key : MemoryChunk) (data : Option V) :
    Option (List (Entry V)) :=
  (insertFromHint key data (splitAtHint l key.addr).2).map fun r => (splitAtHint l key.addr).1 ++ r

/-- Source: `MemoryMap<uint64_t>::addChunk` (`memorymap.cpp:185`). -/
def addChunk (l : List (Entry V)) (key : MemoryChunk) (data : Option V) : Option (List (Entry V)) :=
  match lowerBound l key.addr with
  | (k, _) :: _ => if k.addr = key.addr ∧ k.len = key.len then some l else insertWithOverlap l key data
  | [] => insertWithOverlap l key data

variable {l : List (Entry V)} {key : MemoryChunk} {data : Option V} {e : Entry V}

/-- The entries that start at `a` or later, in a laid map. -/
theorem le_of_mem_lowerBound (h : Laid l) {a : Nat} (he : e ∈ lowerBound l a) : a ≤ e.1.addr := by
  induction l with
  | nil => cases he
  | cons b l ih =>
    obtain ⟨hb, hle, hl⟩ := laid_cons.1 h
    rw [lowerBound, List.dropWhile_cons] at he
    split at he
    · exact ih hl he
    · rename_i hba
      simp only [decide_eq_true_eq, Nat.not_lt] at hba
      rcases List.mem_cons.1 he with rfl | he
      · exact hba
      · have := hle e he
        simp only [MemoryChunk.stop] at this
        omega

theorem lt_of_mem_below {a : Nat} (he : e ∈ below l a) : e.1.addr < a :=
  of_decide_eq_true (List.mem_takeWhile_imp (p := fun e : Entry V => decide (e.1.addr < a)) he)

theorem below_append_lowerBound (l : List (Entry V)) (a : Nat) : below l a ++ lowerBound l a = l :=
  List.takeWhile_append_dropWhile

/-- A chunk that shares no address with an entry lies before it or behind it. -/
theorem before_or_after_of_disjoint {c d : MemoryChunk} (hc : 0 < c.len) (hd : 0 < d.len)
    (h : ∀ x, c.InChunk x → ¬ d.InChunk x) : c.stop ≤ d.addr ∨ d.stop ≤ c.addr := by
  by_contra hno
  simp only [MemoryChunk.stop, not_or, Nat.not_le] at hno
  refine h (max c.addr d.addr) ?_ ?_
  · simp only [MemoryChunk.InChunk, MemoryChunk.stop]
    omega
  · simp only [MemoryChunk.InChunk, MemoryChunk.stop]
    omega

theorem checkOverlap_of_before {this target : MemoryChunk} (h : this.stop ≤ target.addr)
    (hpos : 0 < this.len) : this.checkOverlap target = .noOverlap := by
  simp only [MemoryChunk.stop] at h
  rw [MemoryChunk.checkOverlap, if_pos (by omega), if_neg (by omega)]

theorem checkOverlap_of_after {this target : MemoryChunk} (h : target.stop ≤ this.addr)
    (hpos : 0 < target.len) : this.checkOverlap target = .noOverlap := by
  simp only [MemoryChunk.stop] at h
  rw [MemoryChunk.checkOverlap, if_neg (by omega), if_pos (by omega), if_neg (by omega)]

section Disjoint
variable (hl : Laid l) (hkey : 0 < key.len) (hdisj : ∀ e ∈ l, ∀ x, key.InChunk x → ¬ e.1.InChunk x)
include hl hkey hdisj

theorem stop_le_of_mem_lowerBound (he : e ∈ lowerBound l key.addr) : key.stop ≤ e.1.addr := by
  have hmem : e ∈ l := (List.dropWhile_sublist _).mem he
  have hle := le_of_mem_lowerBound hl he
  have hpos := hl.nonempty e hmem
  rcases before_or_after_of_disjoint hkey hpos (hdisj e hmem) with h | h
  · exact h
  · simp only [MemoryChunk.stop] at h
    omega

theorem stop_le_of_mem_below (he : e ∈ below l key.addr) : e.1.stop ≤ key.addr := by
  have hmem : e ∈ l := (List.takeWhile_sublist _).mem he
  have hlt := lt_of_mem_below he
  have hpos := hl.nonempty e hmem
  rcases before_or_after_of_disjoint hkey hpos (hdisj e hmem) with h | h
  · simp only [MemoryChunk.stop] at h
    omega
  · exact h

/-- The entry that the key is compared with lies before it or behind it. -/
theorem insertWithOverlap_of_disjoint :
    insertWithOverlap l key data = some (below l key.addr ++ (key, data) :: lowerBound l key.addr) := by
  rw [insertWithOverlap, splitAtHint]
  rcases List.eq_nil_or_concat (below l key.addr) with hb | ⟨b, p, hb⟩
  · simp only [hb, List.dropLast_nil, List.getLast?_nil, Option.toList_none, List.nil_append]
    cases hlb : lowerBound l key.addr with
    | nil => rfl
    | cons h rest =>
      have hstop := stop_le_of_mem_lowerBound (e := h) hl hkey hdisj (by rw [hlb]; exact List.mem_cons_self)
      have hlt : ¬ h.1.addr < key.addr := by
        simp only [MemoryChunk.stop] at hstop
        omega
      simp only [insertFromHint, checkOverlap_of_after hstop hkey, if_neg hlt, Option.map_some]
  · have hp : p ∈ below l key.addr := by
      rw [hb, List.concat_eq_append]
      exact List.mem_concat_self
    have hstop := stop_le_of_mem_below hl hkey hdisj hp
    have hpos := hl.nonempty p ((List.takeWhile_sublist _).mem hp)
    have hins : insertAt key data (lowerBound l key.addr) = (key, data) :: lowerBound l key.addr := by
      cases hlb : lowerBound l key.addr with
      | nil => rfl
      | cons h rest =>
        have hh := stop_le_of_mem_lowerBound (e := h) hl hkey hdisj
          (by rw [hlb]; exact List.mem_cons_self)
        simp only [MemoryChunk.stop] at hh
        rw [insertAt, if_neg (by omega)]
    rw [hb, List.concat_eq_append, List.dropLast_concat, List.getLast?_concat]
    simp only [Option.toList_some, List.singleton_append, insertFromHint,
      checkOverlap_of_before hstop hpos, if_pos (lt_of_mem_below hp), hins, Option.map_some,
      List.append_assoc]

/-- **A chunk that overlaps no entry is added at its place.** -/
theorem addChunk_of_disjoint (data : Option V) :
    addChunk l key data = some (below l key.addr ++ (key, data) :: lowerBound l key.addr) ∧
      Laid (below l key.addr ++ (key, data) :: lowerBound l key.addr) := by
  constructor
  · rw [addChunk]
    split
    case h_1 k v rest hlb =>
      have hstop := stop_le_of_mem_lowerBound (e := (k, v)) hl hkey hdisj
        (by rw [hlb]; exact List.mem_cons_self)
      simp only [MemoryChunk.stop] at hstop
      rw [if_neg (by omega), insertWithOverlap_of_disjoint hl hkey hdisj, hlb]
    case h_2 hlb => rw [insertWithOverlap_of_disjoint hl hkey hdisj, hlb]
  · have hsplit := hl
    rw [← below_append_lowerBound l key.addr, laid_append] at hsplit
    obtain ⟨hb, hlb, hcross⟩ := hsplit
    refine laid_append.2 ⟨hb, laid_cons.2 ⟨hkey, ?_, hlb⟩, ?_⟩
    · intro e he
      exact stop_le_of_mem_lowerBound hl hkey hdisj he
    · intro e he e' he'
      rcases List.mem_cons.1 he' with rfl | he'
      · exact stop_le_of_mem_below hl hkey hdisj he
      · exact hcross e he e' he'

/-- The entries of the map are the old ones and the new one. -/
theorem mem_addChunk {l' : List (Entry V)} (h : addChunk l key data = some l') :
    Laid l' ∧ ∀ e, e ∈ l' ↔ e = (key, data) ∨ e ∈ l := by
  obtain ⟨hadd, hlaid⟩ := addChunk_of_disjoint hl hkey hdisj data
  cases hadd.symm.trans h
  refine ⟨hlaid, fun e => ?_⟩
  have hmem : e ∈ l ↔ e ∈ below l key.addr ∨ e ∈ lowerBound l key.addr := by
    rw [← List.mem_append, below_append_lowerBound]
  rw [List.mem_append, List.mem_cons, hmem]
  tauto

end Disjoint

/-- The chunks of a list added one after the other. -/
def addAll : List (Entry V) → List (Entry V) → Option (List (Entry V))
  | [], l => some l
  | (key, data) :: rest, l => (addChunk l key data).bind (addAll rest)

theorem addAll_append (ps qs l : List (Entry V)) :
    addAll (ps ++ qs) l = (addAll ps l).bind (addAll qs) := by
  induction ps generalizing l with
  | nil => rfl
  | cons p ps ih =>
    simp only [List.cons_append, addAll, Option.bind_assoc]
    exact congrArg _ (funext fun l' => ih l')

/-- **Chunks that do not overlap each other or the entries are all added.** -/
theorem addAll_of_disjoint {ps l : List (Entry V)} (hl : Laid l) (hpos : ∀ e ∈ ps, 0 < e.1.len)
    (hdisj : (ps ++ l).Pairwise fun a b => ∀ x, a.1.InChunk x → ¬ b.1.InChunk x) :
    ∃ l', addAll ps l = some l' ∧ Laid l' ∧ ∀ e, e ∈ l' ↔ e ∈ ps ∨ e ∈ l := by
  induction ps generalizing l with
  | nil => exact ⟨l, rfl, hl, fun e => by simp⟩
  | cons p ps ih =>
    obtain ⟨hp, hps⟩ := List.pairwise_cons.1 hdisj
    obtain ⟨hps, hlp, hcross⟩ := List.pairwise_append.1 hps
    have hkey := hpos p List.mem_cons_self
    have hfree : ∀ e ∈ l, ∀ x, p.1.InChunk x → ¬ e.1.InChunk x := fun e he =>
      hp e (List.mem_append_right _ he)
    obtain ⟨hadd, _⟩ := addChunk_of_disjoint hl hkey hfree p.2
    obtain ⟨hlaid, hmem⟩ := mem_addChunk hl hkey hfree hadd
    obtain ⟨l', hl', hlaid', hmem'⟩ := ih hlaid (fun e he => hpos e (List.mem_cons_of_mem _ he)) (by
      refine List.pairwise_append.2 ⟨hps, hlaid.ordered.imp fun hab x hx hx' => ?_, ?_⟩
      · exact absurd (lt_of_lt_of_le hx.2 (le_trans hab hx'.1)) (Nat.lt_irrefl x)
      · intro a ha b hb x hx hx'
        rcases (hmem b).1 hb with rfl | hb
        · exact hp a (List.mem_append_left _ ha) x hx' hx
        · exact hcross a ha b hb x hx hx')
    refine ⟨l', ?_, hlaid', fun e => ?_⟩
    · rw [addAll, hadd]
      exact hl'
    · rw [hmem', hmem, List.mem_cons]
      tauto

end

end OmpSs.Support.MemoryMapUint64
