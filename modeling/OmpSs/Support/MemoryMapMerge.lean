import OmpSs.Support.MemoryMapExact

/-!
# Merging chunks

`MemoryMap<uint64_t>::addChunk` on chunks that overlap entries. The code compares the chunk with the entry
before its place (the hint), or with the first entry. Where that entry reaches into the chunk from the left,
or lies in it, a loop runs over the entries behind it, and the entries it passes are merged; the loop reads
on until an entry ends where the chunk ends or behind it, and there may be none. Where the chunk ends inside
the entry, the entry is cut off at its end, and where it begins before the first entry and ends in it, the
two are left overlapping. What the code gets right is `Addable`.
-/

namespace OmpSs.Support

namespace MemoryMapUint64

section
variable {V : Type*} {l rest : List (Entry V)} {e hint : Entry V} {key : MemoryChunk} {data : Option V}

/-! ## What the insertion should do -/

/-- The chunk has been added: the map is read up to its end at most, its entries do not overlap, they cover
what was covered and the chunk, and what was covered has the value it had. -/
def ChunkAdded (l : List (Entry V)) (key : MemoryChunk) (r : Option (List (Entry V))) : Prop :=
  ∃ l', r = some l' ∧ Laid l' ∧
    (∀ x, (∃ e ∈ l', e.1.InChunk x) ↔ (∃ e ∈ l, e.1.InChunk x) ∨ key.InChunk x) ∧
    ∀ e ∈ l, ∀ x, e.1.InChunk x → ∃ e' ∈ l', e'.1.InChunk x ∧ e'.2 = e.2

/-- The chunks that the code adds as it should. -/
inductive Addable (l : List (Entry V)) (key : MemoryChunk) (data : Option V) : Prop
  /-- The chunk is an entry. -/
  | exact (v : Option V) (mem : (key, v) ∈ l)
  /-- The chunk overlaps no entry. -/
  | apart (free : ∀ e ∈ l, key.meets e.1 = false)
  /-- The chunk is the end of an entry. -/
  | ending (e : Entry V) (mem : e ∈ l) (before : e.1.addr < key.addr) (stop : e.1.stop = key.stop)
  /-- The chunk begins with an entry that is not the first one, and the entries cover it already. -/
  | covered (e p : Entry V) (mem : e ∈ l) (begins : e.1.addr = key.addr) (previous : p ∈ l)
      (before : p.1.addr < key.addr) (cover : ∀ x, key.InChunk x → ∃ e ∈ l, e.1.InChunk x)
  /-- An entry reaches into the chunk from the left, or is the first one and begins with it; some entry ends
  with the chunk or behind it; and the entries that the chunk overlaps have one value. -/
  | extended (e z : Entry V) (mem : e ∈ l)
      (starts : e.1.addr < key.addr ∨ e.1.addr = key.addr ∧ ∀ p ∈ l, key.addr ≤ p.1.addr)
      (inside : key.addr < e.1.stop) (ends : e.1.stop < key.stop) (last : z ∈ l) (reach : key.stop ≤ z.1.stop)
      (values : ∀ e' ∈ l, key.meets e'.1 = true → e'.2 = e.2)
  /-- The first entry lies in the chunk; some entry ends with the chunk or behind it; and the entries that
  the chunk overlaps have the value of the chunk. -/
  | replaced (e z : Entry V) (mem : e ∈ l) (first : ∀ p ∈ l, e.1.addr ≤ p.1.addr)
      (inside : key.addr < e.1.addr) (ends : e.1.stop < key.stop) (last : z ∈ l) (reach : key.stop ≤ z.1.stop)
      (values : ∀ e' ∈ l, key.meets e'.1 = true → e'.2 = data)

/-! ## The place of the hint -/

/-- The entry the chunk is compared with first, with the entries before and behind it. -/
structure AtHint (l : List (Entry V)) (key : MemoryChunk) (pre : List (Entry V)) (hint : Entry V)
    (rest : List (Entry V)) : Prop where
  split : l = pre ++ hint :: rest
  before : ∀ e ∈ pre, e.1.stop ≤ key.addr
  place : hint.1.addr < key.addr ∨ pre = [] ∧ key.addr ≤ hint.1.addr
  behind : ∀ e ∈ rest, key.addr ≤ e.1.addr

theorem atHint_splitAtHint (hl : Laid l) (h : (splitAtHint l key.addr).2 = hint :: rest) :
    AtHint l key (splitAtHint l key.addr).1 hint rest where
  split := by rw [← h, splitAtHint_append]
  before e he := stop_le_of_mem_splitAtHint hl he
  place := by
    rcases List.eq_nil_or_concat (below l key.addr) with hnil | ⟨init, p, hp⟩
    · refine .inr ⟨by rw [splitAtHint, hnil]; rfl, ?_⟩
      rw [splitAtHint, hnil] at h
      refine le_of_mem_lowerBound hl (e := hint) ?_
      rw [show lowerBound l key.addr = hint :: rest from h]
      exact List.mem_cons_self
    · rw [splitAtHint, hp, List.concat_eq_append, List.getLast?_concat] at h
      refine .inl (lt_of_mem_below (l := l) ?_)
      rw [hp, List.concat_eq_append, ← (List.cons.inj h).1]
      exact List.mem_concat_self
  behind e he := by
    rcases List.eq_nil_or_concat (below l key.addr) with hnil | ⟨init, p, hp⟩
    · rw [splitAtHint, hnil] at h
      refine le_of_mem_lowerBound hl ?_
      rw [show lowerBound l key.addr = hint :: rest from h]
      exact List.mem_cons_of_mem _ he
    · rw [splitAtHint, hp, List.concat_eq_append, List.getLast?_concat] at h
      rw [← (List.cons.inj h).2] at he
      exact le_of_mem_lowerBound hl he

/-- An entry is the hint, or lies before it and before the chunk, or behind it. -/
theorem AtHint.cases {pre : List (Entry V)} (h : AtHint l key pre hint rest) (hl : Laid l) (he : e ∈ l) :
    e = hint ∨ (hint.1.addr < key.addr ∧ e.1.stop ≤ key.addr ∧ e.1.stop ≤ hint.1.addr) ∨
      (e ∈ rest ∧ key.addr ≤ e.1.addr ∧ hint.1.stop ≤ e.1.addr) := by
  rw [h.split] at he hl
  obtain ⟨-, hrest, hcross⟩ := laid_append.1 hl
  rcases List.mem_append.1 he with he | he
  · refine .inr (.inl ⟨?_, h.before e he, hcross e he hint List.mem_cons_self⟩)
    refine h.place.resolve_right fun ⟨hnil, _⟩ => ?_
    rw [hnil] at he
    cases he
  · rcases List.mem_cons.1 he with rfl | he
    · exact .inl rfl
    · exact .inr (.inr ⟨he, h.behind e he, (laid_cons.1 hrest).2.1 e he⟩)

theorem AtHint.mem {pre : List (Entry V)} (h : AtHint l key pre hint rest) : hint ∈ l := by
  rw [h.split]
  exact List.mem_append_right _ List.mem_cons_self

theorem AtHint.mem_of_rest {pre : List (Entry V)} (h : AtHint l key pre hint rest) (he : e ∈ rest) :
    e ∈ l := by
  rw [h.split]
  exact List.mem_append_right _ (List.mem_cons_of_mem _ he)

/-- The chunk overlaps the hint and is no entry. -/
theorem addable_iff_of_meets {pre : List (Entry V)} (h : AtHint l key pre hint rest) (hl : Laid l)
    (hpos : 0 < key.len) (hnot : ∀ v, (key, v) ∉ l) (hstart : hint.1.addr < key.stop)
    (hend : key.addr < hint.1.stop) :
    Addable l key data ↔ (hint.1.addr < key.addr ∧ hint.1.stop = key.stop) ∨
      ((∃ z ∈ rest, key.stop ≤ z.1.stop) ∧ hint.1.stop < key.stop ∧
        ∀ e ∈ l, key.meets e.1 = true → e.2 = if key.addr < hint.1.addr then data else hint.2) := by
  have hhint := hl.addr_lt_stop h.mem
  have hmeets : key.meets hint.1 = true := MemoryChunk.meets_eq_true.2 ⟨hstart, hend⟩
  have hkey : key.addr < key.stop := by
    simp only [MemoryChunk.stop]
    omega
  -- an entry behind the hint ends with the chunk or behind it
  have hlast : hint.1.stop < key.stop → (∃ z ∈ l, key.stop ≤ z.1.stop) → ∃ z ∈ rest, key.stop ≤ z.1.stop := by
    rintro hlt ⟨z, hz, hle⟩
    rcases h.cases hl hz with rfl | ⟨-, hbefore, -⟩ | ⟨hrest, -, -⟩
    · omega
    · omega
    · exact ⟨z, hrest, hle⟩
  constructor
  · intro hadd
    cases hadd with
    | exact v mem => exact absurd mem (hnot v)
    | apart free =>
      rw [free hint h.mem] at hmeets
      cases hmeets
    | ending e mem before stop =>
      rcases h.cases hl mem with rfl | hpre | ⟨-, hrest, -⟩
      · exact .inl ⟨before, stop⟩
      · omega
      · omega
    | covered e p mem begins previous before cover =>
      have he := hl.addr_lt_stop mem
      have hp := hl.addr_lt_stop previous
      rcases h.cases hl previous with rfl | ⟨hlt, -⟩ | ⟨-, hrest, -⟩
      · rcases h.cases hl mem with rfl | hpre | ⟨-, -, hrest⟩ <;> omega
      · rcases h.cases hl mem with rfl | hpre | ⟨-, -, hrest⟩ <;> omega
      · omega
    | extended e z mem starts inside ends last reach values =>
      have he : e = hint := by
        rcases h.cases hl mem with heq | hpre | ⟨-, hrest, hbehind⟩
        · exact heq
        · omega
        · -- an entry behind the hint that begins with the chunk is not the first one
          rcases starts with hlt | ⟨heq, hfirst⟩
          · omega
          · have := hfirst hint h.mem
            omega
      subst he
      refine .inr ⟨hlast ends ⟨z, last, reach⟩, ends, fun e' he' hmeets' => ?_⟩
      rw [if_neg (by omega)]
      exact values e' he' hmeets'
    | replaced e z mem first inside ends last reach values =>
      have he : e = hint := by
        have hle := first hint h.mem
        rcases h.cases hl mem with heq | hpre | hrest
        · exact heq
        · have := hl.addr_lt_stop mem
          omega
        · omega
      subst he
      refine .inr ⟨hlast ends ⟨z, last, reach⟩, ends, fun e' he' hmeets' => ?_⟩
      rw [if_pos inside]
      exact values e' he' hmeets'
  · rintro (⟨hbefore, hstop⟩ | ⟨⟨z, hz, hreach⟩, hlt, hvalues⟩)
    · exact .ending hint h.mem hbefore hstop
    · split at hvalues
      · next hinside =>
        refine .replaced hint z h.mem (fun p hp => ?_) hinside hlt (h.mem_of_rest hz) hreach hvalues
        rcases h.cases hl hp with rfl | hpre | hrest <;> omega
      · next hinside =>
        refine .extended hint z h.mem ?_ hend hlt (h.mem_of_rest hz) hreach hvalues
        rcases h.place with hplace | ⟨-, hplace⟩
        · exact .inl hplace
        · refine .inr ⟨by omega, fun p hp => ?_⟩
          rcases h.cases hl hp with rfl | hpre | hrest <;> omega

/-- The hint ends before the chunk begins. -/
theorem addable_iff_of_before {pre : List (Entry V)} (h : AtHint l key pre hint rest) (hl : Laid l)
    (hpos : 0 < key.len) (hbefore : hint.1.stop ≤ key.addr) :
    Addable l key data ↔ (∀ e ∈ l, key.meets e.1 = false) ∨
      ((∃ e ∈ rest, e.1.addr = key.addr) ∧ ∀ x, key.InChunk x → ∃ e ∈ l, e.1.InChunk x) := by
  have hhint := hl.addr_lt_stop h.mem
  have hlt : ∀ e ∈ l, e.1.addr < key.addr → e.1.stop ≤ key.addr := by
    intro e he hlt
    rcases h.cases hl he with rfl | hpre | hrest <;> omega
  have hrest : ∀ e ∈ l, e.1.addr = key.addr → e ∈ rest := by
    intro e he heq
    have := hl.addr_lt_stop he
    rcases h.cases hl he with rfl | hpre | ⟨hrest, -, -⟩
    · omega
    · omega
    · exact hrest
  have hkey : key.addr < key.stop := by
    simp only [MemoryChunk.stop]
    omega
  constructor
  · intro hadd
    cases hadd with
    | exact v mem => exact .inr ⟨⟨_, hrest _ mem rfl, rfl⟩, fun x hx => ⟨_, mem, hx⟩⟩
    | apart free => exact .inl free
    | ending e mem before stop =>
      have := hlt e mem before
      omega
    | covered e p mem begins previous before cover => exact .inr ⟨⟨e, hrest e mem begins, begins⟩, cover⟩
    | extended e z mem starts inside ends last reach values =>
      rcases starts with hbefore' | ⟨-, hfirst⟩
      · have := hlt e mem hbefore'
        omega
      · have := hfirst hint h.mem
        omega
    | replaced e z mem first inside ends last reach values =>
      have := first hint h.mem
      omega
  · rintro (hfree | ⟨⟨e, he, heq⟩, hcover⟩)
    · exact .apart hfree
    · exact .covered e hint (h.mem_of_rest he) heq h.mem (by omega) hcover

/-! ## The loop over overlapped entries -/

/-- The loop over `rest` has passed the entries `gone` and leaves `kept`; the merged entry ends at `stop`,
the end of the chunk or of the last entry that is passed. -/
structure Walked (key : MemoryChunk) (rest gone kept : List (Entry V)) (stop : Nat) : Prop where
  split : rest = gone ++ kept
  passed : ∀ e ∈ gone, e.1.addr < key.stop ∧ e.1.stop ≤ stop
  kept : ∀ e ∈ kept, stop ≤ e.1.addr
  reach : key.stop ≤ stop
  stop : stop = key.stop ∨ ∃ e ∈ gone, e.1.stop = stop
  last : ∃ z ∈ rest, key.stop ≤ z.1.stop

/-- The loop passes an entry inside the chunk. -/
theorem Walked.pass {gone kept : List (Entry V)} {stop : Nat} (h : Walked key rest gone kept stop)
    (haddr : e.1.addr < key.stop) (hstop : e.1.stop < key.stop) :
    Walked key (e :: rest) (e :: gone) kept stop where
  split := by rw [h.split, List.cons_append]
  passed e' he' := by
    rcases List.mem_cons.1 he' with rfl | he'
    · exact ⟨haddr, le_trans hstop.le h.reach⟩
    · exact h.passed e' he'
  kept := h.kept
  reach := h.reach
  stop := h.stop.imp_right fun ⟨z, hz, hle⟩ => ⟨z, List.mem_cons_of_mem _ hz, hle⟩
  last := by
    obtain ⟨z, hz, hle⟩ := h.last
    exact ⟨z, List.mem_cons_of_mem _ hz, hle⟩

/-- The loop reads the end of the map if and only if every entry ends before the chunk does. -/
theorem walkOverlapped_spec (hrest : Laid rest) (hbehind : ∀ e ∈ rest, key.addr < e.1.addr) :
    (walkOverlapped key rest = none ∧ ∀ e ∈ rest, e.1.stop < key.stop) ∨
      ∃ o gone kept, walkOverlapped key rest = some (o, kept) ∧
        Walked key rest gone kept (o.getD key).stop := by
  induction rest with
  | nil => exact .inl ⟨rfl, fun e he => by cases he⟩
  | cons a rest ih =>
    obtain ⟨hint, v⟩ := a
    have hrest' := hrest
    obtain ⟨hhint, hle, hrest⟩ := laid_cons.1 hrest
    dsimp only at hhint hle
    have haddr := hbehind (hint, v) List.mem_cons_self
    dsimp only at haddr
    have hov := hint.checkOverlap_holds key hhint
    have hmem : (hint, v) ∈ (hint, v) :: rest := List.mem_cons_self
    rw [walkOverlapped]
    cases htype : hint.checkOverlap key <;> rw [htype] at hov <;> dsimp only <;>
      simp only [OverlapType.Holds] at hov
    case noOverlap =>
      rw [if_pos haddr]
      simp only [MemoryChunk.stop] at hov
      have hbefore : key.stop ≤ hint.addr := by
        simp only [MemoryChunk.stop]
        omega
      refine .inr ⟨none, [], (hint, v) :: rest, rfl, ?_⟩
      exact
        { split := rfl
          passed := fun e he => (by cases he)
          kept := fun e he => le_trans hbefore (hrest'.addr_le_of_mem he)
          reach := le_refl _
          stop := .inl rfl
          last := ⟨(hint, v), hmem, by simp only [MemoryChunk.stop] at hbefore ⊢; omega⟩ }
    case beginOverlap =>
      refine .inr ⟨some hint, [(hint, v)], rest, rfl, ?_⟩
      exact
        { split := rfl
          passed := fun e he => (by rw [List.mem_singleton.1 he]; exact ⟨hov.2.1, le_refl _⟩)
          kept := hle
          reach := hov.2.2.le
          stop := .inr ⟨_, List.mem_singleton_self _, rfl⟩
          last := ⟨(hint, v), hmem, hov.2.2.le⟩ }
    case totalEndOverlap =>
      refine .inr ⟨none, [(hint, v)], rest, rfl, ?_⟩
      exact
        { split := rfl
          passed := fun e he => (by rw [List.mem_singleton.1 he]; exact ⟨hov.2.1, hov.2.2.ge⟩)
          kept := fun e he => (hov.2.2 ▸ hle e he)
          reach := le_refl _
          stop := .inl rfl
          last := ⟨(hint, v), hmem, hov.2.2.le⟩ }
    case totalOverlap =>
      have hin : hint.addr < key.stop := by
        simp only [MemoryChunk.stop] at hov ⊢
        omega
      rcases ih hrest fun e he => hbehind e (List.mem_cons_of_mem _ he) with
        ⟨hnone, hall⟩ | ⟨o, gone, kept, hsome, hwalked⟩
      · refine .inl ⟨hnone, fun e he => ?_⟩
        rcases List.mem_cons.1 he with rfl | he
        · exact hov.2
        · exact hall e he
      · exact .inr ⟨o, (hint, v) :: gone, kept, hsome, hwalked.pass hin hov.2⟩
    all_goals
      simp only [MemoryChunk.stop] at hov
      omega

/-! ## The maps after the insertion -/

/-- The map is left as it was. -/
theorem chunkAdded_self (hl : Laid l) :
    ChunkAdded l key (some l) ↔ ∀ x, key.InChunk x → ∃ e ∈ l, e.1.InChunk x := by
  constructor
  · rintro ⟨l', hsome, -, hcover, -⟩ x hx
    cases hsome
    exact (hcover x).2 (.inr hx)
  · intro hcover
    exact ⟨l, rfl, hl, fun x => ⟨.inl, fun h => h.elim id (hcover x)⟩, fun e he x hx => ⟨e, he, hx, rfl⟩⟩

/-- The chunk is put between two entries. -/
theorem chunkAdded_insert (pre : List (Entry V)) {post : List (Entry V)} (data : Option V)
    (hl : Laid (pre ++ post)) (hpos : 0 < key.len) (hpre : ∀ e ∈ pre, e.1.stop ≤ key.addr) :
    ChunkAdded (pre ++ post) key (some (pre ++ (key, data) :: post)) ↔ ∀ e ∈ post, key.stop ≤ e.1.addr := by
  constructor
  · rintro ⟨l', hsome, hlaid, -⟩
    cases hsome
    exact (laid_cons.1 (laid_append.1 hlaid).2.1).2.1
  · intro hpost
    obtain ⟨hlpre, hlpost, hcross⟩ := laid_append.1 hl
    refine ⟨_, rfl, laid_append.2 ⟨hlpre, laid_cons.2 ⟨hpos, hpost, hlpost⟩, fun e he e' he' => ?_⟩,
      fun x => ?_, fun e he x hx => ⟨e, ?_, hx, rfl⟩⟩
    · rcases List.mem_cons.1 he' with rfl | he'
      · exact hpre e he
      · exact hcross e he e' he'
    · simp only [List.mem_append, List.mem_cons, or_and_right, exists_or, exists_eq_left]
      rw [or_assoc, @or_comm (key.InChunk x)]
    · rcases List.mem_append.1 he with he | he
      · exact List.mem_append_left _ he
      · exact List.mem_append_right _ (List.mem_cons_of_mem _ he)

/-- Entries are merged with the chunk into one. -/
theorem chunkAdded_merge {pre mid kept : List (Entry V)} {c : MemoryChunk} {w : Option V}
    (hl : Laid (pre ++ (mid ++ kept))) (hlaid : Laid (pre ++ (c, w) :: kept))
    (hc : ∀ x, c.InChunk x ↔ (∃ e ∈ mid, e.1.InChunk x) ∨ key.InChunk x) :
    ChunkAdded (pre ++ (mid ++ kept)) key (some (pre ++ (c, w) :: kept)) ↔ ∀ e ∈ mid, e.2 = w := by
  constructor
  · rintro ⟨l', hsome, -, -, hvalues⟩ e he
    cases hsome
    have hmem : e ∈ pre ++ (mid ++ kept) := List.mem_append_right _ (List.mem_append_left _ he)
    have hx : e.1.InChunk e.1.addr := ⟨le_refl _, hl.addr_lt_stop hmem⟩
    obtain ⟨e', he', hx', hval⟩ := hvalues e hmem e.1.addr hx
    have hmem' : (c, w) ∈ pre ++ (c, w) :: kept := List.mem_append_right _ List.mem_cons_self
    have heq := hlaid.eq_of_inChunk he' hmem' hx' ((hc _).2 (.inl ⟨e, he, hx⟩))
    rw [← hval, heq]
  · intro hvalues
    refine ⟨_, rfl, hlaid, fun x => ?_, fun e he x hx => ?_⟩
    · simp only [List.mem_append, List.mem_cons, or_and_right, exists_or, exists_eq_left, hc x]
      rw [or_assoc, or_assoc, or_assoc, @or_comm (key.InChunk x)]
    · rcases List.mem_append.1 he with he | he
      · exact ⟨e, List.mem_append_left _ he, hx, rfl⟩
      · rcases List.mem_append.1 he with he | he
        · exact ⟨(c, w), List.mem_append_right _ List.mem_cons_self, (hc x).2 (.inl ⟨e, he, hx⟩),
            (hvalues e he).symm⟩
        · exact ⟨e, List.mem_append_right _ (List.mem_cons_of_mem _ he), hx, rfl⟩

/-- The loop has run over the entries that overlap the chunk: they are merged into the entry `c`. -/
theorem chunkAdded_walked {pre gone kept : List (Entry V)} {stop : Nat} {c : MemoryChunk} {w : Option V}
    (h : AtHint l key pre hint rest) (hl : Laid l) (hwalked : Walked key rest gone kept stop)
    (hstart : hint.1.addr < key.stop) (hend : key.addr < hint.1.stop) (hlt : hint.1.stop < key.stop)
    (haddr : c.addr = min hint.1.addr key.addr) (hstop : c.stop = stop) :
    ChunkAdded l key (some (pre ++ (c, w) :: kept)) ↔ ∀ e ∈ l, key.meets e.1 = true → e.2 = w := by
  have hhint := hl.addr_lt_stop h.mem
  have hreach := hwalked.reach
  have hmid : ∀ e ∈ l, key.meets e.1 = true ↔ e ∈ hint :: gone := by
    intro e he
    have hlte := hl.addr_lt_stop he
    rw [MemoryChunk.meets_eq_true, List.mem_cons]
    constructor
    · rintro ⟨hmeets, hmeets'⟩
      rcases h.cases hl he with heq | hpre | ⟨hrest, -, -⟩
      · exact .inl heq
      · omega
      · rw [hwalked.split] at hrest
        refine .inr ((List.mem_append.1 hrest).resolve_right fun hkept => ?_)
        have := hwalked.kept e hkept
        omega
    · rintro (rfl | hgone)
      · exact ⟨hstart, hend⟩
      · have hle := h.behind e (hwalked.split ▸ List.mem_append_left _ hgone)
        exact ⟨(hwalked.passed e hgone).1, by omega⟩
  have hsplit : l = pre ++ ((hint :: gone) ++ kept) := by
    rw [h.split, hwalked.split, List.cons_append]
  have hgone : ∀ e ∈ gone, hint.1.addr < e.1.addr ∧ key.addr ≤ e.1.addr ∧ e.1.stop ≤ stop := by
    intro e he
    have hrest : e ∈ rest := hwalked.split ▸ List.mem_append_left _ he
    have hle := (laid_cons.1 (laid_append.1 (h.split ▸ hl)).2.1).2.1 e hrest
    exact ⟨lt_of_lt_of_le hhint hle, h.behind e hrest, (hwalked.passed e he).2⟩
  have hc : ∀ x, c.InChunk x ↔ (∃ e ∈ hint :: gone, e.1.InChunk x) ∨ key.InChunk x := by
    intro x
    simp only [List.mem_cons, or_and_right, exists_or, exists_eq_left]
    constructor
    · rintro ⟨hx, hx'⟩
      rcases lt_or_ge x key.stop with hin | hout
      · rcases lt_or_ge x key.addr with hbefore | hbehind
        · exact .inl (.inl ⟨by omega, by omega⟩)
        · exact .inr ⟨hbehind, hin⟩
      · -- behind the chunk lies the end of the last entry that is passed
        rcases hwalked.stop with heq | ⟨z, hz, heq⟩
        · omega
        · exact .inl (.inr ⟨z, hz, by have := (hwalked.passed z hz).1; omega, by omega⟩)
    · rintro ((⟨hx, hx'⟩ | ⟨e, he, hx, hx'⟩) | ⟨hx, hx'⟩)
      · exact ⟨by omega, by omega⟩
      · have := hgone e he
        exact ⟨by omega, by omega⟩
      · exact ⟨by omega, by omega⟩
  have hlaid : Laid (pre ++ (c, w) :: kept) := by
    rw [hsplit] at hl
    obtain ⟨hpre, hrest, hcross⟩ := laid_append.1 hl
    obtain ⟨-, hkept, -⟩ := laid_append.1 hrest
    refine laid_append.2 ⟨hpre, laid_cons.2 ⟨?_, fun e he => hstop ▸ hwalked.kept e he, hkept⟩, ?_⟩
    · simp only [MemoryChunk.stop] at hstop hreach hstart
      dsimp only
      omega
    · intro e he e' he'
      rcases List.mem_cons.1 he' with rfl | he'
      · have := hcross e he hint (List.mem_append_left _ List.mem_cons_self)
        have := h.before e he
        dsimp only
        omega
      · exact hcross e he e' (List.mem_append_right _ he')
  have hmerge := chunkAdded_merge (w := w) (hsplit ▸ hl) hlaid hc
  rw [← hsplit] at hmerge
  rw [hmerge]
  refine ⟨fun hvalues e he hmeets => hvalues e ((hmid e he).1 hmeets), fun hvalues e he => ?_⟩
  have hmem : e ∈ l := by
    rw [hsplit]
    exact List.mem_append_right _ (List.mem_append_left _ he)
  exact hvalues e hmem ((hmid e hmem).2 he)

theorem not_chunkAdded_none : ¬ ChunkAdded l key none := by
  rintro ⟨l', hsome, -⟩
  cases hsome

/-- The hint overlaps the chunk and ends before it does: the loop runs. -/
theorem chunkAdded_walkOverlapped {pre : List (Entry V)} {w : Option V} {c : Option MemoryChunk → MemoryChunk}
    (h : AtHint l key pre hint rest) (hl : Laid l) (hpos : 0 < key.len) (hnot : ∀ v, (key, v) ∉ l)
    (hstart : hint.1.addr < key.stop) (hend : key.addr < hint.1.stop) (hlt : hint.1.stop < key.stop)
    (haddr : ∀ o, (c o).addr = min hint.1.addr key.addr)
    (hstop : ∀ o : Option MemoryChunk, hint.1.addr < (o.getD key).stop → key.stop ≤ (o.getD key).stop →
      (c o).stop = (o.getD key).stop)
    (hw : w = if key.addr < hint.1.addr then data else hint.2) :
    ChunkAdded l key (((walkOverlapped key rest).map fun r => (c r.1, w) :: r.2).map (pre ++ ·)) ↔
      Addable l key data := by
  have hlaid := hl
  rw [h.split] at hlaid
  obtain ⟨-, hle, hrest⟩ := laid_cons.1 (laid_append.1 hlaid).2.1
  have hbehind : ∀ e ∈ rest, key.addr < e.1.addr := fun e he => lt_of_lt_of_le hend (hle e he)
  rw [addable_iff_of_meets h hl hpos hnot hstart hend, ← hw]
  rcases walkOverlapped_spec hrest hbehind with ⟨hnone, hall⟩ | ⟨o, gone, kept, hsome, hwalked⟩
  · rw [hnone]
    refine iff_of_false not_chunkAdded_none ?_
    rintro (⟨-, hstop'⟩ | ⟨⟨z, hz, hreach⟩, -⟩)
    · omega
    · have := hall z hz
      omega
  · have hreach := hwalked.reach
    have hcstop := hstop o (by omega) hreach
    rw [hsome, Option.map_some, Option.map_some,
      chunkAdded_walked h hl hwalked hstart hend hlt (haddr o) hcstop]
    refine ⟨fun hvalues => .inr ⟨hwalked.last, hlt, hvalues⟩, ?_⟩
    rintro (⟨-, hstop'⟩ | ⟨-, -, hvalues⟩)
    · omega
    · exact hvalues

/-- The hint ends before the chunk begins: the chunk is put behind it, where no entry has its start. -/
theorem chunkAdded_insertAt {pre : List (Entry V)} (h : AtHint l key pre hint rest) (hl : Laid l)
    (hpos : 0 < key.len) (hbefore : hint.1.stop ≤ key.addr) :
    ChunkAdded l key (some (pre ++ hint :: insertAt key data rest)) ↔ Addable l key data := by
  rw [addable_iff_of_before h hl hpos hbefore]
  have hsplit : l = (pre ++ [hint]) ++ rest := by rw [h.split, List.append_assoc, List.singleton_append]
  have hpre : ∀ e ∈ pre ++ [hint], e.1.stop ≤ key.addr := by
    intro e he
    rcases List.mem_append.1 he with he | he
    · exact h.before e he
    · rwa [List.mem_singleton.1 he]
  -- the entries behind the chunk do not meet it
  have hfree : (∀ e ∈ rest, key.stop ≤ e.1.addr) ↔ ∀ e ∈ l, key.meets e.1 = false := by
    constructor
    · intro hrest e he
      rw [MemoryChunk.meets_eq_false]
      rw [hsplit] at he
      exact (List.mem_append.1 he).elim (fun he => .inr (hpre e he)) fun he => .inl (hrest e he)
    · intro hfree e he
      have hlt := hl.addr_lt_stop (h.mem_of_rest he)
      have hle := h.behind e he
      have := hfree e (h.mem_of_rest he)
      rw [MemoryChunk.meets_eq_false] at this
      omega
  have hins : (∀ e ∈ rest, e.1.addr ≠ key.addr) →
      (ChunkAdded l key (some (pre ++ hint :: (key, data) :: rest)) ↔ ∀ e ∈ rest, key.stop ≤ e.1.addr) := by
    intro _
    have hinsert := chunkAdded_insert (pre ++ [hint]) data (hsplit ▸ hl) hpos hpre
    rwa [← hsplit, List.append_assoc, List.singleton_append] at hinsert
  cases rest with
  | nil =>
    rw [insertAt, hins (by simp), hfree]
    simp
  | cons n rest =>
    rw [insertAt]
    split
    · next heq =>
      rw [← h.split, chunkAdded_self hl]
      refine ⟨fun hcover => .inr ⟨⟨n, List.mem_cons_self, heq⟩, hcover⟩, ?_⟩
      rintro (hnone | ⟨-, hcover⟩)
      · have hmem := h.mem_of_rest (e := n) List.mem_cons_self
        have hlt := hl.addr_lt_stop hmem
        have := hnone n hmem
        simp only [MemoryChunk.meets_eq_false, MemoryChunk.stop] at this hlt
        omega
      · exact hcover
    · next hne =>
      have hlt : ∀ e ∈ n :: rest, e.1.addr ≠ key.addr := by
        intro e he
        have hn := h.behind n List.mem_cons_self
        rw [hsplit] at hl
        have := (laid_append.1 hl).2.1.addr_le_of_mem he
        omega
      rw [hins hlt, hfree]
      refine ⟨.inl, ?_⟩
      rintro (hnone | ⟨⟨e, he, heq⟩, -⟩)
      · exact hnone
      · exact absurd heq (hlt e he)

theorem insertFromHint_iff {pre : List (Entry V)} (h : AtHint l key pre hint rest) (hl : Laid l)
    (hpos : 0 < key.len) (hnot : ∀ v, (key, v) ∉ l) :
    ChunkAdded l key ((insertFromHint key data (hint :: rest)).map (pre ++ ·)) ↔ Addable l key data := by
  have hlen := hl.nonempty hint h.mem
  have hov := hint.1.checkOverlap_holds key hlen
  have hlaid := hl
  rw [h.split] at hlaid
  have hkey : key.addr < key.stop := by
    simp only [MemoryChunk.stop]
    omega
  have hhint := hl.addr_lt_stop h.mem
  -- where the chunk begins before the hint, the hint is the first entry
  have hfirst : key.addr < hint.1.addr → l = hint :: rest ∧ pre = [] := by
    intro hlt
    have hnil := (h.place.resolve_left (by omega)).1
    have hsplit := h.split
    rw [hnil] at hsplit
    exact ⟨hsplit, hnil⟩
  rw [insertFromHint]
  cases htype : hint.1.checkOverlap key <;> rw [htype] at hov <;> dsimp only <;>
    simp only [OverlapType.Holds] at hov
  case noOverlap =>
    split
    · next hlt =>
      have hbefore : hint.1.stop ≤ key.addr := by omega
      exact chunkAdded_insertAt h hl hpos hbefore
    · next hge =>
      have hstop : key.stop ≤ hint.1.addr := by omega
      obtain ⟨hsplit, hnil⟩ := hfirst (by omega)
      have hbehind : ∀ e ∈ l, key.stop ≤ e.1.addr := by
        intro e he
        rw [hsplit] at hl he
        exact le_trans hstop (hl.addr_le_of_mem he)
      have hinsert := chunkAdded_insert [] data hl hpos (fun e he => by cases he)
      rw [hnil, Option.map_some, List.nil_append, ← hsplit]
      refine iff_of_true (hinsert.2 hbehind) (.apart fun e he => ?_)
      exact MemoryChunk.meets_eq_false.2 (.inl (hbehind e he))
  case beginOverlap | totalEndOverlap =>
    obtain ⟨hsplit, hnil⟩ := hfirst hov.1
    have hinsert := chunkAdded_insert [] data hl hpos (fun e he => by cases he)
    rw [addable_iff_of_meets h hl hpos hnot hov.2.1 (by omega), hnil, Option.map_some, List.nil_append,
      ← hsplit]
    refine iff_of_false (fun hadded => ?_) (by omega)
    have := hinsert.1 hadded hint h.mem
    omega
  case subchunkOverlap | subchunkBeginOverlap =>
    have hcut : key.addr < hint.1.stop ∧ hint.1.addr ≤ key.addr ∧ key.stop < hint.1.stop := by
      have hne : hint.1.addr = key.addr → hint.1.stop ≠ key.stop := fun haddr hstop => by
        refine hnot hint.2 ?_
        have hmem := h.mem
        obtain ⟨⟨addr, len⟩, v⟩ := hint
        obtain ⟨addr', len'⟩ := key
        simp only [MemoryChunk.stop] at haddr hstop
        have hlen' : len = len' := by omega
        rwa [haddr, hlen'] at hmem
      omega
    rw [addable_iff_of_meets h hl hpos hnot (by omega) (by omega), Option.map_some]
    refine iff_of_false ?_ (by omega)
    -- the end of the chunk is cut off
    rintro ⟨l', hsome, -, hcover, -⟩
    cases hsome
    obtain ⟨e, he, hx, hx'⟩ := (hcover key.stop).2 (.inl ⟨hint, h.mem, by omega, by omega⟩)
    rcases List.mem_append.1 he with he | he
    · have := h.before e he
      omega
    · rcases List.mem_cons.1 he with rfl | he
      · simp only [expandIncluding, MemoryChunk.stop] at hx' hcut
        omega
      · have := (laid_cons.1 (laid_append.1 hlaid).2.1).2.1 e he
        omega
  case subchunkEndOverlap =>
    have hsame : expandIncluding hint.1 key = hint.1 := by
      obtain ⟨⟨addr, len⟩, v⟩ := hint
      simp only [MemoryChunk.stop] at hov
      simp only [expandIncluding, MemoryChunk.mk.injEq, true_and]
      omega
    rw [hsame, Option.map_some, ← h.split]
    refine iff_of_true ((chunkAdded_self hl).2 fun x hx => ⟨hint, h.mem, ?_⟩)
      (.ending hint h.mem hov.1 hov.2.2.symm)
    have := hx.1
    have := hx.2
    exact ⟨by omega, by omega⟩
  case endOverlap | totalBeginOverlap =>
    refine @chunkAdded_walkOverlapped _ _ _ hint _ _ _ _ (fun o => expandIncluding hint.1 (o.getD key)) h hl
      hpos hnot (by omega) (by omega) (by omega) (fun o => ?_) (fun o ho ho' => ?_) (if_neg (by omega)).symm
    · dsimp only [expandIncluding]
      omega
    · simp only [expandIncluding, MemoryChunk.stop] at ho ⊢
      omega
  case totalOverlap =>
    have hwalked := @chunkAdded_walkOverlapped _ _ _ hint _ _ _ data
      (fun o => o.elim key (expandIncluding key)) h hl hpos hnot (by omega) (by omega) (by omega) (fun o => ?_)
      (fun o ho ho' => ?_) (if_pos (by omega)).symm
    · convert hwalked using 6 with r
      cases r.1 <;> rfl
    · cases o with
      | none =>
        rw [Option.elim_none]
        omega
      | some last =>
        dsimp only [Option.elim_some, expandIncluding]
        omega
    · cases o with
      | none => rfl
      | some last =>
        simp only [Option.elim_some, expandIncluding, Option.getD_some, MemoryChunk.stop] at ho' ⊢
        omega

/-- A chunk that is an entry is found. -/
theorem addChunk_of_mem (hl : Laid l) (hpos : 0 < key.len) {v : Option V} (hv : (key, v) ∈ l) :
    addChunk l key data = some l := by
  have hlb : (key, v) ∈ lowerBound l key.addr := by
    refine ((mem_iff_below_or_lowerBound l key.addr).1 hv).resolve_left fun hb => ?_
    exact lt_irrefl _ (lt_of_mem_below hb)
  rw [addChunk]
  split
  · next k w rest heq =>
    have hle := addr_le_of_lowerBound hl heq hlb
    have hmem : (k, w) ∈ lowerBound l key.addr := heq ▸ List.mem_cons_self
    have hge := le_of_mem_lowerBound hl hmem
    have hlt := hl.addr_lt_stop (mem_of_mem_lowerBound hmem)
    have hsame := hl.eq_of_inChunk (mem_of_mem_lowerBound hmem) hv (x := key.addr) ⟨hle, by omega⟩
      ⟨le_refl _, by simp only [MemoryChunk.stop]; omega⟩
    cases hsame
    exact if_pos ⟨rfl, rfl⟩
  · next hnil =>
    rw [hnil] at hlb
    cases hlb

/-- Another chunk is inserted. -/
theorem addChunk_of_not_mem (hnot : ∀ v, (key, v) ∉ l) :
    addChunk l key data = insertWithOverlap l key data := by
  rw [addChunk]
  split
  · next k w rest heq =>
    refine if_neg fun hsame => hnot w ?_
    obtain ⟨haddr, hlen⟩ := hsame
    have hmem : (k, w) ∈ l := mem_of_mem_lowerBound (heq ▸ List.mem_cons_self)
    obtain ⟨addr, len⟩ := k
    obtain ⟨addr', len'⟩ := key
    dsimp only at haddr hlen
    rwa [haddr, hlen] at hmem
  · rfl

/-- **`addChunk` adds the chunk as it should if and only if it is one that the code handles.** -/
theorem addChunk_iff (hl : Laid l) (hpos : 0 < key.len) :
    ChunkAdded l key (addChunk l key data) ↔ Addable l key data := by
  by_cases hexact : ∃ v, (key, v) ∈ l
  · obtain ⟨v, hv⟩ := hexact
    rw [addChunk_of_mem hl hpos hv, chunkAdded_self hl]
    exact iff_of_true (fun x hx => ⟨_, hv, hx⟩) (.exact v hv)
  · have hnot : ∀ v, (key, v) ∉ l := fun v hv => hexact ⟨v, hv⟩
    rw [addChunk_of_not_mem hnot, insertWithOverlap]
    cases hsplit : (splitAtHint l key.addr).2 with
    | nil =>
      have hall := splitAtHint_append l key.addr
      rw [hsplit, List.append_nil] at hall
      have hnil : l = [] := by
        refine List.eq_nil_iff_forall_not_mem.2 fun e he => ?_
        rw [splitAtHint, List.append_eq_nil_iff] at hsplit
        have hbelow : below l key.addr = [] := by
          cases hgl : (below l key.addr).getLast? with
          | none => exact List.getLast?_eq_none_iff.1 hgl
          | some p =>
            rw [hgl] at hsplit
            cases hsplit.1
        rcases (mem_iff_below_or_lowerBound l key.addr).1 he with hb | hb
        · rw [hbelow] at hb
          cases hb
        · rw [hsplit.2] at hb
          cases hb
      subst hnil
      exact iff_of_true ((chunkAdded_insert [] data .nil hpos fun e he => by cases he).2
        fun e he => by cases he) (.apart fun e he => by cases he)
    | cons hint rest => exact insertFromHint_iff (atHint_splitAtHint hl hsplit) hl hpos hnot

/-- The chunk goes on behind an entry, up to a gap before another one. -/
theorem addChunk_iff_grown : ChunkAdded twoObjects ⟨5, 10⟩ (addChunk twoObjects ⟨5, 10⟩ (some 7)) :=
  (addChunk_iff laid_twoObjects (by decide)).2
    (.extended (⟨0, 10⟩, some 1) (⟨20, 5⟩, some 2) (by simp [twoObjects]) (.inl (by decide)) (by decide)
      (by decide) (by simp [twoObjects]) (by decide)
      (by simp [twoObjects, MemoryChunk.meets, MemoryChunk.stop]))

/-- A chunk inside an entry cuts the entry off at its end. -/
theorem addChunk_cuts : ¬ ChunkAdded twoObjects ⟨2, 3⟩ (addChunk twoObjects ⟨2, 3⟩ (some 7)) := by
  rintro ⟨l', hsome, -, hcover, -⟩
  have hcut : addChunk twoObjects ⟨2, 3⟩ (some 7) = some [(⟨0, 5⟩, some 1), (⟨20, 5⟩, some 2)] := by decide
  cases hcut.symm.trans hsome
  have := (hcover 7).2 (.inl ⟨(⟨0, 10⟩, some 1), by simp [twoObjects], by decide, by decide⟩)
  simp [MemoryChunk.InChunk, MemoryChunk.stop] at this

end

end MemoryMapUint64

end OmpSs.Support
