import OmpSs.Support.MemoryMapCut

/-!
# Requests that keep entries

`MemoryMap::getOrAddChunkDoNotFragment` adds an entry for every gap of the request (`IsGap`) and returns the
entries that meet it. `MemoryMap::getChunk` only looks for them. Both walks compare the same entries with the
same rests of the request (`WalksAgree`), but the one of `getChunk` stops at the last entry, and leaves out
the part of the request behind it.
-/

namespace OmpSs.Support

namespace MemoryChunk

/-- The interval and the request `key` overlap. -/
def meets (key c : MemoryChunk) : Bool := decide (c.addr < key.stop) && decide (key.addr < c.stop)

theorem meets_eq_true {key c : MemoryChunk} :
    key.meets c = true ↔ c.addr < key.stop ∧ key.addr < c.stop := by simp [meets]

theorem meets_eq_false {key c : MemoryChunk} :
    key.meets c = false ↔ key.stop ≤ c.addr ∨ c.stop ≤ key.addr := by
  rw [← Bool.not_eq_true, meets_eq_true]
  omega

/-- Nonempty intervals overlap where they share an address. -/
theorem meets_iff {key c : MemoryChunk} (hkey : 0 < key.len) (hc : 0 < c.len) :
    key.meets c = true ↔ ∃ x, key.InChunk x ∧ c.InChunk x := by
  simp only [meets_eq_true, InChunk, stop]
  constructor
  · intro h
    exact ⟨max key.addr c.addr, by omega, by omega⟩
  · rintro ⟨x, hx, hx'⟩
    omega

end MemoryChunk

section
variable {V : Type*} {l rest : List (Entry V)} {e : Entry V} {key : MemoryChunk}

/-! ## Gaps -/

/-- A maximal part of the request that no entry covers: each of its ends is the request's, or an entry
begins there. -/
structure IsGap (key : MemoryChunk) (l : List (Entry V)) (c : MemoryChunk) : Prop where
  nonempty : 0 < c.len
  within : key.addr ≤ c.addr ∧ c.stop ≤ key.stop
  free : ∀ e ∈ l, e.1.stop ≤ c.addr ∨ c.stop ≤ e.1.addr
  left : c.addr = key.addr ∨ ∃ e ∈ l, e.1.stop = c.addr
  right : c.stop = key.stop ∨ ∃ e ∈ l, e.1.addr = c.stop

/-- A request that lies before all entries is a gap. -/
theorem IsGap.whole (hpos : 0 < key.len) (h : ∀ e ∈ l, key.stop ≤ e.1.addr) : IsGap key l key :=
  ⟨hpos, ⟨le_refl _, le_refl _⟩, fun e he => .inr (h e he), .inl rfl, .inl rfl⟩

/-- The gap of the request before the first entry. -/
theorem IsGap.first {c : MemoryChunk} (hl : Laid (e :: rest)) (hpos : 0 < c.len)
    (haddr : c.addr = key.addr) (hstop : c.stop = e.1.addr) (hlt : c.stop ≤ key.stop) :
    IsGap key (e :: rest) c where
  nonempty := hpos
  within := ⟨haddr.ge, hlt⟩
  free e' he' := by
    refine .inr ?_
    rcases List.mem_cons.1 he' with rfl | he'
    · exact hstop.le
    · have hle := (laid_cons.1 hl).2.1 e' he'
      have hlt := hl.addr_lt_stop (e := e) List.mem_cons_self
      omega
  left := .inl haddr
  right := .inr ⟨e, List.mem_cons_self, hstop.symm⟩

/-- The gaps behind an entry before the request. -/
theorem IsGap.skip {c : MemoryChunk} (hbefore : e.1.stop ≤ key.addr) (h : IsGap key rest c) :
    IsGap key (e :: rest) c where
  nonempty := h.nonempty
  within := h.within
  free e' he' := by
    rcases List.mem_cons.1 he' with rfl | he'
    · exact .inl (le_trans hbefore h.within.1)
    · exact h.free e' he'
  left := h.left.imp_right fun ⟨e', he', hstop⟩ => ⟨e', List.mem_cons_of_mem _ he', hstop⟩
  right := h.right.imp_right fun ⟨e', he', haddr⟩ => ⟨e', List.mem_cons_of_mem _ he', haddr⟩

/-- The gaps of the rest of the request, which begins at the end of the first entry. -/
theorem IsGap.behind {key' c : MemoryChunk} (hstart : key.addr ≤ key'.addr)
    (hnext : key'.addr = e.1.stop) (hstop : key'.stop = key.stop) (h : IsGap key' rest c) :
    IsGap key (e :: rest) c where
  nonempty := h.nonempty
  within := ⟨le_trans hstart h.within.1, hstop ▸ h.within.2⟩
  free e' he' := by
    rcases List.mem_cons.1 he' with rfl | he'
    · exact .inl (hnext ▸ h.within.1)
    · exact h.free e' he'
  left := by
    refine .inr ?_
    rcases h.left with haddr | ⟨e', he', hstop'⟩
    · exact ⟨e, List.mem_cons_self, (haddr.trans hnext).symm⟩
    · exact ⟨e', List.mem_cons_of_mem _ he', hstop'⟩
  right := by
    rcases h.right with hend | ⟨e', he', haddr⟩
    · exact .inl (hend.trans hstop)
    · exact .inr ⟨e', List.mem_cons_of_mem _ he', haddr⟩

/-- No gap begins inside another. -/
theorem IsGap.addr_le {c d : MemoryChunk} (hl : Laid l) (hc : IsGap key l c) (hd : IsGap key l d)
    {x : Nat} (hx : c.InChunk x) (hx' : d.InChunk x) : c.addr ≤ d.addr := by
  rcases hc.left with haddr | ⟨e, he, hstop⟩
  · exact haddr ▸ hd.within.1
  · have hlt := hl.addr_lt_stop he
    simp only [MemoryChunk.InChunk] at hx hx'
    rcases hd.free e he with hfree | hfree
    · omega
    · omega

/-- No gap ends inside another. -/
theorem IsGap.stop_le {c d : MemoryChunk} (hl : Laid l) (hc : IsGap key l c) (hd : IsGap key l d)
    {x : Nat} (hx : c.InChunk x) (hx' : d.InChunk x) : c.stop ≤ d.stop := by
  rcases hd.right with hstop | ⟨e, he, haddr⟩
  · exact hstop ▸ hc.within.2
  · have hlt := hl.addr_lt_stop he
    simp only [MemoryChunk.InChunk] at hx hx'
    rcases hc.free e he with hfree | hfree
    · omega
    · omega

/-- Two gaps that share an address are one. -/
theorem IsGap.eq_of_inChunk {c d : MemoryChunk} (hl : Laid l) (hc : IsGap key l c) (hd : IsGap key l d)
    {x : Nat} (hx : c.InChunk x) (hx' : d.InChunk x) : c = d := by
  have haddr := le_antisymm (hc.addr_le hl hd hx hx') (hd.addr_le hl hc hx' hx)
  have hstop := le_antisymm (hc.stop_le hl hd hx hx') (hd.stop_le hl hc hx' hx)
  obtain ⟨addr, len⟩ := c
  obtain ⟨addr', len'⟩ := d
  simp only [MemoryChunk.stop] at haddr hstop
  rw [MemoryChunk.mk.injEq]
  omega

/-! ## Adding a request without cutting -/

/-- What the walk adds are gaps of the request. -/
theorem insertFrom_gap (hl : Laid l) (hpos : 0 < key.len) (he : e ∈ (insertFrom key l).1) :
    e ∈ l ∨ e.2 = none ∧ IsGap key l e.1 := by
  induction l generalizing key with
  | nil =>
    rw [insertFrom, List.mem_singleton] at he
    subst he
    exact .inr ⟨rfl, .whole hpos (by simp)⟩
  | cons a rest ih =>
    obtain ⟨hint, v⟩ := a
    obtain ⟨hhint, hle, hrest⟩ := laid_cons.1 hl
    have hov := hint.checkOverlap_holds key hhint
    -- behind the entry the walk goes on with the rest `key'` of the request
    have hbehind : ∀ key' : MemoryChunk, key.addr ≤ key'.addr → key'.addr = hint.stop →
        key'.stop = key.stop → 0 < key'.len → e ∈ (insertFrom key' rest).1 →
        e ∈ (hint, v) :: rest ∨ e.2 = none ∧ IsGap key ((hint, v) :: rest) e.1 := by
      intro key' hstart hnext hstop hpos' he'
      refine (ih hrest hpos' he').imp (List.mem_cons_of_mem _) fun hnew => ⟨hnew.1, ?_⟩
      exact hnew.2.behind hstart hnext hstop
    rw [insertFrom] at he
    split at he
    · exact .inl he
    · cases htype : hint.checkOverlap key <;> rw [htype] at hov he <;> dsimp only at he <;>
        simp only [OverlapType.Holds, MemoryChunk.stop] at hov hbehind
      case noOverlap =>
        split at he
        · rcases List.mem_cons.1 he with rfl | he
          · refine .inr ⟨rfl, .whole hpos fun e' he' => le_trans ?_ (hl.addr_le_of_mem he')⟩
            simp only [MemoryChunk.stop]
            omega
          · exact .inl he
        · rcases List.mem_cons.1 he with rfl | he
          · exact .inl List.mem_cons_self
          · refine (ih hrest hpos he).imp (List.mem_cons_of_mem _) fun hnew => ⟨hnew.1, ?_⟩
            exact hnew.2.skip (by simp only [MemoryChunk.stop]; omega)
      case beginOverlap | totalEndOverlap =>
        rcases List.mem_cons.1 he with rfl | he
        · refine .inr ⟨rfl, .first hl ?_ rfl ?_ ?_⟩ <;>
            simp only [MemoryChunk.intersect, MemoryChunk.partitionEnd, MemoryChunk.stop] <;> omega
        · exact .inl he
      case totalOverlap =>
        rcases List.mem_cons.1 he with rfl | he
        · refine .inr ⟨rfl, .first hl ?_ rfl ?_ ?_⟩ <;>
            simp only [MemoryChunk.partition, MemoryChunk.stop] <;> omega
        · rcases List.mem_cons.1 he with rfl | he
          · exact .inl List.mem_cons_self
          · refine hbehind _ ?_ ?_ ?_ ?_ he <;> simp only [MemoryChunk.partition] <;> omega
      case endOverlap =>
        rcases List.mem_cons.1 he with rfl | he
        · exact .inl List.mem_cons_self
        · refine hbehind _ ?_ ?_ ?_ ?_ he <;> simp only [MemoryChunk.intersect] <;> omega
      case totalBeginOverlap =>
        rcases List.mem_cons.1 he with rfl | he
        · exact .inl List.mem_cons_self
        · refine hbehind _ ?_ ?_ ?_ ?_ he <;> simp only [MemoryChunk.partitionBeginAltB] <;> omega
      all_goals exact .inl he

/-- The entries that meet the request. -/
def meeting (key : MemoryChunk) (l : List (Entry V)) : List (Entry V) := l.filter fun e => key.meets e.1

theorem mem_meeting : e ∈ meeting key l ↔ e ∈ l ∧ key.meets e.1 = true := List.mem_filter

theorem meeting_cons_of_meets (h : key.meets e.1 = true) : meeting key (e :: rest) = e :: meeting key rest :=
  List.filter_cons_of_pos h

theorem meeting_cons_of_not_meets (h : key.meets e.1 = false) :
    meeting key (e :: rest) = meeting key rest :=
  List.filter_cons_of_neg (by rw [h]; exact Bool.false_ne_true)

/-- What starts behind the request does not meet it. -/
theorem meeting_of_le (h : ∀ e ∈ l, key.stop ≤ e.1.addr) : meeting key l = [] := by
  refine List.filter_eq_nil_iff.2 fun e he => ?_
  rw [MemoryChunk.meets_eq_false.2 (.inl (h e he))]
  exact Bool.false_ne_true

/-- Behind an entry the request meets what its rest meets. -/
theorem meeting_insertFrom {key' : MemoryChunk} (hl : Laid l) (hpos : 0 < key'.len)
    (hle : ∀ e ∈ l, key'.addr ≤ e.1.addr) (hstart : key.addr ≤ key'.addr) (hstop : key'.stop = key.stop) :
    meeting key (insertFrom key' l).1 = meeting key' (insertFrom key' l).1 := by
  refine List.filter_congr fun e he => ?_
  have haddr : key'.addr ≤ e.1.addr := by
    rcases insertFrom_gap hl hpos he with he | ⟨-, hgap⟩
    · exact hle e he
    · exact hgap.within.1
  have hlt := (insertFrom_inserted hl hpos).laid.addr_lt_stop he
  rw [Bool.eq_iff_iff, MemoryChunk.meets_eq_true, MemoryChunk.meets_eq_true]
  omega

/-- The walk that adds the request to `l` ends in `r` and returns the entries that meet the request, and the
walk that looks for them finds `g`: the same up to the part of the request behind all entries. -/
structure WalksAgree (key : MemoryChunk) (l : List (Entry V)) (r : List (Entry V) × List MemoryChunk)
    (g : List (Entry V)) : Prop where
  results : r.2 = (meeting key r.1).map Prod.fst
  found : ∃ tail, meeting key r.1 = g ++ tail ∧ (tail = [] ↔ ∃ e ∈ l, key.stop ≤ e.1.stop)

/-- The request ends before the end of an entry. -/
theorem WalksAgree.last {l' g : List (Entry V)} {ks : List MemoryChunk} (he : e ∈ l)
    (hstop : key.stop ≤ e.1.stop) (hmeet : meeting key l' = g) (hks : ks = g.map Prod.fst) :
    WalksAgree key l (l', ks) g where
  results := by rw [hks, hmeet]
  found := ⟨[], by rw [hmeet, List.append_nil], fun _ => ⟨e, he, hstop⟩, fun _ => rfl⟩

/-- The walks go on behind the first entry, with the rest `key'` of the request. -/
theorem WalksAgree.behind {key' : MemoryChunk} {l' g : List (Entry V)} {ks : List MemoryChunk}
    {r : List (Entry V) × List MemoryChunk} (pre : List (Entry V)) (hbefore : e.1.stop < key.stop)
    (hstop : key'.stop = key.stop)
    (hmeet : meeting key l' = pre ++ meeting key' r.1) (hks : ks = pre.map Prod.fst ++ r.2)
    (h : WalksAgree key' rest r g) : WalksAgree key (e :: rest) (l', ks) (pre ++ g) where
  results := by rw [hks, hmeet, h.results, List.map_append]
  found := by
    obtain ⟨tail, htail, hiff⟩ := h.found
    refine ⟨tail, by rw [hmeet, htail, List.append_assoc], hiff.trans ?_⟩
    simp only [List.mem_cons, exists_eq_or_imp, hstop]
    exact ⟨.inr, fun hor => hor.resolve_left (not_le_of_gt hbefore)⟩

/-- The two walks compare the same entries with the same rests of the request. -/
theorem walksAgree (hl : Laid l) (hpos : 0 < key.len) :
    WalksAgree key l (insertFrom key l) (getFrom key l) := by
  induction l generalizing key with
  | nil =>
    have hmeets : key.meets key = true := by
      simp only [MemoryChunk.meets_eq_true, MemoryChunk.stop]
      omega
    refine ⟨?_, [(key, none)], ?_, by simp⟩
    · rw [insertFrom, meeting_cons_of_meets hmeets]
      rfl
    · rw [insertFrom, meeting_cons_of_meets hmeets]
      rfl
  | cons a rest ih =>
    obtain ⟨hint, v⟩ := a
    obtain ⟨hhint, hle, hrest⟩ := laid_cons.1 hl
    dsimp only at hhint hle
    have hov := hint.checkOverlap_holds key hhint
    have hmem : (hint, v) ∈ (hint, v) :: rest := List.mem_cons_self
    have hend : key.stop ≤ hint.stop → meeting key rest = [] := fun h =>
      meeting_of_le fun e he => le_trans h (hle e he)
    have hgo : ∀ key' : MemoryChunk, 0 < key'.len → key'.addr = hint.stop → key.addr ≤ hint.stop →
        key'.stop = key.stop →
        meeting key (insertFrom key' rest).1 = meeting key' (insertFrom key' rest).1 := by
      intro key' hpos' hnext hstart hstop
      exact meeting_insertFrom hrest hpos' (fun e he => hnext ▸ hle e he) (hnext ▸ hstart) hstop
    rw [insertFrom, getFrom]
    split
    · next heq =>
      subst heq
      refine .last hmem (le_refl _) ?_ rfl
      rw [meeting_cons_of_meets (by simp only [MemoryChunk.meets_eq_true, MemoryChunk.stop]; omega),
        hend (le_refl _)]
    · have hmeets : key.addr < hint.stop → hint.addr < key.stop → ∀ l' : List (Entry V),
          meeting key ((hint, v) :: l') = (hint, v) :: meeting key l' := fun h h' l' =>
        meeting_cons_of_meets (MemoryChunk.meets_eq_true.2 ⟨h', h⟩)
      have hgap : ∀ c : MemoryChunk, 0 < c.len → c.addr = key.addr → c.len ≤ key.len →
          ∀ l' : List (Entry V), meeting key ((c, none) :: l') = (c, none) :: meeting key l' := by
        intro c hc haddr hlen l'
        exact meeting_cons_of_meets
          (by simp only [MemoryChunk.meets_eq_true, MemoryChunk.stop]; omega)
      cases htype : hint.checkOverlap key <;> rw [htype] at hov <;> dsimp only <;>
        simp only [OverlapType.Holds, MemoryChunk.stop] at hov hend hgo hmeets
      case noOverlap =>
        split
        · refine .last hmem (by simp only [MemoryChunk.stop]; omega) ?_ rfl
          rw [hgap key hpos rfl (le_refl _), meeting_of_le fun e he =>
            le_trans (by simp only [MemoryChunk.stop]; omega) (hl.addr_le_of_mem he)]
        · refine .behind [] ?_ rfl ?_ rfl (ih hrest hpos)
          · simp only [MemoryChunk.stop]
            omega
          · exact meeting_cons_of_not_meets
              (MemoryChunk.meets_eq_false.2 (by simp only [MemoryChunk.stop]; omega))
      case beginOverlap =>
        refine .last hmem (by simp only [MemoryChunk.stop]; omega) ?_ rfl
        rw [hgap (key.intersect hint).1 (by simp only [MemoryChunk.intersect]; omega) rfl
          (by simp only [MemoryChunk.intersect]; omega), hmeets (by omega) (by omega), hend (by omega)]
      case totalEndOverlap =>
        refine .last hmem (by simp only [MemoryChunk.stop]; omega) ?_ rfl
        rw [hgap (key.partitionEnd hint) (by simp only [MemoryChunk.partitionEnd]; omega) rfl
          (by simp only [MemoryChunk.partitionEnd]; omega), hmeets (by omega) (by omega), hend (by omega)]
      case totalOverlap =>
        have hpos' : 0 < (key.partition hint).2.len := by
          simp only [MemoryChunk.partition]
          omega
        refine .behind [((key.partition hint).1, none), (hint, v)] ?_ ?_ ?_ rfl (ih hrest hpos')
        · simp only [MemoryChunk.stop]
          omega
        · simp only [MemoryChunk.partition, MemoryChunk.stop]
          omega
        · rw [hgap (key.partition hint).1 (by simp only [MemoryChunk.partition]; omega) rfl
            (by simp only [MemoryChunk.partition]; omega), hmeets (by omega) (by omega),
            hgo _ hpos' rfl (by omega) (by simp only [MemoryChunk.partition]; omega)]
          rfl
      case endOverlap =>
        have hpos' : 0 < (hint.intersect key).2.2.len := by
          simp only [MemoryChunk.intersect]
          omega
        refine .behind [(hint, v)] ?_ ?_ ?_ rfl (ih hrest hpos')
        · simp only [MemoryChunk.stop]
          omega
        · simp only [MemoryChunk.intersect, MemoryChunk.stop]
          omega
        · rw [hmeets (by omega) (by omega),
            hgo _ hpos' rfl (by omega) (by simp only [MemoryChunk.intersect]; omega)]
          rfl
      case totalBeginOverlap =>
        have hpos' : 0 < (hint.partitionBeginAltB key).len := by
          simp only [MemoryChunk.partitionBeginAltB]
          omega
        refine .behind [(hint, v)] ?_ ?_ ?_ rfl (ih hrest hpos')
        · simp only [MemoryChunk.stop]
          omega
        · simp only [MemoryChunk.partitionBeginAltB, MemoryChunk.stop]
          omega
        · rw [hmeets (by omega) (by omega),
            hgo _ hpos' rfl (by omega) (by simp only [MemoryChunk.partitionBeginAltB]; omega)]
          rfl
      all_goals
        refine .last hmem (by simp only [MemoryChunk.stop]; omega) ?_ rfl
        rw [hmeets (by omega) (by omega), hend (by omega)]

/-! ## The maps after the requests -/

/-- The request `key` has been added to the entries `l` without cutting: the entries stay, each gap of the
request has got an entry without a value, and the entries that meet the request are returned in order. -/
structure RequestFilled (key : MemoryChunk) (l l' : List (Entry V)) (ks : List MemoryChunk) : Prop where
  laid : Laid l'
  entries : ∀ e, e ∈ l' ↔ e ∈ l ∨ e.2 = none ∧ IsGap key l e.1
  results : ks = (meeting key l').map Prod.fst
  cover : ∀ x, key.InChunk x → ∃ k ∈ ks, k.InChunk x

/-- Every gap has got an entry, since the entries cover the request. -/
theorem Inserted.mem_iff {r : List (Entry V) × List MemoryChunk} (h : Inserted key l r) (hl : Laid l)
    (hgap : ∀ e ∈ r.1, e ∈ l ∨ e.2 = none ∧ IsGap key l e.1) :
    e ∈ r.1 ↔ e ∈ l ∨ e.2 = none ∧ IsGap key l e.1 := by
  refine ⟨hgap e, ?_⟩
  rintro (he | ⟨hnone, hc⟩)
  · exact h.kept e he
  · obtain ⟨c, v⟩ := e
    dsimp only at hnone hc
    subst hnone
    have hpos := hc.nonempty
    have hwithin := hc.within
    have hcx : c.InChunk c.addr := ⟨le_refl _, by simp only [MemoryChunk.stop]; omega⟩
    obtain ⟨k, hk, hkx⟩ := h.cover c.addr ⟨hwithin.1, lt_of_lt_of_le hcx.2 hwithin.2⟩
    obtain ⟨v, hv⟩ := h.results k hk
    rcases hgap _ hv with hold | ⟨hnone, hk'⟩
    · simp only [MemoryChunk.InChunk] at hcx hkx
      rcases hc.free _ hold with hfree | hfree <;> dsimp only at hfree <;> omega
    · dsimp only at hnone hk'
      rw [hk'.eq_of_inChunk hl hc hkx hcx, hnone] at hv
      exact hv

/-- The entries before the hint do not meet the request. -/
theorem meeting_splitAtHint_append (hl : Laid l) (l' : List (Entry V)) :
    meeting key ((splitAtHint l key.addr).1 ++ l') = meeting key l' := by
  have hnil : meeting key (splitAtHint l key.addr).1 = [] := by
    refine List.filter_eq_nil_iff.2 fun e he => ?_
    rw [MemoryChunk.meets_eq_false.2 (.inr (stop_le_of_mem_splitAtHint hl he))]
    exact Bool.false_ne_true
  rw [meeting, List.filter_append]
  exact congrArg (· ++ _) hnil

/-- A gap behind entries that end before the request. -/
theorem IsGap.append {pre : List (Entry V)} {c : MemoryChunk} (hpre : ∀ e ∈ pre, e.1.stop ≤ key.addr)
    (h : IsGap key l c) : IsGap key (pre ++ l) c := by
  induction pre with
  | nil => exact h
  | cons e pre ih =>
    exact (ih fun e' he' => hpre e' (List.mem_cons_of_mem _ he')).skip (hpre e List.mem_cons_self)

/-- The entry of the request is the only one that meets it. -/
theorem meeting_of_exactKey (hl : Laid l) (hpos : 0 < key.len) (h : exactKey l key = true) :
    ∃ v, (key, v) ∈ l ∧ (lowerBound l key.addr).head? = some (key, v) ∧ meeting key l = [(key, v)] := by
  obtain ⟨v, hmem, rest, hlb⟩ := mem_of_exactKey h
  have happend : below l key.addr ++ (key, v) :: rest = l := by
    rw [← hlb]
    exact List.takeWhile_append_dropWhile
  refine ⟨v, hmem, by rw [hlb, List.head?_cons], ?_⟩
  rw [← happend] at hl ⊢
  obtain ⟨-, hrest, hcross⟩ := laid_append.1 hl
  have hbelow : meeting key (below l key.addr) = [] := by
    refine List.filter_eq_nil_iff.2 fun e he => ?_
    rw [MemoryChunk.meets_eq_false.2 (.inr (hcross e he _ List.mem_cons_self))]
    exact Bool.false_ne_true
  have hmeets : key.meets key = true := by
    simp only [MemoryChunk.meets_eq_true, MemoryChunk.stop]
    omega
  rw [meeting, List.filter_append]
  change meeting key _ ++ meeting key _ = _
  rw [hbelow, meeting_cons_of_meets hmeets, meeting_of_le (laid_cons.1 hrest).2.1]
  rfl

theorem getOrAddFrom_requestFilled (hl : Laid l) (hpos : 0 < key.len) :
    RequestFilled key l (getOrAddFrom l key).1 (getOrAddFrom l key).2 := by
  have hins := getOrAddFrom_inserted hl hpos
  have hgap : ∀ e ∈ (getOrAddFrom l key).1, e ∈ l ∨ e.2 = none ∧ IsGap key l e.1 := by
    intro e he
    unfold getOrAddFrom at he
    split at he
    · exact .inl he
    · have hsplit := splitAtHint_append l key.addr
      have hl' := hl
      rw [← hsplit] at hl'
      rcases List.mem_append.1 he with he | he
      · exact .inl (hsplit ▸ List.mem_append_left _ he)
      · rcases insertFrom_gap (laid_append.1 hl').2.1 hpos he with he | ⟨hnone, hc⟩
        · exact .inl (hsplit ▸ List.mem_append_right _ he)
        · have hc' := hc.append fun e he => stop_le_of_mem_splitAtHint hl he
          exact .inr ⟨hnone, hsplit ▸ hc'⟩
  refine ⟨hins.laid, fun e => hins.mem_iff hl hgap, ?_, hins.cover⟩
  unfold getOrAddFrom
  split
  · next hexact =>
    obtain ⟨v, -, -, hmeeting⟩ := meeting_of_exactKey hl hpos hexact
    rw [hmeeting]
    rfl
  · have hsplit := splitAtHint_append l key.addr
    have hl' := hl
    rw [← hsplit] at hl'
    rw [meeting_splitAtHint_append hl]
    exact (walksAgree (laid_append.1 hl').2.1 hpos).results

/-- **`getOrAddChunkDoNotFragment` adds an entry for every gap of the request and returns what meets it.** -/
theorem getOrAddChunkDoNotFragment_requestFilled (m : MemoryMap V) (hpos : 0 < key.len) :
    RequestFilled key m.entries (m.getOrAddChunkDoNotFragment key hpos).1.entries
      (m.getOrAddChunkDoNotFragment key hpos).2 :=
  getOrAddFrom_requestFilled m.laid hpos

/-- Two gaps around an entry. -/
theorem getOrAddChunkDoNotFragment_requestFilled_gaps :
    RequestFilled ⟨0, 10⟩ (MemoryMap.single ⟨4, 2⟩ (some 7) (by decide)).entries
      [(⟨0, 4⟩, none), (⟨4, 2⟩, some 7), (⟨6, 4⟩, none)] [⟨0, 4⟩, ⟨4, 2⟩, ⟨6, 4⟩] :=
  getOrAddChunkDoNotFragment_requestFilled (MemoryMap.single ⟨4, 2⟩ (some 7) (by decide)) (by decide)

namespace MemoryMap

/-- The list that a request would return in a copy of the map, with the values there. -/
def wouldReturn (m : MemoryMap V) (key : MemoryChunk) (hpos : 0 < key.len) : List (Entry V) :=
  (m.getOrAddChunkDoNotFragment key hpos).2.map fun k =>
    (k, (m.getOrAddChunkDoNotFragment key hpos).1.valueOf k)

theorem wouldReturn_eq (m : MemoryMap V) (hpos : 0 < key.len) :
    m.wouldReturn key hpos = meeting key (getOrAddFrom m.entries key).1 := by
  have hres := (getOrAddChunkDoNotFragment_requestFilled m hpos).results
  rw [wouldReturn, hres, List.map_map]
  refine (List.map_congr_left fun e he => ?_).trans (List.map_id _)
  have hmem : e ∈ (m.getOrAddChunkDoNotFragment key hpos).1.entries := (mem_meeting.1 he).1
  exact Prod.ext rfl (valueOf_eq hmem)

/-- `getChunk` finds what the request would return, up to the part of the request behind all entries. -/
theorem wouldReturn_eq_getChunk_append (m : MemoryMap V) (hpos : 0 < key.len) :
    ∃ tail, m.wouldReturn key hpos = m.getChunk key ++ tail ∧
      (tail = [] ↔ m.entries = [] ∨ ∃ e ∈ m.entries, key.stop ≤ e.1.stop) := by
  rw [wouldReturn_eq]
  unfold getOrAddFrom getChunk
  split
  · next hexact =>
    obtain ⟨v, hmem, hhead, hmeeting⟩ := meeting_of_exactKey m.laid hpos hexact
    refine ⟨[], ?_, fun _ => .inr ⟨_, hmem, le_refl _⟩, fun _ => rfl⟩
    rw [hmeeting, hhead]
    rfl
  · have hl := m.laid
    have hsplit := splitAtHint_append m.entries key.addr
    rw [← hsplit] at hl
    have hagree := walksAgree (laid_append.1 hl).2.1 hpos
    rw [meeting_splitAtHint_append m.laid]
    cases hm : m.entries with
    | nil =>
      have hmeets : key.meets key = true := by
        simp only [MemoryChunk.meets_eq_true, MemoryChunk.stop]
        omega
      refine ⟨[], ?_, fun _ => .inl rfl, fun _ => rfl⟩
      exact (meeting_cons_of_meets hmeets).trans rfl
    | cons a rest =>
      obtain ⟨tail, htail, hiff⟩ := hagree.found
      rw [hm] at htail hiff hsplit
      refine ⟨tail, htail, hiff.trans ?_⟩
      simp only [List.cons_ne_nil, false_or]
      constructor
      · rintro ⟨e, he, hle⟩
        exact ⟨e, hsplit ▸ List.mem_append_right _ he, hle⟩
      · rintro ⟨e, he, hle⟩
        rw [← hsplit] at he
        rcases List.mem_append.1 he with he | he
        · have hbefore := stop_le_of_mem_splitAtHint (hm ▸ m.laid) he
          simp only [MemoryChunk.stop] at hle hbefore
          omega
        · exact ⟨e, he, hle⟩

end MemoryMap

/-- **`getChunk` returns what the request would return, if and only if the map is empty or an entry ends
where the request ends or behind it.** -/
theorem getChunk_eq_iff (m : MemoryMap V) (hpos : 0 < key.len) :
    (m.getChunk key = m.wouldReturn key hpos ∧
      ∀ c, IsGap key m.entries c → (c, none) ∈ m.getChunk key) ↔
      m.entries = [] ∨ ∃ e ∈ m.entries, key.stop ≤ e.1.stop := by
  obtain ⟨tail, htail, hiff⟩ := m.wouldReturn_eq_getChunk_append hpos
  rw [← hiff]
  constructor
  · rintro ⟨heq, -⟩
    rwa [heq, List.self_eq_append_right] at htail
  · rintro rfl
    rw [List.append_nil] at htail
    refine ⟨htail.symm, fun c hc => ?_⟩
    rw [← htail, m.wouldReturn_eq, mem_meeting]
    refine ⟨((getOrAddFrom_requestFilled m.laid hpos).entries _).2 (.inr ⟨rfl, hc⟩), ?_⟩
    have hwithin := hc.within
    have hc' := hc.nonempty
    simp only [MemoryChunk.meets_eq_true, MemoryChunk.stop] at hwithin ⊢
    omega

/-- The only entry ends where the request does. -/
theorem getChunk_eq_iff_gap : (MemoryMap.single ⟨4, 2⟩ (some 7) (by decide)).getChunk ⟨0, 6⟩ =
    (MemoryMap.single ⟨4, 2⟩ (some 7) (by decide)).wouldReturn ⟨0, 6⟩ (by decide) ∧
    ∀ c, IsGap ⟨0, 6⟩ (MemoryMap.single ⟨4, 2⟩ (some 7) (by decide)).entries c →
      (c, none) ∈ (MemoryMap.single ⟨4, 2⟩ (some 7) (by decide)).getChunk ⟨0, 6⟩ :=
  (getChunk_eq_iff _ (by decide)).2 (.inr ⟨_, List.mem_cons_self, by decide⟩)

/-- The part of the request behind the only entry is left out. -/
theorem getChunk_ne_of_behind : ¬ ((MemoryMap.single ⟨0, 4⟩ (some 7) (by decide)).getChunk ⟨0, 6⟩ =
    (MemoryMap.single ⟨0, 4⟩ (some 7) (by decide)).wouldReturn ⟨0, 6⟩ (by decide) ∧
    ∀ c, IsGap ⟨0, 6⟩ (MemoryMap.single ⟨0, 4⟩ (some 7) (by decide)).entries c →
      (c, none) ∈ (MemoryMap.single ⟨0, 4⟩ (some 7) (by decide)).getChunk ⟨0, 6⟩) := by
  rintro ⟨heq, -⟩
  revert heq
  decide

end

end OmpSs.Support
