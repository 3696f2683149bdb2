import OmpSs.Support.RegionTree
import OmpSs.Lib.Run

/-!
# Region trees as containers

What the updates of a region tree do to its entries: `addOverlapping` adds a region that is not there
yet with default data, `erase` removes a region, a write through an iterator changes the data of one.
Each keeps the shape of the tree, so in every run of updates the leaves are the entries that were
added and not erased, and the searches return exactly the entries that the region asks for
(`container_of_run`).
-/

namespace OmpSs.Support

namespace Node

section
variable {T : Type*} {n c : Node T} {seg : Region} {c0 c1 cX : Node T} {level : Int} {data : T}
  {b b' : BitValue} {k : Nat} {q : List BitValue} {rs : Region}

/-- A new leaf. -/
theorem shape_init (hq : Query rs q k) (d : T) : (init rs d).Shape k ∧
    (init rs d).entries = [(q, d)] := by
  have hlen : rs.len = q.length := hq.spells.len_eq
  have hend : rs.firstBit + rs.len = 64 := by
    rw [hlen, hq.firstBit, hq.length]
  refine ⟨shape_node.2 ⟨hq.spells.valid, hq.firstBit, ?_, ?_, fun b => by cases b <;> trivial⟩, ?_⟩
  · rw [hlen, hq.length]
  · rw [hlen, hq.length]
    simp only [true_iff]
    intro b
    cases b <;> rfl
  · rw [init, entries_leaf hend, hq.spells.bits_eq]

/-- A node whose segment loses its front. -/
theorem entries_advance {seg' : Region} {p : List BitValue} (h : seg.bits = p ++ b :: seg'.bits)
    (hfirst : seg'.firstBit = seg.firstBit + p.length + 1) {e : List BitValue} {d : T} :
    (e, d) ∈ (node seg c0 c1 cX level data).entries ↔
      ∃ e', e = p ++ b :: e' ∧ (e', d) ∈ (node seg' c0 c1 cX level data).entries := by
  have hlen : seg.len = p.length + 1 + seg'.len := by
    have := congrArg List.length h
    simp only [Region.length_bits, List.length_append, List.length_cons] at this
    omega
  by_cases hleaf : seg.firstBit + seg.len = 64
  · rw [entries_leaf hleaf, entries_leaf (by omega), h]
    simp only [List.mem_singleton, Prod.mk.injEq]
    constructor
    · rintro ⟨rfl, rfl⟩
      exact ⟨_, rfl, rfl, rfl⟩
    · rintro ⟨e', rfl, rfl, rfl⟩
      exact ⟨rfl, rfl⟩
  · rw [mem_entries_node hleaf, h]
    constructor
    · rintro ⟨b', e', rfl, hmem⟩
      refine ⟨seg'.bits ++ b' :: e', by simp, ?_⟩
      exact (mem_entries_node (by omega)).2 ⟨b', e', rfl, by cases b' <;> exact hmem⟩
    · rintro ⟨e₁, rfl, hmem⟩
      obtain ⟨b', e', rfl, hmem'⟩ := (mem_entries_node (by omega)).1 hmem
      exact ⟨b', e', by simp, by cases b' <;> exact hmem'⟩

/-- The shape does not look at the partition level and the data. -/
theorem shape_congr {level' : Int} {data' : T} :
    (node seg c0 c1 cX level data).Shape k ↔ (node seg c0 c1 cX level' data').Shape k :=
  Iff.rfl

/-- Replacing the child for a bit by a tree of the right shape. -/
theorem Shape.setChild (h : (node seg c0 c1 cX level data).Shape k) (hinner : k + seg.len ≠ 64)
    (hc : c.Shape (k + seg.len + 1))
    (hne : ∃ b', ((node seg c0 c1 cX level data).setChild b c).child b' ≠ null) :
    ((node seg c0 c1 cX level data).setChild b c).Shape k := by
  obtain ⟨hvalid, hfirst, hle, hiff, hchild⟩ := shape_node.1 h
  obtain ⟨b', hb'⟩ := hne
  obtain ⟨c0', c1', cX', hset, hget⟩ := exists_setChild_eq seg c0 c1 cX level data b c
  rw [hset] at hb' ⊢
  refine shape_node.2 ⟨hvalid, hfirst, hle, ?_, fun b' => ?_⟩
  · exact ⟨fun heq => absurd heq hinner, fun hall => absurd (hall b') hb'⟩
  · rw [hget]
    split
    · exact hc
    · exact hchild b'

theorem snoc_isPrefix_iff {l e : List BitValue} : l ++ [b] <+: l ++ b' :: e ↔ b' = b := by
  rw [List.prefix_append_right_inj]
  simp [List.cons_prefix_cons, eq_comm]

/-- The entries after replacing the child for a bit. -/
theorem mem_entries_setChild (hinner : seg.firstBit + seg.len ≠ 64) {e : List BitValue} {d : T} :
    (e, d) ∈ ((node seg c0 c1 cX level data).setChild b c).entries ↔
      (∃ e', e = seg.bits ++ b :: e' ∧ (e', d) ∈ c.entries) ∨
      ((e, d) ∈ (node seg c0 c1 cX level data).entries ∧ ¬ seg.bits ++ [b] <+: e) := by
  obtain ⟨c0', c1', cX', hset, hget⟩ := exists_setChild_eq seg c0 c1 cX level data b c
  rw [hset, mem_entries_node hinner, mem_entries_node hinner]
  constructor
  · rintro ⟨b', e', rfl, hmem⟩
    rw [hget] at hmem
    split at hmem
    · next heq =>
      subst heq
      exact .inl ⟨e', rfl, hmem⟩
    · next hne => exact .inr ⟨⟨b', e', rfl, hmem⟩, fun hp => hne (snoc_isPrefix_iff.1 hp)⟩
  · rintro (⟨e', rfl, hmem⟩ | ⟨⟨b', e', rfl, hmem⟩, hnot⟩)
    · exact ⟨b, e', rfl, by rwa [hget, if_pos rfl]⟩
    · exact ⟨b', e', rfl, by rwa [hget, if_neg fun heq => hnot (snoc_isPrefix_iff.2 heq)]⟩

theorem Shape.advance {seg' : Region} {p : List BitValue}
    (h : (node seg c0 c1 cX level data).Shape k) (hbits : seg.bits = p ++ b :: seg'.bits)
    (hvalid : seg'.Valid) (hfirst : seg'.firstBit = seg.firstBit + p.length + 1) :
    (node seg' c0 c1 cX level data).Shape (k + p.length + 1) := by
  have hlen : seg.len = p.length + 1 + seg'.len := by
    have := congrArg List.length hbits
    simp only [Region.length_bits, List.length_append, List.length_cons] at this
    omega
  obtain ⟨-, rfl, hle, hiff, hchild⟩ := shape_node.1 h
  refine shape_node.2 ⟨hvalid, hfirst, by omega, ?_, fun b' => ?_⟩
  · rw [show seg.firstBit + p.length + 1 + seg'.len = seg.firstBit + seg.len by omega, hiff]
    exact forall_congr' fun b' => by cases b' <;> exact Iff.rfl
  · rw [show seg.firstBit + p.length + 1 + seg'.len = seg.firstBit + seg.len by omega]
    have := hchild b'
    cases b' <;> exact this

/-- Where a segment and a query that does not start with it part. -/
theorem exists_split (h : (node seg c0 c1 cX level data).Shape k) (hq : Query rs q k)
    (hnot : ¬ seg.bits <+: q) : ∃ p b₁ s₁ b₂ s₂, (seg.getCommonPrefix rs).Spells p ∧
      seg.bits = p ++ b₁ :: s₁ ∧ q = p ++ b₂ :: s₂ ∧ b₁ ≠ b₂ := by
  obtain ⟨hvalid, -, hle, -, -⟩ := shape_node.1 h
  obtain ⟨p, hp, ⟨s, hs⟩, ⟨t, rfl⟩, hmax⟩ := hvalid.spells.getCommonPrefix hq.spells
  have hlen := hq.length
  have hseglen := congrArg List.length hs
  simp only [List.length_append, Region.length_bits] at hlen hseglen
  cases s with
  | nil =>
    rw [List.append_nil] at hs
    exact absurd (hs ▸ List.prefix_append p t) hnot
  | cons b₁ s₁ =>
    rw [List.length_cons] at hseglen
    obtain ⟨b₂, s₂, rfl⟩ := List.exists_cons_of_length_pos (l := t) (by omega)
    refine ⟨p, b₁, s₁, b₂, s₂, hp, hs.symm, rfl, ?_⟩
    rintro rfl
    refine hmax b₁ ⟨?_, ?_⟩
    · rw [← hs]
      simp
    · simp

variable [Inhabited T]

/-- The new parent of a node that is split: one child is the node with the rest of its segment, the other
the new leaf. -/
theorem split_eq (h : (node seg c0 c1 cX level data).Shape k) (hq : Query rs q k)
    (hnot : ¬ seg.bits <+: q) : ∃ p b₁ b₂ s₂ c0' c1' cX',
      (node seg c0 c1 cX level data).split rs =
        node (seg.getCommonPrefix rs) c0' c1' cX' 0 (default : T) ∧
      (seg.getCommonPrefix rs).Spells p ∧ ((seg.advance p.length).advance 1).Valid ∧
      seg.bits = p ++ b₁ :: ((seg.advance p.length).advance 1).bits ∧ q = p ++ b₂ :: s₂ ∧ b₁ ≠ b₂ ∧
      ∀ b', (node (seg.getCommonPrefix rs) c0' c1' cX' 0 (default : T)).child b' =
        if b' = b₂ then init ((rs.advance p.length).advance 1) default
        else if b' = b₁ then node ((seg.advance p.length).advance 1) c0 c1 cX level data
        else null := by
  obtain ⟨p, b₁, s₁, b₂, s₂, hp, hseg, rfl, hne⟩ := exists_split h hq hnot
  obtain ⟨hvalid, rfl, hle, hiff, hchild⟩ := shape_node.1 h
  have hplen : (seg.getCommonPrefix rs).getLength.toNat = p.length := hp.len_eq
  have hspells := hvalid.spells
  rw [hseg] at hspells
  have hadv := hspells.advance (k := p.length) (by simp)
  rw [List.drop_left] at hadv
  have hrest : Region.Spells ((seg.advance p.length).advance 1) s₁ :=
    hadv.advance (k := 1) (by simp)
  rw [← hrest.bits_eq] at hseg
  obtain ⟨hb₂, -⟩ := hq.advance.getFirstBit
  obtain ⟨d0, d1, dX, hset₁, hget₁⟩ := exists_setChild_eq (seg.getCommonPrefix rs) null null null 0
    (default : T) b₁ (node ((seg.advance p.length).advance 1) c0 c1 cX level data)
  obtain ⟨c0', c1', cX', hset₂, hget₂⟩ := exists_setChild_eq (seg.getCommonPrefix rs) d0 d1 dX 0
    (default : T) b₂ (init ((rs.advance p.length).advance 1) default)
  refine ⟨p, b₁, b₂, s₂, c0', c1', cX', ?_, hp, hrest.valid, hseg, rfl, hne, fun b' => ?_⟩
  · rw [← hset₂, ← hset₁, split]
    simp only [hplen, hadv.getFirstBit, hb₂, init]
  · rw [hget₂, hget₁]
    cases b' <;> rfl

/-- Splitting a node adds a leaf for the query, below a node that the query goes through. -/
theorem split_spec (h : (node seg c0 c1 cX level data).Shape k) (hq : Query rs q k)
    (hnot : ¬ seg.bits <+: q) : ∃ pr c0' c1' cX' level' data',
      (node seg c0 c1 cX level data).split rs = node pr c0' c1' cX' level' data' ∧
      (node pr c0' c1' cX' level' data').Shape k ∧ pr.bits <+: q ∧
      ∀ e d, (e, d) ∈ (node pr c0' c1' cX' level' data').entries ↔
        (e, d) ∈ (node seg c0 c1 cX level data).entries ∨ (e = q ∧ d = default) := by
  obtain ⟨p, b₁, b₂, s₂, c0', c1', cX', hsplit, hp, hrest, hseg, rfl, hne, hget⟩ := split_eq h hq hnot
  obtain ⟨hvalid, rfl, hle, hiff, hchild⟩ := shape_node.1 h
  have hseglen : p.length < seg.len := by
    have := congrArg List.length hseg
    simp only [Region.length_bits, List.length_append, List.length_cons] at this
    omega
  -- this node, with the rest of its segment, and the new leaf
  have hself := h.advance hseg hrest (by simp [Region.advance])
  obtain ⟨-, hdown⟩ := hq.advance.getFirstBit
  obtain ⟨hleaf, hentries⟩ := shape_init hdown (default : T)
  refine ⟨seg.getCommonPrefix rs, c0', c1', cX', 0, default, hsplit, ?_, ?_, ?_⟩
  · have hfirst : (seg.getCommonPrefix rs).firstBit = seg.firstBit := rfl
    refine shape_node.2 ⟨hp.valid, hfirst, ?_, ⟨fun heq => ?_, fun hall => ?_⟩, fun b' => ?_⟩
    · rw [hp.len_eq]
      omega
    · rw [hp.len_eq] at heq
      omega
    · have hnull := hall b₂
      rw [hget, if_pos rfl] at hnull
      cases hnull
    · rw [hget, hp.len_eq]
      split
      · exact hleaf
      · split
        · exact hself
        · trivial
  · rw [hp.bits_eq]
    exact List.prefix_append _ _
  · intro e d
    have hinner : (seg.getCommonPrefix rs).firstBit + (seg.getCommonPrefix rs).len ≠ 64 := by
      rw [hp.len_eq]
      show seg.firstBit + p.length ≠ 64
      omega
    rw [mem_entries_node hinner, hp.bits_eq,
      entries_advance hseg (by simp [Region.advance])]
    constructor
    · rintro ⟨b', e', rfl, hmem⟩
      rw [hget] at hmem
      split at hmem
      · next heq =>
        subst heq
        rw [hentries] at hmem
        cases List.mem_singleton.1 hmem
        exact .inr ⟨rfl, rfl⟩
      · split at hmem
        · next heq =>
          subst heq
          exact .inl ⟨e', rfl, hmem⟩
        · exact absurd hmem List.not_mem_nil
    · rintro (⟨e', rfl, hmem⟩ | ⟨rfl, rfl⟩)
      · exact ⟨b₁, e', rfl, by rwa [hget, if_neg hne, if_pos rfl]⟩
      · exact ⟨b₂, s₂, rfl, by rw [hget, if_pos rfl, hentries]; exact List.mem_singleton_self _⟩

/-- The entries after adding a region: the old ones, and the region with default data if it was not
there. -/
def Added (n n' : Node T) (q : List BitValue) : Prop :=
  ∀ e d, (e, d) ∈ n'.entries ↔
    (e, d) ∈ n.entries ∨ (e = q ∧ d = default ∧ ∀ d', (q, d') ∉ n.entries)

/-- Adding below the child for a bit. -/
theorem Added.setChild {q' : List BitValue} (hinner : seg.firstBit + seg.len ≠ 64)
    (h : Added ((node seg c0 c1 cX level data).child b) c q') :
    Added (node seg c0 c1 cX level data) ((node seg c0 c1 cX level data).setChild b c)
      (seg.bits ++ b :: q') := by
  intro e d
  simp only [mem_entries_setChild hinner, append_mem_entries hinner]
  constructor
  · rintro (⟨e', rfl, hmem⟩ | ⟨hmem, -⟩)
    · rcases (h e' d).1 hmem with hold | ⟨rfl, rfl, habsent⟩
      · exact .inl ((append_mem_entries hinner).2 hold)
      · exact .inr ⟨rfl, rfl, habsent⟩
    · exact .inl hmem
  · rintro (hmem | ⟨rfl, rfl, habsent⟩)
    · obtain ⟨b', e', rfl, hmem'⟩ := (mem_entries_node hinner).1 hmem
      by_cases hb : b' = b
      · subst hb
        exact .inl ⟨e', rfl, (h e' d).2 (.inl hmem')⟩
      · exact .inr ⟨hmem, fun hp => hb (snoc_isPrefix_iff.1 hp)⟩
    · exact .inl ⟨q', rfl, (h q' default).2 (.inr ⟨rfl, rfl, habsent⟩)⟩

/-- The next node of the walk, which `createChildIfNecessary` provides. -/
theorem createChild_spec {q' : List BitValue} {rs' : Region}
    (h : (node seg c0 c1 cX level data).Shape k) (hq : Query rs' q' (k + seg.len + 1)) :
    ∃ c0' c1' cX', (node seg c0 c1 cX level data).createChildIfNecessary b rs' =
        node seg c0' c1' cX' level data ∧
      (node seg c0' c1' cX' level data).child b ≠ null ∧
      ((node seg c0' c1' cX' level data).child b).Shape (k + seg.len + 1) ∧
      (∀ c, Added ((node seg c0' c1' cX' level data).child b) c q' →
        Added ((node seg c0 c1 cX level data).child b) c q') ∧
      ∀ c, (node seg c0' c1' cX' level data).setChild b c =
        (node seg c0 c1 cX level data).setChild b c := by
  obtain ⟨-, -, -, -, hchild⟩ := shape_node.1 h
  unfold createChildIfNecessary
  split
  · next hnull =>
    rw [isNull_iff] at hnull
    obtain ⟨hleaf, hentries⟩ := shape_init hq (default : T)
    obtain ⟨c0', c1', cX', hset, hget⟩ := exists_setChild_eq seg c0 c1 cX level data b (init rs' default)
    have hget : (node seg c0' c1' cX' level data).child b = init rs' default := (hget b).trans (if_pos rfl)
    refine ⟨c0', c1', cX', hset, ?_, ?_, ?_, fun c => ?_⟩
    · rw [hget]
      simp [init]
    · rw [hget]
      exact hleaf
    · intro c hc e d
      rw [hget] at hc
      rw [hc e d, hentries, hnull]
      simp [entries]
    · rw [← hset]
      cases b <;> rfl
  · next hnull =>
    exact ⟨c0, c1, cX, rfl, fun h => hnull (isNull_iff.2 h), hchild b, fun c hc => hc, fun c => rfl⟩

/-- `addOverlapping` from a node on. A round that splits is followed by one that does not, since the
query goes through the new node. -/
theorem addLoop_spec (partitionLevel : Option Int) (fuel : Nat)
    (h : (node seg c0 c1 cX level data).Shape k) (hq : Query rs q k)
    (hfuel : 2 * q.length + 1 ≤ fuel)
    (hsplit : ¬ seg.bits <+: q → 2 * q.length + 2 ≤ fuel) :
    ∃ n', (node seg c0 c1 cX level data).addLoop partitionLevel fuel rs = some n' ∧ n' ≠ null ∧
      n'.Shape k ∧ Added (node seg c0 c1 cX level data) n' q := by
  induction fuel generalizing seg c0 c1 cX level data k rs q with
  | zero => omega
  | succ fuel ih =>
    have hlen : seg.getLength.toNat = seg.len := rfl
    have hfirst : seg.firstBit = k := (shape_node.1 h).2.1
    rw [addLoop, hlen]
    dsimp only
    rcases h.exact_cases hq with
      ⟨hm, hnot⟩ | ⟨hm, ⟨rfl, hend, hleaf⟩ | ⟨b, q', rfl, hend, hinner, hb, hdown⟩⟩
    · -- split, then go through the new node
      obtain ⟨pr, c0', c1', cX', level', data', heq, hshape, hpre, hentries⟩ := split_spec h hq hnot
      have hfuel' := hsplit hnot
      obtain ⟨n', hrun, hne, hshape', hadded⟩ := ih hshape hq (by omega) (fun hno => absurd hpre hno)
      rw [hm]
      simp only [Bool.false_eq_true, if_false]
      rw [heq]
      refine ⟨n', hrun, hne, hshape', fun e d => ?_⟩
      have habsent : ∀ d', (q, d') ∉ (node seg c0 c1 cX level data).entries :=
        fun d' hmem => hnot (prefix_of_mem_entries hmem)
      rw [hadded, hentries]
      constructor
      · rintro ((hmem | ⟨rfl, rfl⟩) | ⟨rfl, rfl, hno⟩)
        · exact .inl hmem
        · exact .inr ⟨rfl, rfl, habsent⟩
        · exact absurd ((hentries _ _).2 (.inr ⟨rfl, rfl⟩)) (hno default)
      · rintro (hmem | ⟨rfl, rfl, -⟩)
        · exact .inl (.inl hmem)
        · exact .inl (.inr ⟨rfl, rfl⟩)
    · -- the leaf is there
      rw [hm]
      simp only [if_true, hend]
      refine ⟨_, rfl, by simp, shape_congr.1 h, fun e d => ?_⟩
      have hleaf' : seg.firstBit + seg.len = 64 := by rw [hfirst]; exact hleaf
      rw [entries_leaf hleaf', entries_leaf hleaf']
      simp
    · -- go on below the child
      obtain ⟨c0', c1', cX', hcreate, hne, hshape, hadd, hset⟩ := createChild_spec (b := b) h hdown
      rw [hm]
      simp only [if_true, if_neg hend, hb, hcreate]
      rw [List.length_append, List.length_cons] at hfuel
      obtain ⟨n', hrun, hne', hshape', hadded⟩ : ∃ n', ((node seg c0' c1' cX' level data).child b).addLoop
          partitionLevel fuel ((rs.advance seg.len).advance 1) = some n' ∧ n' ≠ null ∧
          n'.Shape (k + seg.len + 1) ∧ Added ((node seg c0' c1' cX' level data).child b) n' q' := by
        cases hc : (node seg c0' c1' cX' level data).child b with
        | null => exact absurd hc hne
        | node =>
          rw [hc] at hshape
          exact ih hshape hdown (by omega) (fun _ => by omega)
      rw [hrun]
      refine ⟨_, rfl, ?_, ?_, ?_⟩
      · rw [hset]
        cases b <;> simp [Node.setChild]
      · rw [hset]
        refine h.setChild hinner hshape' ⟨b, ?_⟩
        rw [child_setChild (by simp), if_pos rfl]
        exact hne'
      · rw [hset]
        exact (hadd n' hadded).setChild (by rw [hfirst]; exact hinner)

end

section
variable {T : Type*} {n c : Node T} {seg : Region} {c0 c1 cX : Node T} {level : Int} {data : T}
  {k : Nat} {q : List BitValue} {rs : Region}

theorem eraseLeaf_node : (node seg c0 c1 cX level data).eraseLeaf rs =
    if (rs.advance seg.len).firstBit = 64 then null
    else if ((node seg c0 c1 cX level data).setChild (rs.advance seg.len).getFirstBit
        (((node seg c0 c1 cX level data).child (rs.advance seg.len).getFirstBit).eraseLeaf
          ((rs.advance seg.len).advance 1))).hasNoChild then null
    else (node seg c0 c1 cX level data).setChild (rs.advance seg.len).getFirstBit
      (((node seg c0 c1 cX level data).child (rs.advance seg.len).getFirstBit).eraseLeaf
        ((rs.advance seg.len).advance 1)) := by
  rw [eraseLeaf, show seg.getLength.toNat = seg.len from rfl]
  cases (rs.advance seg.len).getFirstBit <;> rfl

/-- What is left below a node, or `null`, keeps the shape and loses the query's entry. -/
theorem eraseLeaf_spec (h : n.Shape k) (hq : Query rs q k) {d : T} (hmem : (q, d) ∈ n.entries) :
    (n.eraseLeaf rs).Shape k ∧
      ∀ e d', (e, d') ∈ (n.eraseLeaf rs).entries ↔ (e, d') ∈ n.entries ∧ e ≠ q := by
  induction n using childInduction generalizing k rs q with
  | null => exact absurd hmem List.not_mem_nil
  | node seg c0 c1 cX level data ih =>
    obtain ⟨-, hfirst, -, -, hchild⟩ := shape_node.1 h
    rw [eraseLeaf_node]
    rcases h.exact_cases hq with
      ⟨-, hnot⟩ | ⟨-, ⟨rfl, hend, hleaf⟩ | ⟨b, q', rfl, hend, hinner, hb, hdown⟩⟩
    · exact absurd (prefix_of_mem_entries hmem) hnot
    · rw [if_pos hend, entries_leaf (by rw [hfirst]; exact hleaf)]
      refine ⟨trivial, fun e d' => ?_⟩
      simp only [entries, List.not_mem_nil, List.mem_singleton, Prod.mk.injEq, false_iff]
      rintro ⟨⟨rfl, -⟩, hne⟩
      exact hne rfl
    · have hinner' : seg.firstBit + seg.len ≠ 64 := by rw [hfirst]; exact hinner
      rw [append_mem_entries hinner'] at hmem
      obtain ⟨hshape, hentries⟩ := ih b (hchild b) hdown hmem
      rw [if_neg hend, hb]
      have hmem' : ∀ e d', (e, d') ∈ ((node seg c0 c1 cX level data).setChild b
          (((node seg c0 c1 cX level data).child b).eraseLeaf
            ((rs.advance seg.len).advance 1))).entries ↔
          (e, d') ∈ (node seg c0 c1 cX level data).entries ∧ e ≠ seg.bits ++ b :: q' := by
        intro e d'
        rw [mem_entries_setChild hinner']
        constructor
        · rintro (⟨e', rfl, he'⟩ | ⟨he, hnot⟩)
          · obtain ⟨hold, hne⟩ := (hentries e' d').1 he'
            exact ⟨(append_mem_entries hinner').2 hold, fun heq => hne (by simpa using heq)⟩
          · refine ⟨he, ?_⟩
            rintro rfl
            exact hnot (by simp)
        · rintro ⟨he, hne⟩
          obtain ⟨b', e', rfl, hold⟩ := (mem_entries_node hinner').1 he
          by_cases hb' : b' = b
          · subst hb'
            exact .inl ⟨e', rfl, (hentries e' d').2 ⟨hold, fun heq => hne (by rw [heq])⟩⟩
          · exact .inr ⟨he, fun hp => hb' (snoc_isPrefix_iff.1 hp)⟩
      split
      · next hempty =>
        rw [hasNoChild_iff] at hempty
        refine ⟨trivial, fun e d' => ?_⟩
        rw [← hmem']
        refine ⟨fun he => absurd he List.not_mem_nil, fun he => absurd he ?_⟩
        obtain ⟨c0', c1', cX', hset, -⟩ := exists_setChild_eq seg c0 c1 cX level data b
          (((node seg c0 c1 cX level data).child b).eraseLeaf ((rs.advance seg.len).advance 1))
        rw [hset] at hempty ⊢
        rw [mem_entries_node hinner']
        rintro ⟨b', e', -, he'⟩
        rw [hempty b'] at he'
        exact absurd he' List.not_mem_nil
      · next hsome =>
        rw [hasNoChild_iff] at hsome
        push Not at hsome
        exact ⟨h.setChild hinner hshape hsome, hmem'⟩

theorem writeLeaf_node {newData : T} : (node seg c0 c1 cX level data).writeLeaf newData rs =
    if (rs.advance seg.len).firstBit = 64 then node seg c0 c1 cX level newData
    else (node seg c0 c1 cX level data).setChild (rs.advance seg.len).getFirstBit
      (((node seg c0 c1 cX level data).child (rs.advance seg.len).getFirstBit).writeLeaf newData
        ((rs.advance seg.len).advance 1)) := by
  rw [writeLeaf, show seg.getLength.toNat = seg.len from rfl]
  cases (rs.advance seg.len).getFirstBit <;> rfl

/-- A write through an iterator changes the data of its entry. -/
theorem writeLeaf_spec (newData : T) (h : n.Shape k) (hq : Query rs q k) {d : T}
    (hmem : (q, d) ∈ n.entries) : (n.writeLeaf newData rs).Shape k ∧ n.writeLeaf newData rs ≠ null ∧
      ∀ e d', (e, d') ∈ (n.writeLeaf newData rs).entries ↔
        ((e, d') ∈ n.entries ∧ e ≠ q) ∨ (e = q ∧ d' = newData) := by
  induction n using childInduction generalizing k rs q with
  | null => exact absurd hmem List.not_mem_nil
  | node seg c0 c1 cX level data ih =>
    obtain ⟨-, hfirst, -, -, hchild⟩ := shape_node.1 h
    rw [writeLeaf_node]
    rcases h.exact_cases hq with
      ⟨-, hnot⟩ | ⟨-, ⟨rfl, hend, hleaf⟩ | ⟨b, q', rfl, hend, hinner, hb, hdown⟩⟩
    · exact absurd (prefix_of_mem_entries hmem) hnot
    · have hleaf' : seg.firstBit + seg.len = 64 := by rw [hfirst]; exact hleaf
      rw [if_pos hend]
      refine ⟨shape_congr.1 h, by simp, fun e d' => ?_⟩
      rw [entries_leaf hleaf', entries_leaf hleaf']
      simp only [List.mem_singleton, Prod.mk.injEq]
      constructor
      · exact .inr
      · rintro (⟨⟨rfl, -⟩, hne⟩ | heq)
        · exact absurd rfl hne
        · exact heq
    · have hinner' : seg.firstBit + seg.len ≠ 64 := by rw [hfirst]; exact hinner
      rw [append_mem_entries hinner'] at hmem
      obtain ⟨hshape, hne, hentries⟩ := ih b (hchild b) hdown hmem
      rw [if_neg hend, hb]
      refine ⟨h.setChild hinner hshape ⟨b, ?_⟩, by cases b <;> simp [Node.setChild], fun e d' => ?_⟩
      · rwa [child_setChild (by simp), if_pos rfl]
      · rw [mem_entries_setChild hinner']
        constructor
        · rintro (⟨e', rfl, he'⟩ | ⟨he, hnot⟩)
          · rcases (hentries e' d').1 he' with ⟨hold, hne⟩ | ⟨rfl, rfl⟩
            · exact .inl ⟨(append_mem_entries hinner').2 hold, fun heq => hne (by simpa using heq)⟩
            · exact .inr ⟨rfl, rfl⟩
          · refine .inl ⟨he, ?_⟩
            rintro rfl
            exact hnot (by simp)
        · rintro (⟨he, hne⟩ | ⟨rfl, rfl⟩)
          · obtain ⟨b', e', rfl, hold⟩ := (mem_entries_node hinner').1 he
            by_cases hb' : b' = b
            · subst hb'
              exact .inl ⟨e', rfl, (hentries e' d').2 (.inl ⟨hold, fun heq => hne (by rw [heq])⟩)⟩
            · exact .inr ⟨he, fun hp => hb' (snoc_isPrefix_iff.1 hp)⟩
          · exact .inl ⟨q', rfl, (hentries q' d').2 (.inr ⟨rfl, rfl⟩)⟩

end

end Node

/-! ## Runs of updates -/

/-- A call on a tree. `write` and `erase` go through an iterator, which points to a leaf. -/
inductive TreeEvent (T : Type*)
  | add (region : FullRegion) (partitionLevel : Option Int)
  | write (region : FullRegion) (data : T)
  | erase (region : FullRegion)

section
variable {T : Type*} [Inhabited T]

/-- One call. An iterator to a leaf that is not there is not admitted. -/
def treeStep (root : Node T) : TreeEvent T → Option (Node T)
  | .add region partitionLevel => addOverlapping root region.toRegion partitionLevel
  | .write region data =>
    if (findExact root region.toRegion).isSome then some (root.writeLeaf data region.toRegion)
    else none
  | .erase region =>
    if (findExact root region.toRegion).isSome then some (erase root region.toRegion) else none

/-- The abstract container: a partial function from regions to data. -/
def containerStep (m : FullRegion → Option T) : TreeEvent T → FullRegion → Option T
  | .add region _ => fun r => if r = region then some ((m region).getD default) else m r
  | .write region data => fun r => if r = region then some data else m r
  | .erase region => fun r => if r = region then none else m r

/-- The entries added and not erased, with the data last written. -/
def contents (es : List (TreeEvent T)) : FullRegion → Option T :=
  es.foldl containerStep fun _ => none

/-- A tree is the root of an empty one, or its root has the shape of a node at bit 0. -/
def WellShaped (root : Node T) : Prop := root = emptyRoot ∨ (root ≠ .null ∧ root.Shape 0)

/-- The leaves of a tree are the entries of `m`. -/
def Holds (root : Node T) (m : FullRegion → Option T) : Prop :=
  ∀ l d, (l, d) ∈ root.entries ↔ ∃ r : FullRegion, l = r.bits ∧ m r = some d

variable {root : Node T} {m : FullRegion → Option T}

theorem query (r : FullRegion) : Node.Query r.toRegion r.bits 0 where
  spells := r.spells
  firstBit := rfl
  length := by simp

theorem entries_emptyRoot : (emptyRoot : Node T).entries = [] := rfl

/-- The searches go past an empty root without finding anything. -/
theorem found_emptyRoot (r : FullRegion) : (emptyRoot : Node T).found .empty r.toRegion = [] := by
  have hfirst : (r.toRegion.advance Region.empty.getLength.toNat).firstBit ≠ 64 := by
    show 0 + 0 ≠ 64
    decide
  rw [emptyRoot, Node.init, Node.found]
  simp only [if_neg hfirst, Node.found, ite_self, List.append_nil]

theorem findExact_emptyRoot (r : FullRegion) : findExact (emptyRoot : Node T) r.toRegion = none := by
  have hfirst : (r.toRegion.advance Region.empty.getLength.toNat).firstBit ≠ 64 := by
    show 0 + 0 ≠ 64
    decide
  rw [emptyRoot, Node.init, findExact]
  dsimp only
  rw [if_neg hfirst]
  split
  · split <;> rfl
  · rfl

omit [Inhabited T] in
theorem Holds.mem_iff (h : Holds root m) {r : FullRegion} {d : T} :
    (r.bits, d) ∈ root.entries ↔ m r = some d := by
  rw [h]
  constructor
  · rintro ⟨s, hs, hm⟩
    rwa [FullRegion.bits_injective hs]
  · intro hm
    exact ⟨r, rfl, hm⟩

theorem WellShaped.findExact_eq (hroot : WellShaped root) (h : Holds root m) (r : FullRegion) :
    findExact root r.toRegion = m r := by
  refine Option.ext fun d => ?_
  rw [← h.mem_iff]
  rcases hroot with rfl | ⟨-, hshape⟩
  · simp [findExact_emptyRoot, entries_emptyRoot]
  · exact hshape.findExact_eq_some_iff (query r)

theorem WellShaped.isEmptyRoot_iff (hroot : WellShaped root) :
    isEmptyRoot root = true ↔ root = emptyRoot := by
  constructor
  · intro hempty
    rcases hroot with rfl | ⟨hne, hshape⟩
    · rfl
    · cases root with
      | null => exact absurd rfl hne
      | node seg c0 c1 cX level data =>
        obtain ⟨-, -, -, hiff, -⟩ := Node.shape_node.1 hshape
        obtain ⟨hseg, h0, h1, hX⟩ := of_decide_eq_true hempty
        obtain ⟨-, hnext⟩ := of_decide_eq_true hseg
        rw [Node.isNull_iff] at h0 h1 hX
        subst h0 h1 hX
        -- a node without children is a leaf, whose segment is not empty
        have hleaf := hiff.2 fun b => by cases b <;> rfl
        simp only [Region.len, Region.getLength, hnext] at hleaf
        omega
  · rintro rfl
    rfl

theorem WellShaped.addOverlapping (hroot : WellShaped root) (h : Holds root m) (r : FullRegion)
    (level : Option Int) : ∃ root', addOverlapping root r.toRegion level = some root' ∧
      WellShaped root' ∧ Holds root' (containerStep m (.add r level)) := by
  -- in both cases the entries are those of `Node.Added`
  have hholds : ∀ root', Node.Added root root' r.bits → Holds root' (containerStep m (.add r level)) := by
    intro root' hadded l d
    rw [hadded]
    simp only [h.mem_iff, containerStep]
    constructor
    · rintro (hmem | ⟨rfl, rfl, habsent⟩)
      · obtain ⟨s, rfl, hs⟩ := (h l d).1 hmem
        refine ⟨s, rfl, ?_⟩
        split
        · next heq =>
          subst heq
          rw [hs]
          rfl
        · exact hs
      · have hnone : m r = none := Option.eq_none_iff_forall_ne_some.2 habsent
        exact ⟨r, rfl, by rw [if_pos rfl, hnone]; rfl⟩
    · rintro ⟨s, rfl, hs⟩
      split at hs
      · next heq =>
        subst heq
        cases hm : m s with
        | none =>
          rw [hm] at hs
          cases hs
          exact .inr ⟨rfl, rfl, fun d' hd' => by cases hd'⟩
        | some d' =>
          rw [hm] at hs
          cases hs
          exact .inl (h.mem_iff.2 hm)
      · exact .inl (h.mem_iff.2 hs)
  by_cases hempty : isEmptyRoot root = true
  · obtain rfl := hroot.isEmptyRoot_iff.1 hempty
    obtain ⟨hshape, hentries⟩ := Node.shape_init (query r) (default : T)
    refine ⟨.node r.toRegion .null .null .null (level.getD 0) default, rfl,
      .inr ⟨by simp, Node.shape_congr.1 hshape⟩, hholds _ fun l d => ?_⟩
    have hleaf : r.toRegion.firstBit + r.toRegion.len = 64 := by
      rw [r.spells.len_eq, r.length_bits]
      rfl
    rw [Node.entries_leaf hleaf, entries_emptyRoot, r.spells.bits_eq]
    simp
  · rcases hroot with rfl | ⟨hne, hshape⟩
    · exact absurd rfl hempty
    · cases root with
      | null => exact absurd rfl hne
      | node seg c0 c1 cX lvl data =>
        obtain ⟨root', hrun, hne', hshape', hadded⟩ := Node.addLoop_spec level 130 hshape (query r)
          (by simp) (by simp)
        refine ⟨root', ?_, .inr ⟨hne', hshape'⟩, hholds root' hadded⟩
        rw [Support.addOverlapping, if_neg hempty]
        exact hrun

theorem WellShaped.writeLeaf (hroot : WellShaped root) (h : Holds root m) {r : FullRegion} {d : T}
    (hr : m r = some d) (data : T) : WellShaped (root.writeLeaf data r.toRegion) ∧
      Holds (root.writeLeaf data r.toRegion) (containerStep m (.write r data)) := by
  have hmem := h.mem_iff.2 hr
  rcases hroot with rfl | ⟨-, hshape⟩
  · simp [entries_emptyRoot] at hmem
  · obtain ⟨hshape', hne, hentries⟩ := Node.writeLeaf_spec data hshape (query r) hmem
    refine ⟨.inr ⟨hne, hshape'⟩, fun l d' => ?_⟩
    rw [hentries]
    simp only [containerStep]
    constructor
    · rintro (⟨hold, hne⟩ | ⟨rfl, rfl⟩)
      · obtain ⟨s, rfl, hs⟩ := (h l d').1 hold
        exact ⟨s, rfl, by rwa [if_neg fun heq => hne (by rw [heq])]⟩
      · exact ⟨r, rfl, if_pos rfl⟩
    · rintro ⟨s, rfl, hs⟩
      split at hs
      · next heq =>
        subst heq
        cases hs
        exact .inr ⟨rfl, rfl⟩
      · next hne => exact .inl ⟨h.mem_iff.2 hs, fun heq => hne (FullRegion.bits_injective heq)⟩

theorem WellShaped.erase (hroot : WellShaped root) (h : Holds root m) {r : FullRegion} {d : T}
    (hr : m r = some d) : WellShaped (Support.erase root r.toRegion) ∧
      Holds (Support.erase root r.toRegion) (containerStep m (.erase r)) := by
  have hmem := h.mem_iff.2 hr
  rcases hroot with rfl | ⟨-, hshape⟩
  · simp [entries_emptyRoot] at hmem
  · obtain ⟨hshape', hentries⟩ := Node.eraseLeaf_spec hshape (query r) hmem
    have hholds : ∀ root', root'.entries = (root.eraseLeaf r.toRegion).entries →
        Holds root' (containerStep m (.erase r)) := by
      intro root' heq l d'
      rw [heq, hentries]
      simp only [containerStep]
      constructor
      · rintro ⟨hold, hne⟩
        obtain ⟨s, rfl, hs⟩ := (h l d').1 hold
        exact ⟨s, rfl, by rwa [if_neg fun heq => hne (by rw [heq])]⟩
      · rintro ⟨s, rfl, hs⟩
        split at hs
        · cases hs
        · next hne => exact ⟨h.mem_iff.2 hs, fun heq => hne (FullRegion.bits_injective heq)⟩
    unfold Support.erase
    split
    · next hnull => exact ⟨.inl rfl, hholds _ (by rw [hnull]; rfl)⟩
    · next hne => exact ⟨.inr ⟨hne, hshape'⟩, hholds _ rfl⟩

/-- **A call does to the tree what it does to the container.** -/
theorem WellShaped.step {e : TreeEvent T} {root' : Node T} (hroot : WellShaped root)
    (h : Holds root m) (hstep : treeStep root e = some root') :
    WellShaped root' ∧ Holds root' (containerStep m e) := by
  cases e with
  | add r level =>
    obtain ⟨root₁, hadd, hspec⟩ := hroot.addOverlapping h r level
    rw [treeStep, hadd] at hstep
    cases hstep
    exact hspec
  | write r data =>
    rw [treeStep, hroot.findExact_eq h r] at hstep
    split at hstep
    · next hsome =>
      obtain ⟨d, hd⟩ := Option.isSome_iff_exists.1 hsome
      cases hstep
      exact hroot.writeLeaf h hd data
    · cases hstep
  | erase r =>
    rw [treeStep, hroot.findExact_eq h r] at hstep
    split at hstep
    · next hsome =>
      obtain ⟨d, hd⟩ := Option.isSome_iff_exists.1 hsome
      cases hstep
      exact hroot.erase h hd
    · cases hstep

/-- What the searches of a tree with the entries of `m` return. -/
structure Container (root : Node T) (m : FullRegion → Option T) : Prop where
  /-- The leaves are the entries. -/
  holds : Holds root m
  /-- No region has two leaves. -/
  once : (root.entries.map Prod.fst).Nodup
  /-- `find` returns the entries that intersect the region, each once. -/
  find : ∀ q : FullRegion, ∃ out, find root q.toRegion = some out ∧ (out.map (·.region)).Nodup ∧
    ∀ x d, (∃ it ∈ out, it.region = x ∧ it.data = d) ↔
      ∃ r : FullRegion, x = r.toRegion ∧ m r = some d ∧ r.Intersects q
  /-- `findExact` finds the entry of the region. -/
  findExact : ∀ q : FullRegion, findExact root q.toRegion = m q
  /-- `findExactAndMatching` tells the entry of the region from the others that intersect it. -/
  findExactAndMatching : ∀ q : FullRegion, ∃ exact out,
    findExactAndMatching root q.toRegion = some (exact, out) ∧
    (∀ d, (∃ it, exact = some it ∧ it.region = q.toRegion ∧ it.data = d) ↔ m q = some d) ∧
    (exact = none ↔ m q = none) ∧ (out.map (·.region)).Nodup ∧
    ∀ x d, (∃ it ∈ out, it.region = x ∧ it.data = d) ↔
      ∃ r : FullRegion, x = r.toRegion ∧ m r = some d ∧ r.Intersects q ∧ r ≠ q

omit [Inhabited T] in
theorem foldl_exactAndMatching (q : Region) (l : List (RegionIterator T))
    (exact : Option (RegionIterator T)) (out : List (RegionIterator T)) :
    l.foldl (fun output it =>
        if q = it.region then (some it, output.2) else (output.1, output.2 ++ [it])) (exact, out) =
      ((l.filter fun it => q = it.region).getLast?.or exact,
        out ++ l.filter fun it => ¬ q = it.region) := by
  induction l generalizing exact out with
  | nil => simp
  | cons it l ih =>
    rw [List.foldl_cons]
    split
    · next heq =>
      rw [ih, List.filter_cons_of_pos (by simpa using heq), List.filter_cons_of_neg (by simpa using heq),
        List.getLast?_cons]
      cases (l.filter fun it => q = it.region).getLast? <;> rfl
    · next hne =>
      rw [ih, List.filter_cons_of_neg (by simpa using hne), List.filter_cons_of_pos (by simpa using hne),
        List.append_assoc, List.singleton_append]

/-- A search from the root visits the leaves found below it. -/
theorem WellShaped.traverse_eq {σ : Type*} (hroot : WellShaped root)
    (visit : σ → RegionIterator T → σ) (q : Region) (output : σ) :
    traverse visit root.size [⟨.empty, q, root⟩] output =
      some ((root.found .empty q).foldl visit output) := by
  have hne : root ≠ .null := by
    rcases hroot with rfl | ⟨hne, -⟩
    · simp [emptyRoot, Node.init]
    · exact hne
  rw [Node.traverse_eq]
  · simp [Node.foundAll]
  · simpa using hne
  · simp [Node.pendingSize]

/-- The leaves found are the entries that intersect the region, each once. -/
theorem WellShaped.found_spec (hroot : WellShaped root) (h : Holds root m) (q : FullRegion) :
    ((root.found .empty q.toRegion).map (·.region)).Nodup ∧
      ∀ x d, (∃ it ∈ root.found .empty q.toRegion, it.region = x ∧ it.data = d) ↔
        ∃ r : FullRegion, x = r.toRegion ∧ m r = some d ∧ r.Intersects q := by
  have hfound : (root.found .empty q.toRegion).map (fun it => (it.region, it.data)) =
      (root.entries.filter fun e => Node.agree e.1 q.bits).map
        fun e => (Region.ofBits e.1, e.2) := by
    rcases hroot with rfl | ⟨-, hshape⟩
    · rw [found_emptyRoot, entries_emptyRoot]
      rfl
    · simpa using hshape.found_eq Region.valid_empty.spells rfl rfl q.spells rfl (by simp)
  have hfull : ∀ l d, (l, d) ∈ root.entries → ∃ r : FullRegion, l = r.bits ∧ m r = some d :=
    fun l d => (h l d).1
  constructor
  · have hregion : (root.found .empty q.toRegion).map (·.region) =
        ((root.entries.filter fun e => Node.agree e.1 q.bits).map Prod.fst).map Region.ofBits := by
      have := congrArg (List.map Prod.fst) hfound
      simpa [List.map_map, Function.comp_def] using this
    rw [hregion]
    refine List.Nodup.map_on ?_ ?_
    · intro l hl l' hl' heq
      obtain ⟨⟨_, d⟩, he, rfl⟩ := List.mem_map.1 hl
      obtain ⟨⟨_, d'⟩, he', rfl⟩ := List.mem_map.1 hl'
      obtain ⟨r, rfl, -⟩ := hfull _ _ (List.mem_of_mem_filter he)
      obtain ⟨r', rfl, -⟩ := hfull _ _ (List.mem_of_mem_filter he')
      dsimp only at heq ⊢
      rw [← r.toRegion_eq, ← r'.toRegion_eq] at heq
      rw [FullRegion.toRegion_injective heq]
    · exact (Node.nodup_entries root).sublist (List.filter_sublist.map _)
  · intro x d
    have hmem : (∃ it ∈ root.found .empty q.toRegion, it.region = x ∧ it.data = d) ↔
        (x, d) ∈ (root.found .empty q.toRegion).map (fun it => (it.region, it.data)) := by
      simp
    rw [hmem, hfound]
    simp only [List.mem_map, List.mem_filter, Node.agree_iff, Prod.mk.injEq, Prod.exists]
    constructor
    · rintro ⟨l, d', ⟨he, hagree⟩, rfl, rfl⟩
      obtain ⟨r, rfl, hr⟩ := hfull _ _ he
      exact ⟨r, r.toRegion_eq.symm, hr, FullRegion.intersects_iff_forall₂.2 hagree⟩
    · rintro ⟨r, rfl, hr, hint⟩
      exact ⟨r.bits, d, ⟨h.mem_iff.2 hr, FullRegion.intersects_iff_forall₂.1 hint⟩,
        r.toRegion_eq.symm, rfl⟩

theorem FullRegion.intersects_self (r : FullRegion) : r.Intersects r := by
  rw [FullRegion.intersects_iff]
  intro i _ _
  rfl

/-- The searches of a tree return what its entries say. -/
theorem WellShaped.container (hroot : WellShaped root) (h : Holds root m) : Container root m := by
  refine ⟨h, Node.nodup_entries root, fun q => ?_, hroot.findExact_eq h, fun q => ?_⟩
  · obtain ⟨hnodup, hmem⟩ := hroot.found_spec h q
    refine ⟨root.found .empty q.toRegion, ?_, hnodup, hmem⟩
    rw [Support.find, hroot.traverse_eq, List.foldl_append_eq_append, List.nil_append,
      ← List.flatMap_def, List.flatMap_singleton']
  · obtain ⟨hnodup, hmem⟩ := hroot.found_spec h q
    have hrun : Support.findExactAndMatching root q.toRegion = some _ := hroot.traverse_eq _ _ _
    rw [foldl_exactAndMatching] at hrun
    generalize root.found .empty q.toRegion = l at hrun hnodup hmem
    -- the leaf of the region, where it is among the leaves visited
    have hexact : ∀ it ∈ l.filter (fun it => q.toRegion = it.region), m q = some it.data := by
      intro it hit
      obtain ⟨hit, heq⟩ := List.mem_filter.1 hit
      obtain ⟨r, hr, hm, -⟩ := (hmem _ _).1 ⟨it, hit, rfl, rfl⟩
      rw [← of_decide_eq_true heq] at hr
      rwa [FullRegion.toRegion_injective hr]
    have hnone : (l.filter fun it => q.toRegion = it.region) = [] ↔ m q = none := by
      constructor
      · intro hnil
        by_contra hsome
        obtain ⟨d, hd⟩ := Option.ne_none_iff_exists'.1 hsome
        obtain ⟨it, hit, hregion, -⟩ := (hmem _ d).2 ⟨q, rfl, hd, q.intersects_self⟩
        have : it ∈ l.filter fun it => q.toRegion = it.region :=
          List.mem_filter.2 ⟨hit, by simp [hregion]⟩
        rw [hnil] at this
        exact List.not_mem_nil this
      · intro hq
        rw [List.eq_nil_iff_forall_not_mem]
        intro it hit
        have := hexact it hit
        rw [hq] at this
        cases this
    refine ⟨_, _, hrun, fun d => ?_, ?_, ?_, fun x d => ?_⟩
    · rw [Option.or_none]
      constructor
      · rintro ⟨it, hlast, hregion, rfl⟩
        exact hexact it (List.mem_of_getLast? hlast)
      · intro hd
        cases hlast : (l.filter fun it => q.toRegion = it.region).getLast? with
        | none =>
          rw [hnone.1 (List.getLast?_eq_none_iff.1 hlast)] at hd
          cases hd
        | some it =>
          have hit := List.mem_of_getLast? hlast
          have hdata := hexact it hit
          rw [hd] at hdata
          cases hdata
          exact ⟨it, rfl, (of_decide_eq_true (List.mem_filter.1 hit).2).symm, rfl⟩
    · rw [Option.or_none, List.getLast?_eq_none_iff, hnone]
    · rw [List.nil_append]
      exact hnodup.sublist (List.filter_sublist.map _)
    · rw [List.nil_append]
      constructor
      · rintro ⟨it, hit, rfl, rfl⟩
        obtain ⟨hit, hne⟩ := List.mem_filter.1 hit
        obtain ⟨r, hr, hm, hint⟩ := (hmem _ _).1 ⟨it, hit, rfl, rfl⟩
        refine ⟨r, hr, hm, hint, ?_⟩
        rintro rfl
        simp [hr] at hne
      · rintro ⟨r, rfl, hm, hint, hne⟩
        obtain ⟨it, hit, hregion, hdata⟩ := (hmem _ _).2 ⟨r, rfl, hm, hint⟩
        refine ⟨it, List.mem_filter.2 ⟨hit, ?_⟩, hregion, hdata⟩
        rw [hregion]
        simpa using fun heq => hne (FullRegion.toRegion_injective heq).symm

theorem wellShaped_emptyRoot : WellShaped (emptyRoot : Node T) := .inl rfl

theorem holds_emptyRoot : Holds (emptyRoot : Node T) fun _ => none := by
  intro l d
  simp [entries_emptyRoot]

theorem WellShaped.run : ∀ (es : List (TreeEvent T)) {root root' : Node T}
    {m : FullRegion → Option T}, WellShaped root → Holds root m →
    Lib.run treeStep root es = some root' →
    WellShaped root' ∧ Holds root' (es.foldl containerStep m)
  | [], _, _, _, hroot, h, hrun => by
    cases hrun
    exact ⟨hroot, h⟩
  | e :: es, _, _, _, hroot, h, hrun => by
    obtain ⟨root₁, hstep, hrun⟩ := Option.bind_eq_some_iff.1 hrun
    obtain ⟨hroot₁, h₁⟩ := hroot.step h hstep
    exact WellShaped.run es hroot₁ h₁ hrun

/-- The calls that a container with the entries of `m` admits: iterators point to entries. -/
def Admitted (m : FullRegion → Option T) : TreeEvent T → Prop
  | .add _ _ => True
  | .write region _ => (m region).isSome = true
  | .erase region => (m region).isSome = true

theorem WellShaped.isSome_treeStep_iff (hroot : WellShaped root) (h : Holds root m)
    (e : TreeEvent T) : (treeStep root e).isSome = true ↔ Admitted m e := by
  cases e with
  | add r level =>
    obtain ⟨root', hadd, -⟩ := hroot.addOverlapping h r level
    simp [treeStep, hadd, Admitted]
  | write r data =>
    rw [treeStep, hroot.findExact_eq h, Admitted]
    split <;> simp_all
  | erase r =>
    rw [treeStep, hroot.findExact_eq h, Admitted]
    split <;> simp_all

/-- **A region tree is a container**: after any sequence of insertions, writes through iterators and
erasures its leaves are the entries added and not erased, the searches return exactly the entries
asked for, and every further call on it ends. -/
theorem container_of_run (es : List (TreeEvent T)) (root : Node T)
    (hrun : Lib.run treeStep emptyRoot es = some root) :
    Container root (contents es) ∧
      ∀ e, (treeStep root e).isSome = true ↔ Admitted (contents es) e := by
  obtain ⟨hroot, h⟩ := WellShaped.run es wellShaped_emptyRoot holds_emptyRoot hrun
  exact ⟨hroot.container h, hroot.isSome_treeStep_iff h⟩

/-- Two regions that part at bit 60, one of them erased again. -/
theorem container_of_two_regions : ∃ root : Node Nat,
    Lib.run treeStep emptyRoot [.add ⟨~~~15#64, 0x1000#64, by decide⟩ none,
      .write ⟨~~~15#64, 0x1000#64, by decide⟩ 7, .add ⟨~~~7#64, 0x1008#64, by decide⟩ none,
      .erase ⟨~~~7#64, 0x1008#64, by decide⟩] = some root ∧
    Container root (contents [.add ⟨~~~15#64, 0x1000#64, by decide⟩ none,
      .write ⟨~~~15#64, 0x1000#64, by decide⟩ 7, .add ⟨~~~7#64, 0x1008#64, by decide⟩ none,
      .erase ⟨~~~7#64, 0x1008#64, by decide⟩]) := by
  have hrun : (Lib.run treeStep (emptyRoot : Node Nat) [.add ⟨~~~15#64, 0x1000#64, by decide⟩ none,
      .write ⟨~~~15#64, 0x1000#64, by decide⟩ 7, .add ⟨~~~7#64, 0x1008#64, by decide⟩ none,
      .erase ⟨~~~7#64, 0x1008#64, by decide⟩]).isSome = true := by decide
  obtain ⟨root, hroot⟩ := Option.isSome_iff_exists.1 hrun
  exact ⟨root, hroot, (container_of_run _ root hroot).1⟩

end

end OmpSs.Support
