import Mathlib.Data.List.Nodup
import Mathlib.Data.Set.Card

/-!
# Hash tables with chains

A table is a list of chains, and a chain a list of entries, each a key with its value. A key belongs into the
chain that `place` gives for it. `Tabulates place buckets m` says that the table stands for the partial map `m`:
every entry is in the chain of its key, no chain has a key twice, and the entries are those of the map. Whatever
is done to one key only changes the chain of this key (`Tabulates.set`). A table whose entries are all put into a
new one, under another placement, stands for the same map (`Tabulates.rehash`).
-/

namespace OmpSs.Lib

section
variable {K V : Type*}

/-- The table stands for the map. -/
structure Tabulates (place : K → ℕ) (buckets : List (List (K × V))) (m : K → Option V) : Prop where
  place_lt : ∀ k, place k < buckets.length
  placed : ∀ i chain, buckets[i]? = some chain → ∀ b ∈ chain, place b.1 = i
  nodup : ∀ chain ∈ buckets, (chain.map Prod.fst).Nodup
  entries : ∀ k v, (k, v) ∈ buckets.flatten ↔ m k = some v

/-- The entry becomes the first one of its chain. -/
def push (place : K → ℕ) (buckets : List (List (K × V))) (b : K × V) : List (List (K × V)) :=
  buckets.set (place b.1) (b :: buckets.getD (place b.1) [])

/-! ## One chain -/

theorem length_flatten_set {chains : List (List (K × V))} {i : ℕ} (hi : i < chains.length)
    (chain : List (K × V)) :
    (chains.set i chain).flatten.length + (chains.getD i []).length =
      chains.flatten.length + chain.length := by
  induction chains generalizing i with
  | nil => cases hi
  | cons c chains ih =>
    cases i with
    | zero =>
      simp only [List.set_cons_zero, List.flatten_cons, List.length_append, List.getD_cons_zero]
      omega
    | succ i =>
      have ih := ih (Nat.lt_of_succ_lt_succ hi)
      simp only [List.set_cons_succ, List.flatten_cons, List.length_append, List.getD_cons_succ]
      omega

theorem mem_lookup_iff [DecidableEq K] {chain : List (K × V)} (h : (chain.map Prod.fst).Nodup) (k : K) (v : V) :
    chain.lookup k = some v ↔ (k, v) ∈ chain := by
  induction chain with
  | nil => simp
  | cons b chain ih =>
    rw [List.map_cons, List.nodup_cons] at h
    have ih := ih h.2
    by_cases hk : k = b.1
    · subst hk
      rw [List.lookup_cons, BEq.rfl, List.mem_cons, Option.some_inj]
      constructor
      · rintro rfl
        exact .inl rfl
      · rintro (hb | hb)
        · rw [← hb]
        · exact absurd (List.mem_map_of_mem hb) h.1
    · have hne : (k == b.1) = false := beq_eq_false_iff_ne.2 hk
      rw [List.lookup_cons, hne, List.mem_cons, or_iff_right (fun hb => hk (congrArg Prod.fst hb))]
      exact ih

namespace Tabulates

variable {place : K → ℕ} {buckets : List (List (K × V))} {m : K → Option V} {k : K} {v : V}

theorem getElem?_place (h : Tabulates place buckets m) (k : K) :
    buckets[place k]? = some (buckets.getD (place k) []) := by
  rw [List.getD_eq_getElem?_getD, List.getElem?_eq_getElem (h.place_lt k), Option.getD_some]

theorem chain_mem (h : Tabulates place buckets m) (k : K) : buckets.getD (place k) [] ∈ buckets :=
  List.mem_of_getElem? (h.getElem?_place k)

/-- An entry is in the chain of its key. -/
theorem mem_chain_iff (h : Tabulates place buckets m) (k : K) (v : V) :
    (k, v) ∈ buckets.getD (place k) [] ↔ m k = some v := by
  rw [← h.entries]
  constructor
  · exact fun hb => List.mem_flatten.2 ⟨_, h.chain_mem k, hb⟩
  · intro hb
    obtain ⟨chain, hchain, hb⟩ := List.mem_flatten.1 hb
    obtain ⟨i, hi⟩ := List.mem_iff_getElem?.1 hchain
    obtain rfl : place k = i := h.placed i chain hi (k, v) hb
    rwa [Option.some_inj.1 (hi.symm.trans (h.getElem?_place k))] at hb

theorem eq_none_of_forall (h : Tabulates place buckets m)
    (hk : ∀ v, (k, v) ∉ buckets.getD (place k) []) : m k = none :=
  Option.eq_none_iff_forall_ne_some.2 fun v hv => hk v ((h.mem_chain_iff k v).2 hv)

/-- A key is searched for in its chain. -/
theorem lookup_eq [DecidableEq K] (h : Tabulates place buckets m) (k : K) :
    (buckets.getD (place k) []).lookup k = m k := by
  ext v
  rw [mem_lookup_iff (h.nodup _ (h.chain_mem k)), h.mem_chain_iff]

/-- No key is in the table twice. -/
theorem nodup_keys (h : Tabulates place buckets m) : (buckets.flatten.map Prod.fst).Nodup := by
  rw [List.map_flatten, List.nodup_flatten]
  refine ⟨fun keys hkeys => ?_, List.pairwise_map.2 (List.pairwise_iff_getElem.2 fun i j hi hj hij => ?_)⟩
  · obtain ⟨chain, hchain, rfl⟩ := List.mem_map.1 hkeys
    exact h.nodup chain hchain
  · intro k hk hk'
    obtain ⟨b, hb, rfl⟩ := List.mem_map.1 hk
    obtain ⟨b', hb', heq⟩ := List.mem_map.1 hk'
    have hplace := h.placed i _ (List.getElem?_eq_getElem hi) b hb
    have hplace' := h.placed j _ (List.getElem?_eq_getElem hj) b' hb'
    rw [heq] at hplace'
    omega

/-- The table has as many entries as the map has keys. -/
theorem length_eq (h : Tabulates place buckets m) : buckets.flatten.length = {k | m k ≠ none}.ncard := by
  classical
  have hkeys : {k | m k ≠ none} = ((buckets.flatten.map Prod.fst).toFinset : Set K) := by
    ext k
    rw [Finset.mem_coe, List.mem_toFinset, Set.mem_ofPred_eq, Option.ne_none_iff_exists', List.mem_map]
    constructor
    · rintro ⟨v, hv⟩
      exact ⟨(k, v), (h.entries k v).2 hv, rfl⟩
    · rintro ⟨b, hb, rfl⟩
      exact ⟨b.2, (h.entries b.1 b.2).1 hb⟩
  rw [hkeys, Set.ncard_coe_finset, List.toFinset_card_of_nodup h.nodup_keys, List.length_map]

/-- One key gets another value, or none: its chain is replaced. -/
theorem set [DecidableEq K] (h : Tabulates place buckets m) {chain : List (K × V)} {x : Option V}
    (hnodup : (chain.map Prod.fst).Nodup)
    (hchain : ∀ k' v', (k', v') ∈ chain ↔
      if k' = k then x = some v' else (k', v') ∈ buckets.getD (place k) []) :
    Tabulates place (buckets.set (place k) chain) (Function.update m k x) where
  place_lt k' := by
    rw [List.length_set]
    exact h.place_lt k'
  placed i c hc b hb := by
    rw [List.getElem?_set] at hc
    split at hc
    · next hi =>
      rw [if_pos (hi ▸ h.place_lt k), Option.some_inj] at hc
      subst hc hi
      have hb := (hchain b.1 b.2).1 hb
      split at hb
      · next hk => rw [hk]
      · exact h.placed _ _ (h.getElem?_place k) b hb
    · exact h.placed i c hc b hb
  nodup c hc := by
    rcases List.mem_or_eq_of_mem_set hc with hc | rfl
    · exact h.nodup c hc
    · exact hnodup
  entries k' v' := by
    rw [List.mem_flatten]
    constructor
    · rintro ⟨c, hc, hb⟩
      obtain ⟨i, hi⟩ := List.mem_iff_getElem?.1 hc
      rw [List.getElem?_set] at hi
      split at hi
      · next hplace =>
        rw [if_pos (hplace ▸ h.place_lt k), Option.some_inj] at hi
        subst hi
        have hb := (hchain k' v').1 hb
        split at hb
        · next hk => rw [hk, Function.update_self, hb]
        · next hk =>
          rw [Function.update_of_ne hk]
          exact (h.entries k' v').1 (List.mem_flatten.2 ⟨_, h.chain_mem k, hb⟩)
      · next hplace =>
        have hi' : place k' = i := h.placed i c hi (k', v') hb
        have hk : k' ≠ k := fun hk => hplace (hk ▸ hi')
        rw [Function.update_of_ne hk]
        exact (h.entries k' v').1 (List.mem_flatten.2 ⟨c, List.mem_of_getElem? hi, hb⟩)
    · intro hm
      have hmem : chain ∈ buckets.set (place k) chain := List.mem_set (h.place_lt k) chain
      by_cases hk : k' = k
      · subst hk
        rw [Function.update_self] at hm
        exact ⟨chain, hmem, (hchain k' v').2 (by rwa [if_pos rfl])⟩
      · rw [Function.update_of_ne hk] at hm
        by_cases hplace : place k' = place k
        · refine ⟨chain, hmem, (hchain k' v').2 ?_⟩
          rw [if_neg hk, ← hplace]
          exact (h.mem_chain_iff k' v').2 hm
        · refine ⟨_, List.mem_of_getElem? (i := place k') ?_, (h.mem_chain_iff k' v').2 hm⟩
          rw [List.getElem?_set_ne (Ne.symm hplace)]
          exact h.getElem?_place k'

/-- A new key. -/
theorem push [DecidableEq K] (h : Tabulates place buckets m) {b : K × V} (hb : m b.1 = none) :
    Tabulates place (push place buckets b) (Function.update m b.1 (some b.2)) ∧
      (Lib.push place buckets b).flatten.length = buckets.flatten.length + 1 := by
  have hnew : ∀ v, (b.1, v) ∉ buckets.getD (place b.1) [] := by
    intro v hv
    rw [h.mem_chain_iff, hb] at hv
    cases hv
  constructor
  · refine h.set ?_ fun k' v' => ?_
    · rw [List.map_cons, List.nodup_cons]
      refine ⟨fun hmem => ?_, h.nodup _ (h.chain_mem b.1)⟩
      obtain ⟨b', hb', heq⟩ := List.mem_map.1 hmem
      exact hnew b'.2 (heq ▸ hb')
    · rw [List.mem_cons]
      split
      · next hk =>
        subst hk
        rw [or_iff_left (hnew v'), Option.some_inj]
        exact ⟨fun heq => (congrArg Prod.snd heq).symm, fun heq => Prod.ext rfl heq.symm⟩
      · next hk => exact or_iff_right fun heq => hk (congrArg Prod.fst heq)
  · have hlength := length_flatten_set (h.place_lt b.1) (b :: buckets.getD (place b.1) [])
    rw [List.length_cons] at hlength
    unfold Lib.push
    omega

end Tabulates

/-! ## New tables -/

theorem tabulates_replicate {place : K → ℕ} {n : ℕ} (h : ∀ k, place k < n) :
    Tabulates place (List.replicate n ([] : List (K × V))) fun _ => none where
  place_lt k := by
    rw [List.length_replicate]
    exact h k
  placed i chain hi b hb := by
    rw [(List.mem_replicate.1 (List.mem_of_getElem? hi)).2] at hb
    cases hb
  nodup chain hchain := by
    rw [(List.mem_replicate.1 hchain).2]
    exact List.nodup_nil
  entries k v := by simp

/-- Entries with keys that are new and different are put into a table one after another. -/
theorem Tabulates.foldl_push [DecidableEq K] {place : K → ℕ} {buckets : List (List (K × V))} {m : K → Option V}
    (h : Tabulates place buckets m) {l : List (K × V)} (hnodup : (l.map Prod.fst).Nodup)
    (hnew : ∀ b ∈ l, m b.1 = none) :
    ∃ m', Tabulates place (l.foldl (Lib.push place) buckets) m' ∧
      (∀ k v, m' k = some v ↔ (k, v) ∈ l ∨ m k = some v) ∧
      (l.foldl (Lib.push place) buckets).flatten.length = buckets.flatten.length + l.length := by
  induction l generalizing buckets m with
  | nil => exact ⟨m, h, fun k v => by simp, rfl⟩
  | cons b l ih =>
    rw [List.map_cons, List.nodup_cons] at hnodup
    obtain ⟨hpush, hlength⟩ := h.push (hnew b List.mem_cons_self)
    have hne : ∀ b' ∈ l, b'.1 ≠ b.1 := fun b' hb' heq => hnodup.1 (heq ▸ List.mem_map_of_mem hb')
    obtain ⟨m', hm', hentries, hrest⟩ := ih hpush hnodup.2 fun b' hb' => by
      rw [Function.update_of_ne (hne b' hb')]
      exact hnew b' (List.mem_cons_of_mem b hb')
    refine ⟨m', hm', fun k v => ?_, by rw [List.foldl_cons, hrest, hlength, List.length_cons]; omega⟩
    rw [hentries, List.mem_cons]
    by_cases hk : k = b.1
    · subst hk
      have hnone : m b.1 = none := hnew b List.mem_cons_self
      rw [Function.update_self, hnone, Option.some_inj, Prod.ext_iff]
      simp [eq_comm, or_comm]
    · rw [Function.update_of_ne hk, Prod.ext_iff]
      simp [hk]

/-- A table is built anew with another placement. -/
theorem Tabulates.rehash [DecidableEq K] {place place' : K → ℕ} {buckets : List (List (K × V))} {m : K → Option V}
    (h : Tabulates place buckets m) {n : ℕ} (hn : ∀ k, place' k < n) :
    Tabulates place' (buckets.flatten.foldl (Lib.push place') (List.replicate n [])) m ∧
      (buckets.flatten.foldl (Lib.push place') (List.replicate n [])).flatten.length = buckets.flatten.length := by
  obtain ⟨m', hm', hentries, hlength⟩ := (tabulates_replicate hn).foldl_push h.nodup_keys fun _ _ => rfl
  have hm : m' = m := by
    funext k
    ext v
    rw [hentries, h.entries]
    simp
  refine ⟨hm ▸ hm', hlength.trans ?_⟩
  simp

end

end OmpSs.Lib
