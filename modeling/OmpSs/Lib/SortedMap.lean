import Mathlib.Data.List.Perm.Basic
import Mathlib.Order.Basic
import Mathlib.Data.List.Nodup
import Mathlib.Order.Lattice

/-!
# Maps sorted by key

A map as its list of entries in increasing order of the keys, with what an ordered container offers:
lookup, assignment, removal, the first entry from a key on (`lowerBound`), the entries next to a key
(`before`, `after`) and an iteration between two keys (`visited`). Assignment and removal are described up
to the order of the entries (`insert_perm`, `perm_erase`), lookups by the entry they return.
-/

namespace OmpSs.Lib

/-- A list of entries with increasing keys. -/
@[ext] structure SortedMap (K V : Type*) [LinearOrder K] where
  entries : List (K × V)
  sorted : entries.Pairwise fun a b => a.1 < b.1

namespace SortedMap

section
variable {K V : Type*} [LinearOrder K]

instance [DecidableEq V] : DecidableEq (SortedMap K V) := fun a b =>
  decidable_of_iff (a.entries = b.entries) (SortedMap.ext_iff).symm

def empty : SortedMap K V := ⟨[], List.Pairwise.nil⟩

/-- The map without the entry of `k`. -/
def erase (m : SortedMap K V) (k : K) : SortedMap K V :=
  ⟨m.entries.filter fun e => decide (e.1 ≠ k), m.sorted.filter _⟩

/-- The map with the value `v` for `k`, whether or not `k` had one. -/
def insert (m : SortedMap K V) (k : K) (v : V) : SortedMap K V where
  entries :=
    m.entries.filter (fun e => decide (e.1 < k)) ++ (k, v) :: m.entries.filter fun e => decide (k < e.1)
  sorted := by
    refine List.pairwise_append.2 ⟨m.sorted.filter _, List.pairwise_cons.2 ⟨?_, m.sorted.filter _⟩, ?_⟩
    · intro e he
      exact of_decide_eq_true (List.mem_filter.1 he).2
    · intro a ha b hb
      have hak : a.1 < k := of_decide_eq_true (List.mem_filter.1 ha).2
      rcases List.mem_cons.1 hb with rfl | hb
      · exact hak
      · exact lt_trans hak (of_decide_eq_true (List.mem_filter.1 hb).2)

/-- The value of `k`. -/
def find? (m : SortedMap K V) (k : K) : Option V :=
  (m.entries.find? fun e => decide (e.1 = k)).map (·.2)

/-- The first entry whose key is `k` or greater. -/
def lowerBound (m : SortedMap K V) (k : K) : Option (K × V) :=
  m.entries.find? fun e => decide (k ≤ e.1)

/-- The last entry whose key is less than `k`. -/
def before (m : SortedMap K V) (k : K) : Option (K × V) :=
  (m.entries.filter fun e => decide (e.1 < k)).getLast?

/-- The first entry whose key is greater than `k`. -/
def after (m : SortedMap K V) (k : K) : Option (K × V) :=
  m.entries.find? fun e => decide (k < e.1)

/-- The entries that an iteration from the first key that is not below `lo` visits. It stops at the first key
above `hi`, if it meets it. -/
def visited (m : SortedMap K V) (lo hi : K) : List (K × V) :=
  (m.entries.filter fun e => decide (lo ≤ e.1)).takeWhile fun e => decide ((m.after hi).map (·.1) ≠ some e.1)

variable {m : SortedMap K V} {k : K} {v : V} {a b : K × V}

theorem mem_erase : a ∈ (m.erase k).entries ↔ a ∈ m.entries ∧ a.1 ≠ k := by
  simp [erase, List.mem_filter]

theorem mem_insert : a ∈ (m.insert k v).entries ↔ a = (k, v) ∨ (a ∈ m.entries ∧ a.1 ≠ k) := by
  simp only [insert, List.mem_append, List.mem_cons, List.mem_filter, decide_eq_true_eq]
  constructor
  · rintro (⟨ha, hlt⟩ | rfl | ⟨ha, hlt⟩)
    · exact .inr ⟨ha, ne_of_lt hlt⟩
    · exact .inl rfl
    · exact .inr ⟨ha, ne_of_gt hlt⟩
  · rintro (rfl | ⟨ha, hne⟩)
    · exact .inr (.inl rfl)
    · rcases lt_or_gt_of_ne hne with hlt | hgt
      · exact .inl ⟨ha, hlt⟩
      · exact .inr (.inr ⟨ha, hgt⟩)

/-- A key has one entry. -/
theorem eq_of_key_eq (ha : a ∈ m.entries) (hb : b ∈ m.entries) (h : a.1 = b.1) : a = b := by
  have hnodup : (m.entries.map (·.1)).Nodup :=
    List.pairwise_map.2 (m.sorted.imp fun hlt => ne_of_lt hlt)
  exact List.inj_on_of_nodup_map hnodup ha hb h

theorem nodup (m : SortedMap K V) : m.entries.Nodup :=
  m.sorted.imp fun hlt heq => ne_of_lt hlt (congrArg Prod.fst heq)

/-- An entry and the map without it. -/
theorem perm_erase [DecidableEq V] (h : (k, v) ∈ m.entries) :
    m.entries.Perm ((k, v) :: (m.erase k).entries) := by
  refine (List.perm_cons_erase h).trans (.of_eq ?_)
  rw [m.nodup.erase_eq_filter]
  refine congrArg _ (List.filter_congr fun e he => ?_)
  have hiff : e ≠ (k, v) ↔ e.1 ≠ k :=
    not_congr ⟨fun heq => congrArg Prod.fst heq, fun hkey => eq_of_key_eq he h hkey⟩
  rw [Bool.eq_iff_iff, bne_iff_ne, decide_eq_true_iff]
  exact hiff

/-- Assignment adds the new entry to the map without the old one. -/
theorem insert_perm (m : SortedMap K V) (k : K) (v : V) :
    (m.insert k v).entries.Perm ((k, v) :: (m.erase k).entries) := by
  have hbelow : (m.erase k).entries.filter (fun e => decide (e.1 < k)) =
      m.entries.filter fun e => decide (e.1 < k) := by
    rw [erase, List.filter_filter]
    refine List.filter_congr fun e _ => ?_
    simpa using fun hlt => ne_of_lt hlt
  have habove : (m.erase k).entries.filter (fun e => !decide (e.1 < k)) =
      m.entries.filter fun e => decide (k < e.1) := by
    rw [erase, List.filter_filter]
    refine List.filter_congr fun e _ => ?_
    rw [Bool.eq_iff_iff]
    simp only [ne_eq, Bool.and_eq_true, Bool.not_eq_true', decide_eq_false_iff_not, not_lt,
      decide_eq_true_eq]
    exact lt_iff_le_and_ne'.symm
  have hsplit := List.filter_append_perm (fun e => decide (e.1 < k)) (m.erase k).entries
  rw [hbelow, habove] at hsplit
  exact List.perm_middle.trans (hsplit.cons _)

theorem erase_eq_self (h : ∀ v, (k, v) ∉ m.entries) : m.erase k = m := by
  refine SortedMap.ext (List.filter_eq_self.2 fun e he => decide_eq_true fun hkey => ?_)
  exact h e.2 (hkey ▸ he)

/-- Assignment to a new key adds an entry. -/
theorem insert_perm_of_not_mem (h : ∀ w, (k, w) ∉ m.entries) :
    (m.insert k v).entries.Perm ((k, v) :: m.entries) := by
  have hperm := m.insert_perm k v
  rwa [erase_eq_self h] at hperm

theorem find?_eq_some_iff : m.find? k = some v ↔ (k, v) ∈ m.entries := by
  simp only [find?, Option.map_eq_some_iff]
  constructor
  · rintro ⟨e, he, rfl⟩
    have hmem := List.mem_of_find?_eq_some he
    have hkey : e.1 = k := by simpa using List.find?_some he
    rwa [← hkey]
  · intro h
    obtain ⟨e, he⟩ : ∃ e, m.entries.find? (fun e => decide (e.1 = k)) = some e :=
      Option.isSome_iff_exists.1 (List.find?_isSome.2 ⟨(k, v), h, by simp⟩)
    have hkey : e.1 = k := by simpa using List.find?_some he
    refine ⟨e, he, ?_⟩
    rw [eq_of_key_eq (List.mem_of_find?_eq_some he) h hkey]

theorem find?_eq_none_iff : m.find? k = none ↔ ∀ v, (k, v) ∉ m.entries := by
  simp only [← find?_eq_some_iff, Option.eq_none_iff_forall_ne_some, ne_eq]

theorem find?_insert {j : K} : (m.insert k v).find? j = if j = k then some v else m.find? j := by
  refine Option.ext fun w => ?_
  rw [find?_eq_some_iff, mem_insert]
  split
  · next hj => simp [hj, eq_comm]
  · next hj => simp [hj, find?_eq_some_iff]

/-- The entries around one that is removed. -/
theorem entries_erase {l l' : List (K × V)} (h : m.entries = l ++ (k, v) :: l') :
    (m.erase k).entries = l ++ l' := by
  have hsorted := m.sorted
  rw [h] at hsorted
  obtain ⟨-, hright, hcross⟩ := List.pairwise_append.1 hsorted
  show m.entries.filter (fun e => decide (e.1 ≠ k)) = l ++ l'
  rw [h, List.filter_append, List.filter_cons_of_neg (by simp)]
  congr 1
  · exact List.filter_eq_self.2 fun a ha => decide_eq_true (ne_of_lt (hcross a ha _ List.mem_cons_self))
  · exact List.filter_eq_self.2 fun a ha => decide_eq_true (ne_of_gt (List.rel_of_pairwise_cons hright ha))

/-- The entries around one that is added. -/
theorem entries_insert {l l' : List (K × V)} (h : m.entries = l ++ l') (hl : ∀ a ∈ l, a.1 < k)
    (hl' : ∀ a ∈ l', k < a.1) : (m.insert k v).entries = l ++ (k, v) :: l' := by
  show m.entries.filter (fun e => decide (e.1 < k)) ++ (k, v) ::
    m.entries.filter (fun e => decide (k < e.1)) = l ++ (k, v) :: l'
  rw [h, List.filter_append, List.filter_append, List.filter_eq_self.2 fun a ha => decide_eq_true (hl a ha),
    List.filter_eq_nil_iff.2 fun a ha => by simpa using le_of_lt (hl' a ha), List.append_nil,
    List.filter_eq_nil_iff.2 fun a ha => by simpa using le_of_lt (hl a ha), List.nil_append,
    List.filter_eq_self.2 fun a ha => decide_eq_true (hl' a ha)]

theorem find?_erase {j : K} : (m.erase k).find? j = if j = k then none else m.find? j := by
  refine Option.ext fun w => ?_
  rw [find?_eq_some_iff, mem_erase]
  split
  · next h => simp [h]
  · next h => rw [find?_eq_some_iff, and_iff_left h]

/-- The last entry has the greatest key. -/
theorem le_of_getLast? (h : m.entries.getLast? = some a) : a ∈ m.entries ∧ ∀ b ∈ m.entries, b.1 ≤ a.1 := by
  obtain ⟨l, hl⟩ := List.getLast?_eq_some_iff.1 h
  have hsorted := m.sorted
  rw [hl] at hsorted ⊢
  refine ⟨by simp, fun b hb => ?_⟩
  rcases List.mem_append.1 hb with hb | hb
  · exact le_of_lt ((List.pairwise_append.1 hsorted).2.2 b hb a (by simp))
  · rw [List.mem_singleton.1 hb]

/-- The first entry with a property of keys is the least of those that have it. -/
theorem find?_key_eq_some {p : K → Prop} [DecidablePred p]
    (h : m.entries.find? (fun e => decide (p e.1)) = some a) :
    a ∈ m.entries ∧ p a.1 ∧ ∀ b ∈ m.entries, p b.1 → a.1 ≤ b.1 := by
  obtain ⟨hk, l₁, l₂, hl, hnot⟩ := List.find?_eq_some_iff_append.1 h
  refine ⟨List.mem_of_find?_eq_some h, of_decide_eq_true hk, fun b hb hkb => ?_⟩
  rw [hl] at hb
  rcases List.mem_append.1 hb with hb | hb
  · exact absurd hkb (by simpa using hnot b hb)
  · rcases List.mem_cons.1 hb with rfl | hb
    · exact le_refl _
    · have hsorted := m.sorted
      rw [hl] at hsorted
      exact le_of_lt ((List.pairwise_cons.1 (List.pairwise_append.1 hsorted).2.1).1 b hb)

/-- The entry `lowerBound` returns is the least of those from `k` on. -/
theorem lowerBound_eq_some (h : m.lowerBound k = some a) :
    a ∈ m.entries ∧ k ≤ a.1 ∧ ∀ b ∈ m.entries, k ≤ b.1 → a.1 ≤ b.1 :=
  find?_key_eq_some (p := fun x => k ≤ x) h

theorem lowerBound_eq_none (h : m.lowerBound k = none) : ∀ b ∈ m.entries, b.1 < k := by
  intro b hb
  simpa using List.find?_eq_none.1 h b hb

/-- The entry `before` returns is the greatest of those below `k`. -/
theorem before_eq_some (h : m.before k = some a) :
    a ∈ m.entries ∧ a.1 < k ∧ ∀ b ∈ m.entries, b.1 < k → b.1 ≤ a.1 := by
  obtain ⟨l, hl⟩ := List.getLast?_eq_some_iff.1 h
  have hmem : a ∈ m.entries.filter fun e => decide (e.1 < k) := by simp [hl]
  have ha := List.mem_filter.1 hmem
  refine ⟨ha.1, of_decide_eq_true ha.2, fun b hb hbk => ?_⟩
  have hb' : b ∈ m.entries.filter fun e => decide (e.1 < k) :=
    List.mem_filter.2 ⟨hb, decide_eq_true hbk⟩
  have hsorted := m.sorted.filter fun e => decide (e.1 < k)
  rw [hl] at hb' hsorted
  rcases List.mem_append.1 hb' with hb' | hb'
  · exact le_of_lt ((List.pairwise_append.1 hsorted).2.2 b hb' a (by simp))
  · rw [List.mem_singleton.1 hb']

/-- `before` depends only on the entries below the key. -/
theorem before_congr {m' : SortedMap K V} {k' : K}
    (h : ∀ e, e ∈ m.entries ∧ e.1 < k ↔ e ∈ m'.entries ∧ e.1 < k') : m.before k = m'.before k' := by
  have hperm : (m.entries.filter fun e => decide (e.1 < k)).Perm
      (m'.entries.filter fun e => decide (e.1 < k')) :=
    (List.perm_ext_iff_of_nodup (m.nodup.filter _) (m'.nodup.filter _)).2 fun e => by
      simpa using h e
  unfold before
  rw [hperm.eq_of_pairwise (fun a b _ _ hab hba => absurd hab (lt_asymm hba))
    (m.sorted.filter _) (m'.sorted.filter _)]

theorem before_eq_none (h : m.before k = none) : ∀ b ∈ m.entries, k ≤ b.1 := by
  intro b hb
  have hnil := List.getLast?_eq_none_iff.1 h
  have hb' := List.filter_eq_nil_iff.1 hnil b hb
  simpa using hb'

/-- The entry `after` returns is the least of those above `k`. -/
theorem after_eq_some (h : m.after k = some a) :
    a ∈ m.entries ∧ k < a.1 ∧ ∀ b ∈ m.entries, k < b.1 → a.1 ≤ b.1 :=
  find?_key_eq_some (p := fun x => k < x) h

theorem after_eq_none (h : m.after k = none) : ∀ b ∈ m.entries, b.1 ≤ k := by
  intro b hb
  simpa using List.find?_eq_none.1 h b hb

/-- An iteration visits the entries between the two keys. -/
theorem mem_visited {lo hi : K} (ha : a ∈ m.entries) (hlo : lo ≤ a.1) (hhi : a.1 ≤ hi) :
    a ∈ m.visited lo hi := by
  have hmem : a ∈ m.entries.filter fun e => decide (lo ≤ e.1) :=
    List.mem_filter.2 ⟨ha, decide_eq_true hlo⟩
  have hsorted := m.sorted.filter fun e => decide (lo ≤ e.1)
  obtain ⟨l₁, l₂, hl⟩ := List.append_of_mem hmem
  rw [hl] at hsorted
  -- none of the entries up to `a` is the one above `hi`
  have hstop : ∀ e : K × V, e.1 ≤ a.1 → decide ((m.after hi).map (·.1) ≠ some e.1) = true := by
    intro e he
    refine decide_eq_true fun heq => ?_
    obtain ⟨e', hafter, hkey⟩ := Option.map_eq_some_iff.1 heq
    have hlt := (after_eq_some hafter).2.1
    rw [hkey] at hlt
    exact absurd (lt_of_lt_of_le hlt (he.trans hhi)) (lt_irrefl hi)
  unfold visited
  rw [hl, List.takeWhile_append_of_pos fun e he =>
    hstop e (le_of_lt ((List.pairwise_append.1 hsorted).2.2 e he a List.mem_cons_self))]
  refine List.mem_append_right _ ?_
  rw [List.takeWhile_cons, if_pos (hstop a (le_refl _))]
  exact List.mem_cons_self

end

end SortedMap

end OmpSs.Lib
