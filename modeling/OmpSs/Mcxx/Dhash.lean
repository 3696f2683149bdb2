import OmpSs.Lib.CString
import OmpSs.Lib.HashChains

/-!
# Dynamic hash tables

`dhash_ptr` (`mcxx/lib/dhash_ptr.c`) and `dhash_str` (`mcxx/lib/dhash_str.c`) are one hash table, with chains,
for two kinds of keys: pointers, and strings that are compared with `strcmp`. The number of chains is taken from
a list of primes. A table that is three quarters full is built anew with the next prime before a key is inserted,
until it has the last one. The hash function is a parameter. Keys and informations are not `NULL`, for which the
functions abort.

In every run the table stands for the map of the live keys (`Reached`), whatever the rehashes, so that queries
and walks are right. The number of items is an `int`: it is the number of live keys as long as there are fewer
than `2 ^ 31` of them (`right_iff`).
-/

namespace OmpSs.Mcxx.Dhash

open OmpSs.Lib

/-! ## The program -/

def primeSet : List Nat := [5, 11, 23, 53, 131, 317, 787, 1951, 4877, 12163, 30403, 76003]

def maxBucketSize : Int := 76003

/-- The index of the last prime. -/
def lastPrime : Nat := primeSet.length - 1

def numBuckets (num_buckets_idx : Nat) : Nat := primeSet.getD num_buckets_idx 0

/-- A bucket is a key with its information. Source: `struct dhash_ptr_tag` (`dhash_ptr.c:64`). -/
structure Table (K I : Type*) where
  buckets : List (List (K × I))
  num_buckets_idx : Nat
  num_items : BitVec 32

section
variable {K I : Type*}

/-- `none`: the call aborts. Source: `dhash_ptr_new` (`dhash_ptr.c:71`). -/
def Table.new (K I : Type*) (initial_size : Int) : Option (Table K I) :=
  if initial_size < 0 then none
  else
    let idx :=
      if initial_size ≥ maxBucketSize then lastPrime
      else primeSet.findIdx fun prime => ¬ (prime : Int) < initial_size
    some ⟨List.replicate (numBuckets idx) [], idx, 0⟩

variable (hash : K → BitVec 32)

/-- The chain of a key: `Murmur3_32(key) % num_buckets`. -/
def place (num_buckets_idx : Nat) (key : K) : Nat := (hash key).toNat % numBuckets num_buckets_idx

variable [DecidableEq K]

/-- Source: `dhash_ptr_query` (`dhash_ptr.c:122`). -/
def Table.query (dhash : Table K I) (key : K) : Option I :=
  (dhash.buckets.getD (place hash dhash.num_buckets_idx key) []).lookup key

/-- The loop over a chain that updates the information of a key; `none`: it has not found the key. -/
def updateChain (key : K) (info : I) : List (K × I) → Option (List (K × I))
  | [] => none
  | b :: next => if b.1 = key then some ((b.1, info) :: next) else (updateChain key info next).map (b :: ·)

/-- The loop over a chain that takes a key out. -/
def removeChain (key : K) : List (K × I) → Option (List (K × I))
  | [] => none
  | b :: next => if b.1 = key then some next else (removeChain key next).map (b :: ·)

/-- Source: `dhash_ptr_do_insert` (`dhash_ptr.c:143`). -/
def Table.doInsert (dhash : Table K I) (key : K) (info : I) : Table K I :=
  let chain := place hash dhash.num_buckets_idx key
  match updateChain key info (dhash.buckets.getD chain []) with
  | some updated => { dhash with buckets := dhash.buckets.set chain updated }
  | none =>
    { dhash with
      buckets := push (place hash dhash.num_buckets_idx) dhash.buckets (key, info)
      num_items := dhash.num_items + 1 }

/-- Source: `dhash_ptr_increase_rehash` (`dhash_ptr.c:171`). -/
def Table.increaseRehash (dhash : Table K I) : Table K I :=
  if dhash.num_buckets_idx = lastPrime then dhash
  else
    let num_buckets_idx := dhash.num_buckets_idx + 1
    { dhash with
      buckets := dhash.buckets.foldl
        (fun new_buckets chain => chain.foldl (push (place hash num_buckets_idx)) new_buckets)
        (List.replicate (numBuckets num_buckets_idx) [])
      num_buckets_idx }

/-- Source: `dhash_ptr_insert` (`dhash_ptr.c:210`). -/
def Table.insert (dhash : Table K I) (key : K) (info : I) : Table K I :=
  let dhash :=
    if ((numBuckets dhash.num_buckets_idx * 3 / 4 : Nat) : Int) < dhash.num_items.toInt then
      dhash.increaseRehash hash
    else dhash
  dhash.doInsert hash key info

/-- Source: `dhash_ptr_remove` (`dhash_ptr.c:224`). -/
def Table.remove (dhash : Table K I) (key : K) : Table K I :=
  let chain := place hash dhash.num_buckets_idx key
  match removeChain key (dhash.buckets.getD chain []) with
  | some next => { dhash with buckets := dhash.buckets.set chain next, num_items := dhash.num_items - 1 }
  | none => dhash

/-- The calls of the function that is given, in their order. Source: `dhash_ptr_walk` (`dhash_ptr.c:250`). -/
def Table.walk (dhash : Table K I) : List (K × I) := dhash.buckets.flatten

end

/-- A table whose keys are pointers. -/
abbrev DhashPtr (I : Type*) := Table (BitVec 64) I

/-- A table whose keys are strings, which nobody modifies while they are in it. -/
abbrev DhashStr (I : Type*) := Table CString I

/-! ## Runs -/

inductive Op (K I : Type*)
  | insert (key : K) (info : I)
  | remove (key : K)
  | query (key : K)

section
variable {K I : Type*} [DecidableEq K] (hash : K → BitVec 32)

def Table.step (dhash : Table K I) : Op K I → Table K I
  | .insert key info => dhash.insert hash key info
  | .remove key => dhash.remove hash key
  | .query _ => dhash

/-- A table of some initial size, and operations on it. -/
def run (initial_size : Int) (ops : List (Op K I)) : Option (Table K I) :=
  (Table.new K I initial_size).map fun dhash => ops.foldl (Table.step hash) dhash

/-- What an operation does to the informations of the live keys. -/
def Op.effect (m : K → Option I) : Op K I → K → Option I
  | .insert key info => Function.update m key (some info)
  | .remove key => Function.update m key none
  | .query _ => m

/-- The information of the last insertion of a key that no removal of it follows. -/
def live (ops : List (Op K I)) : K → Option I := ops.foldl Op.effect fun _ => none

/-- The number of live keys. -/
noncomputable def numLive (ops : List (Op K I)) : Nat := {key | live ops key ≠ none}.ncard

/-- Queries, the number of items and walks are right. -/
structure Right (dhash : Table K I) (ops : List (Op K I)) : Prop where
  query : ∀ key, dhash.query hash key = live ops key
  num_items : dhash.num_items.toInt = numLive ops
  walk_once : (dhash.walk.map Prod.fst).Nodup
  walk_all : ∀ key info, (key, info) ∈ dhash.walk ↔ live ops key = some info

end

/-! ## Chains -/

section
variable {K I : Type*} [DecidableEq K] {key : K} {info : I} {new : Option I} {chain chain' : List (K × I)}

/-- What both loops do: the bucket of the key gets the new information, or is left out. -/
def alterChain (key : K) (new : Option I) : List (K × I) → Option (List (K × I))
  | [] => none
  | b :: next =>
    if b.1 = key then some ((new.map (b.1, ·)).toList ++ next) else (alterChain key new next).map (b :: ·)

theorem updateChain_eq (key : K) (info : I) (chain : List (K × I)) :
    updateChain key info chain = alterChain key (some info) chain := by
  induction chain with
  | nil => rfl
  | cons b next ih =>
    rw [updateChain, alterChain, ih]
    rfl

theorem removeChain_eq (key : K) (chain : List (K × I)) : removeChain key chain = alterChain key none chain := by
  induction chain with
  | nil => rfl
  | cons b next ih =>
    rw [removeChain, alterChain, ih]
    rfl

theorem alterChain_eq_none (h : alterChain key new chain = none) : ∀ v, (key, v) ∉ chain := by
  induction chain with
  | nil => exact fun v hv => nomatch hv
  | cons b next ih =>
    rw [alterChain] at h
    split at h
    · cases h
    · next hb =>
      intro v hv
      rcases List.mem_cons.1 hv with rfl | hv
      · exact hb rfl
      · exact ih (Option.map_eq_none_iff.1 h) v hv

theorem mem_alterChain (hnodup : (chain.map Prod.fst).Nodup) (h : alterChain key new chain = some chain')
    (k : K) (v : I) : (k, v) ∈ chain' ↔ if k = key then new = some v else (k, v) ∈ chain := by
  induction chain generalizing chain' with
  | nil => cases h
  | cons b next ih =>
    rw [List.map_cons, List.nodup_cons] at hnodup
    rw [alterChain] at h
    split at h
    · next hb =>
      cases h
      subst hb
      have hnew : (k, v) ∈ (new.map (b.1, ·)).toList ↔ k = b.1 ∧ new = some v := by
        rw [Option.mem_toList, Option.map_eq_some_iff]
        constructor
        · rintro ⟨info, rfl, ⟨⟩⟩
          exact ⟨rfl, rfl⟩
        · rintro ⟨rfl, rfl⟩
          exact ⟨v, rfl, rfl⟩
      rw [List.mem_append, hnew, List.mem_cons, Prod.ext_iff]
      split
      · next hk =>
        subst hk
        have hnot : (b.1, v) ∉ next := fun hv => hnodup.1 (List.mem_map.2 ⟨_, hv, rfl⟩)
        simp [hnot]
      · next hk => simp [hk]
    · next hb =>
      obtain ⟨next', hnext, rfl⟩ := Option.map_eq_some_iff.1 h
      rw [List.mem_cons, List.mem_cons, ih hnodup.2 hnext]
      split
      · next hk => exact or_iff_right fun heq => hb (hk ▸ congrArg Prod.fst heq.symm)
      · exact Iff.rfl

theorem updateChain_keys (h : updateChain key info chain = some chain') :
    chain'.map Prod.fst = chain.map Prod.fst := by
  induction chain generalizing chain' with
  | nil => cases h
  | cons b next ih =>
    rw [updateChain] at h
    split at h
    · cases h
      rfl
    · obtain ⟨next', hnext, rfl⟩ := Option.map_eq_some_iff.1 h
      rw [List.map_cons, List.map_cons, ih hnext]

theorem removeChain_sublist (h : removeChain key chain = some chain') :
    chain'.Sublist chain ∧ chain'.length + 1 = chain.length := by
  induction chain generalizing chain' with
  | nil => cases h
  | cons b next ih =>
    rw [removeChain] at h
    split at h
    · cases h
      exact ⟨List.sublist_cons_self b next, rfl⟩
    · obtain ⟨next', hnext, rfl⟩ := Option.map_eq_some_iff.1 h
      obtain ⟨hsub, hlength⟩ := ih hnext
      exact ⟨hsub.cons_cons b, by rw [List.length_cons, List.length_cons, hlength]⟩

end

/-! ## The tables of a run -/

theorem numBuckets_pos {idx : Nat} (h : idx ≤ lastPrime) : 0 < numBuckets idx := by
  have hall : ∀ i ≤ lastPrime, 0 < numBuckets i := by decide
  exact hall idx h

section
variable {K I : Type*} {hash : K → BitVec 32} {dhash : Table K I} {m : K → Option I}

/-- A table of a run, which stands for a map. -/
structure Reached (hash : K → BitVec 32) (dhash : Table K I) (m : K → Option I) : Prop where
  idx_le : dhash.num_buckets_idx ≤ lastPrime
  tabulates : Tabulates (place hash dhash.num_buckets_idx) dhash.buckets m
  num_items : dhash.num_items = BitVec.ofNat 32 dhash.buckets.flatten.length

theorem place_lt {idx : Nat} (h : idx ≤ lastPrime) (key : K) : place hash idx key < numBuckets idx :=
  Nat.mod_lt _ (numBuckets_pos h)

theorem findIdx_primeSet_le {initial_size : Int} (h : initial_size < maxBucketSize) :
    (primeSet.findIdx fun prime => ¬ (prime : Int) < initial_size) ≤ lastPrime := by
  have hlt : (primeSet.findIdx fun prime => ¬ (prime : Int) < initial_size) < primeSet.length := by
    refine List.findIdx_lt_length_of_exists ⟨76003, by decide, decide_eq_true ?_⟩
    exact not_lt_of_gt h
  exact Nat.le_pred_of_lt hlt

theorem Reached.new {initial_size : Int} (h : Table.new K I initial_size = some dhash) :
    Reached hash dhash fun _ => none := by
  unfold Table.new at h
  split at h
  · cases h
  · cases h
    have hidx : (if initial_size ≥ maxBucketSize then lastPrime
        else primeSet.findIdx fun prime => ¬ (prime : Int) < initial_size) ≤ lastPrime := by
      split
      · exact le_rfl
      · next hlt => exact findIdx_primeSet_le (not_le.1 hlt)
    refine ⟨hidx, tabulates_replicate fun key => place_lt hidx key, ?_⟩
    simp

namespace Reached
variable [DecidableEq K]

theorem doInsert (h : Reached hash dhash m) (key : K) (info : I) :
    Reached hash (dhash.doInsert hash key info) (Function.update m key (some info)) := by
  have hnodup := h.tabulates.nodup _ (h.tabulates.chain_mem key)
  unfold Table.doInsert
  dsimp only
  split
  · next updated hupdate =>
    have hkeys := updateChain_keys hupdate
    rw [updateChain_eq] at hupdate
    refine ⟨h.idx_le, h.tabulates.set (hkeys ▸ hnodup) (mem_alterChain hnodup hupdate), ?_⟩
    have hlength := length_flatten_set (h.tabulates.place_lt key) updated
    have hsame : updated.length = (dhash.buckets.getD (place hash dhash.num_buckets_idx key) []).length := by
      rw [← List.length_map Prod.fst, hkeys, List.length_map]
    rw [h.num_items]
    congr 1
    dsimp only
    omega
  · next hupdate =>
    rw [updateChain_eq] at hupdate
    have hnew := h.tabulates.eq_none_of_forall (alterChain_eq_none hupdate)
    obtain ⟨htabulates, hlength⟩ := h.tabulates.push (b := (key, info)) hnew
    refine ⟨h.idx_le, htabulates, ?_⟩
    dsimp only
    rw [hlength, h.num_items, BitVec.ofNat_add]
    rfl

theorem increaseRehash (h : Reached hash dhash m) : Reached hash (dhash.increaseRehash hash) m := by
  unfold Table.increaseRehash
  split
  · exact h
  · next hidx =>
    have hle : dhash.num_buckets_idx + 1 ≤ lastPrime := Nat.lt_of_le_of_ne h.idx_le hidx
    dsimp only
    rw [← List.foldl_flatten]
    obtain ⟨htabulates, hlength⟩ := h.tabulates.rehash fun key => place_lt hle key
    refine ⟨hle, htabulates, ?_⟩
    dsimp only
    rw [hlength]
    exact h.num_items

theorem insert (h : Reached hash dhash m) (key : K) (info : I) :
    Reached hash (dhash.insert hash key info) (Function.update m key (some info)) := by
  unfold Table.insert
  dsimp only
  split
  · exact h.increaseRehash.doInsert key info
  · exact h.doInsert key info

theorem remove (h : Reached hash dhash m) (key : K) :
    Reached hash (dhash.remove hash key) (Function.update m key none) := by
  have hnodup := h.tabulates.nodup _ (h.tabulates.chain_mem key)
  unfold Table.remove
  dsimp only
  split
  · next next hremove =>
    obtain ⟨hsub, hlength⟩ := removeChain_sublist hremove
    rw [removeChain_eq] at hremove
    refine ⟨h.idx_le, h.tabulates.set ((hsub.map Prod.fst).nodup hnodup) (mem_alterChain hnodup hremove), ?_⟩
    have hset := length_flatten_set (h.tabulates.place_lt key) next
    dsimp only
    rw [h.num_items, show dhash.buckets.flatten.length =
      (dhash.buckets.set (place hash dhash.num_buckets_idx key) next).flatten.length + 1 by omega,
      BitVec.ofNat_add]
    exact BitVec.add_sub_cancel _ _
  · next hremove =>
    rw [removeChain_eq] at hremove
    have hnone := h.tabulates.eq_none_of_forall (alterChain_eq_none hremove)
    rw [← hnone, Function.update_eq_self]
    exact h

theorem step (h : Reached hash dhash m) (op : Op K I) : Reached hash (dhash.step hash op) (op.effect m) := by
  cases op with
  | insert key info => exact h.insert key info
  | remove key => exact h.remove key
  | query key => exact h

theorem foldl (h : Reached hash dhash m) (ops : List (Op K I)) :
    Reached hash (ops.foldl (Table.step hash) dhash) (ops.foldl Op.effect m) := by
  induction ops generalizing dhash m with
  | nil => exact h
  | cons op ops ih => exact ih (h.step op)

end Reached

variable [DecidableEq K]

/-- The table that a run reaches stands for the map of the live keys. -/
theorem reached_of_run {initial_size : Int} {ops : List (Op K I)} (h : run hash initial_size ops = some dhash) :
    Reached hash dhash (live ops) := by
  obtain ⟨new, hnew, rfl⟩ := Option.map_eq_some_iff.1 h
  exact (Reached.new hnew).foldl ops

theorem exists_run {initial_size : Int} (h : 0 ≤ initial_size) (ops : List (Op K I)) :
    ∃ dhash, run hash initial_size ops = some dhash := by
  unfold run Table.new
  rw [if_neg (not_lt.2 h)]
  exact ⟨_, rfl⟩

theorem num_items_eq {initial_size : Int} {ops : List (Op K I)} (h : run hash initial_size ops = some dhash) :
    dhash.num_items = BitVec.ofNat 32 (numLive ops) := by
  rw [(reached_of_run h).num_items, (reached_of_run h).tabulates.length_eq]
  rfl

end

/-- The numbers that an `int` has. -/
theorem toInt_ofNat_eq_iff (n : Nat) : (BitVec.ofNat 32 n).toInt = n ↔ n < 2 ^ 31 := by
  rw [BitVec.toInt_eq_toNat_cond, BitVec.toNat_ofNat]
  split <;> omega

/-- **In every run queries and walks are right, and so is the number of items while fewer than `2 ^ 31` keys are
live.** -/
theorem right_iff {K I : Type*} [DecidableEq K] (hash : K → BitVec 32) {initial_size : Int}
    (h : 0 ≤ initial_size) (ops : List (Op K I)) :
    ∃ dhash, run hash initial_size ops = some dhash ∧ (Right hash dhash ops ↔ numLive ops < 2 ^ 31) := by
  obtain ⟨dhash, hrun⟩ : ∃ dhash, run hash initial_size ops = some dhash := exists_run h ops
  have hreached := reached_of_run hrun
  have hitems := num_items_eq hrun
  refine ⟨dhash, hrun, fun hright => ?_, fun hlive => ?_⟩
  · have hnum := hright.num_items
    rwa [hitems, toInt_ofNat_eq_iff] at hnum
  · refine ⟨hreached.tabulates.lookup_eq, ?_, hreached.tabulates.nodup_keys, hreached.tabulates.entries⟩
    rw [hitems, toInt_ofNat_eq_iff]
    exact hlive

/-- Two insertions and a removal. -/
theorem right_iff_two : ∃ dhash : DhashPtr Nat,
    run (fun key => key.setWidth 32) 0 [.insert 16 1, .insert 32 2, .remove 16] = some dhash ∧
      (Right (fun key => key.setWidth 32) dhash [.insert 16 1, .insert 32 2, .remove 16] ↔
        numLive ([.insert 16 1, .insert 32 2, .remove 16] : List (Op (BitVec 64) Nat)) < 2 ^ 31) :=
  right_iff _ (by decide) _

/-! ## Too many keys -/

/-- Insertions of different keys. -/
theorem numLive_inserts {K I : Type*} [DecidableEq K] {keys : List K} (hkeys : keys.Nodup) (info : I) :
    numLive (keys.map fun key => Op.insert key info) = keys.length := by
  have hfold : ∀ (m : K → Option I) (key : K), (keys.map fun key => Op.insert key info).foldl Op.effect m key =
      if key ∈ keys then some info else m key := by
    clear hkeys
    induction keys with
    | nil => exact fun m key => rfl
    | cons k keys ih =>
      intro m key
      rw [List.map_cons, List.foldl_cons, ih, Op.effect]
      by_cases hmem : key ∈ keys
      · rw [if_pos hmem, if_pos (List.mem_cons_of_mem k hmem)]
      · by_cases hk : key = k
        · rw [if_neg hmem, if_pos (hk ▸ List.mem_cons_self), hk, Function.update_self]
        · rw [if_neg hmem, if_neg (List.not_mem_cons_of_ne_of_not_mem hk hmem), Function.update_of_ne hk]
  have hlive : {key | live (keys.map fun key => Op.insert key info) key ≠ none} = (keys.toFinset : Set K) := by
    ext key
    rw [Set.mem_ofPred_eq, live, hfold, Finset.mem_coe, List.mem_toFinset]
    split
    · next hmem => exact iff_of_true (Option.some_ne_none info) hmem
    · next hmem => exact iff_of_false (fun h => h rfl) hmem
  rw [numLive, hlive, Set.ncard_coe_finset, List.toFinset_card_of_nodup hkeys]

/-- The addresses from one on. -/
def addresses (n : Nat) : List (BitVec 64) := (List.range n).map fun k => BitVec.ofNat 64 (k + 1)

theorem nodup_addresses {n : Nat} (h : n < 2 ^ 64) : (addresses n).Nodup := by
  refine List.Nodup.map_on (fun i hi j hj hij => ?_) List.nodup_range
  have hi := List.mem_range.1 hi
  have hj := List.mem_range.1 hj
  have heq := congrArg BitVec.toNat hij
  rw [BitVec.toNat_ofNat, BitVec.toNat_ofNat, Nat.mod_eq_of_lt (by omega), Nat.mod_eq_of_lt (by omega)] at heq
  exact Nat.succ.inj heq

/-- With `2 ^ 31` different addresses in the table, the number of items is negative. -/
theorem not_right_of_full : ∃ dhash : DhashPtr Nat,
    run (fun key => key.setWidth 32) 5 ((addresses (2 ^ 31)).map fun key => .insert key 1) = some dhash ∧
      ¬ Right (fun key => key.setWidth 32) dhash ((addresses (2 ^ 31)).map fun key => .insert key 1) := by
  have hexists : ∃ dhash : DhashPtr Nat,
      run (fun key => key.setWidth 32) 5 ((addresses (2 ^ 31)).map fun key => .insert key 1) = some dhash :=
    exists_run (by decide) _
  obtain ⟨dhash, hrun⟩ := hexists
  refine ⟨dhash, hrun, fun hright => ?_⟩
  have hlive := numLive_inserts (nodup_addresses (n := 2 ^ 31) (by decide)) 1
  have hnum := hright.num_items
  rw [num_items_eq hrun, toInt_ofNat_eq_iff, hlive, addresses, List.length_map, List.length_range] at hnum
  exact lt_irrefl _ hnum

end OmpSs.Mcxx.Dhash
