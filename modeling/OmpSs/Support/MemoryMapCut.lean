import OmpSs.Support.MemoryMap

/-!
# Requests that cut entries

`MemoryMap::getOrAddChunk` cuts the entries at the bounds of the request. A piece that is cut off gets a copy
of the value (`NEW _Type( *ptr )`), so that no entry without a value may be cut: the source reads through
`NULL` there (`insertWithOverlap?`). Otherwise the walk does what `insertWithOverlap` says, and what the
request is made up of is returned in order (`RequestCut`).
-/

namespace OmpSs.Support

open Lib

/-! ## Requests and intervals -/

namespace MemoryChunk

/-- The request `key` begins or ends inside the interval. -/
def CutBy (c key : MemoryChunk) : Prop :=
  c.addr < key.addr ∧ key.addr < c.stop ∨ c.addr < key.stop ∧ key.stop < c.stop

end MemoryChunk

section
variable {V : Type*} {l rest : List (Entry V)} {e : Entry V} {key : MemoryChunk}

/-- Of two entries one lies before the other. -/
theorem Laid.before_or_behind {e' : Entry V} (hl : Laid l) (he : e ∈ l) (he' : e' ∈ l) :
    e = e' ∨ e.1.stop ≤ e'.1.addr ∨ e'.1.stop ≤ e.1.addr := by
  by_contra hno
  have hlt := hl.addr_lt_stop he
  have hlt' := hl.addr_lt_stop he'
  refine hno (.inl (hl.eq_of_inChunk he he' (x := max e.1.addr e'.1.addr) ⟨?_, ?_⟩ ⟨?_, ?_⟩)) <;> omega

/-- The first entry starts before all others. -/
theorem Laid.addr_le_of_mem {a : Entry V} (hl : Laid (a :: rest)) (he : e ∈ a :: rest) :
    a.1.addr ≤ e.1.addr := by
  rcases List.mem_cons.1 he with rfl | he
  · exact le_refl _
  · exact le_trans (hl.addr_lt_stop List.mem_cons_self).le ((laid_cons.1 hl).2.1 e he)

/-! ## Cutting entries -/

/-- Source: `NEW _Type( *ptr )`. `none`: `ptr` is `NULL`. -/
def copyValue (v : Option V) : Option (Option V) := v.map some

/-- The walk of `insertWithOverlap` with its copies. `none`: the source reads through `NULL`. Source:
`memorymap.hpp:146`. -/
def insertWithOverlap? (iterKey : MemoryChunk) :
    List (Entry V) → Option (List (Entry V) × List MemoryChunk)
  | [] => some ([(iterKey, none)], [iterKey])
  | (hint, v) :: rest =>
    if hint = iterKey then some ((hint, v) :: rest, [hint])
    else match hint.checkOverlap iterKey with
      | .noOverlap =>
        if iterKey.addr < hint.addr then some ((iterKey, none) :: (hint, v) :: rest, [iterKey])
        else (insertWithOverlap? iterKey rest).map fun r => ((hint, v) :: r.1, r.2)
      | .beginOverlap =>
        let (leftChunk, rightChunk, rightLeftOver) := iterKey.intersect hint
        (copyValue v).map fun copy =>
          ((leftChunk, none) :: (rightChunk, v) :: (rightLeftOver, copy) :: rest, [leftChunk, rightChunk])
      | .endOverlap =>
        let (leftChunk, rightChunk, rightLeftOver) := hint.intersect iterKey
        (copyValue v).bind fun copy => (insertWithOverlap? rightLeftOver rest).map fun r =>
          ((leftChunk, v) :: (rightChunk, copy) :: r.1, rightChunk :: r.2)
      | .totalOverlap =>
        let (leftChunk, leftLeftOver) := iterKey.partition hint
        (insertWithOverlap? leftLeftOver rest).map fun r =>
          ((leftChunk, none) :: (hint, v) :: r.1, leftChunk :: hint :: r.2)
      | .subchunkOverlap =>
        let (leftChunk, leftLeftOver) := hint.partition iterKey
        -- the second piece is a copy of the copy
        (copyValue v).bind fun copy => (copyValue copy).map fun copy' =>
          ((leftChunk, v) :: (iterKey, copy) :: (leftLeftOver, copy') :: rest, [iterKey])
      | .totalBeginOverlap =>
        (insertWithOverlap? (hint.partitionBeginAltB iterKey) rest).map fun r =>
          ((hint, v) :: r.1, hint :: r.2)
      | .subchunkBeginOverlap =>
        let (leftChunk, rightChunk) := hint.partitionBeginAgtB iterKey
        (copyValue v).map fun copy => ((leftChunk, v) :: (rightChunk, copy) :: rest, [leftChunk])
      | .totalEndOverlap =>
        let leftChunk := iterKey.partitionEnd hint
        some ((leftChunk, none) :: (hint, v) :: rest, [leftChunk, hint])
      | .subchunkEndOverlap =>
        (copyValue v).map fun copy => ((hint.partitionEnd iterKey, v) :: (iterKey, copy) :: rest, [iterKey])

/-- No entry without a value is cut. -/
def CutsValues (key : MemoryChunk) (l : List (Entry V)) : Prop := ∀ e ∈ l, e.1.CutBy key → e.2 ≠ none

theorem CutsValues.nil : CutsValues key ([] : List (Entry V)) := fun _ he => by cases he

theorem cutsValues_cons :
    CutsValues key (e :: rest) ↔ (e.1.CutBy key → e.2 ≠ none) ∧ CutsValues key rest := by
  simp only [CutsValues, List.mem_cons, forall_eq_or_imp]

theorem cutsValues_append : CutsValues key (l ++ rest) ↔ CutsValues key l ∧ CutsValues key rest := by
  simp only [CutsValues, List.forall_mem_append]

/-- What starts behind the request is not cut. -/
theorem cutsValues_of_le (h : ∀ e ∈ l, key.stop ≤ e.1.addr) : CutsValues key l := by
  intro e he hcut
  have hle := h e he
  simp only [MemoryChunk.CutBy, MemoryChunk.stop] at hcut hle
  omega

/-- What the rest of the request cuts behind an entry is what the request cuts there. -/
theorem cutsValues_iff_of_le {key' : MemoryChunk} (h : ∀ e ∈ l, key'.addr ≤ e.1.addr)
    (hstart : key.addr ≤ key'.addr) (hstop : key'.stop = key.stop) :
    CutsValues key' l ↔ CutsValues key l := by
  refine forall₂_congr fun e he => imp_congr_left ?_
  have hle := h e he
  simp only [MemoryChunk.CutBy, hstop]
  omega

/-- An entry is cut: its value must not be `NULL`. -/
theorem copyValue_map_eq_some {α : Type*} {v : Option V} {f : Option V → α} {a : α} :
    (copyValue v).map f = some a ↔ v ≠ none ∧ f v = a := by
  cases v with
  | none => simp [copyValue]
  | some d => simp [copyValue]

theorem copyValue_bind_eq_some {α : Type*} {v : Option V} {f : Option V → Option α} {a : α} :
    (copyValue v).bind f = some a ↔ v ≠ none ∧ f v = some a := by
  cases v with
  | none => simp [copyValue]
  | some d => simp [copyValue]

/-- **The walk goes through if and only if it cuts no entry without a value**, and the copies then have
the values of the entries. -/
theorem insertWithOverlap?_eq_some (hl : Laid l) (hpos : 0 < key.len)
    {r : List (Entry V) × List MemoryChunk} :
    insertWithOverlap? key l = some r ↔ CutsValues key l ∧ insertWithOverlap key l = r := by
  induction l generalizing key r with
  | nil => simp [insertWithOverlap?, insertWithOverlap, CutsValues.nil]
  | cons e rest ih =>
    obtain ⟨hint, v⟩ := e
    obtain ⟨hhint, hle, hrest⟩ := laid_cons.1 hl
    dsimp only at hhint hle
    rw [insertWithOverlap?, insertWithOverlap, cutsValues_cons]
    have hov := hint.checkOverlap_holds key hhint
    -- what is cut behind the entry, when the request ends at the entry or goes on behind it
    have hend : key.stop ≤ hint.stop → CutsValues key rest := fun h =>
      cutsValues_of_le fun e he => le_trans h (hle e he)
    have hgo : ∀ key' : MemoryChunk, key'.addr = hint.stop → key'.stop = key.stop →
        key.addr ≤ hint.stop → (CutsValues key' rest ↔ CutsValues key rest) :=
      fun key' haddr hstop hkey => cutsValues_iff_of_le (fun e he => haddr ▸ hle e he) (haddr ▸ hkey) hstop
    split
    · next heq =>
      subst heq
      have hno : ¬ hint.CutBy hint := by
        simp only [MemoryChunk.CutBy]
        omega
      simp [hno, hend (le_refl _)]
    · next hne =>
      have hlen : hint.addr = key.addr → hint.len ≠ key.len := by
        intro haddr hlen
        obtain ⟨addr, len⟩ := hint
        obtain ⟨addr', len'⟩ := key
        exact hne (by simp only at haddr hlen; rw [haddr, hlen])
      have hcut : hint.CutBy key ↔ hint.addr < key.addr ∧ key.addr < hint.stop ∨
        hint.addr < key.stop ∧ key.stop < hint.stop := Iff.rfl
      cases htype : hint.checkOverlap key <;> rw [htype] at hov <;> dsimp only <;>
        simp only [OverlapType.Holds, MemoryChunk.stop] at hov hcut hend hgo
      case noOverlap =>
        have hno : ¬ hint.CutBy key := by
          rw [hcut]
          omega
        split
        · simp [hno, hend (by omega)]
        · simp [hno, ih hrest hpos, and_assoc]
      case beginOverlap | subchunkBeginOverlap =>
        have hyes : hint.CutBy key := by
          rw [hcut]
          omega
        rw [copyValue_map_eq_some]
        simp [hyes, hend (by omega)]
      case endOverlap =>
        have hyes : hint.CutBy key := by
          rw [hcut]
          omega
        have hpos' : 0 < (hint.intersect key).2.2.len := by
          simp only [MemoryChunk.intersect]
          omega
        have hrest' := hgo (hint.intersect key).2.2 rfl
          (by simp only [MemoryChunk.intersect]; omega) (by omega)
        rw [copyValue_bind_eq_some]
        simp [hyes, ih hrest hpos', hrest', and_assoc]
      case totalOverlap =>
        have hno : ¬ hint.CutBy key := by
          rw [hcut]
          omega
        have hpos' : 0 < (key.partition hint).2.len := by
          simp only [MemoryChunk.partition]
          omega
        have hrest' := hgo (key.partition hint).2 rfl
          (by simp only [MemoryChunk.partition]; omega) (by omega)
        simp [hno, ih hrest hpos', hrest', and_assoc]
      case totalBeginOverlap =>
        have hno : ¬ hint.CutBy key := by
          rw [hcut]
          omega
        have hpos' : 0 < (hint.partitionBeginAltB key).len := by
          simp only [MemoryChunk.partitionBeginAltB]
          omega
        have hrest' := hgo (hint.partitionBeginAltB key) rfl
          (by simp only [MemoryChunk.partitionBeginAltB]; omega) (by omega)
        simp [hno, ih hrest hpos', hrest', and_assoc]
      case subchunkOverlap =>
        have hyes : hint.CutBy key := by
          rw [hcut]
          omega
        rw [copyValue_bind_eq_some, copyValue_map_eq_some]
        simp [hyes, hend (by omega)]
      case totalEndOverlap =>
        have hno : ¬ hint.CutBy key := by
          rw [hcut]
          omega
        simp [hno, hend (by omega)]
      case subchunkEndOverlap =>
        have hyes : hint.CutBy key := by
          rw [hcut]
          omega
        rw [copyValue_map_eq_some]
        simp [hyes, hend (by omega)]

/-- The returned intervals are entries of the map, in its order. -/
theorem insertWithOverlap_sublist (key : MemoryChunk) (l : List (Entry V)) :
    (insertWithOverlap key l).2.Sublist ((insertWithOverlap key l).1.map Prod.fst) := by
  induction l generalizing key with
  | nil => simp [insertWithOverlap]
  | cons e rest ih =>
    obtain ⟨hint, v⟩ := e
    rw [insertWithOverlap]
    split
    · simp
    · split
      · split
        · simp
        · simpa using (ih key).cons hint
      all_goals simp [ih]

/-- Source: `MemoryMap::getOrAddChunk` (`memorymap.hpp:1167`). `none`: the source reads through `NULL`. -/
def getOrFragment? (l : List (Entry V)) (key : MemoryChunk) : Option (List (Entry V) × List MemoryChunk) :=
  if exactKey l key then some (l, [key])
  else (insertWithOverlap? key (splitAtHint l key.addr).2).map fun r =>
    ((splitAtHint l key.addr).1 ++ r.1, r.2)

theorem getOrFragment?_eq_some (hl : Laid l) (hpos : 0 < key.len)
    {r : List (Entry V) × List MemoryChunk} :
    getOrFragment? l key = some r ↔ CutsValues key l ∧ getOrFragment l key = r := by
  unfold getOrFragment? getOrFragment
  split
  · next hexact =>
    obtain ⟨v, hmem, -⟩ := mem_of_exactKey hexact
    have hcuts : CutsValues key l := by
      intro e he hcut
      -- an entry that is cut is neither the one of the request nor before or behind it
      simp only [MemoryChunk.CutBy, MemoryChunk.stop] at hcut
      rcases hl.before_or_behind he hmem with rfl | hle | hle
      · dsimp only at hcut
        omega
      · simp only [MemoryChunk.stop] at hle
        omega
      · simp only [MemoryChunk.stop] at hle
        omega
    simp [hcuts]
  · have hsplit := splitAtHint_append l key.addr
    have hbelow : CutsValues key (splitAtHint l key.addr).1 := by
      intro e he hcut
      have hle := stop_le_of_mem_splitAtHint hl he
      simp only [MemoryChunk.CutBy, MemoryChunk.stop] at hcut hle
      omega
    have hcuts : CutsValues key l ↔ CutsValues key (splitAtHint l key.addr).2 := by
      conv_lhs => rw [← hsplit, cutsValues_append]
      exact and_iff_right hbelow
    rw [← hsplit] at hl
    simp only [Option.map_eq_some_iff, insertWithOverlap?_eq_some (laid_append.1 hl).2.1 hpos, hcuts,
      and_assoc, exists_and_left, exists_eq_left']

/-- The request `key` has been added to the entries `l` by cutting: the returned intervals are entries that
tile the request in order, what was covered has the value it had, and the rest of the request has none. -/
structure RequestCut (key : MemoryChunk) (l l' : List (Entry V)) (ks : List MemoryChunk) : Prop where
  laid : Laid l'
  ordered : ks.Pairwise fun a b => a.stop ≤ b.addr
  entries : ∀ k ∈ ks, ∃ v, (k, v) ∈ l'
  tiles : Tiles MemoryChunk.InChunk ks key.InChunk
  kept : ∀ e ∈ l, ∀ x, e.1.InChunk x → ∃ k, k.InChunk x ∧ (k, e.2) ∈ l'
  added : ∀ x, key.InChunk x → (∀ e ∈ l, ¬ e.1.InChunk x) → ∃ k, k.InChunk x ∧ (k, none) ∈ l'

theorem Fragmented.requestCut {r : List (Entry V) × List MemoryChunk} (h : Fragmented key l r)
    (hl : Laid l) (hsub : r.2.Sublist (r.1.map Prod.fst)) : RequestCut key l r.1 r.2 where
  laid := h.laid
  ordered := (List.pairwise_map.2 h.laid.ordered).sublist hsub
  entries := h.results
  tiles := h.tiles
  kept e he x hx := by
    obtain ⟨e', he', hx'⟩ := h.covered e he x hx
    rcases h.piece e' he' with ⟨e₀, he₀, hin, hval⟩ | ⟨-, -, hgap⟩
    · have heq := hl.eq_of_inChunk he he₀ hx (MemoryChunk.contains_inChunk hin hx')
      exact ⟨e'.1, hx', by rwa [heq, ← hval]⟩
    · exact absurd hx (hgap e he x hx')
  added x hx hfree := by
    obtain ⟨k, hk, hkx⟩ := (h.tiles.union x).1 hx
    obtain ⟨v, hv⟩ := h.results k hk
    rcases h.piece _ hv with ⟨e₀, he₀, hin, -⟩ | ⟨hnone, -⟩
    · exact absurd (MemoryChunk.contains_inChunk hin hkx) (hfree e₀ he₀)
    · dsimp only at hnone
      exact ⟨k, hkx, hnone ▸ hv⟩

theorem getOrFragment_sublist (key : MemoryChunk) (l : List (Entry V)) :
    (getOrFragment l key).2.Sublist ((getOrFragment l key).1.map Prod.fst) := by
  unfold getOrFragment
  split
  · next hexact =>
    obtain ⟨v, hmem, -⟩ := mem_of_exactKey hexact
    exact List.singleton_sublist.2 (List.mem_map_of_mem hmem)
  · rw [List.map_append]
    exact (insertWithOverlap_sublist key _).trans (List.sublist_append_right _ _)

/-- A map with one entry. -/
def MemoryMap.single (c : MemoryChunk) (v : Option V) (hpos : 0 < c.len) : MemoryMap V :=
  ⟨[(c, v)], laid_cons.2 ⟨hpos, by simp, .nil⟩⟩

/-- **`getOrAddChunk` adds the request by cutting, if and only if it cuts no entry without a value.** -/
theorem getOrAddChunk_requestCut_iff (m : MemoryMap V) (hpos : 0 < key.len) :
    (∃ l' ks, getOrFragment? m.entries key = some (l', ks) ∧ RequestCut key m.entries l' ks) ↔
      CutsValues key m.entries := by
  constructor
  · rintro ⟨l', ks, hsome, -⟩
    exact ((getOrFragment?_eq_some m.laid hpos).1 hsome).1
  · intro hcuts
    exact ⟨_, _, (getOrFragment?_eq_some m.laid hpos).2 ⟨hcuts, rfl⟩,
      (getOrFragment_fragmented m.laid hpos).requestCut m.laid (getOrFragment_sublist key m.entries)⟩

/-- The entry in which the request lies has a value. -/
theorem getOrAddChunk_requestCut_value : ∃ l' ks,
    getOrFragment? (MemoryMap.single ⟨0, 10⟩ (some 7) (by decide)).entries ⟨2, 3⟩ = some (l', ks) ∧
      RequestCut ⟨2, 3⟩ (MemoryMap.single ⟨0, 10⟩ (some 7) (by decide)).entries l' ks :=
  (getOrAddChunk_requestCut_iff (MemoryMap.single ⟨0, 10⟩ (some 7) (by decide)) (by decide)).2
    (by simp [CutsValues, MemoryMap.single])

/-- The second of two requests cuts the entry that the first one added without a value. -/
theorem getOrAddChunk_reads_null :
    getOrFragment? ([] : List (Entry Nat)) ⟨0, 10⟩ =
      some ((MemoryMap.single ⟨0, 10⟩ none (by decide)).entries, [⟨0, 10⟩]) ∧
    ¬ ∃ l' ks, getOrFragment? (MemoryMap.single ⟨0, 10⟩ (none : Option Nat) (by decide)).entries ⟨2, 3⟩ =
        some (l', ks) ∧
      RequestCut ⟨2, 3⟩ (MemoryMap.single ⟨0, 10⟩ none (by decide)).entries l' ks := by
  refine ⟨rfl, ?_⟩
  rintro ⟨l', ks, hsome, -⟩
  have hnull : getOrFragment? (MemoryMap.single ⟨0, 10⟩ (none : Option Nat) (by decide)).entries ⟨2, 3⟩ =
    none := rfl
  cases hnull.symm.trans hsome

end

end OmpSs.Support
