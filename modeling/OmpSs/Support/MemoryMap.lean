import OmpSs.Lib.Tiling
import Mathlib.Data.List.Basic
import Mathlib.Data.List.TakeWhile
import Mathlib.Algebra.Order.Ring.Nat

/-!
# Maps from address intervals

`MemoryMap` (`nanox-mx/src/support/memorymap.hpp`): an ordered map whose keys are address intervals
(`MemoryChunk`, compared by their start) and whose values are pointers (`none` is `NULL`). The intervals
of a map are nonempty and pairwise disjoint; the structure carries this (`Laid`). The operations walk the
map from the entry before the request on and compare each entry with what is left of the request
(`checkOverlap`). `getOrAddChunkDoNotFragment` keeps every entry as it is and adds an entry with `NULL`
for each gap of the request (`Inserted`); `getOrAddChunk` also cuts the entries at the bounds of the
request, so that it returns intervals that make up the request (`Fragmented`); `getChunk` only looks.

Addresses are natural numbers: no interval wraps around the end of the address space.
-/

namespace OmpSs.Support

open Lib

/-! ## Intervals -/

/-- Source: `MemoryChunk` (`memorymap_decl.hpp:29`). -/
structure MemoryChunk where
  addr : Nat
  len : Nat
deriving DecidableEq

namespace MemoryChunk

/-- The end of the interval, the first address after it. -/
def stop (c : MemoryChunk) : Nat := c.addr + c.len

/-- The address `x` lies in the interval. -/
def InChunk (c : MemoryChunk) (x : Nat) : Prop := c.addr ≤ x ∧ x < c.stop

/-- Source: `MemoryChunk::contains` (`memorymap.hpp:53`). -/
def contains (this target : MemoryChunk) : Bool :=
  decide (this.addr ≤ target.addr) && decide (target.addr + target.len ≤ this.addr + this.len)

end MemoryChunk

/-- Source: `MemoryChunk::OverlapType` (`memorymap_decl.hpp:34`). -/
inductive OverlapType
  | noOverlap
  | beginOverlap
  | endOverlap
  | totalOverlap
  | subchunkOverlap
  | totalBeginOverlap
  | subchunkBeginOverlap
  | totalEndOverlap
  | subchunkEndOverlap
deriving DecidableEq

namespace MemoryChunk

/-- Source: `MemoryChunk::checkOverlap` (`memorymap.hpp:57`). -/
def checkOverlap (this target : MemoryChunk) : OverlapType :=
  if this.addr < target.addr then
    if this.addr + this.len > target.addr then
      if this.addr + this.len > target.addr + target.len then .subchunkOverlap
      else if this.addr + this.len < target.addr + target.len then .endOverlap
      else .subchunkEndOverlap
    else .noOverlap
  else if this.addr > target.addr then
    if target.addr + target.len > this.addr then
      if target.addr + target.len > this.addr + this.len then .totalOverlap
      else if target.addr + target.len < this.addr + this.len then .beginOverlap
      else .totalEndOverlap
    else .noOverlap
  else if target.len > this.len then .totalBeginOverlap
  else .subchunkBeginOverlap

/-- What is left of the three intervals, for `a` before `b` and no containment: `a` up to `b`, their
common part, and `b` after `a`. Source: `MemoryChunk::intersect` (`memorymap.hpp:93`). -/
def intersect (a b : MemoryChunk) : MemoryChunk × MemoryChunk × MemoryChunk :=
  let intersectionLen := a.addr + a.len - b.addr
  (⟨a.addr, a.len - intersectionLen⟩, ⟨b.addr, intersectionLen⟩,
    ⟨a.addr + a.len, b.len - intersectionLen⟩)

/-- The parts of `a` before and after `b`, for `b` inside `a`. Source: `MemoryChunk::partition`
(`memorymap.hpp:102`). -/
def partition (a b : MemoryChunk) : MemoryChunk × MemoryChunk :=
  let remainingLen := (a.addr + a.len) - (b.addr + b.len)
  (⟨a.addr, a.len - (remainingLen + b.len)⟩, ⟨b.addr + b.len, remainingLen⟩)

/-- The part of `b` after `a`, for intervals with one start. Source: `MemoryChunk::partitionBeginAltB`
(`memorymap.hpp:118`). -/
def partitionBeginAltB (a b : MemoryChunk) : MemoryChunk := ⟨a.addr + a.len, b.len - a.len⟩

/-- The part of `a` in `b` and the part after it, for intervals with one start. Source:
`MemoryChunk::partitionBeginAgtB` (`memorymap.hpp:110`). -/
def partitionBeginAgtB (a b : MemoryChunk) : MemoryChunk × MemoryChunk :=
  let bLen := a.len - b.len
  (⟨a.addr, a.len - bLen⟩, ⟨a.addr + b.len, bLen⟩)

/-- The part of `a` before `b`, for intervals with one end. Source: `MemoryChunk::partitionEnd`
(`memorymap.hpp:125`). -/
def partitionEnd (a b : MemoryChunk) : MemoryChunk := ⟨a.addr, a.len - b.len⟩

end MemoryChunk

/-- What each answer of `checkOverlap` says of the two intervals. -/
def OverlapType.Holds (this target : MemoryChunk) : OverlapType → Prop
  | .noOverlap => this.stop ≤ target.addr ∧ this.addr < target.addr ∨
      target.stop ≤ this.addr ∧ target.addr < this.addr
  | .beginOverlap => target.addr < this.addr ∧ this.addr < target.stop ∧ target.stop < this.stop
  | .endOverlap => this.addr < target.addr ∧ target.addr < this.stop ∧ this.stop < target.stop
  | .totalOverlap => target.addr < this.addr ∧ this.stop < target.stop
  | .subchunkOverlap => this.addr < target.addr ∧ target.stop < this.stop
  | .totalBeginOverlap => this.addr = target.addr ∧ this.stop < target.stop
  | .subchunkBeginOverlap => this.addr = target.addr ∧ target.stop ≤ this.stop
  | .totalEndOverlap => target.addr < this.addr ∧ this.addr < target.stop ∧ target.stop = this.stop
  | .subchunkEndOverlap => this.addr < target.addr ∧ target.addr < this.stop ∧ target.stop = this.stop

namespace MemoryChunk

theorem contains_iff {c d : MemoryChunk} : c.contains d = true ↔ c.addr ≤ d.addr ∧ d.stop ≤ c.stop := by
  simp [contains, stop]

theorem contains_inChunk {c d : MemoryChunk} (h : c.contains d = true) {x : Nat} (hx : d.InChunk x) :
    c.InChunk x :=
  ⟨le_trans (contains_iff.1 h).1 hx.1, lt_of_lt_of_le hx.2 (contains_iff.1 h).2⟩

/-- A nonempty interval whose addresses all lie in another is contained in it. -/
theorem contains_of_inChunk {c d : MemoryChunk} (hd : 0 < d.len)
    (h : ∀ x, d.InChunk x → c.InChunk x) : c.contains d = true := by
  have hfirst := h d.addr ⟨le_refl _, by simp only [stop]; omega⟩
  have hlast := h (d.stop - 1) ⟨by simp only [stop]; omega, by simp only [stop]; omega⟩
  simp only [InChunk, stop] at hfirst hlast
  rw [contains_iff]
  simp only [stop]
  omega

theorem checkOverlap_holds (this target : MemoryChunk) (h : 0 < this.len) :
    (this.checkOverlap target).Holds this target := by
  unfold checkOverlap
  split_ifs <;> simp only [OverlapType.Holds, stop] <;> omega

end MemoryChunk

/-! ## Lists of entries -/

/-- An entry of a map: an interval and a pointer. -/
abbrev Entry (V : Type*) := MemoryChunk × Option V

/-- The intervals are nonempty and follow each other without overlap. -/
structure Laid {V : Type*} (l : List (Entry V)) : Prop where
  ordered : l.Pairwise fun a b => a.1.stop ≤ b.1.addr
  nonempty : ∀ e ∈ l, 0 < e.1.len

section
variable {V : Type*} {l rest : List (Entry V)} {e e' : Entry V} {key : MemoryChunk}

theorem Laid.nil : Laid ([] : List (Entry V)) := ⟨.nil, by simp⟩

theorem laid_cons : Laid (e :: rest) ↔ 0 < e.1.len ∧ (∀ e' ∈ rest, e.1.stop ≤ e'.1.addr) ∧ Laid rest := by
  constructor
  · rintro ⟨hord, hne⟩
    exact ⟨hne e (by simp), (List.pairwise_cons.1 hord).1, (List.pairwise_cons.1 hord).2,
      fun e' he' => hne e' (by simp [he'])⟩
  · rintro ⟨hpos, hle, hrest⟩
    refine ⟨List.pairwise_cons.2 ⟨hle, hrest.ordered⟩, fun e' he' => ?_⟩
    rcases List.mem_cons.1 he' with rfl | he'
    · exact hpos
    · exact hrest.nonempty e' he'

theorem laid_append : Laid (l ++ rest) ↔ Laid l ∧ Laid rest ∧ ∀ e ∈ l, ∀ e' ∈ rest, e.1.stop ≤ e'.1.addr := by
  constructor
  · rintro ⟨hord, hne⟩
    obtain ⟨hl, hrest, hcross⟩ := List.pairwise_append.1 hord
    exact ⟨⟨hl, fun e he => hne e (by simp [he])⟩, ⟨hrest, fun e he => hne e (by simp [he])⟩, hcross⟩
  · rintro ⟨hl, hrest, hcross⟩
    refine ⟨List.pairwise_append.2 ⟨hl.ordered, hrest.ordered, hcross⟩, fun e he => ?_⟩
    exact (List.mem_append.1 he).elim (hl.nonempty e) (hrest.nonempty e)

theorem Laid.addr_lt_stop (h : Laid l) (he : e ∈ l) : e.1.addr < e.1.stop := by
  have := h.nonempty e he
  simp only [MemoryChunk.stop]
  omega

/-- Two entries that share an address are one. -/
theorem Laid.eq_of_inChunk (h : Laid l) (he : e ∈ l) (he' : e' ∈ l) {x : Nat} (hx : e.1.InChunk x)
    (hx' : e'.1.InChunk x) : e = e' := by
  induction l with
  | nil => cases he
  | cons a l ih =>
    obtain ⟨-, hle, hl⟩ := laid_cons.1 h
    rcases List.mem_cons.1 he with rfl | hel
    · rcases List.mem_cons.1 he' with rfl | hel'
      · rfl
      · exact absurd (lt_of_lt_of_le hx.2 (le_trans (hle e' hel') hx'.1)) (lt_irrefl x)
    · rcases List.mem_cons.1 he' with rfl | hel'
      · exact absurd (lt_of_lt_of_le hx'.2 (le_trans (hle e hel) hx.1)) (lt_irrefl x)
      · exact ih hl hel hel'

/-- The entries `e` before the first that starts at `a` or later. Source: the part of a map before
`lower_bound`. -/
def below (l : List (Entry V)) (a : Nat) : List (Entry V) := l.takeWhile fun e => decide (e.1.addr < a)

/-- Source: the part of a map from `lower_bound` on. -/
def lowerBound (l : List (Entry V)) (a : Nat) : List (Entry V) :=
  l.dropWhile fun e => decide (e.1.addr < a)

/-- The map up to the entry the walk of a request at `a` starts from, and the map from there: the entry
before `lower_bound`, where there is one. -/
def splitAtHint (l : List (Entry V)) (a : Nat) : List (Entry V) × List (Entry V) :=
  ((below l a).dropLast, (below l a).getLast?.toList ++ lowerBound l a)

theorem splitAtHint_append (l : List (Entry V)) (a : Nat) :
    (splitAtHint l a).1 ++ (splitAtHint l a).2 = l := by
  have hbelow : (below l a).dropLast ++ (below l a).getLast?.toList = below l a := by
    cases h : (below l a).getLast? with
    | none => rw [List.getLast?_eq_none_iff.1 h]; rfl
    | some e => exact List.dropLast_append_getLast? e h
  rw [splitAtHint, ← List.append_assoc, hbelow, below, lowerBound, List.takeWhile_append_dropWhile]

/-- The entries before the hint end before the request starts. -/
theorem stop_le_of_mem_splitAtHint (h : Laid l) {a : Nat} (he : e ∈ (splitAtHint l a).1) :
    e.1.stop ≤ a := by
  have hne : below l a ≠ [] := by
    intro hnil
    simp [splitAtHint, hnil] at he
  have hsplit := List.dropLast_append_getLast hne
  have hlast : (below l a).getLast hne ∈ below l a := List.getLast_mem hne
  have hlt : ((below l a).getLast hne).1.addr < a :=
    of_decide_eq_true (List.mem_takeWhile_imp (p := fun e : Entry V => decide (e.1.addr < a)) hlast)
  have hord : (below l a).Pairwise fun a b => a.1.stop ≤ b.1.addr :=
    h.ordered.sublist (List.takeWhile_sublist _)
  rw [← hsplit] at hord
  have hle := (List.pairwise_append.1 hord).2.2 e he _ (List.mem_singleton_self _)
  omega

/-! ## Adding a request without cutting entries -/

/-- The walk of `insertWithOverlapButNotGenerateIntersects` from an entry on, with `iterKey` the part of
the request that is left: the map after it and the intervals of the entries it returns. After
`TOTAL_OVERLAP` the source looks at the same entry once more and passes it (`NO_OVERLAP`, to the left of
what remains). Source: `memorymap.hpp:771`. -/
def insertFrom (iterKey : MemoryChunk) : List (Entry V) → List (Entry V) × List MemoryChunk
  -- no more chunks in the map but there is still key to insert
  | [] => ([(iterKey, none)], [iterKey])
  | (hint, v) :: rest =>
    if hint = iterKey then ((hint, v) :: rest, [hint])
    else match hint.checkOverlap iterKey with
      | .noOverlap =>
        if iterKey.addr < hint.addr then ((iterKey, none) :: (hint, v) :: rest, [iterKey])
        else
          let r := insertFrom iterKey rest
          ((hint, v) :: r.1, r.2)
      | .beginOverlap =>
        let leftChunk := (iterKey.intersect hint).1
        ((leftChunk, none) :: (hint, v) :: rest, [leftChunk, hint])
      | .endOverlap =>
        let r := insertFrom (hint.intersect iterKey).2.2 rest
        ((hint, v) :: r.1, hint :: r.2)
      | .totalOverlap =>
        let leftChunk := (iterKey.partition hint).1
        let r := insertFrom (iterKey.partition hint).2 rest
        ((leftChunk, none) :: (hint, v) :: r.1, leftChunk :: hint :: r.2)
      | .totalBeginOverlap =>
        let r := insertFrom (hint.partitionBeginAltB iterKey) rest
        ((hint, v) :: r.1, hint :: r.2)
      | .totalEndOverlap =>
        let leftChunk := iterKey.partitionEnd hint
        ((leftChunk, none) :: (hint, v) :: rest, [leftChunk, hint])
      | .subchunkOverlap | .subchunkBeginOverlap | .subchunkEndOverlap => ((hint, v) :: rest, [hint])

/-- The outcome of adding the request `key` to the entries `l`: the entries stay, what is added is a part
of the request and has no value, and the returned intervals are entries that together cover the
request. -/
structure Inserted (key : MemoryChunk) (l : List (Entry V)) (r : List (Entry V) × List MemoryChunk) :
    Prop where
  laid : Laid r.1
  kept : ∀ e ∈ l, e ∈ r.1
  added : ∀ e ∈ r.1, e ∈ l ∨ e.2 = none ∧ key.contains e.1 = true
  results : ∀ k ∈ r.2, ∃ v, (k, v) ∈ r.1
  cover : ∀ x, key.InChunk x → ∃ k ∈ r.2, k.InChunk x

/-- The request lies in an entry. -/
theorem Inserted.within (hl : Laid l) (he : e ∈ l) (h : e.1.contains key = true) :
    Inserted key l (l, [e.1]) where
  laid := hl
  kept _ he' := he'
  added _ he' := .inl he'
  results k hk := ⟨e.2, by rw [List.mem_singleton.1 hk]; exact he⟩
  cover _ hx := ⟨e.1, by simp, MemoryChunk.contains_inChunk h hx⟩

/-- An entry that ends before the others and before the request stays in front. -/
theorem Inserted.laid_front {key' : MemoryChunk} {r : List (Entry V) × List MemoryChunk}
    (h : Inserted key' l r) (hpos : 0 < e.1.len) (hle : ∀ e' ∈ l, e.1.stop ≤ e'.1.addr)
    (hstart : e.1.stop ≤ key'.addr) : Laid (e :: r.1) := by
  refine laid_cons.2 ⟨hpos, fun e' he' => ?_, h.laid⟩
  rcases h.added e' he' with he' | ⟨-, hin⟩
  · exact hle e' he'
  · exact le_trans hstart (MemoryChunk.contains_iff.1 hin).1

/-- The first entry covers the request up to its end, and the rest of the request is added behind it. -/
theorem Inserted.passes {key' : MemoryChunk} {r : List (Entry V) × List MemoryChunk}
    (hl : Laid (e :: rest)) (hcover : e.1.addr ≤ key.addr) (hstart : key.addr ≤ key'.addr)
    (hpass : key'.addr = e.1.stop) (hstop : key'.stop = key.stop) (h : Inserted key' rest r) :
    Inserted key (e :: rest) (e :: r.1, e.1 :: r.2) where
  laid := by
    obtain ⟨hpos, hle, -⟩ := laid_cons.1 hl
    exact h.laid_front hpos hle (le_of_eq hpass.symm)
  kept e' he' := List.cons_subset_cons e (fun e' => h.kept e') he'
  added e' he' := by
    rcases List.mem_cons.1 he' with rfl | he'
    · exact .inl (by simp)
    · rcases h.added e' he' with he' | ⟨hnone, hin⟩
      · exact .inl (List.mem_cons_of_mem _ he')
      · have hin := MemoryChunk.contains_iff.1 hin
        exact .inr ⟨hnone, MemoryChunk.contains_iff.2 ⟨by omega, by omega⟩⟩
  results k hk := by
    rcases List.mem_cons.1 hk with rfl | hk
    · exact ⟨e.2, by simp⟩
    · obtain ⟨v, hv⟩ := h.results k hk
      exact ⟨v, List.mem_cons_of_mem _ hv⟩
  cover x hx := by
    rcases lt_or_ge x e.1.stop with hlt | hge
    · exact ⟨e.1, by simp, le_trans hcover hx.1, hlt⟩
    · obtain ⟨k, hk, hkx⟩ := h.cover x ⟨by omega, hstop ▸ hx.2⟩
      exact ⟨k, List.mem_cons_of_mem _ hk, hkx⟩

/-- The first entry lies before the request. -/
theorem Inserted.skip {r : List (Entry V) × List MemoryChunk} (hl : Laid (e :: rest))
    (hbefore : e.1.stop ≤ key.addr) (h : Inserted key rest r) :
    Inserted key (e :: rest) (e :: r.1, r.2) where
  laid := by
    obtain ⟨hpos, hle, -⟩ := laid_cons.1 hl
    exact h.laid_front hpos hle hbefore
  kept e' he' := List.cons_subset_cons e (fun e' => h.kept e') he'
  added e' he' := by
    rcases List.mem_cons.1 he' with rfl | he'
    · exact .inl (by simp)
    · exact (h.added e' he').imp_left (List.mem_cons_of_mem _)
  results k hk := by
    obtain ⟨v, hv⟩ := h.results k hk
    exact ⟨v, List.mem_cons_of_mem _ hv⟩
  cover := h.cover

/-- A gap of the request before all entries gets an entry, and the rest of the request is added behind
it. -/
theorem Inserted.gap {left key' : MemoryChunk} {r : List (Entry V) × List MemoryChunk}
    (hpos : 0 < left.len) (haddr : left.addr = key.addr) (hnext : left.stop = key'.addr)
    (hstop : key'.stop = key.stop) (hle : key'.addr ≤ key'.stop)
    (hbefore : ∀ e ∈ l, left.stop ≤ e.1.addr) (h : Inserted key' l r) :
    Inserted key l ((left, none) :: r.1, left :: r.2) where
  laid := h.laid_front hpos hbefore (le_of_eq hnext)
  kept e' he' := List.mem_cons_of_mem _ (h.kept e' he')
  added e' he' := by
    have hleft : left.addr < left.stop := by simp only [MemoryChunk.stop]; omega
    rcases List.mem_cons.1 he' with rfl | he'
    · exact .inr ⟨rfl, MemoryChunk.contains_iff.2 ⟨by dsimp only; omega, by dsimp only; omega⟩⟩
    · rcases h.added e' he' with he' | ⟨hnone, hin⟩
      · exact .inl he'
      · have hin := MemoryChunk.contains_iff.1 hin
        exact .inr ⟨hnone, MemoryChunk.contains_iff.2 ⟨by omega, by omega⟩⟩
  results k hk := by
    rcases List.mem_cons.1 hk with rfl | hk
    · exact ⟨none, by simp⟩
    · obtain ⟨v, hv⟩ := h.results k hk
      exact ⟨v, List.mem_cons_of_mem _ hv⟩
  cover x hx := by
    rcases lt_or_ge x left.stop with hlt | hge
    · exact ⟨left, by simp, by rw [haddr]; exact hx.1, hlt⟩
    · obtain ⟨k, hk, hkx⟩ := h.cover x ⟨by omega, hstop ▸ hx.2⟩
      exact ⟨k, List.mem_cons_of_mem _ hk, hkx⟩

/-- A request in a gap before all entries. -/
theorem Inserted.before (hl : Laid l) (hpos : 0 < key.len) (hbefore : ∀ e ∈ l, key.stop ≤ e.1.addr) :
    Inserted key l ((key, none) :: l, [key]) where
  laid := laid_cons.2 ⟨hpos, hbefore, hl⟩
  kept e' he' := List.mem_cons_of_mem _ he'
  added e' he' := by
    rcases List.mem_cons.1 he' with rfl | he'
    · exact .inr ⟨rfl, MemoryChunk.contains_iff.2 ⟨le_refl _, le_refl _⟩⟩
    · exact .inl he'
  results k hk := ⟨none, by rw [List.mem_singleton.1 hk]; simp⟩
  cover _ hx := ⟨key, by simp, hx⟩

theorem insertFrom_inserted (hl : Laid l) (hpos : 0 < key.len) : Inserted key l (insertFrom key l) := by
  induction l generalizing key with
  | nil => exact .before .nil hpos (by simp)
  | cons e rest ih =>
    obtain ⟨hint, v⟩ := e
    have hrest := laid_cons.1 hl
    have hhint := hrest.1
    rw [insertFrom]
    split
    · next heq => exact .within hl List.mem_cons_self (MemoryChunk.contains_iff.2 (by simp [heq]))
    · have hov := hint.checkOverlap_holds key hhint
      have hbehind : ∀ e' ∈ (hint, v) :: rest, hint.addr ≤ e'.1.addr := by
        intro e' he'
        rcases List.mem_cons.1 he' with rfl | he'
        · exact le_refl _
        · have := hrest.2.1 e' he'
          simp only [MemoryChunk.stop] at this
          omega
      cases htype : hint.checkOverlap key <;> rw [htype] at hov <;> dsimp only at hhint ⊢ <;>
        simp only [OverlapType.Holds, MemoryChunk.stop] at hov
      case noOverlap =>
        split
        · refine .before hl hpos fun e' he' => le_trans ?_ (hbehind e' he')
          simp only [MemoryChunk.stop]
          omega
        · exact .skip hl (by simp only [MemoryChunk.stop]; omega) (ih hrest.2.2 hpos)
      case beginOverlap | totalEndOverlap =>
        -- the part of the request before the entry, then the part in it
        refine @Inserted.gap _ _ _ _ ⟨hint.addr, key.stop - hint.addr⟩ _ ?_ ?_ ?_ ?_ ?_ (fun e' he' =>
            le_trans ?_ (hbehind e' he')) (.within hl List.mem_cons_self
            (MemoryChunk.contains_iff.2 ?_)) <;>
          simp only [MemoryChunk.intersect, MemoryChunk.partitionEnd, MemoryChunk.stop] <;> omega
      case totalOverlap =>
        have hpos' : 0 < (key.partition hint).2.len := by
          simp only [MemoryChunk.partition]
          omega
        refine @Inserted.gap _ _ _ _ ⟨hint.addr, key.stop - hint.addr⟩ _ ?_ ?_ ?_ ?_ ?_ (fun e' he' =>
            le_trans ?_ (hbehind e' he')) (.passes hl ?_ ?_ ?_ ?_ (ih hrest.2.2 hpos')) <;>
          simp only [MemoryChunk.partition, MemoryChunk.stop] <;> omega
      case endOverlap =>
        have hpos' : 0 < (hint.intersect key).2.2.len := by
          simp only [MemoryChunk.intersect]
          omega
        refine .passes hl ?_ ?_ ?_ ?_ (ih hrest.2.2 hpos') <;>
          simp only [MemoryChunk.intersect, MemoryChunk.stop] <;> omega
      case totalBeginOverlap =>
        have hpos' : 0 < (hint.partitionBeginAltB key).len := by
          simp only [MemoryChunk.partitionBeginAltB]
          omega
        refine .passes hl ?_ ?_ ?_ ?_ (ih hrest.2.2 hpos') <;>
          simp only [MemoryChunk.partitionBeginAltB, MemoryChunk.stop] <;> omega
      all_goals
        refine .within hl List.mem_cons_self (MemoryChunk.contains_iff.2 ?_)
        simp only [MemoryChunk.stop]
        omega

/-- Entries that end before the request stay in front. -/
theorem Inserted.append {pre : List (Entry V)} {r : List (Entry V) × List MemoryChunk}
    (hl : Laid (pre ++ l)) (hpre : ∀ e ∈ pre, e.1.stop ≤ key.addr) (h : Inserted key l r) :
    Inserted key (pre ++ l) (pre ++ r.1, r.2) := by
  induction pre with
  | nil => exact h
  | cons e pre ih =>
    refine Inserted.skip hl (hpre e (by simp)) (ih (laid_cons.1 hl).2.2 fun e' he' => ?_)
    exact hpre e' (by simp [he'])

/-- A single returned interval contains the request, and it is an entry of before or the request
itself. -/
theorem Inserted.single {l' : List (Entry V)} {k : MemoryChunk} (h : Inserted key l (l', [k]))
    (hpos : 0 < key.len) :
    k.contains key = true ∧ ((∃ v, (k, v) ∈ l) ∨ k = key ∧ (key, none) ∈ l') := by
  have hcontains : k.contains key = true := by
    refine MemoryChunk.contains_of_inChunk hpos fun x hx => ?_
    obtain ⟨k', hk', hx'⟩ := h.cover x hx
    rwa [List.mem_singleton.1 hk'] at hx'
  refine ⟨hcontains, ?_⟩
  obtain ⟨v, hv⟩ := h.results k (by simp)
  rcases h.added _ hv with hold | ⟨hnone, hin⟩
  · exact .inl ⟨v, hold⟩
  · have hk : k = key := by
      have h₁ := MemoryChunk.contains_iff.1 hcontains
      have h₂ := MemoryChunk.contains_iff.1 hin
      obtain ⟨addr, len⟩ := k
      obtain ⟨addr', len'⟩ := key
      simp only [MemoryChunk.stop, MemoryChunk.mk.injEq] at h₁ h₂ ⊢
      omega
    dsimp only at hnone
    rw [hk, hnone] at hv
    exact .inr ⟨hk, hv⟩

/-- The request is the key of the entry at `lower_bound`. Source: the test of
`getOrAddChunkDoNotFragment` and of `getChunk` (`memorymap.hpp:1153`, `:1192`). -/
def exactKey (l : List (Entry V)) (key : MemoryChunk) : Bool :=
  match lowerBound l key.addr with
  | [] => false
  | (k, _) :: _ => !decide (key.addr < k.addr) && decide (k.len = key.len)

theorem lowerBound_of_exactKey (h : exactKey l key = true) :
    ∃ v rest, lowerBound l key.addr = (key, v) :: rest := by
  unfold exactKey at h
  split at h
  · cases h
  · next k v rest hl =>
    have hge : ¬ k.addr < key.addr := by
      have := List.head?_dropWhile_not (fun e : Entry V => decide (e.1.addr < key.addr)) l
      rw [lowerBound] at hl
      simpa [hl] using this
    refine ⟨v, rest, ?_⟩
    simp only [Bool.and_eq_true, Bool.not_eq_true', decide_eq_false_iff_not, decide_eq_true_eq] at h
    have hk : k = key := by
      obtain ⟨addr, len⟩ := k
      obtain ⟨addr', len'⟩ := key
      simp only [MemoryChunk.mk.injEq] at h hge ⊢
      omega
    rw [hl, hk]

theorem mem_of_mem_lowerBound {a : Nat} (h : e ∈ lowerBound l a) : e ∈ l :=
  (List.dropWhile_sublist _).subset h

/-- The entry of the request. -/
theorem mem_of_exactKey (h : exactKey l key = true) :
    ∃ v, (key, v) ∈ l ∧ ∃ rest, lowerBound l key.addr = (key, v) :: rest := by
  obtain ⟨v, rest, hlb⟩ := lowerBound_of_exactKey h
  exact ⟨v, mem_of_mem_lowerBound (hlb ▸ List.mem_cons_self), rest, hlb⟩

/-- Source: `MemoryMap::getOrAddChunkDoNotFragment` (`memorymap.hpp:1148`). -/
def getOrAddFrom (l : List (Entry V)) (key : MemoryChunk) : List (Entry V) × List MemoryChunk :=
  if exactKey l key then (l, [key])
  else
    let r := insertFrom key (splitAtHint l key.addr).2
    ((splitAtHint l key.addr).1 ++ r.1, r.2)

theorem getOrAddFrom_inserted (hl : Laid l) (hpos : 0 < key.len) :
    Inserted key l (getOrAddFrom l key) := by
  unfold getOrAddFrom
  split
  · next hexact =>
    obtain ⟨v, hmem, -⟩ := mem_of_exactKey hexact
    exact .within hl hmem (MemoryChunk.contains_iff.2 ⟨le_refl _, le_refl _⟩)
  · have hsplit := splitAtHint_append l key.addr
    rw [← hsplit] at hl
    have hins := Inserted.append hl
      (fun e he => stop_le_of_mem_splitAtHint (hsplit ▸ hl) he)
      (insertFrom_inserted (laid_append.1 hl).2.1 hpos)
    rwa [hsplit] at hins

/-! ## Adding a request by cutting entries -/

/-- The walk of `insertWithOverlap` from an entry on. Entries that the request starts or ends in are cut
there, and the pieces get copies of the value (which the source does not test for `NULL`). Source:
`memorymap.hpp:146`. -/
def insertWithOverlap (iterKey : MemoryChunk) : List (Entry V) → List (Entry V) × List MemoryChunk
  | [] => ([(iterKey, none)], [iterKey])
  | (hint, v) :: rest =>
    if hint = iterKey then ((hint, v) :: rest, [hint])
    else match hint.checkOverlap iterKey with
      | .noOverlap =>
        if iterKey.addr < hint.addr then ((iterKey, none) :: (hint, v) :: rest, [iterKey])
        else
          let r := insertWithOverlap iterKey rest
          ((hint, v) :: r.1, r.2)
      | .beginOverlap =>
        let (leftChunk, rightChunk, rightLeftOver) := iterKey.intersect hint
        ((leftChunk, none) :: (rightChunk, v) :: (rightLeftOver, v) :: rest, [leftChunk, rightChunk])
      | .endOverlap =>
        let (leftChunk, rightChunk, rightLeftOver) := hint.intersect iterKey
        let r := insertWithOverlap rightLeftOver rest
        ((leftChunk, v) :: (rightChunk, v) :: r.1, rightChunk :: r.2)
      | .totalOverlap =>
        let (leftChunk, leftLeftOver) := iterKey.partition hint
        let r := insertWithOverlap leftLeftOver rest
        ((leftChunk, none) :: (hint, v) :: r.1, leftChunk :: hint :: r.2)
      | .subchunkOverlap =>
        let (leftChunk, leftLeftOver) := hint.partition iterKey
        ((leftChunk, v) :: (iterKey, v) :: (leftLeftOver, v) :: rest, [iterKey])
      | .totalBeginOverlap =>
        let r := insertWithOverlap (hint.partitionBeginAltB iterKey) rest
        ((hint, v) :: r.1, hint :: r.2)
      | .subchunkBeginOverlap =>
        let (leftChunk, rightChunk) := hint.partitionBeginAgtB iterKey
        ((leftChunk, v) :: (rightChunk, v) :: rest, [leftChunk])
      | .totalEndOverlap =>
        let leftChunk := iterKey.partitionEnd hint
        ((leftChunk, none) :: (hint, v) :: rest, [leftChunk, hint])
      | .subchunkEndOverlap => ((hint.partitionEnd iterKey, v) :: (iterKey, v) :: rest, [iterKey])

/-- The outcome of adding the request `key` to the entries `l` by cutting: every entry is a piece of an
entry of before with its value, or a gap of the request without a value; nothing that was covered is
lost; and the returned intervals are entries that tile the request. -/
structure Fragmented (key : MemoryChunk) (l : List (Entry V)) (r : List (Entry V) × List MemoryChunk) :
    Prop where
  laid : Laid r.1
  piece : ∀ e ∈ r.1, (∃ e₀ ∈ l, e₀.1.contains e.1 = true ∧ e.2 = e₀.2) ∨
    e.2 = none ∧ key.contains e.1 = true ∧ ∀ e₀ ∈ l, ∀ x, e.1.InChunk x → ¬ e₀.1.InChunk x
  covered : ∀ e₀ ∈ l, ∀ x, e₀.1.InChunk x → ∃ e ∈ r.1, e.1.InChunk x
  results : ∀ k ∈ r.2, ∃ v, (k, v) ∈ r.1
  tiles : Tiles MemoryChunk.InChunk r.2 key.InChunk

/-- An entry that is added in front of a tiling tiles what the two have together. -/
theorem tiles_cons {k key' : MemoryChunk} {ks : List MemoryChunk} (haddr : k.addr = key.addr)
    (hnext : key'.addr = k.stop) (hstop : key'.stop = key.stop) (hk : k.addr ≤ k.stop)
    (hkey' : key'.addr ≤ key'.stop) (h : Tiles MemoryChunk.InChunk ks key'.InChunk) :
    Tiles MemoryChunk.InChunk (k :: ks) key.InChunk where
  disjoint := by
    refine List.pairwise_cons.2 ⟨fun k' hk' x hx hx' => ?_, h.disjoint⟩
    have := (h.union x).2 ⟨k', hk', hx'⟩
    simp only [MemoryChunk.InChunk] at hx this
    omega
  union x := by
    have hrest := h.union x
    simp only [List.mem_cons, exists_eq_or_imp]
    rw [← hrest]
    simp only [MemoryChunk.InChunk]
    omega

theorem tiles_single (key : MemoryChunk) : Tiles MemoryChunk.InChunk [key] key.InChunk :=
  ⟨List.pairwise_singleton _ _, fun x => by simp⟩

/-- All entries of the outcome start behind an address before which neither the request nor an entry
starts. -/
theorem Fragmented.le_addr {r : List (Entry V) × List MemoryChunk} (h : Fragmented key l r) {a : Nat}
    (hkey : a ≤ key.addr) (hl : ∀ e ∈ l, a ≤ e.1.addr) (he : e ∈ r.1) : a ≤ e.1.addr := by
  rcases h.piece e he with ⟨e₀, he₀, hin, -⟩ | ⟨-, hin, -⟩
  · exact le_trans (hl e₀ he₀) (MemoryChunk.contains_iff.1 hin).1
  · exact le_trans hkey (MemoryChunk.contains_iff.1 hin).1

/-- The first entry lies before the request. -/
theorem Fragmented.skip {r : List (Entry V) × List MemoryChunk} (hl : Laid (e :: rest))
    (hbefore : e.1.stop ≤ key.addr) (h : Fragmented key rest r) :
    Fragmented key (e :: rest) (e :: r.1, r.2) where
  laid := by
    obtain ⟨hpos, hle, -⟩ := laid_cons.1 hl
    exact laid_cons.2 ⟨hpos, fun e' he' => h.le_addr hbefore hle he', h.laid⟩
  piece e' he' := by
    rcases List.mem_cons.1 he' with rfl | he'
    · exact .inl ⟨e', by simp, MemoryChunk.contains_iff.2 ⟨le_refl _, le_refl _⟩, rfl⟩
    · rcases h.piece e' he' with ⟨e₀, he₀, hin⟩ | ⟨hnone, hin, hgap⟩
      · exact .inl ⟨e₀, by simp [he₀], hin⟩
      · refine .inr ⟨hnone, hin, fun e₀ he₀ x hx hx₀ => ?_⟩
        rcases List.mem_cons.1 he₀ with rfl | he₀
        · have hkey := MemoryChunk.contains_inChunk hin hx
          exact absurd (lt_of_lt_of_le hx₀.2 (le_trans hbefore hkey.1)) (lt_irrefl _)
        · exact hgap e₀ he₀ x hx hx₀
  covered e₀ he₀ x hx := by
    rcases List.mem_cons.1 he₀ with rfl | he₀
    · exact ⟨e₀, by simp, hx⟩
    · obtain ⟨e', he', hx'⟩ := h.covered e₀ he₀ x hx
      exact ⟨e', by simp [he'], hx'⟩
  results k hk := by
    obtain ⟨v, hv⟩ := h.results k hk
    exact ⟨v, by simp [hv]⟩
  tiles := h.tiles

/-- The part of the first entry before the request is cut off. -/
theorem Fragmented.cutLeft {left right : MemoryChunk} {v : Option V}
    {r : List (Entry V) × List MemoryChunk} {hint : MemoryChunk} (hpos : 0 < left.len)
    (haddr : left.addr = hint.addr) (hkey : left.stop = key.addr) (hright : right.addr = key.addr)
    (hstop : right.stop = hint.stop) (hlt : right.addr ≤ right.stop)
    (hrest : ∀ e ∈ rest, hint.stop ≤ e.1.addr)
    (h : Fragmented key ((right, v) :: rest) r) :
    Fragmented key ((hint, v) :: rest) ((left, v) :: r.1, r.2) where
  laid := by
    refine laid_cons.2 ⟨hpos, fun e' he' => h.le_addr (le_of_eq hkey) (fun e he => ?_) he', h.laid⟩
    rcases List.mem_cons.1 he with rfl | he
    · dsimp only
      omega
    · have := hrest e he
      dsimp only at this ⊢
      omega
  piece e' he' := by
    rcases List.mem_cons.1 he' with rfl | he'
    · exact .inl ⟨(hint, v), by simp,
        MemoryChunk.contains_iff.2 ⟨by dsimp only; omega, by dsimp only; omega⟩, rfl⟩
    · rcases h.piece e' he' with ⟨e₀, he₀, hin, hval⟩ | ⟨hnone, hin, hgap⟩
      · rcases List.mem_cons.1 he₀ with rfl | he₀
        · have hin := MemoryChunk.contains_iff.1 hin
          simp only [MemoryChunk.stop] at hin hkey hstop
          exact .inl ⟨(hint, v), by simp, MemoryChunk.contains_iff.2
            ⟨by dsimp only; omega, by simp only [MemoryChunk.stop]; omega⟩, hval⟩
        · exact .inl ⟨e₀, by simp [he₀], hin, hval⟩
      · refine .inr ⟨hnone, hin, fun e₀ he₀ x hx hx₀ => ?_⟩
        rcases List.mem_cons.1 he₀ with rfl | he₀
        · have hkeyx := MemoryChunk.contains_inChunk hin hx
          refine hgap (right, v) (by simp) x hx ⟨?_, ?_⟩
          · rw [hright]
            exact hkeyx.1
          · rw [hstop]
            exact hx₀.2
        · exact hgap e₀ (by simp [he₀]) x hx hx₀
  covered e₀ he₀ x hx := by
    rcases List.mem_cons.1 he₀ with rfl | he₀
    · rcases lt_or_ge x left.stop with hx' | hx'
      · exact ⟨(left, v), by simp, by rw [haddr]; exact hx.1, hx'⟩
      · obtain ⟨e', he', hxe⟩ := h.covered (right, v) (by simp) x
          ⟨by dsimp only; omega, by rw [hstop]; exact hx.2⟩
        exact ⟨e', by simp [he'], hxe⟩
    · obtain ⟨e', he', hx'⟩ := h.covered e₀ (by simp [he₀]) x hx
      exact ⟨e', by simp [he'], hx'⟩
  results k hk := by
    obtain ⟨v, hv⟩ := h.results k hk
    exact ⟨v, by simp [hv]⟩
  tiles := h.tiles

/-- The request starts with the first entry and ends in it: the rest of the entry is cut off. -/
theorem Fragmented.cutRight {tail : MemoryChunk} {v : Option V} {hint : MemoryChunk}
    (hl : Laid ((hint, v) :: rest)) (hpos : 0 < key.len) (haddr : key.addr = hint.addr)
    (hnext : tail.addr = key.stop) (hstop : tail.stop = hint.stop) (hover : 0 < tail.len) :
    Fragmented key ((hint, v) :: rest) ((key, v) :: (tail, v) :: rest, [key]) where
  laid := by
    obtain ⟨-, hle, hrest⟩ := laid_cons.1 hl
    simp only [MemoryChunk.stop] at hnext hstop hle
    refine laid_cons.2 ⟨hpos, fun e he => ?_, laid_cons.2 ⟨hover, fun e he => ?_, hrest⟩⟩
    · rcases List.mem_cons.1 he with rfl | he
      · exact le_of_eq hnext.symm
      · have := hle e he
        simp only [MemoryChunk.stop]
        omega
    · have := hle e he
      simp only [MemoryChunk.stop]
      omega
  piece e he := by
    simp only [MemoryChunk.stop] at hnext hstop
    refine .inl ?_
    rcases List.mem_cons.1 he with rfl | he
    · exact ⟨(hint, v), by simp, MemoryChunk.contains_iff.2
        ⟨by dsimp only; omega, by simp only [MemoryChunk.stop]; omega⟩, rfl⟩
    · rcases List.mem_cons.1 he with rfl | he
      · exact ⟨(hint, v), by simp, MemoryChunk.contains_iff.2
          ⟨by dsimp only; omega, by simp only [MemoryChunk.stop]; omega⟩, rfl⟩
      · exact ⟨e, by simp [he], MemoryChunk.contains_iff.2 ⟨le_refl _, le_refl _⟩, rfl⟩
  covered e₀ he₀ x hx := by
    rcases List.mem_cons.1 he₀ with rfl | he₀
    · rcases lt_or_ge x key.stop with hx' | hx'
      · exact ⟨(key, v), by simp, by rw [haddr]; exact hx.1, hx'⟩
      · exact ⟨(tail, v), by simp, by rw [hnext]; exact hx', by rw [hstop]; exact hx.2⟩
    · exact ⟨e₀, by simp [he₀], hx⟩
  results k hk := ⟨v, by rw [List.mem_singleton.1 hk]; simp⟩
  tiles := tiles_single key

/-- The request is the first entry. -/
theorem Fragmented.exact {v : Option V} (hl : Laid ((key, v) :: rest)) :
    Fragmented key ((key, v) :: rest) ((key, v) :: rest, [key]) where
  laid := hl
  piece e he := .inl ⟨e, he, MemoryChunk.contains_iff.2 ⟨le_refl _, le_refl _⟩, rfl⟩
  covered e₀ he₀ x hx := ⟨e₀, he₀, hx⟩
  results k hk := ⟨v, by rw [List.mem_singleton.1 hk]; simp⟩
  tiles := tiles_single key

/-- The request starts with the first entry and goes on behind it. -/
theorem Fragmented.pass {key' : MemoryChunk} {r : List (Entry V) × List MemoryChunk}
    (hl : Laid (e :: rest)) (haddr : e.1.addr = key.addr) (hnext : key'.addr = e.1.stop)
    (hstop : key'.stop = key.stop) (hkey' : key'.addr ≤ key'.stop) (h : Fragmented key' rest r) :
    Fragmented key (e :: rest) (e :: r.1, e.1 :: r.2) := by
  have hskip := Fragmented.skip hl (le_of_eq hnext.symm) h
  have hlt := hl.addr_lt_stop (e := e) (by simp)
  refine ⟨hskip.laid, fun e' he' => ?_, hskip.covered, fun k hk => ?_,
    tiles_cons haddr hnext hstop (le_of_lt hlt) hkey' h.tiles⟩
  · refine (hskip.piece e' he').imp_right fun ⟨hnone, hin, hgap⟩ => ⟨hnone, ?_, hgap⟩
    have hin := MemoryChunk.contains_iff.1 hin
    exact MemoryChunk.contains_iff.2 ⟨by omega, by omega⟩
  · rcases List.mem_cons.1 hk with rfl | hk
    · exact ⟨e.2, by simp⟩
    · exact hskip.results k hk

/-- A gap of the request before all entries gets an entry. -/
theorem Fragmented.gap {left key' : MemoryChunk} {r : List (Entry V) × List MemoryChunk}
    (hpos : 0 < left.len) (haddr : left.addr = key.addr) (hnext : key'.addr = left.stop)
    (hstop : key'.stop = key.stop) (hkey' : key'.addr ≤ key'.stop)
    (hbefore : ∀ e ∈ l, left.stop ≤ e.1.addr) (h : Fragmented key' l r) :
    Fragmented key l ((left, none) :: r.1, left :: r.2) where
  laid := laid_cons.2 ⟨hpos, fun _ he' => h.le_addr (le_of_eq hnext.symm) hbefore he', h.laid⟩
  piece e' he' := by
    have hleft : left.addr < left.stop := by simp only [MemoryChunk.stop]; omega
    rcases List.mem_cons.1 he' with rfl | he'
    · refine .inr ⟨rfl, MemoryChunk.contains_iff.2 ⟨by dsimp only; omega, by dsimp only; omega⟩, ?_⟩
      intro e₀ he₀ x hx hx₀
      exact absurd (lt_of_lt_of_le hx.2 (le_trans (hbefore e₀ he₀) hx₀.1)) (lt_irrefl _)
    · refine (h.piece e' he').imp_right fun ⟨hnone, hin, hgap⟩ => ⟨hnone, ?_, hgap⟩
      have hin := MemoryChunk.contains_iff.1 hin
      exact MemoryChunk.contains_iff.2 ⟨by omega, by omega⟩
  covered e₀ he₀ x hx := by
    obtain ⟨e', he', hx'⟩ := h.covered e₀ he₀ x hx
    exact ⟨e', by simp [he'], hx'⟩
  results k hk := by
    rcases List.mem_cons.1 hk with rfl | hk
    · exact ⟨none, by simp⟩
    · obtain ⟨v, hv⟩ := h.results k hk
      exact ⟨v, by simp [hv]⟩
  tiles := by
    have hleft : left.addr < left.stop := by simp only [MemoryChunk.stop]; omega
    exact tiles_cons haddr hnext hstop (le_of_lt hleft) hkey' h.tiles

/-- A request in a gap before all entries. -/
theorem Fragmented.before (hl : Laid l) (hpos : 0 < key.len) (hbefore : ∀ e ∈ l, key.stop ≤ e.1.addr) :
    Fragmented key l ((key, none) :: l, [key]) where
  laid := laid_cons.2 ⟨hpos, hbefore, hl⟩
  piece e' he' := by
    rcases List.mem_cons.1 he' with rfl | he'
    · refine .inr ⟨rfl, MemoryChunk.contains_iff.2 ⟨le_refl _, le_refl _⟩, fun e₀ he₀ x hx hx₀ => ?_⟩
      exact absurd (lt_of_lt_of_le hx.2 (le_trans (hbefore e₀ he₀) hx₀.1)) (lt_irrefl _)
    · exact .inl ⟨e', he', MemoryChunk.contains_iff.2 ⟨le_refl _, le_refl _⟩, rfl⟩
  covered e₀ he₀ x hx := ⟨e₀, by simp [he₀], hx⟩
  results k hk := ⟨none, by rw [List.mem_singleton.1 hk]; simp⟩
  tiles := tiles_single key

theorem insertWithOverlap_fragmented (hl : Laid l) (hpos : 0 < key.len) :
    Fragmented key l (insertWithOverlap key l) := by
  induction l generalizing key with
  | nil => exact .before .nil hpos (by simp)
  | cons e rest ih =>
    obtain ⟨hint, v⟩ := e
    obtain ⟨hhint, hle, hrest⟩ := laid_cons.1 hl
    dsimp only at hhint hle
    rw [insertWithOverlap]
    split
    · next heq =>
      subst heq
      exact .exact hl
    · next hne =>
      have hov := hint.checkOverlap_holds key hhint
      have hbehind : ∀ e' ∈ (hint, v) :: rest, hint.addr ≤ e'.1.addr := by
        intro e' he'
        rcases List.mem_cons.1 he' with rfl | he'
        · exact le_refl _
        · have := hle e' he'
          simp only [MemoryChunk.stop] at this
          omega
      have hlen : hint.addr = key.addr → hint.len ≠ key.len := by
        intro haddr hlen
        obtain ⟨addr, len⟩ := hint
        obtain ⟨addr', len'⟩ := key
        exact hne (by simp only at haddr hlen; rw [haddr, hlen])
      -- the rest of an entry the request starts in
      have hright : ∀ a, hint.addr < a → a < hint.stop →
          Laid ((⟨a, hint.stop - a⟩, v) :: rest) := by
        intro a ha ha'
        refine laid_cons.2 ⟨by dsimp only; omega, fun e' he' => ?_, hrest⟩
        have := hle e' he'
        simp only [MemoryChunk.stop] at this ha' ⊢
        omega
      simp only [MemoryChunk.stop] at hright
      cases htype : hint.checkOverlap key <;> rw [htype] at hov <;> dsimp only <;>
        simp only [OverlapType.Holds, MemoryChunk.stop] at hov
      case noOverlap =>
        split
        · refine .before hl hpos fun e' he' => le_trans ?_ (hbehind e' he')
          simp only [MemoryChunk.stop]
          omega
        · exact .skip hl (by simp only [MemoryChunk.stop]; omega) (ih hrest hpos)
      case beginOverlap =>
        refine @Fragmented.gap _ _ _ _ ⟨hint.addr, key.stop - hint.addr⟩ _ ?_ ?_ ?_ ?_ ?_ (fun e' he' =>
            le_trans ?_ (hbehind e' he')) (@Fragmented.cutRight _ _ _ _ _ _ hl ?_ ?_ ?_ ?_ ?_) <;>
          simp only [MemoryChunk.intersect, MemoryChunk.stop] <;> omega
      case endOverlap =>
        have hpos' : 0 < (hint.intersect key).2.2.len := by
          simp only [MemoryChunk.intersect]
          omega
        have hcut := hright key.addr (by omega) (by omega)
        refine @Fragmented.cutLeft _ _ _ _ ⟨key.addr, hint.addr + hint.len - key.addr⟩ _ _ _ ?_ ?_ ?_ ?_ ?_
            ?_ hle (.pass hcut ?_ ?_ ?_ ?_ (ih hrest hpos')) <;>
          simp only [MemoryChunk.intersect, MemoryChunk.stop] <;> omega
      case totalOverlap =>
        have hpos' : 0 < (key.partition hint).2.len := by
          simp only [MemoryChunk.partition]
          omega
        refine @Fragmented.gap _ _ _ _ ⟨hint.addr, key.stop - hint.addr⟩ _ ?_ ?_ ?_ ?_ ?_ (fun e' he' =>
            le_trans ?_ (hbehind e' he')) (.pass hl ?_ ?_ ?_ ?_ (ih hrest hpos')) <;>
          simp only [MemoryChunk.partition, MemoryChunk.stop] <;> omega
      case subchunkOverlap =>
        have hcut := hright key.addr (by omega) (by omega)
        refine @Fragmented.cutLeft _ _ _ _ ⟨key.addr, hint.addr + hint.len - key.addr⟩ _ _ _ ?_ ?_ ?_ ?_ ?_
            ?_ hle (.cutRight hcut hpos ?_ ?_ ?_ ?_) <;>
          simp only [MemoryChunk.partition, MemoryChunk.stop] <;> omega
      case totalBeginOverlap =>
        have hpos' : 0 < (hint.partitionBeginAltB key).len := by
          simp only [MemoryChunk.partitionBeginAltB]
          omega
        refine .pass hl ?_ ?_ ?_ ?_ (ih hrest hpos') <;>
          simp only [MemoryChunk.partitionBeginAltB, MemoryChunk.stop] <;> omega
      case subchunkBeginOverlap =>
        have hlen := hlen hov.1
        have hkey : (hint.partitionBeginAgtB key).1 = key := by
          obtain ⟨addr, len⟩ := hint
          obtain ⟨addr', len'⟩ := key
          simp only [MemoryChunk.partitionBeginAgtB, MemoryChunk.mk.injEq] at hov ⊢
          omega
        rw [hkey]
        refine .cutRight hl hpos hov.1.symm ?_ ?_ ?_ <;>
          simp only [MemoryChunk.partitionBeginAgtB, MemoryChunk.stop] <;> omega
      case totalEndOverlap =>
        refine .gap ?_ ?_ ?_ ?_ ?_ (fun e' he' => le_trans ?_ (hbehind e' he')) (.exact hl) <;>
          simp only [MemoryChunk.partitionEnd, MemoryChunk.stop] <;> omega
      case subchunkEndOverlap =>
        have hkey : (⟨key.addr, hint.addr + hint.len - key.addr⟩ : MemoryChunk) = key := by
          obtain ⟨addr, len⟩ := key
          dsimp only at hov ⊢
          rw [MemoryChunk.mk.injEq]
          omega
        have hcut := hright key.addr (by omega) (by omega)
        rw [hkey] at hcut
        refine .cutLeft ?_ ?_ ?_ ?_ ?_ ?_ hle (.exact hcut) <;>
          simp only [MemoryChunk.partitionEnd, MemoryChunk.stop] <;> omega

/-- Entries that end before the request stay in front. -/
theorem Fragmented.append {pre : List (Entry V)} {r : List (Entry V) × List MemoryChunk}
    (hl : Laid (pre ++ l)) (hpre : ∀ e ∈ pre, e.1.stop ≤ key.addr) (h : Fragmented key l r) :
    Fragmented key (pre ++ l) (pre ++ r.1, r.2) := by
  induction pre with
  | nil => exact h
  | cons e pre ih =>
    refine Fragmented.skip hl (hpre e (by simp)) (ih (laid_cons.1 hl).2.2 fun e' he' => ?_)
    exact hpre e' (by simp [he'])

/-- Source: `MemoryMap::getOrAddChunk` (`memorymap.hpp:1167`). -/
def getOrFragment (l : List (Entry V)) (key : MemoryChunk) : List (Entry V) × List MemoryChunk :=
  if exactKey l key then (l, [key])
  else
    let r := insertWithOverlap key (splitAtHint l key.addr).2
    ((splitAtHint l key.addr).1 ++ r.1, r.2)

theorem getOrFragment_fragmented (hl : Laid l) (hpos : 0 < key.len) :
    Fragmented key l (getOrFragment l key) := by
  unfold getOrFragment
  split
  · next hexact =>
    obtain ⟨v, hmem, -⟩ := mem_of_exactKey hexact
    exact ⟨hl, fun e he => .inl ⟨e, he, MemoryChunk.contains_iff.2 ⟨le_refl _, le_refl _⟩, rfl⟩,
      fun e₀ he₀ x hx => ⟨e₀, he₀, hx⟩, fun k hk => ⟨v, by rw [List.mem_singleton.1 hk]; exact hmem⟩,
      tiles_single key⟩
  · have hsplit := splitAtHint_append l key.addr
    rw [← hsplit] at hl
    have hins := Fragmented.append hl
      (fun e he => stop_le_of_mem_splitAtHint (hsplit ▸ hl) he)
      (insertWithOverlap_fragmented (laid_append.1 hl).2.1 hpos)
    rwa [hsplit] at hins

/-! ## Looking up a request -/

/-- The walk of `getWithOverlapNoExactKey` from an entry on. When the map ends before the request does,
nothing is added for the rest. Source: `memorymap.hpp:1086`. -/
def getFrom (iterKey : MemoryChunk) : List (Entry V) → List (Entry V)
  | [] => []
  | (hint, v) :: rest =>
    if hint = iterKey then [(hint, v)]
    else match hint.checkOverlap iterKey with
      | .noOverlap => if iterKey.addr < hint.addr then [(iterKey, none)] else getFrom iterKey rest
      | .beginOverlap => [((iterKey.intersect hint).1, none), (hint, v)]
      | .endOverlap => (hint, v) :: getFrom (hint.intersect iterKey).2.2 rest
      | .totalOverlap =>
        ((iterKey.partition hint).1, none) :: (hint, v) :: getFrom (iterKey.partition hint).2 rest
      | .totalBeginOverlap => (hint, v) :: getFrom (hint.partitionBeginAltB iterKey) rest
      | .totalEndOverlap => [(iterKey.partitionEnd hint, none), (hint, v)]
      | .subchunkOverlap | .subchunkBeginOverlap | .subchunkEndOverlap => [(hint, v)]

/-- The first entry of the answer is the one in which the request starts. -/
theorem getFrom_head? (hl : Laid l) (hpos : 0 < key.len) (he : e ∈ l) (hx : e.1.InChunk key.addr) :
    (getFrom key l).head? = some e := by
  induction l with
  | nil => cases he
  | cons a rest ih =>
    obtain ⟨hint, v⟩ := a
    obtain ⟨hhint, hle, hrest⟩ := laid_cons.1 hl
    have hov := hint.checkOverlap_holds key hhint
    simp only [MemoryChunk.InChunk, MemoryChunk.stop] at hx hle
    rw [getFrom]
    rcases List.mem_cons.1 he with rfl | hmem
    · split
      · rfl
      · cases htype : hint.checkOverlap key <;> rw [htype] at hov <;>
          simp only [OverlapType.Holds, MemoryChunk.stop] at hov <;> dsimp only at hx hhint <;>
          first | rfl | omega
    · -- an earlier entry ends before the request starts
      have hbefore := hle e hmem
      dsimp only at hbefore hhint
      have hne : hint ≠ key := by
        rintro rfl
        omega
      have hno : hint.checkOverlap key = .noOverlap := by
        unfold MemoryChunk.checkOverlap
        rw [if_pos (by omega), if_neg (by omega)]
      rw [if_neg hne, hno]
      dsimp only
      rw [if_neg (by omega)]
      exact ih hrest hmem

end

/-! ## Maps -/

/-- Source: `MemoryMap` (`memorymap_decl.hpp:93`). -/
structure MemoryMap (V : Type*) where
  entries : List (Entry V)
  laid : Laid entries

namespace MemoryMap

section
variable {V : Type*} {m : MemoryMap V} {e : Entry V} {key k : MemoryChunk}

def empty : MemoryMap V := ⟨[], .nil⟩

/-- The map with its entries cut at the bounds of the request and an entry for every gap of it, and the
intervals that make it up. Source: `MemoryMap::getOrAddChunk` (`memorymap.hpp:1167`). -/
def getOrAddChunk (m : MemoryMap V) (key : MemoryChunk) (hpos : 0 < key.len) :
    MemoryMap V × List MemoryChunk :=
  (⟨(getOrFragment m.entries key).1, (getOrFragment_fragmented m.laid hpos).laid⟩,
    (getOrFragment m.entries key).2)

/-- The map with an entry for every gap of the request, and the intervals of the entries that meet it.
The source requires a request of positive length. Source: `MemoryMap::getOrAddChunkDoNotFragment`
(`memorymap.hpp:1148`). -/
def getOrAddChunkDoNotFragment (m : MemoryMap V) (key : MemoryChunk) (hpos : 0 < key.len) :
    MemoryMap V × List MemoryChunk :=
  (⟨(getOrAddFrom m.entries key).1, (getOrAddFrom_inserted m.laid hpos).laid⟩,
    (getOrAddFrom m.entries key).2)

/-- Source: `MemoryMap::getChunk` (`memorymap.hpp:1186`). -/
def getChunk (m : MemoryMap V) (key : MemoryChunk) : List (Entry V) :=
  if exactKey m.entries key then [(key, ((lowerBound m.entries key.addr).head?.bind (·.2)))]
  else if m.entries.isEmpty then [(key, none)]
  else getFrom key (splitAtHint m.entries key.addr).2

/-- Reading through the pointer to the value of the entry `k`. -/
def valueOf (m : MemoryMap V) (k : MemoryChunk) : Option V :=
  (m.entries.find? fun e => decide (e.1 = k)).bind (·.2)

/-- Writing through the pointer to the value of the entry `k`. -/
def assign (m : MemoryMap V) (k : MemoryChunk) (v : Option V) : MemoryMap V where
  entries := m.entries.map fun e => if e.1 = k then (e.1, v) else e
  laid := by
    have hkey : ∀ e : Entry V, (if e.1 = k then (e.1, v) else e).1 = e.1 := fun e => by split <;> rfl
    refine ⟨List.pairwise_map.2 (m.laid.ordered.imp fun {a b} hab => ?_), fun e he => ?_⟩
    · rwa [hkey a, hkey b]
    · obtain ⟨e', he', rfl⟩ := List.mem_map.1 he
      rw [hkey e']
      exact m.laid.nonempty e' he'

/-- Writing through the pointers to the values of the entries in `ks`. -/
def update (m : MemoryMap V) (ks : List MemoryChunk) (f : Option V → Option V) : MemoryMap V where
  entries := m.entries.map fun e => if e.1 ∈ ks then (e.1, f e.2) else e
  laid := by
    have hkey : ∀ e : Entry V, (if e.1 ∈ ks then (e.1, f e.2) else e).1 = e.1 := fun e => by split <;> rfl
    refine ⟨List.pairwise_map.2 (m.laid.ordered.imp fun {a b} hab => ?_), fun e he => ?_⟩
    · rwa [hkey a, hkey b]
    · obtain ⟨e', he', rfl⟩ := List.mem_map.1 he
      rw [hkey e']
      exact m.laid.nonempty e' he'

/-- The map without the run of entries inside `key` that starts at its `lower_bound`. Source:
`MemoryMap::removeChunks` (`memorymap.hpp:1305`). -/
def removeChunks (m : MemoryMap V) (key : MemoryChunk) : MemoryMap V where
  entries := below m.entries key.addr ++
    (lowerBound m.entries key.addr).dropWhile fun e => key.contains e.1
  laid := by
    have hsub : (below m.entries key.addr ++
        (lowerBound m.entries key.addr).dropWhile fun e => key.contains e.1).Sublist m.entries := by
      conv_rhs => rw [← List.takeWhile_append_dropWhile (p := fun e => decide (e.1.addr < key.addr))
        (l := m.entries)]
      exact (List.Sublist.refl _).append (List.dropWhile_sublist _)
    exact ⟨m.laid.ordered.sublist hsub, fun e he => m.laid.nonempty e (hsub.subset he)⟩

theorem getOrAddChunkDoNotFragment_inserted (m : MemoryMap V) (hpos : 0 < key.len) :
    Inserted key m.entries ((m.getOrAddChunkDoNotFragment key hpos).1.entries,
      (m.getOrAddChunkDoNotFragment key hpos).2) :=
  getOrAddFrom_inserted m.laid hpos

theorem getOrAddChunk_fragmented (m : MemoryMap V) (hpos : 0 < key.len) :
    Fragmented key m.entries ((m.getOrAddChunk key hpos).1.entries, (m.getOrAddChunk key hpos).2) :=
  getOrFragment_fragmented m.laid hpos

/-- Two entries that share an address are one. -/
theorem eq_of_inChunk {e' : Entry V} (he : e ∈ m.entries) (he' : e' ∈ m.entries) {x : Nat}
    (hx : e.1.InChunk x) (hx' : e'.1.InChunk x) : e = e' :=
  m.laid.eq_of_inChunk he he' hx hx'

/-- An interval has one entry. -/
theorem eq_of_key {e' : Entry V} (he : e ∈ m.entries) (he' : e' ∈ m.entries) (h : e.1 = e'.1) :
    e = e' := by
  have hlt := m.laid.addr_lt_stop he
  exact eq_of_inChunk he he' ⟨le_refl _, hlt⟩ (h ▸ ⟨le_refl _, hlt⟩)

theorem mem_assign {v : Option V} :
    e ∈ (m.assign k v).entries ↔
      (e ∈ m.entries ∧ e.1 ≠ k) ∨ (e = (k, v) ∧ ∃ w, (k, w) ∈ m.entries) := by
  simp only [assign, List.mem_map]
  constructor
  · rintro ⟨e', he', rfl⟩
    split
    · next hk => exact .inr ⟨by rw [hk], e'.2, hk ▸ he'⟩
    · next hk => exact .inl ⟨he', hk⟩
  · rintro (⟨he, hk⟩ | ⟨rfl, w, hw⟩)
    · exact ⟨e, he, if_neg hk⟩
    · exact ⟨(k, w), hw, if_pos rfl⟩

theorem valueOf_eq {v : Option V} (h : (k, v) ∈ m.entries) : m.valueOf k = v := by
  have hsome : (m.entries.find? fun e => decide (e.1 = k)).isSome :=
    List.find?_isSome.2 ⟨(k, v), h, by simp⟩
  obtain ⟨e, he⟩ := Option.isSome_iff_exists.1 hsome
  have hkey : e.1 = k := by simpa using List.find?_some he
  rw [valueOf, he, eq_of_key (List.mem_of_find?_eq_some he) h hkey]
  rfl

/-- A lookup returns first the entry in which the request starts. -/
theorem getChunk_head? (hpos : 0 < key.len) (he : e ∈ m.entries) (hx : e.1.InChunk key.addr) :
    (m.getChunk key).head? = some e := by
  unfold getChunk
  split
  · next hexact =>
    obtain ⟨v, hmem, rest, hlb⟩ := mem_of_exactKey hexact
    have hkey : key.InChunk key.addr := ⟨le_refl _, by simp only [MemoryChunk.stop]; omega⟩
    rw [hlb, ← eq_of_inChunk hmem he hkey hx]
    rfl
  · have hne : m.entries.isEmpty = false := by
      cases hl : m.entries with
      | nil => rw [hl] at he; cases he
      | cons => rfl
    rw [hne, if_neg (by simp)]
    have hsplit := splitAtHint_append m.entries key.addr
    have hl := m.laid
    rw [← hsplit] at hl he
    refine getFrom_head? (laid_append.1 hl).2.1 hpos ?_ hx
    rcases List.mem_append.1 he with he | he
    · have := stop_le_of_mem_splitAtHint m.laid he
      exact absurd (lt_of_lt_of_le hx.2 this) (lt_irrefl _)
    · exact he

end

end MemoryMap

end OmpSs.Support
