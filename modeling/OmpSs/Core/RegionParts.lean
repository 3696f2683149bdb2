import OmpSs.Core.RegionDict
import Mathlib.Data.List.Induction
import Mathlib.Data.List.Sort

/-!
# The parts of a registered region

`addRegionAndComputeIntersects` (`nanox-mx/src/core/regiondict.hpp:613`). For every dimension the
dictionary has a map from intervals to the set of the regions registered over them. A region that is
registered cuts these maps at its bounds; the intervals inside it are combined to the parts of the region,
and each part is given a parent: of the regions that were registered over it in all dimensions the one
with the greatest version, or the region itself. Then the region joins the sets, unless it is the whole
object (number 1), which never does.

`PartDictionary` is a dictionary with the tree of regions (`dict`), these maps, and the versions in the
entries of the regions. The last field, `registered`, is not in the source: the regions that were
registered.
-/

namespace OmpSs.Core

open Lib Support

/-! ## The program -/

/-- The interval of a span. -/
def Span.chunk (s : Span) : MemoryChunk := ⟨s.lowerBound, s.accessedLength⟩

/-- An interval of one dimension with the regions registered over it, in the order of their numbers. -/
abbrev Piece := MemoryChunk × List Nat

/-- Source: `std::set< reg_t >::insert`. -/
def insertReg (id : Nat) (regs : List Nat) : List Nat :=
  if id ∈ regs then regs else regs.orderedInsert (· ≤ ·) id

namespace Parts

/-- The three variables of the loop that looks for the parent. -/
structure Selection where
  currentVersion : Nat := 0
  maxVersionReg : Nat := 0
  ownVersion : Nat := 0

/-- The body of the loop. Source: `regiondict.hpp:656`. -/
def select (version : Nat → Nat) (thisId : Nat) (sel : Selection) (reg : Nat) : Selection :=
  let thisVersion := version reg
  let ownVersion := if reg = thisId then thisVersion else sel.ownVersion
  if thisVersion > sel.currentVersion then ⟨thisVersion, reg, ownVersion⟩
  else { sel with ownVersion := ownVersion }

/-- The regions in the sets of all dimensions; the whole object counts for itself. Source:
`regiondict.hpp:632`. -/
def metadataRegs (thisId : Nat) : List Piece → List Nat
  | [] => []
  | first :: rest =>
    let regs := first.2.filter fun reg => rest.all fun piece => decide (reg ∈ piece.2)
    if thisId = 1 then insertReg 1 regs else regs

/-- The parent of the part with the given pieces, where no set is empty. Source: `regiondict.hpp:630`. -/
def parentReg (version : Nat → Nat) (thisId : Nat) (pieces : List Piece) : Nat :=
  let sel := (metadataRegs thisId pieces).foldl (select version thisId) {}
  let maxVersionReg :=
    if sel.ownVersion = sel.currentVersion ∧ sel.maxVersionReg ≠ 0 then thisId else sel.maxVersionReg
  if maxVersionReg ≠ 0 then maxVersionReg else thisId

/-- The entry for a part in `resulting_regions`, a map from the parents to the sets of their parts: the
pairs of a parent and a part in their order. -/
def insertPart (parent part : Nat) (l : List (Nat × Nat)) : List (Nat × Nat) :=
  if (parent, part) ∈ l then l
  else l.orderedInsert (fun p q => p.1 < q.1 ∨ p.1 = q.1 ∧ p.2 ≤ q.2) (parent, part)

/-- The bounds of the part with the given pieces. -/
def bounds (pieces : List Piece) : List Span := pieces.map fun piece => ⟨piece.1.addr, piece.1.len⟩

/-- The end of the recursion, where a piece of every dimension is chosen. -/
def addPart (version : Nat → Nat) (thisId : Nat) (pieces : List Piece) (computeRegion : Bool)
    (s : RegionDictionary × List (Nat × Nat)) : RegionDictionary × List (Nat × Nat) :=
  let parent := if computeRegion then parentReg version thisId pieces else thisId
  let r := s.1.addRegion (bounds pieces)
  (r.2, insertPart parent r.1 s.2)

/-- The loops over the pieces of the dimensions, the outermost dimension first. Source: `_recursive`
(`regiondict.hpp:619`). -/
def recursive (version : Nat → Nat) (thisId : Nat) :
    List (List Piece) → List Piece → Bool → RegionDictionary × List (Nat × Nat) →
      RegionDictionary × List (Nat × Nat)
  | [], pieces, computeRegion, s => addPart version thisId pieces computeRegion s
  | results :: rest, pieces, computeRegion, s =>
    results.foldl (fun s piece =>
      recursive version thisId rest (piece :: pieces) (computeRegion && !piece.2.isEmpty) s) s

end Parts

/-- A dictionary that regions are registered in; `sparse` tells the one of a cache
(`ContainerSparse`) from the one of the directory (`ContainerDense`). -/
structure PartDictionary where
  dict : RegionDictionary
  intersects : List (MemoryMap (List Nat))
  data : Nat → Option Nat
  sparse : Bool
  registered : List Nat

namespace PartDictionary

/-- Source: `_intersects[ idx ].getOrAddChunk` (`regiondict.hpp:704`). The bounds of a region are never
empty. -/
def getOrAddSpan (m : MemoryMap (List Nat)) (s : Span) : MemoryMap (List Nat) × List MemoryChunk :=
  if hpos : 0 < s.accessedLength then m.getOrAddChunk s.chunk hpos else (m, [])

/-- The intervals that were found, with their sets; an interval without a set gets an empty one. -/
def piecesOf (found : MemoryMap (List Nat) × List MemoryChunk) : List Piece :=
  found.2.map fun k => (k, (found.1.valueOf k).getD [])

/-- The map after the region is noted in the sets of the intervals that were found. Source:
`regiondict.hpp:720`. -/
def note (id : Nat) (found : MemoryMap (List Nat) × List MemoryChunk) : MemoryMap (List Nat) :=
  found.1.update found.2 fun set =>
    let regs := set.getD []
    some (if id ≠ 1 then insertReg id regs else regs)

/-- The version the loop over the candidates sees. -/
def getVersion (s : PartDictionary) (id : Nat) : Nat := (s.data id).getD 0

/-- The version a parent contributes to the result: without an entry 1, in a cache 0. Source:
`regiondict.hpp:739`. -/
def entryVersion (s : PartDictionary) (id : Nat) : Nat := (s.data id).getD (if s.sparse then 0 else 1)

/-- The parts of a region, each with its parent, the version, and the dictionary after the registration;
`version` is the value the variable passed in has before. Source: `registerRegion`
(`regiondict.hpp:797`). -/
def registerRegion (s : PartDictionary) (id version : Nat) :
    Option (List (Nat × Nat) × Nat × PartDictionary) :=
  (s.dict.getRegionNode id).map fun leaf =>
    let found := List.zipWith getOrAddSpan s.intersects leaf.box
    let r := Parts.recursive s.getVersion id (found.map piecesOf).reverse [] true (s.dict, [])
    (r.2.map fun p => (p.2, p.1),
      r.2.foldl (fun v p => if s.entryVersion p.1 > v then s.entryVersion p.1 else v) version,
      { s with dict := r.1, intersects := found.map (note id), registered := id :: s.registered })

/-- The dictionary of an object of `n` dimensions, or of a cache over it, before any registration.
Source: the constructors (`regiondict.hpp:433`, `:453`). -/
def new (n : Nat) (sparse : Bool) (dict : RegionDictionary) : PartDictionary where
  dict := dict
  intersects := List.replicate n .empty
  data := fun _ => none
  sparse := sparse
  registered := []

/-- What happens to a dictionary: calls on the tree of regions, registrations, and new versions of
regions. -/
inductive Event
  | call (c : RegionDictionary.Call)
  | registerRegion (id version : Nat)
  | setVersion (id version : Nat)
deriving DecidableEq

def step (s : PartDictionary) : Event → Option PartDictionary
  | .call c => (s.dict.step c).map fun d => { s with dict := d }
  | .registerRegion id version => (s.registerRegion id version).map (·.2.2)
  | .setVersion id version =>
    (s.dict.getRegionNode id).map fun _ => { s with data := Function.update s.data id (some version) }

/-- The calls on the tree are as it demands. -/
def Event.Ok (n : Nat) (s : PartDictionary) : Event → Prop
  | .call c => c.Ok n s.dict
  | .registerRegion _ _ | .setVersion _ _ => True

instance (n : Nat) (s : PartDictionary) (e : Event) : Decidable (e.Ok n s) := by
  cases e with
  | call c => exact inferInstanceAs (Decidable (c.Ok n s.dict))
  | registerRegion id version => exact inferInstanceAs (Decidable True)
  | setVersion id version => exact inferInstanceAs (Decidable True)

end PartDictionary

/-! ## The parent of a part -/

@[simp] theorem mem_insertReg {id r : Nat} {regs : List Nat} : r ∈ insertReg id regs ↔ r = id ∨ r ∈ regs := by
  unfold insertReg
  split
  · next h =>
    constructor
    · exact .inr
    · rintro (rfl | h')
      · exact h
      · exact h'
  · exact List.mem_orderedInsert _

namespace Parts

variable {version : Nat → Nat} {thisId : Nat} {pieces : List Piece}

/-- What the loop over the candidates `l` knows: the greatest version and a region that has it, where it
is above 0, and the version of the region itself, where it is a candidate. -/
structure Selected (version : Nat → Nat) (thisId : Nat) (l : List Nat) (sel : Selection) : Prop where
  bound : ∀ r ∈ l, version r ≤ sel.currentVersion
  chosen : sel.currentVersion = 0 ∧ sel.maxVersionReg = 0 ∨
    0 < sel.currentVersion ∧ sel.maxVersionReg ∈ l ∧ version sel.maxVersionReg = sel.currentVersion
  own : thisId ∈ l ∧ sel.ownVersion = version thisId ∨ thisId ∉ l ∧ sel.ownVersion = 0

theorem Selected.step {l : List Nat} {sel : Selection} {r : Nat} (h : Selected version thisId l sel) :
    Selected version thisId (l ++ [r]) (select version thisId sel r) := by
  have hown : thisId ∈ l ++ [r] ∧
        (if r = thisId then version r else sel.ownVersion) = version thisId ∨
      thisId ∉ l ++ [r] ∧ (if r = thisId then version r else sel.ownVersion) = 0 := by
    split
    · next hr => exact .inl ⟨by simp [hr], by rw [hr]⟩
    · next hr =>
      have hmem : thisId ∈ l ++ [r] ↔ thisId ∈ l := by simp [eq_comm (b := r), hr]
      rw [hmem]
      exact h.own
  unfold select
  dsimp only
  split
  · next hgt =>
    refine ⟨fun r' hr' => ?_, .inr ⟨by dsimp only; omega, by simp, rfl⟩, hown⟩
    rcases List.mem_append.1 hr' with hr' | hr'
    · exact le_of_lt (lt_of_le_of_lt (h.bound r' hr') hgt)
    · rw [List.mem_singleton.1 hr']
  · next hle =>
    refine ⟨fun r' hr' => ?_, ?_, hown⟩
    · rcases List.mem_append.1 hr' with hr' | hr'
      · exact h.bound r' hr'
      · rw [List.mem_singleton.1 hr']
        exact Nat.le_of_not_lt hle
    · exact h.chosen.imp_right fun ⟨hpos, hmem, hv⟩ => ⟨hpos, by simp [hmem], hv⟩

theorem foldl_selected (l : List Nat) :
    Selected version thisId l (l.foldl (select version thisId) {}) := by
  induction l using List.reverseRecOn with
  | nil => exact ⟨by simp, .inl ⟨rfl, rfl⟩, .inr ⟨by simp, rfl⟩⟩
  | append_singleton l r ih =>
    rw [List.foldl_append]
    exact ih.step

/-- The candidates are the regions in all sets, and the whole object for itself. -/
theorem mem_metadataRegs {r : Nat} (hne : pieces ≠ []) :
    r ∈ metadataRegs thisId pieces ↔ (∀ piece ∈ pieces, r ∈ piece.2) ∨ r = 1 ∧ thisId = 1 := by
  cases pieces with
  | nil => exact absurd rfl hne
  | cons first rest =>
    have hall : r ∈ (first.2.filter fun reg => rest.all fun piece => decide (reg ∈ piece.2)) ↔
        ∀ piece ∈ first :: rest, r ∈ piece.2 := by
      simp only [List.mem_filter, List.all_eq_true, decide_eq_true_eq, List.forall_mem_cons]
    unfold metadataRegs
    dsimp only
    split
    · next h1 => rw [mem_insertReg, hall, or_comm, h1, and_iff_left rfl]
    · next h1 => rw [hall, and_iff_right_of_imp, or_iff_left] <;> simp [h1]

/-- The parent is a candidate or the region itself, and no candidate has a greater version. -/
theorem parentReg_spec (hpos : ∀ r ∈ metadataRegs thisId pieces, r ≠ 0) :
    (parentReg version thisId pieces ∈ metadataRegs thisId pieces ∨
        parentReg version thisId pieces = thisId) ∧
      ∀ r ∈ metadataRegs thisId pieces, version r ≤ version (parentReg version thisId pieces) := by
  have hsel : Selected version thisId _ _ := foldl_selected (metadataRegs thisId pieces)
  unfold parentReg
  dsimp only
  generalize (metadataRegs thisId pieces).foldl (select version thisId) {} = sel at hsel ⊢
  rcases hsel.chosen with ⟨hzero, hmax⟩ | ⟨hcur, hmem, hv⟩
  · -- every candidate has version 0
    rw [hmax]
    simp only [ne_eq, not_true_eq_false, and_false, if_false]
    refine ⟨by simp, fun r hr => ?_⟩
    have := hsel.bound r hr
    omega
  · have hmax := hpos _ hmem
    by_cases hown : sel.ownVersion = sel.currentVersion
    · -- the region itself has the greatest version, so it is a candidate
      have hthis : thisId ∈ metadataRegs thisId pieces ∧ sel.ownVersion = version thisId := by
        rcases hsel.own with h | h
        · exact h
        · omega
      have h0 := hpos _ hthis.1
      have hparent : (if sel.ownVersion = sel.currentVersion ∧ sel.maxVersionReg ≠ 0 then thisId
          else sel.maxVersionReg) = thisId := if_pos ⟨hown, hmax⟩
      rw [hparent, if_pos h0]
      refine ⟨.inr rfl, fun r hr => ?_⟩
      have := hsel.bound r hr
      omega
    · have hparent : (if sel.ownVersion = sel.currentVersion ∧ sel.maxVersionReg ≠ 0 then thisId
          else sel.maxVersionReg) = sel.maxVersionReg := if_neg fun h => hown h.1
      rw [hparent, if_pos hmax]
      refine ⟨.inl hmem, fun r hr => ?_⟩
      rw [hv]
      exact hsel.bound r hr

end Parts

/-! ## The map of one dimension -/

namespace PartDictionary

section
variable {R : Nat → Span → Prop} {m : MemoryMap (List Nat)} {sp : Span} {id : Nat} {k : MemoryChunk}

/-- The map `m` of a dimension knows the regions `r` with spans `sp` (`R r sp`): its intervals cover the
spans, each lies inside a span or outside of it, and has the regions over it in its set. -/
structure Tracks (R : Nat → Span → Prop) (m : MemoryMap (List Nat)) : Prop where
  sets : ∀ e ∈ m.entries, ∃ regs, e.2 = some regs ∧
    ∀ r, r ∈ regs ↔ ∃ sp, R r sp ∧ sp.chunk.contains e.1 = true
  cut : ∀ e ∈ m.entries, ∀ r sp, R r sp →
    sp.chunk.contains e.1 = true ∨ ∀ x, e.1.InChunk x → ¬ sp.Mem x
  cover : ∀ r sp, R r sp → ∀ x, sp.Mem x → ∃ e ∈ m.entries, e.1.InChunk x

theorem tracks_empty (h : ∀ r sp, ¬ R r sp) : Tracks R .empty where
  sets _ he := by cases he
  cut _ he := by cases he
  cover r sp hr := absurd hr (h r sp)

theorem contains_trans {a b c : MemoryChunk} (hab : a.contains b = true) (hbc : b.contains c = true) :
    a.contains c = true := by
  rw [MemoryChunk.contains_iff] at hab hbc ⊢
  omega

theorem exists_inChunk (h : 0 < k.len) : k.InChunk k.addr := by
  simp only [MemoryChunk.InChunk, MemoryChunk.stop]
  omega

section
variable {m' : MemoryMap (List Nat)} {ks : List MemoryChunk} {e : Entry (List Nat)}

/-- After cutting, an interval is still inside or outside of every span. -/
theorem Tracks.cut_fragmented (h : Tracks R m) (hf : Fragmented sp.chunk m.entries (m'.entries, ks))
    (he : e ∈ m'.entries) {r : Nat} {sp' : Span} (hr : R r sp') :
    sp'.chunk.contains e.1 = true ∨ ∀ x, e.1.InChunk x → ¬ sp'.Mem x := by
  rcases hf.piece e he with ⟨e₀, he₀, hin, -⟩ | ⟨-, -, hgap⟩
  · refine (h.cut e₀ he₀ r sp' hr).imp (fun hc => contains_trans hc hin) fun hd x hx => ?_
    exact hd x (MemoryChunk.contains_inChunk hin hx)
  · refine .inr fun x hx hsp => ?_
    obtain ⟨e₀, he₀, hx₀⟩ := h.cover r sp' hr x hsp
    exact hgap e₀ he₀ x hx hx₀

/-- After cutting, the set of an interval still has the regions over it; a new interval has none. -/
theorem Tracks.mem_fragmented (h : Tracks R m) (hf : Fragmented sp.chunk m.entries (m'.entries, ks))
    (he : e ∈ m'.entries) {r : Nat} :
    r ∈ e.2.getD [] ↔ ∃ sp', R r sp' ∧ sp'.chunk.contains e.1 = true := by
  have hpos := m'.laid.nonempty e he
  rcases hf.piece e he with ⟨e₀, he₀, hin, hval⟩ | ⟨hnone, -, hgap⟩
  · obtain ⟨regs, hregs, hmem⟩ := h.sets e₀ he₀
    rw [hval, hregs, Option.getD_some, hmem]
    constructor
    · rintro ⟨sp', hr, hc⟩
      exact ⟨sp', hr, contains_trans hc hin⟩
    · rintro ⟨sp', hr, hc⟩
      refine ⟨sp', hr, (h.cut e₀ he₀ r sp' hr).resolve_right fun hd => ?_⟩
      have hx := exists_inChunk hpos
      exact hd _ (MemoryChunk.contains_inChunk hin hx) (MemoryChunk.contains_inChunk hc hx)
  · rw [hnone, Option.getD_none]
    constructor
    · intro hr
      cases hr
    · rintro ⟨sp', hr, hc⟩
      have hx := exists_inChunk hpos
      obtain ⟨e₀, he₀, hx₀⟩ := h.cover r sp' hr _ (MemoryChunk.contains_inChunk hc hx)
      exact absurd hx₀ (hgap e₀ he₀ _ hx)

/-- The returned intervals are the intervals inside the request; the others lie outside of it. -/
theorem contains_iff_mem (hf : Fragmented k m.entries (m'.entries, ks)) (he : e ∈ m'.entries) :
    (e.1 ∈ ks → k.contains e.1 = true) ∧ (e.1 ∉ ks → ∀ x, e.1.InChunk x → ¬ k.InChunk x) := by
  constructor
  · intro hmem
    refine MemoryChunk.contains_of_inChunk (m'.laid.nonempty e he) fun x hx => ?_
    exact (hf.tiles.union x).2 ⟨e.1, hmem, hx⟩
  · intro hmem x hx hkx
    obtain ⟨k', hk', hx'⟩ := (hf.tiles.union x).1 hkx
    obtain ⟨v, hv⟩ := hf.results k' hk'
    have heq : e = (k', v) := MemoryMap.eq_of_inChunk he hv hx hx'
    exact hmem (by rw [heq]; exact hk')

/-- The map knows one region more after a registration, or the same ones when it was the whole
object. -/
theorem Tracks.note (h : Tracks R m) (hf : Fragmented sp.chunk m.entries (m'.entries, ks)) :
    Tracks (fun r sp' => R r sp' ∨ id ≠ 1 ∧ r = id ∧ sp' = sp) (note id (m', ks)) := by
  -- an entry of the new map comes from one of the cut map
  have hentry : ∀ e'' ∈ (PartDictionary.note id (m', ks)).entries, ∃ e ∈ m'.entries, e''.1 = e.1 ∧
      ((e.1 ∈ ks ∧ e''.2 = some (if id ≠ 1 then insertReg id (e.2.getD []) else e.2.getD [])) ∨
        (e.1 ∉ ks ∧ e''.2 = e.2)) := by
    intro e'' he''
    obtain ⟨e, he, rfl⟩ := List.mem_map.1 he''
    refine ⟨e, he, ?_⟩
    split
    · next hk => exact ⟨rfl, .inl ⟨hk, rfl⟩⟩
    · next hk => exact ⟨rfl, .inr ⟨hk, rfl⟩⟩
  refine ⟨fun e'' he'' => ?_, fun e'' he'' r sp' hr => ?_, fun r sp' hr x hx => ?_⟩
  · obtain ⟨e, he, hkey, hval⟩ := hentry e'' he''
    have hmem := fun r => h.mem_fragmented hf he (r := r)
    obtain ⟨hin, hout⟩ := contains_iff_mem hf he
    rw [hkey]
    rcases hval with ⟨hk, hval⟩ | ⟨hk, hval⟩
    · refine ⟨_, hval, fun r => ?_⟩
      split
      · next h1 =>
        rw [mem_insertReg, hmem]
        constructor
        · rintro (rfl | ⟨sp', hr, hc⟩)
          · exact ⟨sp, .inr ⟨h1, rfl, rfl⟩, hin hk⟩
          · exact ⟨sp', .inl hr, hc⟩
        · rintro ⟨sp', hr | ⟨-, rfl, -⟩, hc⟩
          · exact .inr ⟨sp', hr, hc⟩
          · exact .inl rfl
      · next h1 =>
        rw [hmem]
        simp only [h1, false_and, or_false]
    · -- an entry without a value is a gap of the request, so it is returned
      rcases hf.piece e he with ⟨e₀, he₀, -, hval₀⟩ | ⟨-, hgap, -⟩
      · obtain ⟨regs, hregs, -⟩ := h.sets e₀ he₀
        have hsome : e.2 = some regs := hval₀.trans hregs
        refine ⟨regs, hval.trans hsome, fun r => ?_⟩
        have := hmem r
        rw [hsome, Option.getD_some] at this
        rw [this]
        refine exists_congr fun sp' => and_congr_left fun hc => ⟨.inl, ?_⟩
        rintro (hr | ⟨-, -, rfl⟩)
        · exact hr
        · have hx := exists_inChunk (m'.laid.nonempty e he)
          exact absurd (MemoryChunk.contains_inChunk hc hx) (hout hk _ hx)
      · have hx := exists_inChunk (m'.laid.nonempty e he)
        exact absurd (MemoryChunk.contains_inChunk hgap hx) (hout hk _ hx)
  · obtain ⟨e, he, hkey, -⟩ := hentry e'' he''
    rw [hkey]
    rcases hr with hr | ⟨-, -, rfl⟩
    · exact h.cut_fragmented hf he hr
    · obtain ⟨hin, hout⟩ := contains_iff_mem hf he
      by_cases hk : e.1 ∈ ks
      · exact .inl (hin hk)
      · exact .inr (hout hk)
  · have hcovered : ∃ e ∈ m'.entries, e.1.InChunk x := by
      rcases hr with hr | ⟨-, -, rfl⟩
      · obtain ⟨e₀, he₀, hx₀⟩ := h.cover r sp' hr x hx
        exact hf.covered e₀ he₀ x hx₀
      · obtain ⟨k', hk', hx'⟩ := (hf.tiles.union x).1 hx
        obtain ⟨v, hv⟩ := hf.results k' hk'
        exact ⟨(k', v), hv, hx'⟩
    obtain ⟨e, he, hx'⟩ := hcovered
    refine ⟨_, List.mem_map_of_mem he, ?_⟩
    split <;> exact hx'

end

end

end PartDictionary

/-! ## The parts -/

namespace Parts

variable {version : Nat → Nat} {thisId n : Nat} {pieces : List Piece} {d : RegionDictionary}

/-- No set of the pieces is empty. -/
def allSet (pieces : List Piece) : Bool := pieces.all fun piece => !piece.2.isEmpty

/-- The parent a part is given. -/
def parentOf (version : Nat → Nat) (thisId : Nat) (pieces : List Piece) : Nat :=
  if allSet pieces then parentReg version thisId pieces else thisId

/-- The nested loops are one loop over the boxes. -/
theorem recursive_eq (dims : List (List Piece)) (c : Bool) (s : RegionDictionary × List (Nat × Nat)) :
    recursive version thisId dims.reverse pieces c s =
      (boxes dims).foldl (fun s t => addPart version thisId (t ++ pieces) (c && allSet t) s) s := by
  induction dims using List.reverseRecOn generalizing pieces c s with
  | nil => simp [recursive, boxes, allSet]
  | append_singleton dims results ih =>
    have hflag : ∀ (t : List Piece) (piece : Piece),
        (c && allSet (t ++ [piece])) = ((c && !piece.2.isEmpty) && allSet t) := by
      intro t piece
      simp only [allSet, List.all_append, List.all_cons, List.all_nil, Bool.and_true]
      rw [Bool.and_comm (t.all _), Bool.and_assoc]
    rw [List.reverse_append, List.reverse_singleton, List.singleton_append, recursive,
      boxes_append_singleton, List.foldl_flatMap]
    refine List.foldl_ext _ _ _ fun s piece _ => ?_
    rw [ih, List.foldl_map]
    refine List.foldl_ext _ _ _ fun s t _ => ?_
    rw [hflag, List.append_assoc, List.singleton_append]

/-- The pair of a parent and a part belongs to the box with the given pieces. -/
def PartOf (version : Nat → Nat) (thisId : Nat) (d : RegionDictionary) (pieces : List Piece)
    (p : Nat × Nat) : Prop :=
  p.1 = parentOf version thisId pieces ∧ d.HasBox p.2 (bounds pieces)

theorem perm_insertPart {parent part : Nat} {l : List (Nat × Nat)} (h : (parent, part) ∉ l) :
    (insertPart parent part l).Perm ((parent, part) :: l) := by
  rw [insertPart, if_neg h]
  exact List.perm_orderedInsert _ _ _

/-- The loop over boxes with different bounds collects a pair for each of them. -/
theorem foldl_addPart (hv : d.Valid n) (hn : 0 < n) (cells : List (List Piece))
    (hcells : ∀ cell ∈ cells, (bounds cell).length = n ∧ Proper (bounds cell))
    (hnodup : (cells.map bounds).Nodup) {r : RegionDictionary × List (Nat × Nat)}
    (hr : r = cells.foldl (fun s t => addPart version thisId t (allSet t) s) (d, [])) :
    r.1.Valid n ∧ d.Keeps r.1 ∧ ∃ ps, List.Forall₂ (PartOf version thisId r.1) cells ps ∧ r.2.Perm ps := by
  induction cells using List.reverseRecOn generalizing r with
  | nil =>
    subst hr
    exact ⟨hv, fun _ _ h => h, [], .nil, .refl _⟩
  | append_singleton cells cell ih =>
    rw [List.map_append, List.nodup_append] at hnodup
    rw [List.foldl_append] at hr
    obtain ⟨hv₁, hkeeps, ps, hps, hperm⟩ := ih (fun c hc => hcells c (by simp [hc])) hnodup.1 rfl
    generalize cells.foldl (fun s t => addPart version thisId t (allSet t) s) (d, []) = s at *
    obtain ⟨hlen, hproper⟩ := hcells cell (by simp)
    have hadd := RegionDictionary.addRegion_spec hv₁ hn hlen hproper
    -- the part is not among those collected before: their bounds are others
    have hnew : (parentOf version thisId cell, (s.1.addRegion (bounds cell)).1) ∉ s.2 := by
      intro hmem
      obtain ⟨c, hc, -, hbox⟩ := exists_left_of_forall₂ hps (hperm.mem_iff.1 hmem)
      have hsame := (hadd.keeps _ _ hbox).unique hadd.hasBox
      exact hnodup.2.2 _ (List.mem_map_of_mem hc) _ (by simp) hsame
    have hr' : r = ((s.1.addRegion (bounds cell)).2,
        insertPart (parentOf version thisId cell) (s.1.addRegion (bounds cell)).1 s.2) := hr
    subst hr'
    refine ⟨hadd.valid, fun id box h => hadd.keeps _ _ (hkeeps _ _ h),
      ps ++ [(parentOf version thisId cell, (s.1.addRegion (bounds cell)).1)], ?_, ?_⟩
    · refine List.rel_append (hps.imp fun c p hp => ⟨hp.1, hadd.keeps _ _ hp.2⟩) ?_
      exact .cons ⟨rfl, hadd.hasBox⟩ .nil
    · refine (perm_insertPart hnew).trans ((hperm.cons _).trans ?_)
      exact (List.perm_append_singleton _ _).symm

end Parts

/-! ## Registrations -/

namespace PartDictionary

variable {n id version : Nat} {s s' : PartDictionary} {A : List Span}

/-- The region `r`, registered and not the whole object, has the span `sp` in dimension `i`. -/
def Over (s : PartDictionary) (i r : Nat) (sp : Span) : Prop :=
  r ∈ s.registered ∧ r ≠ 1 ∧ ∃ box, s.dict.HasBox r box ∧ box[i]? = some sp

/-- The invariant of a dictionary of `n` dimensions: the map of each knows the registered regions but the
whole object. -/
structure Inv (n : Nat) (s : PartDictionary) : Prop where
  valid : s.dict.Valid n
  dims : s.intersects.length = n
  regs : ∀ r ∈ s.registered, ∃ box, s.dict.HasBox r box
  tracks : ∀ i m, s.intersects[i]? = some m → Tracks (s.Over i) m

/-- A piece of dimension `i` inside the span `sp`: its set has the registered regions over it. -/
structure PieceOk (s : PartDictionary) (i : Nat) (sp : Span) (piece : Piece) : Prop where
  pos : 0 < piece.1.len
  inside : sp.chunk.contains piece.1 = true
  regs : ∀ r, r ∈ piece.2 ↔ ∃ sp', s.Over i r sp' ∧ sp'.chunk.contains piece.1 = true

/-- Cutting the map of one dimension. -/
theorem getOrAddSpan_fragmented {m : MemoryMap (List Nat)} {sp : Span} (hpos : 0 < sp.accessedLength) :
    Fragmented sp.chunk m.entries ((getOrAddSpan m sp).1.entries, (getOrAddSpan m sp).2) := by
  rw [getOrAddSpan, dif_pos hpos]
  exact m.getOrAddChunk_fragmented hpos

/-- The pieces that are found in one dimension tile the span and have the right sets. -/
theorem Inv.pieces (h : Inv n s) {i : Nat} {m : MemoryMap (List Nat)} {sp : Span}
    (hm : s.intersects[i]? = some m) (hpos : 0 < sp.accessedLength) :
    Tiles (fun piece : Piece => piece.1.InChunk) (piecesOf (getOrAddSpan m sp)) sp.Mem ∧
      ∀ piece ∈ piecesOf (getOrAddSpan m sp), s.PieceOk i sp piece := by
  have hf := getOrAddSpan_fragmented (m := m) hpos
  refine ⟨hf.tiles.congr ?_, fun piece hpiece => ?_⟩
  · exact List.forall₂_map_right_iff.2 (List.forall₂_same.2 fun k _ x => Iff.rfl)
  · obtain ⟨k, hk, rfl⟩ := List.mem_map.1 hpiece
    obtain ⟨v, hv⟩ := hf.results k hk
    have hval : (getOrAddSpan m sp).1.valueOf k = v := MemoryMap.valueOf_eq hv
    refine ⟨(getOrAddSpan m sp).1.laid.nonempty _ hv, (contains_iff_mem hf hv).1 hk, fun r => ?_⟩
    dsimp only
    rw [hval]
    exact (h.tracks i m hm).mem_fragmented hf hv

/-- The pieces of the dimensions of a region. -/
def resultsOf (s : PartDictionary) (A : List Span) : List (List Piece) :=
  (List.zipWith getOrAddSpan s.intersects A).map piecesOf

theorem resultsOf_getElem? {i : Nat} {m : MemoryMap (List Nat)} {sp : Span}
    (hm : s.intersects[i]? = some m) (hsp : A[i]? = some sp) :
    (s.resultsOf A)[i]? = some (piecesOf (getOrAddSpan m sp)) := by
  simp [resultsOf, List.getElem?_zipWith, hm, hsp]

theorem Inv.getElem? (h : Inv n s) (hA : s.dict.HasBox id A) {i : Nat} (hi : i < n) :
    ∃ m sp, s.intersects[i]? = some m ∧ A[i]? = some sp ∧ 0 < sp.accessedLength := by
  obtain ⟨hlen, hproper⟩ := h.valid.proper id A hA
  have hm : i < s.intersects.length := by rw [h.dims]; exact hi
  have hsp : i < A.length := by rw [hlen]; exact hi
  exact ⟨_, _, List.getElem?_eq_getElem hm, List.getElem?_eq_getElem hsp,
    hproper _ (List.getElem_mem hsp)⟩

theorem Inv.length_resultsOf (h : Inv n s) (hA : s.dict.HasBox id A) : (s.resultsOf A).length = n := by
  have hlen := (h.valid.proper id A hA).1
  simp [resultsOf, h.dims, hlen]

/-- The boxes of the pieces tile the region. -/
theorem Inv.tiles_cells (h : Inv n s) (hA : s.dict.HasBox id A) :
    Tiles (InBox fun piece : Piece => piece.1.InChunk) (boxes (s.resultsOf A)) (InBox Span.Mem A) := by
  have hlen := (h.valid.proper id A hA).1
  have htiles : Tiles (InBox fun piece : Piece => piece.1.InChunk) (boxes (s.resultsOf A))
      fun x => List.Forall₂ (fun (S : Nat → Prop) a => S a) (A.map Span.Mem) x := tiles_boxes ?_
  · refine ⟨htiles.disjoint, fun x => ?_⟩
    rw [← htiles.union x, List.forall₂_map_left_iff]
    rfl
  · refine List.forall₂_map_right_iff.2 (List.forall₂_iff_get.2 ⟨?_, fun i h₁ h₂ => ?_⟩)
    · rw [h.length_resultsOf hA, hlen]
    · obtain ⟨m, sp, hm, hsp, hpos⟩ := h.getElem? hA (i := i) (by rwa [← hlen])
      have hresult := resultsOf_getElem? hm hsp
      rw [List.getElem?_eq_getElem h₁] at hresult
      rw [List.getElem?_eq_getElem h₂] at hsp
      simp only [List.get_eq_getElem, Option.some.inj hresult, Option.some.inj hsp]
      exact (h.pieces hm hpos).1

/-- The pieces of a box are right in their dimensions. -/
theorem Inv.cell (h : Inv n s) (hA : s.dict.HasBox id A) {cell : List Piece}
    (hcell : cell ∈ boxes (s.resultsOf A)) :
    cell.length = n ∧
      ∀ i piece, cell[i]? = some piece → ∃ sp, A[i]? = some sp ∧ s.PieceOk i sp piece := by
  obtain ⟨hlen, hmem⟩ := List.forall₂_iff_get.1 (mem_boxes_iff.1 hcell)
  rw [h.length_resultsOf hA] at hlen
  refine ⟨hlen, fun i piece hpiece => ?_⟩
  obtain ⟨hi, rfl⟩ := List.getElem?_eq_some_iff.1 hpiece
  obtain ⟨m, sp, hm, hsp, hpos⟩ := h.getElem? hA (i := i) (by omega)
  have hresult := resultsOf_getElem? hm hsp
  obtain ⟨hi', hget⟩ := List.getElem?_eq_some_iff.1 hresult
  have hin := hmem i hi hi'
  rw [List.get_eq_getElem, List.get_eq_getElem, hget] at hin
  exact ⟨sp, hsp, (h.pieces hm hpos).2 _ hin⟩

theorem inBox_bounds {cell : List Piece} {x : List Nat} :
    InBox Span.Mem (Parts.bounds cell) x ↔ InBox (fun piece : Piece => piece.1.InChunk) cell x :=
  List.forall₂_map_left_iff

theorem Inv.bounds_proper (h : Inv n s) (hA : s.dict.HasBox id A) {cell : List Piece}
    (hcell : cell ∈ boxes (s.resultsOf A)) :
    (Parts.bounds cell).length = n ∧ Proper (Parts.bounds cell) := by
  obtain ⟨hlen, hok⟩ := h.cell hA hcell
  refine ⟨by rw [Parts.bounds, List.length_map, hlen], fun sp hsp => ?_⟩
  obtain ⟨piece, hpiece, rfl⟩ := List.mem_map.1 hsp
  obtain ⟨i, hi⟩ := List.mem_iff_getElem?.1 hpiece
  obtain ⟨sp, -, hpok⟩ := hok i piece hi
  exact hpok.pos

theorem exists_mem_of_proper {B : List Span} (hB : Proper B) : ∀ sp ∈ B, ∃ x, sp.Mem x := by
  intro sp hsp
  have := hB sp hsp
  exact ⟨sp.lowerBound, le_refl _, by omega⟩

/-- Different boxes have different bounds. -/
theorem Inv.nodup_bounds (h : Inv n s) (hA : s.dict.HasBox id A) :
    ((boxes (s.resultsOf A)).map Parts.bounds).Nodup := by
  refine List.pairwise_map.2 ((h.tiles_cells hA).disjoint.imp_of_mem fun {c c'} hc _ hdisj heq => ?_)
  obtain ⟨x, hx⟩ := exists_inBox (exists_mem_of_proper (h.bounds_proper hA hc).2)
  exact hdisj x (inBox_bounds.1 hx) (inBox_bounds.1 (heq ▸ hx))

/-- A region is in the sets of all pieces of a box if it was registered, is not the whole object, and
contains the box. -/
theorem Inv.mem_sets (h : Inv n s) (hn : 0 < n) (hA : s.dict.HasBox id A) {cell : List Piece}
    (hcell : cell ∈ boxes (s.resultsOf A)) {r : Nat} :
    (∀ piece ∈ cell, r ∈ piece.2) ↔
      r ∈ s.registered ∧ r ≠ 1 ∧ ∃ C, s.dict.HasBox r C ∧
        ∀ x, InBox Span.Mem (Parts.bounds cell) x → InBox Span.Mem C x := by
  obtain ⟨hlen, hok⟩ := h.cell hA hcell
  obtain ⟨hblen, hproper⟩ := h.bounds_proper hA hcell
  have hsubset : ∀ {C}, s.dict.HasBox r C →
      ((∀ x, InBox Span.Mem (Parts.bounds cell) x → InBox Span.Mem C x) ↔
        List.Forall₂ (fun (piece : Piece) (sp : Span) => ∀ x, piece.1.InChunk x → sp.Mem x) cell C) := by
    intro C hC
    have hClen := (h.valid.proper r C hC).1
    rw [inBox_subset_iff (hblen.trans hClen.symm) (exists_mem_of_proper hproper),
      Parts.bounds, List.forall₂_map_left_iff]
    rfl
  constructor
  · intro hall
    have hover : ∀ i piece, cell[i]? = some piece →
        ∃ sp, s.Over i r sp ∧ sp.chunk.contains piece.1 = true := by
      intro i piece hi
      obtain ⟨sp, -, hpok⟩ := hok i piece hi
      exact (hpok.regs r).1 (hall piece (List.mem_iff_getElem?.2 ⟨i, hi⟩))
    obtain ⟨sp₀, ⟨hreg, hr1, C, hC, -⟩, -⟩ :=
      hover 0 _ (List.getElem?_eq_getElem (by omega))
    refine ⟨hreg, hr1, C, hC, (hsubset hC).2 ?_⟩
    have hClen := (h.valid.proper r C hC).1
    refine List.forall₂_iff_get.2 ⟨hlen.trans hClen.symm, fun i h₁ h₂ x hx => ?_⟩
    obtain ⟨sp, ⟨-, -, C', hC', hsp⟩, hin⟩ := hover i _ (List.getElem?_eq_getElem h₁)
    obtain rfl := hC'.unique hC
    rw [List.getElem?_eq_getElem h₂] at hsp
    rw [List.get_eq_getElem, Option.some.inj hsp]
    exact MemoryChunk.contains_inChunk hin hx
  · rintro ⟨hreg, hr1, C, hC, hwithin⟩ piece hpiece
    obtain ⟨i, hi⟩ := List.mem_iff_getElem?.1 hpiece
    obtain ⟨sp, -, hpok⟩ := hok i piece hi
    obtain ⟨hClen, hget⟩ := List.forall₂_iff_get.1 ((hsubset hC).1 hwithin)
    obtain ⟨hi', hpi⟩ := List.getElem?_eq_some_iff.1 hi
    have hiC : i < C.length := by omega
    refine (hpok.regs r).2 ⟨C[i], ⟨hreg, hr1, C, hC, List.getElem?_eq_getElem hiC⟩, ?_⟩
    refine MemoryChunk.contains_of_inChunk hpok.pos fun x hx => ?_
    have := hget i hi' hiC x
    rw [List.get_eq_getElem, hpi] at this
    exact this hx

/-- Every point of region `a` is a point of region `b`. -/
def Within (d : RegionDictionary) (a b : Nat) : Prop :=
  ∃ A B, d.HasBox a A ∧ d.HasBox b B ∧ ∀ x, InBox Span.Mem A x → InBox Span.Mem B x

/-- The point `x` lies in region `a`. -/
def InRegion (d : RegionDictionary) (a : Nat) (x : List Nat) : Prop :=
  ∃ A, d.HasBox a A ∧ InBox Span.Mem A x

/-- The parts of a region with their parents, and the version, that a registration returns: the parts
tile the region; each lies in its parent, which is the region itself or was registered before; no region
registered before that contains a part has a greater version than the parent (of the whole object, only
when it is what is registered); and the version is the greatest of the parents and of the value passed
in. -/
structure PartsOf (s : PartDictionary) (id version : Nat) (A : List Span) (parts : List (Nat × Nat))
    (version' : Nat) (d : RegionDictionary) : Prop where
  tiles : Tiles (fun p => InRegion d p.1) parts (InBox Span.Mem A)
  contained : ∀ p ∈ parts, Within d p.1 p.2
  parent : ∀ p ∈ parts, p.2 = id ∨ p.2 ∈ s.registered
  maximal : ∀ p ∈ parts, ∀ r ∈ s.registered, (r = 1 → id = 1) → Within d p.1 r →
    s.getVersion r ≤ s.getVersion p.2
  version_ge : version ≤ version' ∧ ∀ p ∈ parts, s.entryVersion p.2 ≤ version'
  version_eq : version' = version ∨ ∃ p ∈ parts, version' = s.entryVersion p.2

/-- What a parent is: it contains the part, and has the greatest version. -/
theorem Inv.parentOf (h : Inv n s) (hn : 0 < n) (hA : s.dict.HasBox id A) {cell : List Piece}
    (hcell : cell ∈ boxes (s.resultsOf A)) {parent : Nat}
    (hparent : parent = Parts.parentOf s.getVersion id cell) :
    (parent = id ∨ parent ∈ s.registered ∧ ∃ C, s.dict.HasBox parent C ∧
        ∀ x, InBox Span.Mem (Parts.bounds cell) x → InBox Span.Mem C x) ∧
      ∀ r ∈ s.registered, (r = 1 → id = 1) →
        (∃ C, s.dict.HasBox r C ∧ ∀ x, InBox Span.Mem (Parts.bounds cell) x → InBox Span.Mem C x) →
        s.getVersion r ≤ s.getVersion parent := by
  have hne : cell ≠ [] := by
    have hlen := (h.cell hA hcell).1
    intro hnil
    rw [hnil, List.length_nil] at hlen
    omega
  have hmeta : ∀ r, r ∈ Parts.metadataRegs id cell ↔ (∀ piece ∈ cell, r ∈ piece.2) ∨ r = 1 ∧ id = 1 :=
    fun _ => Parts.mem_metadataRegs hne
  have hsets := fun r => h.mem_sets hn hA hcell (r := r)
  subst hparent
  unfold Parts.parentOf
  split
  · next hall =>
    have hpos : ∀ r ∈ Parts.metadataRegs id cell, r ≠ 0 := by
      intro r hr
      rcases (hmeta r).1 hr with hr | ⟨rfl, -⟩
      · obtain ⟨-, -, C, hC, -⟩ := (hsets r).1 hr
        exact Nat.ne_of_gt hC.pos
      · exact Nat.one_ne_zero
    obtain ⟨hmem, hmax⟩ := @Parts.parentReg_spec s.getVersion _ _ hpos
    refine ⟨?_, fun r hreg hr1 hC => hmax r ((hmeta r).2 ?_)⟩
    · rcases hmem with hmem | heq
      · rcases (hmeta _).1 hmem with hmem | ⟨h1, hid⟩
        · obtain ⟨hreg, -, hC⟩ := (hsets _).1 hmem
          exact .inr ⟨hreg, hC⟩
        · exact .inl (h1.trans hid.symm)
      · exact .inl heq
    · rcases eq_or_ne r 1 with rfl | hr
      · exact .inr ⟨rfl, hr1 rfl⟩
      · exact .inl ((hsets r).2 ⟨hreg, hr, hC⟩)
  · next hall =>
    refine ⟨.inl rfl, fun r hreg hr1 hC => ?_⟩
    rcases eq_or_ne r 1 with rfl | hr
    · rw [hr1 rfl]
    · -- a region that contains the part is in all its sets
      refine absurd (List.all_eq_true.2 fun piece hpiece => ?_) hall
      have hin := (hsets r).2 ⟨hreg, hr, hC⟩ piece hpiece
      cases hset : piece.2 with
      | nil => rw [hset] at hin; cases hin
      | cons => rfl

/-- The loop that computes the version. -/
theorem foldl_version (f : Nat × Nat → Nat) (l : List (Nat × Nat)) (v : Nat) :
    let r := l.foldl (fun v p => if f p > v then f p else v) v
    (v ≤ r ∧ ∀ p ∈ l, f p ≤ r) ∧ (r = v ∨ ∃ p ∈ l, r = f p) := by
  induction l generalizing v with
  | nil => simp
  | cons p l ih =>
    obtain ⟨⟨hge, hle⟩, heq⟩ := ih (if f p > v then f p else v)
    rw [List.foldl_cons]
    refine ⟨⟨?_, fun q hq => ?_⟩, ?_⟩
    · refine le_trans ?_ hge
      split <;> omega
    · rcases List.mem_cons.1 hq with rfl | hq
      · refine le_trans ?_ hge
        split <;> omega
      · exact hle q hq
    · rcases heq with heq | ⟨q, hq, heq⟩
      · rw [heq]
        split
        · exact .inr ⟨p, by simp, rfl⟩
        · exact .inl rfl
      · exact .inr ⟨q, by simp [hq], heq⟩

theorem within_of_part {d d' : RegionDictionary} {p r : Nat} {B : List Span} (hkeeps : d.Keeps d')
    (hp : d'.HasBox p B) (hr : ∃ C, d.HasBox r C) :
    Within d' p r ↔ ∃ C, d.HasBox r C ∧ ∀ x, InBox Span.Mem B x → InBox Span.Mem C x := by
  obtain ⟨C, hC⟩ := hr
  constructor
  · rintro ⟨B', C', hB', hC', hsub⟩
    rw [hB'.unique hp, hC'.unique (hkeeps _ _ hC)] at hsub
    exact ⟨C, hC, hsub⟩
  · rintro ⟨C', hC', hsub⟩
    exact ⟨B, C', hp, hkeeps _ _ hC', hsub⟩

/-- What the loops leave, for the region with bounds `A`. -/
def loop (s : PartDictionary) (id : Nat) (A : List Span) : RegionDictionary × List (Nat × Nat) :=
  Parts.recursive s.getVersion id (s.resultsOf A).reverse [] true (s.dict, [])

theorem registerRegion_eq (hA : s.dict.HasBox id A) :
    s.registerRegion id version = some ((s.loop id A).2.map fun p => (p.2, p.1),
      (s.loop id A).2.foldl (fun v p => if s.entryVersion p.1 > v then s.entryVersion p.1 else v) version,
      { s with
        dict := (s.loop id A).1
        intersects := (List.zipWith getOrAddSpan s.intersects A).map (note id)
        registered := id :: s.registered }) := by
  obtain ⟨leaf, hleaf, rfl⟩ := hA
  rw [registerRegion, hleaf, Option.map_some]
  rfl

/-- The loops visit the boxes of the pieces and collect a pair for each. -/
theorem Inv.loop (h : Inv n s) (hn : 0 < n) (hA : s.dict.HasBox id A) :
    (s.loop id A).1.Valid n ∧ s.dict.Keeps (s.loop id A).1 ∧
      ∃ ps, List.Forall₂ (Parts.PartOf s.getVersion id (s.loop id A).1) (boxes (s.resultsOf A)) ps ∧
        (s.loop id A).2.Perm ps := by
  have hloop := @Parts.recursive_eq s.getVersion id [] (s.resultsOf A) true (s.dict, [])
  simp only [List.append_nil, Bool.true_and] at hloop
  exact Parts.foldl_addPart h.valid hn _ (fun _ hcell => h.bounds_proper hA hcell) (h.nodup_bounds hA)
    hloop

/-- The parts and the version that a registration returns. -/
theorem Inv.partsOf (h : Inv n s) (hn : 0 < n) (hA : s.dict.HasBox id A) :
    PartsOf s id version A ((s.loop id A).2.map fun p => (p.2, p.1))
      ((s.loop id A).2.foldl (fun v p => if s.entryVersion p.1 > v then s.entryVersion p.1 else v) version)
      (s.loop id A).1 := by
  obtain ⟨-, hkeeps, ps, hps, hperm⟩ := h.loop hn hA
  -- every part belongs to a box of pieces
  have hpart : ∀ p ∈ (s.loop id A).2.map fun p => (p.2, p.1), ∃ cell ∈ boxes (s.resultsOf A),
      p.2 = Parts.parentOf s.getVersion id cell ∧ (s.loop id A).1.HasBox p.1 (Parts.bounds cell) := by
    intro p hp
    obtain ⟨q, hq, rfl⟩ := List.mem_map.1 hp
    exact exists_left_of_forall₂ hps (hperm.mem_iff.1 hq)
  have hversion := foldl_version (fun p => s.entryVersion p.1) (s.loop id A).2 version
  refine ⟨?_, fun p hp => ?_, fun p hp => ?_, fun p hp r hr hr1 hwithin => ?_,
    ⟨hversion.1.1, fun p hp => ?_⟩, ?_⟩
  · refine Tiles.perm ((h.tiles_cells hA).congr ?_) (hperm.map _).symm
    refine List.forall₂_map_right_iff.2 (hps.imp fun cell p hp x => ?_)
    rw [← inBox_bounds]
    constructor
    · exact fun hx => ⟨_, hp.2, hx⟩
    · rintro ⟨C, hC, hx⟩
      rwa [hC.unique hp.2] at hx
  · obtain ⟨cell, hcell, hparent, hbox⟩ := hpart p hp
    rcases (h.parentOf hn hA hcell hparent).1 with heq | ⟨-, C, hC, hsub⟩
    · refine ⟨_, A, hbox, by rw [heq]; exact hkeeps _ _ hA, fun x hx => ?_⟩
      exact ((h.tiles_cells hA).union x).2 ⟨cell, hcell, inBox_bounds.1 hx⟩
    · exact ⟨_, C, hbox, hkeeps _ _ hC, hsub⟩
  · obtain ⟨cell, hcell, hparent, -⟩ := hpart p hp
    exact (h.parentOf hn hA hcell hparent).1.imp_right fun hreg => hreg.1
  · obtain ⟨cell, hcell, hparent, hbox⟩ := hpart p hp
    exact (h.parentOf hn hA hcell hparent).2 r hr hr1
      ((within_of_part hkeeps hbox (h.regs r hr)).1 hwithin)
  · obtain ⟨q, hq, rfl⟩ := List.mem_map.1 hp
    exact hversion.1.2 q hq
  · refine hversion.2.imp_right fun ⟨p, hp, heq⟩ => ⟨(p.2, p.1), ?_, heq⟩
    exact List.mem_map.2 ⟨p, hp, rfl⟩

/-- The regions over a dimension after a registration: those of before and the new one. -/
theorem Inv.over_iff (h : Inv n s) (hA : s.dict.HasBox id A) (hkeeps : s.dict.Keeps s'.dict)
    (hreg : s'.registered = id :: s.registered) {i r : Nat} {sp sp' : Span} (hsp : A[i]? = some sp) :
    s'.Over i r sp' ↔ s.Over i r sp' ∨ id ≠ 1 ∧ r = id ∧ sp' = sp := by
  unfold Over
  rw [hreg, List.mem_cons]
  constructor
  · rintro ⟨rfl | hreg, hr1, C, hC, hsp'⟩
    · rw [hC.unique (hkeeps _ _ hA), hsp] at hsp'
      exact .inr ⟨hr1, rfl, (Option.some.inj hsp').symm⟩
    · obtain ⟨C', hC'⟩ := h.regs r hreg
      rw [hC.unique (hkeeps _ _ hC')] at hsp'
      exact .inl ⟨hreg, hr1, C', hC', hsp'⟩
  · rintro (⟨hreg, hr1, C, hC, hsp'⟩ | ⟨hr1, rfl, rfl⟩)
    · exact ⟨.inr hreg, hr1, C, hkeeps _ _ hC, hsp'⟩
    · exact ⟨.inl rfl, hr1, A, hkeeps _ _ hA, hsp⟩

/-- A registration succeeds, returns the parts of the region, and keeps the invariant. -/
theorem Inv.registerRegion (h : Inv n s) (hn : 0 < n) (hA : s.dict.HasBox id A) :
    ∃ parts version' s', s.registerRegion id version = some (parts, version', s') ∧
      PartsOf s id version A parts version' s'.dict ∧ Inv n s' := by
  obtain ⟨hlenA, hproperA⟩ := h.valid.proper id A hA
  obtain ⟨hvalid, hkeeps, -⟩ := h.loop hn hA
  refine ⟨_, _, _, registerRegion_eq hA, h.partsOf hn hA, hvalid, ?_, fun r hr => ?_, fun i m hm => ?_⟩
  · simp [h.dims, hlenA]
  · rcases List.mem_cons.1 hr with rfl | hr
    · exact ⟨A, hkeeps _ _ hA⟩
    · obtain ⟨C, hC⟩ := h.regs r hr
      exact ⟨C, hkeeps _ _ hC⟩
  · have hi : i < n := by
      have hlt := (List.getElem?_eq_some_iff.1 hm).1
      simpa [h.dims, hlenA] using hlt
    obtain ⟨m₀, sp, hm₀, hsp, hpos⟩ := h.getElem? hA hi
    have hnote : m = note id (getOrAddSpan m₀ sp) := by
      simp only [List.getElem?_map, List.getElem?_zipWith, hm₀, hsp, Option.map_some,
        Option.some.injEq] at hm
      exact hm.symm
    rw [hnote]
    convert @Tracks.note _ _ _ id _ _ (h.tracks i m₀ hm₀) (getOrAddSpan_fragmented hpos) using 1
    funext r sp'
    exact propext (h.over_iff hA hkeeps rfl hsp)

/-! ## Runs -/

/-- More regions in the tree change nothing for the registered ones. -/
theorem Inv.keeps {d : RegionDictionary} (h : Inv n s) (hd : d.Valid n) (hkeeps : s.dict.Keeps d) :
    Inv n { s with dict := d } := by
  refine ⟨hd, h.dims, fun r hr => (h.regs r hr).imp fun C hC => hkeeps _ _ hC, fun i m hm => ?_⟩
  convert h.tracks i m hm using 1
  funext r sp
  refine propext (and_congr_right fun hreg => and_congr_right fun _ => ?_)
  obtain ⟨C, hC⟩ := h.regs r hreg
  constructor
  · rintro ⟨C', hC', hsp⟩
    rw [hC'.unique (hkeeps _ _ hC)] at hsp
    exact ⟨C, hC, hsp⟩
  · rintro ⟨C', hC', hsp⟩
    exact ⟨C', hkeeps _ _ hC', hsp⟩

theorem inv_new {sparse : Bool} {d : RegionDictionary} (hd : d.Valid n) : Inv n (new n sparse d) := by
  refine ⟨hd, List.length_replicate, fun r hr => (by cases hr), fun i m hm => ?_⟩
  obtain ⟨hi, rfl⟩ := List.getElem?_eq_some_iff.1 hm
  simp only [new, List.getElem_replicate]
  exact tracks_empty fun r sp hr => by cases hr.1

/-- Every step keeps the invariant. -/
theorem step_inv {e : Event} (h : Inv n s) (hn : 0 < n) (he : e.Ok n s) (hs : s.step e = some s') :
    Inv n s' := by
  cases e with
  | call c =>
    obtain ⟨d, hd, rfl⟩ := Option.map_eq_some_iff.1 hs
    obtain ⟨hvalid, hkeeps⟩ := RegionDictionary.step_valid h.valid hn he hd
    exact h.keeps hvalid hkeeps
  | registerRegion id version =>
    obtain ⟨r, hr, rfl⟩ := Option.map_eq_some_iff.1 hs
    obtain ⟨leaf, hleaf, -⟩ := Option.map_eq_some_iff.1 hr
    obtain ⟨parts, version', s', hs', -, hinv⟩ := h.registerRegion hn ⟨leaf, hleaf, rfl⟩
    rw [hs'] at hr
    rw [← Option.some.inj hr]
    exact hinv
  | setVersion id version =>
    obtain ⟨leaf, -, rfl⟩ := Option.map_eq_some_iff.1 hs
    exact ⟨h.valid, h.dims, h.regs, h.tracks⟩

/-- After any calls, registrations and new versions, a registration returns parts that tile the region,
each inside its parent, whose version is the greatest among the regions registered over the part other
than the whole object, and the greatest version of the parents. -/
theorem registration_parts {sizes : List Nat} {sparse : Bool} {d : RegionDictionary}
    (hsizes : sizes ≠ []) (hpos : ∀ size ∈ sizes, 0 < size)
    (hd : Reach RegionDictionary.step (RegionDictionary.Call.Ok sizes.length) (.new sizes) d)
    (hs : Reach step (Event.Ok sizes.length) (new sizes.length sparse d) s)
    (hA : s.dict.HasBox id A) :
    ∃ parts version' s', s.registerRegion id version = some (parts, version', s') ∧
      PartsOf s id version A parts version' s'.dict := by
  have hn : 0 < sizes.length := List.length_pos_of_ne_nil hsizes
  have hinv : Inv sizes.length s :=
    hs.invariant (inv_new (RegionDictionary.reach_valid hsizes hpos hd)) fun _ _ _ hi he hstep =>
      step_inv hi hn he hstep
  obtain ⟨parts, version', s', hreg, hparts, -⟩ := hinv.registerRegion hn hA
  exact ⟨parts, version', s', hreg, hparts⟩

/-- Two overlapping regions of an object of 10 bytes, the first registered with version 3. -/
theorem registration_parts_overlap :
    ∃ s parts version' s', Reach step (Event.Ok 1) (new 1 false (.new [10])) s ∧
      s.registerRegion 3 0 = some (parts, version', s') ∧ parts = [(4, 2), (5, 3)] ∧
      PartsOf s 3 0 [⟨4, 6⟩] parts version' s'.dict := by
  obtain ⟨s, hreach, hp⟩ := exists_reach_of_guarded_run step (Event.Ok 1) (new 1 false (.new [10]))
    [.call (.addRegion [⟨0, 6⟩]), .call (.addRegion [⟨4, 6⟩]), .registerRegion 2 0, .setVersion 2 3]
    (fun s => decide ((s.dict.getRegionNode 3).map Leaf.box = some [⟨4, 6⟩] ∧
      (s.registerRegion 3 0).map (·.1) = some [(4, 2), (5, 3)])) (by decide)
  obtain ⟨hbox, hparts⟩ := of_decide_eq_true hp
  obtain ⟨leaf, hleaf⟩ := Option.map_eq_some_iff.1 hbox
  have hsizes : ([10] : List Nat) ≠ [] := by decide
  obtain ⟨parts, version', s', hreg, hspec⟩ :=
    @registration_parts 3 0 s _ _ false _ hsizes (by decide) .refl hreach ⟨leaf, hleaf⟩
  refine ⟨s, parts, version', s', hreach, hreg, ?_, hspec⟩
  rw [hreg] at hparts
  exact Option.some.inj hparts

/-- The whole object is registered and gets version 5; then half of it is registered. The part is its own
parent, with a smaller version than the whole object, which contains it. -/
theorem parent_below_whole :
    ∃ s parts version' s', Reach step (Event.Ok 1) (new 1 false (.new [10])) s ∧
      s.registerRegion 2 0 = some (parts, version', s') ∧
      ∃ p ∈ parts, ∃ r ∈ s.registered, Within s'.dict p.1 r ∧ s.getVersion p.2 < s.getVersion r := by
  obtain ⟨s, hreach, hp⟩ := exists_reach_of_guarded_run step (Event.Ok 1) (new 1 false (.new [10]))
    [.registerRegion 1 0, .setVersion 1 5, .call (.addRegion [⟨0, 5⟩])]
    (fun s => (s.registerRegion 2 0).any fun r : List (Nat × Nat) × Nat × PartDictionary =>
      decide (r.1 = [(2, 2)] ∧ 1 ∈ s.registered ∧ s.getVersion 2 < s.getVersion 1 ∧
        (r.2.2.dict.getRegionNode 2).map Leaf.box = some [⟨0, 5⟩] ∧
        (r.2.2.dict.getRegionNode 1).map Leaf.box = some [⟨0, 10⟩])) (by decide)
  obtain ⟨⟨parts, version', s'⟩, hreg, hr⟩ := (Option.any_eq_true _ _).1 hp
  obtain ⟨hparts, h1, hlt, hbox2, hbox1⟩ := of_decide_eq_true hr
  obtain ⟨leaf2, hleaf2⟩ := Option.map_eq_some_iff.1 hbox2
  obtain ⟨leaf1, hleaf1⟩ := Option.map_eq_some_iff.1 hbox1
  refine ⟨s, parts, version', s', hreach, hreg, (2, 2), ?_, 1, h1, ?_, hlt⟩
  · rw [show parts = [(2, 2)] from hparts]
    exact List.mem_singleton_self _
  · refine ⟨_, _, ⟨leaf2, hleaf2⟩, ⟨leaf1, hleaf1⟩, fun x hx => ?_⟩
    obtain ⟨y, z, hy, hz, rfl⟩ := List.forall₂_cons_left_iff.1 hx
    refine .cons ?_ hz
    simp only [Span.Mem] at hy ⊢
    omega

end PartDictionary

end OmpSs.Core
