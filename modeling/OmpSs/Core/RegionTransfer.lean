import OmpSs.Core.GlobalReg
import OmpSs.Lib.MixedRadix
import Mathlib.Data.List.Nodup

/-!
# The transfers of a region

`RegionCache::doOp` (`nanox-mx/src/core/regioncache.cpp:1525`) moves a region of several dimensions
between the host and a device: contiguous pieces, or rows of one length at a fixed distance (strided)
where the devices' packing is used. The innermost dimensions that are accessed whole are contiguous; the
loop that counts them reads a dimension before it compares its index with their number, so it reads
behind the array when all dimensions are accessed whole. The loop over the rows of a dimension counts them
in an `unsigned int`, so it goes on for ever where there are 2^32 of them or more.
-/

namespace OmpSs.Core

open Lib

/-! ## The program -/

/-- A request to the device. Source: the calls of `Op::doNoStrided` and `Op::doStrided`
(`regioncache.cpp:1561`, `:1567`). -/
inductive Transfer
  | noStrided (devAddr hostAddr : Int) (size : Nat)
  | strided (devAddr hostAddr : Int) (size count ld : Nat)
deriving DecidableEq

namespace RegionCache

/-- The loop over the dimensions that are accessed whole: the index of the first other one (the cutoff)
and the number of contiguous bytes. `none`: the loop reads behind the array. Source:
`regioncache.cpp:1582`. -/
def contiguousPrefix : List (Nat × Span) → Nat → Nat → Option (Nat × Nat)
  | [], _, _ => none
  | (size, s) :: rest, dim_idx, contiguous_chunk_size =>
    if s.accessedLength = size then contiguousPrefix rest (dim_idx + 1) (contiguous_chunk_size * size)
    else some (dim_idx, contiguous_chunk_size)

/-- The values of the loop's counter, an `unsigned int`, below the accessed length, a `size_t`. `none`: the
loop does not end. Source: `regioncache.cpp:1571`. -/
def rows (accessedLength : Nat) : Option (List Nat) :=
  if accessedLength < 2 ^ 32 then some (List.range accessedLength) else none

section
variable (region : List (Nat × Span)) (cutoff contiguousChunkSize : Nat) (usePacking : Bool)
  (devBaseAddr hostBaseAddr : Int)

/-- One call of `issueOpsRecursive`; `recurse` is the call for the next dimension inwards, with its
offset and its `current_top_ld`. `none`: a read outside the array, or a loop that does not end. -/
def issueOps (recurse : Nat → Nat → Option (List Transfer)) (offset current_dim current_top_ld : Nat) :
    Option (List Transfer) :=
  region[current_dim]?.bind fun r =>
    let current_ld := current_top_ld / r.1
    let this_offset := offset + r.2.lowerBound * current_ld
    if current_dim = cutoff + 1 ∧ r.2.accessedLength > 1 ∧ usePacking then
      region[current_dim - 1]?.map fun r' =>
        let extra_offset := r'.2.lowerBound * (current_ld / r'.1)
        [.strided (devBaseAddr + this_offset + extra_offset) (hostBaseAddr + this_offset + extra_offset)
          (contiguousChunkSize * r'.2.accessedLength) r.2.accessedLength current_ld]
    else if current_dim ≤ cutoff then
      some [.noStrided (devBaseAddr + this_offset) (hostBaseAddr + this_offset)
        (if current_dim < cutoff then contiguousChunkSize
          else contiguousChunkSize * r.2.accessedLength)]
    else
      (rows r.2.accessedLength).bind fun is =>
        (is.mapM fun i => recurse (this_offset + i * current_ld) current_ld).map List.flatten

/-- Source: `LocalFunction::issueOpsRecursive` (`regioncache.cpp:1551`). -/
def issueOpsRecursive : Nat → Nat → Nat → Option (List Transfer)
  | offset, 0, current_top_ld =>
    issueOps region cutoff contiguousChunkSize usePacking devBaseAddr hostBaseAddr (fun _ _ => none)
      offset 0 current_top_ld
  | offset, d + 1, current_top_ld =>
    issueOps region cutoff contiguousChunkSize usePacking devBaseAddr hostBaseAddr
      (fun offset' ld => issueOpsRecursive offset' d ld) offset (d + 1) current_top_ld

/-- The array is `region`, as `global_reg_t::fillDimensionData` fills it. Source: `RegionCache::doOp`
(`regioncache.cpp:1525`). -/
def doOp (s : Shape) (devBaseAddr : Int) : Option (List Transfer) :=
  (contiguousPrefix s.dims 0 1).bind fun r =>
    let top_ld := (s.dims.map (·.1)).prod
    let offset := s.getFirstAddress 0
    issueOpsRecursive s.dims r.1 r.2 usePacking (devBaseAddr - offset) (s.getRealFirstAddress - offset)
      0 (s.dims.length - 1) top_ld

end

/-! ## What is to be moved -/

/-- The pairs of a host byte and a device byte at the same offsets from two bases. -/
def atOffsets (hostBase devBase : Int) (offsets : List Nat) : List (Int × Int) :=
  offsets.map fun (o : Nat) => (hostBase + o, devBase + o)

end RegionCache

/-- The bytes a request moves, each with the byte it is moved to or from. -/
def Transfer.bytes : Transfer → List (Int × Int)
  | .noStrided devAddr hostAddr size => RegionCache.atOffsets hostAddr devAddr (List.range size)
  | .strided devAddr hostAddr size count ld =>
    (List.range count).flatMap fun (i : Nat) =>
      RegionCache.atOffsets (hostAddr + i * ld) (devAddr + i * ld) (List.range size)

namespace Shape

/-- The byte at offset `o` of the object is one of the region's. -/
def HasOffset (s : Shape) (o : Nat) : Prop :=
  ∃ position : List Nat,
    List.Forall₂ (fun x d => d.2.lowerBound ≤ x ∧ x < d.2.lowerBound + d.2.accessedLength) position s.dims ∧
      place (s.dims.map (·.1)) position = o

/-- The region lies in its object. -/
def Within (s : Shape) : Prop := ∀ d ∈ s.dims, d.2.lowerBound + d.2.accessedLength ≤ d.1

instance (s : Shape) : Decidable s.Within := inferInstanceAs (Decidable (∀ d ∈ s.dims, _))

end Shape

namespace RegionCache

/-- The requests move the region's bytes and no others, each once, between the host and the device at the
same distance from the region's first byte. -/
structure MovesRegion (s : Shape) (devBaseAddr : Int) (ops : List Transfer) : Prop where
  exact : ∀ h d, (h, d) ∈ ops.flatMap Transfer.bytes ↔ ∃ o, s.HasOffset o ∧
    h = s.getRealFirstAddress - s.getFirstAddress 0 + o ∧ d = devBaseAddr - s.getFirstAddress 0 + o
  once : (ops.flatMap Transfer.bytes).Nodup

/-- Some dimension is not accessed whole, and the accessed lengths of the dimensions whose rows are counted
are below 2^32: those outside the first such dimension, without the next one where its rows are packed. -/
def Countable (usePacking : Bool) : List (Nat × Span) → Prop
  | [] => False
  | d :: rest =>
    if d.2.accessedLength = d.1 then Countable usePacking rest
    else ∀ e ∈ if usePacking then rest.tail else rest, e.2.accessedLength < 2 ^ 32

instance decidableCountable (usePacking : Bool) :
    (dims : List (Nat × Span)) → Decidable (Countable usePacking dims)
  | [] => inferInstanceAs (Decidable False)
  | d :: rest =>
    have := decidableCountable usePacking rest
    inferInstanceAs (Decidable (if d.2.accessedLength = d.1 then Countable usePacking rest
      else ∀ e ∈ if usePacking then rest.tail else rest, e.2.accessedLength < 2 ^ 32))

/-! ## The offsets of a region -/

section
variable {dims : List (Nat × Span)} {d : Nat × Span}

/-- The region's offsets in the order of its positions, the innermost dimension varying fastest. -/
def offsetsOf (dims : List (Nat × Span)) : List Nat :=
  (boxes (dims.map fun d => List.range' d.2.lowerBound d.2.accessedLength)).map (place (dims.map (·.1)))

theorem mem_offsetsOf {s : Shape} {o : Nat} : o ∈ offsetsOf s.dims ↔ s.HasOffset o := by
  simp only [offsetsOf, List.mem_map, mem_boxes_iff, List.forall₂_map_right_iff, List.mem_range'_1]
  rfl

theorem offsetsOf_nodup (h : ∀ d ∈ dims, d.2.lowerBound + d.2.accessedLength ≤ d.1) :
    (offsetsOf dims).Nodup := by
  have hlt : ∀ position ∈ boxes (dims.map fun d => List.range' d.2.lowerBound d.2.accessedLength),
      List.Forall₂ (· < ·) position (dims.map (·.1)) := by
    intro position hposition
    have hmem := mem_boxes_iff.1 hposition
    rw [List.forall₂_map_right_iff] at hmem ⊢
    refine List.forall₂_iff_zip.2 ⟨hmem.length_eq, fun {x d} hxd => ?_⟩
    have hx := List.mem_range'_1.1 ((List.forall₂_iff_zip.1 hmem).2 hxd)
    exact lt_of_lt_of_le hx.2 (h d (List.of_mem_zip hxd).2)
  refine List.Nodup.map_on (fun x hx y hy => place_injective (hlt x hx) (hlt y hy)) (nodup_boxes ?_)
  intro l hl
  obtain ⟨d, -, rfl⟩ := List.mem_map.1 hl
  exact List.nodup_range'

/-- The outermost dimension repeats the offsets of the others, a row behind a row. -/
theorem offsetsOf_concat : offsetsOf (dims ++ [d]) =
    (List.range' d.2.lowerBound d.2.accessedLength).flatMap fun i =>
      (offsetsOf dims).map (· + (dims.map (·.1)).prod * i) := by
  simp only [offsetsOf, List.map_append, List.map_cons, List.map_nil, boxes_append_singleton,
    List.map_flatMap, List.map_map]
  refine List.flatMap_congr fun i _ => List.map_congr_left fun position hposition => ?_
  have hlen := (mem_boxes_iff.1 hposition).length_eq
  rw [List.length_map] at hlen
  exact place_append_singleton (by rw [hlen, List.length_map])

/-- Dimensions accessed whole are contiguous. -/
theorem offsetsOf_full (h : ∀ d ∈ dims, d.2.lowerBound = 0 ∧ d.2.accessedLength = d.1) :
    offsetsOf dims = List.range (dims.map (·.1)).prod := by
  have hranges : (dims.map fun d => List.range' d.2.lowerBound d.2.accessedLength) =
      (dims.map (·.1)).map List.range := by
    rw [List.map_map]
    refine List.map_congr_left fun d hd => ?_
    rw [(h d hd).1, (h d hd).2, Function.comp_apply, List.range_eq_range']
  rw [offsetsOf, hranges, map_place_boxes]

/-- The first dimension that is not accessed whole adds one piece of the contiguous ones. -/
theorem offsetsOf_full_concat (h : ∀ d ∈ dims, d.2.lowerBound = 0 ∧ d.2.accessedLength = d.1) :
    offsetsOf (dims ++ [d]) = (List.range ((dims.map (·.1)).prod * d.2.accessedLength)).map
      (· + (dims.map (·.1)).prod * d.2.lowerBound) := by
  rw [offsetsOf_concat, offsetsOf_full h, flatMap_rows]

end

/-! ## The loops -/

section
variable {region : List (Nat × Span)} {i c : Nat}

/-- The loop over whole dimensions runs off the array when there is no other one, and stops at the first
other one else. -/
theorem contiguousPrefix_cases (region : List (Nat × Span)) (i c : Nat) :
    ((∀ d ∈ region, d.2.accessedLength = d.1) ∧ contiguousPrefix region i c = none) ∨
    ∃ whole d rest, region = whole ++ d :: rest ∧ (∀ e ∈ whole, e.2.accessedLength = e.1) ∧
      d.2.accessedLength ≠ d.1 ∧
      contiguousPrefix region i c = some (i + whole.length, c * (whole.map (·.1)).prod) := by
  induction region generalizing i c with
  | nil => exact .inl ⟨by simp, rfl⟩
  | cons e region ih =>
    obtain ⟨size, s⟩ := e
    by_cases hs : s.accessedLength = size
    · rw [contiguousPrefix, if_pos hs]
      rcases ih (i + 1) (c * size) with ⟨hall, hnone⟩ | ⟨whole, d, rest, rfl, hwhole, hd, hsome⟩
      · exact .inl ⟨List.forall_mem_cons.2 ⟨hs, hall⟩, hnone⟩
      · refine .inr ⟨(size, s) :: whole, d, rest, rfl, List.forall_mem_cons.2 ⟨hs, hwhole⟩, hd, ?_⟩
        rw [hsome, List.map_cons, List.prod_cons, List.length_cons, Nat.mul_assoc, Nat.add_assoc,
          Nat.add_comm 1]
    · rw [contiguousPrefix, if_neg hs]
      exact .inr ⟨[], (size, s), region, rfl, by simp, hs, by simp⟩

/-- The condition, by the first dimension that is not accessed whole. -/
theorem countable_append {usePacking : Bool} {whole rest : List (Nat × Span)} {d : Nat × Span}
    (hwhole : ∀ e ∈ whole, e.2.accessedLength = e.1) (hd : d.2.accessedLength ≠ d.1) :
    Countable usePacking (whole ++ d :: rest) ↔
      ∀ e ∈ if usePacking then rest.tail else rest, e.2.accessedLength < 2 ^ 32 := by
  induction whole with
  | nil => rw [List.nil_append, Countable, if_neg hd]
  | cons e whole ih =>
    rw [List.cons_append, Countable, if_pos (hwhole e List.mem_cons_self)]
    exact ih fun e he => hwhole e (List.mem_cons_of_mem _ he)

theorem not_countable_of_whole {usePacking : Bool} (h : ∀ d ∈ region, d.2.accessedLength = d.1) :
    ¬ Countable usePacking region := by
  induction region with
  | nil => exact id
  | cons d region ih =>
    rw [Countable, if_pos (h d List.mem_cons_self)]
    exact ih fun e he => h e (List.mem_cons_of_mem _ he)

theorem mapM_eq_some {α β : Type} {f : α → Option β} {g : α → β} {l : List α}
    (h : ∀ a ∈ l, f a = some (g a)) : l.mapM f = some (l.map g) := by
  induction l with
  | nil => rfl
  | cons a l ih =>
    rw [List.mapM_cons, h a List.mem_cons_self, ih fun b hb => h b (List.mem_cons_of_mem _ hb)]
    rfl

end

section
variable {hostBase devBase : Int} {offsets : List Nat} {c : Nat}

theorem atOffsets_add : atOffsets hostBase devBase (offsets.map (· + c)) =
    atOffsets (hostBase + c) (devBase + c) offsets := by
  rw [atOffsets, atOffsets, List.map_map]
  refine List.map_congr_left fun o _ => ?_
  simp only [Function.comp_apply, Prod.mk.injEq]
  push_cast
  exact ⟨by ring, by ring⟩

theorem atOffsets_flatMap {l : List Nat} {f : Nat → List Nat} :
    atOffsets hostBase devBase (l.flatMap f) = l.flatMap fun i => atOffsets hostBase devBase (f i) :=
  List.map_flatMap

end

section
variable {region : List (Nat × Span)} {cutoff : Nat} {usePacking : Bool} {devBaseAddr hostBaseAddr : Int}

/-- The product of the sizes of the dimensions up to `n`: the distance from a position of dimension `n` to
the next. -/
def leading (region : List (Nat × Span)) (n : Nat) : Nat := ((region.take n).map (·.1)).prod

theorem leading_succ {n : Nat} {d : Nat × Span} (h : region[n]? = some d) :
    leading region (n + 1) = leading region n * d.1 := by
  rw [leading, leading, List.take_add_one, h, Option.toList_some, List.map_append, List.prod_append]
  simp

theorem offsetsOf_take_succ {n : Nat} {d : Nat × Span} (h : region[n]? = some d) :
    offsetsOf (region.take (n + 1)) =
      (List.range d.2.accessedLength).flatMap fun i =>
        (offsetsOf (region.take n)).map (· + leading region n * (d.2.lowerBound + i)) := by
  rw [List.take_add_one, h, Option.toList_some, offsetsOf_concat, List.range'_eq_map_range,
    List.flatMap_map]
  rfl

/-- A call for the cutoff dimension moves one contiguous piece. -/
theorem issueOps_cutoff {recurse : Nat → Nat → Option (List Transfer)} {d : Nat × Span} (offset : Nat)
    (hwhole : ∀ d ∈ region.take cutoff, d.2.lowerBound = 0 ∧ d.2.accessedLength = d.1)
    (hd : region[cutoff]? = some d) (hpos : 0 < d.1) :
    ∃ ops, issueOps region cutoff (leading region cutoff) usePacking devBaseAddr hostBaseAddr recurse
        offset cutoff (leading region (cutoff + 1)) = some ops ∧
      ops.flatMap Transfer.bytes = atOffsets (hostBaseAddr + offset) (devBaseAddr + offset)
        (offsetsOf (region.take (cutoff + 1))) := by
  refine ⟨[.noStrided (devBaseAddr + (offset + d.2.lowerBound * leading region cutoff : Nat))
    (hostBaseAddr + (offset + d.2.lowerBound * leading region cutoff : Nat))
    (leading region cutoff * d.2.accessedLength)], ?_, ?_⟩
  · rw [issueOps, hd, Option.bind_some, leading_succ hd, Nat.mul_div_cancel _ hpos]
    simp
  · rw [List.take_add_one, hd, Option.toList_some, offsetsOf_full_concat hwhole, atOffsets_add,
      List.flatMap_singleton, Transfer.bytes]
    unfold leading
    push_cast
    congr 1 <;> ring

/-- A call for the dimension outside the cutoff dimension moves rows of contiguous pieces in one
request. -/
theorem issueOps_strided {recurse : Nat → Nat → Option (List Transfer)} {d d' : Nat × Span} (offset : Nat)
    (hwhole : ∀ d ∈ region.take cutoff, d.2.lowerBound = 0 ∧ d.2.accessedLength = d.1)
    (hd : region[cutoff + 1]? = some d) (hd' : region[cutoff]? = some d') (hpos : 0 < d.1)
    (hpos' : 0 < d'.1) (hmany : 1 < d.2.accessedLength) (hpacking : usePacking = true) :
    ∃ ops, issueOps region cutoff (leading region cutoff) usePacking devBaseAddr hostBaseAddr recurse
        offset (cutoff + 1) (leading region (cutoff + 2)) = some ops ∧
      ops.flatMap Transfer.bytes = atOffsets (hostBaseAddr + offset) (devBaseAddr + offset)
        (offsetsOf (region.take (cutoff + 2))) := by
  have hld : leading region (cutoff + 2) / d.1 = leading region (cutoff + 1) := by
    rw [leading_succ hd]
    exact Nat.mul_div_cancel _ hpos
  have hld' : leading region (cutoff + 1) / d'.1 = leading region cutoff := by
    rw [leading_succ hd']
    exact Nat.mul_div_cancel _ hpos'
  rw [issueOps, hd, Option.bind_some, hld, if_pos ⟨rfl, hmany, hpacking⟩, Nat.add_sub_cancel, hd',
    Option.map_some, hld']
  refine ⟨_, rfl, ?_⟩
  rw [offsetsOf_take_succ hd, List.take_add_one, hd', Option.toList_some, offsetsOf_full_concat hwhole,
    atOffsets_flatMap, List.flatMap_singleton, Transfer.bytes]
  refine List.flatMap_congr fun i _ => ?_
  rw [atOffsets_add, atOffsets_add]
  rw [show ((region.take cutoff).map (·.1)).prod = leading region cutoff from rfl]
  push_cast
  congr 1 <;> ring

/-- A call for a dimension further outside repeats the next one's. -/
theorem issueOps_loop {recurse : Nat → Nat → Option (List Transfer)} {d : Nat × Span} {n : Nat}
    (offset : Nat) (hd : region[n]? = some d) (hpos : 0 < d.1) (hn : cutoff < n)
    (hnot : ¬ (n = cutoff + 1 ∧ 1 < d.2.accessedLength ∧ usePacking = true))
    (hrows : d.2.accessedLength < 2 ^ 32)
    (hrec : ∀ offset, ∃ ops, recurse offset (leading region n) = some ops ∧
      ops.flatMap Transfer.bytes = atOffsets (hostBaseAddr + offset) (devBaseAddr + offset)
        (offsetsOf (region.take n))) :
    ∃ ops, issueOps region cutoff (leading region cutoff) usePacking devBaseAddr hostBaseAddr recurse
        offset n (leading region (n + 1)) = some ops ∧
      ops.flatMap Transfer.bytes = atOffsets (hostBaseAddr + offset) (devBaseAddr + offset)
        (offsetsOf (region.take (n + 1))) := by
  choose ops hops hbytes using hrec
  have hld : leading region (n + 1) / d.1 = leading region n := by
    rw [leading_succ hd]
    exact Nat.mul_div_cancel _ hpos
  rw [issueOps, hd, Option.bind_some, hld, if_neg hnot, if_neg (by omega), rows, if_pos hrows,
    Option.bind_some, mapM_eq_some (g := fun i => ops (offset + d.2.lowerBound * leading region n + i * leading region n))
      (fun i _ => hops _), Option.map_some]
  refine ⟨_, rfl, ?_⟩
  rw [offsetsOf_take_succ hd, atOffsets_flatMap, ← List.flatMap_def, List.flatMap_assoc]
  refine List.flatMap_congr fun i _ => ?_
  rw [hbytes, atOffsets_add]
  push_cast
  congr 1 <;> ring

/-- The requests from a dimension on, from the cutoff on outwards, move the offsets of the region's inner
dimensions. -/
theorem issueOpsRecursive_spec (usePacking : Bool) (devBaseAddr hostBaseAddr : Int)
    (hpos : ∀ d ∈ region, 0 < d.1)
    (hwhole : ∀ d ∈ region.take cutoff, d.2.lowerBound = 0 ∧ d.2.accessedLength = d.1)
    (hrows : ∀ n d, cutoff < n → ¬ (n = cutoff + 1 ∧ usePacking = true) → region[n]? = some d →
      d.2.accessedLength < 2 ^ 32) (k offset : Nat) (hk : cutoff + k < region.length) :
    ∃ ops, issueOpsRecursive region cutoff (leading region cutoff) usePacking devBaseAddr hostBaseAddr
        offset (cutoff + k) (leading region (cutoff + k + 1)) = some ops ∧
      ops.flatMap Transfer.bytes = atOffsets (hostBaseAddr + offset) (devBaseAddr + offset)
        (offsetsOf (region.take (cutoff + k + 1))) := by
  have hget : ∀ n, (hn : n < region.length) → region[n]? = some region[n] :=
    fun n hn => List.getElem?_eq_getElem hn
  have hsize : ∀ n, (hn : n < region.length) → 0 < region[n].1 := fun n hn => hpos _ (List.getElem_mem hn)
  induction k generalizing offset with
  | zero =>
    cases cutoff with
    | zero => exact issueOps_cutoff offset hwhole (hget _ hk) (hsize _ hk)
    | succ c => exact issueOps_cutoff offset hwhole (hget _ hk) (hsize _ hk)
  | succ k ih =>
    have hk' : cutoff + k < region.length := by omega
    by_cases hstrided : cutoff + (k + 1) = cutoff + 1 ∧ 1 < region[cutoff + (k + 1)].2.accessedLength ∧
        usePacking = true
    · obtain ⟨hzero, hmany, hpacking⟩ := hstrided
      obtain rfl : k = 0 := by omega
      exact issueOps_strided offset hwhole (hget _ hk) (hget _ hk') (hsize _ hk) (hsize _ hk') hmany hpacking
    · have hcount : region[cutoff + (k + 1)].2.accessedLength < 2 ^ 32 := by
        by_cases hpacked : cutoff + (k + 1) = cutoff + 1 ∧ usePacking = true
        · have hone : ¬ 1 < region[cutoff + (k + 1)].2.accessedLength := fun hmany =>
            hstrided ⟨hpacked.1, hmany, hpacked.2⟩
          omega
        · exact hrows _ _ (by omega) hpacked (hget _ hk)
      exact issueOps_loop offset (hget _ hk) (hsize _ hk)
        (Nat.lt_succ_of_le (Nat.le_add_right _ _)) hstrided hcount fun offset' => ih offset' hk'

/-- The requests of a dimension with too many rows to count, or of one outside of it, never come to an
end. -/
theorem issueOpsRecursive_eq_none (usePacking : Bool) (devBaseAddr hostBaseAddr : Int) {c n : Nat}
    {d : Nat × Span} (hpos : ∀ d ∈ region, 0 < d.2.accessedLength) (hn : cutoff < n)
    (hloop : ¬ (n = cutoff + 1 ∧ usePacking = true)) (hd : region[n]? = some d)
    (hmany : 2 ^ 32 ≤ d.2.accessedLength) (k offset ld : Nat) :
    issueOpsRecursive region cutoff c usePacking devBaseAddr hostBaseAddr offset (n + k) ld = none := by
  induction k generalizing offset ld with
  | zero =>
    obtain ⟨m, rfl⟩ : ∃ m, n = m + 1 := ⟨n - 1, by omega⟩
    have hstrided : ¬ (m + 1 = cutoff + 1 ∧ d.2.accessedLength > 1 ∧ usePacking = true) := fun h =>
      hloop ⟨h.1, h.2.2⟩
    rw [Nat.add_zero, issueOpsRecursive, issueOps, hd, Option.bind_some, if_neg hstrided,
      if_neg (by omega), rows, if_neg (by omega)]
    rfl
  | succ k ih =>
    rw [← Nat.add_assoc, issueOpsRecursive, issueOps]
    cases hget : region[n + k + 1]? with
    | none => rfl
    | some e =>
      rw [Option.bind_some, if_neg (by omega), if_neg (by omega), rows]
      split
      · -- the first row does not come to an end
        obtain ⟨m, hm⟩ : ∃ m, e.2.accessedLength = m + 1 :=
          ⟨e.2.accessedLength - 1, by have := hpos e (List.mem_of_getElem? hget); omega⟩
        rw [Option.bind_some, hm, List.range_succ_eq_map, List.mapM_cons, ih]
        rfl
      · rfl

end

section
variable {s : Shape} {usePacking : Bool} {devBaseAddr : Int}

/-- The dimensions outside the cutoff dimension are those behind it in the array. -/
theorem getElem?_outside {whole rest : List (Nat × Span)} {d e : Nat × Span} {n : Nat}
    (h : (whole ++ d :: rest)[n]? = some e) (hn : whole.length < n) :
    rest[n - (whole.length + 1)]? = some e := by
  obtain ⟨m, rfl⟩ : ∃ m, n = whole.length + 1 + m := ⟨n - (whole.length + 1), by omega⟩
  rw [List.getElem?_append_right (by omega), show whole.length + 1 + m - whole.length = m + 1 by omega,
    List.getElem?_cons_succ] at h
  rwa [Nat.add_sub_cancel_left]

theorem doOp_eq_none (hnot : ¬ Countable usePacking s.dims) : doOp usePacking s devBaseAddr = none := by
  rcases contiguousPrefix_cases s.dims 0 1 with ⟨-, hnone⟩ | ⟨whole, d, rest, hdims, hwhole, hd, hsome⟩
  · rw [doOp, hnone]
    rfl
  -- a dimension outside of the cutoff has too many rows
  rw [hdims, countable_append hwhole hd] at hnot
  push Not at hnot
  obtain ⟨e, he, hmany⟩ := hnot
  have hmem : ∃ n, whole.length < n ∧ ¬ (n = whole.length + 1 ∧ usePacking = true) ∧
      s.dims[n]? = some e := by
    cases usePacking with
    | false =>
      obtain ⟨m, hm⟩ := List.mem_iff_getElem?.1 he
      refine ⟨whole.length + (m + 1), by omega, by simp, ?_⟩
      rw [hdims, List.getElem?_append_right (by omega), Nat.add_sub_cancel_left]
      exact hm
    | true =>
      obtain ⟨m, hm⟩ := List.mem_iff_getElem?.1 he
      refine ⟨whole.length + (m + 2), by omega, by omega, ?_⟩
      rw [hdims, List.getElem?_append_right (by omega), Nat.add_sub_cancel_left, List.getElem?_cons_succ,
        ← hm, if_pos rfl, List.getElem?_tail]
  obtain ⟨n, hn, hloop, hget⟩ := hmem
  have hlt := (List.getElem?_eq_some_iff.1 hget).1
  obtain ⟨k, hk⟩ : ∃ k, s.dims.length - 1 = n + k := ⟨s.dims.length - 1 - n, by omega⟩
  rw [doOp, hsome, Option.bind_some, hk]
  exact issueOpsRecursive_eq_none usePacking _ _ s.pos ((Nat.zero_add _).trans_lt hn)
    (by rwa [Nat.zero_add]) hget hmany ..

/-- The requests move the region's offsets in the order of its positions. -/
theorem doOp_spec (usePacking : Bool) (devBaseAddr : Int) (hin : s.Within)
    (hcount : Countable usePacking s.dims) :
    ∃ ops, doOp usePacking s devBaseAddr = some ops ∧
      ops.flatMap Transfer.bytes = atOffsets (s.getRealFirstAddress - s.getFirstAddress 0)
        (devBaseAddr - s.getFirstAddress 0) (offsetsOf s.dims) := by
  rcases contiguousPrefix_cases s.dims 0 1 with ⟨hall, -⟩ | ⟨whole, e, rest, hdims, hwhole, he, hsome⟩
  · exact absurd hcount (not_countable_of_whole hall)
  have hpos : ∀ d ∈ s.dims, 0 < d.1 := fun d hd => by
    have := s.pos d hd
    have := hin d hd
    omega
  have htake : s.dims.take whole.length = whole := by
    rw [hdims]
    exact List.take_left
  have hcut : ∀ d ∈ s.dims.take whole.length, d.2.lowerBound = 0 ∧ d.2.accessedLength = d.1 := by
    intro d hd
    have hall := hin d (List.mem_of_mem_take hd)
    have heq := hwhole d (htake ▸ hd)
    exact ⟨by omega, heq⟩
  have hlen : s.dims.length = whole.length + rest.length + 1 := by
    rw [hdims, List.length_append, List.length_cons, Nat.add_assoc]
  have hrows : ∀ n d, whole.length < n → ¬ (n = whole.length + 1 ∧ usePacking = true) →
      s.dims[n]? = some d → d.2.accessedLength < 2 ^ 32 := by
    intro n d hn hloop hget
    rw [hdims, countable_append hwhole he] at hcount
    rw [hdims] at hget
    have hrest := getElem?_outside hget hn
    refine hcount d ?_
    cases usePacking with
    | false => exact List.mem_of_getElem? hrest
    | true =>
      have hne : n ≠ whole.length + 1 := fun h => hloop ⟨h, rfl⟩
      obtain ⟨m, hm⟩ : ∃ m, n - (whole.length + 1) = m + 1 := ⟨n - (whole.length + 2), by omega⟩
      rw [hm] at hrest
      rw [if_pos rfl]
      exact List.mem_of_getElem? (i := m) (by rw [List.getElem?_tail, hrest])
  obtain ⟨ops, hops, hbytes⟩ := issueOpsRecursive_spec usePacking
    (devBaseAddr - s.getFirstAddress 0) (s.getRealFirstAddress - s.getFirstAddress 0) hpos hcut hrows
    rest.length 0 (by omega)
  refine ⟨ops, ?_, ?_⟩
  · have hleading : leading s.dims whole.length = 1 * (whole.map (·.1)).prod := by
      rw [leading, htake, Nat.one_mul]
    have htop : leading s.dims (whole.length + rest.length + 1) = (s.dims.map (·.1)).prod := by
      rw [leading, ← hlen, List.take_length]
    rw [doOp, hsome, Option.bind_some, ← hops, hleading, htop, hlen, Nat.add_sub_cancel, Nat.zero_add]
  · rw [hbytes, ← hlen, List.take_length, Nat.cast_zero, add_zero, add_zero]

/-- **A region is moved exactly when one of its dimensions is not accessed whole and the rows outside of the
first such dimension can be counted**: then each of its bytes is moved once and no other byte is, and else
the loop over whole dimensions reads behind the array, or one over rows does not end. -/
theorem doOp_moves_iff (s : Shape) (usePacking : Bool) (devBaseAddr : Int) (hin : s.Within) :
    (∃ ops, doOp usePacking s devBaseAddr = some ops ∧ MovesRegion s devBaseAddr ops) ↔
      Countable usePacking s.dims := by
  constructor
  · rintro ⟨ops, hops, -⟩
    by_contra hnot
    rw [doOp_eq_none hnot] at hops
    cases hops
  · intro hcount
    obtain ⟨ops, hops, hbytes⟩ := doOp_spec usePacking devBaseAddr hin hcount
    refine ⟨ops, hops, fun h d => ?_, ?_⟩
    · rw [hbytes, atOffsets, List.mem_map]
      simp only [mem_offsetsOf, Prod.mk.injEq]
      exact exists_congr fun o => and_congr_right fun _ => by rw [eq_comm, @eq_comm _ _ d]
    · rw [hbytes]
      refine (offsetsOf_nodup hin).map fun o o' heq => ?_
      have := congrArg Prod.fst heq
      dsimp only at this
      omega

/-- A region of two bytes in each of the rows 1 and 2 of an object of three rows of four bytes. -/
def corner : Shape where
  dims := [(4, ⟨1, 2⟩), (3, ⟨1, 2⟩)]
  realBaseAddress := 64
  pos := by decide

/-- Packed into one strided request. -/
theorem corner_moves : ∃ ops, doOp true corner 1024 = some ops ∧ MovesRegion corner 1024 ops :=
  (doOp_moves_iff corner true 1024 (by decide)).2 (by decide)

/-- A region that is its whole object: four bytes. -/
def wholeObject : Shape where
  dims := [(4, ⟨0, 4⟩)]
  realBaseAddress := 64
  pos := by decide

/-- The loop over the dimensions reads `region[1]` of an array of one dimension. -/
theorem wholeObject_not_moves :
    wholeObject.Within ∧
      ¬ ∃ ops, doOp true wholeObject 1024 = some ops ∧ MovesRegion wholeObject 1024 ops := by
  refine ⟨by decide, fun ⟨ops, hops, _⟩ => ?_⟩
  rw [doOp_eq_none (by decide)] at hops
  cases hops

end

end RegionCache

end OmpSs.Core
