import OmpSs.Support.MemoryMap
import Mathlib.Algebra.Order.BigOperators.GroupWithZero.List

/-!
# Regions of a registered object

`global_reg_t` (`nanox-mx/src/core/globalregt.cpp`) names a region by its object (`key`, the object's
dictionary) and the region's `id` in it. The dictionary gives the region's shape: a span of positions in
each dimension of the object, innermost dimension (bytes) first. From the shape come the first address,
the number of bytes (`getDataSize`) and the distance from the first byte to the last (`getBreadth`); the
last two differ where the region is not contiguous.
-/

namespace OmpSs.Core

open Support

/-- The name of a region. Source: `global_reg_t` (`globalregt_decl.hpp:31`). -/
structure GlobalReg where
  key : Nat
  id : Nat
deriving DecidableEq

namespace GlobalReg

/-- The comparison the source writes as `!=`: it looks at the keys only. Source:
`global_reg_t::operator!=` (`globalregt.hpp:46`). -/
def differs (a b : GlobalReg) : Bool := a.key != b.key

end GlobalReg

/-- The positions a region takes in one dimension. -/
structure Span where
  lowerBound : Nat
  accessedLength : Nat
deriving DecidableEq

/-- The region of the given dimensions, each with its size, lies in the object. -/
def InObject (dims : List (Nat × Span)) : Prop :=
  ∀ dim ∈ dims, 0 < dim.2.accessedLength ∧ dim.2.lowerBound + dim.2.accessedLength ≤ dim.1

/-- What the dictionary and the directory hold of a region: the sizes of the object's dimensions, the
region's span in each, the object's address, and the address in the region's directory entry (`none`:
there is no entry). -/
structure Shape where
  dims : List (Nat × Span)
  realBaseAddress : Nat
  entryBaseAddress : Option Nat := none
  pos : ∀ d ∈ dims, 0 < d.2.accessedLength

namespace Shape

/-- The loop over the dimensions, outermost first, that `getFirstAddress` and `getBreadth` share: the
offsets of the first and of the last byte, `acumSizes` being the size of a position of the dimension at
hand. Source: `globalregt.cpp:59`, `:82`. -/
def offsets (acumSizes : Nat) : List (Nat × Span) → Nat × Nat
  | [] => (0, 0)
  | (_, s) :: rest =>
    let acumSizes' := match rest with
      | [] => acumSizes
      | (size, _) :: _ => acumSizes / size
    let r := offsets acumSizes' rest
    (acumSizes * s.lowerBound + r.1, acumSizes * (s.lowerBound + s.accessedLength - 1) + r.2)

/-- The size of a position of the outermost dimension. -/
def outerSize (s : Shape) : Nat := (s.dims.dropLast.map (·.1)).prod

/-- Source: `global_reg_t::getFirstAddress` (`globalregt.cpp:50`). -/
def getFirstAddress (s : Shape) (baseAddress : Nat) : Nat :=
  baseAddress + (offsets s.outerSize s.dims.reverse).1

/-- Source: `global_reg_t::getRealFirstAddress` (`globalregt.cpp:34`). -/
def getRealFirstAddress (s : Shape) : Nat :=
  match s.entryBaseAddress with
  | none => s.getFirstAddress s.realBaseAddress
  | some entryBase =>
    let addr := if entryBase = 0 then s.realBaseAddress else entryBase
    if addr ≠ 0 then s.getFirstAddress addr else addr

/-- Source: `global_reg_t::getBreadth` (`globalregt.cpp:71`). -/
def getBreadth (s : Shape) : Nat :=
  let r := offsets s.outerSize s.dims.reverse
  (r.2 - r.1) + 1

/-- Source: `global_reg_t::getDataSize` (`globalregt.cpp:94`). -/
def getDataSize (s : Shape) : Nat := (s.dims.map (·.2.accessedLength)).prod

theorem getDataSize_pos (s : Shape) : 0 < s.getDataSize := by
  refine List.prod_pos fun n hn => ?_
  obtain ⟨d, hd, rfl⟩ := List.mem_map.1 hn
  exact s.pos d hd

/-- The interval a chunk is asked for: as many bytes as the region has, from its first address on. -/
def dataChunk (s : Shape) : MemoryChunk := ⟨s.getRealFirstAddress, s.getDataSize⟩

/-- The interval from the region's first byte to its last. -/
def extent (s : Shape) : MemoryChunk := ⟨s.getRealFirstAddress, s.getBreadth⟩

theorem dataChunk_pos (s : Shape) : 0 < s.dataChunk.len := s.getDataSize_pos

theorem extent_pos (s : Shape) : 0 < s.extent.len := Nat.succ_pos _

end Shape

end OmpSs.Core
