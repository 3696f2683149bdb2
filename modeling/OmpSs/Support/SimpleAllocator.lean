import OmpSs.Lib.Run
import OmpSs.Lib.SortedMap
import OmpSs.Lib.Tiling
import Mathlib.Algebra.BigOperators.Group.List.Basic
import Mathlib.Algebra.Order.Ring.Nat

/-!
# The simple allocator

`SimpleAllocator` (`nanox-mx/src/support/simpleallocator.cpp`) manages one contiguous memory area with
two maps from start address to length, the free chunks and the allocated chunks. `allocate` and
`alignedAllocate` take the first free chunk that is long enough and put back what is left of it,
`free` puts a chunk back and joins it with its neighbours.

Both directions replace some chunks of the area by others that cover the same addresses: an allocation
cuts one free chunk into at most three (`carve`), a release joins at most three into one (`joined`). So
the chunks tile the area in every state (`Laid`).

Arithmetic is that of 64-bit words. The size test of `alignedAllocate` adds the padding to the
requested size, and that sum can wrap: a request close to `2 ^ 64` then passes the test
(`not_laid_of_wrapped_request`).
-/

namespace OmpSs.Support

open Lib

/-! ## The program -/

abbrev SegmentMap := SortedMap Nat Nat

/-- Source: `SimpleAllocator` (`simpleallocator_decl.hpp:35`). `_baseAddress` and `_capacity` are not
read by the operations. -/
structure SimpleAllocator where
  allocatedChunks : SegmentMap
  freeChunks : SegmentMap
  remaining : Nat
deriving DecidableEq

namespace SimpleAllocator

def add64 (a b : Nat) : Nat := (a + b) % 2 ^ 64

def sub64 (a b : Nat) : Nat := (a + (2 ^ 64 - b)) % 2 ^ 64

/-- Source: `SimpleAllocator::SimpleAllocator` (`simpleallocator.cpp:29`). -/
def new (baseAddress len : Nat) : SimpleAllocator where
  allocatedChunks := .empty
  freeChunks := SortedMap.empty.insert baseAddress len
  remaining := len

/-- Source: `SimpleAllocator::allocate` (`simpleallocator.cpp:42`). The address `0` is `NULL`. -/
def allocate (s : SimpleAllocator) (size : Nat) : Nat × SimpleAllocator :=
  match s.freeChunks.entries.find? fun e => !decide (e.2 < size) with
  | none => (0, s)
  | some (targetAddr, chunkSize) =>
    let freeChunks := s.freeChunks.erase targetAddr
    (targetAddr,
      { freeChunks :=
          if chunkSize > size then freeChunks.insert (add64 targetAddr size) (chunkSize - size)
          else freeChunks
        allocatedChunks := s.allocatedChunks.insert targetAddr size
        remaining := sub64 s.remaining size })

/-- The address from `addr` on at which an aligned chunk starts. -/
def alignedAddr (alignment addr : Nat) : Nat :=
  add64 (addr &&& (2 ^ 64 - alignment)) (if addr &&& (alignment - 1) = 0 then 0 else alignment)

/-- Source: `SimpleAllocator::alignedAllocate` (`simpleallocator.cpp:78`). -/
def alignedAllocate (s : SimpleAllocator) (alignment size : Nat) : Nat × SimpleAllocator :=
  match s.freeChunks.entries.find? fun e =>
    !decide (e.2 < sub64 (add64 (alignedAddr alignment e.1) size) e.1) with
  | none => (0, s)
  | some (chunkAddr, chunkSize) =>
    let targetAddr := alignedAddr alignment chunkAddr
    let rest := sub64 (add64 chunkAddr chunkSize) (add64 targetAddr size)
    let freeChunks :=
      if chunkSize > size then
        let freeChunks :=
          if targetAddr = chunkAddr then s.freeChunks.erase chunkAddr
          else s.freeChunks.insert chunkAddr (sub64 targetAddr chunkAddr)
        if rest > 0 then freeChunks.insert (add64 targetAddr size) rest else freeChunks
      else if chunkSize = size then s.freeChunks.erase chunkAddr
      -- "Error, this does not make sense!" is printed, and the allocation goes on
      else s.freeChunks
    (targetAddr,
      { freeChunks := freeChunks
        allocatedChunks := s.allocatedChunks.insert targetAddr size
        remaining := sub64 s.remaining size })

/-- The free chunks after a chunk is put back (`simpleallocator.cpp:141` to `:193`); `none` is the
duplicate key, which is reported. -/
def putBack (m : SegmentMap) (address size : Nat) : Option SegmentMap :=
  match m.lowerBound address with
  | none =>
    -- the highest key, or the only one
    match m.entries.getLast? with
    | none => some (m.insert address size)
    | some (k, v) =>
      if add64 k v = address then some (m.insert k (add64 v size)) else some (m.insert address size)
  | some (k, v) =>
    if address < k then
      let firstMerge := k = add64 address size
      let totalSize := if firstMerge then add64 size v else size
      let m₁ := if firstMerge then (m.erase k).insert address totalSize else m
      let mapIter := if firstMerge then address else k
      match m₁.before mapIter with
      | some (k', v') =>
        if add64 k' v' = address then
          if totalSize > size then
            let m₂ := m₁.insert k' (add64 v' totalSize)
            match m₂.after k' with
            | some (k'', _) => some (m₂.erase k'')
            | none => some m₂
          else some (m₁.insert k' (add64 v' size))
        else if firstMerge then some m₁
        else some (m₁.insert address size)
      | none => if firstMerge then some m₁ else some (m₁.insert address size)
    else none

/-- Source: `SimpleAllocator::free` (`simpleallocator.cpp:123`). -/
def free (s : SimpleAllocator) (address : Nat) : Nat × SimpleAllocator :=
  match s.allocatedChunks.find? address with
  | none => (0, s)
  | some size =>
    let s := { s with allocatedChunks := s.allocatedChunks.erase address }
    match putBack s.freeChunks address size with
    | none => (0, s)
    | some freeChunks =>
      (size, { s with freeChunks := freeChunks, remaining := add64 s.remaining size })

inductive Call
  | allocate (size : Nat)
  | alignedAllocate (alignment size : Nat)
  | free (address : Nat)

/-- The result of a call and the allocator after it. -/
def call (s : SimpleAllocator) : Call → Nat × SimpleAllocator
  | .allocate size => allocate s size
  | .alignedAllocate alignment size => alignedAllocate s alignment size
  | .free address => free s address

/-! ## Words -/

theorem add64_eq {a b : Nat} (h : a + b < 2 ^ 64) : add64 a b = a + b := Nat.mod_eq_of_lt h

theorem sub64_eq {a b : Nat} (h : b ≤ a) (ha : a < 2 ^ 64) : sub64 a b = a - b := by
  unfold sub64
  have hb : b < 2 ^ 64 := h.trans_lt ha
  rw [show a + (2 ^ 64 - b) = a - b + 2 ^ 64 by omega, Nat.add_mod_right]
  exact Nat.mod_eq_of_lt (by omega)

/-- The difference of two sums is the sum of the differences, modulo `2 ^ 64`. -/
theorem sub64_add64 {a t n : Nat} (h : a ≤ t) (ht : t < 2 ^ 64) :
    sub64 (add64 t n) a = (t - a + n) % 2 ^ 64 := by
  unfold sub64 add64
  rw [Nat.mod_add_mod, show t + n + (2 ^ 64 - a) = t - a + n + 2 ^ 64 by omega, Nat.add_mod_right]

/-- Clearing the low bits of a word. -/
theorem and_two_pow_sub {a k : Nat} (ha : a < 2 ^ 64) (hk : k ≤ 64) :
    a &&& (2 ^ 64 - 2 ^ k) = 2 ^ k * (a / 2 ^ k) := by
  have hmask : 2 ^ 64 - 2 ^ k = 2 ^ k * (2 ^ (64 - k) - 1) := by
    rw [Nat.mul_sub, ← Nat.pow_add, Nat.mul_one, Nat.add_sub_of_le hk]
  apply Nat.eq_of_testBit_eq
  intro i
  rw [Nat.testBit_and, hmask, Nat.testBit_two_pow_mul, Nat.testBit_two_pow_mul,
    Nat.testBit_two_pow_sub_one, Nat.testBit_div_two_pow]
  by_cases hi : k ≤ i
  · rw [Nat.sub_add_cancel hi]
    by_cases hlt : i < 64
    · simp [hi, show i - k < 64 - k by omega]
    · have hbit : a.testBit i = false :=
        Nat.testBit_lt_two_pow (ha.trans_le (Nat.pow_le_pow_right (by omega) (by omega)))
      simp [hbit]
  · simp [hi]

/-- The bytes from `addr` to the next aligned address. -/
def padding (alignment addr : Nat) : Nat :=
  if addr % alignment = 0 then 0 else alignment - addr % alignment

theorem alignedAddr_eq {alignment addr k : Nat} (hal : alignment = 2 ^ k)
    (h : addr + alignment < 2 ^ 64) : alignedAddr alignment addr = addr + padding alignment addr := by
  have hk : k ≤ 64 := by
    by_contra hk
    have hpow : 2 ^ 64 < 2 ^ k := Nat.pow_lt_pow_right (by omega) (by omega)
    omega
  have hmod := Nat.mod_add_div addr alignment
  unfold alignedAddr padding
  subst hal
  rw [and_two_pow_sub (by omega) hk, Nat.and_two_pow_sub_one_eq_mod]
  split
  · rw [add64_eq (by omega)]
    omega
  · have hlt := Nat.mod_lt addr (Nat.two_pow_pos k)
    rw [add64_eq (by omega)]
    omega

theorem dvd_add_padding {alignment : Nat} (hpos : 0 < alignment) (addr : Nat) :
    alignment ∣ addr + padding alignment addr := by
  unfold padding
  split
  · next h => exact Nat.dvd_of_mod_eq_zero h
  · have hmod := Nat.mod_add_div addr alignment
    have hlt := Nat.mod_lt addr hpos
    exact ⟨addr / alignment + 1, by rw [Nat.mul_add]; omega⟩

theorem padding_le (alignment addr : Nat) : padding alignment addr ≤ alignment := by
  unfold padding
  split <;> omega

/-! ## Chunks as pieces of the area -/

/-- The addresses of a chunk. -/
def InChunk (c : Nat × Nat) (x : Nat) : Prop := c.1 ≤ x ∧ x < c.1 + c.2

/-- The bytes of a list of chunks. -/
def total (l : List (Nat × Nat)) : Nat := (l.map (·.2)).sum

@[simp] theorem total_nil : total [] = 0 := rfl

@[simp] theorem total_cons (c : Nat × Nat) (l : List (Nat × Nat)) : total (c :: l) = c.2 + total l :=
  List.sum_cons

@[simp] theorem total_append (l l' : List (Nat × Nat)) : total (l ++ l') = total l + total l' := by
  simp [total]

theorem total_perm {l l' : List (Nat × Nat)} (h : l.Perm l') : total l = total l' :=
  (h.map _).sum_eq

/-- The free and the allocated chunks tile the area, no two free chunks touch, and `_remaining` is
what the free chunks hold. -/
structure Laid (base len : Nat) (s : SimpleAllocator) : Prop where
  tiles : Tiles InChunk (s.freeChunks.entries ++ s.allocatedChunks.entries)
    fun x => base ≤ x ∧ x < base + len
  apart : ∀ c ∈ s.freeChunks.entries, ∀ d ∈ s.freeChunks.entries, c ≠ d → c.1 + c.2 ≠ d.1
  remaining : s.remaining = total s.freeChunks.entries

/-- `Laid`, with no empty chunk and no byte counted twice. -/
structure Sound (base len : Nat) (s : SimpleAllocator) : Prop extends Laid base len s where
  bytes : total s.freeChunks.entries + total s.allocatedChunks.entries = len
  pos : ∀ c ∈ s.freeChunks.entries ++ s.allocatedChunks.entries, 0 < c.2

section
variable {base len : Nat} {s : SimpleAllocator} {c d : Nat × Nat} {l : List (Nat × Nat)}
  {S : Nat → Prop}

/-- A chunk lies within the tiled area. -/
theorem bounds_of_tiles (h : Tiles InChunk l fun x => base ≤ x ∧ x < base + len) (hc : c ∈ l)
    (hpos : 0 < c.2) : base ≤ c.1 ∧ c.1 + c.2 ≤ base + len := by
  have hfirst := (h.union c.1).2 ⟨c, hc, le_rfl, by omega⟩
  have hlast := (h.union (c.1 + c.2 - 1)).2 ⟨c, hc, by omega, by omega⟩
  omega

/-- Disjoint chunks lie one before the other. -/
theorem before_or_after (h : ∀ x, InChunk c x → ¬ InChunk d x) (hc : 0 < c.2) (hd : 0 < d.2) :
    c.1 + c.2 ≤ d.1 ∨ d.1 + d.2 ≤ c.1 := by
  by_contra hnot
  have hx := h (max c.1 d.1)
  simp only [InChunk] at hx
  omega

/-- The other chunks lie before or after a chunk of a tiling. -/
theorem before_or_after_of_tiles (h : Tiles InChunk (c :: l) S) (hd : d ∈ l) (hc : 0 < c.2)
    (hd' : 0 < d.2) : c.1 + c.2 ≤ d.1 ∨ d.1 + d.2 ≤ c.1 :=
  before_or_after (fun _ hx => h.not_mem hd hx) hc hd'

/-- A chunk cut in three, the outer pieces possibly empty and then left out. -/
theorem tiles_carve (a p n r : Nat) (hn : 0 < n) :
    Tiles InChunk ((if 0 < p then [(a, p)] else []) ++
      (if 0 < r then [(a + p + n, r)] else []) ++ [(a + p, n)])
      fun x => ∃ c ∈ [(a, p + n + r)], InChunk c x where
  disjoint := by
    rw [List.pairwise_append, List.pairwise_append]
    refine ⟨⟨?_, ?_, ?_⟩, List.pairwise_singleton _ _, ?_⟩
    · split <;> simp
    · split <;> simp
    · intro c hc d hd x hx hx'
      split at hc <;> simp at hc
      split at hd <;> simp at hd
      subst hc hd
      simp only [InChunk] at hx hx'
      omega
    · intro c hc d hd x hx hx'
      rw [List.mem_singleton] at hd
      rcases List.mem_append.1 hc with hc | hc
      all_goals
        split at hc <;> simp at hc
        subst hc hd
        simp only [InChunk] at hx hx'
        omega
  union x := by
    simp only [List.mem_append, List.mem_singleton, or_and_right, exists_or, exists_eq_left]
    by_cases hp : 0 < p <;> by_cases hr : 0 < r <;> simp [hp, hr, InChunk] <;> omega

/-- Neighbouring chunks joined to one. -/
theorem tiles_join {cs : List (Nat × Nat)} {a n : Nat}
    (h : ∀ x, InChunk (a, n) x ↔ ∃ c ∈ cs, InChunk c x) :
    Tiles InChunk [(a, n)] fun x => ∃ c ∈ cs, InChunk c x :=
  ⟨List.pairwise_singleton _ _, fun x => by simpa using (h x).symm⟩

/-! ## Allocation -/

/-- Taking `n` bytes out of a free chunk, `p` bytes after its start, what is left on both sides staying
free. -/
theorem Sound.carve {a p n r : Nat} {freeChunks : SegmentMap} (hs : Sound base len s)
    (hc : (a, p + n + r) ∈ s.freeChunks.entries) (hn : 0 < n)
    (hfree : freeChunks.entries.Perm ((if 0 < p then [(a, p)] else []) ++
      (if 0 < r then [(a + p + n, r)] else []) ++ (s.freeChunks.erase a).entries)) :
    Sound base len ⟨s.allocatedChunks.insert (a + p) n, freeChunks, s.remaining - n⟩ ∧
      ∀ v, (a + p, v) ∉ s.allocatedChunks.entries := by
  have hperm := SortedMap.perm_erase hc
  have htiles : Tiles InChunk ((a, p + n + r) ::
      ((s.freeChunks.erase a).entries ++ s.allocatedChunks.entries)) _ :=
    hs.tiles.perm (hperm.append_right _)
  have hF : ∀ d ∈ (s.freeChunks.erase a).entries, d ∈ s.freeChunks.entries ∧ d.1 ≠ a ∧ 0 < d.2 ∧
      (a + (p + n + r) ≤ d.1 ∨ d.1 + d.2 ≤ a) := by
    intro d hd
    obtain ⟨hd', hne⟩ := SortedMap.mem_erase.1 hd
    have hpos : 0 < d.2 := hs.pos d (List.mem_append_left _ hd')
    exact ⟨hd', hne, hpos, before_or_after_of_tiles htiles (List.mem_append_left _ hd) (by
      show 0 < p + n + r
      omega) hpos⟩
  have hnew : ∀ v, (a + p, v) ∉ s.allocatedChunks.entries := by
    intro v hv
    have hpos : 0 < v := hs.pos _ (List.mem_append_right _ hv)
    have hin : InChunk (a, p + n + r) (a + p) := ⟨by simp, by simp only; omega⟩
    exact htiles.not_mem (List.mem_append_right _ hv) hin ⟨by simp, by simp only; omega⟩
  have hfreed : total freeChunks.entries + n = total s.freeChunks.entries := by
    rw [total_perm hfree, total_perm hperm]
    by_cases hp : 0 < p <;> by_cases hr : 0 < r <;> simp [hp, hr] <;> omega
  refine ⟨⟨⟨?_, ?_, ?_⟩, ?_, ?_⟩, hnew⟩
  · have hcut : Tiles InChunk ((if 0 < p then [(a, p)] else []) ++
        (if 0 < r then [(a + p + n, r)] else []) ++ [(a + p, n)] ++
        ((s.freeChunks.erase a).entries ++ s.allocatedChunks.entries)) _ :=
      Tiles.replace htiles (tiles_carve a p n r hn)
    refine hcut.perm (List.Perm.trans ?_
      (hfree.symm.append (SortedMap.insert_perm_of_not_mem hnew).symm))
    simp only [List.append_assoc, List.singleton_append]
    exact List.Perm.append_left _ (List.Perm.append_left _ List.perm_middle.symm)
  · intro c hc' d hd' hne
    have hmem : ∀ e ∈ freeChunks.entries, (0 < p ∧ e = (a, p)) ∨ (0 < r ∧ e = (a + p + n, r)) ∨
        e ∈ (s.freeChunks.erase a).entries := by
      intro e he
      rcases List.mem_append.1 (hfree.mem_iff.1 he) with he | he
      · rcases List.mem_append.1 he with he | he
        · split at he <;> simp_all
        · split at he <;> simp_all
      · exact .inr (.inr he)
    have hapart := hs.apart
    rcases hmem c hc' with ⟨hp, rfl⟩ | ⟨hr, rfl⟩ | hcF <;>
      rcases hmem d hd' with ⟨hp', rfl⟩ | ⟨hr', rfl⟩ | hdF
    · exact absurd rfl hne
    · simp only
      omega
    · have hd := hF d hdF
      simp only
      omega
    · simp only
      omega
    · exact absurd rfl hne
    · obtain ⟨hd, hda, -⟩ := hF d hdF
      have hold := hapart _ hc d hd fun heq => hda (by rw [← heq])
      simp only at hold ⊢
      omega
    · obtain ⟨hc₁, hca, -⟩ := hF c hcF
      have hold := hapart c hc₁ _ hc fun heq => hca (by rw [heq])
      exact hold
    · obtain ⟨-, -, hpos, hside⟩ := hF c hcF
      simp only
      omega
    · exact hapart c (hF c hcF).1 d (hF d hdF).1 hne
  · show s.remaining - n = total freeChunks.entries
    rw [hs.remaining]
    omega
  · show total freeChunks.entries + total (s.allocatedChunks.insert (a + p) n).entries = len
    have hold := hs.bytes
    rw [total_perm (SortedMap.insert_perm_of_not_mem hnew), total_cons]
    omega
  · intro c hc'
    rcases List.mem_append.1 hc' with hc' | hc'
    · rcases List.mem_append.1 (hfree.mem_iff.1 hc') with hc' | hc'
      · rcases List.mem_append.1 hc' with hc' | hc' <;> split at hc' <;> simp_all
      · exact (hF c hc').2.2.1
    · rcases SortedMap.mem_insert.1 hc' with rfl | ⟨hc', -⟩
      · exact hn
      · exact hs.pos c (List.mem_append_right _ hc')

/-- What an allocation promises: a failed one changes nothing, and a successful one returns an aligned
chunk of `size` bytes out of a free chunk and adds it to the allocated ones. -/
structure Taken (s : SimpleAllocator) (alignment size : Nat) (r : Nat × SimpleAllocator) : Prop where
  failed : r.1 = 0 → r.2 = s
  aligned : r.1 ≠ 0 → alignment ∣ r.1
  fromFree : r.1 ≠ 0 → ∃ c ∈ s.freeChunks.entries, c.1 ≤ r.1 ∧ r.1 + size ≤ c.1 + c.2
  allocated : r.1 ≠ 0 → ∀ c, c ∈ r.2.allocatedChunks.entries ↔
    c ∈ s.allocatedChunks.entries ∨ c = (r.1, size)

/-- A chunk carved out of a free chunk is taken. -/
theorem Taken.of_carve {alignment a p n r : Nat} {freeChunks : SegmentMap} {remaining : Nat}
    (hc : (a, p + n + r) ∈ s.freeChunks.entries) (hpos : 0 < a) (hal : alignment ∣ a + p)
    (hnew : ∀ v, (a + p, v) ∉ s.allocatedChunks.entries) :
    Taken s alignment n (a + p, ⟨s.allocatedChunks.insert (a + p) n, freeChunks, remaining⟩) where
  failed h := by
    have h : a + p = 0 := h
    omega
  aligned _ := hal
  fromFree _ := ⟨_, hc, Nat.le_add_right a p, by simp only; omega⟩
  allocated _ c := by
    show c ∈ (s.allocatedChunks.insert (a + p) n).entries ↔ _
    rw [SortedMap.mem_insert, or_comm]
    refine or_congr_left (and_iff_left_of_imp fun hc' hkey => hnew c.2 ?_)
    rwa [← hkey]

/-- A failed allocation. -/
theorem Taken.of_failed (s : SimpleAllocator) (alignment size : Nat) : Taken s alignment size (0, s) :=
  ⟨fun _ => rfl, fun h => absurd rfl h, fun h => absurd rfl h, fun h => absurd rfl h⟩

/-- A key inside a free chunk, other than its start, is not the key of a free chunk. -/
theorem Sound.not_mem_erase {a n k : Nat} (hs : Sound base len s) (hc : (a, n) ∈ s.freeChunks.entries)
    (hk : a ≤ k) (hk' : k < a + n) : ∀ v, (k, v) ∉ (s.freeChunks.erase a).entries := by
  intro v hv
  have htiles : Tiles InChunk ((a, n) ::
      ((s.freeChunks.erase a).entries ++ s.allocatedChunks.entries)) _ :=
    hs.tiles.perm ((SortedMap.perm_erase hc).append_right _)
  have hpos : 0 < v := hs.pos _ (List.mem_append_left _ (SortedMap.mem_erase.1 hv).1)
  have hin : InChunk (a, n) k := ⟨hk, hk'⟩
  exact htiles.not_mem (List.mem_append_left _ hv) hin ⟨by simp, by simp only; omega⟩

theorem Sound.remaining_eq {size : Nat} (hs : Sound base len s) (hwrap : base + len < 2 ^ 64)
    (hc : c ∈ s.freeChunks.entries) (hsize : size ≤ c.2) :
    sub64 s.remaining size = s.remaining - size := by
  have hbytes := hs.bytes
  have hsum := total_perm (SortedMap.perm_erase (k := c.1) (v := c.2) hc)
  rw [total_cons] at hsum
  rw [hs.remaining]
  exact sub64_eq (by omega) (by omega)

theorem Sound.allocate {size : Nat} (hs : Sound base len s) (hbase : base ≠ 0)
    (hwrap : base + len < 2 ^ 64) (hsize : 0 < size) :
    Sound base len (allocate s size).2 ∧ Taken s 1 size (allocate s size) := by
  unfold SimpleAllocator.allocate
  split
  · exact ⟨hs, .of_failed ..⟩
  · next targetAddr chunkSize hfind =>
    have hmem := List.mem_of_find?_eq_some hfind
    have hfit : size ≤ chunkSize := by simpa using List.find?_some hfind
    have hpos : 0 < chunkSize := by omega
    obtain ⟨hlo, hhi⟩ := bounds_of_tiles hs.tiles (List.mem_append_left _ hmem) hpos
    simp only at hlo hhi
    have hmem' : (targetAddr, 0 + size + (chunkSize - size)) ∈ s.freeChunks.entries := by
      rwa [show 0 + size + (chunkSize - size) = chunkSize by omega]
    have hfree : (if chunkSize > size then
        (s.freeChunks.erase targetAddr).insert (add64 targetAddr size) (chunkSize - size)
        else s.freeChunks.erase targetAddr).entries.Perm ((if 0 < 0 then [(targetAddr, 0)] else []) ++
          (if 0 < chunkSize - size then [(targetAddr + 0 + size, chunkSize - size)] else []) ++
          (s.freeChunks.erase targetAddr).entries) := by
      split
      · next hgt =>
        rw [if_neg (Nat.lt_irrefl 0), if_pos (by omega), add64_eq (by omega)]
        exact SortedMap.insert_perm_of_not_mem (hs.not_mem_erase hmem (by omega) (by omega))
      · rw [if_neg (Nat.lt_irrefl 0), if_neg (by omega)]
        exact .refl _
    obtain ⟨hsound, hnew⟩ := hs.carve hmem' hsize hfree
    rw [hs.remaining_eq hwrap hmem hfit]
    exact ⟨hsound, .of_carve hmem' (by omega) (one_dvd _) hnew⟩

/-- The size test of `alignedAllocate` on a chunk wraps and passes. -/
def Wraps (alignment size : Nat) (c : Nat × Nat) : Prop :=
  2 ^ 64 ≤ padding alignment c.1 + size ∧ padding alignment c.1 + size ≤ 2 ^ 64 + c.2

instance (alignment size : Nat) (c : Nat × Nat) : Decidable (Wraps alignment size c) :=
  inferInstanceAs (Decidable (_ ∧ _))

/-- A chunk that passes the test holds the padding and the requested bytes, unless the test wraps. -/
theorem fits_of_test {alignment size k : Nat} (hal : alignment = 2 ^ k)
    (hsize : size < 2 ^ 64) (hc : c.1 + alignment < 2 ^ 64) (hnot : ¬ Wraps alignment size c)
    (htest : ¬ c.2 < sub64 (add64 (alignedAddr alignment c.1) size) c.1) :
    padding alignment c.1 + size ≤ c.2 := by
  have hpad := padding_le alignment c.1
  rw [alignedAddr_eq hal hc, sub64_add64 (by omega) (by omega), Nat.add_sub_cancel_left] at htest
  unfold Wraps at hnot
  rcases Nat.lt_or_ge (padding alignment c.1 + size) (2 ^ 64) with hlt | hge
  · rw [Nat.mod_eq_of_lt hlt] at htest
    omega
  · rw [Nat.mod_eq_sub_mod hge, Nat.mod_eq_of_lt (by omega)] at htest
    omega

/-- The free chunks that `alignedAllocate` leaves. -/
theorem Sound.perm_leftover {a p n r : Nat} (hs : Sound base len s)
    (hc : (a, p + n + r) ∈ s.freeChunks.entries) (hn : 0 < n) :
    (if p + n + r > n then
      if r > 0 then
        (if a + p = a then s.freeChunks.erase a else s.freeChunks.insert a p).insert (a + p + n) r
      else if a + p = a then s.freeChunks.erase a else s.freeChunks.insert a p
    else if p + n + r = n then s.freeChunks.erase a else s.freeChunks).entries.Perm
      ((if 0 < p then [(a, p)] else []) ++ (if 0 < r then [(a + p + n, r)] else []) ++
        (s.freeChunks.erase a).entries) := by
  have hfront : (if a + p = a then s.freeChunks.erase a else s.freeChunks.insert a p).entries.Perm
      ((if 0 < p then [(a, p)] else []) ++ (s.freeChunks.erase a).entries) := by
    rcases Nat.eq_zero_or_pos p with rfl | hp
    · simp
    · rw [if_neg (by omega), if_pos hp]
      exact SortedMap.insert_perm ..
  rcases Nat.eq_zero_or_pos r with rfl | hr
  · rw [if_neg (Nat.lt_irrefl 0), if_neg (Nat.lt_irrefl 0), List.append_nil]
    rcases Nat.eq_zero_or_pos p with rfl | hp
    · simp
    · rwa [if_pos (by omega)]
  · rw [if_pos (by omega), if_pos hr, if_pos hr]
    have hnot : ∀ w, (a + p + n, w) ∉
        (if a + p = a then s.freeChunks.erase a else s.freeChunks.insert a p).entries := by
      intro w hw
      rcases List.mem_append.1 (hfront.mem_iff.1 hw) with hw | hw
      · split at hw <;> simp at hw
        omega
      · exact hs.not_mem_erase hc (by omega) (by omega) w hw
    refine (SortedMap.insert_perm_of_not_mem hnot).trans ?_
    rw [List.append_assoc, List.singleton_append]
    exact (hfront.cons _).trans List.perm_middle.symm

theorem Sound.alignedAllocate {alignment size k : Nat} (hs : Sound base len s) (hbase : base ≠ 0)
    (hal : alignment = 2 ^ k) (hwrap : base + len + alignment < 2 ^ 64) (hsize : 0 < size)
    (hsize' : size < 2 ^ 64) (hnot : ∀ c ∈ s.freeChunks.entries, ¬ Wraps alignment size c) :
    Sound base len (alignedAllocate s alignment size).2 ∧
      Taken s alignment size (alignedAllocate s alignment size) := by
  unfold SimpleAllocator.alignedAllocate
  split
  · exact ⟨hs, .of_failed ..⟩
  · next a l hfind =>
    have hmem := List.mem_of_find?_eq_some hfind
    have hpos : 0 < l := hs.pos _ (List.mem_append_left _ hmem)
    obtain ⟨hlo, hhi⟩ := bounds_of_tiles hs.tiles (List.mem_append_left _ hmem) hpos
    simp only at hlo hhi
    have hfit : padding alignment a + size ≤ l :=
      fits_of_test hal hsize' (by simp only; omega) (hnot _ hmem) (by simpa using List.find?_some hfind)
    obtain ⟨r, hr⟩ := Nat.exists_eq_add_of_le hfit
    have htarget : alignedAddr alignment a = a + padding alignment a := alignedAddr_eq hal (by omega)
    have hal0 : 0 < alignment := hal ▸ Nat.two_pow_pos k
    have hdvd := dvd_add_padding hal0 a
    dsimp only
    rw [htarget, add64_eq (show a + l < 2 ^ 64 by omega),
      add64_eq (show a + padding alignment a + size < 2 ^ 64 by omega),
      sub64_eq (show a + padding alignment a + size ≤ a + l by omega) (by omega),
      sub64_eq (show a ≤ a + padding alignment a by omega) (by omega), Nat.add_sub_cancel_left,
      show a + l - (a + padding alignment a + size) = r by omega, hs.remaining_eq (by omega) hmem (by
        show size ≤ l
        omega)]
    generalize padding alignment a = p at *
    subst hr
    obtain ⟨hsound, hnew⟩ := hs.carve hmem hsize (hs.perm_leftover hmem hsize)
    exact ⟨hsound, .of_carve hmem (by omega) hdvd hnew⟩

/-! ## Release -/

/-- What is known of the free chunks when `[address, address + size)` is put back. -/
structure Returnable (m : SegmentMap) (address size : Nat) : Prop where
  size_pos : 0 < size
  no_wrap : address + size < 2 ^ 64
  chunk : ∀ c ∈ m.entries, 0 < c.2 ∧ c.1 + c.2 < 2 ^ 64 ∧
    (address + size ≤ c.1 ∨ c.1 + c.2 ≤ address)
  ordered : ∀ c ∈ m.entries, ∀ d ∈ m.entries, c.1 < d.1 → c.1 + c.2 ≤ d.1
  apart : ∀ c ∈ m.entries, ∀ d ∈ m.entries, c ≠ d → c.1 + c.2 ≠ d.1

/-- The free chunks `m'` are `m` with the chunks `merged` and the returned one joined to `c`. -/
structure Joined (m m' : SegmentMap) (address size : Nat) (c : Nat × Nat)
    (merged rest : List (Nat × Nat)) : Prop where
  old : m.entries.Perm (merged ++ rest)
  new : m'.entries.Perm (c :: rest)
  points : ∀ x, InChunk c x ↔ ∃ d ∈ (address, size) :: merged, InChunk d x
  bytes : c.2 = size + total merged
  apart : ∀ d ∈ rest, d.1 + d.2 ≠ c.1 ∧ c.1 + c.2 ≠ d.1

section
variable {m : SegmentMap} {address size k v k' v' : Nat}

theorem Returnable.key_ne (h : Returnable m address size) (hc : c ∈ m.entries) : c.1 ≠ address := by
  have hs := h.size_pos
  obtain ⟨hpos, -, hside⟩ := h.chunk c hc
  omega

/-- Where the last chunk below `address` does not end there, none does. -/
theorem Returnable.end_ne (h : Returnable m address size) (hb : m.before address = some (k', v'))
    (hne : k' + v' ≠ address) (hc : c ∈ m.entries) : c.1 + c.2 ≠ address := by
  intro hend
  obtain ⟨hmem, hlt, hmax⟩ := SortedMap.before_eq_some hb
  obtain ⟨hpos, -⟩ := h.chunk c hc
  obtain ⟨hpos', -, hside⟩ := h.chunk _ hmem
  have hle := hmax c hc (by omega)
  have hs := h.size_pos
  rcases Nat.lt_or_eq_of_le hle with hlt' | heq
  · have hord := h.ordered c hc _ hmem hlt'
    simp only at hord hlt hpos' hside
    omega
  · rw [SortedMap.eq_of_key_eq hc hmem heq] at hend
    exact hne hend

/-- The entry after the last one below `address`, when `address` has one. -/
theorem Returnable.after_eq {w n : Nat} (hb : m.before address = some (k', v')) :
    (((m.erase k).insert address n).insert k' w).after k' = some (address, n) := by
  obtain ⟨-, hlt, hmax⟩ := SortedMap.before_eq_some hb
  simp only at hlt hmax
  have hmem : (address, n) ∈ (((m.erase k).insert address n).insert k' w).entries :=
    SortedMap.mem_insert.2 (.inr ⟨SortedMap.mem_insert.2 (.inl rfl), hlt.ne'⟩)
  cases ha : (((m.erase k).insert address n).insert k' w).after k' with
  | none =>
    have hle := SortedMap.after_eq_none ha _ hmem
    simp only at hle
    omega
  | some e =>
    obtain ⟨he, hlt', hmin⟩ := SortedMap.after_eq_some ha
    refine congrArg some (SortedMap.eq_of_key_eq he hmem (Nat.le_antisymm (hmin _ hmem hlt) ?_))
    by_contra hge
    rcases SortedMap.mem_insert.1 he with rfl | ⟨he, -⟩
    · exact lt_irrefl _ hlt'
    · rcases SortedMap.mem_insert.1 he with rfl | ⟨he, -⟩
      · exact hge le_rfl
      · have hle := hmax e (SortedMap.mem_erase.1 he).1 (Nat.lt_of_not_le hge)
        omega

/-- Neither neighbour is free. -/
theorem Returnable.insert (h : Returnable m address size)
    (hprev : ∀ c ∈ m.entries, c.1 + c.2 ≠ address) (hnext : ∀ c ∈ m.entries, c.1 ≠ address + size) :
    Joined m (m.insert address size) address size (address, size) [] m.entries where
  old := .refl _
  new := SortedMap.insert_perm_of_not_mem fun w hw => h.key_ne hw rfl
  points x := by simp
  bytes := by simp
  apart d hd := ⟨hprev d hd, (hnext d hd).symm⟩

/-- The neighbour before is free. -/
theorem Returnable.insert_prev (h : Returnable m address size) (hmem : (k', v') ∈ m.entries)
    (hend : k' + v' = address) (hnext : ∀ c ∈ m.entries, c.1 ≠ address + size) :
    Joined m (m.insert k' (v' + size)) address size (k', v' + size) [(k', v')]
      (m.erase k').entries where
  old := SortedMap.perm_erase hmem
  new := SortedMap.insert_perm ..
  points x := by
    simp only [InChunk, List.mem_cons, List.not_mem_nil, or_false, exists_eq_or_imp, exists_eq_left]
    omega
  bytes := by simp; omega
  apart d hd := by
    obtain ⟨hd, hne⟩ := SortedMap.mem_erase.1 hd
    have hold := h.apart d hd _ hmem fun heq => hne (by rw [heq])
    have hd' := hnext d hd
    simp only at hold ⊢
    omega

/-- The neighbour after is free. -/
theorem Returnable.insert_next (h : Returnable m address size) (hmem : (address + size, v) ∈ m.entries)
    (hprev : ∀ c ∈ m.entries, c.1 + c.2 ≠ address) :
    Joined m ((m.erase (address + size)).insert address (size + v)) address size (address, size + v)
      [(address + size, v)] (m.erase (address + size)).entries where
  old := SortedMap.perm_erase hmem
  new := SortedMap.insert_perm_of_not_mem fun w hw => h.key_ne (SortedMap.mem_erase.1 hw).1 rfl
  points x := by
    simp only [InChunk, List.mem_cons, List.not_mem_nil, or_false, exists_eq_or_imp, exists_eq_left]
    omega
  bytes := by simp
  apart d hd := by
    obtain ⟨hd, hne⟩ := SortedMap.mem_erase.1 hd
    have hold := h.apart _ hmem d hd fun heq => hne (by rw [← heq])
    have hd' := hprev d hd
    simp only at hold ⊢
    omega

/-- Both neighbours are free. -/
theorem Returnable.insert_both (h : Returnable m address size) (hmem : (address + size, v) ∈ m.entries)
    (hmem' : (k', v') ∈ m.entries) (hend : k' + v' = address) :
    Joined m ((((m.erase (address + size)).insert address (size + v)).insert k'
      (v' + (size + v))).erase address) address size (k', v' + (size + v))
      [(address + size, v), (k', v')] ((m.erase (address + size)).erase k').entries where
  old := by
    have hpos := h.size_pos
    refine (SortedMap.perm_erase hmem).trans (List.Perm.cons _ (SortedMap.perm_erase ?_))
    exact SortedMap.mem_erase.2 ⟨hmem', by simp only; omega⟩
  new := by
    have hpos := (h.chunk _ hmem').1
    refine (List.perm_ext_iff_of_nodup (SortedMap.nodup _)
      (List.nodup_cons.2 ⟨fun hbad => ?_, SortedMap.nodup _⟩)).2 fun e => ?_
    · exact (SortedMap.mem_erase.1 hbad).2 rfl
    · simp only [SortedMap.mem_erase, SortedMap.mem_insert, List.mem_cons]
      constructor
      · rintro ⟨rfl | ⟨rfl | ⟨⟨he, hne⟩, -⟩, hk⟩, haddr⟩
        · exact .inl rfl
        · exact absurd rfl haddr
        · exact .inr ⟨⟨he, hne⟩, hk⟩
      · rintro (rfl | ⟨⟨he, hne⟩, hk⟩)
        · exact ⟨.inl rfl, by simp only at hpos ⊢; omega⟩
        · exact ⟨.inr ⟨.inr ⟨⟨he, hne⟩, h.key_ne he⟩, hk⟩, h.key_ne he⟩
  points x := by
    simp only [InChunk, List.mem_cons, List.not_mem_nil, or_false, exists_eq_or_imp, exists_eq_left]
    omega
  bytes := by simp; omega
  apart d hd := by
    obtain ⟨hd, hk⟩ := SortedMap.mem_erase.1 hd
    obtain ⟨hd, hne⟩ := SortedMap.mem_erase.1 hd
    have hnext := h.apart _ hmem d hd fun heq => hne (by rw [← heq])
    have hprev := h.apart d hd _ hmem' fun heq => hk (by rw [heq])
    simp only at hnext hprev ⊢
    omega

/-- Putting a chunk back joins it with its free neighbours. -/
theorem Returnable.putBack (h : Returnable m address size) : ∃ m' c merged rest,
    putBack m address size = some m' ∧ Joined m m' address size c merged rest := by
  have hsize := h.size_pos
  have hwrap := h.no_wrap
  have hnone : m.before address = none → ∀ c ∈ m.entries, c.1 + c.2 ≠ address := fun hb c hc => by
    have hle := SortedMap.before_eq_none hb c hc
    have hpos := (h.chunk c hc).1
    omega
  unfold SimpleAllocator.putBack
  split
  · next hlow =>
    -- every free chunk lies before the address
    have hall := SortedMap.lowerBound_eq_none hlow
    have hnext : ∀ c ∈ m.entries, c.1 ≠ address + size := fun c hc => by
      have hlt := hall c hc
      omega
    have hlast : m.entries.getLast? = m.before address := by
      rw [SortedMap.before, List.filter_eq_self.2 fun e he => decide_eq_true (hall e he)]
    rw [hlast]
    cases hb : m.before address with
    | none => exact ⟨_, _, _, _, rfl, h.insert (hnone hb) hnext⟩
    | some e =>
      obtain ⟨k', v'⟩ := e
      obtain ⟨hmem, -, -⟩ := SortedMap.before_eq_some hb
      obtain ⟨-, hwrap', hside⟩ := h.chunk _ hmem
      dsimp only
      rw [add64_eq hwrap']
      split
      · next hend =>
        rw [add64_eq (by omega)]
        exact ⟨_, _, _, _, rfl, h.insert_prev hmem hend hnext⟩
      · next hend =>
        exact ⟨_, _, _, _, rfl, h.insert (fun c hc => h.end_ne hb hend hc) hnext⟩
  · next k v hlow =>
    obtain ⟨hmem, hle, hmin⟩ := SortedMap.lowerBound_eq_some hlow
    obtain ⟨hpos, hwrap', hside⟩ := h.chunk _ hmem
    simp only at hle hpos hwrap' hside hmin
    rw [if_pos (show address < k by omega), add64_eq hwrap]
    dsimp only
    by_cases hk : k = address + size
    · -- the next chunk is merged first
      subst hk
      have hbefore : ((m.erase (address + size)).insert address (size + v)).before address =
          m.before address := by
        refine SortedMap.before_congr fun e => ?_
        rw [SortedMap.mem_insert, SortedMap.mem_erase]
        constructor
        · rintro ⟨rfl | ⟨⟨he, -⟩, -⟩, hlt⟩
          · exact absurd hlt (lt_irrefl _)
          · exact ⟨he, hlt⟩
        · rintro ⟨he, hlt⟩
          exact ⟨.inr ⟨⟨he, by omega⟩, h.key_ne he⟩, hlt⟩
      simp only [if_true, add64_eq (show size + v < 2 ^ 64 by omega), hbefore]
      cases hb : m.before address with
      | none => exact ⟨_, _, _, _, rfl, h.insert_next hmem (hnone hb)⟩
      | some e =>
        obtain ⟨k', v'⟩ := e
        obtain ⟨hmem', hlt, hmax⟩ := SortedMap.before_eq_some hb
        obtain ⟨-, hwrap₂, -⟩ := h.chunk _ hmem'
        simp only at hlt hmax hwrap₂
        dsimp only
        rw [add64_eq hwrap₂]
        split
        · next hend =>
          rw [if_pos (show size + v > size by omega), add64_eq (by omega)]
          rw [Returnable.after_eq hb]
          exact ⟨_, _, _, _, rfl, h.insert_both hmem hmem' hend⟩
        · next hend =>
          exact ⟨_, _, _, _, rfl, h.insert_next hmem fun c hc => h.end_ne hb hend hc⟩
    · have hnext : ∀ c ∈ m.entries, c.1 ≠ address + size := fun c hc hc' => by
        have hle' := hmin c hc (by omega)
        omega
      have hbefore : m.before k = m.before address := by
        refine SortedMap.before_congr fun e => and_congr_right fun he => ?_
        constructor
        · intro hlt
          by_contra hge
          have hle' := hmin e he (by omega)
          omega
        · intro hlt
          omega
      simp only [if_neg hk, hbefore]
      cases hb : m.before address with
      | none => exact ⟨_, _, _, _, rfl, h.insert (hnone hb) hnext⟩
      | some e =>
        obtain ⟨k', v'⟩ := e
        obtain ⟨hmem', -, -⟩ := SortedMap.before_eq_some hb
        obtain ⟨-, hwrap₂, -⟩ := h.chunk _ hmem'
        dsimp only
        rw [add64_eq hwrap₂]
        split
        · next hend =>
          rw [if_neg (lt_irrefl size), add64_eq (by omega)]
          exact ⟨_, _, _, _, rfl, h.insert_prev hmem' hend hnext⟩
        · next hend =>
          exact ⟨_, _, _, _, rfl, h.insert (fun c hc => h.end_ne hb hend hc) hnext⟩

end

/-- The free chunks and an allocated one that is put back. -/
theorem Sound.returnable {address size : Nat} (hs : Sound base len s) (hwrap : base + len < 2 ^ 64)
    (hmem : (address, size) ∈ s.allocatedChunks.entries) : Returnable s.freeChunks address size := by
  have hpos : 0 < size := hs.pos _ (List.mem_append_right _ hmem)
  have hin := bounds_of_tiles hs.tiles (List.mem_append_right _ hmem) hpos
  obtain ⟨-, -, hcross⟩ := List.pairwise_append.1 hs.tiles.disjoint
  have hchunk : ∀ c ∈ s.freeChunks.entries, 0 < c.2 ∧ c.1 + c.2 ≤ base + len := fun c hc =>
    have hc' := List.mem_append_left _ hc
    ⟨hs.pos c hc', (bounds_of_tiles hs.tiles hc' (hs.pos c hc')).2⟩
  refine ⟨hpos, by simp only at hin; omega, fun c hc => ?_, fun c hc d hd hlt => ?_, hs.apart⟩
  · obtain ⟨hc₁, hc₂⟩ := hchunk c hc
    have hside := before_or_after (hcross c hc _ hmem) hc₁ hpos
    simp only at hside
    omega
  · have htiles : Tiles InChunk (c :: ((s.freeChunks.erase c.1).entries ++
        s.allocatedChunks.entries)) _ :=
      hs.tiles.perm ((SortedMap.perm_erase (k := c.1) (v := c.2) hc).append_right _)
    have hd' : d ∈ (s.freeChunks.erase c.1).entries := SortedMap.mem_erase.2 ⟨hd, hlt.ne'⟩
    have hside := before_or_after_of_tiles htiles (List.mem_append_left _ hd') (hchunk c hc).1
      (hchunk d hd).1
    have hpos' := (hchunk d hd).1
    omega

theorem Sound.free {address : Nat} (hs : Sound base len s) (hwrap : base + len < 2 ^ 64) :
    Sound base len (free s address).2 := by
  unfold SimpleAllocator.free
  split
  · exact hs
  · next size hfind =>
    have hmem := SortedMap.find?_eq_some_iff.1 hfind
    have hret := hs.returnable hwrap hmem
    obtain ⟨m', c, merged, rest, hput, hj⟩ := hret.putBack
    dsimp only
    rw [hput]
    have hperm := SortedMap.perm_erase hmem
    have hfreed : total m'.entries = total s.freeChunks.entries + size := by
      rw [total_perm hj.new, total_perm hj.old, total_cons, total_append, hj.bytes]
      omega
    have hbytes := hs.bytes
    rw [total_perm hperm, total_cons] at hbytes
    refine ⟨⟨?_, ?_, ?_⟩, ?_, ?_⟩
    · -- the joined chunk takes the place of the returned one and its neighbours
      have hall : (s.freeChunks.entries ++ s.allocatedChunks.entries).Perm
          (((address, size) :: merged) ++ (rest ++ (s.allocatedChunks.erase address).entries)) := by
        refine (hj.old.append hperm).trans (List.perm_middle.trans ?_)
        simp
      have hnew : Tiles InChunk ([c] ++ (rest ++ (s.allocatedChunks.erase address).entries)) _ :=
        Tiles.replace (hs.tiles.perm hall) (tiles_join hj.points)
      refine hnew.perm ?_
      simpa using (hj.new.append_right _).symm
    · intro d hd e he hne
      rcases List.mem_cons.1 (hj.new.mem_iff.1 hd) with rfl | hd' <;>
        rcases List.mem_cons.1 (hj.new.mem_iff.1 he) with rfl | he'
      · exact absurd rfl hne
      · exact (hj.apart e he').2
      · exact (hj.apart d hd').1
      · exact hs.apart d (hj.old.mem_iff.2 (List.mem_append_right _ hd')) e
          (hj.old.mem_iff.2 (List.mem_append_right _ he')) hne
    · show add64 s.remaining size = total m'.entries
      rw [hs.remaining, hfreed, add64_eq]
      omega
    · show total m'.entries + total (s.allocatedChunks.erase address).entries = len
      omega
    · intro d hd
      rcases List.mem_append.1 hd with hd | hd
      · rcases List.mem_cons.1 (hj.new.mem_iff.1 hd) with rfl | hd
        · have hb := hj.bytes
          have hpos := hret.size_pos
          omega
        · exact hs.pos d (List.mem_append_left _ (hj.old.mem_iff.2 (List.mem_append_right _ hd)))
      · exact hs.pos d (List.mem_append_right _ (SortedMap.mem_erase.1 hd).1)

end

/-! ## Every history of calls -/

/-- What the callers promise: sizes and alignments are words, no size is `0`, alignments are powers of
two, and the end of the area plus the alignment does not wrap. -/
def Legal (base len : Nat) : Call → Prop
  | .allocate size => 0 < size ∧ size < 2 ^ 64
  | .alignedAllocate alignment size =>
    (∃ k < 64, alignment = 2 ^ k) ∧ base + len + alignment < 2 ^ 64 ∧ 0 < size ∧ size < 2 ^ 64
  | .free address => address < 2 ^ 64

instance (base len : Nat) : DecidablePred (Legal base len)
  | .allocate _ => inferInstanceAs (Decidable (_ ∧ _))
  | .alignedAllocate _ _ => inferInstanceAs (Decidable (_ ∧ _))
  | .free _ => inferInstanceAs (Decidable (_ < _))

/-- No free chunk passes the size test of `alignedAllocate` through a wrapped sum. -/
def NoWrap (s : SimpleAllocator) : Call → Prop
  | .alignedAllocate alignment size => ∀ c ∈ s.freeChunks.entries, ¬ Wraps alignment size c
  | _ => True

instance (s : SimpleAllocator) : DecidablePred (NoWrap s)
  | .allocate _ => isTrue trivial
  | .alignedAllocate alignment size =>
    inferInstanceAs (Decidable (∀ c ∈ s.freeChunks.entries, ¬ Wraps alignment size c))
  | .free _ => isTrue trivial

/-- What a call promises of its result. -/
def Outcome (s : SimpleAllocator) (r : Nat × SimpleAllocator) : Call → Prop
  | .allocate size => Taken s 1 size r
  | .alignedAllocate alignment size => Taken s alignment size r
  | .free address => (∀ size, (address, size) ∉ s.allocatedChunks.entries) → r = (0, s)

def step (s : SimpleAllocator) (e : Call) : Option SimpleAllocator := some (call s e).2

section
variable {base len : Nat} {s : SimpleAllocator} {e : Call}

theorem Sound.call (hs : Sound base len s) (hbase : base ≠ 0) (hwrap : base + len < 2 ^ 64)
    (hlegal : Legal base len e) (hnot : NoWrap s e) :
    Sound base len (call s e).2 ∧ Outcome s (call s e) e := by
  cases e with
  | allocate size => exact hs.allocate hbase hwrap hlegal.1
  | alignedAllocate alignment size =>
    obtain ⟨⟨k, -, hal⟩, hwrap', hsize, hsize'⟩ := hlegal
    exact hs.alignedAllocate hbase hal hwrap' hsize hsize' hnot
  | free address =>
    refine ⟨hs.free hwrap, fun hunknown => ?_⟩
    show SimpleAllocator.free s address = (0, s)
    rw [SimpleAllocator.free, SortedMap.find?_eq_none_iff.2 hunknown]

/-- An area of no bytes satisfies no request. -/
theorem call_new_zero (hlegal : Legal base 0 e) (hnot : NoWrap (new base 0) e) :
    call (new base 0) e = (0, new base 0) := by
  have hentries : (new base 0).freeChunks.entries = [(base, 0)] := rfl
  cases e with
  | allocate size =>
    have hsize : 0 < size := hlegal.1
    simp only [call, allocate, hentries]
    simp [hsize]
  | alignedAllocate alignment size =>
    obtain ⟨⟨k, -, hal⟩, hwrap, hsize, hsize'⟩ := hlegal
    have hfit : 0 < sub64 (add64 (alignedAddr alignment base) size) base := by
      by_contra htest
      have hle : padding alignment base + size ≤ 0 :=
        fits_of_test (c := (base, 0)) hal hsize' (by simp only; omega)
          (hnot _ (by rw [hentries]; simp)) htest
      omega
    simp only [call, SimpleAllocator.alignedAllocate, hentries]
    simp [hfit]
  | free address => rfl

theorem laid_new (base len : Nat) : Laid base len (new base len) := by
  have hfree : (new base len).freeChunks.entries = [(base, len)] := rfl
  have halloc : (new base len).allocatedChunks.entries = [] := rfl
  refine ⟨⟨?_, fun x => ?_⟩, ?_, ?_⟩
  · rw [hfree, halloc]
    simp
  · rw [hfree, halloc]
    simp [InChunk]
  · intro c hc d hd hne
    rw [hfree, List.mem_singleton] at hc hd
    exact absurd (hc.trans hd.symm) hne
  · rw [hfree]
    simp [new]

theorem sound_new (hlen : 0 < len) : Sound base len (new base len) where
  toLaid := laid_new base len
  bytes := by simp [new, SortedMap.empty, SortedMap.insert]
  pos c hc := by
    have hc : c = (base, len) := by simpa [new, SortedMap.empty, SortedMap.insert] using hc
    rw [hc]
    exact hlen

/-- What every history keeps: an area of no bytes stays as it is. -/
theorem sound_or_new (hbase : base ≠ 0) (hwrap : base + len < 2 ^ 64)
    (h : Reach step (fun s e => Legal base len e ∧ NoWrap s e) (new base len) s) :
    Sound base len s ∨ (len = 0 ∧ s = new base len) := by
  refine h.invariant (I := fun s => Sound base len s ∨ (len = 0 ∧ s = new base len)) ?_ ?_
  · rcases Nat.eq_zero_or_pos len with hzero | hpos
    · exact .inr ⟨hzero, rfl⟩
    · exact .inl (sound_new hpos)
  · intro s e s' hs hok hstep
    cases hstep
    rcases hs with hs | ⟨rfl, rfl⟩
    · exact .inl (hs.call hbase hwrap hok.1 hok.2).1
    · rw [call_new_zero hok.1 hok.2]
      exact .inr ⟨rfl, rfl⟩

/-- In every history of legal calls in which no wrapped size test passes: the free and the allocated
chunks tile the area, no two free chunks touch, `_remaining` is what is free; and the next call keeps
this, returns an aligned chunk of free space or changes nothing, and ignores the release of an unknown
address. -/
theorem simple_allocator_laid (base len : Nat) (hbase : base ≠ 0) (hwrap : base + len < 2 ^ 64)
    (s : SimpleAllocator)
    (h : Reach step (fun s e => Legal base len e ∧ NoWrap s e) (new base len) s) :
    Laid base len s ∧
      ∀ e, Legal base len e → NoWrap s e → Laid base len (call s e).2 ∧ Outcome s (call s e) e := by
  rcases sound_or_new hbase hwrap h with hs | ⟨rfl, rfl⟩
  · refine ⟨hs.toLaid, fun e hlegal hnot => ?_⟩
    obtain ⟨hsound, hout⟩ := hs.call hbase hwrap hlegal hnot
    exact ⟨hsound.toLaid, hout⟩
  · refine ⟨laid_new base 0, fun e hlegal hnot => ?_⟩
    rw [call_new_zero hlegal hnot]
    refine ⟨laid_new base 0, ?_⟩
    cases e with
    | allocate size => exact .of_failed ..
    | alignedAllocate alignment size => exact .of_failed ..
    | free address => exact fun _ => rfl

end

/-- An aligned allocation that cuts a chunk in three, another allocation, and a release that joins
both neighbours. -/
theorem simple_allocator_laid_joined : ∃ s : SimpleAllocator,
    s.freeChunks.entries = [(1, 100)] ∧ Laid 1 100 s := by
  obtain ⟨s, hs, hp⟩ := exists_reach_of_guarded_run step (fun s e => Legal 1 100 e ∧ NoWrap s e)
    (new 1 100) [.alignedAllocate 8 16, .allocate 5, .free 1, .free 8]
    (fun s => decide (s.freeChunks.entries = [(1, 100)])) (by decide)
  exact ⟨s, of_decide_eq_true hp, (simple_allocator_laid 1 100 (by decide) (by decide) s hs).1⟩

/-- A request of `2 ^ 64 - 7` bytes at an alignment of 8: the padding of 7 bytes makes the sum wrap to 0,
the test passes, and the request is recorded as allocated while the whole area stays free. -/
theorem not_laid_of_wrapped_request : ∃ s : SimpleAllocator,
    Reach step (fun _ e => Legal 1 100 e) (new 1 100) s ∧
      (8, 2 ^ 64 - 7) ∈ s.allocatedChunks.entries ∧ ¬ Laid 1 100 s := by
  obtain ⟨s, hs, hp⟩ := exists_reach_of_run step (Legal 1 100) (new 1 100)
    [.alignedAllocate 8 (2 ^ 64 - 7)] (by decide)
    (fun s => decide ((8, 2 ^ 64 - 7) ∈ s.allocatedChunks.entries ∧ (1, 100) ∈ s.freeChunks.entries))
    (by decide)
  obtain ⟨halloc, hfree⟩ := of_decide_eq_true hp
  refine ⟨s, hs, halloc, fun hlaid => ?_⟩
  obtain ⟨-, -, hcross⟩ := List.pairwise_append.1 hlaid.tiles.disjoint
  exact hcross _ hfree _ halloc 8 ⟨by decide, by decide⟩ ⟨by decide, by decide⟩

end SimpleAllocator

end OmpSs.Support
