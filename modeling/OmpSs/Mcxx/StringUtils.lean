import OmpSs.Lib.CString
import Mathlib.Data.List.ReduceOption

/-!
# Concatenation of strings

`strconcat_n` (`mcxx/lib/string_utils.c:56`) concatenates an array of strings. One string is returned as it
is and two go through `strappend`. For three or more the code sums their lengths, appends them to a buffer
with room for one character more, and then writes the null character that `strcat` has written already once
again, one place too early: the last character is lost. `strconcatN_iff` says that only one string, or two
that are not too long for an `int`, come back whole.

A result of `none` is undefined behaviour, `some none` the null pointer. `uniquestr` returns a string equal to
its argument, and is left out.
-/

namespace OmpSs.Mcxx.StringUtils

open Lib

/-- Source: `strappend` (`string_utils.c:38`). -/
def strappend (orig appended : CString) : Option CString :=
  let total := (BitVec.ofNat 32 (orig.strlen + appended.strlen + 1)).toInt
  (Buffer.new total).bind fun append_tmp =>
  (append_tmp.strcat orig).bind fun append_tmp =>
  (append_tmp.strcat appended).map Buffer.text

/-- The sum of the lengths in an `unsigned int`. -/
def totalSize (c : List (Option CString)) : BitVec 32 :=
  c.foldl (fun size s => match s with
    | some s => size + BitVec.ofNat 32 s.strlen
    | none => size) 0

/-- Three strings or more. Source: `string_utils.c:64`. -/
def concatBuffer (c : List (Option CString)) : Option (Option CString) :=
  let size := totalSize c
  if size = 0 then some none
  else
    (Buffer.new (size + 1).toNat).bind fun result =>
    (c.reduceOption.foldlM Buffer.strcat result).bind fun result =>
    (result.terminate (size - 1).toNat).map fun result => some result.text

/-- Source: `strconcat_n` (`string_utils.c:56`). -/
def strconcatN : List (Option CString) → Option (Option CString)
  | [] => some none
  | [s] => some s
  | [some s, some t] => (strappend s t).map some
  | [_, _] => none
  | c => concatBuffer c

section
variable {s t r : CString} {l : List CString}

theorem strappend_iff : strappend s t = some (s.append t) ↔ s.strlen + t.strlen + 1 < 2 ^ 31 := by
  have hbits : (2 : Nat) ^ 32 = 2 * 2 ^ 31 := by decide
  have htotal : (BitVec.ofNat 32 (s.strlen + t.strlen + 1)).toInt ≤
      (s.strlen + t.strlen + 1) % (2 ^ 32 : Nat) := by
    rw [BitVec.toInt_eq_toNat_cond, BitVec.toNat_ofNat]
    split <;> omega
  simp only [strappend, Option.bind_eq_some_iff, Option.map_eq_some_iff, Buffer.new_eq_some_iff,
    Buffer.strcat_eq_some_iff]
  constructor
  · rintro ⟨a, ⟨hpos, hcap, htext⟩, b, ⟨-, hb, hbt⟩, c, ⟨hfits, -, -⟩, -⟩
    rw [hb, hcap, hbt, htext, CString.empty_append] at hfits
    -- The buffer has room for both strings, so the size has not wrapped around.
    by_contra hlong
    have hmod := Nat.mod_lt (s.strlen + t.strlen + 1) (show 0 < 2 ^ 32 by decide)
    have hsize : (s.strlen + t.strlen + 1) % (2 ^ 32 : Nat) = s.strlen + t.strlen + 1 := by
      have := Nat.mod_le (s.strlen + t.strlen + 1) (2 ^ 32)
      omega
    rw [BitVec.toInt_eq_toNat_cond, BitVec.toNat_ofNat, hsize] at hpos
    split at hpos <;> omega
  · intro hshort
    have hsize : (BitVec.ofNat 32 (s.strlen + t.strlen + 1)).toInt = s.strlen + t.strlen + 1 := by
      rw [BitVec.toInt_eq_toNat_cond, BitVec.toNat_ofNat, Nat.mod_eq_of_lt (by omega), if_pos (by omega)]
      push_cast
      rfl
    rw [hsize]
    have hnew : (CString.empty).strlen < s.strlen + t.strlen + 1 := Nat.succ_pos _
    have hs : s.strlen < s.strlen + t.strlen + 1 := by omega
    have hst : (s.append t).strlen < s.strlen + t.strlen + 1 := by
      rw [CString.strlen_append]
      exact Nat.lt_succ_self _
    refine ⟨⟨s.strlen + t.strlen + 1, .empty, hnew⟩, ⟨by omega, by simp; omega, rfl⟩,
      ⟨s.strlen + t.strlen + 1, s, hs⟩, ⟨?_, rfl, rfl⟩, ⟨s.strlen + t.strlen + 1, s.append t, hst⟩,
      ⟨?_, rfl, rfl⟩, rfl⟩
    · rwa [CString.strlen_empty, Nat.zero_add]
    · rwa [CString.strlen_append] at hst

theorem totalSize_eq (l : List CString) :
    totalSize (l.map some) = BitVec.ofNat 32 (CString.concat l).strlen := by
  have hfold : ∀ (l : List CString) (size : BitVec 32),
      (l.map some).foldl (fun size s => match s with
        | some s => size + BitVec.ofNat 32 s.strlen
        | none => size) size = size + BitVec.ofNat 32 (l.map CString.strlen).sum := by
    intro l
    induction l with
    | nil => simp
    | cons s l ih =>
      intro size
      rw [List.map_cons, List.foldl_cons, ih, List.map_cons, List.sum_cons, BitVec.ofNat_add,
        BitVec.add_assoc]
  rw [totalSize, hfold, CString.strlen_concat]
  exact BitVec.zero_add _

/-- The last character is lost, where a string is returned at all. -/
theorem concatBuffer_ne (hl : (CString.concat l).chars ≠ []) :
    concatBuffer (l.map some) ≠ some (some (CString.concat l)) := by
  intro h
  have hpos : 0 < (CString.concat l).strlen := List.length_pos_iff.2 hl
  have hstrings : (l.map some).reduceOption = l := by
    rw [List.reduceOption, List.filterMap_map]
    exact List.filterMap_some
  rw [concatBuffer, totalSize_eq, hstrings] at h
  split at h
  · cases h
  · simp only [Option.bind_eq_some_iff, Option.map_eq_some_iff, Buffer.new_eq_some_iff,
      Buffer.foldlM_strcat_eq_some_iff] at h
    obtain ⟨b, ⟨-, hcap, htext⟩, c, ⟨hfits, -, hc⟩, d, hd, hresult⟩ := h
    rw [htext, CString.empty_append] at hc
    rw [htext, CString.strlen_empty, Nat.zero_add, hcap, Int.toNat_natCast] at hfits
    -- Everything has been written into the buffer, so the size has not wrapped around.
    have hlt : (CString.concat l).strlen < 2 ^ 32 := Nat.lt_trans hfits (BitVec.isLt _)
    have hsize : (BitVec.ofNat 32 (CString.concat l).strlen - 1).toNat = (CString.concat l).strlen - 1 := by
      have hone : (1 : BitVec 32) ≤ BitVec.ofNat 32 (CString.concat l).strlen := by
        rw [BitVec.le_def, BitVec.toNat_ofNat, Nat.mod_eq_of_lt hlt]
        exact hpos
      rw [BitVec.toNat_sub_of_le hone, BitVec.toNat_ofNat, Nat.mod_eq_of_lt hlt]
      rfl
    unfold Buffer.terminate at hd
    split at hd
    · obtain rfl := Option.some.inj hd
      have hlength := congrArg CString.strlen (Option.some.inj hresult)
      rw [CString.strlen_take, hc, hsize] at hlength
      omega
    · cases hd

/-- **The strings are concatenated** if and only if there is one of them, or two whose length and null fit an
`int`. -/
theorem strconcatN_iff (c : List CString) (hc : ∃ s ∈ c, s.chars ≠ []) :
    strconcatN (c.map some) = some (some (CString.concat c)) ↔
      c.length = 1 ∨ c.length = 2 ∧ (CString.concat c).strlen + 1 < 2 ^ 31 := by
  match c with
  | [] => simp at hc
  | [s] => simp [strconcatN, CString.concat]
  | [s, t] =>
    have hconcat : CString.concat [s, t] = s.append t := by
      rw [CString.concat_cons, CString.concat_cons, CString.append_concat_nil]
    rw [hconcat, CString.strlen_append, ← strappend_iff]
    simp [strconcatN]
  | s :: t :: u :: l =>
    refine iff_of_false (concatBuffer_ne (l := s :: t :: u :: l) ?_) (by simp)
    obtain ⟨r, hr, hne⟩ := hc
    intro hnil
    exact hne (List.flatMap_eq_nil_iff.1 hnil r hr)

/-- `"ab"` and `"c"`. -/
theorem strconcatN_iff_pair : strconcatN ([⟨[97, 98], by decide⟩, ⟨[99], by decide⟩].map some) =
    some (some (CString.concat [⟨[97, 98], by decide⟩, ⟨[99], by decide⟩])) :=
  (strconcatN_iff _ ⟨⟨[97, 98], by decide⟩, List.mem_cons_self, by decide⟩).2
    (.inr ⟨rfl, by decide⟩)

/-- Of `"a"`, `"b"` and `"c"`, `"ab"` is left. -/
theorem strconcatN_three :
    let c := [CString.mk [97] (by decide), .mk [98] (by decide), .mk [99] (by decide)]
    strconcatN (c.map some) = some (some ⟨[97, 98], by decide⟩) ∧
      strconcatN (c.map some) ≠ some (some (CString.concat c)) := by decide

end

end OmpSs.Mcxx.StringUtils
