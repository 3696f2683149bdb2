import Mathlib.Data.List.Lex
import Mathlib.Order.Lattice
import Mathlib.Algebra.GroupWithZero.Nat

/-!
# Strings of C

A string is its characters, none of them the null character that ends it. A buffer is an array of a fixed
capacity that holds a string together with its end. `strcat` appends to it, and has no result where it would
write past the array; `terminate` puts a null character somewhere. Appending several strings one after the
other has a result if and only if all of them together fit (`foldlM_strcat_eq_some_iff`).
-/

namespace OmpSs.Lib

structure CString where
  chars : List UInt8
  ne_zero : 0 ∉ chars
deriving DecidableEq

namespace CString

@[ext] theorem ext {s t : CString} (h : s.chars = t.chars) : s = t := by
  cases s
  cases t
  cases h
  rfl

def strlen (s : CString) : Nat := s.chars.length

def empty : CString := ⟨[], List.not_mem_nil⟩

def append (s t : CString) : CString where
  chars := s.chars ++ t.chars
  ne_zero h := (List.mem_append.1 h).elim s.ne_zero t.ne_zero

/-- The strings one after the other. -/
def concat (l : List CString) : CString where
  chars := l.flatMap chars
  ne_zero h := by
    obtain ⟨s, -, hs⟩ := List.mem_flatMap.1 h
    exact s.ne_zero hs

def take (n : Nat) (s : CString) : CString where
  chars := s.chars.take n
  ne_zero h := s.ne_zero (List.mem_of_mem_take h)

variable {s t u : CString} {n : Nat}

@[simp] theorem strlen_append : (s.append t).strlen = s.strlen + t.strlen := List.length_append

@[simp] theorem strlen_empty : empty.strlen = 0 := rfl

@[simp] theorem strlen_take : (s.take n).strlen = min n s.strlen := List.length_take

@[simp] theorem empty_append : empty.append s = s := rfl

theorem append_assoc : (s.append t).append u = s.append (t.append u) :=
  ext (List.append_assoc _ _ _)

theorem concat_cons (s : CString) (l : List CString) : concat (s :: l) = s.append (concat l) := by
  apply ext
  simp [concat, append]

@[simp] theorem append_concat_nil : s.append (concat []) = s := ext (List.append_nil _)

@[simp] theorem strlen_concat (l : List CString) : (concat l).strlen = (l.map strlen).sum := by
  rw [strlen, concat, List.length_flatMap]
  rfl

/-! ### The order of `strcmp` -/

/-- The characters as numbers: `strcmp` compares them as unsigned ones. -/
def codes (s : CString) : List Nat := s.chars.map UInt8.toNat

theorem codes_injective : Function.Injective codes := fun _ _ h =>
  ext (List.map_injective_iff.2 (fun _ _ => UInt8.toNat_inj.1) h)

instance : LinearOrder CString := .lift' codes codes_injective

@[simp] theorem codes_take : (s.take n).codes = s.codes.take n := List.map_take

theorem lt_iff : s < t ↔ s.codes < t.codes := Iff.rfl

/-- A difference among the first characters decides. -/
theorem lt_iff_take_lt (h : s.take n ≠ t.take n) : s < t ↔ s.take n < t.take n := by
  have hlist : ∀ (n : Nat) (l m : List Nat), l.take n ≠ m.take n → (l < m ↔ l.take n < m.take n) := by
    intro n
    induction n with
    | zero => exact fun l m h => absurd rfl h
    | succ n ih =>
      intro l m h
      cases l with
      | nil => cases m <;> simp_all
      | cons a l =>
        cases m with
        | nil => simp
        | cons b m =>
          rw [List.take_succ_cons, List.take_succ_cons, List.cons_lt_cons_iff, List.cons_lt_cons_iff]
          refine or_congr_right (and_congr_right fun hab => ih l m fun hlm => h ?_)
          rw [List.take_succ_cons, List.take_succ_cons, hab, hlm]
  rw [lt_iff, lt_iff, codes_take, codes_take]
  refine hlist n _ _ fun hcodes => h (codes_injective ?_)
  rwa [codes_take, codes_take]

/-- The beginning of a string comes before it. -/
theorem take_le : s.take n ≤ s := by
  have hlist : ∀ (n : Nat) (l : List Nat), ¬ l < l.take n := by
    intro n
    induction n with
    | zero => simp
    | succ n ih =>
      intro l
      cases l with
      | nil => simp
      | cons a l =>
        rw [List.take_succ_cons, List.cons_lt_cons_iff, not_or]
        exact ⟨lt_irrefl a, fun h => ih l h.2⟩
  rw [← not_lt, lt_iff, codes_take]
  exact hlist n s.codes

/-- `compare` on the first `n` characters. -/
def strncmp (s t : CString) (n : Nat) : Ordering := compare (s.take n) (t.take n)

end CString

/-! ## Buffers -/

structure Buffer where
  capacity : Nat
  text : CString
  fits : text.strlen < capacity

namespace Buffer

/-- An array with the empty string in it; `none`: no array has this size. -/
def new (n : Int) : Option Buffer :=
  if h : 0 < n then some ⟨n.toNat, .empty, by rw [CString.strlen_empty]; omega⟩ else none

def strcat (b : Buffer) (s : CString) : Option Buffer :=
  if h : (b.text.append s).strlen < b.capacity then some ⟨b.capacity, b.text.append s, h⟩ else none

/-- The null character at a place. -/
def terminate (b : Buffer) (i : Nat) : Option Buffer :=
  if i < b.capacity then
    some ⟨b.capacity, b.text.take i, by
      have := b.fits
      rw [CString.strlen_take]
      omega⟩
  else none

variable {b c : Buffer} {s : CString}

@[ext] theorem ext (hc : b.capacity = c.capacity) (ht : b.text = c.text) : b = c := by
  cases b
  cases c
  cases hc
  cases ht
  rfl

theorem new_eq_some_iff {n : Int} : new n = some b ↔ 0 < n ∧ b.capacity = n.toNat ∧ b.text = .empty := by
  unfold new
  split
  · next h =>
    rw [Option.some_inj]
    exact ⟨fun hb => hb ▸ ⟨h, rfl, rfl⟩, fun ⟨_, hc, ht⟩ => ext hc.symm ht.symm⟩
  · next h => exact iff_of_false nofun fun hb => h hb.1

theorem strcat_eq_some_iff : b.strcat s = some c ↔
    b.text.strlen + s.strlen < b.capacity ∧ c.capacity = b.capacity ∧ c.text = b.text.append s := by
  unfold strcat
  rw [← CString.strlen_append]
  split
  · next h =>
    rw [Option.some_inj]
    exact ⟨fun hb => hb ▸ ⟨h, rfl, rfl⟩, fun ⟨_, hc, ht⟩ => ext hc.symm ht.symm⟩
  · next h => exact iff_of_false nofun fun hb => h hb.1

/-- Strings are appended one after the other if they fit together. -/
theorem foldlM_strcat_eq_some_iff (l : List CString) : l.foldlM strcat b = some c ↔
    b.text.strlen + (CString.concat l).strlen < b.capacity ∧ c.capacity = b.capacity ∧
      c.text = b.text.append (CString.concat l) := by
  induction l generalizing b with
  | nil =>
    have hfits := b.fits
    rw [List.foldlM_nil, CString.append_concat_nil]
    rw [show b.text.strlen + (CString.concat []).strlen = b.text.strlen from rfl]
    refine ⟨fun hb => ?_, fun ⟨_, hc, ht⟩ => congrArg some (ext hc.symm ht.symm)⟩
    obtain rfl := Option.some.inj hb
    exact ⟨hfits, rfl, rfl⟩
  | cons s l ih =>
    rw [List.foldlM_cons, CString.concat_cons, CString.strlen_append, ← CString.append_assoc,
      ← Nat.add_assoc]
    simp only [Option.bind_eq_bind, Option.bind_eq_some_iff, ih, strcat_eq_some_iff]
    constructor
    · rintro ⟨d, ⟨-, hcap, htext⟩, hfits, hc, ht⟩
      rw [hcap, htext, CString.strlen_append] at hfits
      rw [hcap] at hc
      rw [htext] at ht
      exact ⟨hfits, hc, ht⟩
    · rintro ⟨hfits, hc, ht⟩
      have hs : (b.text.append s).strlen < b.capacity := by
        rw [CString.strlen_append]
        omega
      refine ⟨⟨b.capacity, b.text.append s, hs⟩, ⟨?_, rfl, rfl⟩, ?_, hc, ht⟩
      · rwa [CString.strlen_append] at hs
      · rwa [CString.strlen_append]

end Buffer

end OmpSs.Lib
