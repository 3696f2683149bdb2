import Mathlib.Data.List.DropRight

/-!
# Lines of a text

A text is a list of characters. `lines` takes it apart after every newline, each line with its newline; the
last line may lack one. `fgets` reads a line from a text as C does, in pieces if the line does not fit: the
lines that remain are those of the text after the line (`fgets_of_le`), or, after a piece of a line, the
characters left of it come first (`fgets_of_lt`).
-/

namespace OmpSs.Lib

/-- A line with its newline. -/
def IsLine (l : List Char) : Prop := ∃ t, '\n' ∉ t ∧ l = t ++ ['\n']

def lines : List Char → List (List Char)
  | [] => []
  | c :: s =>
    if c = '\n' then [c] :: lines s
    else
      match lines s with
      | [] => [[c]]
      | l :: ls => (c :: l) :: ls

def chomp (l : List Char) : List Char := if l.getLast? = some '\n' then l.dropLast else l

/-- The lines without their newlines. -/
def textLines (s : List Char) : List (List Char) := (lines s).map chomp

/-- Reads up to `n` characters, not past the end of a line. -/
def fgets : Nat → List Char → List Char × List Char
  | 0, s => ([], s)
  | _ + 1, [] => ([], [])
  | n + 1, c :: s =>
    if c = '\n' then ([c], s)
    else (c :: (fgets n s).1, (fgets n s).2)

section
variable {c : Char} {s t l : List Char} {ls : List (List Char)} {n : Nat}

@[simp] theorem lines_nil : lines [] = [] := rfl

@[simp] theorem lines_newline_cons : lines ('\n' :: s) = ['\n'] :: lines s := by
  rw [lines, if_pos rfl]

theorem lines_cons_of_lines (hc : c ≠ '\n') (h : lines s = l :: ls) : lines (c :: s) = (c :: l) :: ls := by
  rw [lines, if_neg hc, h]

theorem lines_singleton_of_ne (hc : c ≠ '\n') : lines [c] = [[c]] := by
  rw [lines, if_neg hc, lines_nil]

theorem isLine_newline : IsLine ['\n'] := ⟨[], List.not_mem_nil, rfl⟩

theorem IsLine.cons (h : IsLine l) (hc : c ≠ '\n') : IsLine (c :: l) := by
  obtain ⟨t, ht, rfl⟩ := h
  exact ⟨c :: t, by simp [hc.symm, ht], rfl⟩

theorem lines_eq_nil_iff : lines s = [] ↔ s = [] := by
  cases s with
  | nil => exact iff_of_true rfl rfl
  | cons c s =>
    refine iff_of_false ?_ (by simp)
    unfold lines
    split
    · simp
    · split <;> simp

theorem exists_lines_eq_cons (hs : s ≠ []) : ∃ l ls, lines s = l :: ls :=
  List.exists_cons_of_ne_nil (mt lines_eq_nil_iff.1 hs)

theorem flatten_lines (s : List Char) : (lines s).flatten = s := by
  induction s with
  | nil => rfl
  | cons c s ih =>
    unfold lines
    split
    · rw [List.flatten_cons, ih, List.singleton_append]
    · split
      · next h =>
        rw [h] at ih
        rw [← ih]
        rfl
      · next h =>
        rw [h, List.flatten_cons] at ih
        rw [List.flatten_cons, List.cons_append, ih]

/-- A line comes first, then the lines of what follows it. -/
theorem lines_append (h : IsLine l) : lines (l ++ s) = l :: lines s := by
  obtain ⟨t, ht, rfl⟩ := h
  induction t with
  | nil => exact lines_newline_cons
  | cons c t ih =>
    rw [List.mem_cons, not_or] at ht
    exact lines_cons_of_lines (Ne.symm ht.1) (ih ht.2)

theorem lines_of_newline_notMem (ht : '\n' ∉ t) (hne : t ≠ []) : lines t = [t] := by
  induction t with
  | nil => exact absurd rfl hne
  | cons c t ih =>
    rw [List.mem_cons, not_or] at ht
    by_cases h : t = []
    · rw [h]
      exact lines_singleton_of_ne (Ne.symm ht.1)
    · exact lines_cons_of_lines (Ne.symm ht.1) (ih ht.2 h)

/-- What stands before a text without a newline in it belongs to the first line of the text. -/
theorem lines_append_of_newline_notMem (ht : '\n' ∉ t) (h : lines s = l :: ls) :
    lines (t ++ s) = (t ++ l) :: ls := by
  induction t with
  | nil => exact h
  | cons c t ih =>
    rw [List.mem_cons, not_or] at ht
    exact lines_cons_of_lines (Ne.symm ht.1) (ih ht.2)

/-- The first line of a text is one with its newline, or all there is. -/
theorem isLine_or_of_lines (h : lines s = l :: ls) : IsLine l ∨ ('\n' ∉ l ∧ ls = [] ∧ l = s ∧ l ≠ []) := by
  induction s generalizing l ls with
  | nil => cases h
  | cons c s ih =>
    by_cases hc : c = '\n'
    · subst hc
      rw [lines_newline_cons, List.cons.injEq] at h
      exact .inl (h.1 ▸ isLine_newline)
    · cases hs : lines s with
      | nil =>
        obtain rfl := lines_eq_nil_iff.1 hs
        rw [lines_singleton_of_ne hc, List.cons.injEq] at h
        obtain ⟨rfl, rfl⟩ := h
        exact .inr ⟨by simpa using Ne.symm hc, rfl, rfl, by simp⟩
      | cons l' ls' =>
        rw [lines_cons_of_lines hc hs, List.cons.injEq] at h
        obtain ⟨rfl, rfl⟩ := h
        rcases ih hs with hline | ⟨hno, rfl, rfl, -⟩
        · exact .inl (hline.cons hc)
        · exact .inr ⟨by simp [Ne.symm hc, hno], rfl, rfl, by simp⟩

@[simp] theorem chomp_concat_newline (t : List Char) : chomp (t ++ ['\n']) = t := by
  rw [chomp, if_pos List.getLast?_concat, List.dropLast_concat]

theorem chomp_of_newline_notMem (ht : '\n' ∉ t) : chomp t = t :=
  if_neg fun h => ht (List.mem_of_getLast? h)

@[simp] theorem textLines_nil : textLines [] = [] := rfl

theorem textLines_append (ht : '\n' ∉ t) (s : List Char) : textLines (t ++ '\n' :: s) = t :: textLines s := by
  rw [textLines, List.append_cons, lines_append ⟨t, ht, rfl⟩, List.map_cons, chomp_concat_newline]
  rfl

theorem textLines_concat_newline (ht : '\n' ∉ t) : textLines (t ++ ['\n']) = [t] := by
  rw [textLines_append ht, textLines_nil]

theorem textLines_of_newline_notMem (ht : '\n' ∉ t) (hne : t ≠ []) : textLines t = [t] := by
  rw [textLines, lines_of_newline_notMem ht hne, List.map_singleton, chomp_of_newline_notMem ht]

@[simp] theorem fgets_append (n : Nat) (s : List Char) : (fgets n s).1 ++ (fgets n s).2 = s := by
  fun_induction fgets n s with
  | case1 s => rfl
  | case2 n => rfl
  | case3 n s => rfl
  | case4 n c s hc ih => rw [List.cons_append, ih]

/-- A line that fits is read as a whole. -/
theorem fgets_of_le (h : lines s = l :: ls) (hn : l.length ≤ n) : fgets n s = (l, ls.flatten) := by
  induction s generalizing l ls n with
  | nil => cases h
  | cons c s ih =>
    by_cases hc : c = '\n'
    · subst hc
      rw [lines_newline_cons, List.cons.injEq] at h
      obtain ⟨rfl, rfl⟩ := h
      obtain ⟨m, rfl⟩ := Nat.exists_eq_add_of_le' hn
      rw [List.length_singleton, fgets, if_pos rfl, flatten_lines]
    · cases hs : lines s with
      | nil =>
        obtain rfl := lines_eq_nil_iff.1 hs
        rw [lines_singleton_of_ne hc, List.cons.injEq] at h
        obtain ⟨rfl, rfl⟩ := h
        obtain ⟨m, rfl⟩ := Nat.exists_eq_add_of_le' hn
        rw [List.length_singleton, fgets, if_neg hc]
        cases m <;> rfl
      | cons l' ls' =>
        rw [lines_cons_of_lines hc hs, List.cons.injEq] at h
        obtain ⟨rfl, rfl⟩ := h
        obtain ⟨m, rfl⟩ := Nat.exists_eq_add_of_le' hn
        rw [List.length_cons, Nat.add_comm l'.length 1, ← Nat.add_assoc, Nat.add_right_comm, fgets, if_neg hc,
          ih hs (Nat.le_add_left _ _)]

/-- Of a line that does not fit, `n` characters are read. -/
theorem fgets_of_lt (h : lines s = l :: ls) (hn : n < l.length) :
    fgets n s = (l.take n, l.drop n ++ ls.flatten) ∧ '\n' ∉ l.take n := by
  induction n generalizing s l with
  | zero =>
    refine ⟨?_, List.not_mem_nil⟩
    rw [fgets, List.take_zero, List.drop_zero, ← List.flatten_cons, ← h, flatten_lines]
  | succ n ih =>
    cases s with
    | nil => cases h
    | cons c s =>
      by_cases hc : c = '\n'
      · subst hc
        rw [lines_newline_cons, List.cons.injEq] at h
        obtain ⟨rfl, -⟩ := h
        exact absurd hn (by simp)
      · cases hs : lines s with
        | nil =>
          obtain rfl := lines_eq_nil_iff.1 hs
          rw [lines_singleton_of_ne hc, List.cons.injEq] at h
          obtain ⟨rfl, -⟩ := h
          exact absurd hn (by simp)
        | cons l' ls' =>
          rw [lines_cons_of_lines hc hs, List.cons.injEq] at h
          obtain ⟨rfl, rfl⟩ := h
          obtain ⟨hread, hno⟩ := ih hs (Nat.lt_of_succ_lt_succ hn)
          rw [fgets, if_neg hc, hread]
          exact ⟨rfl, by simp [Ne.symm hc, hno]⟩

/-- Only letters have another one in lower case. -/
theorem eq_of_toLower_eq {d : Char} (hd : d.val.toNat < 97) (h : c.toLower = d) : c = d := by
  unfold Char.toLower at h
  split at h
  · next hrange =>
    have hval := congrArg (fun d => d.val.toNat) h
    have hlow : 65 ≤ c.val.toNat := hrange.1
    have hhigh : c.val.toNat ≤ 90 := hrange.2
    have hadd : (c.val + ('a'.val - 'A'.val)).toNat = (c.val.toNat + 32) % 2 ^ 32 := UInt32.toNat_add _ _
    change (c.val + ('a'.val - 'A'.val)).toNat = d.val.toNat at hval
    omega
  · exact h

end

/-! ## The end of a text -/

section
variable {α : Type*} {p : α → Bool} {c : α} {s t : List α}

theorem rdropWhile_append_of_ne_nil (h : t.rdropWhile p ≠ []) :
    (s ++ t).rdropWhile p = s ++ t.rdropWhile p := by
  induction t using List.reverseRecOn with
  | nil => exact absurd (List.rdropWhile_nil p) h
  | append_singleton t c ih =>
    rw [← List.append_assoc]
    by_cases hc : p c = true
    · rw [List.rdropWhile_concat_pos _ _ _ hc] at h ⊢
      rw [List.rdropWhile_concat_pos _ _ _ hc, ih h]
    · rw [List.rdropWhile_concat_neg _ _ _ hc, List.rdropWhile_concat_neg _ _ _ hc, List.append_assoc]

theorem rdropWhile_append_of_eq_nil (h : t.rdropWhile p = []) : (s ++ t).rdropWhile p = s.rdropWhile p := by
  induction t using List.reverseRecOn with
  | nil => rw [List.append_nil]
  | append_singleton t c ih =>
    rw [List.rdropWhile_eq_nil_iff, List.forall_mem_append, List.forall_mem_singleton] at h
    rw [← List.append_assoc, List.rdropWhile_concat_pos _ _ _ h.2, ih (List.rdropWhile_eq_nil_iff.2 h.1)]

theorem head?_rdropWhile (hs : s.head? = some c) (hc : p c = false) : (s.rdropWhile p).head? = some c := by
  obtain ⟨r, hr⟩ := List.rdropWhile_prefix p s
  have hne : s.rdropWhile p ≠ [] := by
    rw [Ne, List.rdropWhile_eq_nil_iff]
    intro h
    rw [h c (List.mem_of_head? hs)] at hc
    cases hc
  obtain ⟨c', s', hcons⟩ := List.exists_cons_of_ne_nil hne
  rw [← hr, hcons] at hs
  rw [hcons]
  exact hs

theorem head?_dropWhile_append (hs : (s.dropWhile p).head? = some c) (t : List α) :
    ((s ++ t).dropWhile p).head? = some c := by
  rw [List.dropWhile_append, if_neg, List.head?_append, hs]
  · rfl
  · rw [List.isEmpty_iff]
    intro hnil
    rw [hnil] at hs
    cases hs

/-- The first character that is kept. -/
theorem exists_of_head?_dropWhile (hs : (s.dropWhile p).head? = some c) :
    ∃ t, s = s.takeWhile p ++ c :: t ∧ p c = false := by
  obtain ⟨t, ht⟩ := List.head?_eq_some_iff.1 hs
  have hc := List.head?_dropWhile_not p s
  rw [hs] at hc
  exact ⟨t, by rw [← ht, List.takeWhile_append_dropWhile], by simpa using hc⟩

end

end OmpSs.Lib
