import OmpSs.Mcxx.FixedForm
import OmpSs.Lib.FreeSource

/-!
# Continuing lines in the free form

`continuateLines` cuts a line that is longer than the width and lets an ampersand end the first part and begin the
second, which is cut again if it is too long. With a width of at least two it ends (`exists_continuateLines`). Read
by the rules of the free form, what it leaves are the statements and directives of the lines where every line fits
or is a statement that begins before the first cut and reaches beyond the last one
(`continuateLines_read_iff`): a comment that is cut goes on as a statement, and a directive that is cut goes on
without its sentinel. Source: `prescanner-process.c:928`.
-/

namespace OmpSs.Mcxx.FixedForm

open OmpSs.Lib OmpSs.Lib.FreeForm CharContext

/-! ## Pieces -/

/-- The lines that are made of one. -/
def pieces (width : Nat) (c : List Char) : List (List Char) :=
  if _ : width < c.length ∧ 2 ≤ width then (c.take width ++ ['&']) :: pieces width ('&' :: c.drop width) else [c]
termination_by c.length
decreasing_by simp; omega

/-- The place of the last cut of a line of `n` characters that continues another one. -/
def lastCut (width n : Nat) : Nat := (n - 1) / (width - 1) * (width - 1)

section
variable {width n : Nat} {c s t text : List Char} {ls : List (List Char)}

theorem pieces_of_le (h : c.length ≤ width) : pieces width c = [c] := by
  rw [pieces, dif_neg fun hlt => absurd h (Nat.not_le.2 hlt.1)]

theorem pieces_of_lt (hwidth : 2 ≤ width) (h : width < c.length) :
    pieces width c = (c.take width ++ ['&']) :: pieces width ('&' :: c.drop width) := by
  rw [pieces, dif_pos ⟨h, hwidth⟩]

theorem lastCut_of_lt (hwidth : 2 ≤ width) (h : n < width) : lastCut width n = 0 := by
  rw [lastCut, Nat.div_eq_of_lt (by omega), Nat.zero_mul]

theorem lastCut_add (hwidth : 2 ≤ width) (hn : 0 < n) :
    lastCut width (width - 1 + n) = width - 1 + lastCut width n := by
  have hsub : width - 1 + n - 1 = n - 1 + (width - 1) := by omega
  rw [lastCut, hsub, Nat.add_div_right _ (by omega), Nat.succ_mul, Nat.add_comm]
  rfl

/-- A line that ends with no blank. -/
def Ends (c : List Char) : Prop := c.getLast? ≠ some ' '

theorem trimRight_of_ends (h : Ends c) : trimRight c = c := by
  unfold trimRight
  rw [List.rdropWhile_eq_self_iff]
  intro hne hblank
  refine h ?_
  rw [List.getLast?_eq_getLast_of_ne_nil hne, eq_of_beq hblank]

theorem ends_trimRight (c : List Char) : Ends (trimRight c) := by
  intro h
  obtain ⟨s, hs⟩ := List.getLast?_eq_some_iff.1 h
  have hself : trimRight (trimRight c) = trimRight c := List.rdropWhile_idempotent _ _
  rw [hs] at hself
  unfold trimRight at hself
  rw [List.rdropWhile_concat_pos _ _ _ (by rfl)] at hself
  have hlength := (List.rdropWhile_prefix (· == ' ') s).length_le
  rw [hself, List.length_append] at hlength
  exact absurd hlength (by simp)

theorem Ends.drop (h : Ends c) (hlt : n < c.length) : Ends ('&' :: c.drop n) := by
  have hne : c.drop n ≠ [] := by simpa using hlt
  unfold Ends at h ⊢
  rwa [List.getLast?_cons_of_ne_nil hne, List.getLast?_drop, if_neg (Nat.not_le.2 hlt)]

end

/-! ## Termination -/

section
variable {prescanner : Prescanner}

/-- With enough rounds there is a result, which does not depend on their number. -/
theorem exists_continuateLines (hwidth : 2 ≤ prescanner.width) (file_lines : List Line) :
    ∃ fuel out, (∀ fuel' ≥ fuel, continuateLines prescanner fuel' file_lines = some out) ∧
      out.map Line.line = file_lines.flatMap fun l => pieces prescanner.width (trimRight l.line) := by
  induction file_lines with
  | nil => exact ⟨0, [], fun fuel' _ => by cases fuel' <;> rfl, rfl⟩
  | cons l ls ih =>
    obtain ⟨fuel, out, hout, hlines⟩ := ih
    induction hn : (trimRight l.line).length using Nat.strong_induction_on generalizing l with
    | _ n ihn =>
      subst hn
      by_cases hlong : prescanner.width < (trimRight l.line).length
      · have hends := (ends_trimRight l.line).drop hlong
        obtain ⟨fuel', out', hout', hlines'⟩ := ihn ((trimRight l.line).length - prescanner.width + 1) (by omega)
          ⟨'&' :: (trimRight l.line).drop prescanner.width, 0, l.joined_lines - 1⟩
          (by rw [trimRight_of_ends hends, List.length_cons, List.length_drop])
        refine ⟨fuel' + 1, { l with line := (trimRight l.line).take prescanner.width ++ ['&'], joined_lines := 0 } ::
          out', fun fuel'' hle => ?_, ?_⟩
        · obtain ⟨m, rfl⟩ := Nat.exists_eq_add_of_le' hle
          rw [← Nat.add_assoc, continuateLines]
          dsimp only
          rw [if_pos hlong, hout' _ (Nat.le_add_left _ _)]
          rfl
        · rw [List.flatMap_cons, trimRight_of_ends hends] at hlines'
          rw [List.map_cons, hlines', List.flatMap_cons, pieces_of_lt hwidth hlong]
          rfl
      · refine ⟨fuel + 1, { l with line := trimRight l.line } :: out, fun fuel'' hle => ?_, ?_⟩
        · obtain ⟨m, rfl⟩ := Nat.exists_eq_add_of_le' hle
          rw [← Nat.add_assoc, continuateLines]
          dsimp only
          rw [if_neg hlong, hout _ (Nat.le_add_left _ _)]
          rfl
        · rw [List.map_cons, hlines, List.flatMap_cons, pieces_of_le (Nat.not_lt.1 hlong)]
          rfl

end

/-! ## Reading the pieces -/

/-- A line that fits or, if it is a statement, begins before the first cut and has text after the last one. -/
def Fits (sentinel : List Char → Option (List Char × List Char)) (width : Nat) (c : List Char) : Prop :=
  c.length ≤ width ∨ sentinel c = none ∧ (c.takeWhile isBlank).length < width ∧
    width + lastCut width (c.length - width) < (logicalText sentinel c).length

section
variable {sentinel : List Char → Option (List Char × List Char)} {width n : Nat} {c s t text : List Char}
  {ls : List (List Char)}

theorem exists_pieces_ampersand (hwidth : 2 ≤ width) (s : List Char) :
    ∃ s' ls, pieces width ('&' :: s) = ('&' :: s') :: ls := by
  by_cases h : ('&' :: s).length ≤ width
  · exact ⟨s, [], pieces_of_le h⟩
  · obtain ⟨k, rfl⟩ := Nat.exists_eq_add_of_le' (Nat.le_of_lt hwidth)
    exact ⟨_, _, pieces_of_lt hwidth (Nat.lt_of_not_le h)⟩

/-- The lines after the first cut, for a statement of which `text` has been read. -/
theorem read_pieces (ls : List (List Char)) (hwidth : 2 ≤ width) (hsentinel : IsSentinel sentinel) (hs : s ≠ [])
    (hlast : (trimmed text s).getLast? ≠ some '&') :
    (lastCut width s.length < (trimmed text s).length →
      read sentinel (.statement text) (pieces width ('&' :: s) ++ ls) =
        (read sentinel .fresh ls).map ((text ++ trimmed text s) :: ·)) ∧
    (¬ lastCut width s.length < (trimmed text s).length →
      Spoiled (read sentinel (.statement text) (pieces width ('&' :: s) ++ ls))) := by
  induction hn : s.length using Nat.strong_induction_on generalizing s text with
  | _ n ih =>
    subst hn
    by_cases hlong : s.length < width
    · rw [lastCut_of_lt hwidth hlong, List.length_pos_iff, not_not, pieces_of_le (by rw [List.length_cons]; omega)]
      refine ⟨fun hne => read_ampersand_last hne hlast ls, fun hnil => ?_⟩
      rw [List.singleton_append, read_ampersand_nil hnil]
      exact spoiled_none
    · obtain ⟨a, b, hsplit, ha, hb⟩ : ∃ a b, s = a ++ b ∧ a.length = width - 1 ∧ 0 < b.length :=
        ⟨s.take (width - 1), s.drop (width - 1), (List.take_append_drop _ _).symm,
          by rw [List.length_take]; omega, by rw [List.length_drop]; omega⟩
      have hpieces : pieces width ('&' :: s) = ('&' :: (a ++ ['&'])) :: pieces width ('&' :: b) := by
        have hcons : ('&' :: a).length = width := by rw [List.length_cons]; omega
        rw [pieces_of_lt hwidth (by rw [List.length_cons]; omega), hsplit, ← List.cons_append, ← hcons, List.take_left,
          List.drop_left]
        rfl
      have hcut : lastCut width s.length = width - 1 + lastCut width b.length := by
        rw [hsplit, List.length_append, ha, lastCut_add hwidth hb]
      rw [hpieces, hcut, List.cons_append]
      by_cases hcomment : beforeComment none (context none text) a = a
      · have htrimmed := trimmed_append hcomment b
        have hlast' := getLast?_trimmed_of_append hcomment (hsplit ▸ hlast)
        rw [← hsplit] at htrimmed
        obtain ⟨hread, hspoiled⟩ := ih b.length (by rw [hsplit, List.length_append]; omega)
          (List.length_pos_iff.1 hb) hlast' rfl
        rw [read_ampersand_concat hcomment]
        by_cases hnil : trimmed (text ++ a) b = []
        · have hle := (List.rdropWhile_prefix isBlank a).length_le
          rw [htrimmed, if_pos hnil]
          rw [hnil] at hspoiled
          exact ⟨fun h => by omega, fun _ => hspoiled (Nat.not_lt_zero _)⟩
        · rw [htrimmed, if_neg hnil, List.length_append, ha, Nat.add_lt_add_iff_left, ← List.append_assoc]
          exact ⟨hread, hspoiled⟩
      · have htrimmed := trimmed_append_of_ne hcomment b
        rw [← hsplit] at htrimmed
        obtain ⟨b', bs, hb'⟩ := exists_pieces_ampersand hwidth b
        have hle := length_trimmed_le text a
        rw [htrimmed] at hlast ⊢
        rw [hb']
        exact ⟨fun h => by omega, fun _ => spoiled_ampersand hsentinel hcomment hlast b' _⟩

theorem head?_dropWhile_take (h : (t.takeWhile isBlank).length < n) :
    ((t.take n).dropWhile isBlank).head? = (t.dropWhile isBlank).head? := by
  have hsplit : t.take n = t.takeWhile isBlank ++ (t.dropWhile isBlank).take (n - (t.takeWhile isBlank).length) := by
    conv_lhs => rw [← List.takeWhile_append_dropWhile (p := isBlank) (l := t)]
    rw [List.take_append, List.take_of_length_le (Nat.le_of_lt h)]
  rw [hsplit, List.dropWhile_append_of_pos fun c hc => List.mem_takeWhile_imp hc]
  obtain ⟨k, hk⟩ := Nat.exists_eq_add_of_lt h
  rw [hk, Nat.add_assoc, Nat.add_sub_cancel_left]
  cases hdrop : t.dropWhile isBlank with
  | nil => rfl
  | cons c s =>
    have hc : ¬ isBlank c = true := by
      have := List.head?_dropWhile_not isBlank t
      rw [hdrop] at this
      simpa using this
    rw [List.take_succ_cons, List.dropWhile_cons_of_neg hc]
    rfl

theorem dropWhile_take_eq_nil (h : n ≤ (t.takeWhile isBlank).length) : (t.take n).dropWhile isBlank = [] := by
  rw [List.dropWhile_eq_nil_iff]
  intro c hc
  rw [← List.takeWhile_append_dropWhile (p := isBlank) (l := t), List.take_append_of_le_length h] at hc
  exact List.mem_takeWhile_imp (List.mem_of_mem_take hc)

/-- The lines that are made of a statement or a directive. -/
theorem read_pieces_logical (ls : List (List Char)) (hwidth : 2 ≤ width) (hsentinel : IsSentinel sentinel)
    (ht : IsLogical sentinel t) :
    (Fits sentinel width t →
      read sentinel .fresh (pieces width t ++ ls) = (read sentinel .fresh ls).map (logicalText sentinel t :: ·)) ∧
    (¬ Fits sentinel width t → Spoiled (read sentinel .fresh (pieces width t ++ ls))) := by
  by_cases hlong : t.length ≤ width
  · rw [pieces_of_le hlong]
    exact ⟨fun _ => read_logical hsentinel ht ls, fun h => absurd (.inl hlong) h⟩
  rw [Nat.not_le] at hlong
  rw [pieces_of_lt hwidth hlong, List.cons_append]
  obtain ⟨b', bs, hb'⟩ := exists_pieces_ampersand hwidth (t.drop width)
  by_cases hblanks : (t.takeWhile isBlank).length < width
  swap
  · refine ⟨fun h => ?_, fun _ => ?_⟩
    · rcases h with h | h
      · omega
      · exact absurd h.2.1 hblanks
    · rw [read_blanks hsentinel (dropWhile_take_eq_nil (Nat.not_lt.1 hblanks))]
      exact spoiled_none
  have hhead := head?_dropWhile_take hblanks
  cases hmark : sentinel t with
  | some x =>
    have hbang : (t.dropWhile isBlank).head? = some '!' := by
      by_contra h
      rw [sentinel_eq_none hsentinel h] at hmark
      cases hmark
    refine ⟨fun h => ?_, fun _ => ?_⟩
    · rcases h with h | h
      · omega
      · rw [hmark] at h
        cases h.1
    · rw [hb']
      exact spoiled_cut hsentinel (head?_dropWhile_append (hhead.trans hbang) _) b' _
  | none =>
    obtain ⟨c, hc, hbang, hamp⟩ := ht.statement hmark
    have hlast := ht.last
    rw [hc] at hhead
    have hfits : Fits sentinel width t ↔ width + lastCut width (t.length - width) < (logicalText sentinel t).length :=
      ⟨fun h => (h.resolve_left (Nat.not_le.2 hlong)).2.2, fun h => .inr ⟨hmark, hblanks, h⟩⟩
    have htext : logicalText sentinel t = trimmed [] t := by rw [logicalText, hmark]
    obtain ⟨a, b, hsplit, ha, hb⟩ : ∃ a b, t = a ++ b ∧ t.take width = a ∧ t.drop width = b :=
      ⟨_, _, (List.take_append_drop _ _).symm, rfl, rfl⟩
    have hlength : a.length = width := by rw [← ha, List.length_take]; omega
    rw [hfits, htext]
    rw [htext] at hlast
    rw [ha] at hhead ⊢
    rw [hb] at hb' ⊢
    by_cases hcomment : beforeComment none (context none []) a = a
    · have htrimmed : trimmed [] t =
          if trimmed ([] ++ a) b = [] then a.rdropWhile isBlank else a ++ trimmed ([] ++ a) b := by
        rw [hsplit]
        exact trimmed_append hcomment b
      rw [List.nil_append] at htrimmed
      have hlast' : (trimmed a b).getLast? ≠ some '&' := by
        rw [hsplit] at hlast
        exact getLast?_trimmed_of_append hcomment hlast
      have hblength : b.length = t.length - width := by rw [← hb, List.length_drop]
      obtain ⟨hread, hspoiled⟩ := read_pieces ls hwidth hsentinel
        (List.length_pos_iff.1 (by omega : 0 < b.length)) hlast'
      rw [read_concat hsentinel hhead hbang hamp hcomment, ← hblength]
      by_cases hnil : trimmed a b = []
      · have hle := (List.rdropWhile_prefix isBlank a).length_le
        rw [htrimmed, if_pos hnil]
        rw [hnil] at hspoiled
        exact ⟨fun h => by omega, fun _ => hspoiled (Nat.not_lt_zero _)⟩
      · rw [htrimmed, if_neg hnil, List.length_append, hlength, Nat.add_lt_add_iff_left]
        exact ⟨hread, hspoiled⟩
    · have htrimmed : trimmed [] t = trimmed [] a := by
        rw [hsplit]
        exact trimmed_append_of_ne hcomment b
      have hle := length_trimmed_le [] a
      rw [htrimmed] at hlast ⊢
      rw [hb']
      exact ⟨fun h => by omega, fun _ => spoiled_concat hsentinel hhead hbang hamp hcomment hlast b' _⟩

end

/-! ## Statements, conditional compilation and directives -/

/-- The sentinels `!$omp` and `!$`, the latter followed by a blank. -/
def sentinel (l : List Char) : Option (List Char × List Char) :=
  let blanks := l.takeWhile isBlank
  let s := l.dropWhile isBlank
  if (s.take 5).map Char.toLower = ['!', '$', 'o', 'm', 'p'] then some (blanks ++ s.take 5, s.drop 5)
  else if s.take 3 = ['!', '$', ' '] then some (blanks ++ s.take 3, s.drop 3)
  else none

/-- The blanks, and the `n` characters after them. -/
theorem head?_mark {l : List Char} {n : Nat} (h : ((l.dropWhile isBlank).take n).head? = some '!') :
    l = l.takeWhile isBlank ++ (l.dropWhile isBlank).take n ++ (l.dropWhile isBlank).drop n ∧
      ((l.takeWhile isBlank ++ (l.dropWhile isBlank).take n).dropWhile isBlank).head? = some '!' := by
  refine ⟨by rw [List.append_assoc, List.take_append_drop, List.takeWhile_append_dropWhile], ?_⟩
  obtain ⟨s, hs⟩ := List.head?_eq_some_iff.1 h
  rw [List.dropWhile_append_of_pos fun c hc => List.mem_takeWhile_imp hc, hs]
  rfl

theorem isSentinel : IsSentinel sentinel := by
  intro l mark content h
  unfold sentinel at h
  dsimp only at h
  split at h
  · next homp =>
    obtain ⟨rfl, rfl⟩ := Prod.mk.inj (Option.some.inj h)
    refine head?_mark ?_
    cases hs : (l.dropWhile isBlank).take 5 with
    | nil =>
      rw [hs] at homp
      cases homp
    | cons c s =>
      rw [hs, List.map_cons] at homp
      rw [List.head?_cons, eq_of_toLower_eq (by decide) (List.cons.inj homp).1]
  · split at h
    · next hdollar =>
      obtain ⟨rfl, rfl⟩ := Prod.mk.inj (Option.some.inj h)
      exact head?_mark (by rw [hdollar]; rfl)
    · cases h

section
variable {prescanner : Prescanner} {t : List Char}

theorem logicalText_head? (ht : IsLogical sentinel t) : (logicalText sentinel t).head? ≠ some '&' := by
  intro h
  cases hmark : sentinel t with
  | some x =>
    obtain ⟨mark, content⟩ := x
    obtain ⟨-, hbang⟩ := isSentinel t mark content hmark
    rw [logicalText, hmark] at h
    cases mark with
    | nil => cases hbang
    | cons c s =>
      obtain rfl : c = '&' := Option.some.inj h
      rw [head?_ampersand] at hbang
      exact absurd hbang (by decide)
  | none =>
    obtain ⟨c, hc, -, hamp⟩ := ht.statement hmark
    rw [logicalText, hmark] at h
    obtain ⟨s, hs⟩ := List.head?_eq_some_iff.1 h
    obtain ⟨r, hr⟩ := (List.rdropWhile_prefix isBlank _).trans (beforeComment_isPrefix none (context none []) t)
    have ht : t = '&' :: (s ++ r) := by
      rw [← hr, ← List.cons_append, ← hs]
      rfl
    rw [ht] at hc
    exact hamp (Option.some.inj hc).symm

/-- `continuateLines` ends, and the statements and directives that are read of its lines are those of the lines it
has been given if and only if each of these fits or is a statement that begins before the first cut and has text
after the last one. -/
theorem continuateLines_read_iff (prescanner : Prescanner) (hwidth : 2 ≤ prescanner.width) (file_lines : List Line)
    (hlines : ∀ l ∈ file_lines, IsLogical sentinel (trimRight l.line)) :
    ∃ fuel out, (∀ fuel' ≥ fuel, continuateLines prescanner fuel' file_lines = some out) ∧
      (read sentinel .fresh (out.map Line.line) =
          some (file_lines.map fun l => logicalText sentinel (trimRight l.line)) ↔
        ∀ l ∈ file_lines, Fits sentinel prescanner.width (trimRight l.line)) := by
  obtain ⟨fuel, out, hout, hpieces⟩ := exists_continuateLines hwidth file_lines
  refine ⟨fuel, out, hout, ?_⟩
  rw [hpieces]
  clear hout hpieces
  induction file_lines with
  | nil => exact iff_of_true rfl (List.forall_mem_nil _)
  | cons l ls ih =>
    have hlogical := hlines
    rw [List.forall_mem_cons] at hlines
    rw [List.flatMap_cons, List.map_cons, List.forall_mem_cons, ← ih hlines.2]
    obtain ⟨hread, hspoiled⟩ := read_pieces_logical
      (ls.flatMap fun l => pieces prescanner.width (trimRight l.line)) hwidth isSentinel hlines.1
    by_cases hfits : Fits sentinel prescanner.width (trimRight l.line)
    · rw [hread hfits, and_iff_right hfits, Option.map_eq_some_iff]
      constructor
      · rintro ⟨ts, hts, hcons⟩
        rw [hts, (List.cons.inj hcons).2]
      · exact fun h => ⟨_, h, rfl⟩
    · refine iff_of_false (fun h => ?_) fun h => hfits h.1
      obtain ⟨t, ht, hamp⟩ := hspoiled hfits _ h
      obtain ⟨l', hl', rfl⟩ := List.mem_map.1
        (show t ∈ (l :: ls).map fun l => logicalText sentinel (trimRight l.line) from ht)
      exact logicalText_head? (hlogical l' hl') hamp

/-- A statement that is cut before its comment. -/
theorem continuateLines_read_statement :
    ∃ fuel out,
      (∀ fuel' ≥ fuel, continuateLines ⟨12, true⟩ fuel' [⟨"x = alpha + beta ! sum".toList, 1, 0⟩] = some out) ∧
      read sentinel .fresh (out.map Line.line) = some ["x = alpha + beta".toList] := by
  have hlogical : IsLogical sentinel (trimRight "x = alpha + beta ! sum".toList) :=
    ⟨fun _ => ⟨'x', by decide, by decide, by decide⟩, by decide⟩
  obtain ⟨fuel, out, hout, hread⟩ := continuateLines_read_iff ⟨12, true⟩ (by decide)
    [⟨"x = alpha + beta ! sum".toList, 1, 0⟩] (List.forall_mem_singleton.2 hlogical)
  refine ⟨fuel, out, hout, (hread.2 ?_).trans (by decide +kernel)⟩
  exact List.forall_mem_singleton.2 (.inr (by decide +kernel))

/-- A comment and a directive that are cut. -/
theorem continuateLines_read_cut :
    (continuateLines ⟨10, true⟩ 3 [⟨"x = 1 ! comment".toList, 1, 0⟩] =
        some [⟨"x = 1 ! co&".toList, 1, 0⟩, ⟨"&mment".toList, 0, 0⟩] ∧
      ¬ ∀ fuel out, continuateLines ⟨10, true⟩ fuel [⟨"x = 1 ! comment".toList, 1, 0⟩] = some out →
        read sentinel .fresh (out.map Line.line) = some ["x = 1".toList]) ∧
    (continuateLines ⟨10, true⟩ 3 [⟨"!$omp parallel".toList, 1, 0⟩] =
        some [⟨"!$omp para&".toList, 1, 0⟩, ⟨"&llel".toList, 0, 0⟩] ∧
      ¬ ∀ fuel out, continuateLines ⟨10, true⟩ fuel [⟨"!$omp parallel".toList, 1, 0⟩] = some out →
        read sentinel .fresh (out.map Line.line) = some ["!$omp parallel".toList]) := by
  have hcomment : continuateLines ⟨10, true⟩ 3 [⟨"x = 1 ! comment".toList, 1, 0⟩] =
      some [⟨"x = 1 ! co&".toList, 1, 0⟩, ⟨"&mment".toList, 0, 0⟩] := by decide
  have hdirective : continuateLines ⟨10, true⟩ 3 [⟨"!$omp parallel".toList, 1, 0⟩] =
      some [⟨"!$omp para&".toList, 1, 0⟩, ⟨"&llel".toList, 0, 0⟩] := by decide +kernel
  exact ⟨⟨hcomment, fun h => absurd (h 3 _ hcomment) (by decide)⟩,
    hdirective, fun h => absurd (h 3 _ hdirective) (by decide +kernel)⟩

end

end OmpSs.Mcxx.FixedForm
