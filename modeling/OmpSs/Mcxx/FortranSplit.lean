import OmpSs.Lib.FreeForm

/-!
# Splitting lines of Fortran

The lines that the compiler writes for a Fortran program may be longer than a compiler accepts.
`fortran_split_lines` cuts them: a directive and a token that does not fit wherever the last column is reached
(`double_continuate`), other lines between two tokens of the lexer. Read back by the rules of the free form,
what is written is the line, but that a directive that is cut has an empty line after it
(`fortranSplitLine_undo_iff`); no line written is longer than the width unless there is a run of blanks that
long before a token (`fortranSplitLine_width_iff`). Source: `fortran03-split.c:65-349`.
-/

namespace OmpSs.Mcxx.FortranSplit

open OmpSs.Lib OmpSs.Lib.FreeForm

/-- The prefixes of the directives, which are words of a configuration file. Source: `pragma_custom_prefix`
(`cxx-driver-decls.h:402`). -/
structure Configuration where
  pragma_custom_prefix : List (List Char)
  newline_notMem : ∀ p ∈ pragma_custom_prefix, '\n' ∉ p

/-! ## Lines -/

/-- Source: `trim_right_line` (`fortran03-split.c:323`). -/
def trimRightLine (c : List Char) : List Char :=
  if c.getLast? = some '\n' then c.dropLast.rdropWhile (· == ' ') ++ ['\n'] else c.rdropWhile (· == ' ')

/-- Source: `check_for_comment` (`fortran03-split.c:226`). -/
def checkForComment (c : List Char) : Bool := (c.dropWhile isBlank).head? == some '!'

/-- Equal but for the case of the letters. -/
def strcasecmpEq (s t : List Char) : Bool := s.map Char.toLower == t.map Char.toLower

/-- The prefix of a directive. Source: `check_for_construct` (`fortran03-split.c:233`). -/
def checkForConstruct (config : Configuration) (c : List Char) (max_length : Nat) : Option (List Char) :=
  match c.dropWhile isBlank with
  | '!' :: '$' :: iter =>
    let pre := iter.takeWhile fun c => !isBlank c
    if max_length < pre.length then none
    else if config.pragma_custom_prefix.any (strcasecmpEq pre) then some pre
    else none
  | _ => none

/-! ## Writing -/

/-- What has been written, and the column at which the next character goes. -/
structure Output where
  text : List Char
  column : Nat

/-- A character, and before it the end of the line if its last column has been reached. -/
def continuateChar (mark : List Char) (width : Nat) (o : Output) (c : Char) : Output :=
  let o := if o.column = width ∧ c ≠ '\n' then ⟨o.text ++ ['&', '\n'] ++ mark, 1 + mark.length⟩ else o
  ⟨o.text ++ [c], o.column + 1⟩

def continuate (mark : List Char) (width : Nat) (c : List Char) (o : Output) : Output :=
  c.foldl (continuateChar mark width) o

/-- Source: `double_continuate` (`fortran03-split.c:178`). -/
def doubleContinuate (c : List Char) (width : Nat) (o : Output) : Output := continuate ['&'] width c o

/-- `prefix_start`, which `snprintf` cuts. -/
def prefixStart (pre : List Char) : List Char := (['!', '$'] ++ pre ++ ['&']).take 62

/-- Source: `double_continuate_construct` (`fortran03-split.c:198`). -/
def doubleContinuateConstruct (pre c : List Char) (width : Nat) (o : Output) : Output :=
  continuate (prefixStart pre) width c o

/-- The place of the first occurrence. -/
def strstr (t : List Char) : List Char → Option Nat
  | [] => if t = [] then some 0 else none
  | c :: s => if t <+: c :: s then some 0 else (strstr t s).map (· + 1)

/-- One round of the loop over the tokens: what has been written and what is left of the line. Source:
`fortran03-split.c:115-168`. -/
def writeToken (width : Nat) (s : Output × List Char) (token_text : List Char) : Option (Output × List Char) :=
  let (o, position) := s
  (strstr token_text position).map fun blanks =>
    let next_column := o.column + blanks
    let o := if o.column = width ∨ width ≤ next_column + token_text.length then ⟨o.text ++ ['&', '\n'], 1⟩ else o
    let o := Output.mk (o.text ++ position.take blanks) (o.column + blanks)
    let o :=
      if width ≤ o.column + token_text.length then doubleContinuate token_text width o
      else ⟨o.text ++ token_text, o.column + token_text.length⟩
    (o, position.drop (blanks + token_text.length))

/-- What is written for a line; `lex` are the texts of the tokens that the lexer returns before `EOS`. Source:
`fortran_split_lines` (`fortran03-split.c:65`). -/
def fortranSplitLine (config : Configuration) (lex : List Char → List (List Char)) (width : Nat)
    (line : List Char) : Option (List Char) :=
  let line := trimRightLine line
  if line.length ≤ width then some line
  else
    match checkForConstruct config line 32 with
    | some pre => some ((doubleContinuateConstruct pre line width ⟨[], 1⟩).text ++ ['\n'])
    | none =>
      if checkForComment line then some line
      else ((lex line).foldlM (writeToken width) (⟨[], 1⟩, line)).map fun s => s.1.text ++ ['\n']

/-- The line consists of the tokens, with blanks before each. A token is a word, a number, a string, an operator
and so on: it begins with no blank and no ampersand. -/
def Lexed : List Char → List (List Char) → Prop
  | s, [] => s = []
  | s, token :: tokens =>
    (∃ c, token.head? = some c ∧ isBlank c = false ∧ c ≠ '&') ∧ token <+: s.dropWhile isBlank ∧
      Lexed ((s.dropWhile isBlank).drop token.length) tokens

/-! ## The tokens of a line -/

section
variable {token s : List Char} {tokens : List (List Char)}

/-- The blanks before each token. -/
def gaps : List Char → List (List Char) → List (List Char)
  | _, [] => []
  | s, token :: tokens => s.takeWhile isBlank :: gaps ((s.dropWhile isBlank).drop token.length) tokens

/-- A token is found after the blanks before it. -/
theorem strstr_eq (htoken : ∃ c, token.head? = some c ∧ isBlank c = false ∧ c ≠ '&')
    (hs : token <+: s.dropWhile isBlank) : strstr token s = some (s.takeWhile isBlank).length := by
  obtain ⟨t, ht, hblank, -⟩ := htoken
  obtain ⟨ts, rfl⟩ := List.head?_eq_some_iff.1 ht
  induction s with
  | nil => exact absurd (List.prefix_nil.1 hs) (List.cons_ne_nil t ts)
  | cons c s ih =>
    cases hc : isBlank c with
    | true =>
      rw [List.dropWhile_cons_of_pos hc] at hs
      have hne : ¬ t :: ts <+: c :: s := fun h => by
        rw [List.cons_prefix_cons] at h
        rw [h.1, hc] at hblank
        cases hblank
      rw [strstr, if_neg hne, ih hs, List.takeWhile_cons_of_pos hc]
      rfl
    | false =>
      have hnot : ¬ isBlank c = true := by rw [hc]; exact Bool.false_ne_true
      rw [List.dropWhile_cons_of_neg hnot] at hs
      rw [strstr, if_pos hs, List.takeWhile_cons_of_neg hnot]
      rfl

end

/-! ## The pieces that are written -/

section
variable {mark s : List Char} {config : Configuration} {width : Nat} {o : Output} {ps : List (List Char)}
  {cur text token blanks : List Char} {c : Char}

/-- The mark with which a continuation line begins. -/
structure IsMark (mark : List Char) : Prop where
  head : ∃ c, mark.head? = some c ∧ isBlank c = false
  newline : '\n' ∉ mark

theorem IsMark.lead (h : IsMark mark) (s : List Char) : lead mark true (mark ++ s) = s := by
  obtain ⟨c, hc, hblank⟩ := h.head
  obtain ⟨cs, rfl⟩ := List.head?_eq_some_iff.1 hc
  have hdrop : (c :: cs ++ s).dropWhile isBlank = c :: cs ++ s :=
    List.dropWhile_cons_of_neg (by rw [hblank]; exact Bool.false_ne_true)
  have hleads : (c :: cs ++ s).dropPrefix? (c :: cs) = some s :=
    List.dropPrefix?_eq_some_iff.2 ⟨c :: cs, rfl, beq_self_eq_true _⟩
  rw [FreeForm.lead, if_pos rfl, hdrop, hleads, Option.getD_some]

/-- What has been written are the pieces `ps`, each with the end of its line, and `cur` in the current line. -/
structure Layout (o : Output) (ps : List (List Char)) (cur : List Char) : Prop where
  text : o.text = written ps ++ cur
  column : o.column = cur.length + 1
  newline : ∀ p ∈ ps ++ [cur], '\n' ∉ p

theorem layout_init : Layout ⟨[], 1⟩ [] [] := ⟨rfl, rfl, by simp⟩

theorem Layout.append (h : Layout o ps cur) (hs : '\n' ∉ s) :
    Layout ⟨o.text ++ s, o.column + s.length⟩ ps (cur ++ s) where
  text := by rw [h.text, List.append_assoc]
  column := by
    rw [h.column, List.length_append]
    exact Nat.add_right_comm _ _ _
  newline := by
    have hnewline := h.newline
    rw [List.forall_mem_append, List.forall_mem_singleton] at hnewline ⊢
    exact ⟨hnewline.1, by simp [hnewline.2, hs]⟩

theorem Layout.cut (h : Layout o ps cur) (hs : '\n' ∉ s) :
    Layout ⟨o.text ++ ['&', '\n'] ++ s, 1 + s.length⟩ (ps ++ [cur]) s where
  text := by
    rw [h.text, written_concat]
    simp only [List.append_assoc]
  column := Nat.add_comm 1 _
  newline := List.forall_mem_append.2 ⟨h.newline, List.forall_mem_singleton.2 hs⟩

/-- The pieces read back are `text`. -/
def Reads (mark : List Char) (ps : List (List Char)) (cur text : List Char) : Prop :=
  joined mark false (ps ++ [cur]) = text

/-- They are, whatever is appended. -/
def Solid (mark : List Char) (ps : List (List Char)) (cur text : List Char) : Prop :=
  ∀ s, Reads mark ps (cur ++ s) (text ++ s)

theorem Solid.reads (h : Solid mark ps cur text) : Reads mark ps cur text := by
  have := h []
  rwa [List.append_nil, List.append_nil] at this

theorem Solid.append (h : Solid mark ps cur text) (s : List Char) : Solid mark ps (cur ++ s) (text ++ s) := by
  intro t
  rw [List.append_assoc, List.append_assoc]
  exact h (s ++ t)

theorem solid_init : Solid mark [] [] [] := fun s => by
  rw [Reads, List.nil_append, List.nil_append, joined, joined, lead_false, List.append_nil]

/-- A piece that begins with the mark. -/
theorem Reads.cut (hmark : IsMark mark) (h : Reads mark ps cur text) : Solid mark (ps ++ [cur]) mark text := by
  intro s
  have hne : (!(ps ++ [cur]).isEmpty) = true := by simp
  rw [Reads, joined_concat, h, hne, Bool.or_true, hmark.lead]

/-- A piece that begins with blanks and does not go on with the mark. -/
theorem Reads.cut_blanks (h : Reads ['&'] ps cur text) (hs : ∀ c ∈ s.dropWhile isBlank |>.head?, c ≠ '&') :
    Reads ['&'] (ps ++ [cur]) s (text ++ s) := by
  have hne : (!(ps ++ [cur]).isEmpty) = true := by simp
  have hnone : (s.dropWhile isBlank).dropPrefix? ['&'] = none := by
    by_contra hsome
    obtain ⟨r, hr⟩ := Option.ne_none_iff_exists'.1 hsome
    obtain ⟨_, hs', heq⟩ := List.dropPrefix?_eq_some_iff.1 hr
    obtain rfl := eq_of_beq heq
    exact hs '&' (by rw [hs']; rfl) rfl
  rw [Reads, joined_concat, h, hne, Bool.or_true, lead, if_pos rfl, hnone, Option.getD_none]

/-! ## Lines that fit -/

/-- All lines fit, the current one with the end that it may get. -/
def Fits (width : Nat) (ps : List (List Char)) (cur : List Char) : Prop :=
  (∀ p ∈ ps, p.length < width) ∧ cur.length < width

/-- Some line does not. -/
def Exceeds (width : Nat) (ps : List (List Char)) (cur : List Char) : Prop :=
  (∃ p ∈ ps, width ≤ p.length) ∨ width < cur.length

theorem Exceeds.append (h : Exceeds width ps cur) (s : List Char) : Exceeds width ps (cur ++ s) :=
  h.imp_right fun hlt => by
    rw [List.length_append]
    omega

theorem Exceeds.cut (h : Exceeds width ps cur) (s : List Char) : Exceeds width (ps ++ [cur]) s := by
  rcases h with ⟨p, hp, hlt⟩ | hlt
  · exact .inl ⟨p, List.mem_append_left _ hp, hlt⟩
  · exact .inl ⟨cur, by simp, hlt.le⟩

theorem Fits.cut (h : Fits width ps cur) (hs : s.length < width) : Fits width (ps ++ [cur]) s :=
  ⟨List.forall_mem_append.2 ⟨h.1, List.forall_mem_singleton.2 h.2⟩, hs⟩

/-! ## Writing characters -/

/-- One character: either in the current line, or, where that is full, in a new one that begins with the mark. -/
theorem continuateChar_cases (width : Nat) (hlayout : Layout o ps cur) (hmark : IsMark mark) (hc : c ≠ '\n') :
    ∃ ps' cur', Layout (continuateChar mark width o c) ps' (cur' ++ [c]) ∧
      (ps' = ps ∧ cur' = cur ∧ cur.length + 1 ≠ width ∨
        ps' = ps ++ [cur] ∧ cur' = mark ∧ cur.length + 1 = width) := by
  have hcs : '\n' ∉ [c] := by simpa using hc.symm
  unfold continuateChar
  by_cases hwidth : o.column = width
  · rw [if_pos ⟨hwidth, hc⟩]
    exact ⟨_, _, (hlayout.cut hmark.newline).append hcs, .inr ⟨rfl, rfl, hlayout.column ▸ hwidth⟩⟩
  · rw [if_neg fun h => hwidth h.1]
    exact ⟨_, _, hlayout.append hcs, .inl ⟨rfl, rfl, hlayout.column ▸ hwidth⟩⟩

theorem continuateChar_fits {ps' : List (List Char)} {cur' : List Char} (hwidth : mark.length + 1 < width)
    (h : ps' = ps ∧ cur' = cur ∧ cur.length + 1 ≠ width ∨ ps' = ps ++ [cur] ∧ cur' = mark ∧ cur.length + 1 = width)
    (hfits : Fits width ps cur) : Fits width ps' (cur' ++ [c]) := by
  have hlt := hfits.2
  rcases h with ⟨rfl, rfl, hne⟩ | ⟨rfl, rfl, heq⟩
  · refine ⟨hfits.1, ?_⟩
    rw [List.length_append, List.length_singleton]
    omega
  · have hmark := (hfits.cut (s := cur') (by omega)).1
    refine ⟨hmark, ?_⟩
    rwa [List.length_append, List.length_singleton]

theorem continuateChar_exceeds {ps' : List (List Char)} {cur' : List Char}
    (h : ps' = ps ∧ cur' = cur ∧ cur.length + 1 ≠ width ∨ ps' = ps ++ [cur] ∧ cur' = mark ∧ cur.length + 1 = width)
    (hexceeds : Exceeds width ps cur) : Exceeds width ps' (cur' ++ [c]) := by
  rcases h with ⟨rfl, rfl, -⟩ | ⟨rfl, rfl, -⟩
  · exact hexceeds.append _
  · exact (hexceeds.cut cur').append _

/-- A text that continues a solid piece. -/
theorem continuate_layout (width : Nat) (hmark : IsMark mark) (hs : '\n' ∉ s) (hlayout : Layout o ps cur)
    (hsolid : Solid mark ps cur text) :
    ∃ ps' cur', Layout (continuate mark width s o) ps' cur' ∧ Solid mark ps' cur' (text ++ s) ∧
      (mark.length + 1 < width → Fits width ps cur → Fits width ps' cur') ∧
      (Exceeds width ps cur → Exceeds width ps' cur') := by
  induction s generalizing o ps cur text with
  | nil => exact ⟨ps, cur, hlayout, by rwa [List.append_nil], fun _ => id, id⟩
  | cons c s ih =>
    rw [List.mem_cons, not_or] at hs
    obtain ⟨ps₁, cur₁, hlayout₁, hcases⟩ := continuateChar_cases width hlayout hmark (Ne.symm hs.1)
    have hsolid₁ : Solid mark ps₁ (cur₁ ++ [c]) (text ++ [c]) := by
      rcases hcases with ⟨rfl, rfl, -⟩ | ⟨rfl, rfl, -⟩
      · exact hsolid.append [c]
      · exact (hsolid.reads.cut hmark).append [c]
    obtain ⟨ps', cur', hlayout', hsolid', hfits, hexceeds⟩ := ih hs.2 hlayout₁ hsolid₁
    rw [List.append_assoc, List.singleton_append] at hsolid'
    exact ⟨ps', cur', hlayout', hsolid', fun hwidth h => hfits hwidth (continuateChar_fits hwidth hcases h),
      fun h => hexceeds (continuateChar_exceeds hcases h)⟩

/-! ## Directives -/

theorem isMark_ampersand : IsMark ['&'] := ⟨⟨'&', rfl, rfl⟩, by decide⟩

theorem isMark_prefixStart (hpre : '\n' ∉ pre) (hlength : pre.length ≤ 32) : IsMark (prefixStart pre) := by
  have htake : prefixStart pre = ['!', '$'] ++ pre ++ ['&'] := by
    refine List.take_of_length_le ?_
    simp only [List.length_append, List.length_cons, List.length_nil]
    omega
  rw [htake]
  exact ⟨⟨'!', rfl, rfl⟩, by simp [hpre]⟩

theorem length_prefixStart (hlength : pre.length ≤ 32) : (prefixStart pre).length ≤ 35 := by
  have htake := List.length_take_le' 62 (['!', '$'] ++ pre ++ ['&'])
  simp only [List.length_append, List.length_cons, List.length_nil] at htake
  unfold prefixStart
  omega

theorem map_toLower_newline {p q : List Char} (h : p.map Char.toLower = q.map Char.toLower) (hq : '\n' ∉ q) :
    '\n' ∉ p := by
  intro hp
  have hmem : '\n' ∈ p.map Char.toLower := List.mem_map.2 ⟨'\n', hp, rfl⟩
  rw [h] at hmem
  obtain ⟨c, hc, hlower⟩ := List.mem_map.1 hmem
  exact hq (eq_of_toLower_eq (by decide) hlower ▸ hc)

theorem checkForConstruct_eq_some {line pre : List Char} (h : checkForConstruct config line 32 = some pre) :
    pre.length ≤ 32 ∧ '\n' ∉ pre := by
  unfold checkForConstruct at h
  split at h
  · dsimp only at h
    split at h
    · cases h
    · next hlength =>
      split at h
      · next hany =>
        obtain rfl := Option.some.inj h
        obtain ⟨q, hq, heq⟩ := List.any_eq_true.1 hany
        exact ⟨Nat.not_lt.1 hlength, map_toLower_newline (eq_of_beq heq) (config.newline_notMem q hq)⟩
      · cases h
  · cases h

/-! ## Tokens -/

/-- A piece that reads as it should, and goes on to do so with the character that comes next. -/
structure Ready (ps : List (List Char)) (cur text : List Char) (c : Char) : Prop where
  reads : Reads ['&'] ps cur text
  append : ∀ s, Reads ['&'] ps (cur ++ c :: s) (text ++ c :: s)

theorem Solid.ready (h : Solid ['&'] ps cur text) (c : Char) : Ready ps cur text c :=
  ⟨h.reads, fun s => h (c :: s)⟩

theorem dropWhile_blanks (hblanks : ∀ c ∈ blanks, isBlank c = true) (hc : isBlank c = false) (s : List Char) :
    (blanks ++ c :: s).dropWhile isBlank = c :: s := by
  rw [List.dropWhile_append_of_pos hblanks]
  exact List.dropWhile_cons_of_neg (by rw [hc]; exact Bool.false_ne_true)

/-- Blanks at the beginning of a line, with a token after them. -/
theorem Reads.ready_blanks (h : Reads ['&'] ps cur text) (hblanks : ∀ c ∈ blanks, isBlank c = true)
    (hc : isBlank c = false) (hne : c ≠ '&') : Ready (ps ++ [cur]) blanks (text ++ blanks) c where
  reads := h.cut_blanks (by rw [List.dropWhile_eq_nil_iff.2 hblanks]; exact fun _ hx => nomatch hx)
  append s := by
    rw [List.append_assoc]
    refine h.cut_blanks fun x hx => ?_
    rw [dropWhile_blanks hblanks hc] at hx
    obtain rfl := Option.some.inj hx
    exact hne

/-- A token cut wherever the last column is reached. -/
theorem continuate_token (width : Nat) (hs : '\n' ∉ c :: s) (hlayout : Layout o ps cur)
    (hready : Ready ps cur text c) :
    ∃ ps' cur', Layout (doubleContinuate (c :: s) width o) ps' cur' ∧ Solid ['&'] ps' cur' (text ++ c :: s) ∧
      (2 < width → Fits width ps cur → Fits width ps' cur') ∧
      (width ≤ cur.length ∨ Exceeds width ps cur → Exceeds width ps' cur') := by
  rw [List.mem_cons, not_or] at hs
  obtain ⟨ps₁, cur₁, hlayout₁, hcases⟩ :=
    continuateChar_cases width hlayout isMark_ampersand (Ne.symm hs.1)
  have hsolid₁ : Solid ['&'] ps₁ (cur₁ ++ [c]) (text ++ [c]) := by
    rcases hcases with ⟨rfl, rfl, -⟩ | ⟨rfl, rfl, -⟩
    · intro t
      rw [List.append_assoc, List.append_assoc]
      exact hready.append t
    · exact (hready.reads.cut isMark_ampersand).append [c]
  obtain ⟨ps', cur', hlayout', hsolid', hfits, hexceeds⟩ :=
    continuate_layout width isMark_ampersand hs.2 hlayout₁ hsolid₁
  rw [List.append_assoc, List.singleton_append] at hsolid'
  have hfits₁ : ['&'].length + 1 < width → Fits width ps cur → Fits width ps₁ (cur₁ ++ [c]) :=
    fun hwidth h => continuateChar_fits hwidth hcases h
  refine ⟨ps', cur', hlayout', hsolid', fun hwidth h => hfits hwidth (hfits₁ hwidth h), fun h => hexceeds ?_⟩
  rcases h with hlong | h
  · -- The last column has been passed, so that the token is not cut.
    rcases hcases with ⟨rfl, rfl, -⟩ | ⟨-, -, heq⟩
    · refine .inr ?_
      rw [List.length_append, List.length_singleton]
      omega
    · omega
  · exact continuateChar_exceeds hcases h

/-- One round of the loop over the tokens. -/
theorem writeToken_layout (width : Nat) (hlayout : Layout o ps cur) (hsolid : Solid ['&'] ps cur text)
    (hs : '\n' ∉ token) (htoken : ∃ c, token.head? = some c ∧ isBlank c = false ∧ c ≠ '&')
    (hleads : token <+: s.dropWhile isBlank) :
    ∃ o' ps' cur', writeToken width (o, s) token = some (o', (s.dropWhile isBlank).drop token.length) ∧
      Layout o' ps' cur' ∧ Solid ['&'] ps' cur' (text ++ (s.takeWhile isBlank ++ token)) ∧
      (2 < width → Fits width ps cur → (s.takeWhile isBlank).length < width → Fits width ps' cur') ∧
      (width ≤ (s.takeWhile isBlank).length ∨ Exceeds width ps cur → Exceeds width ps' cur') := by
  obtain ⟨blanks, rest, hblanks, hrest, hsplit⟩ : ∃ blanks rest, s.takeWhile isBlank = blanks ∧
      s.dropWhile isBlank = rest ∧ s = blanks ++ rest := ⟨_, _, rfl, rfl, List.takeWhile_append_dropWhile.symm⟩
  have hblank : ∀ c ∈ blanks, isBlank c = true := fun c hc => List.mem_takeWhile_imp (hblanks ▸ hc)
  have hfound := strstr_eq htoken hleads
  rw [hrest] at hleads ⊢
  rw [hblanks] at hfound ⊢
  obtain ⟨c, hhead, hc, hne⟩ := htoken
  obtain ⟨cs, rfl⟩ := List.head?_eq_some_iff.1 hhead
  have htake : s.take blanks.length = blanks := by rw [hsplit, List.take_left]
  have hdrop : s.drop (blanks.length + (c :: cs).length) = rest.drop (c :: cs).length := by
    rw [← List.drop_drop, hsplit, List.drop_left]
  have hnewline : '\n' ∉ blanks := fun h => nomatch hblank _ h
  simp only [writeToken, hfound, Option.map_some, htake, hdrop]
  -- The line may end before the blanks, which then begin the next one.
  obtain ⟨o₁, ho₁⟩ : ∃ o₁, (if o.column = width ∨ width ≤ o.column + blanks.length + (c :: cs).length then
      Output.mk (o.text ++ ['&', '\n']) 1 else o) = o₁ := ⟨_, rfl⟩
  obtain ⟨ps₁, cur₁, hlayout₁, hready, hfits₁, hexceeds₁⟩ : ∃ ps₁ cur₁, Layout o₁ ps₁ cur₁ ∧
      Ready ps₁ (cur₁ ++ blanks) (text ++ blanks) c ∧
      (Fits width ps cur → blanks.length < width → Fits width ps₁ (cur₁ ++ blanks)) ∧
      (width ≤ blanks.length ∨ Exceeds width ps cur →
        width ≤ (cur₁ ++ blanks).length ∨ Exceeds width ps₁ (cur₁ ++ blanks)) := by
    split at ho₁
    · subst ho₁
      have hcut := hlayout.cut (s := []) List.not_mem_nil
      rw [List.append_nil] at hcut
      exact ⟨_, [], hcut, hsolid.reads.ready_blanks hblank hc hne, fun hfits hlt => hfits.cut hlt,
        fun h => h.imp id fun hexceeds => hexceeds.cut blanks⟩
    · next hcond =>
      subst ho₁
      rw [not_or, hlayout.column] at hcond
      refine ⟨ps, cur, hlayout, (hsolid.append blanks).ready c, fun hfits _ => ⟨hfits.1, ?_⟩, ?_⟩
      · rw [List.length_append]
        omega
      · rintro (hlong | hexceeds)
        · omega
        · exact .inr (hexceeds.append blanks)
  rw [ho₁]
  have hlayout₂ := hlayout₁.append hnewline
  rw [← List.append_assoc]
  split
  · obtain ⟨ps', cur', hlayout', hsolid', hfits, hexceeds⟩ :=
      continuate_token width hs hlayout₂ hready
    exact ⟨_, ps', cur', rfl, hlayout', hsolid', fun hwidth h hlt => hfits hwidth (hfits₁ h hlt),
      fun h => hexceeds (hexceeds₁ h)⟩
  · next hcond =>
    have hcolumn : o₁.column + blanks.length = (cur₁ ++ blanks).length + 1 := hlayout₂.column
    rw [hcolumn] at hcond
    refine ⟨_, ps₁, _, rfl, hlayout₂.append hs, ?_, fun hwidth h hlt => ⟨(hfits₁ h hlt).1, ?_⟩, fun h => ?_⟩
    · intro t
      rw [List.append_assoc, List.append_assoc _ _ t]
      exact hready.append (cs ++ t)
    · rw [List.length_append]
      omega
    · rcases hexceeds₁ h with hlong | hexceeds
      · omega
      · exact hexceeds.append _

/-- The loop over the tokens; `tail` is the newline that they do not have. -/
theorem writeTokens_layout (width : Nat) {tokens : List (List Char)} (tail : List Char) (hlayout : Layout o ps cur)
    (hsolid : Solid ['&'] ps cur text) (hs : '\n' ∉ s) (hlexed : Lexed s tokens) :
    ∃ o' ps' cur', tokens.foldlM (writeToken width) (o, s ++ tail) = some (o', tail) ∧ Layout o' ps' cur' ∧
      Solid ['&'] ps' cur' (text ++ s) ∧
      (2 < width → Fits width ps cur → (∀ g ∈ gaps s tokens, g.length < width) → Fits width ps' cur') ∧
      ((∃ g ∈ gaps s tokens, width ≤ g.length) ∨ Exceeds width ps cur → Exceeds width ps' cur') := by
  induction tokens generalizing s o ps cur text with
  | nil =>
    obtain rfl : s = [] := hlexed
    refine ⟨o, ps, cur, rfl, hlayout, by rwa [List.append_nil], fun _ h _ => h, fun h => h.resolve_left ?_⟩
    rintro ⟨_, hg, -⟩
    cases hg
  | cons token tokens ih =>
    obtain ⟨htoken, hleads, hlexed⟩ := hlexed
    have hne : s.dropWhile isBlank ≠ [] := by
      intro hnil
      obtain ⟨c, hc, -⟩ := htoken
      rw [hnil] at hleads
      rw [List.prefix_nil.1 hleads] at hc
      cases hc
    have hdropWhile : (s ++ tail).dropWhile isBlank = s.dropWhile isBlank ++ tail := by
      rw [List.dropWhile_append, if_neg (by rwa [List.isEmpty_iff])]
    have htakeWhile : (s ++ tail).takeWhile isBlank = s.takeWhile isBlank := by
      have happend := List.takeWhile_append_dropWhile (p := isBlank) (l := s ++ tail)
      rw [hdropWhile, ← List.append_assoc] at happend
      have hsplit := List.append_cancel_right happend
      exact List.append_cancel_right (hsplit.trans List.takeWhile_append_dropWhile.symm)
    have hmem : ∀ c ∈ s.dropWhile isBlank, c ∈ s := fun c hc => (List.dropWhile_suffix _).subset hc
    obtain ⟨o₁, ps₁, cur₁, hwrite, hlayout₁, hsolid₁, hfits₁, hexceeds₁⟩ :=
      writeToken_layout width (s := s ++ tail) hlayout hsolid (fun h => hs (hmem _ (hleads.subset h)))
        htoken (hdropWhile ▸ hleads.trans (List.prefix_append _ _))
    rw [htakeWhile] at hsolid₁ hfits₁ hexceeds₁
    rw [hdropWhile, List.drop_append_of_le_length hleads.length_le] at hwrite
    obtain ⟨o', ps', cur', hfold, hlayout', hsolid', hfits', hexceeds'⟩ :=
      ih hlayout₁ hsolid₁ (fun h => hs (hmem _ (List.mem_of_mem_drop h))) hlexed
    have htext : text ++ (s.takeWhile isBlank ++ token) ++ (s.dropWhile isBlank).drop token.length = text ++ s := by
      obtain ⟨rest, hrest⟩ := hleads
      rw [← hrest, List.drop_left, List.append_assoc, List.append_assoc, hrest, List.takeWhile_append_dropWhile]
    rw [htext] at hsolid'
    refine ⟨o', ps', cur', ?_, hlayout', hsolid', fun hwidth h hgaps => ?_, fun h => hexceeds' ?_⟩
    · rw [List.foldlM_cons, hwrite]
      exact hfold
    · rw [gaps, List.forall_mem_cons] at hgaps
      exact hfits' hwidth (hfits₁ hwidth h hgaps.1) hgaps.2
    · rcases h with ⟨g, hg, hlong⟩ | hexceeds
      · rcases List.mem_cons.1 hg with rfl | hg
        · exact .inr (hexceeds₁ (.inl hlong))
        · exact .inl ⟨g, hg, hlong⟩
      · exact .inr (hexceeds₁ (.inr hexceeds))

end

/-! ## Lines -/

section
variable {config : Configuration} {lex : List Char → List (List Char)} {width : Nat} {t content : List Char}

/-- A line as it is read; the last one of a file may lack its newline. -/
def ended (content : List Char) (newline : Bool) : List Char := content ++ (if newline then ['\n'] else [])

theorem trimRightLine_ended (hcontent : '\n' ∉ content) (newline : Bool) :
    trimRightLine (ended content newline) = ended (content.rdropWhile (· == ' ')) newline := by
  cases newline with
  | true =>
    unfold trimRightLine ended
    simp only [if_true, List.getLast?_concat, List.dropLast_concat]
  | false =>
    have hlast : content.getLast? ≠ some '\n' := fun h => hcontent (List.mem_of_getLast? h)
    unfold trimRightLine ended
    simp only [Bool.false_eq_true, if_false, List.append_nil, if_neg hlast]

/-- The mark with which the lines that continue a line begin. -/
def markOf (config : Configuration) (line : List Char) : List Char :=
  (checkForConstruct config line 32).elim ['&'] prefixStart

theorem textLines_ended_of_ne_nil (ht : '\n' ∉ t) (hne : t ≠ []) (newline : Bool) :
    textLines (ended t newline) = [t] := by
  cases newline with
  | true => exact textLines_concat_newline ht
  | false =>
    rw [ended, if_neg Bool.false_ne_true, List.append_nil]
    exact textLines_of_newline_notMem ht hne

theorem textLines_ended (ht : '\n' ∉ t) (newline : Bool) :
    textLines (ended t newline) = [t] ∨ textLines (ended t newline) = [] := by
  by_cases hne : t = []
  · subst hne
    cases newline
    · exact .inr rfl
    · exact .inl (textLines_concat_newline ht)
  · exact .inl (textLines_ended_of_ne_nil ht hne newline)

/-- A line that is written as it is. -/
theorem undo_ended (mark : List Char) (ht : '\n' ∉ t) (newline : Bool) :
    undo mark false (textLines (ended t newline)) = textLines (ended t newline) := by
  rcases textLines_ended ht newline with h | h <;> rw [h] <;> rfl

/-- What is written for a directive that is cut. -/
theorem construct_layout (width : Nat) {pre : List Char}
    (hpre : checkForConstruct config (ended t newline) 32 = some pre) (ht : '\n' ∉ t) :
    ∃ ps cur, Layout (doubleContinuateConstruct pre t width ⟨[], 1⟩) ps cur ∧
      Solid (prefixStart pre) ps cur t ∧ (64 < width → Fits width ps cur) ∧
      (doubleContinuateConstruct pre (ended t newline) width ⟨[], 1⟩).text =
        written ps ++ (cur ++ if newline then ['\n'] else []) := by
  obtain ⟨hlength, hnewline⟩ := checkForConstruct_eq_some hpre
  obtain ⟨ps, cur, hlayout, hsolid, hfits, -⟩ :=
    continuate_layout width (isMark_prefixStart hnewline hlength) ht layout_init solid_init
  refine ⟨ps, cur, hlayout, hsolid, fun hwidth => hfits ?_ ⟨List.forall_mem_nil _, ?_⟩, ?_⟩
  · have := length_prefixStart hlength
    omega
  · rw [List.length_nil]
    omega
  · cases newline with
    | false =>
      rw [ended, if_neg Bool.false_ne_true, List.append_nil, List.append_nil]
      exact hlayout.text
    | true =>
      have hstep : doubleContinuateConstruct pre (ended t true) width ⟨[], 1⟩ =
          continuateChar (prefixStart pre) width (doubleContinuateConstruct pre t width ⟨[], 1⟩) '\n' :=
        List.foldl_concat _ _ _ _
      have htext : (continuate (prefixStart pre) width t ⟨[], 1⟩).text = written ps ++ cur := hlayout.text
      rw [hstep, continuateChar, if_neg fun h => h.2 rfl, if_pos rfl, ← List.append_assoc, ← htext]
      rfl

theorem undo_written {mark : List Char} {ps : List (List Char)} {cur : List Char}
    (hps : ∀ p ∈ ps ++ [cur], '\n' ∉ p) (hreads : Reads mark ps cur t) :
    undo mark false (textLines (written ps ++ (cur ++ ['\n']))) = [t] := by
  rw [List.forall_mem_append, List.forall_mem_singleton] at hps
  rw [textLines_written hps.1, textLines_concat_newline hps.2, undo_map_concat, hreads]

/-- An ampersand at the end of a line changes what is read of it. -/
theorem length_lead_ne {mark p : List Char} (hmark : 1 < mark.length) (b : Bool) :
    (lead mark b p).length ≠ (lead mark b (p ++ ['&'])).length := by
  cases b with
  | false => simp
  | true =>
    have hnone : ∀ {u : List Char}, ¬ mark <+: u → u.dropPrefix? mark = none := by
      intro u hu
      by_contra hsome
      obtain ⟨r, hr⟩ := Option.ne_none_iff_exists'.1 hsome
      obtain ⟨_, hs, heq⟩ := List.dropPrefix?_eq_some_iff.1 hr
      exact hu (eq_of_beq heq ▸ ⟨r, hs.symm⟩)
    have hsome : ∀ r, (mark ++ r).dropPrefix? mark = some r := fun r =>
      List.dropPrefix?_eq_some_iff.2 ⟨mark, rfl, beq_self_eq_true _⟩
    have hle : (p.dropWhile isBlank).length ≤ p.length := (List.dropWhile_sublist _).length_le
    unfold lead
    rw [if_pos rfl, if_pos rfl]
    have hdrop : (p ++ ['&']).dropWhile isBlank = p.dropWhile isBlank ++ ['&'] := by
      rw [List.dropWhile_append]
      split
      · next hnil =>
        rw [List.isEmpty_iff.1 hnil]
        rfl
      · rfl
    rw [hdrop]
    by_cases hleads : mark <+: p.dropWhile isBlank
    · obtain ⟨r, hr⟩ := hleads
      rw [← hr, hsome, List.append_assoc, hsome]
      simp
    · rw [hnone hleads, Option.getD_none]
      by_cases hlast : mark = p.dropWhile isBlank ++ ['&']
      · have hnil := hsome []
        rw [List.append_nil] at hnil
        rw [← hlast, hnil, Option.getD_some, List.length_nil]
        rw [hlast, List.length_append, List.length_singleton] at hmark
        omega
      · rw [hnone fun h => (List.prefix_concat_iff.1 h).elim hlast hleads, Option.getD_none]
        simp

/-- An empty line is left over. -/
theorem undo_written_ne {mark : List Char} {ps : List (List Char)} {cur : List Char}
    (hps : ∀ p ∈ ps ++ [cur], '\n' ∉ p) (hmark : 1 < mark.length) (hreads : Reads mark ps cur t) :
    undo mark false (textLines (written ps ++ (cur ++ ['\n', '\n']))) ≠ [t] := by
  rw [List.forall_mem_append, List.forall_mem_singleton] at hps
  rw [textLines_written hps.1, textLines_append hps.2]
  change undo mark false (ps.map (· ++ ['&']) ++ [cur, []]) ≠ [t]
  by_cases hlast : cur.getLast? = some '&'
  · obtain ⟨p, rfl⟩ := List.getLast?_eq_some_iff.1 hlast
    have hlines : ps.map (· ++ ['&']) ++ [p ++ ['&'], []] = (ps ++ [p]).map (· ++ ['&']) ++ [[]] := by simp
    have hnil : lead mark true [] = [] := by
      unfold lead
      cases mark <;> rfl
    have hne : (!(ps ++ [p]).isEmpty) = true := by simp
    rw [hlines, undo_map_concat, joined_concat, hne, Bool.or_true, hnil, List.append_nil, joined_concat, ← hreads]
    intro h
    have hlength := congrArg List.length (List.singleton_inj.1 h)
    rw [joined_concat, List.length_append, List.length_append, Nat.add_left_cancel_iff] at hlength
    exact length_lead_ne hmark _ hlength
  · rw [undo_map_append _ _ hlast]
    exact fun h => nomatch h

/-- What is written for the line `t`, which has no blanks at its end. -/
inductive Written (config : Configuration) (width : Nat) (t : List Char) (newline : Bool) (tokens : List (List Char)) :
    List Char → Prop
  | whole : (ended t newline).length ≤ width ∨
      checkForConstruct config (ended t newline) 32 = none ∧ checkForComment (ended t newline) = true →
      Written config width t newline tokens (ended t newline)
  | construct {pre ps cur o} : width < (ended t newline).length →
      checkForConstruct config (ended t newline) 32 = some pre → Layout o ps cur →
      Reads (prefixStart pre) ps cur t → (64 < width → Fits width ps cur) →
      Written config width t newline tokens (written ps ++ (cur ++ (if newline then ['\n'] else []) ++ ['\n']))
  | tokens {ps cur o} : width < (ended t newline).length →
      checkForConstruct config (ended t newline) 32 = none → Layout o ps cur → Reads ['&'] ps cur t →
      (2 < width → (∀ g ∈ gaps t tokens, g.length < width) → Fits width ps cur) →
      ((∃ g ∈ gaps t tokens, width ≤ g.length) → Exceeds width ps cur) →
      Written config width t newline tokens (written ps ++ (cur ++ ['\n']))

theorem exists_written (width : Nat) (hcontent : '\n' ∉ content) (newline : Bool)
    (ht : content.rdropWhile (· == ' ') = t)
    (hlexed : checkForConstruct config (ended t newline) 32 = none → checkForComment (ended t newline) = false →
      Lexed t (lex (ended t newline))) :
    ∃ out, fortranSplitLine config lex width (ended content newline) = some out ∧
      Written config width t newline (lex (ended t newline)) out := by
  have hnewline : '\n' ∉ t := fun h => hcontent ((List.rdropWhile_prefix _ _).subset (ht ▸ h))
  unfold fortranSplitLine
  rw [trimRightLine_ended hcontent, ht]
  dsimp only
  split
  · next hle => exact ⟨_, rfl, .whole (.inl hle)⟩
  · next hlong =>
    rw [Nat.not_le] at hlong
    split
    · next pre hpre =>
      obtain ⟨ps, cur, hlayout, hsolid, hfits, htext⟩ := construct_layout width hpre hnewline
      refine ⟨_, rfl, ?_⟩
      rw [htext, List.append_assoc]
      exact .construct hlong hpre hlayout hsolid.reads hfits
    · next hnone =>
      split
      · next hcomment => exact ⟨_, rfl, .whole (.inr ⟨hnone, hcomment⟩)⟩
      · next hcomment =>
        obtain ⟨o, ps, cur, hfold, hlayout, hsolid, hfits, hexceeds⟩ :=
          writeTokens_layout width (if newline then ['\n'] else []) layout_init solid_init
            hnewline (hlexed hnone (Bool.eq_false_iff.2 hcomment))
        refine ⟨o.text ++ ['\n'], ?_, ?_⟩
        · change Option.map _ (List.foldlM (writeToken width) (⟨[], 1⟩, t ++ _) _) = _
          rw [ended] at hfold ⊢
          rw [hfold, Option.map_some]
        · rw [hlayout.text, List.append_assoc]
          refine .tokens hlong hnone hlayout hsolid.reads (fun hwidth hgaps => hfits hwidth ?_ hgaps)
            fun hgap => hexceeds (.inl hgap)
          exact ⟨List.forall_mem_nil _, Nat.lt_of_le_of_lt (Nat.zero_le 2) hwidth⟩

/-- Read back, what is written for a line is the line without the blanks at its end, but for a directive that is
cut and has its newline, after which an empty line is written. -/
theorem fortranSplitLine_undo_iff (config : Configuration) (lex : List Char → List (List Char)) (width : Nat)
    (content : List Char) (hcontent : '\n' ∉ content) (newline : Bool) :
    let t := content.rdropWhile (· == ' ')
    let line := ended t newline
    (checkForConstruct config line 32 = none → checkForComment line = false → Lexed t (lex line)) →
      ∃ out, fortranSplitLine config lex width (ended content newline) = some out ∧
        (undo (markOf config line) false (textLines out) = textLines line ↔
          ¬ ((checkForConstruct config line 32).isSome ∧ newline = true ∧ width < line.length)) := by
  intro t line hlexed
  have hnewline : '\n' ∉ t := fun h => hcontent ((List.rdropWhile_prefix _ _).subset h)
  obtain ⟨out, hout, hwritten⟩ := exists_written width hcontent newline rfl hlexed
  refine ⟨out, hout, ?_⟩
  have hlines : width < line.length → textLines line = [t] := by
    intro hlong
    refine (textLines_ended hnewline newline).resolve_right fun hnil => ?_
    rw [textLines, List.map_eq_nil_iff, lines_eq_nil_iff] at hnil
    change width < (ended t newline).length at hlong
    rw [hnil] at hlong
    exact absurd hlong (Nat.not_lt_zero _)
  cases hwritten with
  | whole h =>
    refine iff_of_true (undo_ended _ hnewline newline) fun hcut => ?_
    rcases h with hle | ⟨hnone, -⟩
    · exact absurd hcut.2.2 (Nat.not_lt.2 hle)
    · rw [show checkForConstruct config line 32 = none from hnone] at hcut
      exact absurd hcut.1 (by simp)
  | @construct pre ps cur o hlong hpre hlayout hreads _ =>
    have hmark : markOf config line = prefixStart pre := by
      rw [markOf, show checkForConstruct config line 32 = some pre from hpre]
      rfl
    have hlength : 1 < (prefixStart pre).length := by
      unfold prefixStart
      rw [List.length_take]
      simp only [List.length_append, List.length_cons, List.length_nil]
      omega
    rw [hlines hlong, hmark]
    cases newline with
    | true =>
      refine iff_of_false ?_ fun h => h ⟨by rw [hpre]; rfl, rfl, hlong⟩
      rw [if_pos rfl, List.append_assoc]
      exact undo_written_ne hlayout.newline hlength hreads
    | false =>
      refine iff_of_true ?_ fun h => Bool.false_ne_true h.2.1
      rw [if_neg Bool.false_ne_true, List.append_nil]
      exact undo_written hlayout.newline hreads
  | @tokens ps cur o hlong hnone hlayout hreads _ _ =>
    have hmark : markOf config line = ['&'] := by
      rw [markOf, show checkForConstruct config line 32 = none from hnone]
      rfl
    rw [hlines hlong, hmark]
    refine iff_of_true (undo_written hlayout.newline hreads) fun h => ?_
    rw [show checkForConstruct config line 32 = none from hnone] at h
    exact absurd h.1 (by simp)

/-- The directives of the examples. -/
def ompOnly : Configuration := ⟨["omp".toList], by decide⟩

/-- A line of two tokens that is cut between them. -/
theorem fortranSplitLine_undo_tokens :
    ∃ out, fortranSplitLine ompOnly (fun _ => ["alpha".toList, "+".toList]) 6 "alpha +\n".toList = some out ∧
      undo ['&'] false (textLines out) = ["alpha +".toList] := by
  obtain ⟨out, hout, hundo⟩ := fortranSplitLine_undo_iff ompOnly (fun _ => ["alpha".toList, "+".toList]) 6
    "alpha +".toList (by decide) true fun _ _ =>
      ⟨⟨'a', by decide, rfl, by decide⟩, by decide, ⟨'+', by decide, rfl, by decide⟩,
        by decide, by unfold Lexed; decide⟩
  refine ⟨out, ?_, ?_⟩
  · rw [← hout]
    decide
  · have hlines := hundo.2 (by decide)
    have hmark : markOf ompOnly (ended ("alpha +".toList.rdropWhile (· == ' ')) true) = ['&'] := by decide
    rw [hmark] at hlines
    rw [hlines]
    decide

/-- A directive that is cut twice, with an empty line after it. -/
theorem fortranSplitLine_undo_construct :
    let lex := fun _ => ["!$omp".toList, "parallel".toList]
    let line := "!$omp parallel\n".toList
    Lexed "!$omp parallel".toList (lex line) ∧
      fortranSplitLine ompOnly lex 10 line = some "!$omp par&\n!$omp&all&\n!$omp&el\n\n".toList ∧
      ¬ ∀ out, fortranSplitLine ompOnly lex 10 line = some out →
        undo (markOf ompOnly line) false (textLines out) = ["!$omp parallel".toList] := by
  intro lex line
  have hout : fortranSplitLine ompOnly lex 10 line =
      some "!$omp par&\n!$omp&all&\n!$omp&el\n\n".toList := by decide
  refine ⟨?_, hout, fun h => absurd (h _ hout) (by decide)⟩
  exact ⟨⟨'!', by decide, rfl, by decide⟩, by decide, ⟨'p', by decide, rfl, by decide⟩,
    by decide, by unfold Lexed; decide⟩

theorem Fits.length_le {ps : List (List Char)} {cur : List Char} (h : Fits width ps cur) :
    (∀ l ∈ ps.map (· ++ ['&']), l.length ≤ width) ∧ cur.length ≤ width := by
  refine ⟨List.forall_mem_map.2 fun p hp => ?_, Nat.le_of_lt h.2⟩
  rw [List.length_append]
  exact h.1 p hp

theorem Exceeds.exists_length {ps : List (List Char)} {cur : List Char} (h : Exceeds width ps cur) :
    ∃ l ∈ ps.map (· ++ ['&']) ++ [cur], width < l.length := by
  rcases h with ⟨p, hp, hle⟩ | hlt
  · refine ⟨p ++ ['&'], List.mem_append_left _ (List.mem_map_of_mem hp), ?_⟩
    rw [List.length_append]
    exact Nat.lt_succ_of_le hle
  · exact ⟨cur, by simp, hlt⟩

/-- All lines that are written for a line fit, unless it is cut between tokens and has a run of blanks as long as a
line before one of them. -/
theorem fortranSplitLine_width_iff (config : Configuration) (lex : List Char → List (List Char)) (width : Nat)
    (hwidth : 64 < width) (content : List Char) (hcontent : '\n' ∉ content) (newline : Bool) :
    let t := content.rdropWhile (· == ' ')
    let line := ended t newline
    (checkForConstruct config line 32 = none → checkForComment line = false ∧ Lexed t (lex line)) →
      ∃ out, fortranSplitLine config lex width (ended content newline) = some out ∧
        ((∀ l ∈ textLines out, l.length ≤ width) ↔
          line.length ≤ width ∨ (checkForConstruct config line 32).isSome ∨
            ∀ g ∈ gaps t (lex line), g.length < width) := by
  intro t line hlexed
  have hnewline : '\n' ∉ t := fun h => hcontent ((List.rdropWhile_prefix _ _).subset h)
  obtain ⟨out, hout, hwritten⟩ := exists_written width hcontent newline rfl fun hnone _ => (hlexed hnone).2
  refine ⟨out, hout, ?_⟩
  cases hwritten with
  | whole h =>
    rcases h with hle | ⟨hnone, hcomment⟩
    · refine iff_of_true (fun l hl => ?_) (.inl hle)
      rcases textLines_ended hnewline newline with h | h <;> rw [h] at hl
      · obtain rfl := List.mem_singleton.1 hl
        exact Nat.le_trans (List.prefix_append _ _).length_le hle
      · cases hl
    · rw [(hlexed hnone).1] at hcomment
      cases hcomment
  | construct hlong hpre hlayout _ hfits =>
    obtain ⟨hps, hcur⟩ := (hfits hwidth).length_le
    have hnew := List.forall_mem_append.1 hlayout.newline
    have hnew' := List.forall_mem_singleton.1 hnew.2
    refine iff_of_true ?_ (.inr (.inl (by rw [show checkForConstruct config line 32 = _ from hpre]; rfl)))
    rw [textLines_written hnew.1, List.forall_mem_append]
    refine ⟨hps, ?_⟩
    cases newline with
    | true =>
      rw [if_pos rfl, List.append_assoc]
      change ∀ l ∈ textLines (_ ++ '\n' :: ['\n']), l.length ≤ width
      rw [textLines_append hnew']
      exact List.forall_mem_cons.2 ⟨hcur, List.forall_mem_singleton.2 (Nat.zero_le _)⟩
    | false =>
      rw [if_neg Bool.false_ne_true, List.append_nil, textLines_concat_newline hnew']
      exact List.forall_mem_singleton.2 hcur
  | tokens hlong hnone hlayout _ hfits hexceeds =>
    have hnew := List.forall_mem_append.1 hlayout.newline
    have hnew' := List.forall_mem_singleton.1 hnew.2
    rw [textLines_written hnew.1, textLines_concat_newline hnew']
    constructor
    · intro hle
      refine .inr (.inr fun g hg => Nat.lt_of_not_le fun hgap => ?_)
      obtain ⟨l, hl, hlt⟩ := (hexceeds ⟨g, hg, hgap⟩).exists_length
      exact absurd (hle l hl) (Nat.not_le.2 hlt)
    · rintro (hle | hconstruct | hgaps)
      · exact absurd hle (Nat.not_le.2 hlong)
      · rw [show checkForConstruct config line 32 = none from hnone] at hconstruct
        cases hconstruct
      · obtain ⟨hps, hcur⟩ := (hfits (by omega) hgaps).length_le
        exact List.forall_mem_append.2 ⟨hps, List.forall_mem_singleton.2 hcur⟩

/-- A line of two tokens that is cut between them. -/
theorem fortranSplitLine_width_tokens :
    let a := List.replicate 40 'a'
    ∃ out, fortranSplitLine ompOnly (fun _ => [a, a]) 65 (a ++ ' ' :: a ++ ['\n']) = some out ∧
      ∀ l ∈ textLines out, l.length ≤ 65 := by
  intro a
  obtain ⟨out, hout, hwidth⟩ := fortranSplitLine_width_iff ompOnly (fun _ => [a, a]) 65 (by decide) (a ++ ' ' :: a)
    (by decide) true fun _ => ⟨by decide,
      ⟨'a', by decide, rfl, by decide⟩, by decide, ⟨'a', by decide, rfl, by decide⟩,
        by decide, by unfold Lexed; decide⟩
  exact ⟨out, hout, hwidth.2 (.inr (.inr (by decide)))⟩

/-- Blanks are written without regard to the width. -/
theorem fortranSplitLine_width_blanks :
    let content := List.replicate 65 ' ' ++ ['x']
    Lexed content [['x']] ∧ ¬ ∀ out, fortranSplitLine ompOnly (fun _ => [['x']]) 65 (content ++ ['\n']) = some out →
      ∀ l ∈ textLines out, l.length ≤ 65 := by
  intro content
  refine ⟨⟨⟨'x', rfl, rfl, by decide⟩, by decide, by unfold Lexed; decide⟩, fun h => ?_⟩
  have hout : fortranSplitLine ompOnly (fun _ => [['x']]) 65 (content ++ ['\n']) =
      some ('&' :: '\n' :: content ++ ['\n']) := by decide
  exact absurd (h _ hout content (by decide)) (by decide)

end

end OmpSs.Mcxx.FortranSplit
