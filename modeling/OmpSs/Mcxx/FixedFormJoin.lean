import OmpSs.Mcxx.FixedForm
import OmpSs.Lib.CharContext
import OmpSs.Lib.TextLines

/-!
# Joining continuation lines

The text of a statement is that of its lines one after the other (`joinedText`): all but the last without their
comments and, if lines are padded, without the blanks at their end, unless they end in a string. A string that is
left open by a line goes on in the next one. `joinContinuatedLines` computes it by scanning the line that has been
joined so far from its beginning (`joinContinuatedLines_run`, `joinedLines_eq`). What it joins are the statement
fields of the lines but for one kind of line: a continuation line with a number sign in its sixth column is taken
for a preprocessor line by `cutLine`, and is neither cut nor padded (`joinedLines_iff`). Source:
`prescanner-process.c:338-661`.
-/

namespace OmpSs.Mcxx.FixedForm

open OmpSs.Lib CharContext

/-! ## The text of a statement -/

/-- What is left of a line when another one is joined to it. -/
def kept (pad : Bool) (d : Option Delimiter) (c : List Char) : List Char :=
  let u := beforeComment (some '$') d c
  if pad && (context d u).isNone then trimRight u else u

/-- The text of a line and the statement fields of its continuation lines. -/
def joinedText (pad : Bool) : Option Delimiter → List Char → List (List Char) → List Char
  | _, c, [] => c
  | d, c, field :: fields =>
    kept pad d c ++ joinedText pad (context d (beforeComment (some '$') d c)) field fields

section
variable {pad : Bool} {d : Option Delimiter} {c : Char} {s t : List Char}

/-- A character that begins no comment. -/
theorem prod_beforeComment_cons (h : d ≠ none ∨ startsComment (some '$') c s = false) :
    (beforeComment (some '$') d (c :: s), (context d (beforeComment (some '$') d (c :: s))).isSome) =
      (beforeComment (some '$') (advance d c) s,
        (context (advance d c) (beforeComment (some '$') (advance d c) s)).isSome).map (c :: ·) id := by
  rw [beforeComment_cons h]
  rfl

/-- The scan over a line finds its comment and the context of its end. -/
theorem trimInlineComment_eq (d : Option Delimiter) (s : List Char) :
    trimInlineComment (d.map Subtype.val) s =
      (beforeComment (some '$') d s, (context d (beforeComment (some '$') d s)).isSome) := by
  generalize he : d.map Subtype.val = e
  fun_induction trimInlineComment e s generalizing d with
  | case1 e =>
    rw [← he, Option.isSome_map]
    rfl
  | case2 c p hquote ih =>
    obtain rfl := Option.map_eq_none_iff.1 he
    have hc : c ≠ '!' := by
      rintro rfl
      revert hquote
      decide
    have hadvance : advance none c = some ⟨c, hquote⟩ := dif_pos hquote
    rw [prod_beforeComment_cons (.inr (startsComment_of_ne hc)), hadvance, ih (d := some ⟨c, hquote⟩) rfl]
  | case3 c p hquote hcomment =>
    obtain rfl := Option.map_eq_none_iff.1 he
    have hstart : startsComment (some '$') c p = true := by simp [startsComment, hcomment]
    rw [beforeComment_of_startsComment hstart]
    rfl
  | case4 c p hquote hcomment ih =>
    obtain rfl := Option.map_eq_none_iff.1 he
    have hstart : startsComment (some '$') c p = false := by
      rw [Bool.eq_false_iff]
      simpa [startsComment] using hcomment
    have hadvance : advance none c = none := dif_neg hquote
    rw [prod_beforeComment_cons (.inr hstart), hadvance, ih (d := none) rfl]
  | case5 c p ih =>
    obtain ⟨q, rfl, rfl⟩ := Option.map_eq_some_iff.1 he
    -- The doubled delimiter ends the string and begins another one.
    have hnone : advance (some q) q.1 = none := if_pos rfl
    have hsome : advance none q.1 = some q := dif_pos q.2
    have hq : q.1 ≠ '!' := by
      rcases q.2 with h | h <;> rw [h] <;> decide
    rw [prod_beforeComment_cons (.inl (Option.some_ne_none q)), hnone,
      prod_beforeComment_cons (.inr (startsComment_of_ne hq)), hsome, ih (d := some q) rfl]
    rfl
  | case6 q c p hne ih =>
    obtain ⟨q, rfl, rfl⟩ := Option.map_eq_some_iff.1 he
    have hnone : advance (some q) q.1 = none := if_pos rfl
    rw [prod_beforeComment_cons (.inl (Option.some_ne_none q)), hnone, ih (d := none) rfl]
  | case7 q =>
    obtain ⟨q, rfl, rfl⟩ := Option.map_eq_some_iff.1 he
    have hnone : advance (some q) q.1 = none := if_pos rfl
    rw [prod_beforeComment_cons (.inl (Option.some_ne_none q)), hnone]
    rfl
  | case8 q c p hne ih =>
    obtain ⟨q, rfl, rfl⟩ := Option.map_eq_some_iff.1 he
    have hsome : advance (some q) c = some q := if_neg hne
    rw [prod_beforeComment_cons (.inl (Option.some_ne_none q)), hsome, ih (d := some q) rfl]

/-! ## The line that has been joined -/

/-- The blanks that `trimRight` takes away. -/
theorem exists_trimRight (s : List Char) : ∃ bs, s = trimRight s ++ bs ∧ ∀ c ∈ bs, c = ' ' :=
  ⟨s.rtakeWhile fun c => c == ' ', List.rdropWhile_append_rtakeWhile.symm, fun _ hc => by
    simpa using List.mem_rtakeWhile_imp hc⟩

theorem context_trimRight (d : Option Delimiter) (s : List Char) : context d (trimRight s) = context d s := by
  obtain ⟨bs, hs, hbs⟩ := exists_trimRight s
  conv_rhs => rw [hs]
  rw [context_append, context_eq_self (s := bs)]
  intro c hc
  rw [hbs c hc]
  decide

theorem beforeComment_trimRight (h : beforeComment (some '$') d s = s) :
    beforeComment (some '$') d (trimRight s) = trimRight s := by
  obtain ⟨bs, hs, hbs⟩ := exists_trimRight s
  refine beforeComment_of_append (t := bs) (fun c hc => ?_) (hs ▸ h)
  rw [hbs c (List.mem_of_head? hc)]
  decide

theorem context_kept (pad : Bool) (d : Option Delimiter) (s : List Char) :
    context d (kept pad d s) = context d (beforeComment (some '$') d s) := by
  unfold kept
  dsimp only
  split
  · exact context_trimRight d _
  · rfl

theorem beforeComment_kept (pad : Bool) (d : Option Delimiter) (s : List Char) :
    beforeComment (some '$') d (kept pad d s) = kept pad d s := by
  have hself : beforeComment (some '$') d (beforeComment (some '$') d s) = beforeComment (some '$') d s :=
    beforeComment_self (by decide) d s
  unfold kept
  dsimp only
  split
  · exact beforeComment_trimRight hself
  · exact hself

/-- The beginning of a line, before the field that has been joined last: it has no comment and, if lines are padded
and it does not end in a string, no blanks at its end. -/
structure Settled (pad : Bool) (s : List Char) : Prop where
  comment : beforeComment (some '$') none s = s
  trimmed : pad = true → context none s = none → trimRight s = s

theorem settled_nil : Settled pad [] := ⟨rfl, fun _ _ => rfl⟩

/-- Scanning the whole line comes to the same as scanning the field from where it begins. -/
theorem Settled.kept_append (hs : Settled pad s) (t : List Char) :
    kept pad none (s ++ t) = s ++ kept pad (context none s) t := by
  unfold kept
  dsimp only
  rw [beforeComment_append hs.comment, context_append]
  generalize hu : beforeComment (some '$') (context none s) t = u
  cases pad with
  | false => rfl
  | true =>
    rw [Bool.true_and]
    split
    · next hnone =>
      by_cases hblank : trimRight u = []
      · have hcontext : context none s = none := by
          rw [← Option.isNone_iff_eq_none, ← hnone, ← context_trimRight _ u, hblank]
          rfl
        rw [hblank, List.append_nil]
        exact (rdropWhile_append_of_eq_nil hblank).trans (hs.trimmed rfl hcontext)
      · exact rdropWhile_append_of_ne_nil hblank
    · rfl

theorem Settled.append_kept (hs : Settled pad s) (t : List Char) :
    Settled pad (s ++ kept pad (context none s) t) where
  comment := by rw [beforeComment_append hs.comment, beforeComment_kept]
  trimmed := by
    rintro rfl hnone
    rw [← hs.kept_append]
    rw [context_append, context_kept] at hnone
    unfold kept
    dsimp only
    rw [beforeComment_append hs.comment, context_append, hnone]
    exact List.rdropWhile_idempotent _ _

/-- The fields joined one after the other. -/
def join (pad : Bool) (c : List Char) (fields : List (List Char)) : List Char :=
  fields.foldl (fun c field => kept pad none c ++ field) c

theorem Settled.join (hs : Settled pad s) (t : List Char) (fields : List (List Char)) :
    join pad (s ++ t) fields = s ++ joinedText pad (context none s) t fields := by
  induction fields generalizing s t with
  | nil => rfl
  | cons field fields ih =>
    have hih := ih (hs.append_kept t) field
    rw [context_append, context_kept] at hih
    rw [FixedForm.join, List.foldl_cons, hs.kept_append, joinedText, ← List.append_assoc]
    exact hih

theorem join_eq (pad : Bool) (c : List Char) (fields : List (List Char)) :
    join pad c fields = joinedText pad none c fields := settled_nil.join c fields

theorem join_concat (pad : Bool) (c : List Char) (fields : List (List Char)) (field : List Char) :
    join pad c (fields ++ [field]) = kept pad none (join pad c fields) ++ field := by
  rw [join, List.foldl_append]
  rfl

end

/-! ## Kinds of lines -/

/-- A line, before it is cut, that continues another one and is no directive. -/
def isContinuation (prescanner : Prescanner) (c : List Char) : Bool :=
  (cutLine prescanner c).take 5 == List.replicate 5 ' ' && matchContinuated (cutLine prescanner c)

/-- A comment that is no directive. -/
def IsComment (prescanner : Prescanner) (c : List Char) : Prop :=
  matchStartingComment (cutLine prescanner c) = true ∧
    isDirective (convertWholeLineComment (cutLine prescanner c)) = false

def IsPreprocessor (c : List Char) : Prop := isLineInformation c = true ∧ matchContinuated c = false

/-- The columns of a first line up to the width, without the zero that may stand in the sixth. -/
def initialText (prescanner : Prescanner) (c : List Char) : List Char :=
  let s := fit prescanner c
  if s[5]? = some '0' then s.set 5 ' ' else s

/-- The first character that is not blank begins no comment. -/
def Opens (c : List Char) : Prop := ∃ d, (c.dropWhile (· == ' ')).head? = some d ∧ d ≠ '!'

/-- The first line of a statement. -/
structure IsInitial (prescanner : Prescanner) (c : List Char) : Prop where
  information : isLineInformation c = false
  comment : matchStartingComment (fit prescanner c) = false
  continuation : matchContinuated (fit prescanner c) = false
  ignored : ignoredLine (fit prescanner c) = false
  opens : Opens (initialText prescanner c)

/-- The columns of a continuation line from the seventh up to the width. -/
def statementField (prescanner : Prescanner) (c : List Char) : List Char := (fit prescanner c).drop 6

/-- The line when continuation lines are joined. -/
def processed (prescanner : Prescanner) (l : Line) : Line :=
  { l with line := convertWholeLineComment (cutLine prescanner l.line) }

section
variable {prescanner : Prescanner} {c : List Char} {d : Char}

theorem exists_of_take_eq (htake : c.take 5 = List.replicate 5 ' ') (hmatch : matchContinuated c = true) :
    ∃ d r, c = List.replicate 5 ' ' ++ d :: r ∧ d ≠ ' ' ∧ d ≠ '\t' := by
  rw [matchContinuated, Bool.and_eq_true] at hmatch
  obtain ⟨d, hd, hblank⟩ := Option.any_eq_true _ _ |>.1 hmatch.2
  have hsplit := List.take_append_drop 5 c
  rw [htake] at hsplit
  rw [← hsplit, List.getElem?_append_right (by simp)] at hd
  obtain ⟨r, hr⟩ := List.head?_eq_some_iff.1 (List.head?_eq_getElem?.trans hd)
  rw [hr] at hsplit
  simp only [Bool.and_eq_true, bne_iff_ne] at hblank
  exact ⟨d, r, hsplit.symm, hblank.1.2, hblank.2⟩

/-- A continuation line is no comment. -/
theorem processed_of_isContinuation (h : isContinuation prescanner c = true) :
    convertWholeLineComment (cutLine prescanner c) = cutLine prescanner c := by
  rw [isContinuation, Bool.and_eq_true, beq_iff_eq] at h
  obtain ⟨d, r, hc, hd, -⟩ := exists_of_take_eq h.1 h.2
  have hcomment : matchStartingComment (cutLine prescanner c) = false := by
    have hlength : ((List.replicate 5 ' ' ++ d :: r).takeWhile (· == ' ')).length = 5 := by
      simp [List.replicate_succ, hd]
    rw [hc, matchStartingComment, hlength]
    rfl
  rw [convertWholeLineComment, hcomment, if_neg Bool.false_ne_true]

theorem getElem?_length_takeWhile (p : Char → Bool) (s : List Char) :
    s[(s.takeWhile p).length]? = (s.dropWhile p).head? := by
  have happend : (s.takeWhile p ++ s.dropWhile p)[(s.takeWhile p).length]? = (s.dropWhile p).head? := by
    rw [List.getElem?_append_right (Nat.le_refl _), Nat.sub_self, List.head?_eq_getElem?]
  rwa [List.takeWhile_append_dropWhile] at happend

theorem head?_convertWholeLineComment (h : matchStartingComment c = true) :
    (convertWholeLineComment c).head? = some '!' := by
  rw [convertWholeLineComment, if_pos h]
  rw [matchStartingComment] at h
  cases c with
  | nil => cases h
  | cons d s =>
    dsimp only at h ⊢
    rw [List.head?_cons, Option.any_some] at h ⊢
    by_cases hletter : (d.toLower == 'c' || d.toLower == 'd' || d == '*') = true
    · rw [if_pos hletter]
      rfl
    · rw [if_neg hletter]
      rw [Bool.eq_false_iff.2 hletter, Bool.false_or, Bool.and_eq_true, beq_iff_eq] at h
      by_cases hd : d = '!'
      · rw [hd]
        rfl
      · rw [if_neg (by simpa using hd)]
        cases hk : ((d :: s).takeWhile (· == ' ')).length with
        | zero =>
          rw [hk] at h
          exact absurd (Option.some.inj h.2) hd
        | succ k => rfl

/-- A comment that has been converted is ignored. -/
theorem ignored_of_isComment (h : IsComment prescanner c) :
    matchContinuated (convertWholeLineComment (cutLine prescanner c)) = false ∧
      ignoredLine (convertWholeLineComment (cutLine prescanner c)) = true := by
  have hdirective := h.2
  have hhead := head?_convertWholeLineComment h.1
  generalize convertWholeLineComment (cutLine prescanner c) = c at hdirective hhead
  refine ⟨?_, by simp [ignoredLine, hhead, hdirective]⟩
  rw [isDirective, Bool.or_eq_false_iff] at hdirective
  have hblanks : (c.take 5 == List.replicate 5 ' ') = false := by
    obtain ⟨s, rfl⟩ := List.head?_eq_some_iff.1 hhead
    rfl
  have hdollar : (c.take 5 == ['!', '$', ' ', ' ', ' ']) = false := by
    refine beq_eq_false_iff_ne.2 fun heq => beq_eq_false_iff_ne.1 hdirective.1 ?_
    have htake := congrArg (List.take 3) heq
    rw [List.take_take] at htake
    exact htake
  rw [matchContinuated, hblanks, hdirective.2, hdollar]
  rfl

theorem matchStartingComment_of_isLineInformation (h : isLineInformation c = true) :
    matchStartingComment c = false := by
  rw [isLineInformation, beq_iff_eq] at h
  have hbang : (c.dropWhile (· == ' ')).head? ≠ some '!' := by
    intro hbang
    obtain ⟨s, hs⟩ := List.head?_eq_some_iff.1 hbang
    rw [← List.takeWhile_append_dropWhile (p := (· == ' ')) (l := c), hs, List.dropWhile_append_of_pos] at h
    · exact absurd h (by simp)
    · intro d hd
      rw [List.mem_takeWhile_imp hd]
      rfl
  rw [matchStartingComment, getElem?_length_takeWhile, Bool.or_eq_false_iff]
  refine ⟨?_, by simp [hbang]⟩
  cases c with
  | nil => rfl
  | cons d s =>
    rw [List.head?_cons, Option.any_some]
    by_cases hblank : (d == ' ' || d == '\t') = true
    · rw [Bool.or_eq_true, beq_iff_eq, beq_iff_eq] at hblank
      rcases hblank with rfl | rfl <;> decide
    · have hdrop : (d :: s).dropWhile (fun d => d == ' ' || d == '\t') = d :: s := List.dropWhile_cons_of_neg hblank
      rw [hdrop] at h
      obtain rfl := Option.some.inj h
      decide

/-- A preprocessor line is left as it is. -/
theorem ignored_of_isPreprocessor (h : IsPreprocessor c) :
    matchContinuated (convertWholeLineComment (cutLine prescanner c)) = false ∧
      ignoredLine (convertWholeLineComment (cutLine prescanner c)) = true := by
  rw [cutLine, if_pos h.1, convertWholeLineComment, matchStartingComment_of_isLineInformation h.1,
    if_neg Bool.false_ne_true]
  exact ⟨h.2, by rw [ignoredLine, h.1, Bool.true_or]⟩

/-! ## Joining -/

theorem isDirective_of_opens (h : Opens c) : isDirective c = false := by
  obtain ⟨d, hd, hne⟩ := h
  cases c with
  | nil => cases hd
  | cons e s =>
    have he : e ≠ '!' := by
      rintro rfl
      exact hne (Option.some.inj hd).symm
    have hlower : e.toLower ≠ '!' := fun h => he (eq_of_toLower_eq (by decide) h)
    simp [isDirective, he, hlower]

theorem Opens.append (h : Opens c) (t : List Char) : Opens (c ++ t) := by
  obtain ⟨d, hd, hne⟩ := h
  exact ⟨d, head?_dropWhile_append hd t, hne⟩

theorem Opens.kept (h : Opens c) (pad : Bool) : Opens (kept pad none c) := by
  obtain ⟨d, hd, hne⟩ := h
  obtain ⟨s, hsplit, hblank⟩ := exists_of_head?_dropWhile hd
  have hblanks : ∀ e ∈ c.takeWhile (· == ' '), (e == ' ') = true := fun _ he =>
    List.mem_takeWhile_imp (p := (· == ' ')) he
  have hself : beforeComment (some '$') none (c.takeWhile (· == ' ')) = c.takeWhile (· == ' ') := by
    refine beforeComment_of_ne fun e he => ?_
    rintro rfl
    cases hblanks '!' he
  have hopens : ∀ t, t.head? = some d → Opens (c.takeWhile (· == ' ') ++ t) := by
    intro t ht
    obtain ⟨r, rfl⟩ := List.head?_eq_some_iff.1 ht
    refine ⟨d, ?_, hne⟩
    rw [List.dropWhile_append_of_pos hblanks, List.dropWhile_cons_of_neg (by rw [hblank]; exact Bool.false_ne_true)]
    rfl
  have hbefore : ∃ u, beforeComment (some '$') none c = c.takeWhile (· == ' ') ++ d :: u := by
    conv => enter [1, u, 1]; rw [hsplit]
    rw [beforeComment_append hself, beforeComment_cons (.inr (startsComment_of_ne hne))]
    exact ⟨_, rfl⟩
  obtain ⟨u, hu⟩ := hbefore
  have hhead : (trimRight (d :: u)).head? = some d := head?_rdropWhile rfl hblank
  have htrim : trimRight (d :: u) ≠ [] := by
    intro hnil
    rw [hnil] at hhead
    cases hhead
  unfold FixedForm.kept
  dsimp only
  rw [hu]
  split
  · have happend : trimRight (c.takeWhile (· == ' ') ++ d :: u) = c.takeWhile (· == ' ') ++ trimRight (d :: u) :=
      rdropWhile_append_of_ne_nil htrim
    rw [happend]
    exact hopens _ hhead
  · exact hopens _ rfl

theorem joinTwoLines_eq {starting_line : Line} (h : Opens starting_line.line) (discarded : List Line) (l : Line) :
    joinTwoLines prescanner starting_line discarded l =
      { starting_line with
        line := kept prescanner.pad_strings none starting_line.line ++ l.line.drop 6
        joined_lines := starting_line.joined_lines + discarded.length + 1 } := by
  have htrim : trimInlineComment none starting_line.line = _ := trimInlineComment_eq none starting_line.line
  unfold joinTwoLines kept
  simp only [isDirective_of_opens h, Bool.false_eq_true, if_false, htrim, Option.not_isSome]

/-- A line of the list that may follow a first line. -/
def Follows (prescanner : Prescanner) (l : Line) : Prop :=
  isContinuation prescanner l.line = true ∨ IsComment prescanner l.line ∨ IsPreprocessor l.line

def continuationLines (prescanner : Prescanner) (ls : List Line) : List Line :=
  ls.filter fun l => isContinuation prescanner l.line

theorem continuationLines_cons_of_pos {l : Line} (hl : isContinuation prescanner l.line = true) (ls : List Line) :
    continuationLines prescanner (l :: ls) = l :: continuationLines prescanner ls :=
  List.filter_cons_of_pos (p := fun l : Line => isContinuation prescanner l.line) hl

theorem continuationLines_cons_of_neg {l : Line} (hl : isContinuation prescanner l.line = false) (ls : List Line) :
    continuationLines prescanner (l :: ls) = continuationLines prescanner ls :=
  List.filter_cons_of_neg (p := fun l : Line => isContinuation prescanner l.line) (by rw [hl]; exact Bool.false_ne_true)

theorem continuationLines_append (ls ls' : List Line) :
    continuationLines prescanner (ls ++ ls') = continuationLines prescanner ls ++ continuationLines prescanner ls' :=
  List.filter_append _ _

/-- The fields that are joined. -/
def joinedFields (prescanner : Prescanner) (ls : List Line) : List (List Char) :=
  (continuationLines prescanner ls).map fun l => (cutLine prescanner l.line).drop 6

theorem matchContinuated_of_isContinuation (h : isContinuation prescanner c = true) :
    matchContinuated (cutLine prescanner c) = true := by
  rw [isContinuation, Bool.and_eq_true] at h
  exact h.2

/-- The round for a continuation line. -/
theorem joinContinuatedLines_continuation {l : Line} (hl : isContinuation prescanner l.line = true)
    {previous_line : Line} (hopens : Opens previous_line.line) (ignored next : List Line) :
    joinContinuatedLines prescanner (some previous_line) ignored (processed prescanner l :: next) =
      joinContinuatedLines prescanner
        (some { previous_line with
          line := kept prescanner.pad_strings none previous_line.line ++ (cutLine prescanner l.line).drop 6
          joined_lines := previous_line.joined_lines + ignored.length + 1 }) [] next := by
  have hline : (processed prescanner l).line = cutLine prescanner l.line := processed_of_isContinuation hl
  rw [joinContinuatedLines, hline, if_pos (matchContinuated_of_isContinuation hl), Option.bind_some,
    joinTwoLines_eq hopens, hline]

/-- The round for a comment or a preprocessor line. -/
theorem joinContinuatedLines_ignored {l : Line} (hl : IsComment prescanner l.line ∨ IsPreprocessor l.line)
    (previous_line : Option Line) (ignored next : List Line) :
    joinContinuatedLines prescanner previous_line ignored (processed prescanner l :: next) =
      joinContinuatedLines prescanner previous_line (ignored ++ [processed prescanner l]) next := by
  obtain ⟨hmatch, hignored⟩ : matchContinuated (processed prescanner l).line = false ∧
      ignoredLine (processed prescanner l).line = true :=
    hl.elim ignored_of_isComment ignored_of_isPreprocessor
  rw [joinContinuatedLines, hmatch, hignored, if_neg Bool.false_ne_true, if_pos rfl]

/-- Comments and preprocessor lines are no continuation lines. -/
theorem isContinuation_eq_false (h : IsComment prescanner c ∨ IsPreprocessor c) :
    isContinuation prescanner c = false := by
  by_contra hne
  have hcontinuation := Bool.not_eq_false _ ▸ hne
  have hmatch := matchContinuated_of_isContinuation hcontinuation
  rw [← processed_of_isContinuation hcontinuation, (h.elim ignored_of_isComment ignored_of_isPreprocessor).1] at hmatch
  cases hmatch

/-- Lines that follow a first line, the last of them a continuation line. -/
theorem joinContinuatedLines_run (ls : List Line) (l : Line) (hls : ∀ l ∈ ls, Follows prescanner l)
    (hl : isContinuation prescanner l.line = true) (previous_line : Line) (hopens : Opens previous_line.line)
    (ignored : List Line) :
    joinContinuatedLines prescanner (some previous_line) ignored ((ls ++ [l]).map (processed prescanner)) =
      some [{ previous_line with
        line := join prescanner.pad_strings previous_line.line (joinedFields prescanner (ls ++ [l]))
        joined_lines := previous_line.joined_lines + (ignored.length + ls.length + 1) }] := by
  induction ls generalizing previous_line ignored with
  | nil =>
    rw [List.nil_append, List.map_singleton, joinContinuatedLines_continuation hl hopens, joinedFields,
      continuationLines_cons_of_pos hl]
    rfl
  | cons l' ls ih =>
    rw [List.forall_mem_cons] at hls
    rw [List.cons_append, List.map_cons, List.length_cons]
    rcases hls.1 with hl' | hl'
    · rw [joinContinuatedLines_continuation hl' hopens, ih hls.2 _ ((hopens.kept _).append _), joinedFields,
        joinedFields, continuationLines_cons_of_pos hl', List.length_nil]
      have hlength : previous_line.joined_lines + ignored.length + 1 + (0 + ls.length + 1) =
          previous_line.joined_lines + (ignored.length + (ls.length + 1) + 1) := by omega
      rw [hlength]
      rfl
    · have hfilter : joinedFields prescanner (l' :: (ls ++ [l])) = joinedFields prescanner (ls ++ [l]) := by
        rw [joinedFields, continuationLines_cons_of_neg (isContinuation_eq_false hl')]
        rfl
      have hlength : ignored.length + 1 + ls.length = ignored.length + (ls.length + 1) := by omega
      rw [joinContinuatedLines_ignored hl', ih hls.2 _ hopens, hfilter, List.length_append, List.length_singleton,
        hlength]

/-- A first line with lines that follow it, the last of them a continuation line. -/
theorem joinedLines_eq {initial : Line} (hinitial : IsInitial prescanner initial.line) (ls : List Line) (l : Line)
    (hls : ∀ l ∈ ls, Follows prescanner l) (hl : isContinuation prescanner l.line = true) :
    joinedLines prescanner (initial :: (ls ++ [l])) =
      some [⟨join prescanner.pad_strings (initialText prescanner initial.line) (joinedFields prescanner (ls ++ [l])),
        initial.line_number, initial.joined_lines + (ls.length + 1)⟩] := by
  have hline : processed prescanner initial = { initial with line := fit prescanner initial.line } := by
    rw [processed, cutLine, hinitial.information, if_neg Bool.false_ne_true, convertWholeLineComment,
      hinitial.comment, if_neg Bool.false_ne_true]
  have hzero : blankZero { initial with line := fit prescanner initial.line } =
      { initial with line := initialText prescanner initial.line } := by
    unfold blankZero initialText
    dsimp only
    split <;> rfl
  have hrun := joinContinuatedLines_run ls l hls hl { initial with line := initialText prescanner initial.line }
    hinitial.opens []
  rw [joinedLines, List.map_cons]
  change joinContinuatedLines prescanner none [] (processed prescanner initial ::
    (ls ++ [l]).map (processed prescanner)) = _
  rw [hline, joinContinuatedLines]
  dsimp only
  rw [hinitial.continuation, hinitial.ignored, if_neg Bool.false_ne_true, if_neg Bool.false_ne_true, hzero, hrun,
    List.length_nil, Nat.zero_add]
  rfl

/-! ## Lines with a number sign in the sixth column -/

/-- The columns from the seventh on are those up to the width. -/
def Exact (prescanner : Prescanner) (c : List Char) : Prop :=
  if prescanner.pad_strings then c.length - 6 = prescanner.width - 6 else c.length - 6 ≤ prescanner.width - 6

theorem length_fit_of_pad (hpad : prescanner.pad_strings = true) : (fit prescanner c).length = prescanner.width := by
  unfold fit
  dsimp only
  rw [if_pos hpad, List.length_append, List.length_replicate, List.length_take]
  omega

/-- A continuation line that is not cut. -/
theorem drop_eq_statementField_iff (hl : isContinuation prescanner c = true)
    (hinformation : isLineInformation c = true) :
    c.drop 6 = statementField prescanner c ↔ Exact prescanner c := by
  rw [isContinuation, Bool.and_eq_true, beq_iff_eq, cutLine, if_pos hinformation] at hl
  obtain ⟨d, r, hc, -, htab⟩ := exists_of_take_eq hl.1 hl.2
  have hform : isTabForm c = false := by
    rw [hc, isTabForm]
    simpa [List.replicate_succ] using htab.symm
  unfold statementField Exact
  cases hpad : prescanner.pad_strings with
  | true =>
    rw [if_pos rfl]
    refine ⟨fun h => ?_, fun h => ?_⟩
    · have hlength := congrArg List.length h
      rwa [List.length_drop, List.length_drop, length_fit_of_pad hpad] at hlength
    · have hfit : fit prescanner c = c.take prescanner.width ++
          List.replicate (prescanner.width - (c.take prescanner.width).length) ' ' := by
        simp only [fit, hform, hpad, Bool.false_eq_true, if_false, if_true]
      have hlength : c.length = (c.length - 6) + 6 := by
        rw [hc]
        simp
      by_cases hwidth : 6 ≤ prescanner.width
      · have heq : prescanner.width = c.length := by omega
        rw [hfit, heq, List.take_length, Nat.sub_self, List.replicate_zero, List.append_nil]
      · rw [List.drop_eq_nil_of_le (by omega), List.drop_eq_nil_of_le (by rw [length_fit_of_pad hpad]; omega)]
  | false =>
    have hfit : fit prescanner c = c.take prescanner.width := by
      simp only [fit, hform, hpad, Bool.false_eq_true, if_false]
    rw [if_neg Bool.false_ne_true, hfit, List.drop_take]
    refine ⟨fun h => ?_, fun h => (List.take_of_length_le (by rwa [List.length_drop])).symm⟩
    have hlength := congrArg List.length h
    rw [List.length_take, List.length_drop] at hlength
    omega

/-- The field that is joined is that of the line, or the line is one that is not cut. -/
theorem drop_cutLine_eq_iff (hl : isContinuation prescanner c = true) :
    (cutLine prescanner c).drop 6 = statementField prescanner c ↔
      (isLineInformation c = true → Exact prescanner c) := by
  by_cases hinformation : isLineInformation c = true
  · rw [cutLine, if_pos hinformation, drop_eq_statementField_iff hl hinformation]
    exact ⟨fun h _ => h, fun h => h hinformation⟩
  · rw [cutLine, if_neg hinformation]
    exact iff_of_true rfl fun h => absurd h hinformation

theorem mem_continuationLines {ls : List Line} {l : Line} :
    l ∈ continuationLines prescanner ls ↔ l ∈ ls ∧ isContinuation prescanner l.line = true := List.mem_filter

/-- After each of the joins there is one line with the text of the lines so far, if and only if the continuation lines
with a number sign in the sixth column end where the width does or, if lines are not padded, not after it. -/
theorem joinedLines_iff (prescanner : Prescanner) (initial : Line) (hinitial : IsInitial prescanner initial.line)
    (rest : List Line) (hrest : ∀ l ∈ rest, Follows prescanner l) :
    (∀ ls l, ls ++ [l] <+: rest → isContinuation prescanner l.line = true →
      joinedLines prescanner (initial :: (ls ++ [l])) =
        some [⟨joinedText prescanner.pad_strings none (initialText prescanner initial.line)
            ((continuationLines prescanner (ls ++ [l])).map fun l => statementField prescanner l.line),
          initial.line_number, initial.joined_lines + (ls.length + 1)⟩]) ↔
      ∀ l ∈ rest, isContinuation prescanner l.line = true → isLineInformation l.line = true →
        Exact prescanner l.line := by
  constructor
  · intro h
    suffices hfields : ∀ ls, ls <+: rest → ∀ l ∈ ls, isContinuation prescanner l.line = true →
        (cutLine prescanner l.line).drop 6 = statementField prescanner l.line from
      fun l hl hcontinuation => (drop_cutLine_eq_iff hcontinuation).1
        (hfields rest List.prefix_rfl l hl hcontinuation)
    intro ls hls
    induction ls using List.reverseRecOn with
    | nil => exact List.forall_mem_nil _
    | append_singleton ls l ih =>
      have hbefore := ih ((List.prefix_append _ _).trans hls)
      rw [List.forall_mem_append, List.forall_mem_singleton]
      refine ⟨hbefore, fun hcontinuation => ?_⟩
      have hfollows : ∀ l ∈ ls, Follows prescanner l := fun l hl =>
        hrest l (((List.prefix_append _ _).trans hls).subset hl)
      have hjoined := h ls l hls hcontinuation
      rw [joinedLines_eq hinitial ls l hfollows hcontinuation, ← join_eq, Option.some_inj, List.singleton_inj,
        Line.mk.injEq, joinedFields, continuationLines_append, continuationLines_cons_of_pos hcontinuation,
        List.map_append, List.map_append] at hjoined
      have hmap : (continuationLines prescanner ls).map (fun l => (cutLine prescanner l.line).drop 6) =
          (continuationLines prescanner ls).map fun l => statementField prescanner l.line := by
        refine List.map_congr_left fun l hl => ?_
        rw [mem_continuationLines] at hl
        exact hbefore l hl.1 hl.2
      rw [hmap] at hjoined
      have htext := hjoined.1
      change join _ _ (_ ++ [_]) = join _ _ (_ ++ [_]) at htext
      rw [join_concat, join_concat] at htext
      exact List.append_cancel_left htext
  · intro h ls l hls hcontinuation
    have hfollows : ∀ l ∈ ls, Follows prescanner l := fun l hl =>
      hrest l (((List.prefix_append _ _).trans hls).subset hl)
    have hmap : joinedFields prescanner (ls ++ [l]) =
        (continuationLines prescanner (ls ++ [l])).map fun l => statementField prescanner l.line := by
      refine List.map_congr_left fun l hl => ?_
      rw [mem_continuationLines] at hl
      exact (drop_cutLine_eq_iff hl.2).2 (h l (hls.subset hl.1) hl.2)
    rw [joinedLines_eq hinitial ls l hfollows hcontinuation, join_eq, hmap]

/-- A string that goes on after a comment line, with the blanks between them. -/
theorem joinedLines_string :
    joinedLines ⟨20, true⟩ [⟨"      PRINT *, 'A".toList, 1, 0⟩, ⟨"C a comment".toList, 2, 0⟩,
        ⟨"     1B' ! the end".toList, 3, 0⟩] =
      some [⟨"      PRINT *, 'A   B' ! the end  ".toList, 1, 2⟩] := by
  have hinitial : IsInitial ⟨20, true⟩ "      PRINT *, 'A".toList :=
    ⟨by decide +kernel, by decide, by decide, by decide, 'P', by decide, by decide⟩
  have hcontinuation : isContinuation ⟨20, true⟩ "     1B' ! the end".toList = true := by decide
  have hcomment : IsComment ⟨20, true⟩ "C a comment".toList := ⟨by decide, by decide⟩
  have hjoined := (joinedLines_iff ⟨20, true⟩ ⟨"      PRINT *, 'A".toList, 1, 0⟩ hinitial
    [⟨"C a comment".toList, 2, 0⟩, ⟨"     1B' ! the end".toList, 3, 0⟩] ?_).2 ?_ [⟨"C a comment".toList, 2, 0⟩]
    ⟨"     1B' ! the end".toList, 3, 0⟩ List.prefix_rfl hcontinuation
  · exact hjoined.trans (by decide)
  · exact List.forall_mem_cons.2 ⟨.inr (.inl hcomment), List.forall_mem_singleton.2 (.inl hcontinuation)⟩
  · exact List.forall_mem_cons.2 ⟨fun _ h => absurd h (by decide),
      List.forall_mem_singleton.2 fun _ h => absurd h (by decide)⟩

/-- A continuation line of which the columns after the width are joined too. -/
theorem joinedLines_numberSign :
    let initial := Line.mk "      X = A".toList 1 0
    let l := Line.mk "     #+ B   SEQ1".toList 2 0
    IsInitial ⟨12, true⟩ initial.line ∧ isContinuation ⟨12, true⟩ l.line = true ∧
      joinedLines ⟨12, true⟩ [initial, l] = some [⟨"      X = A+ B   SEQ1".toList, 1, 1⟩] ∧
      joinedLines ⟨12, true⟩ [initial, l] ≠
        some [⟨joinedText true none (initialText ⟨12, true⟩ initial.line) [statementField ⟨12, true⟩ l.line],
          1, 1⟩] := by
  refine ⟨⟨?_, ?_, ?_, ?_, 'X', ?_, by decide⟩, ?_, ?_, ?_⟩ <;> decide

end

end OmpSs.Mcxx.FixedForm
