import OmpSs.Lib.CharContext
import OmpSs.Lib.FreeForm

/-!
# Reading the free form

A source in free form is read line by line (`read`). An ampersand that ends a line, or stands last before its
comment, continues the statement on the next line that is no comment, after an ampersand if that begins with one;
a comment may contain ampersands. A directive is continued only by a line with the same sentinel. A line may not
have a single ampersand as its only character. What `sentinel` returns of a line are the sentinel with the blanks
before it and the rest.

A line that begins with an ampersand and continues nothing is not a line of a program: what is read of a text with
such a line has one that begins with an ampersand, if it can be read at all (`spoiled_fresh`).
-/

namespace OmpSs.Lib.FreeForm

open CharContext

/-- What a line is read in: nothing, a statement or a directive that is continued. -/
inductive Reading
  | fresh
  | statement (text : List Char)
  | directive (mark text : List Char)

/-- An empty line, or one with nothing but a comment. -/
def isComment (l : List Char) : Bool :=
  match (l.dropWhile isBlank).head? with
  | none => true
  | some c => c == '!'

def loneAmpersand (text l : List Char) : Bool :=
  (beforeComment none (context none text) l).filter (fun c => !isBlank c) == ['&']

/-- What is left of the content of a line without its comment, after `text`. -/
def trimmed (text content : List Char) : List Char :=
  (beforeComment none (context none text) content).rdropWhile isBlank

/-- The statements that end with a line, and what the next line is read in. -/
def readText (continued : List Char → Reading) (mark text content : List Char) : List (List Char) × Reading :=
  let u := trimmed text content
  if u.getLast? = some '&' then ([], continued (text ++ u.dropLast))
  else ([mark ++ (text ++ u).rdropWhile isBlank], .fresh)

section
variable (sentinel : List Char → Option (List Char × List Char))

def start (l : List Char) : Option (List (List Char) × Reading) :=
  match sentinel l with
  | some (mark, content) => some (readText (.directive mark) mark [] content)
  | none =>
    if isComment l then some ([], .fresh)
    else if loneAmpersand [] l then none
    else some (readText .statement [] [] l)

def sameMark (mark mark' : List Char) : Bool :=
  (mark.dropWhile isBlank).map Char.toLower == (mark'.dropWhile isBlank).map Char.toLower

def readLine : Reading → List Char → Option (List (List Char) × Reading)
  | .fresh, l => start sentinel l
  | .statement text, l =>
    if isComment l then some ([], .statement text)
    else if loneAmpersand text l then none
    else some (readText .statement [] text (lead ['&'] true l))
  | .directive mark text, l =>
    match (sentinel l).filter fun m => sameMark mark m.1 with
    | some (_, content) => some (readText (.directive mark) mark text (lead ['&'] true content))
    | none => (start sentinel l).map fun r => ((mark ++ text.rdropWhile isBlank) :: r.1, r.2)

/-- The statement that the text ends in. -/
def unread : Reading → List (List Char)
  | .fresh => []
  | .statement text => [text.rdropWhile isBlank]
  | .directive mark text => [mark ++ text.rdropWhile isBlank]

/-- The statements and directives of a text, each in one line. -/
def read : Reading → List (List Char) → Option (List (List Char))
  | r, [] => some (unread r)
  | r, l :: ls => (readLine sentinel r l).bind fun x => (read x.2 ls).map (x.1 ++ ·)

/-- The text of a line that is not continued. -/
def logicalText (l : List Char) : List Char :=
  match sentinel l with
  | some (mark, content) => mark ++ trimmed [] content
  | none => trimmed [] l

/-- A statement or a directive in one line. -/
structure IsLogical (l : List Char) : Prop where
  statement : sentinel l = none → ∃ c, (l.dropWhile isBlank).head? = some c ∧ c ≠ '!' ∧ c ≠ '&'
  last : (logicalText sentinel l).getLast? ≠ some '&'

/-- A sentinel begins with an exclamation mark. -/
def IsSentinel : Prop :=
  ∀ l mark content, sentinel l = some (mark, content) →
    l = mark ++ content ∧ (mark.dropWhile isBlank).head? = some '!'

end

section
variable {sentinel : List Char → Option (List Char × List Char)} {mark text content l s t a : List Char}
  {ls : List (List Char)} {c : Char}

/-! ## Blanks -/

theorem beforeComment_blanks (hs : ∀ c ∈ s, isBlank c = true) (d : Option Delimiter) :
    beforeComment none d s = s := by
  refine beforeComment_of_ne fun c hc => ?_
  rintro rfl
  cases hs '!' hc

/-! ## What is read of a line -/

theorem sentinel_eq_none (hsentinel : IsSentinel sentinel) (hl : (l.dropWhile isBlank).head? ≠ some '!') :
    sentinel l = none := by
  by_contra hsome
  obtain ⟨⟨mark, content⟩, h⟩ := Option.ne_none_iff_exists'.1 hsome
  obtain ⟨rfl, hmark⟩ := hsentinel l mark content h
  exact hl (head?_dropWhile_append hmark content)

theorem isComment_of_head? (hl : (l.dropWhile isBlank).head? = some c) (hc : c ≠ '!') : isComment l = false := by
  rw [isComment, hl]
  exact beq_eq_false_iff_ne.2 hc

theorem readText_of_last (h : (trimmed text content).getLast? = some '&') (continued : List Char → Reading) :
    readText continued mark text content = ([], continued (text ++ (trimmed text content).dropLast)) := by
  rw [readText]
  exact if_pos h

theorem readText_of_ne (h : (trimmed text content).getLast? ≠ some '&') (continued : List Char → Reading) :
    readText continued mark text content =
      ([mark ++ (text ++ trimmed text content).rdropWhile isBlank], .fresh) := by
  rw [readText]
  exact if_neg h

@[simp] theorem rdropWhile_trimmed (text content : List Char) :
    (trimmed text content).rdropWhile isBlank = trimmed text content :=
  List.rdropWhile_idempotent _ _

/-- The first character of a statement is read. -/
theorem head?_filter_beforeComment (hl : (l.dropWhile isBlank).head? = some c) (hc : c ≠ '!') (text : List Char) :
    ((beforeComment none (context none text) l).filter (fun c => !isBlank c)).head? = some c := by
  obtain ⟨s, hsplit, hblank⟩ := exists_of_head?_dropWhile hl
  have hblanks : ∀ b ∈ l.takeWhile isBlank, isBlank b = true := fun b hb => List.mem_takeWhile_imp hb
  rw [hsplit, beforeComment_append (beforeComment_blanks hblanks _),
    beforeComment_cons (.inr (startsComment_of_ne hc)), List.filter_append,
    List.filter_eq_nil_iff.2 (by simpa using hblanks), List.nil_append, List.filter_cons_of_pos (by simpa using hblank)]
  rfl

theorem loneAmpersand_of_head? (hl : (l.dropWhile isBlank).head? = some c) (hc : c ≠ '!') (hc' : c ≠ '&')
    (text : List Char) : loneAmpersand text l = false := by
  refine beq_eq_false_iff_ne.2 fun h => hc' ?_
  have hhead := head?_filter_beforeComment hl hc text
  rw [h] at hhead
  exact (Option.some.inj hhead).symm

theorem start_of_head? (hsentinel : IsSentinel sentinel) (hl : (l.dropWhile isBlank).head? = some c) (hc : c ≠ '!')
    (hc' : c ≠ '&') : start sentinel l = some (readText .statement [] [] l) := by
  rw [start, sentinel_eq_none hsentinel (by rw [hl]; exact fun h => hc (Option.some.inj h))]
  dsimp only
  rw [isComment_of_head? hl hc, if_neg Bool.false_ne_true, loneAmpersand_of_head? hl hc hc',
    if_neg Bool.false_ne_true]

/-- A statement or a directive that is not continued. -/
theorem read_logical (hsentinel : IsSentinel sentinel) (h : IsLogical sentinel l) (ls : List (List Char)) :
    read sentinel .fresh (l :: ls) = (read sentinel .fresh ls).map (logicalText sentinel l :: ·) := by
  have hlast := h.last
  cases hl : sentinel l with
  | some x =>
    obtain ⟨mark, content⟩ := x
    have htext : logicalText sentinel l = mark ++ trimmed [] content := by rw [logicalText, hl]
    have hne : (trimmed [] content).getLast? ≠ some '&' := by
      intro heq
      rw [htext, List.getLast?_append, heq] at hlast
      exact hlast rfl
    rw [read, readLine, start, hl]
    dsimp only
    rw [readText_of_ne hne, List.nil_append, rdropWhile_trimmed, htext]
    rfl
  | none =>
    have htext : logicalText sentinel l = trimmed [] l := by rw [logicalText, hl]
    obtain ⟨c, hc, hbang, hamp⟩ := h.statement hl
    rw [htext] at hlast ⊢
    rw [read, readLine, start_of_head? hsentinel hc hbang hamp, readText_of_ne hlast, List.nil_append, List.nil_append,
      rdropWhile_trimmed]
    rfl

/-! ## Lines that continue nothing -/

/-- What is read has a line that begins with an ampersand, if anything is read. -/
def Spoiled (r : Option (List (List Char))) : Prop := ∀ ts, r = some ts → ∃ t ∈ ts, t.head? = some '&'

theorem spoiled_none : Spoiled none := fun _ h => nomatch h

theorem Spoiled.map {r : Option (List (List Char))} (h : Spoiled r) (ts : List (List Char)) :
    Spoiled (r.map (ts ++ ·)) := by
  intro us hus
  obtain ⟨vs, hvs, rfl⟩ := Option.map_eq_some_iff.1 hus
  obtain ⟨t, ht, hhead⟩ := h vs hvs
  exact ⟨t, List.mem_append_right _ ht, hhead⟩

theorem spoiled_map_of_mem {r : Option (List (List Char))} {ts : List (List Char)} (h : ∃ t ∈ ts, t.head? = some '&') :
    Spoiled (r.map (ts ++ ·)) := by
  intro us hus
  obtain ⟨vs, -, rfl⟩ := Option.map_eq_some_iff.1 hus
  obtain ⟨t, ht, hhead⟩ := h
  exact ⟨t, List.mem_append_left _ ht, hhead⟩

/-- A statement that begins with an ampersand does so when it has been read. -/
theorem spoiled_statement (htext : text.head? = some '&') (ls : List (List Char)) :
    Spoiled (read sentinel (.statement text) ls) := by
  have hhead : ∀ s, (text ++ s).head? = some '&' := fun s => by rw [List.head?_append, htext]; rfl
  induction ls generalizing text with
  | nil =>
    rintro _ ⟨⟩
    exact ⟨_, List.mem_singleton_self _, head?_rdropWhile htext rfl⟩
  | cons l ls ih =>
    rw [read, readLine]
    split
    · exact (ih htext hhead).map []
    · split
      · exact spoiled_none
      · rw [Option.bind_some]
        generalize lead ['&'] true l = content
        by_cases hlast : (trimmed text content).getLast? = some '&'
        · rw [readText_of_last hlast]
          exact (ih (hhead _) fun s => by rw [List.append_assoc]; exact hhead _).map []
        · rw [readText_of_ne hlast]
          exact spoiled_map_of_mem ⟨_, List.mem_singleton_self _, head?_rdropWhile (hhead _) rfl⟩

theorem loneAmpersand_ampersand (text s : List Char) :
    loneAmpersand text ('&' :: s) = (trimmed text s).isEmpty := by
  have hfilter : ((beforeComment none (context none text) s).filter fun c => !isBlank c) = [] ↔
      trimmed text s = [] := by
    rw [trimmed, List.rdropWhile_eq_nil_iff, List.filter_eq_nil_iff]
    simp
  rw [loneAmpersand, beforeComment_cons (.inr (startsComment_of_ne (by decide))),
    advance_eq_self (by decide) (by decide), List.filter_cons_of_pos (by decide), Bool.eq_iff_iff, beq_iff_eq,
    List.cons.injEq, List.isEmpty_iff, hfilter]
  exact and_iff_right rfl

theorem head?_ampersand (s : List Char) : (('&' :: s).dropWhile isBlank).head? = some '&' := rfl

/-- An ampersand at the beginning of a statement. -/
theorem spoiled_fresh (hsentinel : IsSentinel sentinel) (s : List Char) (ls : List (List Char)) :
    Spoiled (read sentinel .fresh (('&' :: s) :: ls)) := by
  have hnone : sentinel ('&' :: s) = none := sentinel_eq_none hsentinel (by rw [head?_ampersand]; decide)
  rw [read, readLine, start, hnone]
  dsimp only
  rw [isComment_of_head? (head?_ampersand s) (by decide), if_neg Bool.false_ne_true]
  split
  · exact spoiled_none
  · next hlone =>
    rw [loneAmpersand_ampersand, List.isEmpty_iff] at hlone
    have htrimmed : trimmed [] ('&' :: s) = '&' :: trimmed [] s := by
      rw [trimmed, beforeComment_cons (.inr (startsComment_of_ne (by decide))),
        advance_eq_self (by decide) (by decide)]
      exact rdropWhile_append_of_ne_nil (s := ['&']) hlone
    rw [Option.bind_some]
    by_cases hlast : (trimmed [] ('&' :: s)).getLast? = some '&'
    · rw [readText_of_last hlast, htrimmed, List.dropLast_cons_of_ne_nil hlone]
      exact (spoiled_statement rfl ls).map []
    · rw [readText_of_ne hlast, htrimmed]
      exact spoiled_map_of_mem ⟨_, List.mem_singleton_self _, head?_rdropWhile rfl rfl⟩

/-- A directive is not continued by a line without its sentinel. -/
theorem spoiled_directive (hsentinel : IsSentinel sentinel) (mark text s : List Char) (ls : List (List Char)) :
    Spoiled (read sentinel (.directive mark text) (('&' :: s) :: ls)) := by
  have hnone : sentinel ('&' :: s) = none := sentinel_eq_none hsentinel (by rw [head?_ampersand]; decide)
  have hfresh := spoiled_fresh hsentinel s ls
  have hline : readLine sentinel (.directive mark text) ('&' :: s) =
      (start sentinel ('&' :: s)).map fun r => ((mark ++ text.rdropWhile isBlank) :: r.1, r.2) := by
    unfold readLine
    dsimp only
    rw [hnone]
    rfl
  rw [read, hline]
  rw [read, readLine] at hfresh
  cases hstart : start sentinel ('&' :: s) with
  | none => exact spoiled_none
  | some x =>
    rw [hstart, Option.bind_some] at hfresh
    rw [Option.map_some, Option.bind_some]
    intro ts hts
    obtain ⟨vs, hvs, rfl⟩ := Option.map_eq_some_iff.1 hts
    obtain ⟨t, ht, hhead⟩ := hfresh (x.1 ++ vs) (by rw [hvs]; rfl)
    exact ⟨t, List.mem_cons_of_mem _ ht, hhead⟩

/-! ## Lines with an ampersand at the end -/

theorem trimmed_concat (ha : beforeComment none (context none text) a = a) :
    trimmed text (a ++ ['&']) = a ++ ['&'] := by
  rw [trimmed, beforeComment_append ha, beforeComment_cons (.inr (startsComment_of_ne (by decide))), beforeComment_nil]
  exact List.rdropWhile_concat_neg _ _ _ (by decide)

theorem trimmed_append_of_ne (ha : beforeComment none (context none text) a ≠ a) (s : List Char) :
    trimmed text (a ++ s) = trimmed text a := by
  rw [trimmed, beforeComment_append_of_ne ha, trimmed]

theorem trimmed_append (ha : beforeComment none (context none text) a = a) (s : List Char) :
    trimmed text (a ++ s) =
      if trimmed (text ++ a) s = [] then a.rdropWhile isBlank else a ++ trimmed (text ++ a) s := by
  rw [trimmed, beforeComment_append ha, ← context_append]
  split
  · next h => exact rdropWhile_append_of_eq_nil h
  · next h => exact rdropWhile_append_of_ne_nil h

/-- The end of a statement that is cut. -/
theorem getLast?_trimmed_of_append (ha : beforeComment none (context none text) a = a)
    (hlast : (trimmed text (a ++ s)).getLast? ≠ some '&') : (trimmed (text ++ a) s).getLast? ≠ some '&' := by
  intro h
  have hne : trimmed (text ++ a) s ≠ [] := by
    intro hnil
    rw [hnil] at h
    cases h
  rw [trimmed_append ha, if_neg hne, List.getLast?_append, h] at hlast
  exact hlast rfl

theorem length_trimmed_le (text s : List Char) : (trimmed text s).length ≤ s.length :=
  ((List.rdropWhile_prefix _ _).trans (beforeComment_isPrefix none _ s)).length_le

theorem readLine_ampersand (text s : List Char) :
    readLine sentinel (.statement text) ('&' :: s) =
      if trimmed text s = [] then none else some (readText .statement [] text s) := by
  have hlead : lead ['&'] true ('&' :: s) = s := by
    have hleads : ('&' :: s).dropPrefix? ['&'] = some s :=
      List.dropPrefix?_eq_some_iff.2 ⟨['&'], rfl, beq_self_eq_true _⟩
    change (('&' :: s).dropPrefix? ['&']).getD _ = s
    rw [hleads, Option.getD_some]
  rw [readLine, isComment_of_head? (head?_ampersand s) (by decide), if_neg Bool.false_ne_true,
    loneAmpersand_ampersand, hlead]
  simp only [List.isEmpty_iff]

theorem read_ampersand_concat (ha : beforeComment none (context none text) a = a) (ls : List (List Char)) :
    read sentinel (.statement text) (('&' :: (a ++ ['&'])) :: ls) = read sentinel (.statement (text ++ a)) ls := by
  have htrimmed := trimmed_concat ha
  have hlast : (trimmed text (a ++ ['&'])).getLast? = some '&' := by rw [htrimmed, List.getLast?_concat]
  rw [read, readLine_ampersand, if_neg (by rw [htrimmed]; simp), readText_of_last hlast, htrimmed, List.dropLast_concat,
    Option.bind_some]
  exact Option.map_id'

theorem read_ampersand_last (hne : trimmed text s ≠ []) (hlast : (trimmed text s).getLast? ≠ some '&')
    (ls : List (List Char)) :
    read sentinel (.statement text) (('&' :: s) :: ls) =
      (read sentinel .fresh ls).map ((text ++ trimmed text s) :: ·) := by
  have hblanks : (text ++ trimmed text s).rdropWhile isBlank = text ++ trimmed text s := by
    rw [rdropWhile_append_of_ne_nil (by rwa [rdropWhile_trimmed]), rdropWhile_trimmed]
  rw [read, readLine_ampersand, if_neg hne, readText_of_ne hlast, hblanks]
  rfl

theorem read_ampersand_nil (h : trimmed text s = []) (ls : List (List Char)) :
    read sentinel (.statement text) (('&' :: s) :: ls) = none := by
  rw [read, readLine_ampersand, if_pos h]
  rfl

/-- A comment is not continued. -/
theorem spoiled_ampersand (hsentinel : IsSentinel sentinel) (ha : beforeComment none (context none text) a ≠ a)
    (hlast : (trimmed text a).getLast? ≠ some '&') (s : List Char) (ls : List (List Char)) :
    Spoiled (read sentinel (.statement text) (('&' :: (a ++ ['&'])) :: ('&' :: s) :: ls)) := by
  have htrimmed := trimmed_append_of_ne ha ['&']
  by_cases hne : trimmed text a = []
  · rw [read_ampersand_nil (htrimmed.trans hne)]
    exact spoiled_none
  · rw [← htrimmed] at hne hlast
    rw [read_ampersand_last hne hlast]
    exact (spoiled_fresh hsentinel s ls).map [_]

/-! ## First lines -/

theorem read_concat (hsentinel : IsSentinel sentinel) (hl : (a.dropWhile isBlank).head? = some c) (hc : c ≠ '!')
    (hc' : c ≠ '&') (ha : beforeComment none none a = a) (ls : List (List Char)) :
    read sentinel .fresh ((a ++ ['&']) :: ls) = read sentinel (.statement a) ls := by
  have htrimmed : trimmed [] (a ++ ['&']) = a ++ ['&'] := trimmed_concat ha
  have hlast : (trimmed [] (a ++ ['&'])).getLast? = some '&' := by rw [htrimmed, List.getLast?_concat]
  rw [read, readLine, start_of_head? hsentinel (head?_dropWhile_append hl _) hc hc', readText_of_last hlast, htrimmed,
    List.dropLast_concat, List.nil_append, Option.bind_some]
  exact Option.map_id'

theorem spoiled_concat (hsentinel : IsSentinel sentinel) (hl : (a.dropWhile isBlank).head? = some c) (hc : c ≠ '!')
    (hc' : c ≠ '&') (ha : beforeComment none none a ≠ a) (hlast : (trimmed [] a).getLast? ≠ some '&') (s : List Char)
    (ls : List (List Char)) : Spoiled (read sentinel .fresh ((a ++ ['&']) :: ('&' :: s) :: ls)) := by
  have ha : beforeComment none (context none []) a ≠ a := ha
  have happend : trimmed [] (a ++ ['&']) = trimmed [] a := trimmed_append_of_ne ha ['&']
  rw [← happend] at hlast
  rw [read, readLine, start_of_head? hsentinel (head?_dropWhile_append hl _) hc hc', readText_of_ne hlast,
    Option.bind_some]
  exact (spoiled_fresh hsentinel s ls).map _

/-- A line of blanks with an ampersand. -/
theorem read_blanks (hsentinel : IsSentinel sentinel) (ha : a.dropWhile isBlank = []) (ls : List (List Char)) :
    read sentinel .fresh ((a ++ ['&']) :: ls) = none := by
  have hblanks := List.dropWhile_eq_nil_iff.1 ha
  have hhead : ((a ++ ['&']).dropWhile isBlank).head? = some '&' := by
    rw [List.dropWhile_append_of_pos hblanks]
    rfl
  have hlone : loneAmpersand [] (a ++ ['&']) = true := by
    have hnil : a.filter (fun c => !isBlank c) = [] := List.filter_eq_nil_iff.2 (by simpa using hblanks)
    rw [loneAmpersand, beforeComment_append (beforeComment_blanks hblanks _), List.filter_append, hnil,
      beforeComment_cons (.inr (startsComment_of_ne (by decide)))]
    rfl
  rw [read, readLine, start, sentinel_eq_none hsentinel (by rw [hhead]; decide)]
  dsimp only
  rw [isComment_of_head? hhead (by decide), if_neg Bool.false_ne_true, hlone, if_pos rfl]
  rfl

/-- A directive that is cut. -/
theorem spoiled_cut (hsentinel : IsSentinel sentinel) (hl : (l.dropWhile isBlank).head? = some '!') (s : List Char)
    (ls : List (List Char)) : Spoiled (read sentinel .fresh (l :: ('&' :: s) :: ls)) := by
  rw [read, readLine, start]
  split
  · next mark content _ =>
    rw [Option.bind_some]
    by_cases hlast : (trimmed [] content).getLast? = some '&'
    · rw [readText_of_last hlast]
      exact (spoiled_directive hsentinel _ _ s ls).map []
    · rw [readText_of_ne hlast]
      exact (spoiled_fresh hsentinel s ls).map _
  · rw [if_pos (by rw [isComment, hl]; rfl)]
    exact (spoiled_fresh hsentinel s ls).map []

end

end OmpSs.Lib.FreeForm
