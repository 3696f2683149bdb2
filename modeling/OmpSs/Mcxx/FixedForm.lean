import Mathlib.Data.List.DropRight

/-!
# The prescanner of the fixed form

The lines of a Fortran program in fixed form are cut at a width, or padded to it (`cutLine`); the comments that
are whole lines get an exclamation mark in their first column (`convertWholeLineComment`); continuation lines are
joined to the line they continue (`joinContinuatedLines`). At last, lines longer than the width are cut again, as
the free form has it (`continuateLines`). Source: `prescanner-process.c`.
-/

namespace OmpSs.Mcxx.FixedForm

/-- Source: `prescanner_t` (`prescanner-process-decls.h:38`). -/
structure Prescanner where
  width : Nat
  pad_strings : Bool

/-- A line of the file. Source: `line_t` (`prescanner-process.c:69`). -/
structure Line where
  line : List Char
  line_number : Nat
  joined_lines : Nat
  deriving DecidableEq

/-- Source: `trim_right` (`prescanner-process.c:766`). -/
def trimRight (c : List Char) : List Char := c.rdropWhile (· == ' ')

/-! ## Cutting lines -/

/-- Source: `is_tab_form` (`prescanner-process.c:611`). -/
def isTabForm (c : List Char) : Bool := (c.take 6).contains '\t'

/-- A line in which a tab ends the label. A digit other than zero after it marks a continuation line. Source:
`normalize_line` (`prescanner-process.c:853`). -/
def normalizeLine (c : List Char) : List Char :=
  let label := (c.take 5).takeWhile (· != '\t')
  let p := if label.length < 5 then c.drop (label.length + 1) else c.drop 5
  match p with
  | d :: p' =>
    if !d.isDigit || d == '0' then label ++ List.replicate (5 - label.length) ' ' ++ ' ' :: p
    else List.replicate 5 ' ' ++ d :: p'
  | [] => label ++ List.replicate (5 - label.length) ' ' ++ [' ']

def isLineInformation (c : List Char) : Bool := (c.dropWhile fun d => d == ' ' || d == '\t').head? == some '#'

/-- The columns up to the width. -/
def fit (prescanner : Prescanner) (c : List Char) : List Char :=
  let c := if isTabForm c then normalizeLine c else c
  let c := c.take prescanner.width
  if prescanner.pad_strings then c ++ List.replicate (prescanner.width - c.length) ' ' else c

/-- Source: `cut_lines` (`prescanner-process.c:623`). -/
def cutLine (prescanner : Prescanner) (c : List Char) : List Char :=
  if isLineInformation c then c else fit prescanner c

/-! ## Comments -/

/-- `match_starting_comment`: a line that begins with `d`, `c` or `*`, or with an exclamation mark anywhere but in
the sixth column. -/
def matchStartingComment (s : List Char) : Bool :=
  let k := (s.takeWhile (· == ' ')).length
  s.head?.any (fun d => d.toLower == 'c' || d.toLower == 'd' || d == '*') || (k != 5 && s[k]? == some '!')

/-- Source: `convert_whole_line_comments` (`prescanner-process.c:297`). -/
def convertWholeLineComment (c : List Char) : List Char :=
  if matchStartingComment c then
    let c := if c.head?.any fun d => d.toLower == 'c' || d.toLower == 'd' || d == '*' then c.set 0 '!' else c
    if c.head? = some '!' then c
    else (c.set 0 '!').set (c.takeWhile (· == ' ')).length ' '
  else c

/-- The scan over a line: what stands before its comment, and whether a string is left open. Source:
`trim_inline_comment` (`prescanner-process.c:505`). -/
def trimInlineComment : Option Char → List Char → List Char × Bool
  | delim_string, [] => ([], delim_string.isSome)
  | none, c :: p =>
    if c = '\'' ∨ c = '"' then (trimInlineComment (some c) p).map (c :: ·) id
    else if c = '!' ∧ p.head? ≠ some '$' then ([], false)
    else (trimInlineComment none p).map (c :: ·) id
  | some delim_string, c :: p =>
    if c = delim_string then
      match p with
      | c' :: p' =>
        -- A doubled delimiter does not end the string.
        if c' = delim_string then (trimInlineComment (some delim_string) p').map (c :: c' :: ·) id
        else (trimInlineComment none (c' :: p')).map (c :: ·) id
      | [] => ([c], false)
    else (trimInlineComment (some delim_string) p).map (c :: ·) id

/-! ## Joining lines -/

/-- A conditional compilation line or a directive. -/
def isDirective (c : List Char) : Bool :=
  c.take 3 == ['!', '$', ' '] || (c.take 5).map Char.toLower == ['!', '$', 'o', 'm', 'p']

/-- `match_continuated`: a line that continues another one. -/
def matchContinuated (s : List Char) : Bool :=
  (s.take 5 == List.replicate 5 ' ' || (s.take 5).map Char.toLower == ['!', '$', 'o', 'm', 'p'] ||
    s.take 5 == ['!', '$', ' ', ' ', ' ']) &&
    s[5]?.any fun d => d != '0' && d != ' ' && d != '\t'

def ignoredLine (c : List Char) : Bool :=
  isLineInformation c || (c.head? == some '!' && !isDirective c)

/-- `discarded` are the lines between the two. Source: `join_two_lines` (`prescanner-process.c:435`). -/
def joinTwoLines (prescanner : Prescanner) (starting_line : Line) (discarded : List Line) (continuation_line : Line) :
    Line :=
  let (line, unended_string) :=
    if isDirective starting_line.line then
      (trimInlineComment none (starting_line.line.drop 6)).map (starting_line.line.take 6 ++ ·) id
    else trimInlineComment none starting_line.line
  let line := if prescanner.pad_strings && !unended_string then trimRight line else line
  { starting_line with
    line := line ++ continuation_line.line.drop 6
    joined_lines := starting_line.joined_lines + discarded.length + 1 }

/-- The annoying zero. -/
def blankZero (l : Line) : Line := if l.line[5]? = some '0' then { l with line := l.line.set 5 ' ' } else l

/-- The lines that are left; `previous_line` is the last one that can be continued, with the lines that were
ignored since. There is no result for a continuation line that is the first. Source: `join_continuated_lines`
(`prescanner-process.c:338`). -/
def joinContinuatedLines (prescanner : Prescanner) : Option Line → List Line → List Line → Option (List Line)
  | previous_line, ignored, [] => some (previous_line.toList ++ ignored)
  | previous_line, ignored, iter :: next =>
    if matchContinuated iter.line then
      previous_line.bind fun previous_line =>
        joinContinuatedLines prescanner (some (joinTwoLines prescanner previous_line ignored iter)) [] next
    else if ignoredLine iter.line then
      joinContinuatedLines prescanner previous_line (ignored ++ [iter]) next
    else
      (joinContinuatedLines prescanner (some (blankZero iter)) [] next).map (previous_line.toList ++ ignored ++ ·)

/-- The lines of a file up to the join. Source: `fortran_prescanner_process` (`prescanner-process.c:102`). -/
def joinedLines (prescanner : Prescanner) (file_lines : List Line) : Option (List Line) :=
  joinContinuatedLines prescanner none []
    (file_lines.map fun l => { l with line := convertWholeLineComment (cutLine prescanner l.line) })

/-! ## Continuing lines -/

/-- The loop over the lines, of which each that is too long gets a new one after it, run for a number of rounds.
Source: `continuate_lines` (`prescanner-process.c:928`). -/
def continuateLines (prescanner : Prescanner) : Nat → List Line → Option (List Line)
  | _, [] => some []
  | 0, _ :: _ => none
  | fuel + 1, iter :: next =>
    let line := trimRight iter.line
    if prescanner.width < line.length then
      let new_line := Line.mk ('&' :: line.drop prescanner.width) 0 (iter.joined_lines - 1)
      (continuateLines prescanner fuel (new_line :: next)).map
        ({ iter with line := line.take prescanner.width ++ ['&'], joined_lines := 0 } :: ·)
    else (continuateLines prescanner fuel next).map ({ iter with line } :: ·)

end OmpSs.Mcxx.FixedForm
