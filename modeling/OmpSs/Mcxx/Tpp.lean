import OmpSs.Lib.TextLines
import Mathlib.Logic.Function.Basic

/-!
# The preprocessor of the grammars

`tpp` copies a file and leaves out the blocks between `/*!if A*/` or `/*!ifnot A*/` and `/*!endif*/` whose
condition does not hold; `/*!define A*/`, `/*!undefine A*/` and `/*!include name*/` are the other directives.
`conditional_process` reads a line with `fgets` into a buffer of `MAX_TEXT_LINE` characters, matches six
regular expressions against it one after the other, and keeps an array with a flag for each open block.
`step` is one round of its loops. It fails where the code exits, and where it indexes the array out of its
bounds. Source: `conditional_process` (`tpp.c:165-476`).
-/

namespace OmpSs.Mcxx.Tpp

open OmpSs.Lib

def MAX_TEXT_LINE : Nat := 1024
def MAX_INCLUDE_NESTING : Nat := 32
def MAX_IF_NESTING : Nat := 32
def MAX_DEFINES : Nat := 32

/-! ## The regular expressions

They are compiled with `REG_NEWLINE`: a list of characters does not match a newline, `$` matches before one. A
buffer has no newline but at its end.
-/

/-- `[[:blank:]]` -/
def isBlank (c : Char) : Bool := c == ' ' || c == '\t'

/-- `[^[:blank:]*]` -/
def isNameChar (c : Char) : Bool := !isBlank c && c != '*' && c != '\n'

/-- `[[:blank:]]*[*]/[[:blank:]]*$` -/
def matchClose (s : List Char) : Bool :=
  match s.dropWhile isBlank with
  | '*' :: '/' :: r => ((r.dropWhile isBlank).head?.all (· == '\n'))
  | _ => false

/-- `^[[:blank:]]*/[*]!keyword`, and what follows it. -/
def matchKeyword (keyword : String) (s : List Char) : Option (List Char) :=
  (s.dropWhile isBlank).dropPrefix? ("/*!".toList ++ keyword.toList)

/-- `^[[:blank:]]*/[*]!keyword[[:blank:]]+([^[:blank:]*]+)[[:blank:]]*[*]/[[:blank:]]*$`, and what the group in
parentheses matches. -/
def matchOperand (keyword : String) (s : List Char) : Option (List Char) :=
  (matchKeyword keyword s).bind fun r =>
    let name := (r.dropWhile isBlank).takeWhile isNameChar
    if r.head?.any isBlank ∧ name ≠ [] ∧ matchClose ((r.dropWhile isBlank).dropWhile isNameChar) then some name
    else none

/-- `^[[:blank:]]*/[*]!endif[[:blank:]]*[*]/[[:blank:]]*$` -/
def matchEndif (s : List Char) : Bool := (matchKeyword "endif" s).any matchClose

/-- What a line says. -/
inductive Directive
  | includeFile (name : List Char)
  | define (name : List Char)
  | undefine (name : List Char)
  | ifDefined (name : List Char)
  | ifNotDefined (name : List Char)
  | endif
  | text
deriving DecidableEq

/-- The order of the tests in the source; the first three are made where the output is enabled. -/
def classify (enabled : Bool) (s : List Char) : Directive :=
  ((if enabled then
      ((matchOperand "include" s).map Directive.includeFile).or
        (((matchOperand "define" s).map Directive.define).or
          ((matchOperand "undefine" s).map Directive.undefine))
    else none).or
    (((matchOperand "if" s).map Directive.ifDefined).or
      (((matchOperand "ifnot" s).map Directive.ifNotDefined).or
        (if matchEndif s then some Directive.endif else none)))).getD Directive.text

/-! ## The state -/

/-- The string in an array of characters: it ends at the first null character. -/
def cstr (s : List Char) : List Char := s.takeWhile (· != '\x00')

/-- `file_description_t`. The stream is what has been read of the current line and what follows. -/
structure InputFile where
  name : List Char
  line : Nat
  start : List Char
  rest : List Char

/-- `input_stack` has its top first. -/
structure State where
  input_stack : List InputFile
  block_nesting : Int
  output_enable_stack : Fin MAX_IF_NESTING → Bool
  defines : List (List Char)
  output : List Char

inductive Failure
  | tooMuchIncludeNesting
  | couldNotOpenIncludedFile (name : List Char)
  | tooManyDefines
  | tooManyEndif
  | unpaired (block_nesting : Int)
  | outOfBounds
deriving DecidableEq

/-- The options, and the files that `fopen` opens. `include_dirs` are those of the options `-I`; the first one
searched is `"."`. -/
structure Options where
  include_dirs : List (List Char)
  enable_line_markers : Bool
  fopen : List Char → Option (List Char)

namespace State

/-- `output_enable_stack[i]` -/
def outputEnable (s : State) (i : Int) : Except Failure Bool :=
  if h : 0 ≤ i ∧ i.toNat < MAX_IF_NESTING then .ok (s.output_enable_stack ⟨i.toNat, h.2⟩)
  else .error .outOfBounds

/-- `output_enable_stack[i] = b` -/
def setOutputEnable (s : State) (i : Int) (b : Bool) : Except Failure State :=
  if h : 0 ≤ i ∧ i.toNat < MAX_IF_NESTING then
    .ok { s with output_enable_stack := Function.update s.output_enable_stack ⟨i.toNat, h.2⟩ b }
  else .error .outOfBounds

/-- `fprintf(output, "%s", text)` -/
def print (s : State) (text : List Char) : State := { s with output := s.output ++ text }

/-- `#line n "name"` -/
def lineMarker (n : Nat) (name : List Char) : List Char :=
  "#line ".toList ++ (toString n).toList ++ " \"".toList ++ name ++ "\"\n".toList

end State

namespace Options

/-- The first directory in which the file can be opened, as its path and what is in it. The path is cut by
`snprintf(full_path, 511, ..)`. -/
def findInclude (o : Options) (include_name : List Char) : Option (List Char × List Char) :=
  (".".toList :: o.include_dirs).findSome? fun dir =>
    let full_path := (dir ++ "/".toList ++ include_name).take 510
    (o.fopen full_path).map fun content => (full_path, content)

/-- Opens an included file. Source: `tpp.c:265-313`. -/
def includeFile (o : Options) (s : State) (include_name : List Char) : Except Failure State :=
  if s.input_stack.length = MAX_INCLUDE_NESTING then .error .tooMuchIncludeNesting
  else
    match o.findInclude include_name with
    | none => .error (.couldNotOpenIncludedFile include_name)
    | some (full_path, content) =>
      .ok ({ s with input_stack := ⟨full_path, 0, [], content⟩ :: s.input_stack }.print
        (if o.enable_line_markers then State.lineMarker 1 full_path else ['\n']))

end Options

namespace State

/-- Source: `tpp.c:327-348`. -/
def define (s : State) (define_name : List Char) : Except Failure State :=
  if define_name ∈ s.defines then .ok (s.print ['\n'])
  else if s.defines.length = MAX_DEFINES then .error .tooManyDefines
  else .ok ({ s with defines := s.defines ++ [define_name] }.print ['\n'])

/-- The first entry of the table that has the name goes. Source: `tpp.c:362-385`. -/
def undefine (s : State) (define_name : List Char) : State :=
  { s with defines := s.defines.erase define_name }.print ['\n']

/-- A block begins; `holds` is its own condition. Source: `tpp.c:389-441`. -/
def openBlock (s : State) (holds : Bool) : Except Failure State := do
  let s := { s with block_nesting := s.block_nesting + 1 }
  let parent ← s.outputEnable (s.block_nesting - 1)
  let s ← s.setOutputEnable s.block_nesting (holds && parent)
  return s.print ['\n']

/-- Source: `tpp.c:442-451`. -/
def endif (s : State) : Except Failure State :=
  let s := { s with block_nesting := s.block_nesting - 1 }
  if s.block_nesting < 0 then .error .tooManyEndif else .ok (s.print ['\n'])

end State

/-- What is done with a line in the buffer. Source: `tpp.c:257-459`. -/
def processLine (o : Options) (s : State) (buffer : List Char) : Except Failure State := do
  let enabled ← s.outputEnable s.block_nesting
  match classify enabled (cstr buffer) with
  | .includeFile name => o.includeFile s name
  | .define name => s.define name
  | .undefine name => return s.undefine name
  | .ifDefined name => s.openBlock (decide (name ∈ s.defines))
  | .ifNotDefined name => s.openBlock (decide (name ∉ s.defines))
  | .endif => s.endif
  | .text => return s.print (if enabled then cstr buffer else ['\n'])

namespace InputFile

/-- `fgets(buffer, MAX_TEXT_LINE, file)` -/
def buffer (f : InputFile) : List Char := (fgets (MAX_TEXT_LINE - 1) f.rest).1

/-- The stream after a `fgets`, and one more line counted. -/
def next (f : InputFile) : InputFile :=
  let (buffer, rest) := fgets (MAX_TEXT_LINE - 1) f.rest
  { f with
    line := f.line + 1
    start := if buffer.getLast? = some '\n' ∨ rest = [] then [] else f.start ++ buffer
    rest }

end InputFile

/-- The top of the stack is at its end. Source: `tpp.c:462-475`. -/
def close (o : Options) (s : State) : Except Failure State :=
  match s.input_stack.tail with
  | [] => if s.block_nesting > 0 then .error (.unpaired s.block_nesting) else .ok { s with input_stack := [] }
  | f :: fs => .ok ({ s with input_stack := f :: fs }.print
      (if o.enable_line_markers then State.lineMarker (f.line + 1) f.name else []))

/-- A round of the inner loop, or the end of a file; `none` when no file is left. -/
def step (o : Options) (s : State) : Option (Except Failure State) :=
  match s.input_stack with
  | [] => none
  | f :: fs =>
    if f.rest = [] then some (close o s)
    else some (processLine o { s with input_stack := f.next :: fs } f.buffer)

/-- The start of `conditional_process`, with the definitions of the options `-D`. -/
def init (input_filename content : List Char) (defines : List (List Char)) : State where
  input_stack := [⟨input_filename.take 511, 0, [], content⟩]
  block_nesting := 0
  output_enable_stack i := i.val == 0
  defines
  output := []

end OmpSs.Mcxx.Tpp
