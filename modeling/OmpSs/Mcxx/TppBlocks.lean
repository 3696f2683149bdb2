import OmpSs.Lib.Run
import OmpSs.Mcxx.Tpp
import Mathlib.Data.List.TakeWhile
import Mathlib.Data.Set.Basic

/-!
# The blocks of a grammar

What `tpp` is for, in terms of lines: a block has a condition, which is decided where it opens, a line is
copied where the conditions of all blocks around it hold, and for every line one is written (`Copy.Step`).
`conditional_process` does this (`conditionalProcess_copies`) in every run whose lines meet `LineOk`: they
fit in the buffer, blocks are nested less than `MAX_IF_NESTING` deep, and what is undefined was defined once.
Nothing in the code sees to the last two, and a longer line is taken for several ones.
-/

namespace OmpSs.Mcxx.Tpp

open OmpSs.Lib

/-! ## Copying a text -/

/-- What is written: one line for a line, or the place where a file is included or ends. -/
inductive Entry
  | line (l : List Char)
  | marker (m : List Char)

def Entry.text : Entry → List Char
  | .line l => l
  | .marker m => m

def Entry.Terminated : Entry → Prop
  | .line l => IsLine l
  | .marker m => m.getLast? = some '\n'

/-- The conditions of the open blocks, the innermost first, each as it was where its block opened; the names
that are defined; what has been written. -/
structure Blocks where
  conditions : List Prop
  defined : Set (List Char)
  written : List Entry

/-- The conditions of all blocks hold. -/
def AllHold (conditions : List Prop) : Prop := ∀ p ∈ conditions, p

/-- The directive of a line. -/
def directive (l : List Char) : Directive := classify true (cstr l)

/-- A line that includes no file. -/
inductive Blocks.Read (l : List Char) : Blocks → Blocks → Prop
  | text {c d w} : directive l = .text → AllHold c → Read l ⟨c, d, w⟩ ⟨c, d, w ++ [.line l]⟩
  | skippedText {c d w} : directive l = .text → ¬ AllHold c → Read l ⟨c, d, w⟩ ⟨c, d, w ++ [.line ['\n']]⟩
  | skippedInclude {c d w name} : directive l = .includeFile name → ¬ AllHold c →
      Read l ⟨c, d, w⟩ ⟨c, d, w ++ [.line ['\n']]⟩
  | define {c d w name} : directive l = .define name →
      Read l ⟨c, d, w⟩ ⟨c, {m | m ∈ d ∨ m = name ∧ AllHold c}, w ++ [.line ['\n']]⟩
  | undefine {c d w name} : directive l = .undefine name →
      Read l ⟨c, d, w⟩ ⟨c, {m | m ∈ d ∧ ¬ (m = name ∧ AllHold c)}, w ++ [.line ['\n']]⟩
  | ifDefined {c d w name} : directive l = .ifDefined name →
      Read l ⟨c, d, w⟩ ⟨(name ∈ d) :: c, d, w ++ [.line ['\n']]⟩
  | ifNotDefined {c d w name} : directive l = .ifNotDefined name →
      Read l ⟨c, d, w⟩ ⟨(name ∉ d) :: c, d, w ++ [.line ['\n']]⟩
  | endif {p c d w} : directive l = .endif → Read l ⟨p :: c, d, w⟩ ⟨c, d, w ++ [.line ['\n']]⟩

/-- The lines left of each open file, that of the innermost `!include` first. -/
structure Copy where
  files : List (List (List Char))
  blocks : Blocks

inductive Copy.Step (contents : List Char → Option (List Char)) : Copy → Copy → Prop
  | line {l ls fs b b'} : Blocks.Read l b b' → Step contents ⟨(l :: ls) :: fs, b⟩ ⟨ls :: fs, b'⟩
  | includeFile {l ls fs c d w name text} (m : List Char) : directive l = .includeFile name → AllHold c →
      contents name = some text →
      Step contents ⟨(l :: ls) :: fs, ⟨c, d, w⟩⟩ ⟨lines text :: ls :: fs, ⟨c, d, w ++ [.marker m]⟩⟩
  | close {fs c d w} (m : Option (List Char)) :
      Step contents ⟨[] :: fs, ⟨c, d, w⟩⟩ ⟨fs, ⟨c, d, w ++ (m.map Entry.marker).toList⟩⟩

def Copy.init (content : List Char) (defines : List (List Char)) : Copy :=
  ⟨[lines content], [], {m | m ∈ defines}, []⟩

/-! ## The directives exclude one another -/

section
variable {keyword other : String} {s l : List Char}

/-- A text does not begin with two keywords, if neither begins with the other. -/
theorem matchKeyword_eq_none (h : matchKeyword keyword s ≠ none)
    (hne : ¬ "/*!".toList ++ keyword.toList <+: "/*!".toList ++ other.toList)
    (hne' : ¬ "/*!".toList ++ other.toList <+: "/*!".toList ++ keyword.toList) :
    matchKeyword other s = none := by
  obtain ⟨r, hr⟩ := Option.ne_none_iff_exists'.1 h
  by_contra ho
  obtain ⟨r', hr'⟩ := Option.ne_none_iff_exists'.1 ho
  obtain ⟨_, hs, heq⟩ := List.dropPrefix?_eq_some_iff.1 hr
  obtain ⟨_, hs', heq'⟩ := List.dropPrefix?_eq_some_iff.1 hr'
  obtain rfl := eq_of_beq heq
  obtain rfl := eq_of_beq heq'
  exact (List.prefix_or_prefix_of_prefix ⟨r, hs.symm⟩ ⟨r', hs'.symm⟩).elim hne hne'

theorem matchOperand_eq_none (h : matchKeyword keyword s = none) : matchOperand keyword s = none := by
  rw [matchOperand, h, Option.bind_none]

theorem matchEndif_eq_false (h : matchKeyword "endif" s = none) : matchEndif s = false := by
  rw [matchEndif, h, Option.any_none]

/-- The tests of the second half fail on a line for which one of the first half succeeds. -/
theorem classify_false_of_matchKeyword (h : matchKeyword keyword s ≠ none)
    (hk : keyword = "include" ∨ keyword = "define" ∨ keyword = "undefine") :
    classify false s = .text := by
  have hif : matchKeyword "if" s = none := by
    rcases hk with rfl | rfl | rfl <;> exact matchKeyword_eq_none h (by decide) (by decide)
  have hifnot : matchKeyword "ifnot" s = none := by
    rcases hk with rfl | rfl | rfl <;> exact matchKeyword_eq_none h (by decide) (by decide)
  have hendif : matchKeyword "endif" s = none := by
    rcases hk with rfl | rfl | rfl <;> exact matchKeyword_eq_none h (by decide) (by decide)
  rw [classify, matchOperand_eq_none hif, matchOperand_eq_none hifnot, matchEndif_eq_false hendif]
  rfl

theorem classify_false_of_matchOperand (h : matchOperand keyword s ≠ none)
    (hk : keyword = "include" ∨ keyword = "define" ∨ keyword = "undefine") :
    classify false s = .text :=
  classify_false_of_matchKeyword (fun hn => h (matchOperand_eq_none hn)) hk

/-- Where the output is not enabled, the lines to include a file, to define or to undefine are text. -/
theorem classify_false (s : List Char) : classify false s =
    match classify true s with
    | .includeFile _ | .define _ | .undefine _ => .text
    | d => d := by
  cases hinc : matchOperand "include" s with
  | some name =>
    rw [classify_false_of_matchOperand (by rw [hinc]; exact Option.some_ne_none _) (.inl rfl)]
    simp [classify, hinc]
  | none =>
  cases hdef : matchOperand "define" s with
  | some name =>
    rw [classify_false_of_matchOperand (by rw [hdef]; exact Option.some_ne_none _) (.inr (.inl rfl))]
    simp [classify, hinc, hdef]
  | none =>
  cases hund : matchOperand "undefine" s with
  | some name =>
    rw [classify_false_of_matchOperand (by rw [hund]; exact Option.some_ne_none _) (.inr (.inr rfl))]
    simp [classify, hinc, hdef, hund]
  | none =>
    have heq : classify true s = classify false s := by simp [classify, hinc, hdef, hund]
    rw [heq]
    cases hif : matchOperand "if" s <;> cases hifnot : matchOperand "ifnot" s <;>
      cases hendif : matchEndif s <;> simp [classify, hif, hifnot, hendif]

theorem cstr_of_notMem (h : '\x00' ∉ s) : cstr s = s :=
  List.takeWhile_eq_self_iff.2 fun c hc => by
    rw [bne_iff_ne]
    rintro rfl
    exact h hc

end

/-! ## The flags of the blocks -/

/-- The block's own line and those around it are copied. -/
def State.Enabled (s : State) : Prop := s.outputEnable s.block_nesting = .ok true

instance (s : State) : Decidable s.Enabled :=
  inferInstanceAs (Decidable (s.outputEnable s.block_nesting = .ok true))

/-- The flags of the open blocks say where all conditions hold; `pending` is what has been written of a line
that is not finished. -/
structure Matches (s : State) (b : Blocks) (pending : List Char) : Prop where
  nesting : s.block_nesting = b.conditions.length
  bound : b.conditions.length < MAX_IF_NESTING
  enable : ∀ i : Fin MAX_IF_NESTING, i.val ≤ b.conditions.length →
    (s.output_enable_stack i = true ↔ AllHold (b.conditions.drop (b.conditions.length - i)))
  defines : ∀ name, name ∈ s.defines ↔ name ∈ b.defined
  output : s.output = b.written.flatMap Entry.text ++ pending

section
variable {o : Options} {s s' : State} {b : Blocks} {pending text l name : List Char} {x : Entry}
  {holds e : Bool} {p : Prop} {n : Nat}

theorem outputEnable_ofNat (hn : n < MAX_IF_NESTING) :
    s.outputEnable n = .ok (s.output_enable_stack ⟨n, hn⟩) := by
  unfold State.outputEnable
  rw [dif_pos ⟨Int.natCast_nonneg n, hn⟩]
  rfl

theorem setOutputEnable_ofNat (hn : n < MAX_IF_NESTING) : s.setOutputEnable n e =
    .ok { s with output_enable_stack := Function.update s.output_enable_stack ⟨n, hn⟩ e } := by
  unfold State.setOutputEnable
  rw [dif_pos ⟨Int.natCast_nonneg n, hn⟩]
  rfl

/-- The flag read for a line. -/
theorem Matches.exists_outputEnable (h : Matches s b pending) :
    ∃ e, s.outputEnable s.block_nesting = .ok e ∧ (e = true ↔ AllHold b.conditions) := by
  refine ⟨_, ?_, h.enable ⟨_, h.bound⟩ (Nat.le_refl _) |>.trans (by rw [Nat.sub_self, List.drop_zero])⟩
  rw [h.nesting]
  exact outputEnable_ofNat h.bound

theorem Matches.enabled_iff (h : Matches s b pending) : s.Enabled ↔ AllHold b.conditions := by
  obtain ⟨e, he, hiff⟩ := h.exists_outputEnable
  rw [State.Enabled, he, ← hiff, Except.ok.injEq]

theorem Matches.print (h : Matches s b pending) (text : List Char) : Matches (s.print text) b (pending ++ text) where
  __ := h
  output := by
    rw [State.print, h.output, List.append_assoc]

/-- What is pending becomes an entry. -/
theorem Matches.entry (h : Matches s b pending) (hentry : x.text = pending) :
    Matches s { b with written := b.written ++ [x] } [] where
  __ := h
  output := by
    rw [List.flatMap_append, List.flatMap_singleton, hentry, List.append_nil]
    exact h.output

theorem Matches.newline (h : Matches s b []) :
    Matches (s.print ['\n']) { b with written := b.written ++ [.line ['\n']] } [] :=
  (h.print ['\n']).entry rfl

theorem Matches.define (h : Matches s b []) (henabled : AllHold b.conditions) (hs : s.define name = .ok s') :
    Matches s' ⟨b.conditions, {m | m ∈ b.defined ∨ m = name ∧ AllHold b.conditions},
      b.written ++ [.line ['\n']]⟩ [] := by
  unfold State.define at hs
  split at hs
  · next hmem =>
    obtain rfl := Except.ok.inj hs
    refine { h.newline with defines := fun m => (h.defines m).trans ⟨.inl, ?_⟩ }
    rintro (hm | ⟨rfl, -⟩)
    · exact hm
    · exact (h.defines m).1 hmem
  · split at hs
    · cases hs
    · obtain rfl := Except.ok.inj hs
      refine { h.newline with defines := fun m => ?_ }
      have hmem : m ∈ s.defines ++ [name] ↔ m ∈ b.defined ∨ m = name := by
        rw [List.mem_append, List.mem_singleton, h.defines m]
      exact hmem.trans (or_congr_right (iff_self_and.2 fun _ => henabled))

theorem Matches.undefine (h : Matches s b []) (henabled : AllHold b.conditions) (hcount : s.defines.count name ≤ 1) :
    Matches (s.undefine name) ⟨b.conditions, {m | m ∈ b.defined ∧ ¬ (m = name ∧ AllHold b.conditions)},
      b.written ++ [.line ['\n']]⟩ [] := by
  refine { h.newline with defines := fun m => ?_ }
  change m ∈ s.defines.erase name ↔ m ∈ b.defined ∧ ¬ (m = name ∧ AllHold b.conditions)
  rw [← h.defines m]
  by_cases hm : m = name
  · subst hm
    refine iff_of_false (fun hmem => ?_) fun hm => hm.2 ⟨rfl, henabled⟩
    have hpos := List.count_pos_iff.2 hmem
    rw [List.count_erase_self] at hpos
    omega
  · rw [List.mem_erase_of_ne hm]
    exact ⟨fun hmem => ⟨hmem, fun h' => hm h'.1⟩, And.left⟩

theorem allHold_cons {c : List Prop} : AllHold (p :: c) ↔ p ∧ AllHold c := List.forall_mem_cons

theorem openBlock_eq (hnesting : s.block_nesting = n) (hn : n + 1 < MAX_IF_NESTING) : s.openBlock holds =
    .ok (State.print { s with
      block_nesting := n + 1
      output_enable_stack := Function.update s.output_enable_stack ⟨n + 1, hn⟩
        (holds && s.output_enable_stack ⟨n, Nat.lt_of_succ_lt hn⟩) } ['\n']) := by
  have hget : State.outputEnable { s with block_nesting := s.block_nesting + 1 } (s.block_nesting + 1 - 1) =
      .ok (s.output_enable_stack ⟨n, Nat.lt_of_succ_lt hn⟩) := by
    rw [Int.add_sub_cancel, hnesting]
    exact outputEnable_ofNat _
  have hset : ∀ e, State.setOutputEnable { s with block_nesting := s.block_nesting + 1 } (s.block_nesting + 1) e =
      .ok { s with
        block_nesting := n + 1
        output_enable_stack := Function.update s.output_enable_stack ⟨n + 1, hn⟩ e } := by
    intro e
    rw [hnesting]
    exact setOutputEnable_ofNat hn
  unfold State.openBlock
  simp only [hget, hset, bind, Except.bind, pure, Except.pure]

/-- A block opens: its flag is its own condition and the flag of the block around it. -/
theorem Matches.openBlock (h : Matches s b []) (hnesting : s.block_nesting + 1 < MAX_IF_NESTING)
    (hp : holds = true ↔ p) : ∃ s', s.openBlock holds = .ok s' ∧ s'.input_stack = s.input_stack ∧
      Matches s' ⟨p :: b.conditions, b.defined, b.written ++ [.line ['\n']]⟩ [] := by
  have hlt : b.conditions.length + 1 < MAX_IF_NESTING := by
    have := h.nesting
    omega
  have hparent := h.enable ⟨_, h.bound⟩ (Nat.le_refl _)
  rw [Nat.sub_self, List.drop_zero] at hparent
  refine ⟨_, openBlock_eq h.nesting hlt, rfl, rfl, hlt, fun i hi => ?_, h.defines, h.newline.output⟩
  rw [List.length_cons] at hi ⊢
  rcases Nat.lt_or_eq_of_le hi with hi | hi
  · -- The flags below are those of before.
    have hne : i ≠ ⟨b.conditions.length + 1, hlt⟩ := Fin.ne_of_lt hi
    rw [Nat.succ_sub (Nat.le_of_lt_succ hi), List.drop_succ_cons, ← h.enable i (Nat.le_of_lt_succ hi)]
    change Function.update s.output_enable_stack _ _ i = true ↔ _
    rw [Function.update_of_ne hne]
  · obtain rfl : i = ⟨b.conditions.length + 1, hlt⟩ := Fin.ext hi
    change Function.update s.output_enable_stack _ _ _ = true ↔ _
    rw [Function.update_self, Bool.and_eq_true, hp, hparent, Nat.sub_self, List.drop_zero, allHold_cons]

theorem Matches.endif {c : List Prop} (h : Matches s ⟨p :: c, b.defined, b.written⟩ []) :
    ∃ s', s.endif = .ok s' ∧ s'.input_stack = s.input_stack ∧
      Matches s' ⟨c, b.defined, b.written ++ [.line ['\n']]⟩ [] := by
  have hnesting : s.block_nesting - 1 = c.length := by
    rw [h.nesting, List.length_cons]
    omega
  have hbound := h.bound
  rw [List.length_cons] at hbound
  refine ⟨_, if_neg ?_, rfl, hnesting, Nat.lt_of_succ_lt hbound, fun i hi => ?_, h.defines, h.newline.output⟩
  · change ¬ s.block_nesting - 1 < 0
    omega
  · have := h.enable i (Nat.le_succ_of_le hi)
    rwa [List.length_cons, Nat.succ_sub hi, List.drop_succ_cons] at this

theorem processLine_eq (he : s.outputEnable s.block_nesting = .ok e) : processLine o s l =
    match classify e (cstr l) with
    | .includeFile name => o.includeFile s name
    | .define name => s.define name
    | .undefine name => .ok (s.undefine name)
    | .ifDefined name => s.openBlock (decide (name ∈ s.defines))
    | .ifNotDefined name => s.openBlock (decide (name ∉ s.defines))
    | .endif => s.endif
    | .text => .ok (s.print (if e then cstr l else ['\n'])) := by
  unfold processLine
  rw [he]
  rfl

/-- What the code relies on for a line with the directive that it has as a whole in its buffer. -/
def Directive.Fits (s : State) (l : List Char) : Directive → Prop
  | .text => s.Enabled → '\x00' ∉ l
  | .ifDefined _ | .ifNotDefined _ => s.block_nesting + 1 < MAX_IF_NESTING
  | .undefine name => s.Enabled → s.defines.count name ≤ 1
  | .includeFile _ | .define _ | .endif => True

instance : (d : Directive) → Decidable (d.Fits s l)
  | .text => inferInstanceAs (Decidable (s.Enabled → '\x00' ∉ l))
  | .ifDefined _ | .ifNotDefined _ => inferInstanceAs (Decidable (s.block_nesting + 1 < MAX_IF_NESTING))
  | .undefine name => inferInstanceAs (Decidable (s.Enabled → s.defines.count name ≤ 1))
  | .includeFile _ | .define _ | .endif => .isTrue trivial

/-- What one round of the loop does, its outcome `r` for the line `l`. -/
def Outcome (s : State) (b : Blocks) (l : List Char) (r : Except Failure State) : Prop :=
  r ≠ .error .outOfBounds ∧ ∀ s', r = .ok s' →
    s'.input_stack = s.input_stack ∧ ∃ b', b.Read l b' ∧ Matches s' b' []

theorem Outcome.of_ok {b' : Blocks} (hstack : s'.input_stack = s.input_stack) (hread : b.Read l b')
    (h : Matches s' b' []) : Outcome s b l (.ok s') := by
  refine ⟨nofun, fun s'' hs => ?_⟩
  obtain rfl := Except.ok.inj hs
  exact ⟨hstack, b', hread, h⟩

theorem Matches.outcome_define (h : Matches s b []) (hall : AllHold b.conditions)
    (hl : directive l = .define name) : Outcome s b l (s.define name) := by
  refine ⟨?_, fun s' hs => ⟨?_, _, .define hl, h.define hall hs⟩⟩
  · unfold State.define
    split
    · nofun
    · split <;> nofun
  · unfold State.define at hs
    split at hs
    · exact Except.ok.inj hs ▸ rfl
    · split at hs
      · cases hs
      · exact Except.ok.inj hs ▸ rfl

theorem Matches.outcome_openBlock (h : Matches s b []) (hnesting : s.block_nesting + 1 < MAX_IF_NESTING)
    (hp : holds = true ↔ p)
    (hread : b.Read l ⟨p :: b.conditions, b.defined, b.written ++ [.line ['\n']]⟩) :
    Outcome s b l (s.openBlock holds) := by
  obtain ⟨s', hs', hstack, hmatches⟩ := h.openBlock hnesting hp
  rw [hs']
  exact .of_ok hstack hread hmatches

theorem Matches.outcome_endif (h : Matches s b []) (hl : directive l = .endif) : Outcome s b l s.endif := by
  obtain ⟨c, d, w⟩ := b
  cases c with
  | nil =>
    have herror : s.endif = .error .tooManyEndif := if_pos (by
      change s.block_nesting - 1 < 0
      rw [h.nesting]
      exact Int.sub_one_lt_of_le (Int.le_refl 0))
    rw [herror]
    exact ⟨nofun, nofun⟩
  | cons p c =>
    obtain ⟨s', hs', hstack, hmatches⟩ := Matches.endif (b := ⟨c, d, w⟩) h
    rw [hs']
    exact .of_ok hstack (.endif hl) hmatches

/-- A line that the code has as a whole and that includes no file is dealt with as it is meant. -/
theorem Matches.outcome (h : Matches s b []) (hfits : (directive l).Fits s l)
    (hinclude : ∀ name, directive l = .includeFile name → ¬ s.Enabled) : Outcome s b l (processLine o s l) := by
  obtain ⟨e, he, hall⟩ := h.exists_outputEnable
  have henabled : s.Enabled ↔ e = true := h.enabled_iff.trans hall.symm
  rw [processLine_eq he]
  have hclassify : classify e (cstr l) =
      if e then directive l else
        match directive l with
        | .includeFile _ | .define _ | .undefine _ => .text
        | d => d := by
    cases e with
    | true => rfl
    | false => exact classify_false _
  rw [hclassify]
  have hskip : e = false → ¬ AllHold b.conditions := fun hf ha => by
    rw [hall.2 ha] at hf
    cases hf
  cases hl : directive l with
  | includeFile name =>
    obtain rfl : e = false := Bool.eq_false_iff.2 fun ht => hinclude name hl (henabled.2 ht)
    exact .of_ok rfl (.skippedInclude hl (hskip rfl)) h.newline
  | define name =>
    cases e with
    | true => exact h.outcome_define (hall.1 rfl) hl
    | false =>
      refine .of_ok rfl (.define hl) { h.newline with defines := fun m => (h.defines m).trans ⟨.inl, ?_⟩ }
      rintro (hm | ⟨-, ha⟩)
      · exact hm
      · exact absurd ha (hskip rfl)
  | undefine name =>
    rw [hl] at hfits
    cases e with
    | true => exact .of_ok rfl (.undefine hl) (h.undefine (hall.1 rfl) (hfits (henabled.2 rfl)))
    | false =>
      refine .of_ok rfl (.undefine hl) { h.newline with
        defines := fun m => (h.defines m).trans ⟨fun hm => ⟨hm, fun ha => hskip rfl ha.2⟩, And.left⟩ }
  | ifDefined name =>
    rw [hl] at hfits
    have hp : decide (name ∈ s.defines) = true ↔ name ∈ b.defined := by
      rw [decide_eq_true_eq, h.defines]
    cases e <;> exact h.outcome_openBlock hfits hp (.ifDefined hl)
  | ifNotDefined name =>
    rw [hl] at hfits
    have hp : decide (name ∉ s.defines) = true ↔ name ∉ b.defined := by
      rw [decide_eq_true_eq, h.defines]
    cases e <;> exact h.outcome_openBlock hfits hp (.ifNotDefined hl)
  | endif => cases e <;> exact h.outcome_endif hl
  | text =>
    rw [hl] at hfits
    cases e with
    | true =>
      have hcstr : cstr l = l := cstr_of_notMem (hfits (henabled.2 rfl))
      refine .of_ok rfl (.text hl (hall.1 rfl)) (Matches.entry (h.print (cstr l)) ?_)
      rw [hcstr]
      rfl
    | false => exact .of_ok rfl (.skippedText hl (hskip rfl)) h.newline

/-- A piece of a line that is text, as the whole line is, is copied. -/
theorem Matches.processLine_piece (h : Matches s b pending) (henabled : s.Enabled) (htext : directive text = .text)
    (hno : '\x00' ∉ text) : processLine o s text = .ok (s.print text) ∧ Matches (s.print text) b (pending ++ text) := by
  refine ⟨?_, h.print text⟩
  have hcstr : cstr text = text := cstr_of_notMem hno
  unfold directive at htext
  rw [processLine_eq henabled, htext]
  change Except.ok (s.print (cstr text)) = _
  rw [hcstr]

end

/-! ## Reading a file -/

namespace InputFile

/-- The lines that are left, the one begun with what has been read of it. -/
def remaining (f : InputFile) : List (List Char) := lines (f.start ++ f.rest)

def currentLine (f : InputFile) : List Char := f.remaining.headD []

variable {f : InputFile}

/-- `fgets` finishes the line. -/
structure Finishes (f : InputFile) : Prop where
  buffer : f.start ++ f.buffer = f.currentLine
  start : f.next.start = []
  remaining : f.remaining = f.currentLine :: f.next.remaining

/-- A piece of the line is read. -/
structure Continues (f : InputFile) : Prop where
  start : f.next.start = f.start ++ f.buffer
  newline : '\n' ∉ f.next.start
  rest : f.next.rest ≠ []
  remaining : f.next.remaining = f.remaining
  long : MAX_TEXT_LINE ≤ f.currentLine.length
  buffer : ∃ l, f.currentLine = f.start ++ (f.buffer ++ l)

theorem next_start : f.next.start =
    if f.buffer.getLast? = some '\n' ∨ f.next.rest = [] then [] else f.start ++ f.buffer := rfl

theorem finishes_or_continues (hstart : '\n' ∉ f.start) (hrest : f.rest ≠ []) : f.Finishes ∨ f.Continues := by
  obtain ⟨r, ls, hr⟩ := exists_lines_eq_cons hrest
  have hremaining : f.remaining = (f.start ++ r) :: ls := lines_append_of_newline_notMem hstart hr
  have hline : f.currentLine = f.start ++ r := by
    rw [currentLine, hremaining]
    rfl
  rcases Nat.lt_or_ge (MAX_TEXT_LINE - 1) r.length with hlong | hshort
  · obtain ⟨hread, hno⟩ := fgets_of_lt hr hlong
    have hbuffer : f.buffer = r.take (MAX_TEXT_LINE - 1) := congrArg Prod.fst hread
    have hnext : f.next.rest = r.drop (MAX_TEXT_LINE - 1) ++ ls.flatten := congrArg Prod.snd hread
    have hne : f.next.rest ≠ [] := by
      rw [hnext]
      refine List.append_ne_nil_of_left_ne_nil (fun h => ?_) _
      have := List.drop_eq_nil_iff.1 h
      omega
    have hpiece : f.next.start = f.start ++ f.buffer := by
      rw [next_start, if_neg]
      rintro (h | h)
      · rw [hbuffer] at h
        exact hno (List.mem_of_getLast? h)
      · exact hne h
    refine .inr ⟨hpiece, ?_, hne, ?_, ?_, ⟨r.drop (MAX_TEXT_LINE - 1), ?_⟩⟩
    · rw [hpiece, hbuffer, List.mem_append]
      exact fun h => h.elim hstart hno
    · rw [remaining, remaining, hpiece, List.append_assoc]
      exact congrArg (fun u => lines (f.start ++ u)) (fgets_append _ _)
    · rw [hline, List.length_append]
      omega
    · rw [hline, hbuffer, List.take_append_drop]
  · have hread := fgets_of_le hr hshort
    have hbuffer : f.buffer = r := congrArg Prod.fst hread
    have hnext : f.next.rest = ls.flatten := congrArg Prod.snd hread
    have hlines : lines ls.flatten = ls ∧ (r.getLast? = some '\n' ∨ ls.flatten = []) := by
      rcases isLine_or_of_lines hr with hisLine | ⟨-, rfl, -, -⟩
      · have happend : lines (r ++ ls.flatten) = r :: lines ls.flatten := lines_append hisLine
        rw [← List.flatten_cons, ← hr, flatten_lines, hr, List.cons.injEq] at happend
        obtain ⟨u, -, rfl⟩ := hisLine
        exact ⟨happend.2.symm, .inl List.getLast?_concat⟩
      · exact ⟨rfl, .inr rfl⟩
    have hdone : f.next.start = [] := by
      rw [next_start, if_pos]
      rw [hbuffer, hnext]
      exact hlines.2
    refine .inl ⟨?_, hdone, ?_⟩
    · rw [hbuffer, hline]
    · rw [hremaining, hline, remaining, hdone, List.nil_append, hnext, hlines.1]

end InputFile

/-! ## The runs -/

/-- The condition on the line that is read next: the buffer holds it, or it is copied in pieces none of which is
a directive; the blocks and the table of definitions bear it; it has its newline, if more is copied after it. -/
def LineOk (s : State) (f : InputFile) : Prop :=
  (f.start = [] ∧ f.currentLine.length < MAX_TEXT_LINE ∨
      s.Enabled ∧ directive f.currentLine = .text ∧ directive f.buffer = .text) ∧
    (directive f.currentLine).Fits s f.currentLine ∧
    (s.Enabled → directive f.currentLine = .text →
      f.currentLine.getLast? = some '\n' ∨ s.input_stack.length = 1)

instance (s : State) (f : InputFile) : Decidable (LineOk s f) := inferInstanceAs (Decidable (_ ∧ _ ∧ (_ → _ → _)))

def Admitted (s : State) : Prop := ∀ f ∈ s.input_stack.head?, f.rest ≠ [] → LineOk s f

instance (s : State) : Decidable (Admitted s) :=
  inferInstanceAs (Decidable (∀ f ∈ s.input_stack.head?, f.rest ≠ [] → LineOk s f))

def Options.contents (o : Options) (name : List Char) : Option (List Char) := (o.findInclude name).map Prod.snd

/-- The state of the code and the text copied so far: every entry is written with its newline, but for a line at
the very end that has none. -/
structure Copies (s : State) (t : Copy) : Prop where
  blocks : Matches s t.blocks ((s.input_stack.head?.map InputFile.start).getD [])
  files : t.files = s.input_stack.map InputFile.remaining
  newline : ∀ f ∈ s.input_stack, '\n' ∉ f.start
  atEnd : ∀ f ∈ s.input_stack, f.rest = [] → f.start = []
  below : ∀ f ∈ s.input_stack.tail, f.start = []
  terminated : (∀ x ∈ t.blocks.written, x.Terminated) ∨
    s.input_stack.length ≤ 1 ∧ (∀ f ∈ s.input_stack, f.rest = []) ∧
      ∀ x ∈ t.blocks.written.dropLast, x.Terminated

section
variable {o : Options} {s s' : State} {t : Copy} {f : InputFile} {fs : List InputFile} {name : List Char}

theorem Matches.withStack {b : Blocks} {pending : List Char} (h : Matches s b pending) (fs : List InputFile) :
    Matches { s with input_stack := fs } b pending :=
  ⟨h.nesting, h.bound, h.enable, h.defines, h.output⟩

theorem getLast?_lineMarker (n : Nat) (name : List Char) : (State.lineMarker n name).getLast? = some '\n' := by
  have hend : "\"\n".toList.getLast? = some '\n' := by decide
  unfold State.lineMarker
  simp only [List.getLast?_append, hend, Option.some_or]

theorem includeFile_ne_outOfBounds : o.includeFile s name ≠ .error .outOfBounds := by
  unfold Options.includeFile
  split
  · nofun
  · split <;> nofun

theorem close_ne_outOfBounds : close o s ≠ .error .outOfBounds := by
  unfold close
  split
  · split <;> nofun
  · nofun

/-- No line is begun. -/
theorem Copies.of_start (hstart : ∀ f ∈ s.input_stack, f.start = []) (hmatches : Matches s t.blocks [])
    (hfiles : t.files = s.input_stack.map InputFile.remaining)
    (hterminated : (∀ x ∈ t.blocks.written, x.Terminated) ∨
      s.input_stack.length ≤ 1 ∧ (∀ f ∈ s.input_stack, f.rest = []) ∧
        ∀ x ∈ t.blocks.written.dropLast, x.Terminated) : Copies s t where
  blocks := by
    cases hs : s.input_stack with
    | nil => exact hmatches
    | cons f fs =>
      rw [List.head?_cons, Option.map_some, Option.getD_some, hstart f (hs ▸ List.mem_cons_self)]
      exact hmatches
  files := hfiles
  newline f hf := hstart f hf ▸ List.not_mem_nil
  atEnd f hf _ := hstart f hf
  below f hf := hstart f (List.mem_of_mem_tail hf)
  terminated := hterminated

theorem forall_terminated_append {w : List Entry} {x : Entry} (h : ∀ y ∈ w, y.Terminated) (hx : x.Terminated) :
    ∀ y ∈ w ++ [x], y.Terminated := by
  intro y hy
  rcases List.mem_append.1 hy with hy | hy
  · exact h y hy
  · exact List.mem_singleton.1 hy ▸ hx

section
variable (hs : s.input_stack = f :: fs) (h : Copies s t) (hrest : f.rest ≠ [])
include hs h hrest

theorem Copies.terminated_of_rest : ∀ x ∈ t.blocks.written, x.Terminated :=
  h.terminated.elim id fun hend => absurd (hend.2.1 f (hs ▸ List.mem_cons_self)) hrest

omit hrest in
theorem Copies.start_next (hfinishes : f.Finishes) : ∀ g ∈ f.next :: fs, g.start = [] := by
  refine List.forall_mem_cons.2 ⟨hfinishes.start, ?_⟩
  have hbelow := h.below
  rwa [hs, List.tail_cons] at hbelow

omit hrest in
theorem Copies.files_eq (hfinishes : f.Finishes) :
    t.files = (f.currentLine :: f.next.remaining) :: fs.map InputFile.remaining := by
  rw [h.files, hs, List.map_cons, hfinishes.remaining]

/-- A file is included at the end of a line. -/
theorem Copies.includeFile (hfinishes : f.Finishes) (hstart : f.start = [])
    (hname : directive f.currentLine = .includeFile name) (henabled : s.Enabled)
    (hstep : o.includeFile { s with input_stack := f.next :: fs } name = .ok s') :
    ∃ t', Copy.Step o.contents t t' ∧ Copies s' t' := by
  have hterminated := h.terminated_of_rest hs hrest
  have hblocks := h.blocks
  have hfiles := h.files_eq hs hfinishes
  have hstarts := h.start_next hs hfinishes
  obtain ⟨files, c, d, w⟩ := t
  obtain rfl : files = _ := hfiles
  rw [hs, List.head?_cons, Option.map_some, Option.getD_some, hstart] at hblocks
  unfold Options.includeFile at hstep
  split at hstep
  · cases hstep
  · split at hstep
    · cases hstep
    · next full_path content hfind =>
      obtain rfl := Except.ok.inj hstep
      have hcontents : o.contents name = some content := by
        rw [Options.contents, hfind]
        rfl
      refine ⟨_, .includeFile (if o.enable_line_markers then State.lineMarker 1 full_path else ['\n']) hname
        (hblocks.enabled_iff.1 henabled) hcontents, .of_start (List.forall_mem_cons.2 ⟨rfl, hstarts⟩)
        (Matches.entry ((hblocks.withStack _).print _) rfl) rfl (.inl (forall_terminated_append hterminated ?_))⟩
      change List.getLast? _ = _
      split
      · exact getLast?_lineMarker _ _
      · rfl

/-- A line that includes no file has been read. -/
theorem Copies.read {b' : Blocks} (hfinishes : f.Finishes) (hok : LineOk s f)
    (hread : t.blocks.Read f.currentLine b') (hstack : s'.input_stack = f.next :: fs)
    (hmatches : Matches s' b' []) : ∃ t', Copy.Step o.contents t t' ∧ Copies s' t' := by
  have hterminated := h.terminated_of_rest hs hrest
  have henabled := h.blocks.enabled_iff
  have hstarts := h.start_next hs hfinishes
  have hfiles := h.files_eq hs hfinishes
  obtain ⟨files, b⟩ := t
  obtain rfl : files = _ := hfiles
  refine ⟨_, .line hread, .of_start (by rwa [hstack]) hmatches (by rw [hstack]; rfl) ?_⟩
  cases hread with
  | text htext hall =>
    rcases isLine_or_of_lines hfinishes.remaining with hline | ⟨hno, hnil, -, -⟩
    · exact .inl (forall_terminated_append hterminated hline)
    · -- A line without a newline is the last one of the first file.
      have hone : s.input_stack.length = 1 := (hok.2.2 (henabled.2 hall) htext).resolve_left
        fun hlast => hno (List.mem_of_getLast? hlast)
      rw [hs, List.length_cons, Nat.add_eq_right, List.length_eq_zero_iff] at hone
      subst hone
      refine .inr ⟨by rw [hstack]; exact Nat.le_refl 1, ?_, ?_⟩
      · rw [hstack, List.forall_mem_singleton]
        exact (List.append_eq_nil_iff.1 (lines_eq_nil_iff.1 hnil)).2
      · rwa [List.dropLast_concat]
  | _ => exact .inl (forall_terminated_append hterminated isLine_newline)

end

/-- The end of a file. -/
theorem Copies.close (hs : s.input_stack = f :: fs) (h : Copies s t) (hrest : f.rest = [])
    (hstep : close o s = .ok s') : ∃ t', Copy.Step o.contents t t' ∧ Copies s' t' := by
  have hblocks := h.blocks
  have hstart : f.start = [] := h.atEnd f (hs ▸ List.mem_cons_self) hrest
  rw [hs, List.head?_cons, Option.map_some, Option.getD_some, hstart] at hblocks
  have hfiles := h.files
  rw [hs, List.map_cons, InputFile.remaining, hstart, hrest] at hfiles
  have hbelow := h.below
  have hterminated := h.terminated
  rw [hs] at hterminated
  obtain ⟨files, c, d, w⟩ := t
  obtain rfl : files = _ := hfiles
  unfold Tpp.close at hstep
  rw [hs, List.tail_cons] at hstep hbelow
  cases fs with
  | nil =>
    dsimp only at hstep
    split at hstep
    · cases hstep
    · obtain rfl := Except.ok.inj hstep
      refine ⟨_, .close none, .of_start (List.forall_mem_nil _) ?_ rfl ?_⟩
      · rw [Option.map_none, Option.toList_none, List.append_nil]
        exact hblocks.withStack []
      · rw [Option.map_none, Option.toList_none, List.append_nil]
        exact hterminated.imp_right fun hend => ⟨Nat.zero_le 1, List.forall_mem_nil _, hend.2.2⟩
  | cons g fs =>
    obtain rfl := Except.ok.inj hstep
    have hall : ∀ x ∈ w, x.Terminated := hterminated.elim id fun hend => absurd hend.1 (by simp)
    cases hmarkers : o.enable_line_markers with
    | false =>
      refine ⟨_, .close none, .of_start hbelow ?_ rfl ?_⟩
      · rw [Option.map_none, Option.toList_none, List.append_nil]
        exact (hblocks.withStack _).print []
      · rw [Option.map_none, Option.toList_none, List.append_nil]
        exact .inl hall
    | true =>
      refine ⟨_, .close (some (State.lineMarker (g.line + 1) g.name)), .of_start hbelow
        (Matches.entry ((hblocks.withStack _).print _) rfl) rfl
        (.inl (forall_terminated_append hall (getLast?_lineMarker _ _)))⟩

/-- A piece of a line is copied. -/
theorem Copies.piece (hs : s.input_stack = f :: fs) (h : Copies s t) (hcontinues : f.Continues)
    (hmatches : Matches (State.print { s with input_stack := f.next :: fs } f.buffer) t.blocks (f.start ++ f.buffer)) :
    Copies (State.print { s with input_stack := f.next :: fs } f.buffer) t := by
  have hmem : ∀ g ∈ fs, g ∈ s.input_stack := fun g hg => hs ▸ List.mem_cons_of_mem f hg
  refine ⟨?_, ?_, ?_, ?_, ?_, ?_⟩
  · change Matches _ _ f.next.start
    rwa [hcontinues.start]
  · rw [h.files, hs]
    change _ = f.next.remaining :: _
    rw [hcontinues.remaining, List.map_cons]
  · exact List.forall_mem_cons.2 ⟨hcontinues.newline, fun g hg => h.newline g (hmem g hg)⟩
  · exact List.forall_mem_cons.2
      ⟨fun hrest => absurd hrest hcontinues.rest, fun g hg => h.atEnd g (hmem g hg)⟩
  · have hbelow := h.below
    rwa [hs, List.tail_cons] at hbelow
  · refine h.terminated.imp_right fun hend => absurd (hend.2.1 f (hs ▸ List.mem_cons_self)) fun hrest => ?_
    have hlines := hcontinues.long
    rw [InputFile.currentLine, InputFile.remaining, hrest, h.atEnd f (hs ▸ List.mem_cons_self) hrest] at hlines
    exact absurd hlines (by decide)

/-- One round of the loops: the text is copied as it is meant, and no flag out of bounds is read or written. -/
theorem Copies.step (h : Copies s t) (hok : Admitted s) : step o s ≠ some (.error .outOfBounds) ∧
    ∀ s', step o s = some (.ok s') →
      ∃ t', Relation.ReflTransGen (Copy.Step o.contents) t t' ∧ Copies s' t' := by
  unfold Tpp.step
  cases hs : s.input_stack with
  | nil => exact ⟨nofun, nofun⟩
  | cons f fs =>
  dsimp only
  by_cases hrest : f.rest = []
  · rw [if_pos hrest]
    refine ⟨fun hstep => close_ne_outOfBounds (Option.some.inj hstep), fun s' hstep => ?_⟩
    obtain ⟨t', hstep', hcopies⟩ := h.close hs hrest (Option.some.inj hstep)
    exact ⟨t', .single hstep', hcopies⟩
  rw [if_neg hrest]
  have hline : LineOk s f := hok f (by rw [hs]; rfl) hrest
  have hblocks := h.blocks
  rw [hs, List.head?_cons, Option.map_some, Option.getD_some] at hblocks
  have hmatches := hblocks.withStack (f.next :: fs)
  rcases hline.1 with ⟨hstart, hshort⟩ | ⟨henabled, htext, hpiece⟩
  · -- The buffer has the line.
    have hfinishes : f.Finishes := (f.finishes_or_continues (h.newline f (hs ▸ List.mem_cons_self)) hrest).resolve_right
      fun hcontinues => absurd hcontinues.long (Nat.not_le.2 hshort)
    have hbuffer : f.buffer = f.currentLine := by
      have := hfinishes.buffer
      rwa [hstart, List.nil_append] at this
    rw [hstart] at hmatches
    rw [hbuffer]
    by_cases hinclude : ∃ name, directive f.currentLine = .includeFile name ∧ s.Enabled
    · obtain ⟨name, hname, henabled⟩ := hinclude
      have hprocess : processLine o { s with input_stack := f.next :: fs } f.currentLine =
          o.includeFile { s with input_stack := f.next :: fs } name := by
        rw [processLine_eq (s := { s with input_stack := f.next :: fs }) henabled]
        unfold directive at hname
        rw [hname]
      rw [hprocess]
      refine ⟨fun hstep => includeFile_ne_outOfBounds (Option.some.inj hstep), fun s' hstep => ?_⟩
      obtain ⟨t', hstep', hcopies⟩ :=
        h.includeFile hs hrest hfinishes hstart hname henabled (Option.some.inj hstep)
      exact ⟨t', .single hstep', hcopies⟩
    · have houtcome := hmatches.outcome (o := o) (l := f.currentLine) hline.2.1
        fun name hname henabled => hinclude ⟨name, hname, henabled⟩
      refine ⟨fun hstep => houtcome.1 (Option.some.inj hstep), fun s' hstep => ?_⟩
      obtain ⟨hstack, b', hread, hmatches'⟩ := houtcome.2 s' (Option.some.inj hstep)
      obtain ⟨t', hstep', hcopies⟩ := h.read (o := o) hs hrest hfinishes hline hread hstack hmatches'
      exact ⟨t', .single hstep', hcopies⟩
  · -- The line is copied piece by piece.
    have hnul : '\x00' ∉ f.currentLine := by
      have hfits := hline.2.1
      rw [htext] at hfits
      exact hfits henabled
    rcases f.finishes_or_continues (h.newline f (hs ▸ List.mem_cons_self)) hrest with hfinishes | hcontinues
    · have hmem : ∀ c ∈ f.buffer, c ∈ f.currentLine := fun c hc =>
        hfinishes.buffer ▸ List.mem_append_right _ hc
      obtain ⟨hprocess, hprint⟩ := hmatches.processLine_piece (o := o) henabled hpiece fun hc => hnul (hmem _ hc)
      rw [hprocess]
      refine ⟨nofun, fun s' hstep => ?_⟩
      obtain rfl := Except.ok.inj (Option.some.inj hstep)
      rw [hfinishes.buffer] at hprint
      obtain ⟨t', hstep', hcopies⟩ := h.read (o := o) hs hrest hfinishes hline
        (.text htext (hblocks.enabled_iff.1 henabled)) rfl (hprint.entry rfl)
      exact ⟨t', .single hstep', hcopies⟩
    · obtain ⟨l, hl⟩ := hcontinues.buffer
      have hmem : ∀ c ∈ f.buffer, c ∈ f.currentLine := fun c hc => by
        rw [hl]
        exact List.mem_append_right _ (List.mem_append_left _ hc)
      obtain ⟨hprocess, hprint⟩ := hmatches.processLine_piece (o := o) henabled hpiece fun hc => hnul (hmem _ hc)
      rw [hprocess]
      refine ⟨nofun, fun s' hstep => ?_⟩
      obtain rfl := Except.ok.inj (Option.some.inj hstep)
      exact ⟨t, .refl, h.piece hs hcontinues hprint⟩

end

/-- The next state, if the code neither ends nor fails. -/
def next (o : Options) (s : State) : Option State := (step o s).bind Except.toOption

theorem next_eq_some_iff {o : Options} {s s' : State} : next o s = some s' ↔ step o s = some (.ok s') := by
  unfold next
  cases step o s with
  | none => exact iff_of_false nofun nofun
  | some r =>
    cases r with
    | error e => exact iff_of_false nofun nofun
    | ok s'' =>
      change some s'' = some s' ↔ _
      rw [Option.some_inj, Option.some_inj, Except.ok.injEq]

theorem Copies.init (input_filename content : List Char) (defines : List (List Char)) :
    Copies (init input_filename content defines) (.init content defines) := by
  refine .of_start (List.forall_mem_singleton.2 rfl) ⟨rfl, Nat.succ_pos 31, fun i hi => ?_, fun _ => Iff.rfl, rfl⟩ rfl
    (.inl (List.forall_mem_nil _))
  obtain rfl : i = ⟨0, by decide⟩ := Fin.ext (Nat.le_zero.1 hi)
  exact iff_of_true rfl (List.forall_mem_nil _)

/-- In every run whose lines meet the condition, the text is copied as it is meant, and no flag out of bounds is
read or written. -/
theorem conditionalProcess_copies (o : Options) (input_filename content : List Char) (defines : List (List Char))
    {s : State} (h : Reach (fun s (_ : Unit) => next o s) (fun s _ => Admitted s)
      (init input_filename content defines) s) :
    (∃ t, Relation.ReflTransGen (Copy.Step o.contents) (.init content defines) t ∧ Copies s t) ∧
      (Admitted s → step o s ≠ some (.error .outOfBounds)) := by
  have hcopies : ∃ t, Relation.ReflTransGen (Copy.Step o.contents) (.init content defines) t ∧ Copies s t := by
    refine Reach.invariant (I := fun s => ∃ t, Relation.ReflTransGen (Copy.Step o.contents)
      (.init content defines) t ∧ Copies s t) h ⟨_, .refl, .init input_filename content defines⟩ ?_
    rintro s _ s' ⟨t, hrun, hcopies⟩ hok hstep
    obtain ⟨t', hrun', hcopies'⟩ := (hcopies.step (o := o) hok).2 s' (next_eq_some_iff.1 hstep)
    exact ⟨t', hrun.trans hrun', hcopies'⟩
  refine ⟨hcopies, fun hok => ?_⟩
  obtain ⟨t, -, ht⟩ := hcopies
  exact (ht.step hok).1

/-- No directories but `"."`, no line markers, no files to include. -/
def plainOptions : Options := ⟨[], false, fun _ => none⟩

/-- A block that is left out and one that is copied. -/
theorem conditionalProcess_copies_block :
    let content := "/*!if A*/\nx\n/*!endif*/\n/*!ifnot A*/\ny\n/*!endif*/\n".toList
    ∃ s, s.output = "\n\n\n\ny\n\n".toList ∧
      ∃ t, Relation.ReflTransGen (Copy.Step plainOptions.contents) (.init content []) t ∧ Copies s t := by
  intro content
  obtain ⟨s, hreach, hs⟩ := exists_reach_of_guarded_run (fun s (_ : Unit) => next plainOptions s)
    (fun s _ => Admitted s) (init ['g'] content []) (List.replicate 7 ())
    (fun s => s.output = "\n\n\n\ny\n\n".toList) (by decide)
  exact ⟨s, of_decide_eq_true hs, (conditionalProcess_copies plainOptions ['g'] content [] hreach).1⟩

/-- The 32nd block inside one another has no flag. -/
theorem conditionalProcess_outOfBounds :
    let content := (List.replicate 32 "/*!if A*/\n".toList).flatten
    ¬ ∀ s, Reach (fun s (_ : Unit) => next plainOptions s) (fun _ _ => True) (init ['g'] content []) s →
      step plainOptions s ≠ some (.error .outOfBounds) := by
  intro content h
  obtain ⟨s, hreach, hs⟩ := exists_reach_of_run (fun s (_ : Unit) => next plainOptions s) (fun _ => True)
    (init ['g'] content []) (List.replicate 31 ()) (fun _ _ => trivial)
    (fun s => (step plainOptions s).map (Except.map fun _ => ()) = some (.error .outOfBounds)) (by decide +kernel)
  obtain ⟨r, hr, hfailed⟩ := Option.map_eq_some_iff.1 (of_decide_eq_true hs)
  cases r with
  | error e =>
    cases hfailed
    exact h s hreach hr
  | ok s' => cases hfailed

end OmpSs.Mcxx.Tpp
