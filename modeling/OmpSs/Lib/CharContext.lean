import Mathlib.Data.List.Basic

/-!
# Character literals and comments

A character literal stands between apostrophes or between quotes, and a doubled delimiter in it stands for one of
them. Taken as the end of a literal and the beginning of the next one it leads to the same place, so that the
characters before a place decide whether it is in a literal (`context`). An exclamation mark outside the literals
begins a comment, unless an exempted character follows; `beforeComment` is what stands before the first comment.
A text without one is scanned as if it stood alone, whatever follows it (`beforeComment_append`).
-/

namespace OmpSs.Lib.CharContext

abbrev Delimiter := {c : Char // c = '\'' ∨ c = '"'}

/-- The delimiter of the literal after a character, if that is in one. -/
def advance (d : Option Delimiter) (c : Char) : Option Delimiter :=
  match d with
  | none => if h : c = '\'' ∨ c = '"' then some ⟨c, h⟩ else none
  | some q => if c = q.1 then none else some q

def context (d : Option Delimiter) (s : List Char) : Option Delimiter := s.foldl advance d

/-- Whether a character, before the text `s`, begins a comment. -/
def startsComment (exempt : Option Char) (c : Char) (s : List Char) : Bool :=
  c == '!' && (exempt.isNone || s.head? != exempt)

def beforeComment (exempt : Option Char) : Option Delimiter → List Char → List Char
  | _, [] => []
  | d, c :: s =>
    if d.isNone && startsComment exempt c s then [] else c :: beforeComment exempt (advance d c) s

section
variable {exempt : Option Char} {d : Option Delimiter} {c : Char} {s t u : List Char}

@[simp] theorem context_nil : context d [] = d := rfl

@[simp] theorem context_cons : context d (c :: s) = context (advance d c) s := rfl

@[simp] theorem context_append : context d (s ++ t) = context (context d s) t := List.foldl_append

theorem advance_eq_self (hc : c ≠ '\'') (hc' : c ≠ '"') : advance d c = d := by
  unfold advance
  split
  · rw [dif_neg (by simp [hc, hc'])]
  · next q =>
    rw [if_neg]
    rintro rfl
    exact q.2.elim hc hc'

/-- Characters that are no delimiters. -/
theorem context_eq_self (hs : ∀ c ∈ s, c ≠ '\'' ∧ c ≠ '"') : context d s = d := by
  induction s with
  | nil => rfl
  | cons c s ih =>
    rw [List.forall_mem_cons] at hs
    rw [context_cons, advance_eq_self hs.1.1 hs.1.2, ih hs.2]

theorem startsComment_of_ne (hc : c ≠ '!') : startsComment exempt c s = false := by
  rw [startsComment, beq_eq_false_iff_ne.2 hc, Bool.false_and]

@[simp] theorem beforeComment_nil : beforeComment exempt d [] = [] := rfl

theorem beforeComment_of_startsComment (h : startsComment exempt c s = true) :
    beforeComment exempt none (c :: s) = [] := by
  simp [beforeComment, h]

theorem beforeComment_cons (h : d ≠ none ∨ startsComment exempt c s = false) :
    beforeComment exempt d (c :: s) = c :: beforeComment exempt (advance d c) s := by
  rw [beforeComment, if_neg]
  rcases h with h | h
  · cases d with
    | none => exact absurd rfl h
    | some q => exact Bool.false_ne_true
  · simp [h]

/-- The first character is kept, or it begins a comment. -/
theorem beforeComment_cases (exempt : Option Char) (d : Option Delimiter) (c : Char) (s : List Char) :
    d = none ∧ startsComment exempt c s = true ∧ beforeComment exempt d (c :: s) = [] ∨
      (d ≠ none ∨ startsComment exempt c s = false) ∧
        beforeComment exempt d (c :: s) = c :: beforeComment exempt (advance d c) s := by
  by_cases h : d = none ∧ startsComment exempt c s = true
  · obtain ⟨rfl, h⟩ := h
    exact .inl ⟨rfl, h, beforeComment_of_startsComment h⟩
  · rw [not_and_or, Bool.not_eq_true] at h
    exact .inr ⟨h, beforeComment_cons h⟩

theorem beforeComment_isPrefix (exempt : Option Char) (d : Option Delimiter) (s : List Char) :
    beforeComment exempt d s <+: s := by
  induction s generalizing d with
  | nil => exact List.nil_prefix
  | cons c s ih =>
    rcases beforeComment_cases exempt d c s with ⟨-, -, h⟩ | ⟨-, h⟩ <;> rw [h]
    · exact List.nil_prefix
    · exact List.cons_prefix_cons.2 ⟨rfl, ih _⟩

theorem beforeComment_of_ne (hs : ∀ c ∈ s, c ≠ '!') : beforeComment exempt d s = s := by
  induction s generalizing d with
  | nil => rfl
  | cons c s ih =>
    rw [List.forall_mem_cons] at hs
    rw [beforeComment_cons (.inr (startsComment_of_ne hs.1)), ih hs.2]

/-- A character that begins no comment begins none when more follows. -/
theorem startsComment_append (h : startsComment exempt c s = false) (t : List Char) :
    startsComment exempt c (s ++ t) = false := by
  cases s with
  | nil => cases exempt <;> simp_all [startsComment]
  | cons => exact h

theorem beforeComment_append (hs : beforeComment exempt d s = s) (t : List Char) :
    beforeComment exempt d (s ++ t) = s ++ beforeComment exempt (context d s) t := by
  induction s generalizing d with
  | nil => rfl
  | cons c s ih =>
    rcases beforeComment_cases exempt d c s with ⟨-, -, h⟩ | ⟨hc, h⟩ <;> rw [h] at hs
    · cases hs
    · rw [List.cons_append, beforeComment_cons (hc.imp_right fun h => startsComment_append h t),
        ih (List.cons.inj hs).2]
      rfl

/-- Text after a comment. -/
theorem beforeComment_append_of_ne (hs : beforeComment none d s ≠ s) (t : List Char) :
    beforeComment none d (s ++ t) = beforeComment none d s := by
  induction s generalizing d with
  | nil => exact absurd rfl hs
  | cons c s ih =>
    rcases beforeComment_cases none d c s with ⟨rfl, hc, h⟩ | ⟨hc, h⟩ <;> rw [h] at hs
    · rw [h]
      exact beforeComment_of_startsComment hc
    · rw [h, List.cons_append, beforeComment_cons (hc.imp_right fun h => startsComment_append h t),
        ih fun h => hs (congrArg (c :: ·) h)]

/-- What stands before the first comment has no comment. -/
theorem beforeComment_self (hexempt : exempt ≠ some '!') (d : Option Delimiter) (s : List Char) :
    beforeComment exempt d (beforeComment exempt d s) = beforeComment exempt d s := by
  induction s generalizing d with
  | nil => rfl
  | cons c s ih =>
    rcases beforeComment_cases exempt d c s with ⟨-, -, h⟩ | ⟨hc, h⟩ <;> rw [h]
    · rfl
    · rw [beforeComment_cons (hc.imp_right fun hstart => ?_), ih]
      -- The exempted character that follows is kept.
      cases exempt with
      | none => exact hstart
      | some e =>
        cases s with
        | nil => exact hstart
        | cons c' s =>
          rcases beforeComment_cases (some e) (advance d c) c' s with ⟨-, hstart', -⟩ | ⟨-, h'⟩
          · by_cases hc : c = '!'
            · have he : c' = e := by simpa [startsComment, hc] using hstart
              have hc' : c' = '!' := by
                rw [startsComment, Bool.and_eq_true] at hstart'
                exact eq_of_beq hstart'.1
              exact absurd (by rw [← he, hc']) hexempt
            · exact startsComment_of_ne hc
          · rw [h']
            exact hstart

/-- A text of which the end is left out. -/
theorem beforeComment_of_append (ht : ∀ c ∈ t.head?, some c ≠ exempt) (h : beforeComment exempt d (s ++ t) = s ++ t) :
    beforeComment exempt d s = s := by
  induction s generalizing d with
  | nil => rfl
  | cons c s ih =>
    rcases beforeComment_cases exempt d c (s ++ t) with ⟨-, -, h'⟩ | ⟨hc, h'⟩ <;> rw [List.cons_append, h'] at h
    · cases h
    · rw [beforeComment_cons (hc.imp_right fun hstart => ?_), ih (List.cons.inj h).2]
      cases s with
      | cons => exact hstart
      | nil =>
        cases t with
        | nil => exact hstart
        | cons c' t =>
          cases exempt with
          | none => exact hstart
          | some e =>
            have he : c' ≠ e := fun he => ht c' rfl (congrArg some he)
            have hc : c ≠ '!' := by
              rintro rfl
              simp [startsComment, he] at hstart
            exact startsComment_of_ne hc

end

end OmpSs.Lib.CharContext
