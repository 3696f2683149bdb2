import OmpSs.Lib.TextLines
import Mathlib.Data.List.DropRight

/-!
# Continued lines of the free form

A line that ends with an ampersand is continued by the next one; what the next line begins with, an ampersand
after blanks, or in a directive the sentinel again and an ampersand, is not part of the text (`undo`). A text
written in pieces, each but the last followed by an ampersand and a newline, is read back as the pieces one
after the other without what they begin with (`undo_map_concat`).
-/

namespace OmpSs.Lib.FreeForm

def isBlank (c : Char) : Bool := c == ' ' || c == '\t'

/-- A line that continues another one, without the mark it begins with. -/
def lead (mark : List Char) (continued : Bool) (l : List Char) : List Char :=
  if continued then ((l.dropWhile isBlank).dropPrefix? mark).getD l else l

/-- The lines with the continued ones put together. -/
def undo (mark : List Char) : Bool → List (List Char) → List (List Char)
  | _, [] => []
  | continued, [l] => [lead mark continued l]
  | continued, l :: l' :: ls =>
    if l.getLast? = some '&' then
      match undo mark true (l' :: ls) with
      | [] => [lead mark continued l.dropLast]
      | r :: rs => (lead mark continued l.dropLast ++ r) :: rs
    else lead mark continued l :: undo mark false (l' :: ls)

/-- The text of the pieces. -/
def joined (mark : List Char) : Bool → List (List Char) → List Char
  | _, [] => []
  | continued, p :: ps => lead mark continued p ++ joined mark true ps

/-- The pieces, each with the end of its line. -/
def written (ps : List (List Char)) : List Char := ps.flatMap fun p => p ++ ['&', '\n']

section
variable {mark p s t : List Char} {b : Bool} {ps : List (List Char)} {ls : List (List Char)}

@[simp] theorem lead_false : lead mark false p = p := rfl

@[simp] theorem written_nil : written [] = [] := rfl

theorem written_concat : written (ps ++ [p]) = written ps ++ (p ++ ['&', '\n']) := by
  rw [written, List.flatMap_append, List.flatMap_singleton]
  rfl

/-- Whether a piece continues another one that stands before it. -/
theorem joined_concat : joined mark b (ps ++ [p]) = joined mark b ps ++ lead mark (b || !ps.isEmpty) p := by
  induction ps generalizing b with
  | nil => simp [joined]
  | cons q ps ih => rw [List.cons_append, joined, joined, ih, List.append_assoc]; simp

theorem textLines_written (hps : ∀ p ∈ ps, '\n' ∉ p) (s : List Char) :
    textLines (written ps ++ s) = ps.map (· ++ ['&']) ++ textLines s := by
  induction ps with
  | nil => rfl
  | cons p ps ih =>
    obtain ⟨hp, hps⟩ := List.forall_mem_cons.1 hps
    have hp' : '\n' ∉ p ++ ['&'] := by simp [hp]
    have hcons : written (p :: ps) ++ s = (p ++ ['&']) ++ '\n' :: (written ps ++ s) := by
      simp [written]
    rw [hcons, textLines_append hp', ih hps]
    rfl

/-- The pieces and the line that ends the text, whatever lines follow. -/
theorem undo_map_append (ps : List (List Char)) (p : List Char) (hp : p.getLast? ≠ some '&') (ls : List (List Char)) :
    undo mark b (ps.map (· ++ ['&']) ++ p :: ls) = joined mark b (ps ++ [p]) :: undo mark false ls := by
  induction ps generalizing b with
  | nil =>
    cases ls with
    | nil => simp [undo, joined]
    | cons l ls => simp [undo, joined, hp]
  | cons q ps ih =>
    obtain ⟨l, ls', hl⟩ : ∃ l ls', ps.map (· ++ ['&']) ++ p :: ls = l :: ls' := by
      cases ps <;> exact ⟨_, _, rfl⟩
    have hih := ih (b := true)
    rw [hl] at hih
    rw [List.map_cons, List.cons_append, hl, undo, if_pos List.getLast?_concat, hih, List.dropLast_concat]
    rfl

/-- The pieces, the last of which ends the text. -/
theorem undo_map_concat (ps : List (List Char)) (p : List Char) :
    undo mark b (ps.map (· ++ ['&']) ++ [p]) = [joined mark b (ps ++ [p])] := by
  induction ps generalizing b with
  | nil => simp [undo, joined]
  | cons q ps ih =>
    obtain ⟨l, ls', hl⟩ : ∃ l ls', ps.map (· ++ ['&']) ++ [p] = l :: ls' := by
      cases ps <;> exact ⟨_, _, rfl⟩
    have hih := ih (b := true)
    rw [hl] at hih
    rw [List.map_cons, List.cons_append, hl, undo, if_pos List.getLast?_concat, hih, List.dropLast_concat]
    rfl

end

end OmpSs.Lib.FreeForm
