import Mathlib.Data.List.Basic
import Mathlib.Order.Nat

/-!
# Depth-first recursion over a state

A function that is called at a node changes the state, and then calls itself at other nodes, one after the
other, before it returns. `call` says what a call does before the calls that follow from it, and which these
are; `none` is a call that goes wrong. `depthFirst_spec` is the rule for such a recursion: an invariant of
the state and of the calls still to come, together with a measure that decreases where calls follow.
-/

namespace OmpSs.Lib

section
variable {σ α : Type*} {call : σ → α → Option (σ × List α)} {f : σ → α → Option σ}
  {I : σ → List α → Prop} {μ : σ → Nat}

/-- The call at `a` with the calls that follow from it; the fuel bounds how deep the calls are nested. -/
def depthFirst (call : σ → α → Option (σ × List α)) : Nat → σ → α → Option σ
  | 0, _, _ => none
  | n + 1, s, a => (call s a).bind fun r => r.2.foldlM (depthFirst call n) r.1

/-- A loop keeps an invariant of the state and of the elements still to come. -/
theorem foldlM_spec (hf : ∀ s a w, I s (a :: w) → ∃ s', f s a = some s' ∧ I s' w) (l : List α) {w : List α}
    {s : σ} (h : I s (l ++ w)) : ∃ s', l.foldlM f s = some s' ∧ I s' w := by
  induction l generalizing s with
  | nil => exact ⟨s, rfl, h⟩
  | cons a l ih =>
    obtain ⟨s', hs', h'⟩ := hf s a (l ++ w) h
    rw [List.foldlM_cons, hs']
    exact ih h'

/-- A loop of calls that do not increase a measure, each of which keeps the invariant where the measure is
small enough. -/
theorem foldlM_spec_of_measure {n : Nat}
    (hf : ∀ s a w, μ s < n → I s (a :: w) → ∃ s', f s a = some s' ∧ I s' w ∧ μ s' ≤ μ s) (l : List α)
    {w : List α} {s : σ} (hn : μ s < n) (h : I s (l ++ w)) :
    ∃ s', l.foldlM f s = some s' ∧ I s' w ∧ μ s' ≤ μ s :=
  @foldlM_spec σ α f (fun t w => I t w ∧ μ t ≤ μ s) (fun t a w ht => by
    obtain ⟨t', ht', hI, hle⟩ := hf t a w (lt_of_le_of_lt ht.2 hn) ht.1
    exact ⟨t', ht', hI, le_trans hle ht.2⟩) l w s ⟨h, le_refl _⟩

section
variable
  (hcall : ∀ s a w, I s (a :: w) → ∃ s' next, call s a = some (s', next) ∧ I s' (next ++ w) ∧
    μ s' ≤ μ s ∧ (next ≠ [] → μ s' < μ s))
include hcall

/-- Where enough fuel is left, a call keeps an invariant that it keeps up to the calls that follow. -/
theorem depthFirst_spec {n : Nat} {s : σ} {a : α} {w : List α} (hn : μ s < n) (h : I s (a :: w)) :
    ∃ s', depthFirst call n s a = some s' ∧ I s' w ∧ μ s' ≤ μ s := by
  induction n generalizing s a w with
  | zero => exact absurd hn (Nat.not_lt_zero _)
  | succ n ih =>
    obtain ⟨s', next, hs', h', hle, hlt⟩ := hcall s a w h
    rw [depthFirst, hs', Option.bind_some]
    rcases eq_or_ne next [] with rfl | hnext
    · exact ⟨s', rfl, h', hle⟩
    · -- The calls that follow start with a smaller measure, and none of them increases it.
      have hlt := hlt hnext
      obtain ⟨s'', hs'', h'', hle''⟩ := foldlM_spec_of_measure (fun t b w ht => ih ht) next
        (show μ s' < n by omega) h'
      exact ⟨s'', hs'', h'', le_trans hle'' hle⟩

/-- The calls of a walk keep the invariant. -/
theorem foldlM_depthFirst_spec {n : Nat} (l : List α) {s : σ} {w : List α} (hn : μ s < n)
    (h : I s (l ++ w)) : ∃ s', l.foldlM (depthFirst call n) s = some s' ∧ I s' w ∧ μ s' ≤ μ s :=
  foldlM_spec_of_measure (fun _ _ _ ht => depthFirst_spec hcall ht) l hn h

end

end

end OmpSs.Lib
