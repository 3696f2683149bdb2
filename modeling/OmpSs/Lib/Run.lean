import Mathlib.Logic.Relation

/-!
# Runs of a transition system

A component is a state type `σ` with a partial step function `step : σ → ε → Option σ` over
events `ε`: `none` is an event the component does not admit in that state. `Reach step ok s₀ s`
says that a finite run from `s₀`, each of whose events `ok` admits in the state it is taken in,
ends in `s`. The predicate `ok` is where a theorem restricts the runs it speaks of; `fun _ _ => True`
admits them all. `Reach.invariant` is the one induction over runs: what holds initially and is
kept by every admitted step holds in every state a run reaches. A concrete run is a list of events
(`run`).
-/

namespace OmpSs.Lib

section
variable {σ ε : Type*} {step : σ → ε → Option σ} {ok ok' : σ → ε → Prop} {s₀ s : σ}

/-- The states that runs from `s₀` reach, every event of a run being admitted by `ok` in the state
it is taken in. -/
inductive Reach (step : σ → ε → Option σ) (ok : σ → ε → Prop) (s₀ : σ) : σ → Prop
  | refl : Reach step ok s₀ s₀
  | tail {s s' : σ} {e : ε} :
      Reach step ok s₀ s → ok s e → step s e = some s' → Reach step ok s₀ s'

/-- What holds initially and is kept by every admitted step holds in every reached state. -/
theorem Reach.invariant {I : σ → Prop} (h : Reach step ok s₀ s) (h₀ : I s₀)
    (hstep : ∀ s e s', I s → ok s e → step s e = some s' → I s') : I s := by
  induction h with
  | refl => exact h₀
  | tail _ hok hs ih => exact hstep _ _ _ ih hok hs

/-- The state in which a list of events ends, if every event is admitted by the component. -/
def run (step : σ → ε → Option σ) : σ → List ε → Option σ
  | s, [] => some s
  | s, e :: es => (step s e).bind fun s' => run step s' es

theorem Reach.of_run (h : Reach step ok s₀ s) (es : List ε) (hok : ∀ e ∈ es, ∀ s, ok s e)
    {s' : σ} (hrun : run step s es = some s') : Reach step ok s₀ s' := by
  induction es generalizing s with
  | nil => cases hrun; exact h
  | cons e es ih =>
    obtain ⟨s₁, hs, hrun⟩ := Option.bind_eq_some_iff.1 hrun
    exact ih (h.tail (hok e (by simp) s) hs) (fun e' he' => hok e' (by simp [he'])) hrun

/-- A run given by its events reaches a state with the property `p`, by evaluation. -/
theorem exists_reach_of_run (step : σ → ε → Option σ) (ok : ε → Prop) (s₀ : σ) (es : List ε)
    (hok : ∀ e ∈ es, ok e) (p : σ → Bool) (hp : (run step s₀ es).any p = true) :
    ∃ s, Reach step (fun _ e => ok e) s₀ s ∧ p s = true := by
  obtain ⟨s, hs, hps⟩ := (Option.any_eq_true p _).1 hp
  exact ⟨s, Reach.refl.of_run es (fun e he _ => hok e he) hs, hps⟩

/-- A run given by its events, whose condition depends on the states it goes through. -/
theorem exists_reach_of_guarded_run (step : σ → ε → Option σ) (ok : σ → ε → Prop)
    [∀ s e, Decidable (ok s e)] (s₀ : σ) (es : List ε) (p : σ → Bool)
    (hp : (run (fun s e => if ok s e then step s e else none) s₀ es).any p = true) :
    ∃ s, Reach step ok s₀ s ∧ p s = true := by
  obtain ⟨s, hs, hps⟩ := (Option.any_eq_true p _).1 hp
  refine ⟨s, ?_, hps⟩
  have hreach : Reach (fun s e => if ok s e then step s e else none) (fun _ _ => True) s₀ s :=
    Reach.refl.of_run es (fun _ _ _ => trivial) hs
  refine hreach.invariant .refl fun s e s' ih _ hstep => ?_
  split at hstep
  · next hok => exact ih.tail hok hstep
  · cases hstep

/-- What holds of every event of a list given the events before it, one event longer. -/
theorem forall_event_append {P : List ε → ε → Prop} {es : List ε} {e : ε} :
    (∀ past x rest, es ++ [e] = past ++ x :: rest → P past x) ↔
      (∀ past x rest, es = past ++ x :: rest → P past x) ∧ P es e := by
  constructor
  · intro h
    exact ⟨fun past x rest hes => h past x (rest ++ [e]) (by rw [hes]; simp), h es e [] rfl⟩
  · rintro ⟨hes, he⟩ past x rest h
    rcases List.eq_nil_or_concat rest with rfl | ⟨rest, y, rfl⟩
    · obtain ⟨rfl, hx⟩ := List.append_inj' h rfl
      obtain rfl : e = x := List.singleton_inj.1 hx
      exact he
    · rw [List.concat_eq_append, ← List.cons_append, ← List.append_assoc] at h
      exact hes past x rest (List.append_inj' h rfl).1

/-- What holds of every event given the events before it, by the positions of the events. -/
theorem forall_event_iff_take {P : List ε → ε → Prop} {es : List ε} :
    (∀ past x rest, es = past ++ x :: rest → P past x) ↔ ∀ i (hi : i < es.length), P (es.take i) es[i] := by
  constructor
  · intro h i hi
    exact h _ _ (es.drop (i + 1)) (by rw [List.getElem_cons_drop, List.take_append_drop])
  · rintro h past x rest rfl
    simpa using h past.length (by simp)

end

end OmpSs.Lib
