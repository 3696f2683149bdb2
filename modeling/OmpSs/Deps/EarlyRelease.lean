import OmpSs.Deps.Effects

/-!
# Early release of read dependencies

`DependableObject::releaseReadDependencies` (`core/dependableobject.cpp:129`): a task that has run,
but has not finished, gives up its place among the readers and the successors none of whose targets
overlaps a target it writes. The loop takes the counter of a successor down before it erases the
edge; the two commute (`decrease_eraseSuccessor`), so a round of the loop is the erasing of an edge,
which leaves an increment pending (`Accounted.eraseSuccessor`), and the release of that increment.
-/

namespace OmpSs.Deps

/-- The test in the loop of `releaseReadDependencies`: no target that `o` writes overlaps a target
its successor writes or reads. -/
def canRemovePredecessor {τ : Type} (overlap : τ → τ → Bool) (o successor : DependableObject τ) :
    Bool :=
  o.outputObjects.all fun currWrite =>
    !successor.outputObjects.any (overlap currWrite) && !successor.readObjects.any (overlap currWrite)

namespace DepState

section
variable {τ M : Type} {s : DepState τ M} {e : Nat → Int} {u v w x y : Nat}

/-- `succ.erase` on the successors of `w`. -/
def eraseSuccessor (s : DepState τ M) (w x : Nat) : DepState τ M :=
  s.modifyObj w fun o => { o with successors := o.successors.erase x }

/-- Source: `DependableObject::releaseReadDependencies` (`core/dependableobject.cpp:129`), with
`BaseDependency::overlap` as a parameter. -/
def releaseReadDependencies [DependenciesDomain τ M] (overlap : τ → τ → Bool) (s : DepState τ M)
    (x : Nat) : DepState τ M :=
  let m := (s.obj x).readObjects.foldl (fun m t => DependenciesDomain.deleteReader m x t) s.map
  let s : DepState τ M := { s with map := m }
  (s.obj x).successors.foldl (fun s v =>
    if canRemovePredecessor overlap (s.obj x) (s.obj v) then (s.decrease v).eraseSuccessor x v
    else s) s

/-! ## Erasing an edge -/

@[simp] theorem eraseSuccessor_live : (s.eraseSuccessor w x).Live y ↔ s.Live y := by
  simp only [Live, eraseSuccessor, modifyObj_obj, modifyObj_lastDepObjId]
  split <;> rfl

/-- What erasing a successor leaves alone in every object. -/
theorem eraseSuccessor_obj (y : Nat) : (s.eraseSuccessor w x).obj y =
    { s.obj y with successors := ((s.eraseSuccessor w x).obj y).successors } := by
  simp only [eraseSuccessor, modifyObj_obj]
  split <;> rfl

theorem eraseSuccessor_edge (hw : (s.obj w).successors.Nodup) :
    (s.eraseSuccessor w x).Edge u v ↔ s.Edge u v ∧ ¬ (u = w ∧ v = x) := by
  unfold Edge
  rw [eraseSuccessor_live]
  simp only [eraseSuccessor, modifyObj_obj]
  split
  · next h =>
    subst h
    simp only [hw.mem_erase_iff]
    tauto
  · next h => tauto

theorem eraseSuccessor_predCount_of_ne (hw : (s.obj w).successors.Nodup) (h : y ≠ x) :
    (s.eraseSuccessor w x).predCount y = s.predCount y := by
  unfold predCount
  congr 1
  refine Finset.filter_congr fun u _ => ?_
  rw [eraseSuccessor_edge hw]
  tauto

theorem eraseSuccessor_predCount_self (hw : s.Live w) (hnd : (s.obj w).successors.Nodup)
    (h : x ∈ (s.obj w).successors) :
    (s.eraseSuccessor w x).predCount x + 1 = s.predCount x := by
  have hset : ((Finset.range s.lastDepObjId).filter fun u => (s.eraseSuccessor w x).Edge u x) =
      ((Finset.range s.lastDepObjId).filter fun u => s.Edge u x).erase w := by
    ext u
    simp only [Finset.mem_filter, Finset.mem_erase, eraseSuccessor_edge hnd]
    tauto
  have hmem : w ∈ (Finset.range s.lastDepObjId).filter fun u => s.Edge u x :=
    Finset.mem_filter.2 ⟨Finset.mem_range.2 hw.1, hw, h⟩
  unfold predCount
  rw [show (s.eraseSuccessor w x).lastDepObjId = s.lastDepObjId from rfl, hset]
  exact Finset.card_erase_add_one hmem

/-- The edge that goes leaves its increment behind. -/
theorem Accounted.eraseSuccessor (h : s.Accounted e) (hwf : s.WF) (hw : s.Live w)
    (hx : x ∈ (s.obj w).successors) :
    (s.eraseSuccessor w x).Accounted fun y => e y + if y = x then 1 else 0 := by
  intro y hy
  have h1 := h y (eraseSuccessor_live.1 hy)
  have hnd := hwf.nodup w hw
  rw [eraseSuccessor_obj]
  dsimp only
  by_cases hyx : y = x
  · subst hyx
    have h2 := eraseSuccessor_predCount_self hw hnd hx
    rw [if_pos rfl]
    omega
  · rw [eraseSuccessor_predCount_of_ne hnd hyx, if_neg hyx]
    omega

theorem WF.eraseSuccessor (h : s.WF) (hw : s.Live w) : (s.eraseSuccessor w x).WF where
  nodup u hu := by
    have hu' := h.nodup u (eraseSuccessor_live.1 hu)
    simp only [DepState.eraseSuccessor, modifyObj_obj]
    split
    · exact hu'.erase x
    · exact hu'
  irrefl u hu hmem := by
    have huu := (eraseSuccessor_edge (h.nodup w hw)).1 ⟨hu, hmem⟩
    exact h.irrefl u huu.1.1 huu.1.2
  live_succ u v huv := by
    rw [eraseSuccessor_live]
    exact h.live_succ u v ((eraseSuccessor_edge (h.nodup w hw)).1 huv).1
  references u hu := by
    rw [eraseSuccessor_obj]
    exact h.references u (eraseSuccessor_live.1 hu)

/-! ## Erasing and releasing -/

theorem decrementPredecessors_eraseSuccessor :
    (s.eraseSuccessor w x).decrementPredecessors y =
      (s.decrementPredecessors y).eraseSuccessor w x := by
  show DepState.mk _ _ _ = DepState.mk _ _ _
  congr 1
  funext z
  simp only [eraseSuccessor, decrementPredecessors, modifyObj_obj]
  split <;> split <;> rfl

section
variable [DependenciesDomain τ M]

/-- The completion of another object does not look at the successors of the task `w`. -/
theorem finishedWith_eraseSuccessor {dec : DepState τ M → Nat → DepState τ M}
    (hdec : ∀ s y, (s.obj w).commutation = none →
      dec (s.eraseSuccessor w x) y = (dec s y).eraseSuccessor w x ∧
        ((dec s y).obj w).commutation = none)
    (hw : (s.obj w).commutation = none) (hy : y ≠ w) :
    finishedWith dec (s.eraseSuccessor w x) y = (finishedWith dec s y).eraseSuccessor w x ∧
      ((finishedWith dec s y).obj w).commutation = none := by
  have hfold : ∀ (l : List Nat) (s : DepState τ M), (s.obj w).commutation = none →
      l.foldl dec (s.eraseSuccessor w x) = (l.foldl dec s).eraseSuccessor w x ∧
        ((l.foldl dec s).obj w).commutation = none := by
    intro l
    induction l with
    | nil => exact fun s hw => ⟨rfl, hw⟩
    | cons v l ih =>
      intro s hw
      obtain ⟨h1, h2⟩ := hdec s v hw
      rw [List.foldl_cons, List.foldl_cons, h1]
      exact ih _ h2
  -- an update of `y` and of the map does not see the edge
  have hmodify : ∀ (f : DependableObject τ → DependableObject τ) (s : DepState τ M) (m : M),
      ({ s.eraseSuccessor w x with map := m } : DepState τ M).modifyObj y f =
        (({ s with map := m } : DepState τ M).modifyObj y f).eraseSuccessor w x := by
    intro f s m
    show DepState.mk _ _ _ = DepState.mk _ _ _
    congr 1
    funext z
    by_cases hz : z = y
    · subst hz
      simp [eraseSuccessor, modifyObj_obj, hy]
    · simp [eraseSuccessor, modifyObj_obj, hz]
  have hfirst : (s.eraseSuccessor w x).modifyObj y (fun o => { o with references := o.references - 1 }) =
      (s.modifyObj y fun o => { o with references := o.references - 1 }).eraseSuccessor w x :=
    hmodify _ s s.map
  have hobj : ∀ s : DepState τ M, (s.eraseSuccessor w x).obj y = s.obj y := fun s =>
    modifyObj_obj_of_ne _ hy
  have hwy : ∀ (f : DependableObject τ → DependableObject τ) (s : DepState τ M),
      (s.modifyObj y f).obj w = s.obj w := fun f s => modifyObj_obj_of_ne _ (Ne.symm hy)
  have hw₁ : ((s.modifyObj y fun o => { o with references := o.references - 1 }).obj w).commutation =
      none := by
    rw [hwy]
    exact hw
  unfold finishedWith
  dsimp only
  rw [hfirst, hobj]
  split
  · rw [hmodify]
    refine hfold _ _ ?_
    rw [hwy]
    exact hw₁
  · exact ⟨rfl, hw₁⟩

/-- Releasing objects does not look at the successors of the task `w`, which no release goes
through. -/
theorem decreasePredecessors_eraseSuccessor (fuel : Nat) : ∀ (s : DepState τ M) (y : Nat),
    (s.obj w).commutation = none →
    decreasePredecessors fuel (s.eraseSuccessor w x) y =
      (decreasePredecessors fuel s y).eraseSuccessor w x ∧
    ((decreasePredecessors fuel s y).obj w).commutation = none := by
  have hdec : ∀ (s : DepState τ M) (y : Nat), (s.obj w).commutation = none →
      ((s.decrementPredecessors y).obj w).commutation = none := by
    intro s y hw
    rw [countersOnly_decrementPredecessors.obj w]
    exact hw
  induction fuel with
  | zero =>
    intro s y hw
    exact ⟨decrementPredecessors_eraseSuccessor, hdec s y hw⟩
  | succ fuel ih =>
    intro s y hw
    simp only [decreasePredecessors]
    rw [decrementPredecessors_eraseSuccessor, eraseSuccessor_obj]
    dsimp only
    split
    · cases hc : ((s.decrementPredecessors y).obj y).commutation with
      | none => exact ⟨rfl, hdec s y hw⟩
      | some c =>
        have hne : y ≠ w := by
          rintro rfl
          rw [hdec s y hw] at hc
          cases hc
        exact finishedWith_eraseSuccessor (s :=
          { s.decrementPredecessors y with
            map := DependenciesDomain.removeCommDO (s.decrementPredecessors y).map y c.target })
          ih (hdec s y hw) hne
    · exact ⟨rfl, hdec s y hw⟩

/-- One round of the loop in either order. -/
theorem decrease_eraseSuccessor (hw : (s.obj w).commutation = none) :
    (s.eraseSuccessor w x).decrease y = (s.decrease y).eraseSuccessor w x :=
  (decreasePredecessors_eraseSuccessor s.lastDepObjId s y hw).1

end

end

end DepState

end OmpSs.Deps
