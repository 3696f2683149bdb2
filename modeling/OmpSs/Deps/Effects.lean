import OmpSs.Deps.Accounting

/-!
# The effect of the shared operations on the graph

`dependOnLastWriter` and `dependOnReaders` make one object depend on several others (`Depended`),
`finished` retires an object and releases its successors (`retire`). Both are described here for
every domain: which edges there are afterwards, and that the counters stay accounted for. `Counted`
is the half of the accounting that safety needs: no counter is below the number of predecessors,
whether or not the objects a status records have finished. In the statuses a completion takes the object
away from what it has recorded and leaves the rest (`Forgets`).
-/

namespace OmpSs.Deps

namespace TrackableObject

/-- Between two statuses the object `x` may have been forgotten, and nothing else; nothing is new. -/
structure Forgets (x : Nat) (o o' : TrackableObject) : Prop where
  lastWriter : ∀ w, o.lastWriter = some w → w ≠ x → o'.lastWriter = some w
  readers : ∀ u ∈ o.versionReaders, u ≠ x → u ∈ o'.versionReaders
  commDO : o.commDO = none → o'.commDO = none
  lastWriter_of : ∀ w, o'.lastWriter = some w → o.lastWriter = some w
  readers_of : ∀ u ∈ o'.versionReaders, u ∈ o.versionReaders

section
variable {x : Nat} {o o' o'' : TrackableObject}

theorem Forgets.refl : o.Forgets x o :=
  ⟨fun _ h _ => h, fun _ h _ => h, fun h => h, fun _ h => h, fun _ h => h⟩

theorem Forgets.trans (h : o.Forgets x o') (h' : o'.Forgets x o'') : o.Forgets x o'' where
  lastWriter w hw hne := h'.lastWriter w (h.lastWriter w hw hne) hne
  readers u hu hne := h'.readers u (h.readers u hu hne) hne
  commDO hc := h'.commDO (h.commDO hc)
  lastWriter_of w hw := h.lastWriter_of w (h'.lastWriter_of w hw)
  readers_of u hu := h.readers_of u (h'.readers_of u hu)

theorem Forgets.deleteLastWriter : o.Forgets x (o.deleteLastWriter x) := by
  unfold TrackableObject.deleteLastWriter
  split
  · next heq =>
    refine ⟨fun w hw hne => ?_, fun _ h _ => h, fun h => h, nofun, fun _ h => h⟩
    exact absurd (Option.some.inj (hw.symm.trans heq)) hne
  · exact .refl

theorem Forgets.deleteReader : o.Forgets x (o.deleteReader x) where
  lastWriter _ h _ := h
  readers u hu hne := List.mem_filter.2 ⟨hu, by simpa using hne⟩
  commDO h := h
  lastWriter_of _ h := h
  readers_of u hu := (List.mem_filter.1 hu).1

end

end TrackableObject

end OmpSs.Deps

namespace OmpSs.Deps.DepState

section
variable {τ M κ : Type} {s s' s'' : DepState τ M} {e g : Nat → Int} {P Q : Nat → Prop}
  {u v w x y : Nat}

/-! ## Dependences on several objects -/

/-- The state `s'` is `s` with `x` among the successors of the objects in `P`. -/
structure Depended (x : Nat) (P : Nat → Prop) (s s' : DepState τ M) : Prop where
  size : s'.lastDepObjId = s.lastDepObjId
  map : s'.map = s.map
  obj : ∀ y, s'.obj y = { s.obj y with
    numPredecessors := (s'.obj y).numPredecessors, successors := (s'.obj y).successors }
  numPredecessors : ∀ y, y ≠ x → (s'.obj y).numPredecessors = (s.obj y).numPredecessors
  successors : ∀ u v, v ∈ (s'.obj u).successors ↔ v ∈ (s.obj u).successors ∨ P u ∧ v = x

theorem Depended.refl (hP : ∀ u, ¬ P u) : Depended x P s s :=
  ⟨rfl, rfl, fun _ => rfl, fun _ _ => rfl, fun u v => by simp [hP u]⟩

theorem Depended.trans (h : Depended x P s s') (h' : Depended x Q s' s'') :
    Depended x (fun u => P u ∨ Q u) s s'' where
  size := h'.size.trans h.size
  map := h'.map.trans h.map
  obj y := by rw [h'.obj y, h.obj y]
  numPredecessors y hy := (h'.numPredecessors y hy).trans (h.numPredecessors y hy)
  successors u v := by rw [h'.successors, h.successors]; tauto

theorem Depended.congr (h : Depended x P s s') (hPQ : ∀ u, P u ↔ Q u) : Depended x Q s s' :=
  { h with successors := fun u v => by rw [h.successors, hPQ] }

theorem Depended.live (h : Depended x P s s') : s'.Live y ↔ s.Live y := by
  unfold Live
  rw [h.size, h.obj y]

theorem Depended.edge (h : Depended x P s s') :
    s'.Edge u v ↔ s.Edge u v ∨ s.Live u ∧ P u ∧ v = x := by
  unfold Edge
  rw [h.live, h.successors]
  tauto

theorem Depended.commutation (h : Depended x P s s') :
    (s'.obj y).commutation = (s.obj y).commutation := by rw [h.obj y]

theorem Depended.statusAt [StatusMap κ M] (h : Depended x P s s') (k : κ) :
    s'.statusAt k = s.statusAt k := by
  unfold DepState.statusAt
  rw [h.map]

/-- The counter of every unfinished object is at least its number of unfinished predecessors plus
`g`. -/
def Counted (s : DepState τ M) (g : Nat → Int) : Prop :=
  ∀ x, s.Live x → s.predCount x + g x ≤ (s.obj x).numPredecessors

/-- `depend` is a dependence on one object. -/
theorem depended_depend (hne : w ≠ x) : Depended x (· = w) s (s.depend w x) := by
  by_cases hmem : x ∈ (s.obj w).successors
  · rw [depend_of_mem hmem]
    refine ⟨rfl, rfl, fun _ => rfl, fun _ _ => rfl, fun u v => ⟨.inl, ?_⟩⟩
    rintro (h | ⟨rfl, rfl⟩)
    · exact h
    · exact hmem
  · rw [depend_of_not_mem hne hmem]
    refine ⟨rfl, rfl, fun y => ?_, fun y hy => ?_, fun u v => ?_⟩
    · simp only [DepState.increasePredecessors, pushSuccessor, modifyObj_obj]
      split <;> split <;> rfl
    · simp only [DepState.increasePredecessors, pushSuccessor, modifyObj_obj, hy, if_false]
      split <;> rfl
    · simp only [DepState.increasePredecessors, pushSuccessor, modifyObj_obj]
      by_cases huw : u = w
      · subst huw; simp [hne]
      · by_cases hux : u = x
        · subst hux; simp [huw]
        · simp [huw, hux]

/-- A dependence keeps the graph well formed, and the new edge comes with its increment. A
dependence on a finished object is an increment without an edge. -/
theorem Counted.depend (hwf : s.WF) (hc : s.Counted g) (hx : s.Live x) (hne : w ≠ x) :
    (s.depend w x).WF ∧ (s.depend w x).Counted g := by
  by_cases hmem : x ∈ (s.obj w).successors
  · rw [depend_of_mem hmem]; exact ⟨hwf, hc⟩
  · rw [depend_of_not_mem hne hmem]
    refine ⟨(hwf.pushSuccessor hx hne hmem).increasePredecessors, fun y hy => ?_⟩
    have hy' := pushSuccessor_live.1 (sameGraph_increasePredecessors.live.1 hy)
    have h1 := hc y hy'
    have hnum : (((s.pushSuccessor w x).increasePredecessors x).obj y).numPredecessors =
        (s.obj y).numPredecessors + if y = x then 1 else 0 := by
      simp only [DepState.increasePredecessors, pushSuccessor, modifyObj_obj]
      split <;> split <;> simp
    rw [sameGraph_increasePredecessors.predCount, hnum]
    by_cases hyx : y = x
    · subst hyx
      by_cases hw : s.Live w
      · rw [pushSuccessor_predCount_self hw hmem, if_pos rfl]; omega
      · have : (s.pushSuccessor w y).predCount y = s.predCount y := by
          unfold predCount
          congr 1
          refine Finset.filter_congr fun u _ => ?_
          rw [pushSuccessor_edge]
          tauto
        rw [this, if_pos rfl]; omega
    · rw [pushSuccessor_predCount_of_ne hyx, if_neg hyx]; omega

/-- `x` comes to depend on every object of the list but itself. -/
def dependAll (s : DepState τ M) (x : Nat) (l : List Nat) : DepState τ M :=
  l.foldl (fun s r => if r = x then s else s.depend r x) s

theorem dependOnReaders_eq [StatusMap κ M] (k : κ) :
    s.dependOnReaders x k = s.dependAll x (s.statusAt k).versionReaders := rfl

theorem dependOnLastWriter_eq [StatusMap κ M] (k : κ) :
    s.dependOnLastWriter x k = s.dependAll x (s.statusAt k).lastWriter.toList := by
  unfold dependOnLastWriter dependAll
  split <;> simp [*]

theorem depended_dependAll (l : List Nat) :
    Depended x (fun u => u ∈ l ∧ u ≠ x) s (s.dependAll x l) := by
  induction l generalizing s with
  | nil => exact .refl (by simp)
  | cons w l ih =>
    show Depended x _ s ((if w = x then s else s.depend w x).dependAll x l)
    split
    · next h => exact (ih (s := s)).congr fun u => by grind
    · next h => exact ((depended_depend h).trans ih).congr fun u => by grind

/-- Dependences are made without the map. -/
theorem dependAll_map (m : M) (l : List Nat) :
    ({ s with map := m } : DepState τ M).dependAll x l = { s.dependAll x l with map := m } := by
  have hdepend : ∀ (s : DepState τ M) w,
      ({ s with map := m } : DepState τ M).depend w x = { s.depend w x with map := m } := by
    intro s w
    simp only [DepState.depend, addSuccessor]
    split_ifs <;> rfl
  induction l generalizing s with
  | nil => rfl
  | cons w l ih =>
    show DepState.dependAll (if w = x then _ else ({ s with map := m } : DepState τ M).depend w x) x l =
      { DepState.dependAll (if w = x then s else s.depend w x) x l with map := m }
    rw [hdepend]
    split
    · exact ih
    · exact ih

theorem Counted.dependAll (hwf : s.WF) (hc : s.Counted g) (hx : s.Live x) (l : List Nat) :
    (s.dependAll x l).WF ∧ (s.dependAll x l).Counted g := by
  induction l generalizing s with
  | nil => exact ⟨hwf, hc⟩
  | cons w l ih =>
    show ((if w = x then s else s.depend w x).dependAll x l).WF ∧
      ((if w = x then s else s.depend w x).dependAll x l).Counted g
    split
    · exact ih hwf hc hx
    · next h =>
      obtain ⟨hwf', hc'⟩ := hc.depend hwf hx h
      exact ih hwf' hc' ((depended_depend h).live.2 hx)

/-- Where all the objects are unfinished the accounting does not move. -/
theorem Accounted.dependAll (hwf : s.WF) (ha : s.Accounted e) (hx : s.Live x) (l : List Nat)
    (hl : ∀ w ∈ l, s.Live w) : (s.dependAll x l).WF ∧ (s.dependAll x l).Accounted e := by
  induction l generalizing s with
  | nil => exact ⟨hwf, ha⟩
  | cons w l ih =>
    show ((if w = x then s else s.depend w x).dependAll x l).WF ∧
      ((if w = x then s else s.depend w x).dependAll x l).Accounted e
    split
    · exact ih hwf ha hx fun w' hw' => hl w' (by simp [hw'])
    · next h =>
      obtain ⟨hwf', ha', -⟩ := depend_spec hwf ha (hl w (by simp)) hx h
      exact ih hwf' ha' ((depended_depend h).live.2 hx) fun w' hw' =>
        (depended_depend h).live.2 (hl w' (by simp [hw']))

/-! ## Completion -/

section
variable [DependenciesDomain τ M]

/-- The state in which `finished` starts to release the successors of `x`. -/
def retire (s : DepState τ M) (x : Nat) : DepState τ M :=
  let m := (s.obj x).outputObjects.foldl (fun m t => DependenciesDomain.deleteLastWriter m x t) s.map
  let m := (s.obj x).readObjects.foldl (fun m t => DependenciesDomain.deleteReader m x t) m
  ({ s with map := m } : DepState τ M).modifyObj x fun o =>
    { o with references := o.references - 1, finished := true }

theorem finishedWith_eq (dec : DepState τ M → Nat → DepState τ M)
    (h : (s.obj x).references = 1) :
    finishedWith dec s x = (s.obj x).successors.foldl dec (retire s x) := by
  simp only [finishedWith, modifyObj_obj_self, h, Int.sub_self, if_true]
  congr 1
  simp only [retire, modifyObj]
  congr 1
  funext y
  split
  · next hy => subst hy; simp
  · rfl

theorem retire_obj_of_ne (h : y ≠ x) : (retire s x).obj y = s.obj y := if_neg h

theorem sameGraph_retire : SameGraph (s.markFinished x) (retire s x) where
  size := rfl
  finished y := by
    simp only [retire, markFinished, modifyObj_obj]
    split <;> rfl
  successors y := by
    simp only [retire, markFinished, modifyObj_obj]
    split <;> rfl

theorem retire_live : (retire s x).Live y ↔ s.Live y ∧ y ≠ x :=
  sameGraph_retire.live.trans markFinished_live

theorem retire_edge : (retire s x).Edge u v ↔ s.Edge u v ∧ u ≠ x :=
  sameGraph_retire.edge.trans markFinished_edge

theorem WF.retire (h : s.WF) (hnone : ∀ u, ¬ s.Edge u x) : (s.retire x).WF := by
  refine sameGraph_retire.wf (h.markFinished hnone) fun y hy => .inl ?_
  have hne := (markFinished_live.1 hy).2
  unfold DepState.markFinished
  rw [retire_obj_of_ne hne, modifyObj_obj_of_ne _ hne]

/-- What `retire` leaves alone in every object. -/
theorem retire_fields (y : Nat) : (s.retire x).obj y = { s.obj y with
    references := ((s.retire x).obj y).references, finished := ((s.retire x).obj y).finished } := by
  simp only [retire, modifyObj_obj]
  split <;> rfl

/-- Retiring turns the edges of `x` into increments that are still to be taken back. -/
theorem Accounted.retire (h : s.Accounted e) (hx : s.Live x) :
    (s.retire x).Accounted fun y => e y + if y ∈ (s.obj x).successors then 1 else 0 := by
  refine sameGraph_retire.accounted (h.markFinished hx) fun y hy => ?_
  have hne := (markFinished_live.1 hy).2
  unfold DepState.markFinished
  rw [retire_obj_of_ne hne, modifyObj_obj_of_ne _ hne]

/-- The counter of a task is decremented and nothing else happens: a ready task runs later. -/
theorem decreasePredecessors_task (hx : (s.obj x).commutation = none) (fuel : Nat) :
    decreasePredecessors fuel s x = s.decrementPredecessors x := by
  cases fuel with
  | zero => rfl
  | succ fuel =>
    have hc : ((s.decrementPredecessors x).obj x).commutation = none := by
      simp [decrementPredecessors, hx]
    simp only [decreasePredecessors, hc]
    split <;> rfl

end

/-- Without an open commutation object `finalizeReduction` does nothing. -/
theorem finalizeReduction_of_none [StatusMap κ M] [DependenciesDomain τ M] {k : κ}
    (h : (s.statusAt k).commDO = none) : s.finalizeReduction k = s := by
  unfold finalizeReduction
  rw [h]

/-- A task that does not wait becomes the last writer. -/
theorem setAsWriter_of_not_waits [StatusMap κ M] {k : κ} {target : τ} (hw : (s.obj x).waits = false) :
    s.setAsWriter x k target =
      ((s.modifyStatus k TrackableObject.flushReaders).addWriteTarget x target).modifyStatus k
        (·.setLastWriter x) := by
  have hnot : ¬ (s.obj x).waits = true := by
    rw [hw]
    exact Bool.false_ne_true
  exact if_neg hnot

/-- An `inout` access without commutation objects: the object comes to depend on all that is recorded. -/
theorem inoutAccess_eq [StatusMap κ M] [DependenciesDomain τ M] {k : κ} {target : τ}
    (h : (s.statusAt k).commDO = none) :
    s.submitDependableObjectInoutDataAccess x k target =
      (s.dependAll x ((s.statusAt k).lastWriter.toList ++ (s.statusAt k).versionReaders)).setAsWriter
        x k target := by
  have hd := depended_dependAll (s := s) (x := x) (s.statusAt k).lastWriter.toList
  unfold submitDependableObjectInoutDataAccess dependOnReadersAndSetAsWriter
  dsimp only
  rw [finalizeReduction_of_none h, dependOnLastWriter_eq, dependOnReaders_eq, hd.statusAt]
  congr 1
  exact (List.foldl_append ..).symm

/-- An `out` access looks at the last writer only if there are no readers. -/
theorem outputAccess_eq [StatusMap κ M] [DependenciesDomain τ M] {k : κ} {target : τ}
    (h : (s.statusAt k).commDO = none) :
    s.submitDependableObjectOutputDataAccess x k target =
      (s.dependAll x (if (s.statusAt k).hasReaders then (s.statusAt k).versionReaders
        else (s.statusAt k).lastWriter.toList)).setAsWriter x k target := by
  unfold submitDependableObjectOutputDataAccess dependOnReadersAndSetAsWriter
  dsimp only
  rw [finalizeReduction_of_none h]
  by_cases hr : (s.statusAt k).hasReaders = true
  · rw [if_pos hr, if_pos hr, dependOnReaders_eq]
  · have hnil : (s.statusAt k).versionReaders = [] := by
      simpa [TrackableObject.hasReaders] using hr
    have hd := depended_dependAll (s := s) (x := x) (s.statusAt k).lastWriter.toList
    rw [if_neg hr, if_neg hr, dependOnLastWriter_eq, dependOnReaders_eq, hd.statusAt, hnil]
    rfl

/-- An `in` access. -/
theorem inputAccess_eq [StatusMap κ M] [DependenciesDomain τ M] {k : κ}
    (h : (s.statusAt k).commDO = none) (hw : (s.obj x).waits = false) :
    s.submitDependableObjectInputDataAccess x k =
      (s.dependAll x (s.statusAt k).lastWriter.toList).addAsReader x k := by
  unfold submitDependableObjectInputDataAccess
  dsimp only
  rw [finalizeReduction_of_none h, dependOnLastWriter_eq, if_neg]
  rw [(depended_dependAll _).obj, hw]
  exact Bool.false_ne_true

/-- Two states that differ in the counters only. -/
structure CountersOnly (s s' : DepState τ M) : Prop where
  size : s'.lastDepObjId = s.lastDepObjId
  map : s'.map = s.map
  obj : ∀ y, s'.obj y = { s.obj y with numPredecessors := (s'.obj y).numPredecessors }

theorem CountersOnly.refl : CountersOnly s s := ⟨rfl, rfl, fun _ => rfl⟩

theorem CountersOnly.trans (h : CountersOnly s s') (h' : CountersOnly s' s'') :
    CountersOnly s s'' where
  size := h'.size.trans h.size
  map := h'.map.trans h.map
  obj y := by rw [h'.obj y, h.obj y]

theorem countersOnly_decrementPredecessors : CountersOnly s (s.decrementPredecessors x) := by
  refine ⟨rfl, rfl, fun y => ?_⟩
  simp only [decrementPredecessors, modifyObj_obj]
  split <;> rfl

theorem CountersOnly.sameGraph (h : CountersOnly s s') : SameGraph s s' :=
  ⟨h.size, fun y => by rw [h.obj y], fun y => by rw [h.obj y]⟩

end

end OmpSs.Deps.DepState
