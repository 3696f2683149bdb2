import OmpSs.Deps.Effects
import OmpSs.Deps.Plain

/-!
# Releasing objects of the plain domain

The invariant of the plain domain and its preservation by `decreasePredecessors` and `finished`,
the two operations that recurse through the graph. `Plain.Inv s e` says that counters are accounted
for (`Accounted`), that whatever a status records is unfinished and will be deleted from it when it
finishes, and that a commutation object is released as soon as its counter reaches 0; `e` counts the
increments of the operation in progress. `Released` is the frame of `decreasePredecessors`.

The recursion is two calls deep, since commutation objects precede tasks only
(`Inv.commutation_succ`) and a task that becomes ready runs later; so the fuel of the model always
suffices.
-/

namespace OmpSs.Deps.Plain

open DepState

section
variable {s s' : State} {e : Nat → Int} {a b c u v w x y : Nat}

/-! ## Statuses -/

@[simp] theorem statusAt_modifyObj (f : DependableObject Nat → DependableObject Nat) :
    (s.modifyObj x f).statusAt a = s.statusAt a := rfl

theorem statusAt_modifyStatus (f : TrackableObject → TrackableObject) :
    (s.modifyStatus a f).statusAt b = if b = a then f (s.statusAt b) else s.statusAt b := by
  show (if b = a then f (s.map.trackable a) else s.map.trackable b) = _
  split
  · next h => subst h; rfl
  · rfl

@[simp] theorem modifyStatus_obj (f : TrackableObject → TrackableObject) :
    (s.modifyStatus a f).obj = s.obj := rfl

@[simp] theorem modifyStatus_keys (f : TrackableObject → TrackableObject) :
    (s.modifyStatus a f).map.keys = s.map.keys := rfl

@[simp] theorem update_keys (m : DepsMap) (f : TrackableObject → TrackableObject) :
    (m.update a f).keys = m.keys := by
  unfold DepsMap.update
  split <;> rfl

theorem update_trackable (m : DepsMap) (f : TrackableObject → TrackableObject) :
    (m.update a f).trackable b =
      if b = a ∧ a ∈ m.keys then f (m.trackable b) else m.trackable b := by
  unfold DepsMap.update
  by_cases ha : a ∈ m.keys
  · rw [if_pos ha]
    show (if b = a then f (m.trackable a) else m.trackable b) = _
    by_cases hb : b = a
    · subst hb; simp [ha]
    · simp [hb]
  · simp [ha]

/-- The last writers after `x` has been deleted from the statuses of `targets`. -/
theorem foldl_deleteLastWriter (targets : List Nat) (m : DepsMap) :
    (targets.foldl (fun m t => DependenciesDomain.deleteLastWriter m x t) m).keys = m.keys ∧
    ∀ b, (targets.foldl (fun m t => DependenciesDomain.deleteLastWriter m x t) m).trackable b =
      if b ∈ targets ∧ b ∈ m.keys then (m.trackable b).deleteLastWriter x else m.trackable b := by
  induction targets generalizing m with
  | nil => simp
  | cons t targets ih =>
    obtain ⟨hk, ht⟩ := ih (m.deleteLastWriter x t)
    rw [List.foldl_cons]
    refine ⟨hk.trans (update_keys ..), fun b => ?_⟩
    have hidem : ((m.trackable b).deleteLastWriter x).deleteLastWriter x =
        (m.trackable b).deleteLastWriter x := by
      simp only [TrackableObject.deleteLastWriter]
      split <;> simp_all
    refine (ht b).trans ?_
    simp only [DepsMap.deleteLastWriter, update_keys, update_trackable, List.mem_cons]
    grind

/-- The readers after `x` has been deleted from the statuses of `targets`. -/
theorem foldl_deleteReader (targets : List Nat) (m : DepsMap) :
    (targets.foldl (fun m t => DependenciesDomain.deleteReader m x t) m).keys = m.keys ∧
    ∀ b, (targets.foldl (fun m t => DependenciesDomain.deleteReader m x t) m).trackable b =
      if b ∈ targets ∧ b ∈ m.keys then (m.trackable b).deleteReader x else m.trackable b := by
  induction targets generalizing m with
  | nil => simp
  | cons t targets ih =>
    obtain ⟨hk, ht⟩ := ih (m.deleteReader x t)
    rw [List.foldl_cons]
    refine ⟨hk.trans (update_keys ..), fun b => ?_⟩
    have hidem : ((m.trackable b).deleteReader x).deleteReader x =
        (m.trackable b).deleteReader x := by
      simp [TrackableObject.deleteReader, List.filter_filter]
    refine (ht b).trans ?_
    simp only [DepsMap.deleteReader, update_keys, update_trackable, List.mem_cons]
    grind

/-! ## The invariant -/

/-- The dummy increment of a commutation object that no `finalizeReduction` has closed yet. -/
def dummy (s : State) (x : Nat) : Int :=
  match (s.obj x).commutation with
  | none => 0
  | some c => if (s.statusAt c.target).commDO = some x then 1 else 0

/-- What the statuses record: unfinished objects, that will delete themselves from the status when
they finish. Readers are tasks; the open commutation object of an address is that address's. -/
structure Recorded (s : State) : Prop where
  keys : ∀ a, a ∉ s.map.keys → s.statusAt a = {}
  writer : ∀ a w, (s.statusAt a).lastWriter = some w →
    s.Live w ∧ a ∈ (s.obj w).outputObjects
  reader : ∀ a r, r ∈ (s.statusAt a).versionReaders →
    s.Live r ∧ a ∈ (s.obj r).readObjects ∧ (s.obj r).commutation = none
  openDO : ∀ a c, (s.statusAt a).commDO = some c →
    s.Live c ∧ a ∈ (s.obj c).outputObjects ∧ ∃ k, (s.obj c).commutation = some ⟨a, k⟩

/-- The accounting of the plain domain, with `e` the increments of the operation in progress, and
what its statuses record. -/
structure Core (s : State) (e : Nat → Int) : Prop extends Recorded s where
  wf : s.WF
  accounted : s.Accounted fun x => dummy s x + e x
  pending : ∀ x, 0 ≤ e x
  fresh : ∀ x, s.lastDepObjId ≤ x → e x = 0
  commutation_succ : ∀ c v, s.Edge c v → (s.obj c).commutation ≠ none →
    (s.obj v).commutation = none

/-- The invariant of the plain domain: a commutation object whose counter is 0 has finished. -/
structure Inv (s : State) (e : Nat → Int) : Prop extends Core s e where
  released : ∀ c, s.Live c → (s.obj c).commutation ≠ none → (s.obj c).numPredecessors ≠ 0

theorem Core.dummy_eq_one (h : Core s e) (hc : (s.statusAt a).commDO = some c) : dummy s c = 1 := by
  obtain ⟨-, -, k, hk⟩ := h.openDO a c hc
  simp [dummy, hk, hc]

theorem dummy_nonneg : 0 ≤ dummy s x := by
  unfold dummy
  split
  · omega
  · split <;> omega

/-- The counter is at least the number of unfinished predecessors. -/
theorem Core.predCount_le (h : Core s e) (hx : s.Live x) :
    (s.predCount x : Int) + dummy s x + e x = (s.obj x).numPredecessors := by
  have := h.accounted x hx
  dsimp only at this
  omega

/-- The frame of releasing the objects in `X`: none but the commutation objects in `X` finish, no
successor set changes, and a status changes only where one of these was its last writer. -/
structure Released (X : Nat → Prop) (s s' : State) : Prop where
  size : s'.lastDepObjId = s.lastDepObjId
  keys : s'.map.keys = s.map.keys
  successors : ∀ y, (s'.obj y).successors = (s.obj y).successors
  commutation : ∀ y, (s'.obj y).commutation = (s.obj y).commutation
  waits : ∀ y, (s'.obj y).waits = (s.obj y).waits
  submitted : ∀ y, (s'.obj y).submitted = (s.obj y).submitted
  outputObjects : ∀ y, (s'.obj y).outputObjects = (s.obj y).outputObjects
  readObjects : ∀ y, (s'.obj y).readObjects = (s.obj y).readObjects
  finished : ∀ y, (s'.obj y).finished = (s.obj y).finished ∨
    (s'.obj y).finished = true ∧ X y ∧ (s.obj y).commutation ≠ none
  readers : ∀ b, (s'.statusAt b).versionReaders = (s.statusAt b).versionReaders
  commDO : ∀ b, (s'.statusAt b).commDO = (s.statusAt b).commDO
  lastWriter : ∀ b, (s'.statusAt b).lastWriter = (s.statusAt b).lastWriter ∨
    (s'.statusAt b).lastWriter = none ∧
      ∃ x, (s.statusAt b).lastWriter = some x ∧ X x ∧ (s.obj x).commutation ≠ none

section
variable {X Y : Nat → Prop}

theorem Released.refl : Released X s s := by
  constructor <;> intros <;> first | rfl | exact .inl rfl

theorem Released.mono (h : Released X s s') (hXY : ∀ x, X x → Y x) : Released Y s s' :=
  { h with
    finished := fun y => (h.finished y).imp_right fun ⟨h1, h2, h3⟩ => ⟨h1, hXY y h2, h3⟩
    lastWriter := fun b => (h.lastWriter b).imp_right fun ⟨h1, x, h2, h3, h4⟩ =>
      ⟨h1, x, h2, hXY x h3, h4⟩ }

theorem Released.trans {s'' : State} (h : Released X s s') (h' : Released X s' s'') :
    Released X s s'' where
  size := h'.size.trans h.size
  keys := h'.keys.trans h.keys
  successors y := (h'.successors y).trans (h.successors y)
  commutation y := (h'.commutation y).trans (h.commutation y)
  waits y := (h'.waits y).trans (h.waits y)
  submitted y := (h'.submitted y).trans (h.submitted y)
  outputObjects y := (h'.outputObjects y).trans (h.outputObjects y)
  readObjects y := (h'.readObjects y).trans (h.readObjects y)
  finished y := by
    rcases h'.finished y with h1 | ⟨h1, h2, h3⟩
    · rw [h1]; exact h.finished y
    · exact .inr ⟨h1, h2, h.commutation y ▸ h3⟩
  readers b := (h'.readers b).trans (h.readers b)
  commDO b := (h'.commDO b).trans (h.commDO b)
  lastWriter b := by
    rcases h'.lastWriter b with h1 | ⟨h1, x, h2, h3, h4⟩
    · rw [h1]; exact h.lastWriter b
    · rcases h.lastWriter b with h5 | ⟨h5, -⟩
      · exact .inr ⟨h1, x, h5 ▸ h2, h3, h.commutation x ▸ h4⟩
      · rw [h5] at h2; cases h2

theorem Released.live_of (h : Released X s s') (hy : s'.Live y) : s.Live y := by
  refine ⟨h.size ▸ hy.1, ?_⟩
  rcases h.finished y with h1 | ⟨h1, -⟩
  · exact h1 ▸ hy.2
  · exact absurd hy.2 (by simp [h1])

theorem Released.live_of_not (h : Released X s s') (hne : ¬ X y) : s'.Live y ↔ s.Live y := by
  unfold Live
  rw [h.size, (h.finished y).resolve_right fun hy => hne hy.2.1]

theorem Released.live_task (h : Released X s s') (hy : (s.obj y).commutation = none) :
    s'.Live y ↔ s.Live y := by
  unfold Live
  rw [h.size, (h.finished y).resolve_right fun hx => hx.2.2 hy]

theorem Released.edge (h : Released X s s') : s'.Edge u v ↔ s.Edge u v ∧ s'.Live u := by
  unfold Edge
  rw [h.successors]
  exact ⟨fun h1 => ⟨⟨h.live_of h1.1, h1.2⟩, h1.1⟩, fun h1 => ⟨h1.2, h1.1.2⟩⟩

theorem Released.lastWriter_of (h : Released X s s') (hw : (s'.statusAt b).lastWriter = some w) :
    (s.statusAt b).lastWriter = some w := by
  rcases h.lastWriter b with h | ⟨h1, -⟩
  · rw [← h, hw]
  · rw [h1] at hw; cases hw

end

/-! ## Tasks -/

theorem released_decrementPredecessors : Released (· = x) s (s.decrementPredecessors x) := by
  constructor <;> intros <;> first
    | rfl
    | exact .inl rfl
    | (simp only [decrementPredecessors, modifyObj_obj]; split <;> simp)

theorem dummy_decrementPredecessors : dummy (s.decrementPredecessors x) y = dummy s y := by
  have h := (released_decrementPredecessors (s := s) (x := x)).commutation y
  unfold dummy
  rw [h]
  rfl

/-- A decrement takes back a pending increment. -/
theorem Core.decrementPredecessors (h : Core s e) (hx : 1 ≤ e x) :
    Core (s.decrementPredecessors x) fun y => e y - if y = x then 1 else 0 := by
  have hf := released_decrementPredecessors (s := s) (x := x)
  have hg := sameGraph_decrementPredecessors (s := s) (x := x)
  refine ⟨⟨h.keys, fun b w hw => ?_, fun b r hr => ?_, fun b c hc => ?_⟩,
    h.wf.decrementPredecessors, ?_, fun y => ?_, fun y hy => ?_, fun c v hcv hc => ?_⟩
  · rw [hg.live, hf.outputObjects]; exact h.writer b w hw
  · rw [hg.live, hf.readObjects, hf.commutation]; exact h.reader b r hr
  · rw [hg.live, hf.outputObjects, hf.commutation]; exact h.openDO b c hc
  · have := h.accounted.decrementPredecessors (x := x)
    simpa only [dummy_decrementPredecessors, Int.add_sub_assoc] using this
  · have := h.pending y
    split
    · next hy => subst hy; omega
    · omega
  · have h1 := h.fresh y hy
    have h2 : y ≠ x := by rintro rfl; omega
    simp [h1, h2]
  · rw [hf.commutation] at hc ⊢; exact h.commutation_succ c v (hg.edge.1 hcv) hc

/-- A decrement keeps the invariant unless it leaves a commutation object to be released. -/
theorem Inv.decrementPredecessors (h : Inv s e) (hx : 1 ≤ e x)
    (hrel : (s.obj x).commutation ≠ none → (s.obj x).numPredecessors ≠ 1) :
    Inv (s.decrementPredecessors x) fun y => e y - if y = x then 1 else 0 := by
  refine ⟨h.toCore.decrementPredecessors hx, fun c hc hcc => ?_⟩
  rw [released_decrementPredecessors.commutation] at hcc
  have h1 := h.released c (sameGraph_decrementPredecessors.live.1 hc) hcc
  simp only [DepState.decrementPredecessors, modifyObj_obj]
  split
  · next hcx =>
    subst hcx
    have := hrel hcc
    dsimp only
    omega
  · exact h1

/-- `decreasePredecessors` of a task with a pending increment. -/
theorem Inv.decreasePredecessors_task (h : Inv s e) (hx : 1 ≤ e x)
    (ht : (s.obj x).commutation = none) (fuel : Nat) :
    Inv (decreasePredecessors fuel s x) (fun y => e y - if y = x then 1 else 0) ∧
      Released (· = x) s (decreasePredecessors fuel s x) := by
  rw [DepState.decreasePredecessors_task ht]
  exact ⟨h.decrementPredecessors hx fun hc => absurd ht hc, released_decrementPredecessors⟩

/-! ## Completion -/

theorem retire_keys : (retire s x).map.keys = s.map.keys :=
  (foldl_deleteReader _ _).1.trans (foldl_deleteLastWriter _ _).1

theorem retire_statusAt : (retire s x).statusAt b =
    if b ∈ s.map.keys then
      let o := if b ∈ (s.obj x).outputObjects then (s.statusAt b).deleteLastWriter x
        else s.statusAt b
      if b ∈ (s.obj x).readObjects then o.deleteReader x else o
    else s.statusAt b := by
  have h1 := (foldl_deleteLastWriter (x := x) (s.obj x).outputObjects s.map)
  have h2 := (foldl_deleteReader (x := x) (s.obj x).readObjects
    ((s.obj x).outputObjects.foldl (fun m t => DependenciesDomain.deleteLastWriter m x t) s.map))
  refine (h2.2 b).trans ?_
  rw [h1.1, h1.2 b]
  by_cases hk : b ∈ s.map.keys
  · simp only [hk, and_true, if_true]
    rfl
  · simp only [hk, and_false, if_false]
    rfl

/-- What the statuses record after `x` has been retired: everything but `x`. -/
theorem Core.retire_statusAt (h : Core s e) :
    ((retire s x).statusAt b).commDO = (s.statusAt b).commDO ∧
    (∀ w, ((retire s x).statusAt b).lastWriter = some w ↔
      (s.statusAt b).lastWriter = some w ∧ w ≠ x) ∧
    ∀ r, r ∈ ((retire s x).statusAt b).versionReaders ↔
      r ∈ (s.statusAt b).versionReaders ∧ r ≠ x := by
  have hw : ∀ w, (s.statusAt b).lastWriter = some w → w = x →
      b ∈ s.map.keys ∧ b ∈ (s.obj x).outputObjects := by
    rintro w hw rfl
    refine ⟨?_, (h.writer b w hw).2⟩
    by_contra hk
    rw [h.keys b hk] at hw
    cases hw
  have hr : ∀ r, r ∈ (s.statusAt b).versionReaders → r = x →
      b ∈ s.map.keys ∧ b ∈ (s.obj x).readObjects := by
    rintro r hr rfl
    refine ⟨?_, (h.reader b r hr).2.1⟩
    by_contra hk
    rw [h.keys b hk] at hr
    cases hr
  rw [Plain.retire_statusAt]
  simp only [TrackableObject.deleteLastWriter, TrackableObject.deleteReader]
  refine ⟨?_, fun w => ?_, fun r => ?_⟩
  · split_ifs <;> rfl
  · have := hw w
    split_ifs <;> simp_all <;> grind
  · have := hr r
    split_ifs <;> simp_all

theorem Core.dummy_retire (h : Core s e) : dummy (retire s x) y = dummy s y := by
  have hc : ((retire s x).obj y).commutation = (s.obj y).commutation := by rw [retire_fields]
  unfold dummy
  rw [hc]
  split
  · rfl
  · rw [h.retire_statusAt.1]

/-- Retiring an object without predecessors leaves one increment to take back at each of its
successors. -/
theorem Core.retire (h : Core s e) (hx : s.Live x) (hnum : (s.obj x).numPredecessors = 0) :
    Core (retire s x) fun y => e y + if y ∈ (s.obj x).successors then 1 else 0 := by
  have hcount := h.predCount_le hx
  have hd := dummy_nonneg (s := s) (x := x)
  have hp := h.pending x
  have hnone : ∀ u, ¬ s.Edge u x := not_edge_of_predCount_eq_zero (by omega)
  have hfields : ∀ y, ((DepState.retire s x).obj y).outputObjects = (s.obj y).outputObjects ∧
      ((DepState.retire s x).obj y).readObjects = (s.obj y).readObjects ∧
      ((DepState.retire s x).obj y).commutation = (s.obj y).commutation := by
    intro y
    rw [retire_fields]
    exact ⟨rfl, rfl, rfl⟩
  refine ⟨⟨fun b hb => ?_, fun b w hw => ?_, fun b r hr => ?_, fun b c hc => ?_⟩,
    h.wf.retire hnone, ?_, fun y => ?_, fun y hy => ?_, fun c v hcv hc => ?_⟩
  · rw [retire_keys] at hb
    have := h.keys b hb
    rw [Plain.retire_statusAt, if_neg hb]
    exact this
  · obtain ⟨hw, hne⟩ := (h.retire_statusAt.2.1 w).1 hw
    rw [retire_live, (hfields w).1]
    exact ⟨⟨(h.writer b w hw).1, hne⟩, (h.writer b w hw).2⟩
  · obtain ⟨hr, hne⟩ := (h.retire_statusAt.2.2 r).1 hr
    rw [retire_live, (hfields r).2.1, (hfields r).2.2]
    exact ⟨⟨(h.reader b r hr).1, hne⟩, (h.reader b r hr).2⟩
  · rw [h.retire_statusAt.1] at hc
    have hne : c ≠ x := by
      rintro rfl
      have := h.dummy_eq_one hc
      omega
    rw [retire_live, (hfields c).1, (hfields c).2.2]
    exact ⟨⟨(h.openDO b c hc).1, hne⟩, (h.openDO b c hc).2⟩
  · have := h.accounted.retire hx
    simpa only [h.dummy_retire, Int.add_assoc] using this
  · have := h.pending y
    split <;> omega
  · have h1 := h.fresh y hy
    have h2 : y ∉ (s.obj x).successors := fun hmem =>
      absurd (h.wf.live_succ x y ⟨hx, hmem⟩).1 (not_lt.2 hy)
    simp [h1, h2]
  · rw [(hfields c).2.2] at hc
    rw [(hfields v).2.2]
    exact h.commutation_succ c v (retire_edge.1 hcv).1 hc

/-! ## Commutation objects -/

/-- Releasing tasks decrements their counters, once each. -/
theorem Inv.foldl_tasks (fuel : Nat) : ∀ (l : List Nat) (s : State) (e : Nat → Int), Inv s e →
    l.Nodup → (∀ y ∈ l, 1 ≤ e y ∧ (s.obj y).commutation = none) →
    Inv (l.foldl (decreasePredecessors fuel) s) (fun y => e y - if y ∈ l then 1 else 0) ∧
      CountersOnly s (l.foldl (decreasePredecessors fuel) s)
  | [], s, e, h, _, _ => by simpa using ⟨h, CountersOnly.refl⟩
  | x :: l, s, e, h, hnd, hl => by
    obtain ⟨hxl, hnd⟩ := List.nodup_cons.1 hnd
    obtain ⟨he, hx⟩ := hl x (by simp)
    have hstep := h.decreasePredecessors_task he hx fuel
    rw [List.foldl_cons, DepState.decreasePredecessors_task hx] at *
    obtain ⟨hinv, hcnt'⟩ := Inv.foldl_tasks fuel l _ _ hstep.1 hnd fun y hy => by
      obtain ⟨h1, h2⟩ := hl y (by simp [hy])
      have hne : y ≠ x := fun h => hxl (h ▸ hy)
      rw [hstep.2.commutation]
      exact ⟨by simpa [hne] using h1, h2⟩
    refine ⟨?_, countersOnly_decrementPredecessors.trans hcnt'⟩
    convert hinv using 2 with y
    by_cases hyx : y = x
    · subst hyx; simp [hxl]
    · simp [hyx]

/-- `removeCommDO` finds nothing to remove at a commutation object that has been closed. -/
theorem removeCommDO_of_closed {k : CommutationDO Nat} (hk : (s.obj x).commutation = some k)
    (hd : dummy s x = 0) : DependenciesDomain.removeCommDO s.map x k.target = s.map := by
  have hne : (s.map.trackable k.target).commDO ≠ some x := by
    intro h
    have : dummy s x = 1 := by
      simp only [dummy, hk]
      exact if_pos h
    omega
  show s.map.update k.target _ = s.map
  unfold DepsMap.update
  simp only [hne, if_false]
  split
  · show DepsMap.mk _ _ = s.map
    congr 1
    funext b
    split
    · next hb => rw [hb]
    · rfl
  · rfl

/-- Retiring the commutation object `x`, after a decrement, and decrementing the counters of other
objects stays inside the frame of `decreasePredecessors`. -/
theorem released_of_retire {s' : State} (hcore : Core (s.decrementPredecessors x) e)
    (hx : (s.obj x).commutation ≠ none)
    (hcnt : CountersOnly (DepState.retire (s.decrementPredecessors x) x) s') :
    Released (· = x) s s' := by
  have hf := released_decrementPredecessors (s := s) (x := x)
  have hobj : ∀ y, (DepState.retire (s.decrementPredecessors x) x).obj y =
      if y = x then { (s.decrementPredecessors x).obj y with
        references := ((s.decrementPredecessors x).obj y).references - 1, finished := true }
      else (s.decrementPredecessors x).obj y := fun y => rfl
  have hst : ∀ b, s'.statusAt b = (DepState.retire (s.decrementPredecessors x) x).statusAt b :=
    fun b => by show StatusMap.status s'.map b = _; rw [hcnt.map]; rfl
  refine ⟨hcnt.size, ?_, fun y => ?_, fun y => ?_, fun y => ?_, fun y => ?_, fun y => ?_,
    fun y => ?_, fun y => ?_, fun b => ?_, fun b => ?_, fun b => ?_⟩
  · rw [hcnt.map, retire_keys]; rfl
  · rw [hcnt.obj, hobj, ← hf.successors]; split <;> rfl
  · rw [hcnt.obj, hobj, ← hf.commutation]; split <;> rfl
  · rw [hcnt.obj, hobj, ← hf.waits]; split <;> rfl
  · rw [hcnt.obj, hobj, ← hf.submitted]; split <;> rfl
  · rw [hcnt.obj, hobj, ← hf.outputObjects]; split <;> rfl
  · rw [hcnt.obj, hobj, ← hf.readObjects]; split <;> rfl
  · rw [hcnt.obj, hobj]
    split
    · next h => exact .inr ⟨rfl, h, h ▸ hx⟩
    · next hne => exact .inl ((hf.finished y).resolve_right fun h => hne h.2.1)
  · -- readers are tasks, so `x` is not among them
    have hx' : x ∉ (s.statusAt b).versionReaders := fun hmem =>
      hx ((hf.commutation x).symm.trans (hcore.reader b x hmem).2.2)
    have hfil : (s.statusAt b).versionReaders.filter (· ≠ x) = (s.statusAt b).versionReaders :=
      List.filter_eq_self.2 fun r hr => decide_eq_true fun hrx => hx' (hrx ▸ hr)
    rw [hst, Plain.retire_statusAt]
    simp only [TrackableObject.deleteLastWriter, TrackableObject.deleteReader]
    split_ifs <;> first | exact hfil | rfl
  · rw [hst, hcore.retire_statusAt.1]; rfl
  · rw [hst]
    have hlw := (hcore.retire_statusAt (x := x) (b := b)).2.1
    change ∀ w, _ ↔ (s.statusAt b).lastWriter = some w ∧ w ≠ x at hlw
    by_cases hb : (s.statusAt b).lastWriter = some x
    · refine .inr ⟨Option.eq_none_iff_forall_ne_some.2 fun w hw => ?_, x, hb, rfl, hx⟩
      obtain ⟨h1, h2⟩ := (hlw w).1 hw
      exact h2 (Option.some.inj (h1.symm.trans hb))
    · refine .inl (Option.ext fun w => (hlw w).trans ⟨And.left, fun hw => ⟨hw, ?_⟩⟩)
      rintro rfl
      exact hb hw

/-- **`decreasePredecessors` keeps the invariant.** A pending increment of an unfinished object is
taken back; a commutation object whose counter reaches 0 finishes and releases its successors, all
of them tasks. -/
theorem Inv.decreasePredecessors (h : Inv s e) (hx : s.Live x) (he : 1 ≤ e x) (fuel : Nat) :
    Inv (decreasePredecessors (fuel + 1) s x) (fun y => e y - if y = x then 1 else 0) ∧
      Released (· = x) s (decreasePredecessors (fuel + 1) s x) := by
  cases hk : (s.obj x).commutation with
  | none => exact h.decreasePredecessors_task he hk _
  | some k =>
    by_cases hnum : (s.obj x).numPredecessors = 1
    swap
    · -- the counter stays positive
      have hstep : DepState.decreasePredecessors (fuel + 1) s x = s.decrementPredecessors x := by
        simp only [DepState.decreasePredecessors]
        refine if_neg ?_
        simp only [DepState.decrementPredecessors, modifyObj_obj_self]
        omega
      rw [hstep]
      exact ⟨h.decrementPredecessors he fun _ => hnum, released_decrementPredecessors⟩
    -- the counter reaches 0, so nothing precedes `x` and no dummy holds it
    have hcore := h.toCore.decrementPredecessors he
    have hf := released_decrementPredecessors (s := s) (x := x)
    have hlive := sameGraph_decrementPredecessors (s := s) (x := x)
    have hk' : ((s.decrementPredecessors x).obj x).commutation = some k := by
      rw [hf.commutation, hk]
    have hzero : ((s.decrementPredecessors x).obj x).numPredecessors = 0 := by
      simp [DepState.decrementPredecessors, hnum]
    have hd : dummy (s.decrementPredecessors x) x = 0 := by
      have h1 := hcore.predCount_le (hlive.live.2 hx)
      have h2 := hcore.pending x
      have h3 := dummy_nonneg (s := s.decrementPredecessors x) (x := x)
      omega
    have href := hcore.wf.references x (hlive.live.2 hx)
    have hstep : DepState.decreasePredecessors (fuel + 1) s x =
        (s.obj x).successors.foldl (DepState.decreasePredecessors fuel)
          (DepState.retire (s.decrementPredecessors x) x) := by
      simp only [DepState.decreasePredecessors, hzero, if_true, hk', removeCommDO_of_closed hk' hd]
      rw [finishedWith_eq _ href, hf.successors]
    have hret : Inv (DepState.retire (s.decrementPredecessors x) x) fun y =>
        (e y - if y = x then 1 else 0) + if y ∈ (s.obj x).successors then 1 else 0 := by
      refine ⟨hf.successors x ▸ hcore.retire (hlive.live.2 hx) hzero, fun c hc hcc => ?_⟩
      obtain ⟨hc, hne⟩ := retire_live.1 hc
      rw [retire_obj_of_ne hne] at hcc ⊢
      rw [DepState.decrementPredecessors, modifyObj_obj_of_ne _ hne] at hcc ⊢
      exact h.released c (hlive.live.1 hc) hcc
    have hnd := h.wf.nodup x hx
    obtain ⟨hinv, hcnt⟩ := Inv.foldl_tasks fuel _ _ _ hret hnd fun y hy => by
      have hy' := h.commutation_succ x y ⟨hx, hy⟩ (by simp [hk])
      have hpend := hcore.pending y
      have hne : y ≠ x := fun hyx => h.wf.irrefl x hx (hyx ▸ hy)
      rw [retire_obj_of_ne hne, hf.commutation]
      simp only [hy, if_true]
      exact ⟨by omega, hy'⟩
    rw [hstep]
    refine ⟨by simpa only [Int.add_sub_cancel] using hinv, ?_⟩
    exact released_of_retire hcore (by simp [hk]) hcnt

/-- Releasing the objects of a list, each with a pending increment. -/
theorem Inv.foldl_decreasePredecessors (fuel : Nat) :
    ∀ (l : List Nat) (s : State) (e : Nat → Int), Inv s e → l.Nodup →
    (∀ y ∈ l, s.Live y ∧ 1 ≤ e y) →
    Inv (l.foldl (DepState.decreasePredecessors (fuel + 1)) s)
        (fun y => e y - if y ∈ l then 1 else 0) ∧
      Released (· ∈ l) s (l.foldl (DepState.decreasePredecessors (fuel + 1)) s)
  | [], s, e, h, _, _ => by simpa using ⟨h, Released.refl⟩
  | x :: l, s, e, h, hnd, hl => by
    obtain ⟨hxl, hnd⟩ := List.nodup_cons.1 hnd
    obtain ⟨hx, he⟩ := hl x (by simp)
    obtain ⟨hinv, hrel⟩ := h.decreasePredecessors hx he fuel
    obtain ⟨hinv', hrel'⟩ := Inv.foldl_decreasePredecessors fuel l _ _ hinv hnd fun y hy => by
      obtain ⟨h1, h2⟩ := hl y (by simp [hy])
      have hne : y ≠ x := fun h => hxl (h ▸ hy)
      exact ⟨(hrel.live_of_not hne).2 h1, by simpa [hne] using h2⟩
    rw [List.foldl_cons]
    refine ⟨?_, (hrel.mono (by simp)).trans (hrel'.mono (by simp +contextual))⟩
    convert hinv' using 2 with y
    by_cases hyx : y = x
    · subst hyx; simp [hxl]
    · simp [hyx]

/-- **The completion of a task keeps the invariant**: its successors are released, each once. -/
theorem Inv.finish (h : Inv s e) (hx : s.Live x) (hnum : (s.obj x).numPredecessors = 0) :
    Inv (s.finish x) e ∧ Released (· ∈ (s.obj x).successors) (retire s x) (s.finish x) := by
  obtain ⟨fuel, hfuel⟩ : ∃ fuel, s.lastDepObjId = fuel + 1 :=
    ⟨s.lastDepObjId - 1, by have := hx.1; omega⟩
  have hret : Inv (retire s x) fun y => e y + if y ∈ (s.obj x).successors then 1 else 0 := by
    refine ⟨h.toCore.retire hx hnum, fun c hc hcc => ?_⟩
    obtain ⟨hc, hne⟩ := retire_live.1 hc
    rw [retire_obj_of_ne hne] at hcc ⊢
    exact h.released c hc hcc
  have hl : ∀ y ∈ (s.obj x).successors, (retire s x).Live y ∧
      1 ≤ e y + if y ∈ (s.obj x).successors then 1 else 0 := by
    intro y hy
    have hne : y ≠ x := fun hyx => h.wf.irrefl x hx (hyx ▸ hy)
    have := h.pending y
    exact ⟨retire_live.2 ⟨h.wf.live_succ x y ⟨hx, hy⟩, hne⟩, by simp only [hy, if_true]; omega⟩
  have hfold := Inv.foldl_decreasePredecessors fuel _ _ _ hret (h.wf.nodup x hx) hl
  unfold DepState.finish
  rw [finishedWith_eq _ (h.wf.references x hx), hfuel]
  simpa only [Int.add_sub_cancel] using hfold

end

end OmpSs.Deps.Plain
