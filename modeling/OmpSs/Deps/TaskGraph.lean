import OmpSs.Deps.Effects
import OmpSs.Lib.Tracking

/-!
# Domains without commutation objects

Where no access is concurrent or commutative every object is a task, and what a domain does to the
graph is the same for all plugins: a submission creates a task, makes it depend on others and takes
its dummy increment back; a completion retires a task and decrements its successors once each.
`TaskGraph` is the part of the invariant that says so. It asks for less than the accounting: a status
may record finished tasks, so that counters may stay above the number of predecessors, never below.
`TaskGraph.finished_of_conflict` turns `Lib.Safe` into what a user of the domain sees: a task whose
counter is 0 has no unfinished earlier task it conflicts with.
-/

namespace OmpSs.Deps.DepState

section
variable {τ M κ : Type} {s s' : DepState τ M} {g : Nat → Int} {t u v x y : Nat}

/-- A well-formed graph of tasks whose counters are not below the number of predecessors plus `g`. -/
structure TaskGraph (s : DepState τ M) (g : Nat → Int) : Prop where
  wf : s.WF
  counted : s.Counted g
  tasks : ∀ x, (s.obj x).commutation = none

/-- An operation that keeps the graph and the counters. -/
theorem TaskGraph.of_sameGraph (h : s.TaskGraph g) (hg : SameGraph s s')
    (hobj : ∀ y, (s'.obj y).numPredecessors = (s.obj y).numPredecessors ∧
      (s'.obj y).references = (s.obj y).references ∧
      (s'.obj y).commutation = (s.obj y).commutation) : s'.TaskGraph g where
  wf := hg.wf h.wf fun y _ => .inl (hobj y).2.1
  counted y hy := by
    rw [hg.predCount, (hobj y).1]
    exact h.counted y (hg.live.1 hy)
  tasks y := (hobj y).2.2.trans (h.tasks y)

theorem TaskGraph.dependAll (h : s.TaskGraph g) (hx : s.Live x) (l : List Nat) :
    (s.dependAll x l).TaskGraph g := by
  obtain ⟨hwf, hc⟩ := h.counted.dependAll h.wf hx l
  refine ⟨hwf, hc, fun y => ?_⟩
  rw [(depended_dependAll (s := s) (x := x) l).commutation]
  exact h.tasks y

/-- A new task holds the increment it is created with. -/
theorem TaskGraph.newTask (h : s.TaskGraph fun _ => 0) (waits : Bool) :
    (s.newObj { waits := waits, numPredecessors := 1 }).TaskGraph
      fun y => if y = s.lastDepObjId then 1 else 0 := by
  refine ⟨h.wf.newObj rfl rfl rfl, fun y hy => ?_, fun y => ?_⟩
  · rw [newObj_predCount rfl rfl, newObj_obj]
    split
    · next hy0 =>
      have hzero : s.predCount y = 0 := by
        refine Finset.card_eq_zero.2 (Finset.filter_eq_empty_iff.2 fun u _ huy => ?_)
        exact absurd (h.wf.live_succ u y huy).1 (by omega)
      rw [hzero]
      exact le_refl _
    · next hy0 => exact h.counted y (((newObj_live rfl).1 hy).resolve_right hy0)
  · rw [newObj_obj]
    split
    · rfl
    · exact h.tasks y

/-- What comes after an unfinished task is unfinished. -/
theorem TaskGraph.live_of_path {w : Nat} (h : s.TaskGraph g) (hu : s.Live u)
    (huw : Relation.ReflTransGen s.Edge u w) : s.Live w :=
  Lib.of_reflTransGen (fun u v huv => h.wf.live_succ u v huv) huw hu

/-- Nothing precedes a task whose counter is 0. -/
theorem TaskGraph.not_edge (h : s.TaskGraph fun _ => 0) (hx : s.Live x)
    (hnum : (s.obj x).numPredecessors = 0) (u : Nat) : ¬ s.Edge u x := by
  refine not_edge_of_predCount_eq_zero ?_ u
  have := h.counted x hx
  omega

theorem Counted.decrementPredecessors (h : s.Counted g) :
    (s.decrementPredecessors x).Counted fun y => g y - if y = x then 1 else 0 := by
  intro y hy
  have hg := sameGraph_decrementPredecessors (s := s) (x := x)
  have h1 := h y (hg.live.1 hy)
  have hnum : ((s.decrementPredecessors x).obj y).numPredecessors =
      (s.obj y).numPredecessors - if y = x then 1 else 0 := by
    simp only [DepState.decrementPredecessors, modifyObj_obj]
    split
    · rfl
    · exact (Int.sub_zero _).symm
  rw [hg.predCount, hnum]
  dsimp only
  omega

theorem TaskGraph.decrementPredecessors (h : s.TaskGraph g) :
    (s.decrementPredecessors x).TaskGraph fun y => g y - if y = x then 1 else 0 :=
  ⟨h.wf.decrementPredecessors, h.counted.decrementPredecessors, fun y => by
    rw [countersOnly_decrementPredecessors.obj y]; exact h.tasks y⟩

section
variable [DependenciesDomain τ M]

/-- `decrease` of a task is a decrement. -/
theorem TaskGraph.decrease (h : s.TaskGraph g) :
    (s.decrease x).TaskGraph (fun y => g y - if y = x then 1 else 0) ∧
      CountersOnly s (s.decrease x) := by
  unfold DepState.decrease
  rw [decreasePredecessors_task (h.tasks x)]
  exact ⟨h.decrementPredecessors, countersOnly_decrementPredecessors⟩

theorem TaskGraph.foldl_decreasePredecessors (fuel : Nat) : ∀ (l : List Nat) (s : DepState τ M)
    (g : Nat → Int), s.TaskGraph g → l.Nodup →
    (l.foldl (decreasePredecessors fuel) s).TaskGraph (fun y => g y - if y ∈ l then 1 else 0) ∧
      CountersOnly s (l.foldl (decreasePredecessors fuel) s)
  | [], s, g, h, _ => by simpa using ⟨h, CountersOnly.refl⟩
  | x :: l, s, g, h, hnd => by
    obtain ⟨hxl, hnd⟩ := List.nodup_cons.1 hnd
    rw [List.foldl_cons, decreasePredecessors_task (h.tasks x)]
    obtain ⟨h', hcnt⟩ := TaskGraph.foldl_decreasePredecessors fuel l _ _
      (h.decrementPredecessors (x := x)) hnd
    refine ⟨?_, countersOnly_decrementPredecessors.trans hcnt⟩
    convert h' using 2 with y
    by_cases hyx : y = x
    · subst hyx; simp [hxl]
    · simp [hyx]

/-- The completion of a task whose counter is 0: the graph loses it, and each of its successors one
increment. -/
theorem TaskGraph.finish (h : s.TaskGraph fun _ => 0) (hx : s.Live x)
    (hnum : (s.obj x).numPredecessors = 0) :
    (s.finish x).TaskGraph (fun _ => 0) ∧ CountersOnly (s.retire x) (s.finish x) := by
  have hret : (s.retire x).TaskGraph fun y => if y ∈ (s.obj x).successors then 1 else 0 := by
    refine ⟨h.wf.retire (h.not_edge hx hnum), fun y hy => ?_, fun y => ?_⟩
    · obtain ⟨hy, hne⟩ := retire_live.1 hy
      have h1 := h.counted y hy
      have h2 := markFinished_predCount (y := y) hx
      rw [sameGraph_retire.predCount, retire_obj_of_ne hne, h2]
      omega
    · rw [retire_fields]; exact h.tasks y
  have hfold := TaskGraph.foldl_decreasePredecessors s.lastDepObjId _ _ _ hret (h.wf.nodup x hx)
  unfold DepState.finish
  rw [finishedWith_eq _ (h.wf.references x hx)]
  simpa only [Int.sub_self] using hfold

theorem TaskGraph.finish_live (h : s.TaskGraph fun _ => 0) (hx : s.Live x)
    (hnum : (s.obj x).numPredecessors = 0) : (s.finish x).Live y ↔ s.Live y ∧ y ≠ x :=
  (h.finish hx hnum).2.sameGraph.live.trans retire_live

theorem TaskGraph.finish_edge (h : s.TaskGraph fun _ => 0) (hx : s.Live x)
    (hnum : (s.obj x).numPredecessors = 0) : (s.finish x).Edge u v ↔ s.Edge u v ∧ u ≠ x :=
  (h.finish hx hnum).2.sameGraph.edge.trans retire_edge

end

/-! ## The graph during a submission -/

/-- The state `s'` is `s` with edges from the objects in `P` to the task `t` in progress. Nothing is
said about the map. -/
structure Grown (t : Nat) (P : Nat → Prop) (s s' : DepState τ M) : Prop where
  size : s'.lastDepObjId = s.lastDepObjId
  live : ∀ y, s'.Live y ↔ s.Live y
  edge : ∀ u v, s'.Edge u v ↔ s.Edge u v ∨ s.Live u ∧ (P u ∧ u ≠ t) ∧ v = t
  graph : ∀ g, s.Live t → s.TaskGraph g → s'.TaskGraph g
  waits : (s'.obj t).waits = (s.obj t).waits

section
variable {s'' : DepState τ M} {P Q : Nat → Prop}

theorem Grown.trans (h : Grown t P s s') (h' : Grown t Q s' s'') :
    Grown t (fun u => P u ∨ Q u) s s'' where
  size := h'.size.trans h.size
  live y := (h'.live y).trans (h.live y)
  edge u v := by
    rw [h'.edge, h.edge, h.live]
    tauto
  graph g ht hg := h'.graph g ((h.live t).2 ht) (h.graph g ht hg)
  waits := h'.waits.trans h.waits

theorem Grown.congr (h : Grown t P s s') (hPQ : ∀ u, P u ↔ Q u) : Grown t Q s s' :=
  { h with edge := fun u v => by rw [h.edge, hPQ] }

/-- An operation on the map and the targets of objects. -/
theorem grown_of_sameGraph (hg : SameGraph s s') (hP : ∀ u, ¬ P u)
    (hobj : ∀ y, (s'.obj y).numPredecessors = (s.obj y).numPredecessors ∧
      (s'.obj y).references = (s.obj y).references ∧
      (s'.obj y).commutation = (s.obj y).commutation ∧ (s'.obj y).waits = (s.obj y).waits) :
    Grown t P s s' where
  size := hg.size
  live _ := hg.live
  edge u v := by rw [hg.edge]; simp [hP u]
  graph _ _ h := h.of_sameGraph hg fun y => ⟨(hobj y).1, (hobj y).2.1, (hobj y).2.2.1⟩
  waits := (hobj t).2.2.2

theorem grown_map (m : M) : Grown t (fun _ => False) s { s with map := m } :=
  grown_of_sameGraph (sameGraph_map m) (fun _ h => h) fun _ => ⟨rfl, rfl, rfl, rfl⟩

theorem grown_dependAll (l : List Nat) : Grown t (· ∈ l) s (s.dependAll t l) where
  size := (depended_dependAll l).size
  live _ := (depended_dependAll l).live
  edge _ _ := (depended_dependAll l).edge
  graph _ ht h := h.dependAll ht l
  waits := by rw [(depended_dependAll (s := s) (x := t) l).obj t]

theorem grown_modifyObj {f : DependableObject τ → DependableObject τ}
    (hf : ∀ o, f o = { o with outputObjects := (f o).outputObjects
                              readObjects := (f o).readObjects }) :
    Grown t (fun _ => False) s (s.modifyObj x f) := by
  refine grown_of_sameGraph (sameGraph_modifyObj (by rw [hf]) (by rw [hf])) (fun _ h => h) fun y => ?_
  rw [modifyObj_obj]
  split
  · rw [hf]; exact ⟨rfl, rfl, rfl, rfl⟩
  · exact ⟨rfl, rfl, rfl, rfl⟩

theorem Grown.mono (h : Grown t P s s') (huv : s.Edge u v) : s'.Edge u v := (h.edge u v).2 (.inl huv)

/-- The objects in `P` come before the task. -/
theorem Grown.reach (h : Grown t P s s') (hu : s.Live u) (hP : P u) :
    Relation.ReflTransGen s'.Edge u t := by
  by_cases hut : u = t
  · rw [hut]
  · exact .single ((h.edge u t).2 (.inr ⟨hu, ⟨hP, hut⟩, rfl⟩))

/-- The task in progress has no successors. -/
theorem Grown.source (h : Grown t P s s') (ht : ∀ v, ¬ s.Edge t v) (v : Nat) : ¬ s'.Edge t v := by
  intro htv
  rcases (h.edge t v).1 htv with htv | ⟨-, ⟨-, hne⟩, -⟩
  · exact ht v htv
  · exact hne rfl

end

/-- The task in progress: it is the newest object, unfinished, and nothing depends on it yet. -/
structure Current (t : Nat) (s : DepState τ M) : Prop where
  newest : s.lastDepObjId = t + 1
  live : s.Live t
  source : ∀ v, ¬ s.Edge t v
  waits : (s.obj t).waits = false

theorem Grown.current {P : Nat → Prop} (h : Grown t P s s') (ht : Current t s) : Current t s' where
  newest := h.size.trans ht.newest
  live := (h.live t).2 ht.live
  source := h.source ht.source
  waits := h.waits.trans ht.waits

/-- The beginning of a submission. -/
theorem TaskGraph.start (h : s.TaskGraph fun _ => 0) :
    ((s.newObj {}).increasePredecessors s.lastDepObjId).TaskGraph
        (fun y => if y = s.lastDepObjId then 1 else 0) ∧
      Current s.lastDepObjId ((s.newObj {}).increasePredecessors s.lastDepObjId) ∧
      (∀ y, ((s.newObj {}).increasePredecessors s.lastDepObjId).Live y ↔
        s.Live y ∨ y = s.lastDepObjId) ∧
      ∀ u v, ((s.newObj {}).increasePredecessors s.lastDepObjId).Edge u v ↔ s.Edge u v := by
  rw [increasePredecessors_newObj]
  have hobj : (s.newObj { numPredecessors := 0 + 1 }).obj s.lastDepObjId =
      { numPredecessors := 0 + 1 } := if_pos rfl
  refine ⟨h.newTask false, ⟨rfl, (newObj_live rfl).2 (.inr rfl), fun v hv => ?_, by rw [hobj]⟩,
    fun y => newObj_live rfl, fun u v => newObj_edge rfl rfl⟩
  exact absurd ((newObj_edge rfl rfl).1 hv).1.1 (lt_irrefl _)

/-- The end of a submission: the task is marked and its dummy increment taken back. -/
theorem TaskGraph.stop [DependenciesDomain τ M]
    (h : s.TaskGraph fun y => if y = t then 1 else 0) :
    ((s.setSubmitted t).decrease t).TaskGraph (fun _ => 0) ∧
      SameGraph s ((s.setSubmitted t).decrease t) ∧
      ((s.setSubmitted t).decrease t).map = s.map := by
  have hg : SameGraph s (s.setSubmitted t) := sameGraph_modifyObj rfl rfl
  have h₁ : (s.setSubmitted t).TaskGraph fun y => if y = t then 1 else 0 :=
    h.of_sameGraph hg fun y => by
      simp only [setSubmitted, modifyObj_obj]
      split <;> exact ⟨rfl, rfl, rfl⟩
  obtain ⟨h₂, hcnt⟩ := h₁.decrease (x := t)
  refine ⟨by simpa only [Int.sub_self] using h₂, ?_, hcnt.map⟩
  exact ⟨hcnt.size.trans hg.size, fun y => (hcnt.sameGraph.finished y).trans (hg.finished y),
    fun y => (hcnt.sameGraph.successors y).trans (hg.successors y)⟩

/-! ## Safety -/

/-- **Safety, as seen from the counters.** A task whose counter is 0 has no unfinished earlier task
that accesses a common point, one of the two writing. -/
theorem TaskGraph.finished_of_conflict {α κ : Type} (h : s.TaskGraph fun _ => 0)
    {acc : Nat → α → Bool → Prop} {T : Lib.Tracker Nat κ α} (hsafe : Lib.Safe s.Edge s.Live acc T)
    {p : α} {wu wt : Bool} (hu : u < s.lastDepObjId) (hut : u < t) (hup : acc u p wu)
    (htp : acc t p wt) (hconf : (wu || wt) = true) (hnum : (s.obj t).numPredecessors = 0) :
    (s.obj u).finished = true := by
  by_contra hfin
  obtain ⟨hlive, hpath⟩ := hsafe.ordered u t p wu wt ⟨hu, by simpa using hfin⟩ hut hup htp hconf
  obtain ⟨w, hw⟩ := Lib.exists_edge_of_transGen hpath
  exact h.not_edge hlive hnum w hw

end

end OmpSs.Deps.DepState
