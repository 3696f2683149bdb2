import OmpSs.Lib.Precedence
import OmpSs.Deps.BaseDomain
import Mathlib.Data.Finset.Card

/-!
# Predecessor accounting

The successor sets of the unfinished objects are the edges of the dependence graph. `DepState.WF`
says that this graph is well formed, `Accounted s e` that the counter of every unfinished object is
its number of unfinished predecessors plus `e x`: the increments that no edge stands for yet, or
that an edge has not been counted for. Every elementary operation on the objects moves counters and
edges, hence `e`, in a known way; the lemmas below say how, one for each operation. The functions of
the plugins are compositions of these operations, so their accounting is the sum of the moves.
-/

namespace OmpSs.Deps.DepState

section
variable {τ M : Type} {s : DepState τ M} {e : Nat → Int} {u v w x y : Nat}

/-- An object of the domain that has not finished. -/
def Live (s : DepState τ M) (x : Nat) : Prop := x < s.lastDepObjId ∧ (s.obj x).finished = false

/-- An edge of the dependence graph: `v` is a successor of the unfinished `u`. -/
def Edge (s : DepState τ M) (u v : Nat) : Prop := s.Live u ∧ v ∈ (s.obj u).successors

instance (s : DepState τ M) (x : Nat) : Decidable (s.Live x) := inferInstanceAs (Decidable (_ ∧ _))

instance (s : DepState τ M) (u v : Nat) : Decidable (s.Edge u v) :=
  inferInstanceAs (Decidable (_ ∧ _))

/-- The number of unfinished objects that hold `x` in their successor sets. -/
def predCount (s : DepState τ M) (x : Nat) : Nat :=
  ((Finset.range s.lastDepObjId).filter fun u => s.Edge u x).card

/-- The dependence graph is well formed: successor sets are sets of objects of the domain without
self-edges, no edge leads to a finished object, and an unfinished object holds its one reference,
so that `finished` releases it. -/
structure WF (s : DepState τ M) : Prop where
  nodup : ∀ u, s.Live u → (s.obj u).successors.Nodup
  irrefl : ∀ u, s.Live u → u ∉ (s.obj u).successors
  live_succ : ∀ u v, s.Edge u v → s.Live v
  references : ∀ u, s.Live u → (s.obj u).references = 1

/-- The counter of every unfinished object is its number of unfinished predecessors plus `e`. -/
def Accounted (s : DepState τ M) (e : Nat → Int) : Prop :=
  ∀ x, s.Live x → (s.obj x).numPredecessors = s.predCount x + e x

/-! ## The objects under the elementary operations -/

@[simp] theorem modifyObj_lastDepObjId (f : DependableObject τ → DependableObject τ) :
    (s.modifyObj x f).lastDepObjId = s.lastDepObjId := rfl

@[simp] theorem modifyObj_map (f : DependableObject τ → DependableObject τ) :
    (s.modifyObj x f).map = s.map := rfl

theorem modifyObj_obj (f : DependableObject τ → DependableObject τ) :
    (s.modifyObj x f).obj y = if y = x then f (s.obj y) else s.obj y := rfl

@[simp] theorem modifyObj_obj_self (f : DependableObject τ → DependableObject τ) :
    (s.modifyObj x f).obj x = f (s.obj x) := if_pos rfl

theorem modifyObj_obj_of_ne (f : DependableObject τ → DependableObject τ) (h : y ≠ x) :
    (s.modifyObj x f).obj y = s.obj y := if_neg h

@[simp] theorem newObj_lastDepObjId (o : DependableObject τ) :
    (s.newObj o).lastDepObjId = s.lastDepObjId + 1 := rfl

@[simp] theorem newObj_map (o : DependableObject τ) : (s.newObj o).map = s.map := rfl

theorem newObj_obj (o : DependableObject τ) :
    (s.newObj o).obj y = if y = s.lastDepObjId then o else s.obj y := rfl

/-- Two states whose unfinished objects have the same successors have the same graph. -/
structure SameGraph (s s' : DepState τ M) : Prop where
  size : s'.lastDepObjId = s.lastDepObjId
  finished : ∀ x, (s'.obj x).finished = (s.obj x).finished
  successors : ∀ x, (s'.obj x).successors = (s.obj x).successors

theorem SameGraph.live {s s' : DepState τ M} (h : SameGraph s s') : s'.Live x ↔ s.Live x := by
  simp only [Live, h.size, h.finished]

theorem SameGraph.edge {s s' : DepState τ M} (h : SameGraph s s') : s'.Edge u v ↔ s.Edge u v := by
  simp only [Edge, h.live, h.successors]

theorem SameGraph.predCount {s s' : DepState τ M} (h : SameGraph s s') :
    s'.predCount x = s.predCount x := by
  unfold DepState.predCount
  rw [h.size]
  congr 1
  exact Finset.filter_congr fun u _ => h.edge

theorem SameGraph.wf {s s' : DepState τ M} (h : SameGraph s s') (hwf : s.WF)
    (href : ∀ x, s.Live x → (s'.obj x).references = (s.obj x).references ∨
      (s'.obj x).references = 1) : s'.WF where
  nodup u hu := by rw [h.successors]; exact hwf.nodup u (h.live.1 hu)
  irrefl u hu := by rw [h.successors]; exact hwf.irrefl u (h.live.1 hu)
  live_succ u v huv := h.live.2 (hwf.live_succ u v (h.edge.1 huv))
  references u hu := by
    have hu' := h.live.1 hu
    rcases href u hu' with hr | hr
    · rw [hr]; exact hwf.references u hu'
    · exact hr

/-- An update of an object that keeps its successors and its completion keeps the graph. -/
theorem sameGraph_modifyObj {f : DependableObject τ → DependableObject τ}
    (hfin : (f (s.obj x)).finished = (s.obj x).finished)
    (hsucc : (f (s.obj x)).successors = (s.obj x).successors) : SameGraph s (s.modifyObj x f) where
  size := rfl
  finished y := by
    rw [modifyObj_obj]
    split
    · next h => rw [h, hfin]
    · rfl
  successors y := by
    rw [modifyObj_obj]
    split
    · next h => rw [h, hsucc]
    · rfl

/-- The graph does not depend on the map. -/
theorem sameGraph_map (m : M) : SameGraph s { s with map := m } := ⟨rfl, fun _ => rfl, fun _ => rfl⟩

theorem SameGraph.edge_eq {s s' : DepState τ M} (h : SameGraph s s') : s'.Edge = s.Edge := by
  funext u v
  exact propext h.edge

theorem SameGraph.live_eq {s s' : DepState τ M} (h : SameGraph s s') : s'.Live = s.Live := by
  funext u
  exact propext h.live

theorem SameGraph.accounted {s s' : DepState τ M} (h : SameGraph s s') {e' : Nat → Int}
    (hacc : s.Accounted e)
    (hnum : ∀ x, s.Live x → (s'.obj x).numPredecessors - e' x = (s.obj x).numPredecessors - e x) :
    s'.Accounted e' := by
  intro x hx
  have hx' := h.live.1 hx
  have h1 := hacc x hx'
  have h2 := hnum x hx'
  rw [h.predCount]
  omega

/-! ## Counters -/

theorem sameGraph_increasePredecessors : SameGraph s (s.increasePredecessors x) :=
  sameGraph_modifyObj rfl rfl

theorem sameGraph_decrementPredecessors : SameGraph s (s.decrementPredecessors x) :=
  sameGraph_modifyObj rfl rfl

/-- `increasePredecessors` is an increment that no edge stands for. -/
theorem Accounted.increasePredecessors (h : s.Accounted e) :
    (s.increasePredecessors x).Accounted fun y => e y + if y = x then 1 else 0 := by
  refine sameGraph_increasePredecessors.accounted h fun y _ => ?_
  simp only [DepState.increasePredecessors, modifyObj_obj]
  by_cases h : y = x
  · simp only [h, if_true]; omega
  · simp only [h, if_false]; omega

/-- The decrement of `decreasePredecessors` takes back an increment. -/
theorem Accounted.decrementPredecessors (h : s.Accounted e) :
    (s.decrementPredecessors x).Accounted fun y => e y - if y = x then 1 else 0 := by
  refine sameGraph_decrementPredecessors.accounted h fun y _ => ?_
  simp only [DepState.decrementPredecessors, modifyObj_obj]
  by_cases h : y = x
  · simp only [h, if_true]; omega
  · simp only [h, if_false]; omega

theorem WF.increasePredecessors (h : s.WF) : (s.increasePredecessors x).WF := by
  refine sameGraph_increasePredecessors.wf h fun y _ => .inl ?_
  simp only [DepState.increasePredecessors, modifyObj_obj]
  split <;> rfl

theorem WF.decrementPredecessors (h : s.WF) : (s.decrementPredecessors x).WF := by
  refine sameGraph_decrementPredecessors.wf h fun y _ => .inl ?_
  simp only [DepState.decrementPredecessors, modifyObj_obj]
  split <;> rfl

/-! ## Edges -/

theorem predCount_pos_of_edge (h : s.Edge u x) : 0 < s.predCount x :=
  Finset.card_pos.2 ⟨u, Finset.mem_filter.2 ⟨Finset.mem_range.2 h.1.1, h⟩⟩

theorem not_edge_of_predCount_eq_zero (h : s.predCount x = 0) (u : Nat) : ¬ s.Edge u x :=
  fun hu => absurd (predCount_pos_of_edge hu) (by omega)

/-- The state after `x` has been appended to the successors of `w`. -/
def pushSuccessor (s : DepState τ M) (w x : Nat) : DepState τ M :=
  s.modifyObj w fun o => { o with successors := o.successors ++ [x] }

theorem addSuccessor_of_mem (h : x ∈ (s.obj w).successors) : s.addSuccessor w x = (false, s) := by
  unfold addSuccessor
  rw [if_pos h, ite_self]

theorem addSuccessor_of_not_mem (hne : w ≠ x) (h : x ∉ (s.obj w).successors) :
    s.addSuccessor w x = (true, s.pushSuccessor w x) := by
  unfold addSuccessor
  rw [if_neg hne, if_neg h]
  rfl

@[simp] theorem pushSuccessor_live : (s.pushSuccessor w x).Live y ↔ s.Live y := by
  simp only [Live, pushSuccessor, modifyObj_obj, modifyObj_lastDepObjId]
  split <;> rfl

theorem pushSuccessor_edge : (s.pushSuccessor w x).Edge u v ↔
    s.Edge u v ∨ s.Live w ∧ u = w ∧ v = x := by
  unfold Edge
  rw [pushSuccessor_live]
  simp only [pushSuccessor, modifyObj_obj]
  split
  · next h => subst h; simp only [List.mem_append, List.mem_singleton]; tauto
  · next h => tauto

theorem pushSuccessor_predCount_of_ne (h : y ≠ x) :
    (s.pushSuccessor w x).predCount y = s.predCount y := by
  unfold predCount
  congr 1
  refine Finset.filter_congr fun u _ => ?_
  rw [pushSuccessor_edge]
  tauto

theorem pushSuccessor_predCount_self (hw : s.Live w) (h : x ∉ (s.obj w).successors) :
    (s.pushSuccessor w x).predCount x = s.predCount x + 1 := by
  have hset : ((Finset.range s.lastDepObjId).filter fun u => (s.pushSuccessor w x).Edge u x) =
      insert w ((Finset.range s.lastDepObjId).filter fun u => s.Edge u x) := by
    ext u
    simp only [Finset.mem_filter, Finset.mem_insert, Finset.mem_range, pushSuccessor_edge]
    constructor
    · rintro ⟨hu, hux | ⟨-, rfl, -⟩⟩
      · exact .inr ⟨hu, hux⟩
      · exact .inl rfl
    · rintro (rfl | ⟨hu, hux⟩)
      · exact ⟨hw.1, .inr ⟨hw, rfl, trivial⟩⟩
      · exact ⟨hu, .inl hux⟩
  have hnot : w ∉ (Finset.range s.lastDepObjId).filter fun u => s.Edge u x :=
    fun hmem => h (Finset.mem_filter.1 hmem).2.2
  unfold predCount
  rw [show (s.pushSuccessor w x).lastDepObjId = s.lastDepObjId from rfl, hset,
    Finset.card_insert_of_notMem hnot]

/-- A new edge from an unfinished object stands for one increment. -/
theorem Accounted.pushSuccessor (h : s.Accounted e) (hw : s.Live w)
    (hx : x ∉ (s.obj w).successors) :
    (s.pushSuccessor w x).Accounted fun y => e y - if y = x then 1 else 0 := by
  intro y hy
  have h1 := h y (pushSuccessor_live.1 hy)
  have hnum : ((s.pushSuccessor w x).obj y).numPredecessors = (s.obj y).numPredecessors := by
    simp only [DepState.pushSuccessor, modifyObj_obj]
    split <;> rfl
  by_cases hyx : y = x
  · subst hyx
    rw [hnum, pushSuccessor_predCount_self hw hx]
    simp only [if_true]
    omega
  · rw [hnum, pushSuccessor_predCount_of_ne hyx]
    simp only [hyx, if_false]
    omega

theorem WF.pushSuccessor (h : s.WF) (hx : s.Live x) (hne : w ≠ x)
    (hnot : x ∉ (s.obj w).successors) : (s.pushSuccessor w x).WF where
  nodup u hu := by
    have hu' := pushSuccessor_live.1 hu
    simp only [DepState.pushSuccessor, modifyObj_obj]
    split
    · next huw =>
      subst huw
      exact List.nodup_append.2 ⟨h.nodup u hu', List.nodup_singleton x,
        fun a ha b hb => by rintro rfl; exact hnot (List.mem_singleton.1 hb ▸ ha)⟩
    · exact h.nodup u hu'
  irrefl u hu hmem := by
    have hu' := pushSuccessor_live.1 hu
    rcases pushSuccessor_edge.1 ⟨hu, hmem⟩ with huu | ⟨-, rfl, huw⟩
    · exact h.irrefl u hu' huu.2
    · exact hne huw
  live_succ u v huv := by
    rw [pushSuccessor_live]
    rcases pushSuccessor_edge.1 huv with huv | ⟨-, -, rfl⟩
    · exact h.live_succ u v huv
    · exact hx
  references u hu := by
    have hr := h.references u (pushSuccessor_live.1 hu)
    simp only [DepState.pushSuccessor, modifyObj_obj]
    split <;> exact hr

/-! ## `depend` -/

theorem depend_of_mem (h : x ∈ (s.obj w).successors) : s.depend w x = s := by
  unfold depend
  rw [addSuccessor_of_mem h]
  rfl

theorem depend_of_not_mem (hne : w ≠ x) (h : x ∉ (s.obj w).successors) :
    s.depend w x = (s.pushSuccessor w x).increasePredecessors x := by
  unfold depend
  rw [addSuccessor_of_not_mem hne h]
  rfl

/-- What `depend w x` does: nothing but a new edge, with its increment. -/
theorem depend_spec (hwf : s.WF) (hacc : s.Accounted e) (hw : s.Live w) (hx : s.Live x)
    (hne : w ≠ x) : (s.depend w x).WF ∧ (s.depend w x).Accounted e ∧
      ∀ u v, (s.depend w x).Edge u v ↔ s.Edge u v ∨ u = w ∧ v = x := by
  by_cases hmem : x ∈ (s.obj w).successors
  · rw [depend_of_mem hmem]
    refine ⟨hwf, hacc, fun u v => ⟨.inl, ?_⟩⟩
    rintro (h | ⟨rfl, rfl⟩)
    · exact h
    · exact ⟨hw, hmem⟩
  · rw [depend_of_not_mem hne hmem]
    refine ⟨(hwf.pushSuccessor hx hne hmem).increasePredecessors, ?_, fun u v => ?_⟩
    · have := (hacc.pushSuccessor hw hmem).increasePredecessors (x := x)
      simpa only [Int.sub_add_cancel] using this
    · rw [sameGraph_increasePredecessors.edge, pushSuccessor_edge]
      tauto

/-! ## New objects -/

theorem increasePredecessors_newObj (o : DependableObject τ) :
    (s.newObj o).increasePredecessors s.lastDepObjId =
      s.newObj { o with numPredecessors := o.numPredecessors + 1 } := by
  show DepState.mk _ _ _ = DepState.mk _ _ _
  congr 1
  funext y
  by_cases hy : y = s.lastDepObjId
  · simp [hy, newObj_obj]
  · simp [hy, newObj_obj]

/-- A new object without successors: the other objects keep their predecessors. -/
theorem newObj_live {o : DependableObject τ} (ho : o.finished = false) :
    (s.newObj o).Live x ↔ s.Live x ∨ x = s.lastDepObjId := by
  simp only [Live, newObj_obj, newObj_lastDepObjId]
  split
  · next h => subst h; simp [ho]
  · next h =>
    constructor
    · rintro ⟨h1, h2⟩; exact .inl ⟨by omega, h2⟩
    · rintro (⟨h1, h2⟩ | h1)
      · exact ⟨by omega, h2⟩
      · exact absurd h1 h

theorem newObj_edge {o : DependableObject τ} (ho : o.finished = false) (hs : o.successors = []) :
    (s.newObj o).Edge u v ↔ s.Edge u v := by
  unfold Edge
  rw [newObj_live ho, newObj_obj]
  split
  · next h =>
    subst h
    simp only [hs, List.not_mem_nil, and_false, false_iff]
    rintro ⟨h1, -⟩
    exact absurd h1.1 (lt_irrefl _)
  · next h => tauto

theorem newObj_predCount {o : DependableObject τ} (ho : o.finished = false)
    (hs : o.successors = []) : (s.newObj o).predCount x = s.predCount x := by
  unfold predCount
  congr 1
  ext u
  simp only [Finset.mem_filter, Finset.mem_range, newObj_edge ho hs]
  constructor
  · rintro ⟨-, h⟩; exact ⟨h.1.1, h⟩
  · rintro ⟨h, h'⟩; exact ⟨by simpa using Nat.lt_succ_of_lt h, h'⟩

theorem WF.newObj (h : s.WF) {o : DependableObject τ} (ho : o.finished = false)
    (hs : o.successors = []) (hr : o.references = 1) : (s.newObj o).WF where
  nodup u hu := by
    rw [newObj_obj]
    split
    · rw [hs]; exact List.nodup_nil
    · next hne => exact h.nodup u (((newObj_live ho).1 hu).resolve_right hne)
  irrefl u hu := by
    rw [newObj_obj]
    split
    · rw [hs]; exact List.not_mem_nil
    · next hne => exact h.irrefl u (((newObj_live ho).1 hu).resolve_right hne)
  live_succ u v huv := (newObj_live ho).2 (.inl (h.live_succ u v ((newObj_edge ho hs).1 huv)))
  references u hu := by
    rw [newObj_obj]
    split
    · exact hr
    · next hne => exact h.references u (((newObj_live ho).1 hu).resolve_right hne)

/-- The counter of a new object is not accounted for by any edge. -/
theorem Accounted.newObj (h : s.Accounted e) (hwf : s.WF) {o : DependableObject τ}
    (ho : o.finished = false) (hs : o.successors = []) :
    (s.newObj o).Accounted fun y => if y = s.lastDepObjId then o.numPredecessors else e y := by
  intro y hy
  rw [newObj_obj, newObj_predCount ho hs]
  dsimp only
  split
  · next hne =>
    have hzero : s.predCount y = 0 := by
      refine Finset.card_eq_zero.2 (Finset.filter_eq_empty_iff.2 fun u _ huy => ?_)
      exact absurd (hwf.live_succ u y huy).1 (by omega)
    omega
  · next hne => exact h y (((newObj_live ho).1 hy).resolve_right hne)

/-! ## Completion -/

/-- The object `x` marked as finished. -/
def markFinished (s : DepState τ M) (x : Nat) : DepState τ M :=
  s.modifyObj x fun o => { o with finished := true }

@[simp] theorem markFinished_live : (s.markFinished x).Live y ↔ s.Live y ∧ y ≠ x := by
  simp only [Live, markFinished, modifyObj_obj, modifyObj_lastDepObjId]
  split
  · next h => simp [h]
  · next h => simp [h]

theorem markFinished_edge : (s.markFinished x).Edge u v ↔ s.Edge u v ∧ u ≠ x := by
  unfold Edge
  rw [markFinished_live]
  simp only [markFinished, modifyObj_obj]
  split
  · next h => simp [h]
  · next h => simp [h]

theorem markFinished_predCount (hx : s.Live x) :
    ((s.markFinished x).predCount y : Int) =
      s.predCount y - if y ∈ (s.obj x).successors then 1 else 0 := by
  have hset : ((Finset.range s.lastDepObjId).filter fun u => (s.markFinished x).Edge u y) =
      ((Finset.range s.lastDepObjId).filter fun u => s.Edge u y).erase x := by
    ext u
    simp only [Finset.mem_filter, Finset.mem_erase, markFinished_edge]
    tauto
  have hcard : (s.markFinished x).predCount y =
      (((Finset.range s.lastDepObjId).filter fun u => s.Edge u y).erase x).card := by
    unfold predCount
    rw [show (s.markFinished x).lastDepObjId = s.lastDepObjId from rfl, hset]
  rw [hcard]
  split
  · next h =>
    have hmem : x ∈ (Finset.range s.lastDepObjId).filter fun u => s.Edge u y :=
      Finset.mem_filter.2 ⟨Finset.mem_range.2 hx.1, hx, h⟩
    have := Finset.card_erase_add_one hmem
    unfold predCount
    omega
  · next h =>
    rw [Finset.erase_eq_of_notMem fun hmem => h (Finset.mem_filter.1 hmem).2.2, Int.sub_zero]
    rfl

/-- Completion turns the edges of the finished object into increments that are still to be taken
back. -/
theorem Accounted.markFinished (h : s.Accounted e) (hx : s.Live x) :
    (s.markFinished x).Accounted fun y => e y + if y ∈ (s.obj x).successors then 1 else 0 := by
  intro y hy
  have hy' := markFinished_live.1 hy
  have h1 := h y hy'.1
  have hnum : ((s.markFinished x).obj y).numPredecessors = (s.obj y).numPredecessors := by
    simp only [DepState.markFinished]
    rw [modifyObj_obj_of_ne _ hy'.2]
  rw [hnum, markFinished_predCount hx]
  dsimp only
  omega

theorem WF.markFinished (h : s.WF) (hx : ∀ u, ¬ s.Edge u x) : (s.markFinished x).WF where
  nodup u hu := by
    have hu' := markFinished_live.1 hu
    simp only [DepState.markFinished]
    rw [modifyObj_obj_of_ne _ hu'.2]
    exact h.nodup u hu'.1
  irrefl u hu := by
    have hu' := markFinished_live.1 hu
    simp only [DepState.markFinished]
    rw [modifyObj_obj_of_ne _ hu'.2]
    exact h.irrefl u hu'.1
  live_succ u v huv := by
    have huv' := markFinished_edge.1 huv
    refine markFinished_live.2 ⟨h.live_succ u v huv'.1, ?_⟩
    rintro rfl
    exact hx u huv'.1
  references u hu := by
    have hu' := markFinished_live.1 hu
    simp only [DepState.markFinished]
    rw [modifyObj_obj_of_ne _ hu'.2]
    exact h.references u hu'.1

end

end OmpSs.Deps.DepState
