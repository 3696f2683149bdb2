import OmpSs.Deps.PlainSubmit

/-!
# The accesses of a submission

One access of a task `t` to an address `a`, for each kind of access: the invariant is kept
(`Inv.submitDependableObjectDataAccess`), and the operation stays local to the status of `a`
(`Local`). A concurrent or commutative access leaves one increment pending exactly when it goes to
a commutation object that `t` already precedes.
-/

namespace OmpSs.Deps.Plain

open DepState

section
variable {s s' s'' : State} {e : Nat → Int} {a b c t u v w x y : Nat} {ty : AccessType}
  {X : Nat → Prop}

/-! ## Locality -/

/-- What an operation of the task `t` on the status of `a` leaves alone: the tasks, the statuses of
other addresses, less commutation objects that have finished, and the successors of `t` that are
open at other addresses. -/
structure Local (a t : Nat) (s s' : State) : Prop where
  size : s.lastDepObjId ≤ s'.lastDepObjId
  keys : ∀ b, b ∈ s.map.keys → b ∈ s'.map.keys
  commutation : ∀ y, y < s.lastDepObjId → (s'.obj y).commutation = (s.obj y).commutation
  created : ∀ y, s.lastDepObjId ≤ y → y < s'.lastDepObjId → (s'.obj y).commutation ≠ none
  task : ∀ y, Task s y → (s'.obj y).finished = (s.obj y).finished ∧
    (s'.obj y).submitted = (s.obj y).submitted ∧ (s'.obj y).waits = (s.obj y).waits
  readers : ∀ b, b ≠ a → (s'.statusAt b).versionReaders = (s.statusAt b).versionReaders
  commDO : ∀ b, b ≠ a → (s'.statusAt b).commDO = (s.statusAt b).commDO
  lastWriter : ∀ b, b ≠ a → (s'.statusAt b).lastWriter = (s.statusAt b).lastWriter ∨
    (s'.statusAt b).lastWriter = none ∧ (s.statusAt b).lastWriter ≠ some t
  openSucc : ∀ b c, b ≠ a → (s.statusAt b).commDO = some c → c ∈ (s'.obj t).successors →
    c ∈ (s.obj t).successors

theorem Local.isTask (h : Local a t s s') (hy : Task s y) : Task s' y :=
  ⟨hy.1.trans_le h.size, (h.commutation y hy.1).trans hy.2⟩

theorem Local.trans (h : Local a t s s') (h' : Local a t s' s'') : Local a t s s'' where
  size := h.size.trans h'.size
  keys b hb := h'.keys b (h.keys b hb)
  commutation y hy := (h'.commutation y (hy.trans_le h.size)).trans (h.commutation y hy)
  created y hy hy' := by
    rcases lt_or_ge y s'.lastDepObjId with hlt | hge
    · rw [h'.commutation y hlt]; exact h.created y hy hlt
    · exact h'.created y hge hy'
  task y hy := by
    obtain ⟨h2, h3, h4⟩ := h.task y hy
    obtain ⟨h6, h7, h8⟩ := h'.task y (h.isTask hy)
    exact ⟨h6.trans h2, h7.trans h3, h8.trans h4⟩
  readers b hb := (h'.readers b hb).trans (h.readers b hb)
  commDO b hb := (h'.commDO b hb).trans (h.commDO b hb)
  lastWriter b hb := by
    rcases h'.lastWriter b hb with h1 | ⟨h1, h2⟩
    · rw [h1]; exact h.lastWriter b hb
    · rcases h.lastWriter b hb with h3 | h3
      · exact .inr ⟨h1, h3 ▸ h2⟩
      · exact .inr ⟨h1, h3.2⟩
  openSucc b c hb hc hmem :=
    h.openSucc b c hb hc (h'.openSucc b c hb ((h.commDO b hb).trans hc) hmem)

theorem Local.live (h : Local a t s s') (hy : Task s y) : s'.Live y ↔ s.Live y := by
  unfold Live
  rw [(h.task y hy).1]
  exact and_congr_left fun _ => ⟨fun _ => hy.1, fun _ => (h.isTask hy).1⟩

/-- Released commutation objects are not the task's. -/
theorem Released.isLocal (h : Released X s s') (ht : Task s t) (a : Nat) : Local a t s s' where
  size := h.size.symm.le
  keys b hb := h.keys ▸ hb
  commutation y _ := h.commutation y
  created y hy hy' := absurd (h.size ▸ hy') (not_lt.2 hy)
  task y hy :=
    ⟨(h.finished y).resolve_right fun hf => hf.2.2 hy.2, h.submitted y, h.waits y⟩
  readers b _ := h.readers b
  commDO b _ := h.commDO b
  lastWriter b _ := by
    refine (h.lastWriter b).imp_right fun ⟨h1, x, h2, _, h3⟩ => ⟨h1, fun hlw => ?_⟩
    rw [h2] at hlw
    cases hlw
    exact h3 ht.2
  openSucc b c _ _ hmem := h.successors t ▸ hmem

/-- An operation that leaves the objects and every other status as they are. -/
theorem local_of_status (hsize : s'.lastDepObjId = s.lastDepObjId)
    (hkeys : ∀ b, b ∈ s.map.keys → b ∈ s'.map.keys)
    (hobj : ∀ y, (s'.obj y).commutation = (s.obj y).commutation ∧
      (s'.obj y).finished = (s.obj y).finished ∧ (s'.obj y).submitted = (s.obj y).submitted ∧
      (s'.obj y).waits = (s.obj y).waits)
    (hsucc : ∀ v, v ∈ (s'.obj t).successors → v ∈ (s.obj t).successors)
    (hst : ∀ b, b ≠ a → s'.statusAt b = s.statusAt b) : Local a t s s' where
  size := hsize.symm.le
  keys := hkeys
  commutation y _ := (hobj y).1
  created y hy hy' := absurd (hsize ▸ hy') (not_lt.2 hy)
  task y _ := (hobj y).2
  readers b hb := by rw [hst b hb]
  commDO b hb := by rw [hst b hb]
  lastWriter b hb := .inl (by rw [hst b hb])
  openSucc b c _ _ hmem := hsucc c hmem

theorem Recorded.isLocal_lookup (h : Recorded s) : Local a t s (lookup s a) :=
  local_of_status rfl (fun _ hb => mem_keys_lookup.2 (.inl hb)) (fun _ => ⟨rfl, rfl, rfl, rfl⟩)
    (fun _ hv => hv) fun _ _ => h.statusAt_lookup

theorem local_register {f : DependableObject Nat → DependableObject Nat}
    {g : TrackableObject → TrackableObject}
    (hf : ∀ o, f o = { o with outputObjects := (f o).outputObjects
                              readObjects := (f o).readObjects }) :
    Local a t s ((s.modifyObj x f).modifyStatus a g) := by
  have hobj : ∀ y, ((s.modifyObj x f).modifyStatus a g).obj y =
      if y = x then f (s.obj y) else s.obj y := fun y => rfl
  refine local_of_status rfl (fun b hb => hb) (fun y => ?_) (fun v hv => ?_) fun b hb => ?_
  · rw [hobj]
    split
    · rw [hf]; exact ⟨rfl, rfl, rfl, rfl⟩
    · exact ⟨rfl, rfl, rfl, rfl⟩
  · rw [hobj] at hv
    split at hv
    · rwa [hf] at hv
    · exact hv
  · exact (statusAt_modifyStatus g).trans (if_neg hb)

theorem local_addReadTarget : Local a t s (s.addReadTarget t a) := by
  have hobj : ∀ y, (s.addReadTarget t a).obj y = { s.obj y with
      readObjects := ((s.addReadTarget t a).obj y).readObjects } := fun y => by
    simp only [addReadTarget, modifyObj_obj]
    split <;> rfl
  exact local_of_status rfl (fun _ hb => hb) (fun y => by rw [hobj y]; exact ⟨rfl, rfl, rfl, rfl⟩)
    (fun v hv => by rwa [hobj t] at hv) fun _ _ => rfl

theorem Finalized.isLocal (h : Finalized a s s') (ht : Task s t) : Local a t s s' := by
  rcases h with ⟨-, rfl⟩ | ⟨c, -, hrel⟩
  · exact (Released.refl (X := fun _ => False)).isLocal ht a
  · refine Local.trans ?_ (hrel.isLocal (s := close s a c) ht a)
    exact local_of_status rfl (fun b hb => hb) (fun y => ⟨rfl, rfl, rfl, rfl⟩) (fun v hv => hv)
      fun b hb => by rw [close_statusAt, if_neg hb]

/-- An object that is the task itself or not open comes to depend on others. -/
theorem local_dependAll (hx : x = t ∨ ∀ b, (s.statusAt b).commDO ≠ some x) (l : List Nat) :
    Local a t s (s.dependAll x l) := by
  have hd := depended_dependAll (s := s) (x := x) l
  have hobj : ∀ y, ((s.dependAll x l).obj y).commutation = (s.obj y).commutation ∧
      ((s.dependAll x l).obj y).finished = (s.obj y).finished ∧
      ((s.dependAll x l).obj y).submitted = (s.obj y).submitted ∧
      ((s.dependAll x l).obj y).waits = (s.obj y).waits := fun y => by
    rw [hd.obj y]; exact ⟨rfl, rfl, rfl, rfl⟩
  refine ⟨hd.size.symm.le, fun b hb => hd.map ▸ hb, fun y _ => (hobj y).1,
    fun y hy hy' => absurd (hd.size ▸ hy') (not_lt.2 hy), fun y _ => (hobj y).2, fun b _ => ?_,
    fun b _ => ?_, fun b _ => .inl ?_, fun b c _ hc hmem => ?_⟩
  · rw [hd.statusAt]
  · rw [hd.statusAt]
  · rw [hd.statusAt]
  · rcases (hd.successors t c).1 hmem with hmem | ⟨⟨-, hne⟩, rfl⟩
    · exact hmem
    · rcases hx with rfl | hx
      · exact absurd rfl hne
      · exact absurd hc (hx b)

theorem local_dependOnLastWriter : Local a t s (s.dependOnLastWriter t a) := by
  rw [dependOnLastWriter_eq]
  exact local_dependAll (.inl rfl) _

theorem local_newObj (ht : Task s t) (o : DependableObject Nat) (ho : o.commutation ≠ none) :
    Local a t s (s.newObj o) where
  size := Nat.le_succ _
  keys b hb := hb
  commutation y hy := by rw [newObj_obj, if_neg (Nat.ne_of_lt hy)]
  created y hy hy' := by
    rw [newObj_lastDepObjId] at hy'
    rw [newObj_obj, if_pos (by omega)]
    exact ho
  task y hy := by
    rw [newObj_obj, if_neg (Nat.ne_of_lt hy.1)]
    exact ⟨rfl, rfl, rfl⟩
  readers b _ := rfl
  commDO b _ := rfl
  lastWriter b _ := .inl rfl
  openSucc b c _ _ hmem := by
    rwa [newObj_obj, if_neg (Nat.ne_of_lt ht.1)] at hmem

/-! ## Setting up commutation objects -/

/-- An initial commutation object. It holds the increment of the submitted task. -/
def initialDO (a : Nat) (ty : AccessType) : DependableObject Nat where
  commutation := some ⟨a, ty.commutative⟩
  numPredecessors := 1

theorem setUpInitialCommutationDependableObject_eq (hr : (s.statusAt a).hasReaders = true) :
    s.setUpInitialCommutationDependableObject a a ty = (some s.lastDepObjId,
      ((((s.newObj (initialDO a ty)).dependAll s.lastDepObjId
        (s.statusAt a).versionReaders).modifyObj s.lastDepObjId fun o =>
          { o with outputObjects := o.outputObjects ++ [a] }).modifyStatus a
            fun o => o.flushReaders.setLastWriter s.lastDepObjId)) := by
  unfold setUpInitialCommutationDependableObject
  rw [if_pos hr]
  dsimp only
  rw [increasePredecessors_newObj, dependOnReaders_eq,
    ← modifyStatus_modifyStatus TrackableObject.flushReaders (·.setLastWriter s.lastDepObjId)]
  rfl

/-- The initial commutation object takes the place of the readers: it depends on them and becomes
the last writer. One increment stays pending until the submitted task depends on it. -/
theorem Inv.setUpInitial (h : Inv s e) (ty : AccessType) (ht : Task s t) (ha : a ∈ s.map.keys)
    (hr : (s.statusAt a).hasReaders = true) :
    ∃ s', s.setUpInitialCommutationDependableObject a a ty = (some s.lastDepObjId, s') ∧
      Inv s' (fun y => e y + if y = s.lastDepObjId then 1 else 0) ∧
      Local a t s s' ∧ s'.lastDepObjId = s.lastDepObjId + 1 ∧
      (∀ y, s'.Live y ↔ s.Live y ∨ y = s.lastDepObjId) ∧
      (∀ u v, s'.Edge u v ↔
        s.Edge u v ∨ u ∈ (s.statusAt a).versionReaders ∧ v = s.lastDepObjId) ∧
      s'.statusAt a = (s.statusAt a).flushReaders.setLastWriter s.lastDepObjId ∧
      (s'.obj s.lastDepObjId).commutation = some ⟨a, ty.commutative⟩ := by
  set i := s.lastDepObjId with hi
  set o := initialDO a ty with hdo
  have ho : o = { commutation := some ⟨a, ty.commutative⟩, numPredecessors := 1 } := hdo
  have hnew := h.newObj (o := o) rfl rfl rfl (by simp [ho]) (by simp [ho])
  have hlive : (s.newObj o).Live i := (newObj_live rfl).2 (.inr rfl)
  have hst : ∀ b, (s.newObj o).statusAt b = s.statusAt b := fun _ => rfl
  have hdep := hnew.dependOnReaders (x := i) hlive (.inr (by simp [ho, hi])) a
  have hd := depended_dependAll (s := s.newObj o) (x := i) (s.statusAt a).versionReaders
  rw [dependOnReaders_eq, hst] at hdep
  have hne : ∀ r ∈ (s.statusAt a).versionReaders, r ≠ i := fun r hr' =>
    Nat.ne_of_lt (h.reader a r hr').1.1
  have hgraph : SameGraph ((s.newObj o).dependAll i (s.statusAt a).versionReaders)
      ((((s.newObj o).dependAll i (s.statusAt a).versionReaders).modifyObj i fun o =>
        { o with outputObjects := o.outputObjects ++ [a] }).modifyStatus a
          fun o => o.flushReaders.setLastWriter i) :=
    sameGraph_register fun _ => rfl
  refine ⟨(((s.newObj o).dependAll i (s.statusAt a).versionReaders).modifyObj i fun o =>
    { o with outputObjects := o.outputObjects ++ [a] }).modifyStatus a
      fun o => o.flushReaders.setLastWriter i, ?_, ?_, ?_, ?_, fun y => ?_, fun u v => ?_, ?_, ?_⟩
  · exact setUpInitialCommutationDependableObject_eq hr
  · have hreg := hdep.register (x := i) (a := a)
      (f := fun o => { o with outputObjects := o.outputObjects ++ [a] })
      (g := fun o => o.flushReaders.setLastWriter i) (hd.live.2 hlive) (hd.map ▸ ha) (fun _ => rfl)
      (fun _ => List.subset_append_left _ _) (fun _ => List.Subset.refl _) rfl
      (fun w hw => by cases hw; exact .inr ⟨rfl, by simp⟩) fun r hr' => nomatch hr'
    convert hreg using 2 with y
    by_cases hy : y = i
    · simp [hy, ho, hi, h.fresh]
    · simp [hy, ← hi]
  · refine (local_newObj ht o (by simp [ho])).trans (Local.trans ?_ (local_register fun _ => rfl))
    exact local_dependAll (s := s.newObj o) (.inr fun b => h.commDO_ne_fresh (le_refl _)) _
  · exact hd.size
  · rw [hgraph.live, hd.live, newObj_live rfl]
  · rw [hgraph.edge, hd.edge, newObj_edge rfl rfl, newObj_live rfl]
    constructor
    · rintro (huv | ⟨-, ⟨hu, -⟩, rfl⟩)
      · exact .inl huv
      · exact .inr ⟨hu, rfl⟩
    · rintro (huv | ⟨hu, rfl⟩)
      · exact .inl huv
      · exact .inr ⟨.inl (h.reader a u hu).1, ⟨hu, hne u hu⟩, rfl⟩
  · refine (statusAt_modifyStatus _).trans ?_
    rw [if_pos rfl, statusAt_modifyObj, hd.statusAt, hst]
  · have hcomm : ((s.newObj o).obj i).commutation = some ⟨a, ty.commutative⟩ := by
      rw [newObj_obj, if_pos hi, ho]
    rw [modifyStatus_obj, modifyObj_obj_self]
    exact hd.commutation.trans hcomm

/-- The two ways `setUpTargetCommutationDependableObject` goes: the open object of the right kind is
used, or a new one is created, after the one of the other kind has been closed. An open object holds
its dummy increment, so the branch for a counter that was 0 is never taken. -/
theorem Inv.setUpTarget_cases (h : Inv s e) (a : Nat) (ty : AccessType) :
    (∃ c, (s.statusAt a).commDO = some c ∧ (s.obj c).commutation = some ⟨a, ty.commutative⟩ ∧
      s.setUpTargetCommutationDependableObject a a ty = (c, s.increasePredecessors c)) ∨
    ∃ s₀, Inv s₀ e ∧ Finalized a s s₀ ∧ (s₀.statusAt a).commDO = none ∧
      (∀ c, (s.statusAt a).commDO = some c →
        (s.obj c).commutation ≠ some ⟨a, ty.commutative⟩) ∧
      s₀ = s.finalizeReduction a ∧
      s.setUpTargetCommutationDependableObject a a ty = s₀.createCommutationDO a a ty := by
  unfold setUpTargetCommutationDependableObject
  cases hc : (s.statusAt a).commDO with
  | none => exact .inr ⟨s, h, .inl ⟨hc, rfl⟩, hc, nofun, (finalizeReduction_of_none hc).symm, rfl⟩
  | some c =>
    obtain ⟨hlive, -, k, hk⟩ := h.openDO a c hc
    by_cases hkind : k = ty.commutative
    · subst hkind
      have hnum := h.released c hlive (by simp [hk])
      refine .inl ⟨c, rfl, hk, ?_⟩
      simp [hk, hnum]
    · obtain ⟨hinv, hfin⟩ := h.finalizeReduction a
      refine .inr ⟨s.finalizeReduction a, hinv, hfin, ?_, fun c' hc' => ?_, rfl, ?_⟩
      · rw [hfin.commDO, if_pos rfl]
      · cases hc'
        rw [hk]
        simpa using hkind
      · simp [hk, hkind]

/-- An increment that no edge stands for yet. -/
theorem Inv.increasePredecessors (h : Inv s e) (hx : s.Live x) :
    Inv (s.increasePredecessors x) fun y => e y + if y = x then 1 else 0 := by
  have hg := sameGraph_increasePredecessors (s := s) (x := x)
  have hobj : ∀ y, (s.increasePredecessors x).obj y = { s.obj y with
      numPredecessors := ((s.increasePredecessors x).obj y).numPredecessors } := fun y => by
    simp only [DepState.increasePredecessors, modifyObj_obj]
    split <;> rfl
  have hdummy : ∀ y, dummy (s.increasePredecessors x) y = dummy s y := fun y =>
    dummy_congr (by rw [hobj y]) fun b => rfl
  refine ⟨⟨⟨h.keys, fun b w hw => ?_, fun b r hr => ?_, fun b c hc => ?_⟩,
    h.wf.increasePredecessors, ?_, fun y => ?_, fun y hy => ?_, fun c v hcv hc => ?_⟩,
    fun c hc hcc => ?_⟩
  · rw [hg.live, hobj w]; exact h.writer b w hw
  · rw [hg.live, hobj r]; exact h.reader b r hr
  · rw [hg.live, hobj c]; exact h.openDO b c hc
  · have := h.accounted.increasePredecessors (x := x)
    simpa only [hdummy, Int.add_assoc] using this
  · have := h.pending y
    split <;> omega
  · have h1 := h.fresh y hy
    have h2 : y ≠ x := by rintro rfl; exact absurd hx.1 (not_lt.2 hy)
    simp [h1, h2]
  · rw [hobj c] at hc; rw [hobj v]; exact h.commutation_succ c v (hg.edge.1 hcv) hc
  · rw [hobj c] at hcc
    have h1 := h.released c (hg.live.1 hc) hcc
    have h2 := h.toCore.predCount_le (hg.live.1 hc)
    have h3 := h.pending c
    have h4 := dummy_nonneg (s := s) (x := c)
    simp only [DepState.increasePredecessors, modifyObj_obj]
    split
    · dsimp only; omega
    · exact h1

/-- What `setUpTargetCommutationDependableObject` leaves: the open commutation object of `a`, of the
right kind and with one more increment than edges. -/
theorem Inv.setUpTarget (h : Inv s e) (ty : AccessType) (ht : Task s t) (hlt : s.Live t)
    (ha : a ∈ s.map.keys) :
    ∃ c s', s.setUpTargetCommutationDependableObject a a ty = (c, s') ∧
      Inv s' (fun y => e y + if y = c then 1 else 0) ∧ Local a t s s' ∧
      (s'.statusAt a).commDO = some c ∧ (s'.obj c).commutation = some ⟨a, ty.commutative⟩ ∧
      (s'.statusAt a).versionReaders = (s.statusAt a).versionReaders ∧
      (∀ y, (s.statusAt a).commDO ≠ some y → s.Live y → s'.Live y) ∧
      (s'.obj t).successors = (s.obj t).successors ∧
      (c ∈ (s.obj t).successors → (s.statusAt a).commDO = some c ∧
        (s.obj c).commutation = some ⟨a, ty.commutative⟩) := by
  rcases h.setUpTarget_cases a ty with ⟨c, hc, hk, heq⟩ | ⟨s₀, h₀, hfin, hnone, -, -, heq⟩
  · have hlive := (h.openDO a c hc).1
    have hg := sameGraph_increasePredecessors (s := s) (x := c)
    have hobj : ∀ y, (s.increasePredecessors c).obj y = { s.obj y with
        numPredecessors := ((s.increasePredecessors c).obj y).numPredecessors } := fun y => by
      simp only [DepState.increasePredecessors, modifyObj_obj]
      split <;> rfl
    refine ⟨c, _, heq, h.increasePredecessors hlive, ?_, hc, by rw [hobj c]; exact hk, rfl,
      fun y _ hy => hg.live.2 hy, hg.successors t, fun _ => ⟨hc, hk⟩⟩
    exact local_of_status rfl (fun _ hb => hb) (fun y => by rw [hobj y]; exact ⟨rfl, rfl, rfl, rfl⟩)
      (fun v hv => hg.successors t ▸ hv) fun b _ => rfl
  · have hcreate := h₀.createCommutationDO ty (hfin.keys ▸ ha) hnone
    have ht₀ : Task s₀ t := ⟨hfin.size ▸ ht.1, (hfin.commutation t).trans ht.2⟩
    have hne : t ≠ s₀.lastDepObjId := Nat.ne_of_lt ht₀.1
    have hst : ∀ b, ((s₀.newObj (targetDO a ty)).modifyStatus a
        (·.setCommDO (some s₀.lastDepObjId))).statusAt b =
          if b = a then (s₀.statusAt b).setCommDO (some s₀.lastDepObjId) else s₀.statusAt b :=
      fun b => statusAt_modifyStatus _
    rw [createCommutationDO_eq] at heq hcreate
    have hnew : Local a t s₀ _ := local_newObj ht₀ (targetDO a ty) (by simp [targetDO])
    refine ⟨_, _, heq, hcreate, (hfin.isLocal ht).trans (hnew.trans ?_), ?_, ?_, ?_,
      fun y hy hlive => ?_, ?_, fun hmem => ?_⟩
    · exact local_of_status rfl (fun _ hb => hb) (fun y => ⟨rfl, rfl, rfl, rfl⟩) (fun v hv => hv)
        fun b hb => by rw [hst, if_neg hb]; rfl
    · rw [hst, if_pos rfl]; rfl
    · simp [newObj_obj, targetDO]
    · rw [hst, if_pos rfl]; exact hfin.readers a
    · exact (newObj_live rfl).2 (.inl ((hfin.live_of_not hy).2 hlive))
    · rw [modifyStatus_obj, newObj_obj, if_neg hne, hfin.successors]
    · -- the new object is nobody's successor yet
      have hlt' := (h.wf.live_succ t _ ⟨hlt, hmem⟩).1
      rw [hfin.size] at hlt'
      exact absurd hlt' (lt_irrefl _)

/-- A new edge changes nothing but successors. -/
theorem pushSuccessor_obj (y : Nat) : (s.pushSuccessor t c).obj y = { s.obj y with
    successors := ((s.pushSuccessor t c).obj y).successors } := by
  simp only [pushSuccessor, modifyObj_obj]
  split <;> rfl

/-- `addSuccessor` of the task and its commutation object: the pending increment is accounted for,
unless the edge was there already. -/
theorem Inv.addSuccessor (h : Inv s e) (ht : Task s t) (hlt : s.Live t) (hc : s.Live c)
    (hne : t ≠ c) (he : 1 ≤ e c) :
    Inv (s.addSuccessor t c).2
        (fun y => e y - if y = c ∧ c ∉ (s.obj t).successors then 1 else 0) ∧
      (∀ u v, (s.addSuccessor t c).2.Edge u v ↔ s.Edge u v ∨ u = t ∧ v = c) := by
  by_cases hmem : c ∈ (s.obj t).successors
  · rw [addSuccessor_of_mem hmem]
    refine ⟨by simpa [hmem] using h, fun u v => ⟨.inl, ?_⟩⟩
    rintro (huv | ⟨rfl, rfl⟩)
    · exact huv
    · exact ⟨hlt, hmem⟩
  rw [addSuccessor_of_not_mem hne hmem]
  have hobj := pushSuccessor_obj (s := s) (t := t) (c := c)
  have hdummy : ∀ y, dummy (s.pushSuccessor t c) y = dummy s y := fun y =>
    dummy_congr (by rw [hobj y]) fun b => rfl
  have hedge : ∀ u v, (s.pushSuccessor t c).Edge u v ↔ s.Edge u v ∨ u = t ∧ v = c := fun u v => by
    rw [pushSuccessor_edge]
    exact or_congr_right ⟨fun h => h.2, fun h => ⟨hlt, h⟩⟩
  refine ⟨⟨⟨⟨h.keys, fun b w hw => ?_, fun b r hr => ?_, fun b x hx => ?_⟩,
    h.wf.pushSuccessor hc hne hmem, ?_, fun y => ?_, fun y hy => ?_, fun x v hxv hx => ?_⟩,
    fun x hx hxc => ?_⟩, hedge⟩
  · rw [pushSuccessor_live, hobj w]; exact h.writer b w hw
  · rw [pushSuccessor_live, hobj r]; exact h.reader b r hr
  · rw [pushSuccessor_live, hobj x]; exact h.openDO b x hx
  · have := h.accounted.pushSuccessor hlt hmem
    simpa only [hdummy, Int.add_sub_assoc, hmem, not_false_eq_true, and_true] using this
  · have := h.pending y
    split
    · next hy => rw [hy.1]; omega
    · omega
  · have h1 := h.fresh y hy
    have h2 : y ≠ c := by rintro rfl; omega
    simp [h1, h2]
  · rw [hobj x] at hx
    rw [hobj v]
    rcases (hedge x v).1 hxv with hxv | ⟨rfl, -⟩
    · exact h.commutation_succ x v hxv hx
    · exact absurd ht.2 hx
  · rw [hobj x] at hxc
    rw [hobj x]
    exact h.released x (pushSuccessor_live.1 hx) hxc

theorem addSuccessor_statusAt : (s.addSuccessor t c).2.statusAt b = s.statusAt b := by
  unfold DepState.addSuccessor
  split
  · rfl
  · split <;> rfl

theorem addSuccessor_live : (s.addSuccessor t c).2.Live y ↔ s.Live y := by
  unfold DepState.addSuccessor
  split
  · rfl
  · split
    · rfl
    · exact pushSuccessor_live

/-- The edge to the open commutation object of `a` stays local to `a`. -/
theorem Inv.isLocal_addSuccessor (h : Inv s e) (hc : (s.statusAt a).commDO = some c) :
    Local a t s (s.addSuccessor t c).2 := by
  obtain ⟨-, -, k, hk⟩ := h.openDO a c hc
  by_cases hmem : c ∈ (s.obj t).successors
  · rw [addSuccessor_of_mem hmem]
    exact local_of_status rfl (fun _ hb => hb) (fun _ => ⟨rfl, rfl, rfl, rfl⟩) (fun _ hv => hv)
      fun _ _ => rfl
  by_cases hne : t = c
  · rw [hne, show (s.addSuccessor c c).2 = s by simp [DepState.addSuccessor]]
    exact local_of_status rfl (fun _ hb => hb) (fun _ => ⟨rfl, rfl, rfl, rfl⟩) (fun _ hv => hv)
      fun _ _ => rfl
  rw [addSuccessor_of_not_mem hne hmem]
  have hobj := pushSuccessor_obj (s := s) (t := t) (c := c)
  refine ⟨le_refl _, fun _ hb => hb, fun y _ => by rw [hobj y],
    fun y hy hy' => absurd hy' (not_lt.2 hy), fun y _ => ?_, fun _ _ => rfl,
    fun _ _ => rfl, fun _ _ => .inl rfl, fun b d hb hd hmem' => ?_⟩
  · rw [hobj y]
    exact ⟨rfl, rfl, rfl⟩
  · simp only [pushSuccessor, modifyObj_obj_self, List.mem_append, List.mem_singleton] at hmem'
    rcases hmem' with hmem' | rfl
    · exact hmem'
    · -- an object is open at its own target only
      obtain ⟨-, -, k', hk'⟩ := h.openDO b d hd
      rw [hk] at hk'
      cases hk'
      exact absurd rfl hb

/-! ## Accesses -/

/-- `setUpInitialCommutationDependableObject`, with or without readers. -/
theorem Inv.setUpInitial_spec (h : Inv s e) (ty : AccessType) (ht : Task s t) (hlt : s.Live t)
    (ha : a ∈ s.map.keys) :
    ∃ i s', s.setUpInitialCommutationDependableObject a a ty = (i, s') ∧
      Inv s' (fun y => e y + if i = some y then 1 else 0) ∧ Local a t s s' ∧
      (s'.statusAt a).commDO = (s.statusAt a).commDO ∧ (s'.statusAt a).versionReaders = [] ∧
      (∀ x, i = some x → s'.Live x ∧ (s.statusAt a).commDO ≠ some x) ∧
      ∀ c, (s.statusAt a).commDO = some c → c ∈ (s'.obj t).successors →
        c ∈ (s.obj t).successors := by
  by_cases hr : (s.statusAt a).hasReaders = true
  · obtain ⟨s', heq, hinv, hloc, -, hlive, hedge, hst, -⟩ := h.setUpInitial ty ht ha hr
    refine ⟨_, s', heq, by simpa [eq_comm] using hinv, hloc, by rw [hst]; rfl, by rw [hst]; rfl,
      fun x hx => ?_, fun c hc hmem => ?_⟩
    · cases hx
      exact ⟨(hlive _).2 (.inr rfl), h.commDO_ne_fresh (le_refl _)⟩
    · rcases (hedge t c).1 ⟨(hloc.live ht).2 hlt, hmem⟩ with hmem | ⟨-, rfl⟩
      · exact hmem.2
      · exact absurd hc (h.commDO_ne_fresh (le_refl _))
  · have hnil : (s.statusAt a).versionReaders = [] := by
      simpa [TrackableObject.hasReaders] using hr
    refine ⟨none, s, ?_, by simpa using h, ?_, rfl, hnil, fun x hx => (by cases hx), fun c _ hmem => hmem⟩
    · unfold setUpInitialCommutationDependableObject
      rw [if_neg hr]
    · exact (Released.refl (X := fun _ => False)).isLocal ht a

/-- The release of an object with a pending increment. -/
theorem Inv.decrease (h : Inv s e) (hx : s.Live x) (he : 1 ≤ e x) :
    Inv (s.decrease x) (fun y => e y - if y = x then 1 else 0) ∧
      Released (· = x) s (s.decrease x) := by
  obtain ⟨fuel, hfuel⟩ : ∃ fuel, s.lastDepObjId = fuel + 1 :=
    ⟨s.lastDepObjId - 1, by have := hx.1; omega⟩
  unfold DepState.decrease
  rw [hfuel]
  exact h.decreasePredecessors hx he fuel

/-- The end of a concurrent or commutative access: the initial commutation object, if there is one,
loses the increment it was created with. -/
def releaseInitial (s : State) : Option Nat → State
  | none => s
  | some i => s.decrease i

theorem commutativeAccess_eq {s₁ s₂ : State} {i : Option Nat}
    (h₁ : s.setUpInitialCommutationDependableObject a a ty = (i, s₁))
    (h₂ : s₁.setUpTargetCommutationDependableObject a a ty = (c, s₂)) :
    s.submitDependableObjectCommutativeDataAccess t a a ty =
      releaseInitial ((s₂.addSuccessor t c).2.dependOnLastWriter t a) i := by
  unfold submitDependableObjectCommutativeDataAccess
  rw [h₁]
  dsimp only
  rw [h₂]
  rfl

theorem Inv.releaseInitial {i : Option Nat} (h : Inv s fun y => e y + if i = some y then 1 else 0)
    (hi : ∀ x, i = some x → s.Live x) (he : ∀ y, 0 ≤ e y) :
    Inv (releaseInitial s i) e ∧ ∃ X, Released X s (releaseInitial s i) := by
  cases i with
  | none => exact ⟨by simpa [Plain.releaseInitial] using h, fun _ => False, .refl⟩
  | some i =>
    have := he i
    obtain ⟨hinv, hrel⟩ := h.decrease (hi i rfl) (by simp only [if_true]; omega)
    refine ⟨?_, _, hrel⟩
    show Inv (s.decrease i) e
    convert hinv using 1
    funext y
    by_cases hy : y = i
    · simp [hy]
    · simp [hy, Ne.symm hy]

/-- A concurrent or commutative access. The counters stay accounted for unless the open commutation
object already was a successor of the task. -/
theorem Inv.commutativeAccess (h : Inv s e) (ty : AccessType) (ht : Task s t) (hlt : s.Live t)
    (ha : a ∈ s.map.keys) :
    ∃ e', Inv (s.submitDependableObjectCommutativeDataAccess t a a ty) e' ∧
      (∀ y, e y ≤ e' y) ∧
      ((∀ c, (s.statusAt a).commDO = some c → (s.obj c).commutation = some ⟨a, ty.commutative⟩ →
        c ∉ (s.obj t).successors) → e' = e) ∧
      Local a t s (s.submitDependableObjectCommutativeDataAccess t a a ty) ∧
      (∃ c, ((s.submitDependableObjectCommutativeDataAccess t a a ty).statusAt a).commDO =
        some c ∧ ((s.submitDependableObjectCommutativeDataAccess t a a ty).obj c).commutation =
          some ⟨a, ty.commutative⟩) ∧
      ((s.submitDependableObjectCommutativeDataAccess t a a ty).statusAt a).versionReaders = [] := by
  obtain ⟨i, s₁, heq₁, h₁, hloc₁, hcomm₁, hread₁, hi, hsucc₁⟩ :=
    h.setUpInitial_spec ty ht hlt ha
  have ht₁ := hloc₁.isTask ht
  have hlt₁ := (hloc₁.live ht).2 hlt
  obtain ⟨c, s₂, heq₂, h₂, hloc₂, hcomm₂, hkind₂, hread₂, hlive₂, hsucc₂, hc⟩ :=
    h₁.setUpTarget ty ht₁ hlt₁ (hloc₁.keys a ha)
  have ht₂ := hloc₂.isTask ht₁
  have hlt₂ := (hloc₂.live ht₁).2 hlt₁
  have hlc := (h₂.openDO a c hcomm₂).1
  have hne : t ≠ c := by
    rintro rfl
    rw [ht₂.2] at hkind₂
    cases hkind₂
  obtain ⟨h₃, -⟩ := h₂.addSuccessor ht₂ hlt₂ hlc hne (by
    have := h₁.pending c
    simp only [if_true]
    omega)
  have hloc₃ := h₂.isLocal_addSuccessor (t := t) hcomm₂
  set s₃ := (s₂.addSuccessor t c).2 with hs₃
  have hst₃ : ∀ b, s₃.statusAt b = s₂.statusAt b := fun b => addSuccessor_statusAt
  have ht₃ := hloc₃.isTask ht₂
  have hlt₃ := (hloc₃.live ht₂).2 hlt₂
  have h₄ := h₃.dependOnLastWriter hlt₃ ht₃.2 a
  have hd := depended_dependAll (s := s₃) (x := t) (s₃.statusAt a).lastWriter.toList
  rw [← dependOnLastWriter_eq] at hd
  have hloc₄ : Local a t s₃ (s₃.dependOnLastWriter t a) := local_dependOnLastWriter
  set s₄ := s₃.dependOnLastWriter t a with hs₄
  have hst₄ : ∀ b, s₄.statusAt b = s₂.statusAt b := fun b => (hd.statusAt b).trans (hst₃ b)
  have hloc := hloc₁.trans (hloc₂.trans (hloc₃.trans hloc₄))
  -- what is left pending before the initial object is released
  have hpend : ∀ y, (((e y + if i = some y then 1 else 0) + if y = c then 1 else 0) -
      if y = c ∧ c ∉ (s₂.obj t).successors then 1 else 0) =
      (e y + if y = c ∧ c ∈ (s₂.obj t).successors then 1 else 0) + if i = some y then 1 else 0 := by
    intro y
    split_ifs <;> simp_all
  have h₄' : Inv s₄ fun y => (e y + if y = c ∧ c ∈ (s₂.obj t).successors then 1 else 0) +
      if i = some y then 1 else 0 := by simpa only [hpend] using h₄
  have hi₄ : ∀ x, i = some x → s₄.Live x := fun x hx => by
    obtain ⟨hi₁, hi₂⟩ := hi x hx
    rw [hd.live]
    exact addSuccessor_live.2 (hlive₂ x (hcomm₁ ▸ hi₂) hi₁)
  obtain ⟨h₅, X, hrel⟩ := h₄'.releaseInitial hi₄ fun y => by
    have := h.pending y
    split <;> omega
  have ht₄ := hloc.isTask ht
  rw [commutativeAccess_eq heq₁ heq₂]
  refine ⟨_, h₅, fun y => by split <;> omega, fun hnot => ?_, hloc.trans (hrel.isLocal ht₄ a), ?_, ?_⟩
  · funext y
    rw [if_neg, Int.add_zero]
    intro hy
    obtain ⟨h1, h2⟩ := hc (hsucc₂ ▸ hy.2)
    rw [hcomm₁] at h1
    refine hnot c h1 ?_ (hsucc₁ c h1 (hsucc₂ ▸ hy.2))
    rw [← h2, hloc₁.commutation c (h.openDO a c h1).1.1]
  · refine ⟨c, ?_, ?_⟩
    · rw [hrel.commDO, hst₄, hcomm₂]
    · rw [hrel.commutation, hd.commutation, hloc₃.commutation c hlc.1, hkind₂]
  · rw [hrel.readers, hst₄, hread₂, hread₁]

/-- What `in` and `inout` accesses do first: the open commutation object is closed, and the task
depends on the last writer. -/
theorem Inv.finalizeAndDepend (h : Inv s e) (ht : Task s t) (hlt : s.Live t) (a : Nat) :
    Inv ((s.finalizeReduction a).dependOnLastWriter t a) e ∧
      Local a t s ((s.finalizeReduction a).dependOnLastWriter t a) := by
  obtain ⟨h₁, hfin⟩ := h.finalizeReduction a
  have hloc₁ := hfin.isLocal ht
  exact ⟨h₁.dependOnLastWriter ((hloc₁.live ht).2 hlt) (hloc₁.isTask ht).2 a,
    hloc₁.trans local_dependOnLastWriter⟩

/-- A write: the task becomes the last writer, whatever it depends on. -/
theorem Inv.writeAccess (h : Inv s e) (ht : Task s t) (hlt : s.Live t) (ha : a ∈ s.map.keys)
    (hw : (s.obj t).waits = false) :
    Inv (s.dependOnReadersAndSetAsWriter t a a) e ∧
      Local a t s (s.dependOnReadersAndSetAsWriter t a a) ∧
      ((s.dependOnReadersAndSetAsWriter t a a).statusAt a).lastWriter = some t ∧
      ((s.dependOnReadersAndSetAsWriter t a a).statusAt a).versionReaders = [] := by
  have h₁ := h.dependOnReaders hlt (.inl ht.2) a
  have hd := depended_dependAll (s := s) (x := t) (s.statusAt a).versionReaders
  have hloc₁ : Local a t s (s.dependOnReaders t a) := local_dependAll (.inl rfl) _
  have hw₁ : ((s.dependOnReaders t a).obj t).waits = false := (hloc₁.task t ht).2.2.trans hw
  have h₂ := h₁.setAsWriter ((hloc₁.live ht).2 hlt) (hloc₁.keys a ha) hw₁
  unfold dependOnReadersAndSetAsWriter
  refine ⟨h₂, ?_⟩
  rw [setAsWriter_eq hw₁]
  refine ⟨hloc₁.trans (local_register fun _ => rfl), ?_⟩
  rw [statusAt_modifyStatus, if_pos rfl]
  exact ⟨rfl, rfl⟩

/-- An `inout` access. -/
theorem Inv.inoutAccess (h : Inv s e) (ht : Task s t) (hlt : s.Live t) (ha : a ∈ s.map.keys)
    (hw : (s.obj t).waits = false) :
    Inv (s.submitDependableObjectInoutDataAccess t a a) e ∧
      Local a t s (s.submitDependableObjectInoutDataAccess t a a) ∧
      ((s.submitDependableObjectInoutDataAccess t a a).statusAt a).lastWriter = some t ∧
      ((s.submitDependableObjectInoutDataAccess t a a).statusAt a).versionReaders = [] := by
  obtain ⟨h₂, hloc⟩ := h.finalizeAndDepend ht hlt a
  obtain ⟨h₃, hloc₃, hst⟩ := h₂.writeAccess (hloc.isTask ht) ((hloc.live ht).2 hlt)
    (hloc.keys a ha) ((hloc.task t ht).2.2.trans hw)
  exact ⟨h₃, hloc.trans hloc₃, hst⟩

/-- An `out` access. -/
theorem Inv.outputAccess (h : Inv s e) (ht : Task s t) (hlt : s.Live t) (ha : a ∈ s.map.keys)
    (hw : (s.obj t).waits = false) :
    Inv (s.submitDependableObjectOutputDataAccess t a a) e ∧
      Local a t s (s.submitDependableObjectOutputDataAccess t a a) ∧
      ((s.submitDependableObjectOutputDataAccess t a a).statusAt a).lastWriter = some t ∧
      ((s.submitDependableObjectOutputDataAccess t a a).statusAt a).versionReaders = [] := by
  unfold submitDependableObjectOutputDataAccess
  obtain ⟨h₁, hfin⟩ := h.finalizeReduction a
  have hloc₁ := hfin.isLocal ht
  dsimp only
  split
  · obtain ⟨h₃, hloc₃, hst⟩ := h₁.writeAccess (hloc₁.isTask ht) ((hloc₁.live ht).2 hlt)
      (hloc₁.keys a ha) ((hloc₁.task t ht).2.2.trans hw)
    exact ⟨h₃, hloc₁.trans hloc₃, hst⟩
  · exact h.inoutAccess ht hlt ha hw

/-- An `in` access: the task becomes a reader. -/
theorem Inv.inputAccess (h : Inv s e) (ht : Task s t) (hlt : s.Live t) (ha : a ∈ s.map.keys)
    (hw : (s.obj t).waits = false) :
    Inv ((s.submitDependableObjectInputDataAccess t a).addReadTarget t a) e ∧
      Local a t s ((s.submitDependableObjectInputDataAccess t a).addReadTarget t a) ∧
      (((s.submitDependableObjectInputDataAccess t a).addReadTarget t a).statusAt a).commDO =
        none := by
  obtain ⟨-, hfin⟩ := h.finalizeReduction a
  obtain ⟨h₂, hloc⟩ := h.finalizeAndDepend ht hlt a
  have hd := depended_dependAll (s := s.finalizeReduction a) (x := t)
    ((s.finalizeReduction a).statusAt a).lastWriter.toList
  rw [← dependOnLastWriter_eq] at hd
  have hw₂ : (((s.finalizeReduction a).dependOnLastWriter t a).obj t).waits = false :=
    (hloc.task t ht).2.2.trans hw
  have h₃ := h₂.addAsReader ((hloc.live ht).2 hlt) (hloc.isTask ht).2 (hloc.keys a ha)
  unfold submitDependableObjectInputDataAccess
  dsimp only
  rw [if_neg (by simpa using hw₂)]
  refine ⟨h₃, hloc.trans (local_register (f := fun o =>
    { o with readObjects := o.readObjects ++ [a] }) (g := (·.setReader t)) fun _ => rfl), ?_⟩
  refine (congrArg TrackableObject.commDO (statusAt_modifyStatus (s :=
    ((s.finalizeReduction a).dependOnLastWriter t a).modifyObj t fun o =>
      { o with readObjects := o.readObjects ++ [a] }) (·.setReader t))).trans ?_
  rw [if_pos rfl]
  show ((((s.finalizeReduction a).dependOnLastWriter t a).statusAt a)).commDO = none
  rw [hd.statusAt, hfin.commDO, if_pos rfl]

/-- What one access of the task `t` to `a` does at `a`, by the kind of the access. `e` and `e'` are
the increments pending before and after it. -/
inductive Accessed (t a : Nat) (ty : AccessType) (s s' : State) (e e' : Nat → Int) : Prop
  /-- The task is the last writer already. -/
  | skipped : (s.statusAt a).lastWriter = some t → s' = lookup s a → e' = e → Accessed t a ty s s' e e'
  /-- The task precedes the open commutation object. -/
  | commutation (c : Nat) : (s.statusAt a).lastWriter ≠ some t → ty.isCommutation = true →
      (s'.statusAt a).commDO = some c → (s'.obj c).commutation = some ⟨a, ty.commutative⟩ →
      (s'.statusAt a).versionReaders = [] →
      ((∀ c, (s.statusAt a).commDO = some c → (s.obj c).commutation = some ⟨a, ty.commutative⟩ →
        c ∉ (s.obj t).successors) → e' = e) → Accessed t a ty s s' e e'
  /-- The task is the last writer from now on. -/
  | write : (s.statusAt a).lastWriter ≠ some t → ty.isCommutation = false → ty.output = true →
      (s'.statusAt a).lastWriter = some t → (s'.statusAt a).versionReaders = [] → e' = e →
      Accessed t a ty s s' e e'
  /-- The task is a reader, and no commutation object is open. -/
  | read : (s.statusAt a).lastWriter ≠ some t → ty = .inAccess → (s'.statusAt a).commDO = none →
      e' = e → Accessed t a ty s s' e e'

/-- **One access keeps the invariant.** No access of a valid kind is an error; counters stay
accounted for, up to the increment that a repeated concurrent or commutative access leaves. -/
theorem Inv.submitDependableObjectDataAccess (h : Inv s e) (ht : Task s t) (hlt : s.Live t)
    (hw : (s.obj t).waits = false) (hty : ty.Valid) :
    ∃ s' e', submitDependableObjectDataAccess s t a ty = .ok s' ∧ Inv s' e' ∧
      (∀ y, e y ≤ e' y) ∧ Local a t s s' ∧ Accessed t a ty s s' e e' := by
  have h₀ := h.lookup a
  have ha : a ∈ (Plain.lookup s a).map.keys := mem_keys_lookup.2 (.inr rfl)
  have hloc₀ : Local a t s (Plain.lookup s a) := h.isLocal_lookup
  have ht₀ : Task (Plain.lookup s a) t := ht
  have hst : ∀ b, (Plain.lookup s a).statusAt b = s.statusAt b := fun b => h.statusAt_lookup
  unfold Plain.submitDependableObjectDataAccess
  by_cases hskip : (s.statusAt a).lastWriter = some t
  · refine ⟨_, e, if_pos (by rw [← hskip]; exact congrArg _ (hst a)), h₀, fun y => le_refl _, hloc₀,
      .skipped hskip rfl rfl⟩
  dsimp only
  rw [if_neg (by rw [← hst a] at hskip; exact hskip)]
  rcases hty with (rfl | rfl | rfl) | rfl | rfl
  · obtain ⟨h₁, hloc₁, hc⟩ := h₀.inputAccess ht₀ hlt ha hw
    have hw₁ : ((submitDependableObjectInputDataAccess (Plain.lookup s a) t a).obj t).waits =
        false := by
      have := (hloc₁.task t ht₀).2.2.trans hw
      simpa [DepState.addReadTarget] using this
    refine ⟨_, e, ?_, h₁, fun y => le_refl _, hloc₀.trans hloc₁, .read hskip rfl hc rfl⟩
    exact congrArg Except.ok (if_neg fun hw' => Bool.false_ne_true (hw₁.symm.trans hw'))
  · obtain ⟨h₁, hloc₁, hlw, hr⟩ := h₀.outputAccess ht₀ hlt ha hw
    exact ⟨_, e, rfl, h₁, fun y => le_refl _, hloc₀.trans hloc₁, .write hskip rfl rfl hlw hr rfl⟩
  · obtain ⟨h₁, hloc₁, hlw, hr⟩ := h₀.inoutAccess ht₀ hlt ha hw
    have hw₁ := (hloc₁.task t ht₀).2.2.trans hw
    refine ⟨_, e, ?_, h₁.addReadTarget ((hloc₁.live ht₀).2 hlt) (hloc₁.keys a ha),
      fun y => le_refl _, hloc₀.trans (hloc₁.trans local_addReadTarget), .write hskip rfl rfl hlw hr rfl⟩
    exact congrArg Except.ok (if_neg fun hw' => Bool.false_ne_true (hw₁.symm.trans hw'))
  · obtain ⟨e', h₁, hle, he, hloc₁, ⟨c, hc, hk⟩, hr⟩ :=
      h₀.commutativeAccess .concurrentAccess ht₀ hlt ha
    exact ⟨_, e', rfl, h₁, hle, hloc₀.trans hloc₁, .commutation c hskip rfl hc hk hr fun hnot =>
      he fun c hc hk => hnot c (hst a ▸ hc) hk⟩
  · obtain ⟨e', h₁, hle, he, hloc₁, ⟨c, hc, hk⟩, hr⟩ :=
      h₀.commutativeAccess .commutativeAccess ht₀ hlt ha
    exact ⟨_, e', rfl, h₁, hle, hloc₀.trans hloc₁, .commutation c hskip rfl hc hk hr fun hnot =>
      he fun c hc hk => hnot c (hst a ▸ hc) hk⟩

end

end OmpSs.Deps.Plain
