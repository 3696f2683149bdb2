import OmpSs.Deps.PlainRelease

/-!
# Submissions to the plain domain

Every operation a submission is made of keeps `Inv`, with the increments it leaves pending: a new
object holds the increments it was created with, `setUpTargetCommutationDependableObject` adds one
to the counter of the commutation object it returns, and `addSuccessor` takes it away again when
the submitted task was not among the predecessors of that object yet.
-/

namespace OmpSs.Deps.Plain

open DepState

section
variable {s s' : State} {e e' : Nat → Int} {a b c t u v w x y : Nat} {ty : AccessType}

/-! ## Changes of one status -/

theorem dummy_congr (hc : (s'.obj y).commutation = (s.obj y).commutation)
    (hs : ∀ b, (s'.statusAt b).commDO = (s.statusAt b).commDO) : dummy s' y = dummy s y := by
  unfold dummy
  rw [hc]
  split
  · rfl
  · rw [hs]

/-- An operation that changes the status of `a` and at most adds targets to objects. -/
theorem Recorded.modify (h : Recorded s) (a : Nat) (hlive : ∀ y, s.Live y → s'.Live y)
    (hout : ∀ y, s.Live y → (s.obj y).outputObjects ⊆ (s'.obj y).outputObjects)
    (hread : ∀ y, s.Live y → (s.obj y).readObjects ⊆ (s'.obj y).readObjects)
    (hcomm : ∀ y, s.Live y → (s'.obj y).commutation = (s.obj y).commutation)
    (hkeys : s'.map.keys = s.map.keys) (ha : a ∈ s.map.keys)
    (hst : ∀ b, b ≠ a → s'.statusAt b = s.statusAt b)
    (hw : ∀ w, (s'.statusAt a).lastWriter = some w →
      s'.Live w ∧ a ∈ (s'.obj w).outputObjects)
    (hr : ∀ r, r ∈ (s'.statusAt a).versionReaders →
      s'.Live r ∧ a ∈ (s'.obj r).readObjects ∧ (s'.obj r).commutation = none)
    (ho : ∀ c, (s'.statusAt a).commDO = some c →
      s'.Live c ∧ a ∈ (s'.obj c).outputObjects ∧ ∃ k, (s'.obj c).commutation = some ⟨a, k⟩) :
    Recorded s' where
  keys b hb := by
    rw [hkeys] at hb
    rw [hst b fun hba => hb (hba ▸ ha)]
    exact h.keys b hb
  writer b w hbw := by
    by_cases hba : b = a
    · subst hba; exact hw w hbw
    · rw [hst b hba] at hbw
      obtain ⟨h1, h2⟩ := h.writer b w hbw
      exact ⟨hlive w h1, hout w h1 h2⟩
  reader b r hbr := by
    by_cases hba : b = a
    · subst hba; exact hr r hbr
    · rw [hst b hba] at hbr
      obtain ⟨h1, h2, h3⟩ := h.reader b r hbr
      exact ⟨hlive r h1, hread r h1 h2, (hcomm r h1).trans h3⟩
  openDO b c hbc := by
    by_cases hba : b = a
    · subst hba; exact ho c hbc
    · rw [hst b hba] at hbc
      obtain ⟨h1, h2, k, h3⟩ := h.openDO b c hbc
      exact ⟨hlive c h1, hout c h1 h2, k, (hcomm c h1).trans h3⟩

/-- An operation on the statuses and targets: the graph and the counters stay. -/
theorem Inv.of_sameGraph (h : Inv s e) (hg : SameGraph s s') (hrec : Recorded s')
    (hobj : ∀ y, (s'.obj y).numPredecessors = (s.obj y).numPredecessors ∧
      (s'.obj y).references = (s.obj y).references ∧
      (s'.obj y).commutation = (s.obj y).commutation)
    (hdummy : ∀ y, dummy s' y + e' y = dummy s y + e y) (hpend : ∀ y, 0 ≤ e' y)
    (hfresh : ∀ y, s.lastDepObjId ≤ y → e' y = 0) : Inv s' e' where
  toRecorded := hrec
  wf := hg.wf h.wf fun y _ => .inl (hobj y).2.1
  accounted := hg.accounted h.accounted fun y _ => by
    have := hdummy y
    rw [(hobj y).1]
    omega
  pending := hpend
  fresh y hy := hfresh y (hg.size ▸ hy)
  commutation_succ c v hcv hc := by
    rw [(hobj c).2.2] at hc
    rw [(hobj v).2.2]
    exact h.commutation_succ c v (hg.edge.1 hcv) hc
  released c hc hcc := by
    rw [(hobj c).2.2] at hcc
    rw [(hobj c).1]
    exact h.released c (hg.live.1 hc) hcc

/-- The domain after `lookupDependency`. -/
def lookup (s : State) (a : Nat) : State := { s with map := s.map.lookupDependency a }

theorem mem_keys_lookup : b ∈ (lookup s a).map.keys ↔ b ∈ s.map.keys ∨ b = a := by
  simp only [lookup, DepsMap.lookupDependency]
  split
  · next h => exact ⟨.inl, fun hb => hb.elim id fun hb => hb ▸ h⟩
  · simp

/-- A status that was not there is the empty one. -/
theorem statusAt_lookup (h : ∀ a, a ∉ s.map.keys → s.statusAt a = {}) :
    (lookup s a).statusAt b = s.statusAt b := by
  show (s.map.lookupDependency a).trackable b = s.map.trackable b
  unfold DepsMap.lookupDependency
  split
  · rfl
  · next ha =>
    dsimp only
    split
    · next hb => subst hb; exact (h b ha).symm
    · rfl

theorem Recorded.statusAt_lookup (h : Recorded s) : (lookup s a).statusAt b = s.statusAt b :=
  Plain.statusAt_lookup h.keys

theorem Inv.lookup (h : Inv s e) (a : Nat) : Inv (lookup s a) e := by
  have hst : ∀ b, (Plain.lookup s a).statusAt b = s.statusAt b := fun b => h.statusAt_lookup
  refine h.of_sameGraph (sameGraph_map _) ⟨fun b hb => ?_, fun b w hw => ?_, fun b r hr => ?_,
    fun b c hc => ?_⟩ (fun y => ⟨rfl, rfl, rfl⟩) (fun y => ?_) h.pending h.fresh
  · rw [hst]; exact h.keys b fun hb' => hb (mem_keys_lookup.2 (.inl hb'))
  · rw [hst] at hw; exact h.writer b w hw
  · rw [hst] at hr; exact h.reader b r hr
  · rw [hst] at hc; exact h.openDO b c hc
  · have hdummy : dummy (Plain.lookup s a) y = dummy s y := dummy_congr rfl fun b => by rw [hst]
    rw [hdummy]

/-! ## Dependences -/

/-- An unfinished object comes to depend on unfinished objects. -/
theorem Inv.dependAll (h : Inv s e) (hx : s.Live x) (l : List Nat) (hl : ∀ w ∈ l, s.Live w)
    (hcomm : (s.obj x).commutation = none ∨
      1 ≤ e x ∧ ∀ w ∈ l, (s.obj w).commutation = none) : Inv (s.dependAll x l) e := by
  have hd := depended_dependAll (s := s) (x := x) l
  have hst : ∀ b, (s.dependAll x l).statusAt b = s.statusAt b := fun b => hd.statusAt b
  have hdummy : ∀ y, dummy (s.dependAll x l) y = dummy s y := fun y =>
    dummy_congr hd.commutation fun b => by rw [hst]
  obtain ⟨hwf, hacc⟩ := h.accounted.dependAll h.wf hx l hl
  refine ⟨⟨⟨fun b hb => ?_, fun b w hw => ?_, fun b r hr => ?_, fun b c hc => ?_⟩, hwf, ?_,
    h.pending, fun y hy => h.fresh y (hd.size ▸ hy), fun c v hcv hc => ?_⟩, fun c hc hcc => ?_⟩
  · rw [hd.map] at hb; rw [hst]; exact h.keys b hb
  · rw [hst] at hw; rw [hd.live, hd.obj w]; exact h.writer b w hw
  · rw [hst] at hr; rw [hd.live, hd.obj r]; exact h.reader b r hr
  · rw [hst] at hc; rw [hd.live, hd.obj c]; exact h.openDO b c hc
  · simpa only [hdummy] using hacc
  · rw [hd.commutation] at hc ⊢
    rcases hd.edge.1 hcv with hcv | ⟨-, ⟨hcl, -⟩, rfl⟩
    · exact h.commutation_succ c v hcv hc
    · exact hcomm.resolve_right fun hx => hc (hx.2 c hcl)
  · rw [hd.commutation] at hcc
    by_cases hcx : c = x
    · subst hcx
      have h1 := hacc c hc
      have h2 := dummy_nonneg (s := s) (x := c)
      have h3 := hcomm.resolve_left hcc
      dsimp only at h1
      omega
    · rw [hd.numPredecessors c hcx]
      exact h.released c (hd.live.1 hc) hcc

/-- `dependOnLastWriter` of a task. -/
theorem Inv.dependOnLastWriter (h : Inv s e) (ht : s.Live t) (htask : (s.obj t).commutation = none)
    (a : Nat) : Inv (s.dependOnLastWriter t a) e := by
  rw [dependOnLastWriter_eq]
  refine h.dependAll ht _ (fun w hw => ?_) (.inl htask)
  exact (h.writer a w (Option.mem_toList.1 hw)).1

/-- `dependOnReaders`; readers are tasks, so a commutation object can depend on them. -/
theorem Inv.dependOnReaders (h : Inv s e) (hx : s.Live x)
    (hcomm : (s.obj x).commutation = none ∨ 1 ≤ e x) (a : Nat) : Inv (s.dependOnReaders x a) e := by
  rw [dependOnReaders_eq]
  refine h.dependAll hx _ (fun r hr => (h.reader a r hr).1) ?_
  exact hcomm.imp_right fun he => ⟨he, fun r hr => (h.reader a r hr).2.2⟩

/-! ## Registration -/

theorem modifyStatus_modifyStatus (f g : TrackableObject → TrackableObject) :
    (s.modifyStatus a f).modifyStatus a g = s.modifyStatus a fun o => g (f o) := by
  have hmap : ((s.modifyStatus a f).modifyStatus a g).map = (s.modifyStatus a fun o => g (f o)).map := by
    show DepsMap.mk _ _ = DepsMap.mk _ _
    congr 1
    funext b
    by_cases hb : b = a
    · subst hb
      simp [modifyStatus, StatusMap.status, StatusMap.setStatus]
    · simp [modifyStatus, StatusMap.setStatus, hb]
  show DepState.mk _ _ _ = DepState.mk _ _ _
  congr 1

theorem sameGraph_register {f : DependableObject Nat → DependableObject Nat}
    {g : TrackableObject → TrackableObject}
    (hf : ∀ o, f o = { o with outputObjects := (f o).outputObjects
                              readObjects := (f o).readObjects }) :
    SameGraph s ((s.modifyObj x f).modifyStatus a g) := by
  obtain ⟨h1, h2, h3⟩ := sameGraph_modifyObj (s := s) (x := x) (f := f) (by rw [hf]) (by rw [hf])
  exact ⟨h1, h2, h3⟩

/-- An unfinished object enters itself into the status of `a` and the target into its own lists. -/
theorem Inv.register (h : Inv s e) (hx : s.Live x) (ha : a ∈ s.map.keys)
    {f : DependableObject Nat → DependableObject Nat} {g : TrackableObject → TrackableObject}
    (hf : ∀ o, f o = { o with outputObjects := (f o).outputObjects
                              readObjects := (f o).readObjects })
    (hout : ∀ o, o.outputObjects ⊆ (f o).outputObjects)
    (hread : ∀ o, o.readObjects ⊆ (f o).readObjects)
    (hg : (g (s.statusAt a)).commDO = (s.statusAt a).commDO)
    (hw : ∀ w, (g (s.statusAt a)).lastWriter = some w →
      (s.statusAt a).lastWriter = some w ∨ w = x ∧ a ∈ (f (s.obj x)).outputObjects)
    (hr : ∀ r, r ∈ (g (s.statusAt a)).versionReaders → r ∈ (s.statusAt a).versionReaders ∨
      r = x ∧ a ∈ (f (s.obj x)).readObjects ∧ (s.obj x).commutation = none) :
    Inv ((s.modifyObj x f).modifyStatus a g) e := by
  have hst : ∀ b, ((s.modifyObj x f).modifyStatus a g).statusAt b =
      if b = a then g (s.statusAt b) else s.statusAt b := fun b => statusAt_modifyStatus g
  have hobj : ∀ y, ((s.modifyObj x f).modifyStatus a g).obj y =
      if y = x then f (s.obj y) else s.obj y := fun y => rfl
  have hcommDO : ∀ b, (((s.modifyObj x f).modifyStatus a g).statusAt b).commDO =
      (s.statusAt b).commDO := by
    intro b
    rw [hst b]
    split
    · next h => subst h; exact hg
    · rfl
  have hout' : ∀ y, (s.obj y).outputObjects ⊆
      (((s.modifyObj x f).modifyStatus a g).obj y).outputObjects := by
    intro y
    rw [hobj]
    split
    · exact hout _
    · exact List.Subset.refl _
  have hread' : ∀ y, (s.obj y).readObjects ⊆
      (((s.modifyObj x f).modifyStatus a g).obj y).readObjects := by
    intro y
    rw [hobj]
    split
    · exact hread _
    · exact List.Subset.refl _
  have hsame : ∀ y, (((s.modifyObj x f).modifyStatus a g).obj y).numPredecessors =
      (s.obj y).numPredecessors ∧
      (((s.modifyObj x f).modifyStatus a g).obj y).references = (s.obj y).references ∧
      (((s.modifyObj x f).modifyStatus a g).obj y).commutation = (s.obj y).commutation := by
    intro y
    rw [hobj]
    split
    · rw [hf]; exact ⟨rfl, rfl, rfl⟩
    · exact ⟨rfl, rfl, rfl⟩
  have hgraph : SameGraph s ((s.modifyObj x f).modifyStatus a g) := sameGraph_register hf
  refine h.of_sameGraph hgraph (h.toRecorded.modify a (fun y hy => hgraph.live.2 hy)
    (fun y _ => hout' y) (fun y _ => hread' y) (fun y _ => (hsame y).2.2) rfl ha
    (fun b hb => by rw [hst, if_neg hb]) (fun w hlw => ?_) (fun r hrd => ?_) fun c hc => ?_) hsame
    (fun y => by rw [dummy_congr (hsame y).2.2 hcommDO]) h.pending h.fresh
  · rw [hst, if_pos rfl] at hlw
    rw [hgraph.live]
    rcases hw w hlw with hlw | ⟨rfl, hmem⟩
    · obtain ⟨h1, h2⟩ := h.writer a w hlw
      exact ⟨h1, hout' w h2⟩
    · rw [hobj, if_pos rfl]
      exact ⟨hx, hmem⟩
  · rw [hst, if_pos rfl] at hrd
    rw [hgraph.live, (hsame r).2.2]
    rcases hr r hrd with hrd | ⟨rfl, hmem, htask⟩
    · obtain ⟨h1, h2, h3⟩ := h.reader a r hrd
      exact ⟨h1, hread' r h2, h3⟩
    · rw [hobj, if_pos rfl]
      exact ⟨hx, hmem, htask⟩
  · rw [hcommDO] at hc
    obtain ⟨h1, h2, h3⟩ := h.openDO a c hc
    rw [hgraph.live, (hsame c).2.2]
    exact ⟨h1, hout' c h2, h3⟩

/-- `setAsWriter` of a task: it becomes the last writer and the readers are gone. -/
theorem setAsWriter_eq (hw : (s.obj t).waits = false) :
    s.setAsWriter t a a = (s.modifyObj t fun o =>
      { o with outputObjects := o.outputObjects ++ [a] }).modifyStatus a
        fun o => o.flushReaders.setLastWriter t := by
  rw [← modifyStatus_modifyStatus TrackableObject.flushReaders (·.setLastWriter t)]
  exact setAsWriter_of_not_waits hw

theorem Inv.setAsWriter (h : Inv s e) (ht : s.Live t) (ha : a ∈ s.map.keys)
    (hw : (s.obj t).waits = false) : Inv (s.setAsWriter t a a) e := by
  rw [setAsWriter_eq hw]
  refine h.register ht ha (fun _ => rfl) (fun _ => List.subset_append_left _ _)
    (fun _ => List.Subset.refl _) rfl (fun w hlw => ?_) fun r hr => nomatch hr
  cases hlw
  exact .inr ⟨rfl, by simp⟩

/-- `addReadTarget` of a target that the object need not be a reader of. -/
theorem Inv.addReadTarget (h : Inv s e) (ht : s.Live t) (ha : a ∈ s.map.keys) :
    Inv (s.addReadTarget t a) e := by
  have hid : s.addReadTarget t a = (s.addReadTarget t a).modifyStatus a id := by
    show DepState.mk _ _ _ = DepState.mk _ _ _
    congr 1
    show DepsMap.mk _ _ = DepsMap.mk _ _
    congr 1
    funext b
    split
    · next hb => subst hb; rfl
    · rfl
  rw [hid]
  exact h.register ht ha (fun _ => rfl) (fun _ => List.Subset.refl _)
    (fun _ => List.subset_append_left _ _) rfl (fun w hlw => .inl hlw) fun r hr => .inl hr

/-- `addAsReader` together with `addReadTarget`. -/
theorem Inv.addAsReader (h : Inv s e) (ht : s.Live t) (htask : (s.obj t).commutation = none)
    (ha : a ∈ s.map.keys) : Inv ((s.addAsReader t a).addReadTarget t a) e := by
  show Inv ((s.modifyObj t fun o =>
    { o with readObjects := o.readObjects ++ [a] }).modifyStatus a (·.setReader t)) e
  refine h.register ht ha (fun _ => rfl) (fun _ => List.Subset.refl _)
    (fun _ => List.subset_append_left _ _) rfl (fun w hlw => .inl hlw) fun r hr => ?_
  rcases List.mem_append.1 hr with hr | hr
  · exact .inl hr
  · cases List.mem_singleton.1 hr
    exact .inr ⟨rfl, by simp, htask⟩

/-! ## New objects -/

/-- An object that does not exist yet is not open. -/
theorem Recorded.commDO_ne_fresh (h : Recorded s) (hx : s.lastDepObjId ≤ x) :
    (s.statusAt a).commDO ≠ some x :=
  fun hc => absurd (h.openDO a x hc).1.1 (not_lt.2 hx)

/-- A new object holds the increments it is created with. -/
theorem Inv.newObj (h : Inv s e) {o : DependableObject Nat} (hfin : o.finished = false)
    (hsucc : o.successors = []) (href : o.references = 1) (hnum : 0 ≤ o.numPredecessors)
    (hcomm : o.commutation ≠ none → o.numPredecessors ≠ 0) :
    Inv (s.newObj o) fun y => if y = s.lastDepObjId then o.numPredecessors else e y := by
  have hold : ∀ y, s.Live y → (s.newObj o).obj y = s.obj y := fun y hy =>
    if_neg (Nat.ne_of_lt hy.1)
  have hlive : ∀ y, s.Live y → (s.newObj o).Live y := fun y hy => (newObj_live hfin).2 (.inl hy)
  refine ⟨⟨⟨h.keys, fun b w hw => ?_, fun b r hr => ?_, fun b c hc => ?_⟩,
    h.wf.newObj hfin hsucc href, fun y hy => ?_, fun y => ?_, fun y hy => ?_,
    fun c v hcv hc => ?_⟩, fun c hc hcc => ?_⟩
  · obtain ⟨h1, h2⟩ := h.writer b w hw
    rw [hold w h1]
    exact ⟨hlive w h1, h2⟩
  · obtain ⟨h1, h2⟩ := h.reader b r hr
    rw [hold r h1]
    exact ⟨hlive r h1, h2⟩
  · obtain ⟨h1, h2⟩ := h.openDO b c hc
    rw [hold c h1]
    exact ⟨hlive c h1, h2⟩
  · have hacc := (h.accounted.newObj h.wf hfin hsucc) y hy
    have hdummy : dummy (s.newObj o) y = if y = s.lastDepObjId then 0 else dummy s y := by
      by_cases hy0 : y = s.lastDepObjId
      · rw [if_pos hy0]
        unfold dummy
        split
        · rfl
        · exact if_neg (h.commDO_ne_fresh (not_lt.1 (by omega)))
      · rw [if_neg hy0]
        exact dummy_congr (congrArg DependableObject.commutation (if_neg hy0)) fun b => rfl
    rw [hacc]
    dsimp only
    rw [hdummy]
    by_cases hy0 : y = s.lastDepObjId
    · simp only [hy0, if_true]; omega
    · simp only [hy0, if_false]
  · split
    · exact hnum
    · exact h.pending y
  · rw [newObj_lastDepObjId] at hy
    rw [if_neg (by omega)]
    exact h.fresh y (by omega)
  · have hcv' := (newObj_edge hfin hsucc).1 hcv
    rw [hold c hcv'.1] at hc
    rw [hold v (h.wf.live_succ c v hcv')]
    exact h.commutation_succ c v hcv' hc
  · rcases (newObj_live hfin).1 hc with hc | rfl
    · rw [hold c hc] at hcc ⊢
      exact h.released c hc hcc
    · rw [newObj_obj, if_pos rfl] at hcc ⊢
      exact hcomm hcc

theorem addWriteTarget_newObj (o : DependableObject Nat) (a : Nat) :
    (s.newObj o).addWriteTarget s.lastDepObjId a =
      s.newObj { o with outputObjects := o.outputObjects ++ [a] } := by
  show DepState.mk _ _ _ = DepState.mk _ _ _
  congr 1
  funext y
  by_cases hy : y = s.lastDepObjId
  · simp [hy, newObj_obj]
  · simp [hy, newObj_obj]

/-- A new target commutation object. It holds two increments: the dummy one and the one of the
submitted task. -/
def targetDO (a : Nat) (ty : AccessType) : DependableObject Nat where
  commutation := some ⟨a, ty.commutative⟩
  numPredecessors := 2
  outputObjects := [a]

theorem createCommutationDO_eq : s.createCommutationDO a a ty =
    (s.lastDepObjId,
      (s.newObj (targetDO a ty)).modifyStatus a (·.setCommDO (some s.lastDepObjId))) := by
  unfold createCommutationDO
  dsimp only
  rw [increasePredecessors_newObj, increasePredecessors_newObj]
  exact congrArg (fun s' => (s.lastDepObjId, DepState.modifyStatus s' a
    (·.setCommDO (some s.lastDepObjId)))) (addWriteTarget_newObj _ a)

/-- Opening `c` turns one of its pending increments into the dummy one. -/
theorem Inv.setCommDO (h : Inv s e) {k : Bool} (ha : a ∈ s.map.keys) (hc : s.Live c)
    (hout : a ∈ (s.obj c).outputObjects) (hk : (s.obj c).commutation = some ⟨a, k⟩)
    (hnone : (s.statusAt a).commDO = none) (he : 1 ≤ e c) :
    Inv (s.modifyStatus a (·.setCommDO (some c))) fun y => e y - if y = c then 1 else 0 := by
  have hst : ∀ b, (s.modifyStatus a (·.setCommDO (some c))).statusAt b =
      if b = a then (s.statusAt b).setCommDO (some c) else s.statusAt b :=
    fun b => statusAt_modifyStatus _
  have hg : SameGraph s (s.modifyStatus a (·.setCommDO (some c))) := sameGraph_map _
  refine h.of_sameGraph hg (h.toRecorded.modify a (fun y hy => hg.live.2 hy)
    (fun y _ => List.Subset.refl _) (fun y _ => List.Subset.refl _) (fun y _ => rfl) rfl ha
    (fun b hb => by rw [hst, if_neg hb]) (fun w hw => ?_) (fun r hr => ?_) fun x hx => ?_)
    (fun y => ⟨rfl, rfl, rfl⟩) (fun y => ?_) (fun y => ?_) fun y hy => ?_
  · rw [hst, if_pos rfl] at hw
    exact h.writer a w hw
  · rw [hst, if_pos rfl] at hr
    exact h.reader a r hr
  · rw [hst, if_pos rfl] at hx
    cases hx
    exact ⟨hc, hout, k, hk⟩
  · by_cases hyc : y = c
    · subst hyc
      have h1 : dummy s y = 0 := by simp [dummy, hk, hnone]
      have h2 : dummy (s.modifyStatus a (·.setCommDO (some y))) y = 1 := by
        simp only [dummy, modifyStatus_obj, hk, hst, if_true]
        exact if_pos rfl
      simp only [if_true]
      omega
    · rw [if_neg hyc, Int.sub_zero]
      congr 1
      unfold dummy
      rw [modifyStatus_obj]
      split
      · rfl
      · next d hd =>
        rw [hst]
        by_cases hda : d.target = a
        · rw [if_pos hda, hda, hnone]
          simp [TrackableObject.setCommDO, Ne.symm hyc]
        · rw [if_neg hda]
  · have := h.pending y
    split
    · next hyc => subst hyc; omega
    · omega
  · have h1 := h.fresh y hy
    have h2 : y ≠ c := by rintro rfl; omega
    simp [h1, h2]

/-- `createCommutationDO` leaves one increment pending at the new object. -/
theorem Inv.createCommutationDO (h : Inv s e) (ty : AccessType) (ha : a ∈ s.map.keys)
    (hnone : (s.statusAt a).commDO = none) :
    Inv (s.createCommutationDO a a ty).2 fun y => e y + if y = s.lastDepObjId then 1 else 0 := by
  rw [createCommutationDO_eq]
  have hnew := h.newObj (o := targetDO a ty) rfl rfl rfl (by simp [targetDO])
    fun _ => by simp [targetDO]
  have hopen := hnew.setCommDO (k := ty.commutative) ha ((newObj_live rfl).2 (.inr rfl))
    (by simp [newObj_obj, targetDO]) (by simp [newObj_obj, targetDO]) hnone (by simp [targetDO])
  convert hopen using 2 with y
  by_cases hy : y = s.lastDepObjId
  · simp [hy, h.fresh, targetDO]
  · simp [hy]

/-! ## Closing -/

/-- The state in which `finalizeReduction` releases `c`: it is closed and the last writer. -/
def close (s : State) (a c : Nat) : State :=
  s.modifyStatus a fun o => (o.setCommDO none).setLastWriter c

theorem close_statusAt : (close s a c).statusAt b =
    if b = a then ((s.statusAt b).setCommDO none).setLastWriter c else s.statusAt b :=
  statusAt_modifyStatus _

theorem finalizeReduction_of_some (h : (s.statusAt a).commDO = some c)
    (href : (s.obj c).references = 1) : s.finalizeReduction a = (close s a c).decrease c := by
  have hreset : (close s a c).resetReferences c = close s a c := by
    show DepState.mk _ _ _ = DepState.mk _ _ _
    congr 1
    funext y
    split
    · next hy =>
      subst hy
      show { s.obj y with references := 1 } = s.obj y
      rw [← href]
    · rfl
  unfold finalizeReduction
  rw [h]
  dsimp only
  rw [modifyStatus_modifyStatus]
  exact congrArg (fun s' => DepState.decrease s' c) hreset

/-- Closing `c` turns its dummy increment into a pending one. -/
theorem Inv.close (h : Inv s e) (hc : (s.statusAt a).commDO = some c) :
    Inv (close s a c) fun y => e y + if y = c then 1 else 0 := by
  obtain ⟨hlive, hout, k, hk⟩ := h.openDO a c hc
  have ha : a ∈ s.map.keys := by
    by_contra ha
    rw [h.keys a ha] at hc
    cases hc
  have hg : SameGraph s (Plain.close s a c) := sameGraph_map _
  refine h.of_sameGraph hg (h.toRecorded.modify a (fun y hy => hg.live.2 hy)
    (fun y _ => List.Subset.refl _) (fun y _ => List.Subset.refl _) (fun y _ => rfl) rfl ha
    (fun b hb => by rw [close_statusAt, if_neg hb]) (fun w hw => ?_) (fun r hr => ?_) fun x hx => ?_)
    (fun y => ⟨rfl, rfl, rfl⟩) (fun y => ?_) (fun y => ?_) fun y hy => ?_
  · rw [close_statusAt, if_pos rfl] at hw
    cases hw
    exact ⟨hlive, hout⟩
  · rw [close_statusAt, if_pos rfl] at hr
    exact h.reader a r hr
  · rw [close_statusAt, if_pos rfl] at hx
    cases hx
  · have hobj : ((Plain.close s a c).obj y).commutation = (s.obj y).commutation := rfl
    by_cases hyc : y = c
    · subst hyc
      have h1 : dummy s y = 1 := h.dummy_eq_one hc
      have h2 : dummy (Plain.close s a y) y = 0 := by
        simp [dummy, hobj, hk, close_statusAt, TrackableObject.setCommDO,
          TrackableObject.setLastWriter]
      simp only [if_true]
      omega
    · rw [if_neg hyc, Int.add_zero]
      congr 1
      unfold dummy
      rw [hobj]
      split
      · rfl
      · next d hd =>
        rw [close_statusAt]
        by_cases hda : d.target = a
        · rw [if_pos hda, hda, hc]
          simp [TrackableObject.setCommDO, TrackableObject.setLastWriter, Ne.symm hyc]
        · rw [if_neg hda]
  · have := h.pending y
    split <;> omega
  · have h1 := h.fresh y hy
    have h2 : y ≠ c := by rintro rfl; exact absurd hlive.1 (not_lt.2 hy)
    simp [h1, h2]

/-- What `finalizeReduction` does: it closes the open commutation object of `a`, if there is one,
and releases it. -/
def Finalized (a : Nat) (s s' : State) : Prop :=
  (s.statusAt a).commDO = none ∧ s' = s ∨
    ∃ c, (s.statusAt a).commDO = some c ∧ Released (· = c) (close s a c) s'

theorem Finalized.size (h : Finalized a s s') : s'.lastDepObjId = s.lastDepObjId := by
  rcases h with ⟨-, rfl⟩ | ⟨c, -, hrel⟩
  · rfl
  · exact hrel.size

theorem Finalized.successors (h : Finalized a s s') (y : Nat) :
    (s'.obj y).successors = (s.obj y).successors := by
  rcases h with ⟨-, rfl⟩ | ⟨c, -, hrel⟩
  · rfl
  · exact hrel.successors y

theorem Finalized.commutation (h : Finalized a s s') (y : Nat) :
    (s'.obj y).commutation = (s.obj y).commutation := by
  rcases h with ⟨-, rfl⟩ | ⟨c, -, hrel⟩
  · rfl
  · exact hrel.commutation y

theorem Finalized.keys (h : Finalized a s s') : s'.map.keys = s.map.keys := by
  rcases h with ⟨-, rfl⟩ | ⟨c, -, hrel⟩
  · rfl
  · exact hrel.keys

theorem Finalized.live_of_not (h : Finalized a s s') (hy : (s.statusAt a).commDO ≠ some y) :
    s'.Live y ↔ s.Live y := by
  rcases h with ⟨-, rfl⟩ | ⟨c, hc, hrel⟩
  · rfl
  · exact hrel.live_of_not (s := close s a c) fun hyc => hy (hyc ▸ hc)

theorem Finalized.readers (h : Finalized a s s') (b : Nat) :
    (s'.statusAt b).versionReaders = (s.statusAt b).versionReaders := by
  rcases h with ⟨-, rfl⟩ | ⟨c, -, hrel⟩
  · rfl
  · rw [hrel.readers, close_statusAt]
    split <;> rfl

theorem Finalized.commDO (h : Finalized a s s') :
    (s'.statusAt b).commDO = if b = a then none else (s.statusAt b).commDO := by
  rcases h with ⟨h, rfl⟩ | ⟨c, -, hrel⟩
  · split
    · next hb => rw [hb, h]
    · rfl
  · rw [hrel.commDO, close_statusAt]
    split <;> rfl

/-- `finalizeReduction` keeps the invariant: the dummy increment is taken back. -/
theorem Inv.finalizeReduction (h : Inv s e) (a : Nat) :
    Inv (s.finalizeReduction a) e ∧ Finalized a s (s.finalizeReduction a) := by
  cases hc : (s.statusAt a).commDO with
  | none =>
    rw [finalizeReduction_of_none hc]
    exact ⟨h, .inl ⟨hc, rfl⟩⟩
  | some c =>
    have hlive := (h.openDO a c hc).1
    obtain ⟨fuel, hfuel⟩ : ∃ fuel, (Plain.close s a c).lastDepObjId = fuel + 1 :=
      ⟨s.lastDepObjId - 1, by
        show s.lastDepObjId = s.lastDepObjId - 1 + 1
        have := hlive.1
        omega⟩
    have hdec := (h.close hc).decreasePredecessors (x := c) hlive (by
      have := h.pending c
      simp only [if_true]
      omega) fuel
    rw [finalizeReduction_of_some hc (h.wf.references c hlive)]
    unfold DepState.decrease
    rw [hfuel]
    exact ⟨by simpa only [Int.add_sub_cancel] using hdec.1, .inr ⟨c, hc, hdec.2⟩⟩

end

end OmpSs.Deps.Plain
