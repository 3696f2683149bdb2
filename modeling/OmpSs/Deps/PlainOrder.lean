import OmpSs.Lib.Layering
import OmpSs.Deps.PlainAccounting

/-!
# Acyclicity of the plain domain's dependence graph

The dependence graph of the plain domain is layered (`Lib.IsLayered`), with the submitted task as the
node in progress and the open commutation objects as the open nodes: a commutation object gains
predecessors as long as it is open and successors only afterwards, when `finalizeReduction` has made
it the last writer. The one step that can close a cycle is the closing of a commutation object which
the submitted task itself precedes, or a commutation object that takes the place of readers among
which the task itself is. Both need two different accesses of one task to one address, one of them
concurrent or commutative.
-/

namespace OmpSs.Deps.Plain

open DepState

/-- `c` is the open commutation object of some address. -/
def Open (s : State) (c : Nat) : Prop := ∃ a, (s.statusAt a).commDO = some c

/-- The dependence graph is layered with the task `t` in progress, and no open commutation object is
a last writer. -/
structure Ordered (s : State) (t : Nat) : Prop where
  layered : Lib.IsLayered s.Edge s.Live (Open s) t
  writer : ∀ a w, (s.statusAt a).lastWriter = some w → ¬ Open s w

section
variable {s s' : State} {e : Nat → Int} {a b c t u v w x y : Nat} {k ty : AccessType}
  {X : Nat → Prop} {done rest accesses : Accesses}

theorem Recorded.not_open_task (h : Recorded s) (hx : (s.obj x).commutation = none) :
    ¬ Open s x := by
  rintro ⟨a, ha⟩
  obtain ⟨-, -, k, hk⟩ := h.openDO a x ha
  rw [hx] at hk
  cases hk

/-- A commutation object is open at its own target only. -/
theorem Recorded.open_target (h : Recorded s) (ha : (s.statusAt a).commDO = some c)
    (hb : (s.statusAt b).commDO = some c) : b = a := by
  obtain ⟨-, -, k, hk⟩ := h.openDO a c ha
  obtain ⟨-, -, k', hk'⟩ := h.openDO b c hb
  rw [hk] at hk'
  cases hk'
  rfl

/-! ## The operations -/

theorem Ordered.of_sameGraph (h : Ordered s t) (hg : SameGraph s s')
    (hopen : ∀ b, (s'.statusAt b).commDO = (s.statusAt b).commDO)
    (hw : ∀ b w, (s'.statusAt b).lastWriter = some w →
      (s.statusAt b).lastWriter = some w ∨ ¬ Open s w) : Ordered s' t := by
  have hopen' : ∀ c, Open s' c ↔ Open s c := fun c => by simp only [Open, hopen]
  refine ⟨h.layered.shrink (fun u v huv => ⟨hg.edge.1 huv, huv.1⟩) (fun u hu => hg.live.1 hu) hopen',
    fun b w hbw => ?_⟩
  rw [hopen']
  rcases hw b w hbw with hbw | hnot
  · exact h.writer b w hbw
  · exact hnot

theorem Ordered.released (h : Ordered s t) (hrel : Released X s s') : Ordered s' t := by
  have hopen : ∀ c, Open s' c ↔ Open s c := fun c => by simp only [Open, hrel.commDO]
  refine ⟨h.layered.shrink (fun u v huv => ⟨(hrel.edge.1 huv).1, huv.1⟩)
    (fun u hu => hrel.live_of hu) hopen, fun b w hbw => ?_⟩
  rw [hopen]
  exact h.writer b w (hrel.lastWriter_of hbw)

/-- Closing a commutation object that the task in progress does not precede. -/
theorem Ordered.finalized (h : Ordered s t) (hrec : Recorded s) (hfin : Finalized a s s')
    (hnot : ∀ c, (s.statusAt a).commDO = some c → ¬ s.Edge t c) : Ordered s' t := by
  rcases hfin with ⟨-, rfl⟩ | ⟨c, hc, hrel⟩
  · exact h
  refine Ordered.released (s := close s a c) ?_ hrel
  have hopen : ∀ d, Open (close s a c) d ↔ Open s d ∧ d ≠ c := by
    intro d
    constructor
    · rintro ⟨b, hb⟩
      rw [close_statusAt] at hb
      split at hb
      · cases hb
      · next hba => exact ⟨⟨b, hb⟩, fun hdc => hba (hrec.open_target hc (hdc ▸ hb))⟩
    · rintro ⟨⟨b, hb⟩, hdc⟩
      have hba : b ≠ a := by
        rintro rfl
        rw [hc] at hb
        exact hdc (Option.some.inj hb).symm
      exact ⟨b, by rw [close_statusAt, if_neg hba]; exact hb⟩
  refine ⟨h.layered.close ⟨a, hc⟩ (hnot c hc) hopen, fun b w hbw => ?_⟩
  rw [hopen, close_statusAt] at *
  rintro ⟨ho, hne⟩
  split at hbw
  · exact hne (Option.some.inj hbw).symm
  · exact h.writer b w hbw ho

/-- The task in progress comes to depend on closed objects. -/
theorem Ordered.dependAll (h : Ordered s t) {l : List Nat}
    (hl : ∀ w ∈ l, s.Live w ∧ ¬ Open s w) : Ordered (s.dependAll t l) t := by
  have hd := depended_dependAll (s := s) (x := t) l
  have hopen : ∀ c, Open (s.dependAll t l) c ↔ Open s c := fun c => by
    simp only [Open, hd.statusAt]
  have hinto : Lib.IsLayered (s.dependAll t l).Edge s.Live (Open s) t := by
    refine h.layered.into fun u v huv => ?_
    rcases hd.edge.1 huv with huv | ⟨hu, ⟨hul, hne⟩, rfl⟩
    · exact .inl huv
    · exact .inr ⟨⟨hu, (hl u hul).2, hne⟩, rfl⟩
  refine ⟨hinto.shrink (fun u v huv => ⟨huv, huv.1⟩) (fun u hu => hd.live.1 hu) hopen,
    fun b w hbw => ?_⟩
  rw [hopen]
  rw [hd.statusAt] at hbw
  exact h.writer b w hbw

theorem Ordered.dependOnLastWriter (h : Ordered s t) (hrec : Recorded s) (a : Nat) :
    Ordered (s.dependOnLastWriter t a) t := by
  rw [dependOnLastWriter_eq]
  refine h.dependAll fun w hw => ?_
  have hlw : (s.statusAt a).lastWriter = some w := Option.mem_toList.1 hw
  exact ⟨(hrec.writer a w hlw).1, h.writer a w hlw⟩

theorem Ordered.dependOnReaders (h : Ordered s t) (hrec : Recorded s) (a : Nat) :
    Ordered (s.dependOnReaders t a) t := by
  rw [dependOnReaders_eq]
  refine h.dependAll fun r hr => ?_
  obtain ⟨hlive, -, htask⟩ := hrec.reader a r hr
  exact ⟨hlive, hrec.not_open_task htask⟩

/-- An object that is not open registers at the status of `a`. -/
theorem Ordered.register (h : Ordered s t) {f : DependableObject Nat → DependableObject Nat}
    {g : TrackableObject → TrackableObject}
    (hf : ∀ o, f o = { o with outputObjects := (f o).outputObjects
                              readObjects := (f o).readObjects })
    (hg : (g (s.statusAt a)).commDO = (s.statusAt a).commDO)
    (hw : ∀ w, (g (s.statusAt a)).lastWriter = some w →
      (s.statusAt a).lastWriter = some w ∨ ¬ Open s w) :
    Ordered ((s.modifyObj x f).modifyStatus a g) t := by
  have hst : ∀ b, ((s.modifyObj x f).modifyStatus a g).statusAt b =
      if b = a then g (s.statusAt b) else s.statusAt b := fun b => statusAt_modifyStatus g
  refine h.of_sameGraph (sameGraph_register hf) (fun b => ?_) fun b w hbw => ?_
  · rw [hst]
    split
    · next hb => rw [hb, hg]
    · rfl
  · rw [hst] at hbw
    split at hbw
    · next hb => subst hb; exact hw w hbw
    · exact .inl hbw

/-- The initial commutation object comes behind the readers it replaces, if the task in progress is
not one of them. -/
theorem Ordered.setUpInitial (h : Ordered s t) (hinv : Inv s e) (ty : AccessType) (ht : Task s t)
    (ha : a ∈ s.map.keys) (hread : t ∉ (s.statusAt a).versionReaders) :
    Ordered (s.setUpInitialCommutationDependableObject a a ty).2 t := by
  by_cases hr : (s.statusAt a).hasReaders = true
  swap
  · unfold setUpInitialCommutationDependableObject
    rw [if_neg hr]
    exact h
  obtain ⟨s', heq, -, hloc, -, hlive, hedge, hst, -⟩ := hinv.setUpInitial ty ht ha hr
  rw [heq]
  have hcommDO : ∀ b, (s'.statusAt b).commDO = (s.statusAt b).commDO := by
    intro b
    by_cases hb : b = a
    · rw [hb, hst]; rfl
    · exact hloc.commDO b hb
  have hopen : ∀ c, Open s' c ↔ Open s c := fun c => by simp only [Open, hcommDO]
  have hfresh : ¬ Open s s.lastDepObjId := by
    rintro ⟨b, hb⟩
    exact hinv.commDO_ne_fresh (le_refl _) hb
  have hnode : Lib.IsLayered s'.Edge s'.Live (Open s) t := by
    refine h.layered.newNode (x := s.lastDepObjId) (fun v => ⟨fun hv => ?_, fun hv => ?_⟩) hlive
      fun u v huv => ?_
    · exact absurd hv.1.1 (lt_irrefl _)
    · exact absurd (hinv.wf.live_succ _ _ hv).1 (lt_irrefl _)
    · rcases (hedge u v).1 huv with huv | ⟨hu, rfl⟩
      · exact .inl huv
      · obtain ⟨hul, -, htask⟩ := hinv.reader a u hu
        refine .inr ⟨⟨hul, hinv.not_open_task htask, fun hut => hread (hut ▸ hu), ?_⟩, rfl⟩
        exact Nat.ne_of_lt hul.1
  refine ⟨hnode.shrink (fun u v huv => ⟨huv, huv.1⟩) (fun u hu => hu) hopen, fun b w hbw => ?_⟩
  rw [hopen]
  by_cases hb : b = a
  · subst hb
    rw [hst] at hbw
    cases hbw
    exact hfresh
  · rcases hloc.lastWriter b hb with h1 | h1
    · rw [h1] at hbw; exact h.writer b w hbw
    · rw [h1.1] at hbw; cases hbw

/-- A new open commutation object has no edges yet. -/
theorem Ordered.createCommutationDO (h : Ordered s t) (hrec : Recorded s)
    (hnone : (s.statusAt a).commDO = none) : Ordered (s.createCommutationDO a a ty).2 t := by
  rw [createCommutationDO_eq]
  have hst : ∀ b, ((s.newObj (targetDO a ty)).modifyStatus a
      (·.setCommDO (some s.lastDepObjId))).statusAt b =
        if b = a then (s.statusAt b).setCommDO (some s.lastDepObjId) else s.statusAt b :=
    fun b => statusAt_modifyStatus _
  have hopen : ∀ c, Open ((s.newObj (targetDO a ty)).modifyStatus a
      (·.setCommDO (some s.lastDepObjId))) c ↔ Open s c ∨ c = s.lastDepObjId := by
    intro c
    constructor
    · rintro ⟨b, hb⟩
      rw [hst] at hb
      split at hb
      · exact .inr (Option.some.inj hb).symm
      · exact .inl ⟨b, hb⟩
    · rintro (⟨b, hb⟩ | rfl)
      · have hba : b ≠ a := by
          rintro rfl
          rw [hnone] at hb
          cases hb
        exact ⟨b, by rw [hst, if_neg hba]; exact hb⟩
      · exact ⟨a, by rw [hst, if_pos rfl]; rfl⟩
  have hnew := h.layered.newOpen (c := s.lastDepObjId)
    (fun v hv => absurd hv.1.1 (lt_irrefl _))
    (fun u => newObj_live (s := s) (o := targetDO a ty) rfl) hopen
  refine ⟨hnew.shrink (fun u v huv => ?_) (fun u hu => hu) fun c => Iff.rfl, fun b w hbw => ?_⟩
  · exact ⟨(newObj_edge (s := s) (o := targetDO a ty) rfl rfl).1 huv, huv.1⟩
  · rw [hopen]
    have hlw : (s.statusAt b).lastWriter = some w := by
      rw [hst] at hbw
      split at hbw
      · exact hbw
      · exact hbw
    rintro (ho | rfl)
    · exact h.writer b w hlw ho
    · exact absurd (hrec.writer b _ hlw).1.1 (lt_irrefl _)

theorem Ordered.increasePredecessors (h : Ordered s t) : Ordered (s.increasePredecessors x) t :=
  h.of_sameGraph sameGraph_increasePredecessors (fun _ => rfl) fun _ _ hw => .inl hw

/-- A commutation object of the other kind is closed, so the task in progress must not precede it. -/
theorem Ordered.setUpTarget (h : Ordered s t) (hinv : Inv s e) (ty : AccessType)
    (hclose : ∀ c, (s.statusAt a).commDO = some c → c ∈ (s.obj t).successors →
      (s.obj c).commutation = some ⟨a, ty.commutative⟩) :
    Ordered (s.setUpTargetCommutationDependableObject a a ty).2 t := by
  rcases hinv.setUpTarget_cases a ty with ⟨c, -, -, heq⟩ | ⟨s₀, h₀, hfin, hnone, hkind, -, heq⟩
  · rw [heq]
    exact h.increasePredecessors
  · rw [heq]
    refine (h.finalized hinv.toRecorded hfin fun c hc htc => ?_).createCommutationDO h₀.toRecorded
      hnone
    exact hkind c hc (hclose c hc htc.2)

/-- The task in progress comes to precede an open commutation object. -/
theorem Ordered.addSuccessor (h : Ordered s t) (hrec : Recorded s) (ht : Task s t)
    (hlt : s.Live t) (hc : (s.statusAt a).commDO = some c) : Ordered (s.addSuccessor t c).2 t := by
  have hopen : ∀ d, Open (s.addSuccessor t c).2 d ↔ Open s d := fun d => by
    simp only [Open, addSuccessor_statusAt]
  have hedge : ∀ u v, (s.addSuccessor t c).2.Edge u v → s.Edge u v ∨ u = t ∧ v = c := by
    intro u v huv
    unfold DepState.addSuccessor at huv
    split at huv
    · exact .inl huv
    · split at huv
      · exact .inl huv
      · exact (pushSuccessor_edge.1 huv).imp_right fun h => h.2
  have hout := h.layered.out (c := c) hlt (hrec.not_open_task ht.2) ⟨a, hc⟩ hedge
  refine ⟨hout.shrink (fun u v huv => ⟨huv, huv.1⟩) (fun u hu => addSuccessor_live.1 hu) hopen,
    fun b w hbw => ?_⟩
  rw [addSuccessor_statusAt] at hbw
  rw [hopen]
  exact h.writer b w hbw

/-! ## Accesses -/

/-- A concurrent or commutative access keeps the order if the task is not a reader of the address and
does not precede an open commutation object of the other kind. -/
theorem Ordered.commutativeAccess (h : Ordered s t) (hinv : Inv s e) (ty : AccessType)
    (ht : Task s t) (hlt : s.Live t) (ha : a ∈ s.map.keys)
    (hread : t ∉ (s.statusAt a).versionReaders)
    (hclose : ∀ c, (s.statusAt a).commDO = some c → c ∈ (s.obj t).successors →
      (s.obj c).commutation = some ⟨a, ty.commutative⟩) :
    Ordered (s.submitDependableObjectCommutativeDataAccess t a a ty) t := by
  have hord₁ := h.setUpInitial hinv ty ht ha hread
  obtain ⟨i, s₁, heq₁, h₁, hloc₁, hcomm₁, -, hi, hsucc₁⟩ := hinv.setUpInitial_spec ty ht hlt ha
  rw [heq₁] at hord₁
  have ht₁ := hloc₁.isTask ht
  have hlt₁ := (hloc₁.live ht).2 hlt
  have hord₂ := hord₁.setUpTarget (a := a) h₁ ty fun c hc hmem => by
    rw [hcomm₁] at hc
    rw [hloc₁.commutation c (hinv.openDO a c hc).1.1]
    exact hclose c hc (hsucc₁ c hc hmem)
  obtain ⟨c, s₂, heq₂, h₂, hloc₂, hcomm₂, hkind₂, -, hlive₂, -⟩ :=
    h₁.setUpTarget ty ht₁ hlt₁ (hloc₁.keys a ha)
  rw [heq₂] at hord₂
  have ht₂ := hloc₂.isTask ht₁
  have hlt₂ := (hloc₂.live ht₁).2 hlt₁
  have hne : t ≠ c := by
    rintro rfl
    rw [ht₂.2] at hkind₂
    cases hkind₂
  have hpend : ∀ y, 0 ≤ e y := hinv.pending
  obtain ⟨h₃, -⟩ := h₂.addSuccessor ht₂ hlt₂ (h₂.openDO a c hcomm₂).1 hne (by
    have := h₁.pending c
    simp only [if_true]
    omega)
  have hloc₃ := h₂.isLocal_addSuccessor (t := t) hcomm₂
  have hord₃ := hord₂.addSuccessor h₂.toRecorded ht₂ hlt₂ hcomm₂
  have h₄ := h₃.dependOnLastWriter ((hloc₃.live ht₂).2 hlt₂) (hloc₃.isTask ht₂).2 a
  have hord₄ := hord₃.dependOnLastWriter h₃.toRecorded a
  rw [commutativeAccess_eq heq₁ heq₂]
  cases i with
  | none => exact hord₄
  | some i =>
    obtain ⟨hi₁, hi₂⟩ := hi i rfl
    have hd := depended_dependAll (s := (s₂.addSuccessor t c).2) (x := t)
      ((s₂.addSuccessor t c).2.statusAt a).lastWriter.toList
    rw [← dependOnLastWriter_eq] at hd
    have hi₄ := hd.live.2 (addSuccessor_live.2 (hlive₂ i (hcomm₁ ▸ hi₂) hi₁))
    refine hord₄.released (h₄.decrease hi₄ ?_).2
    have := hpend i
    simp only [if_true]
    split_ifs <;> omega

theorem Ordered.writeAccess (h : Ordered s t) (hinv : Inv s e) (ht : Task s t) (hlt : s.Live t)
    (hw : (s.obj t).waits = false) : Ordered (s.dependOnReadersAndSetAsWriter t a a) t := by
  have h₁ := hinv.dependOnReaders hlt (.inl ht.2) a
  have hloc₁ : Local a t s (s.dependOnReaders t a) := local_dependAll (.inl rfl) _
  have hw₁ : ((s.dependOnReaders t a).obj t).waits = false := (hloc₁.task t ht).2.2.trans hw
  unfold dependOnReadersAndSetAsWriter
  rw [setAsWriter_eq hw₁]
  refine (h.dependOnReaders hinv.toRecorded a).register (fun _ => rfl) rfl fun w hlw => ?_
  cases hlw
  exact .inr (h₁.not_open_task (hloc₁.isTask ht).2)

/-- The accesses that are not concurrent or commutative keep the order if the task does not precede
the open commutation object. -/
theorem Ordered.inoutAccess (h : Ordered s t) (hinv : Inv s e) (ht : Task s t) (hlt : s.Live t)
    (hw : (s.obj t).waits = false)
    (hclose : ∀ c, (s.statusAt a).commDO = some c → c ∉ (s.obj t).successors) :
    Ordered (s.submitDependableObjectInoutDataAccess t a a) t := by
  obtain ⟨h₁, hfin⟩ := hinv.finalizeReduction a
  have hord₁ := h.finalized hinv.toRecorded hfin fun c hc htc => hclose c hc htc.2
  obtain ⟨h₂, hloc⟩ := hinv.finalizeAndDepend ht hlt a
  exact (hord₁.dependOnLastWriter h₁.toRecorded a).writeAccess h₂ (hloc.isTask ht)
    ((hloc.live ht).2 hlt) ((hloc.task t ht).2.2.trans hw)

theorem Ordered.outputAccess (h : Ordered s t) (hinv : Inv s e) (ht : Task s t) (hlt : s.Live t)
    (hw : (s.obj t).waits = false)
    (hclose : ∀ c, (s.statusAt a).commDO = some c → c ∉ (s.obj t).successors) :
    Ordered (s.submitDependableObjectOutputDataAccess t a a) t := by
  obtain ⟨h₁, hfin⟩ := hinv.finalizeReduction a
  have hord₁ := h.finalized hinv.toRecorded hfin fun c hc htc => hclose c hc htc.2
  have hloc₁ := hfin.isLocal ht
  unfold submitDependableObjectOutputDataAccess
  dsimp only
  split
  · exact hord₁.writeAccess h₁ (hloc₁.isTask ht) ((hloc₁.live ht).2 hlt)
      ((hloc₁.task t ht).2.2.trans hw)
  · exact h.inoutAccess hinv ht hlt hw hclose

theorem Ordered.inputAccess (h : Ordered s t) (hinv : Inv s e)
    (hclose : ∀ c, (s.statusAt a).commDO = some c → c ∉ (s.obj t).successors) :
    Ordered (s.submitDependableObjectInputDataAccess t a) t := by
  obtain ⟨h₁, hfin⟩ := hinv.finalizeReduction a
  have hord₁ := h.finalized hinv.toRecorded hfin fun c hc htc => hclose c hc htc.2
  have hord₂ := hord₁.dependOnLastWriter h₁.toRecorded a
  unfold submitDependableObjectInputDataAccess
  dsimp only
  split
  · exact hord₂
  · refine hord₂.of_sameGraph ⟨rfl, fun _ => rfl, fun _ => rfl⟩ (fun b => ?_) fun b w hbw => ?_
    · unfold DepState.addAsReader
      rw [statusAt_modifyStatus]
      split <;> rfl
    · unfold DepState.addAsReader at hbw
      rw [statusAt_modifyStatus] at hbw
      split at hbw <;> exact .inl hbw

theorem Ordered.addReadTarget (h : Ordered s t) : Ordered (s.addReadTarget x a) t :=
  h.of_sameGraph (sameGraph_modifyObj rfl rfl) (fun _ => rfl) fun _ _ hw => .inl hw

/-- **One access keeps the order**, unless the task precedes an open commutation object of another
kind at the address, or is a reader and the access is concurrent or commutative. -/
theorem Ordered.submitDependableObjectDataAccess (h : Ordered s t) (hinv : Inv s e)
    (ht : Task s t) (hlt : s.Live t) (hw : (s.obj t).waits = false)
    (hread : (s.statusAt a).lastWriter ≠ some t → ty.isCommutation = true →
      t ∉ (s.statusAt a).versionReaders)
    (hclose : ∀ c, (s.statusAt a).lastWriter ≠ some t → (s.statusAt a).commDO = some c →
      c ∈ (s.obj t).successors →
      ty.isCommutation = true ∧ (s.obj c).commutation = some ⟨a, ty.commutative⟩)
    (hok : submitDependableObjectDataAccess s t a ty = .ok s') : Ordered s' t := by
  have h₀ := hinv.lookup a
  have ha : a ∈ (Plain.lookup s a).map.keys := mem_keys_lookup.2 (.inr rfl)
  have hst : ∀ b, (Plain.lookup s a).statusAt b = s.statusAt b := fun b => hinv.statusAt_lookup
  have hord₀ : Ordered (Plain.lookup s a) t := h.of_sameGraph (sameGraph_map _)
    (fun b => congrArg _ (hst b)) fun b w hbw => .inl (by rw [← hst b]; exact hbw)
  have ht₀ : Task (Plain.lookup s a) t := ht
  unfold Plain.submitDependableObjectDataAccess at hok
  by_cases hskip : (s.statusAt a).lastWriter = some t
  · have hs' : s' = Plain.lookup s a := by
      dsimp only at hok
      rw [if_pos (by rw [← hskip]; exact congrArg _ (hst a))] at hok
      exact (Except.ok.inj hok).symm
    rw [hs']
    exact hord₀
  dsimp only at hok
  rw [if_neg (by rw [← hst a] at hskip; exact hskip)] at hok
  have hplain : ty.isCommutation = false → ∀ c, ((Plain.lookup s a).statusAt a).commDO = some c →
      c ∉ ((Plain.lookup s a).obj t).successors := by
    intro hty c hc hmem
    rw [hst] at hc
    exact Bool.false_ne_true (hty.symm.trans (hclose c hskip hc hmem).1)
  split at hok
  · next hty =>
    cases hok
    refine hord₀.commutativeAccess h₀ ty ht₀ hlt ha ?_ fun c hc hmem => ?_
    · rw [hst]
      exact hread hskip hty
    · rw [hst] at hc
      exact (hclose c hskip hc hmem).2
  · next hty =>
    have hplain := hplain (by simpa [AccessType.isCommutation] using hty)
    split at hok
    · have hord₁ := hord₀.inoutAccess h₀ ht₀ hlt hw hplain
      cases hok
      split
      · exact hord₁
      · exact hord₁.addReadTarget
    · split at hok
      · cases hok
        exact hord₀.outputAccess h₀ ht₀ hlt hw hplain
      · split at hok
        · have hord₁ := hord₀.inputAccess h₀ hplain
          cases hok
          split
          · exact hord₁
          · exact hord₁.addReadTarget
        · cases hok

end

/-! ## Runs -/

/-- Where a task has a concurrent or commutative access to an address, its other accesses to that
address are of the same kind. Accesses after an `out` or `inout` access to the address do not
count. -/
def NoMix (accesses : Accesses) : Prop :=
  ∀ p ∈ accesses, p.1 ≠ 0 → (effectiveKinds accesses p.1).Pairwise fun k k' =>
    k = k' ∨ k.isCommutation = false ∧ k'.isCommutation = false

instance (accesses : Accesses) : Decidable (NoMix accesses) :=
  inferInstanceAs (Decidable (∀ p ∈ accesses, _ → _))

/-- Valid submissions that do not mix concurrent or commutative accesses to an address with
others. -/
def OrderedSubmit : Event → Prop
  | .submit accesses => (∀ p ∈ accesses, p.2.Valid) ∧ NoMix accesses
  | _ => True

instance : DecidablePred OrderedSubmit
  | .submit accesses => inferInstanceAs (Decidable ((∀ p ∈ accesses, p.2.Valid) ∧ NoMix accesses))
  | .finish _ => inferInstanceAs (Decidable True)
  | .finalizeAllReductions _ => inferInstanceAs (Decidable True)

section
variable {S S' : Sys} {s s' : State} {e : Nat → Int} {a c t x : Nat} {ty k : AccessType}
  {done rest accesses : Accesses}

/-- Without mixed accesses the task's previous accesses to an address agree with the current one. -/
theorem Track.kind_eq (h : Track t done s) (hnull : ∀ p ∈ accesses, p.1 ≠ 0)
    (hacc : accesses = done ++ (a, ty) :: rest)
    (hmix : (effectiveKinds accesses a).Pairwise fun k k' =>
      k = k' ∨ k.isCommutation = false ∧ k'.isCommutation = false)
    (hlw : (s.statusAt a).lastWriter ≠ some t) (hk : (a, k) ∈ done) :
    k = ty ∨ k.isCommutation = false ∧ ty.isCommutation = false := by
  obtain ⟨r, hr⟩ := effectiveKinds_split ty rest (h.not_plainWrite hnull hacc hlw)
  rw [hacc, hr, List.pairwise_append] at hmix
  exact hmix.2.2 k (mem_kindsAt.2 hk) ty (by simp)

theorem ordered_startTask (h : Ordered s s.lastDepObjId) :
    Ordered (startTask s) s.lastDepObjId := by
  have hstart := h.layered.start (fun u => newObj_live (s := s) (x := u)
    (o := { numPredecessors := 1 }) rfl)
  refine ⟨hstart.shrink (fun u v huv => ⟨?_, huv.1⟩) (fun u hu => hu) fun c => Iff.rfl, h.writer⟩
  exact (newObj_edge (s := s) (o := { numPredecessors := 1 }) rfl rfl).1 huv

/-- A submission without mixed accesses keeps the order. -/
theorem Ordered.submitDependableObject (h : Ordered s s.lastDepObjId) (hinv : Inv s e)
    (hsub : ∀ y, Task s y → (s.obj y).submitted = true) (hvalid : ∀ p ∈ accesses, p.2.Valid)
    (hmix : NoMix accesses) :
    ∃ s' e', submitDependableObject s false accesses = .ok s' ∧ Inv s' e' ∧
      Ordered s' s'.lastDepObjId ∧ ∀ y, Task s' y → (s'.obj y).submitted = true := by
  have hstep : ∀ done a ty rest s₁ s₂ e₁ e₂,
      accesses.filter (·.1 ≠ 0) = done ++ (a, ty) :: rest → Inv s₁ e₁ →
      Submitting s.lastDepObjId s₁ e₁ → Track s.lastDepObjId done s₁ →
      Plain.submitDependableObjectDataAccess s₁ s.lastDepObjId a ty = .ok s₂ →
      Accessed s.lastDepObjId a ty s₁ s₂ e₁ e₂ →
      Ordered s₁ s.lastDepObjId → Ordered s₂ s.lastDepObjId := by
    intro done a ty rest s₁ s₂ e₁ e₂ hacc h₁ hsub₁ htrack hok _ hord
    have hmem : (a, ty) ∈ accesses.filter (·.1 ≠ 0) := by rw [hacc]; simp
    obtain ⟨hmem, ha⟩ := List.mem_filter.1 hmem
    have ha : a ≠ 0 := by simpa using ha
    have hkind := fun k hlw hk => htrack.kind_eq (k := k)
      (fun p hp => by simpa using (List.mem_filter.1 hp).2) hacc
      (by rw [effectiveKinds_filter ha]; exact hmix (a, ty) hmem ha) hlw hk
    refine hord.submitDependableObjectDataAccess h₁ hsub₁.task hsub₁.live hsub₁.waits
      (fun hlw hty hr => ?_) (fun c hlw hc hmem => ?_) hok
    · -- an earlier `in` access
      rcases hkind _ hlw (htrack.read a hr) with hk | hk
      · rw [← hk] at hty; cases hty
      · exact Bool.false_ne_true (hk.2.symm.trans hty)
    · -- an earlier access through the open commutation object
      obtain ⟨k, hlast, hcomm, hk⟩ := htrack.opened a c hlw hc hmem
      rcases hkind k hlw (mem_kindsAt.1 (List.mem_of_getLast? hlast)) with rfl | hk'
      · exact ⟨hcomm, hk⟩
      · exact absurd (hk'.1.symm.trans hcomm) Bool.false_ne_true
  obtain ⟨s₂, e₂, s', hok, h₂, hord₂, hsub₂, h', hrel, -, hsub'⟩ := hinv.submitDependableObject
    (P := fun _ s₁ _ => Ordered s₁ s.lastDepObjId) hvalid (ordered_startTask h) hstep hsub
  refine ⟨s', _, hok, h', Ordered.released (s := s₂.setSubmitted s.lastDepObjId) ?_ hrel, hsub'⟩
  have hord₃ : Ordered (s₂.setSubmitted s.lastDepObjId) s.lastDepObjId :=
    hord₂.of_sameGraph sameGraph_setSubmitted (fun _ => rfl) fun _ _ hw => .inl hw
  refine ⟨hord₃.layered.next ?_ fun v hv => ?_, hord₃.writer⟩
  · exact h₂.setSubmitted.not_open_task (by rw [setSubmitted_obj]; exact hsub₂.task.2)
  · rw [hrel.size] at hv
    exact absurd hv.1.1 (lt_irrefl _)

/-- A completion takes edges away. -/
theorem Ordered.finish (h : Ordered s t) (hinv : Inv s e) (hx : s.Live x)
    (hnum : (s.obj x).numPredecessors = 0) : Ordered (s.finish x) t := by
  refine Ordered.released (s := retire s x) ?_ (hinv.finish hx hnum).2
  have hopen : ∀ c, Open (retire s x) c ↔ Open s c := fun c => by
    simp only [Open, hinv.toCore.retire_statusAt.1]
  refine ⟨h.layered.shrink (fun u v huv => ⟨(retire_edge.1 huv).1, huv.1⟩)
    (fun u hu => (retire_live.1 hu).1) hopen, fun b w hbw => ?_⟩
  rw [hopen]
  exact h.writer b w ((hinv.toCore.retire_statusAt.2.1 w).1 hbw).1

/-- Between submissions no task is in progress, so everything can be closed. -/
theorem Ordered.finalizeAllReductions (h : Ordered s s.lastDepObjId) (hinv : Inv s e)
    (order : List Nat) : Ordered (finalizeAllReductions s order)
      (finalizeAllReductions s order).lastDepObjId := by
  unfold Plain.finalizeAllReductions
  induction order generalizing s with
  | nil => exact h
  | cons a order ih =>
    obtain ⟨h₁, hfin⟩ := hinv.finalizeReduction a
    refine ih ?_ h₁
    rw [hfin.size]
    exact h.finalized hinv.toRecorded hfin fun c _ hc => absurd hc.1.1 (lt_irrefl _)

/-- The invariant of runs for the order. -/
def OrderedSys (S : Sys) : Prop :=
  (∃ e, Inv S.dom e) ∧ Ordered S.dom S.dom.lastDepObjId ∧
    ∀ y, Task S.dom y → (S.dom.obj y).submitted = true

theorem orderedSys_init : OrderedSys init := by
  refine ⟨⟨_, settled_init.1⟩, ⟨⟨fun _ => 0, 0, nofun, nofun, nofun, nofun, nofun⟩, nofun⟩, nofun⟩

theorem OrderedSys.step (h : OrderedSys S) {ev : Event} (hok : OrderedSubmit ev)
    (hs : step S ev = some S') : OrderedSys S' := by
  obtain ⟨⟨e, hinv⟩, hord, hsub⟩ := h
  cases ev with
  | submit accesses =>
    obtain ⟨s', e', hok', h', hord', hsub'⟩ :=
      hord.submitDependableObject hinv hsub hok.1 hok.2
    simp only [Plain.step, hok'] at hs
    cases hs
    exact ⟨⟨e', h'⟩, hord', hsub'⟩
  | finish x =>
    simp only [Plain.step] at hs
    split at hs
    · next hready =>
      cases hs
      have hlive : S.dom.Live x := ⟨hready.1.1, hready.2.2.2⟩
      obtain ⟨h', hrel⟩ := hinv.finish hlive hready.2.2.1
      refine ⟨⟨e, h'⟩, ?_, fun y hy => ?_⟩
      · have hord' := hord.finish hinv hlive hready.2.2.1
        rwa [show S.dom.lastDepObjId = (S.dom.finish x).lastDepObjId from hrel.size.symm] at hord'
      · obtain ⟨h1, h2⟩ := hinv.sameTasks_finish hlive hready.2.2.1 y hy
        exact h2.trans (hsub y h1)
    · cases hs
  | finalizeAllReductions order =>
    simp only [Plain.step] at hs
    split at hs
    · cases hs
      obtain ⟨h', hsame⟩ := hinv.finalizeAllReductions order
      refine ⟨⟨e, h'⟩, hord.finalizeAllReductions hinv order, fun y hy => ?_⟩
      obtain ⟨h1, h2⟩ := hsame y hy
      exact h2.trans (hsub y h1)
    · cases hs

/-- **Acyclicity of the plain domain.** In every state that submissions without mixed accesses,
completions and `finalizeAllReductions` reach, the successor sets of the unfinished objects have no
cycle, and where there are unfinished objects one of them has no unfinished predecessor. -/
theorem acyclic_of_noMix (h : Lib.Reach step (fun _ ev => OrderedSubmit ev) init S) :
    (∀ u, ¬ Relation.TransGen S.dom.Edge u u) ∧
    ((∃ x, S.dom.Live x) → ∃ x, S.dom.Live x ∧ ∀ u, ¬ S.dom.Edge u x) := by
  obtain ⟨⟨e, hinv⟩, hord, -⟩ :=
    h.invariant (I := OrderedSys) orderedSys_init fun _ _ _ h hok hs => h.step hok hs
  obtain ⟨r, hr⟩ := hord.layered.exists_rank fun v =>
    ⟨fun hv => absurd (hinv.wf.live_succ _ _ hv).1 (lt_irrefl _),
      fun hv => absurd hv.1.1 (lt_irrefl _)⟩
  refine ⟨Lib.not_transGen_self_of_rank hr, fun ⟨x, hx⟩ => ?_⟩
  obtain ⟨y, hy, hnone⟩ := Lib.exists_source_of_rank hr
    ((Finset.range S.dom.lastDepObjId).filter fun y => S.dom.Live y)
    ⟨x, Finset.mem_filter.2 ⟨Finset.mem_range.2 hx.1, hx⟩⟩
    fun u v huv _ => Finset.mem_filter.2 ⟨Finset.mem_range.2 huv.1.1, huv.1⟩
  exact ⟨y, (Finset.mem_filter.1 hy).2, hnone⟩

/-- A run with concurrent accesses whose commutation object is then closed by a writer. -/
theorem acyclic_of_concurrent_and_writer :
    ∃ S, Lib.Reach step (fun _ ev => OrderedSubmit ev) init S ∧ S.dom.Edge 0 1 ∧ S.dom.Edge 1 2 ∧
      ∀ u, ¬ Relation.TransGen S.dom.Edge u u := by
  obtain ⟨S, hS, hp⟩ := Lib.exists_reach_of_run step OrderedSubmit init
    [.submit [(1, .concurrentAccess), (1, .concurrentAccess)], .submit [(1, .inoutAccess)]]
    (by decide) (fun S => decide (S.dom.Edge 0 1 ∧ S.dom.Edge 1 2)) (by decide)
  obtain ⟨h1, h2⟩ := of_decide_eq_true hp
  exact ⟨S, hS, h1, h2, (acyclic_of_noMix hS).1⟩

/-- A task with a concurrent and an `in` access to one address precedes the commutation object of
the first access and, when the second access closes it, depends on it. -/
theorem cycle_of_concurrent_and_reader :
    ¬ ∀ S, Lib.Reach step (fun _ ev => ValidSubmit ev) init S →
      (∀ u, ¬ Relation.TransGen S.dom.Edge u u) ∧
      ((∃ x, S.dom.Live x) → ∃ x, S.dom.Live x ∧ ∀ u, ¬ S.dom.Edge u x) := by
  intro hall
  obtain ⟨S, hS, hp⟩ := Lib.exists_reach_of_run step ValidSubmit init
    [.submit [(1, .concurrentAccess), (1, .inAccess)]] (by decide)
    (fun S => decide (S.dom.Edge 0 1 ∧ S.dom.Edge 1 0)) (by decide)
  obtain ⟨h1, h2⟩ := of_decide_eq_true hp
  exact (hall S hS).1 0 (.tail (.single h1) h2)

end

end OmpSs.Deps.Plain
