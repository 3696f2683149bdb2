import OmpSs.Deps.EarlyRelease
import OmpSs.Deps.PlainGuardSubmit

/-!
# Early release in the plain domain

The runs of the plain domain in which a task that is ready may also release its read dependencies
(`earlyStep`), as `WorkDescriptor::releaseInputDependencies` does for a task that has run. The
release drops the edge to a successor when none of the successor's targets is written by the task.
Concurrent and commutative accesses register no target, so an edge that stands for such an access
alone is dropped although the data are shared; `ReleaseOk` excludes the releases that do this, and
then the order at every address survives (`Guard.releaseReadDependencies`): a task that is ready has
no predecessors, so its release can break a path only in its first edge.
-/

namespace OmpSs.Deps.Plain

open DepState Relation

/-- Source: `Address::overlap` (`core/address.hpp:43`). -/
def overlap (a b : Nat) : Bool := a == b

section
variable {s s' s'' : State} {e : Nat → Int} {A D : Nat → Accesses} {R : Nat → Prop}
  {a b c t u v w x y : Nat} {k : AccessType}

/-! ## Completions -/

theorem Shrinks.trans (h : Shrinks s s') (h' : Shrinks s' s'') : Shrinks s s'' where
  size := h'.size.trans h.size
  live u hu := h.live u (h'.live u hu)
  successors u := (h'.successors u).trans (h.successors u)
  commutation u := (h'.commutation u).trans (h.commutation u)
  outputObjects u := (h'.outputObjects u).trans (h.outputObjects u)
  readObjects u := (h'.readObjects u).trans (h.readObjects u)
  numPredecessors u := (h'.numPredecessors u).trans (h.numPredecessors u)
  lastWriter_of b w hw := h.lastWriter_of b w (h'.lastWriter_of b w hw)
  lastWriter b w hw hlive := h'.lastWriter b w (h.lastWriter b w hw (h'.live w hlive)) hlive
  readers_of b r hr := h.readers_of b r (h'.readers_of b r hr)
  readers b r hr hlive := h'.readers b r (h.readers b r hr (h'.live r hlive)) hlive
  commDO b := (h'.commDO b).trans (h.commDO b)

/-- A completion keeps the order. -/
theorem Guard.finish (h : Guard s A D R) (hinv : Inv s e) (hx : s.Live x)
    (hnum : (s.obj x).numPredecessors = 0) : Guard (s.finish x) A D R := by
  obtain ⟨hinv', hrel⟩ := hinv.finish hx hnum
  have hfinish : Advanced (retire s x) (s.finish x) := by
    unfold DepState.finish
    rw [finishedWith_eq _ (hinv.wf.references x hx)]
    exact advanced_foldl (advanced_decreasePredecessors _) _ _
  exact h.shrinks (hinv.toCore.shrinks_retire.trans (hrel.shrinks hfinish)) hinv'

theorem Released.finished_of {X : Nat → Prop} (h : Released X s s')
    (hy : (s.obj y).finished = true) : (s'.obj y).finished = true := by
  rcases h.finished y with h1 | h1
  · rw [h1, hy]
  · exact h1.1

theorem Inv.finished_finalizeAllReductions (h : Inv s e) (order : List Nat)
    (hy : (s.obj y).finished = true) :
    ((Plain.finalizeAllReductions s order).obj y).finished = true := by
  unfold Plain.finalizeAllReductions
  induction order generalizing s with
  | nil => exact hy
  | cons a order ih =>
    obtain ⟨h₁, hfin⟩ := h.finalizeReduction a
    refine ih h₁ ?_
    rcases hfin with ⟨-, heq⟩ | ⟨c, -, hrel⟩
    · simpa only [heq] using hy
    · exact hrel.finished_of hy

/-- Between submissions everything can be closed. -/
theorem Guard.finalizeAllReductions (h : Guard s A D R) (hinv : Inv s e) (order : List Nat) :
    Guard (Plain.finalizeAllReductions s order) A D R := by
  unfold Plain.finalizeAllReductions
  induction order generalizing s with
  | nil => exact h
  | cons a order ih =>
    exact ih (h.finalizeReduction hinv h.not_released_fresh a) (hinv.finalizeReduction a).1

/-! ## Leaving the readers -/

/-- The domain once `x` has deleted itself from the readers of the data it reads. -/
def leaveReaders (s : State) (x : Nat) : State :=
  { s with map := (s.obj x).readObjects.foldl (fun m t => DependenciesDomain.deleteReader m x t) s.map }

theorem leaveReaders_statusAt : (leaveReaders s x).statusAt b =
    if b ∈ (s.obj x).readObjects ∧ b ∈ s.map.keys then (s.statusAt b).deleteReader x
    else s.statusAt b :=
  (foldl_deleteReader _ _).2 b

theorem leaveReaders_lastWriter :
    ((leaveReaders s x).statusAt b).lastWriter = (s.statusAt b).lastWriter := by
  rw [leaveReaders_statusAt]
  split <;> rfl

theorem leaveReaders_commDO : ((leaveReaders s x).statusAt b).commDO = (s.statusAt b).commDO := by
  rw [leaveReaders_statusAt]
  split <;> rfl

theorem Recorded.leaveReaders_readers (h : Recorded s) :
    v ∈ ((leaveReaders s x).statusAt b).versionReaders ↔
      v ∈ (s.statusAt b).versionReaders ∧ v ≠ x := by
  rw [leaveReaders_statusAt]
  split
  · simp [TrackableObject.deleteReader]
  · next hno =>
    refine ⟨fun hv => ⟨hv, ?_⟩, And.left⟩
    rintro rfl
    refine hno ⟨(h.reader b v hv).2.1, ?_⟩
    by_contra hb
    rw [h.keys b hb] at hv
    cases hv

theorem Inv.leaveReaders (h : Inv s e) (x : Nat) : Inv (leaveReaders s x) e := by
  have hkeys : (Plain.leaveReaders s x).map.keys = s.map.keys := (foldl_deleteReader _ _).1
  refine h.of_sameGraph (sameGraph_map _) ⟨fun b hb => ?_, fun b w hw => ?_, fun b r hr => ?_,
    fun b c hc => ?_⟩ (fun _ => ⟨rfl, rfl, rfl⟩) (fun y => ?_) h.pending h.fresh
  · rw [hkeys] at hb
    rw [leaveReaders_statusAt, if_neg fun hb' => hb hb'.2]
    exact h.keys b hb
  · rw [leaveReaders_lastWriter] at hw
    exact h.writer b w hw
  · exact h.reader b r (h.leaveReaders_readers.1 hr).1
  · rw [leaveReaders_commDO] at hc
    exact h.openDO b c hc
  · have hdummy : dummy (Plain.leaveReaders s x) y = dummy s y :=
      dummy_congr rfl fun b => leaveReaders_commDO
    rw [hdummy]

/-- A ready task that writes itself what it accesses concurrently or commutatively can leave the
readers: from now on it is waited for where it writes. -/
theorem Guard.leaveReaders (h : Guard s A D R) (hinv : Inv s e) (hx : Task s x)
    (hnum : (s.obj x).numPredecessors = 0)
    (hjoined : ∀ a k, (a, k) ∈ D x → k.isCommutation = true → PlainWrites D x a)
    (hD : ∀ a, PlainWrites A x a → PlainWrites D x a) :
    Guard (leaveReaders s x) A D fun u => R u ∨ u = x where
  tasks := h.tasks
  entered u a k hk := by
    have he := h.entered u a k hk
    refine ⟨he.mem, he.written, he.accessed, fun hc => ?_⟩
    by_cases hu : u = x
    · subst hu
      exact .inl (hjoined a k hk hc)
    · exact (he.joined hc).imp_right fun ⟨hR, hsucc⟩ => ⟨fun hR' => hR (hR'.resolve_right hu), hsucc⟩
  wrote a w hw := by
    rw [leaveReaders_lastWriter] at hw
    exact h.wrote a w hw
  target := h.target
  released u hu := by
    rcases hu with hu | rfl
    · exact h.released u hu
    · exact ⟨hx, fun _ => hnum⟩
  guarded a := by
    -- the graph is the one before
    change Lib.Guarded (EdgeAt s A a) _ _ _
    refine (h.guarded a).shrink (fun u hu => ⟨hu.1, fun hR => hu.2 (.inl hR)⟩)
      (fun u v _ huv => huv) (fun u w _ hw _ => ?_) (fun w hw => ?_) (fun u hu hur _ => ?_)
      (fun r hr => (hinv.leaveReaders_readers.1 hr).1) fun c g => ?_
    · exact leaveReaders_lastWriter.trans hw
    · exact leaveReaders_lastWriter.symm.trans hw
    · by_cases hux : u = x
      · obtain ⟨k, hk, hkw⟩ := hD a (hux ▸ hu.2 (.inr hux))
        exact .inr ⟨k, hux ▸ hk, AccessType.mode_of_plainWrite hkw⟩
      · exact .inl (hinv.leaveReaders_readers.2 ⟨hur, hux⟩)
    · unfold record
      dsimp only
      rw [leaveReaders_commDO]
      rfl

/-! ## Erasing an edge -/

/-- Erasing an edge between objects keeps the invariant, with an increment pending at its end. -/
theorem Inv.eraseSuccessor (h : Inv s e) (hx : s.Live x) (hv : v ∈ (s.obj x).successors) :
    Inv (s.eraseSuccessor x v) fun y => e y + if y = v then 1 else 0 := by
  have hobj := fun y => eraseSuccessor_obj (s := s) (w := x) (x := v) y
  have hdummy : ∀ y, dummy (s.eraseSuccessor x v) y = dummy s y := fun y =>
    dummy_congr (by rw [hobj y]) fun b => rfl
  have hvl := h.wf.live_succ x v ⟨hx, hv⟩
  refine ⟨⟨⟨h.keys, fun b w hw => ?_, fun b r hr => ?_, fun b c hc => ?_⟩,
    h.wf.eraseSuccessor hx, ?_, fun y => ?_, fun y hy => ?_, fun c w hcw hc => ?_⟩, fun c hc hcc => ?_⟩
  · rw [eraseSuccessor_live, hobj w]
    exact h.writer b w hw
  · rw [eraseSuccessor_live, hobj r]
    exact h.reader b r hr
  · rw [eraseSuccessor_live, hobj c]
    exact h.openDO b c hc
  · have := h.accounted.eraseSuccessor h.wf hx hv
    simpa only [hdummy, Int.add_assoc] using this
  · have := h.pending y
    split <;> omega
  · have h1 := h.fresh y hy
    have h2 : y ≠ v := by
      rintro rfl
      exact absurd hvl.1 (not_lt.2 hy)
    simp [h1, h2]
  · rw [hobj c] at hc
    rw [hobj w]
    exact h.commutation_succ c w ((eraseSuccessor_edge (h.wf.nodup x hx)).1 hcw).1 hc
  · rw [hobj c] at hcc ⊢
    exact h.released c (eraseSuccessor_live.1 hc) hcc

/-- Nothing precedes a task whose counter is 0. -/
theorem Inv.not_edge (h : Inv s e) (hx : s.Live x) (hnum : (s.obj x).numPredecessors = 0) (u : Nat) :
    ¬ s.Edge u x := by
  refine not_edge_of_predCount_eq_zero ?_ u
  have h1 := h.toCore.predCount_le hx
  have h2 := h.pending x
  have h3 := dummy_nonneg (s := s) (x := x)
  omega

/-- The edge from a ready task `x` to `v` is of no use for the order, if `v` does not access what
`x` writes: a path that goes through `x` starts there, and its first edge leads elsewhere. -/
theorem Guard.eraseSuccessor (h : Guard s A A R) (hinv : Inv s e) (hx : Task s x) (hlive : s.Live x)
    (hR : R x) (hsafe : ∀ a, PlainWrites A x a → ¬ Targets s A a v) :
    Guard (s.eraseSuccessor x v) A A R := by
  have hobj := fun y => eraseSuccessor_obj (s := s) (w := x) (x := v) y
  have hedge : ∀ u w, (s.eraseSuccessor x v).Edge u w ↔ s.Edge u w ∧ ¬ (u = x ∧ w = v) :=
    fun u w => eraseSuccessor_edge (hinv.wf.nodup x hlive)
  have hnone := hinv.not_edge hlive ((h.released x hR).2 hlive)
  have hcomm : ∀ y, ((s.eraseSuccessor x v).obj y).commutation = (s.obj y).commutation := fun y => by
    rw [hobj y]
  have hedgeAt : ∀ a u w, EdgeAt s A a u w → ¬ (u = x ∧ w = v) →
      EdgeAt (s.eraseSuccessor x v) A a u w := fun a u w huw hne =>
    ⟨(hedge u w).2 ⟨huw.1, hne⟩, (targets_congr (hcomm w)).2 huw.2⟩
  refine ⟨⟨fun u p hp => ?_, fun u a k hk => ?_, fun a w hw ht => ?_, fun c k hc hk => ?_,
    fun u hu => ?_⟩, fun a => ?_⟩
  · have ht := h.tasks u p hp
    exact ⟨ht.1, (hcomm u).trans ht.2⟩
  · have he := h.entered u a k hk
    refine ⟨he.mem, fun hw => ?_, fun hc => ?_, fun hc => ?_⟩
    · rw [hobj u]
      exact he.written hw
    · rw [hobj u]
      exact he.accessed hc
    · rcases he.joined hc with hw | ⟨hRu, d, hd, hlt, g, hg⟩
      · exact .inl hw
      · have hne : u ≠ x := fun hux => hRu (hux ▸ hR)
        refine .inr ⟨hRu, d, ?_, hlt, g, (hcomm d).trans hg⟩
        rw [DepState.eraseSuccessor, modifyObj_obj_of_ne _ hne]
        exact hd
  · exact h.wrote a w hw ((hcomm w).symm.trans ht)
  · rw [hcomm] at hk
    rw [hobj c]
    exact h.target c k hc hk
  · obtain ⟨ht, hnum⟩ := h.released u hu
    refine ⟨⟨ht.1, (hcomm u).trans ht.2⟩, fun hl => ?_⟩
    rw [hobj u]
    exact hnum (eraseSuccessor_live.1 hl)
  · have hwrites : ∀ u, Firm (s.eraseSuccessor x v) A R a u ∨ (s.statusAt a).lastWriter = some u →
        u = x → PlainWrites A x a := by
      rintro u (hu | hu) rfl
      · exact hu.2 hR
      · exact h.wrote a u hu hx.2
    refine (h.guarded a).shrink (fun u hu => ⟨eraseSuccessor_live.1 hu.1, hu.2⟩)
      (fun u w hu huw => ?_) (fun u w _ hw _ => hw) (fun w hw => hw) (fun u _ hur _ => .inl hur)
      (fun r hr => hr) fun c g => ?_
    · refine Lib.reflTransGen_of_first (x := x) (fun w hw => hnone w hw.1)
        (fun b c hbc hbx => hedgeAt a b c hbc fun h => hbx h.1) (fun b hux hub => ?_) huw
      refine hedgeAt a u b hub fun hbv => ?_
      exact hsafe a (hwrites u hu hux) (hbv.2 ▸ hub.2)
    · unfold record
      dsimp only
      rw [hcomm]
      rfl

/-! ## The release -/

theorem canRemovePredecessor_iff {o o' : DependableObject Nat} :
    canRemovePredecessor overlap o o' = true ↔
      ∀ a ∈ o.outputObjects, a ∉ o'.outputObjects ∧ a ∉ o'.readObjects := by
  simp only [canRemovePredecessor, overlap, List.all_eq_true, Bool.and_eq_true, Bool.not_eq_true',
    List.any_eq_false, beq_iff_eq]
  refine forall₂_congr fun a _ => and_congr ?_ ?_
  · exact ⟨fun h hmem => h a hmem rfl, fun h b hb hab => h (hab ▸ hb)⟩
  · exact ⟨fun h hmem => h a hmem rfl, fun h b hb hab => h (hab ▸ hb)⟩

/-- What a release leaves alone in every object. -/
structure SameTargets (s s' : State) : Prop where
  size : s'.lastDepObjId = s.lastDepObjId
  commutation : ∀ y, (s'.obj y).commutation = (s.obj y).commutation
  submitted : ∀ y, (s'.obj y).submitted = (s.obj y).submitted
  outputObjects : ∀ y, (s'.obj y).outputObjects = (s.obj y).outputObjects
  readObjects : ∀ y, (s'.obj y).readObjects = (s.obj y).readObjects
  finished : ∀ y, (s.obj y).finished = true → (s'.obj y).finished = true

theorem SameTargets.refl : SameTargets s s :=
  ⟨rfl, fun _ => rfl, fun _ => rfl, fun _ => rfl, fun _ => rfl, fun _ h => h⟩

theorem SameTargets.trans (h : SameTargets s s') (h' : SameTargets s' s'') : SameTargets s s'' where
  size := h'.size.trans h.size
  commutation y := (h'.commutation y).trans (h.commutation y)
  submitted y := (h'.submitted y).trans (h.submitted y)
  outputObjects y := (h'.outputObjects y).trans (h.outputObjects y)
  readObjects y := (h'.readObjects y).trans (h.readObjects y)
  finished y hy := h'.finished y (h.finished y hy)

/-- One round of the loop: the edge goes and the counter of the successor goes down. -/
theorem Guard.releaseSuccessor (h : Guard s A A R) (hinv : Inv s e) (hx : Task s x)
    (hlive : s.Live x) (hR : R x) (hv : v ∈ (s.obj x).successors)
    (hsafe : ∀ a, PlainWrites A x a → ¬ Targets s A a v) :
    Inv ((s.decrease v).eraseSuccessor x v) e ∧ Guard ((s.decrease v).eraseSuccessor x v) A A R ∧
      SameTargets s ((s.decrease v).eraseSuccessor x v) ∧
      ((s.decrease v).eraseSuccessor x v).Live x ∧
      (((s.decrease v).eraseSuccessor x v).obj x).successors = (s.obj x).successors.erase v := by
  have hinv₁ := hinv.eraseSuccessor hlive hv
  have hg₁ := h.eraseSuccessor hinv hx hlive hR hsafe
  have hvl : (s.eraseSuccessor x v).Live v :=
    eraseSuccessor_live.2 (hinv.wf.live_succ x v ⟨hlive, hv⟩)
  obtain ⟨hinv₂, hrel⟩ := hinv₁.decrease hvl (by
    have := hinv.pending v
    rw [if_pos rfl]
    omega)
  have hg₂ := hg₁.shrinks (hrel.shrinks (advanced_decreasePredecessors _ _ v)) hinv₂
  have hobj := fun y => eraseSuccessor_obj (s := s) (w := x) (x := v) y
  rw [decrease_eraseSuccessor hx.2] at hinv₂ hg₂ hrel
  refine ⟨by simpa only [Int.add_sub_cancel] using hinv₂, hg₂, ⟨hrel.size, fun y => ?_, fun y => ?_,
    fun y => ?_, fun y => ?_, fun y hy => hrel.finished_of ?_⟩, ?_, ?_⟩
  · rw [hrel.commutation, hobj y]
  · rw [hrel.submitted, hobj y]
  · rw [hrel.outputObjects, hobj y]
  · rw [hrel.readObjects, hobj y]
  · rw [hobj y]
    exact hy
  · refine (hrel.live_task ?_).2 (eraseSuccessor_live.2 hlive)
    rw [hobj x]
    exact hx.2
  · rw [hrel.successors, DepState.eraseSuccessor, modifyObj_obj_self]

/-- The loop over successors of a ready task that are safe to release or kept. -/
theorem Guard.releaseSuccessors : ∀ (l : List Nat) (s : State), Guard s A A R → Inv s e →
    Task s x → s.Live x → R x → l.Nodup → (∀ v ∈ l, v ∈ (s.obj x).successors) →
    (∀ v ∈ l, canRemovePredecessor overlap (s.obj x) (s.obj v) = true →
      ∀ a, PlainWrites A x a → ¬ Targets s A a v) →
    ∃ s', s' = l.foldl (fun s v => if canRemovePredecessor overlap (s.obj x) (s.obj v) then
        (s.decrease v).eraseSuccessor x v else s) s ∧
      Inv s' e ∧ Guard s' A A R ∧ SameTargets s s' ∧
      ∀ v, v ∈ (s.obj x).successors → v ∉ (s'.obj x).successors →
        canRemovePredecessor overlap (s.obj x) (s.obj v) = true
  | [], s, h, hinv, _, _, _, _, _, _ =>
    ⟨s, rfl, hinv, h, .refl, fun _ hv hno => absurd hv hno⟩
  | v :: l, s, h, hinv, hx, hlive, hR, hnd, hl, hsafe => by
    obtain ⟨hvl, hnd⟩ := List.nodup_cons.1 hnd
    rw [List.foldl_cons]
    by_cases hcan : canRemovePredecessor overlap (s.obj x) (s.obj v) = true
    · obtain ⟨hinv₁, hg₁, hsame, hlive₁, hsucc⟩ := h.releaseSuccessor hinv hx hlive hR (hl v (by simp))
        (hsafe v (by simp) hcan)
      rw [if_pos hcan]
      set s₁ := (s.decrease v).eraseSuccessor x v with hs₁
      have hcan₁ : ∀ w, canRemovePredecessor overlap (s₁.obj x) (s₁.obj w) =
          canRemovePredecessor overlap (s.obj x) (s.obj w) := fun w => by
        unfold canRemovePredecessor
        rw [hsame.outputObjects x, hsame.outputObjects w, hsame.readObjects w]
      have hnds := hinv.wf.nodup x hlive
      obtain ⟨s', hs', hinv', hg', hsame', hdropped⟩ := Guard.releaseSuccessors l s₁ hg₁ hinv₁
        ⟨hsame.size ▸ hx.1, (hsame.commutation x).trans hx.2⟩ hlive₁ hR hnd
        (fun w hw => by
          rw [hsucc, hnds.mem_erase_iff]
          exact ⟨fun hwv => hvl (hwv ▸ hw), hl w (by simp [hw])⟩)
        (fun w hw hcw a ha => by
          rw [targets_congr (hsame.commutation w)]
          exact hsafe w (by simp [hw]) (hcan₁ w ▸ hcw) a ha)
      refine ⟨s', hs', hinv', hg', hsame.trans hsame', fun w hw hno => ?_⟩
      by_cases hwv : w = v
      · rw [hwv]
        exact hcan
      · rw [← hcan₁]
        refine hdropped w ?_ hno
        rw [hsucc, hnds.mem_erase_iff]
        exact ⟨hwv, hw⟩
    · rw [if_neg hcan]
      exact Guard.releaseSuccessors l s h hinv hx hlive hR hnd (fun w hw => hl w (by simp [hw]))
        fun w hw => hsafe w (by simp [hw])

/-- **The release of the read dependencies keeps the order**, if the edges it drops lead to objects
that do not access what the task writes itself, and the task writes itself what it accesses
concurrently or commutatively. -/
theorem Guard.releaseReadDependencies (h : Guard s A A R) (hinv : Inv s e) (hx : Ready s x)
    (hjoined : ∀ a k, (a, k) ∈ A x → k.isCommutation = true → PlainWrites A x a)
    (hsafe : ∀ v ∈ (s.obj x).successors,
      canRemovePredecessor overlap (s.obj x) (s.obj v) = true →
        ∀ a, PlainWrites A x a → ¬ Targets s A a v) :
    Inv (s.releaseReadDependencies overlap x) e ∧
      Guard (s.releaseReadDependencies overlap x) A A (fun u => R u ∨ u = x) ∧
      SameTargets s (s.releaseReadDependencies overlap x) ∧
      ∀ v, v ∈ (s.obj x).successors →
        v ∉ ((s.releaseReadDependencies overlap x).obj x).successors →
          canRemovePredecessor overlap (s.obj x) (s.obj v) = true := by
  obtain ⟨htask, -, hnum, hfin⟩ := hx
  have hlive : s.Live x := ⟨htask.1, hfin⟩
  have hg := h.leaveReaders hinv htask hnum hjoined fun a ha => ha
  obtain ⟨s', hs', hinv', hg', hsame, hdropped⟩ := Guard.releaseSuccessors (s.obj x).successors
    (Plain.leaveReaders s x) hg (hinv.leaveReaders x) htask hlive (.inr rfl) (hinv.wf.nodup x hlive)
    (fun v hv => hv) hsafe
  have heq : s.releaseReadDependencies overlap x = s' := hs'.symm
  rw [heq]
  exact ⟨hinv', hg', ⟨hsame.size, hsame.commutation, hsame.submitted, hsame.outputObjects,
    hsame.readObjects, hsame.finished⟩, hdropped⟩

end

/-! ## Runs -/

/-- The steps of the domain with early releases. -/
inductive EarlyEvent where
  | plain (ev : Event)
  | releaseReadDependencies (x : Nat)

/-- The domain with a record of the tasks that have released their read dependencies. -/
structure EarlySys where
  sys : Sys
  released : List Nat

/-- A new domain. -/
def earlyInit : EarlySys := ⟨init, []⟩

/-- One step. A task releases its read dependencies after it has run and before it finishes
(`arch/mpi/mpispawn.hpp:145`), so it is ready. -/
def earlyStep (S : EarlySys) : EarlyEvent → Option EarlySys
  | .plain ev => (step S.sys ev).map fun S' => { S with sys := S' }
  | .releaseReadDependencies x =>
    if Ready S.sys.dom x then some
      { sys := { S.sys with dom := S.sys.dom.releaseReadDependencies overlap x }
        released := x :: S.released }
    else none

/-- The object `v` accesses `a`: a commutation object its target, a task the data it was submitted
with. -/
def AccessesData (S : Sys) (v a : Nat) : Prop :=
  match (S.dom.obj v).commutation with
  | none => ∃ p ∈ S.accesses v, p.1 = a
  | some c => c.target = a

/-- The object `v` accesses `a` in a way that it records as a target: a commutation object its
target, a task with an `in`, `out` or `inout` access. -/
def AccessesPlainly (S : Sys) (v a : Nat) : Prop :=
  match (S.dom.obj v).commutation with
  | none => ∃ p ∈ S.accesses v, p.1 = a ∧ p.2.isCommutation = false
  | some c => c.target = a

/-- The object `v` accesses data that the task `x` may write: it accesses them as `out`, `inout`,
concurrent or commutative. -/
def ConflictsWith (S : Sys) (x v : Nat) : Prop :=
  ∃ p ∈ S.accesses x, p.1 ≠ 0 ∧ p.2.output = true ∧ AccessesData S v p.1

/-- The object `v` accesses plainly data that the task `x` accesses as `out` or `inout`. -/
def ConflictsPlainly (S : Sys) (x v : Nat) : Prop :=
  ∃ p ∈ S.accesses x, p.1 ≠ 0 ∧ p.2.plainWrite = true ∧ AccessesPlainly S v p.1

instance (S : Sys) (v a : Nat) : Decidable (AccessesData S v a) :=
  match h : (S.dom.obj v).commutation with
  | none => decidable_of_iff (∃ p ∈ S.accesses v, p.1 = a) (by rw [AccessesData, h])
  | some c => decidable_of_iff (c.target = a) (by rw [AccessesData, h])

instance (S : Sys) (v a : Nat) : Decidable (AccessesPlainly S v a) :=
  match h : (S.dom.obj v).commutation with
  | none => decidable_of_iff (∃ p ∈ S.accesses v, p.1 = a ∧ p.2.isCommutation = false)
      (by rw [AccessesPlainly, h])
  | some c => decidable_of_iff (c.target = a) (by rw [AccessesPlainly, h])

instance (S : Sys) (x v : Nat) : Decidable (ConflictsWith S x v) :=
  inferInstanceAs (Decidable (∃ p ∈ S.accesses x, _ ∧ _ ∧ _))

instance (S : Sys) (x v : Nat) : Decidable (ConflictsPlainly S x v) :=
  inferInstanceAs (Decidable (∃ p ∈ S.accesses x, _ ∧ _ ∧ _))

/-- Submissions of any valid accesses, completions, closings and early releases. -/
def EarlyValid : EarlyEvent → Prop
  | .plain ev => ValidSubmit ev
  | .releaseReadDependencies _ => True

instance : DecidablePred EarlyValid
  | .plain ev => inferInstanceAs (Decidable (ValidSubmit ev))
  | .releaseReadDependencies _ => inferInstanceAs (Decidable True)

/-- No conflict of the releasing task with one of its successors is due to concurrent or commutative
accesses alone. -/
def ReleaseOk (S : EarlySys) : EarlyEvent → Prop
  | .plain ev => ValidSubmit ev
  | .releaseReadDependencies x =>
    ∀ v ∈ (S.sys.dom.obj x).successors, ConflictsWith S.sys x v → ConflictsPlainly S.sys x v

instance (S : EarlySys) (ev : EarlyEvent) : Decidable (ReleaseOk S ev) :=
  match ev with
  | .plain ev => inferInstanceAs (Decidable (ValidSubmit ev))
  | .releaseReadDependencies x => inferInstanceAs
      (Decidable (∀ v ∈ (S.sys.dom.obj x).successors, _ → _))

/-- The accesses of the tasks, less those to the NULL address, which the domain ignores. -/
def recorded (S : Sys) (u : Nat) : Accesses := (S.accesses u).filter (·.1 ≠ 0)

/-- The invariant of runs with early releases. -/
structure EarlyInv (S : EarlySys) : Prop where
  inv : ∃ e, Inv S.sys.dom e
  submitted : ∀ y, Task S.sys.dom y → (S.sys.dom.obj y).submitted = true
  valid : ∀ u, ∀ p ∈ S.sys.accesses u, p.2.Valid
  guard : Guard S.sys.dom (recorded S.sys) (recorded S.sys) (· ∈ S.released)

section
variable {S S' : EarlySys} {ev : EarlyEvent} {a t u v x : Nat} {k : AccessType}

theorem mem_recorded {S : Sys} : (a, k) ∈ recorded S u ↔ (a, k) ∈ S.accesses u ∧ a ≠ 0 := by
  simp [recorded]

theorem conflictsWith_of_targets {p : AccessType} (hp : (a, p) ∈ recorded S.sys x)
    (hout : p.output = true) (hv : Targets S.sys.dom (recorded S.sys) a v) :
    ConflictsWith S.sys x v := by
  obtain ⟨hp, ha⟩ := mem_recorded.1 hp
  refine ⟨(a, p), hp, ha, hout, ?_⟩
  unfold Targets at hv
  unfold AccessesData
  cases hc : (S.sys.dom.obj v).commutation with
  | none =>
    rw [hc] at hv
    obtain ⟨k, hk⟩ := hv
    exact ⟨(a, k), (mem_recorded.1 hk).1, rfl⟩
  | some c =>
    rw [hc] at hv
    exact hv

/-- A plain conflict is seen by the test of the release. -/
theorem EarlyInv.not_canRemovePredecessor (h : EarlyInv S) (hv : v < S.sys.dom.lastDepObjId)
    (hconf : ConflictsPlainly S.sys x v) :
    canRemovePredecessor overlap (S.sys.dom.obj x) (S.sys.dom.obj v) ≠ true := by
  intro hcan
  obtain ⟨⟨b, p⟩, hp, hb, hpw, hvb⟩ := hconf
  have hx := (h.guard.entered x b p (mem_recorded.2 ⟨hp, hb⟩)).written hpw
  obtain ⟨hout, hread⟩ := canRemovePredecessor_iff.1 hcan b hx
  unfold AccessesPlainly at hvb
  split at hvb
  · obtain ⟨⟨b', k⟩, hk, rfl, hkc⟩ := hvb
    rcases (h.guard.entered v _ k (mem_recorded.2 ⟨hk, hb⟩)).accessed hkc with hmem | hmem
    · exact hout hmem
    · exact hread hmem
  · next c hc =>
    have hmem := h.guard.target v c hv hc
    rw [hvb] at hmem
    exact hout hmem

/-- A release that `ReleaseOk` admits drops no edge to an object that accesses what the task may
write. -/
theorem EarlyInv.not_conflictsWith (h : EarlyInv S) (hx : S.sys.dom.Live x)
    (hok : ReleaseOk S (.releaseReadDependencies x)) (hv : v ∈ (S.sys.dom.obj x).successors)
    (hcan : canRemovePredecessor overlap (S.sys.dom.obj x) (S.sys.dom.obj v) = true) :
    ¬ ConflictsWith S.sys x v := by
  obtain ⟨e, hinv⟩ := h.inv
  intro hconf
  exact h.not_canRemovePredecessor (hinv.wf.live_succ x v ⟨hx, hv⟩).1 (hok v hv hconf) hcan

/-- A task that releases its read dependencies as `ReleaseOk` admits writes itself whatever it
accesses concurrently or commutatively. -/
theorem EarlyInv.plainWrites_of_releaseOk (h : EarlyInv S)
    (hok : ReleaseOk S (.releaseReadDependencies x)) (hk : (a, k) ∈ recorded S.sys x)
    (hcomm : k.isCommutation = true) : PlainWrites (recorded S.sys) x a := by
  rcases (h.guard.entered x a k hk).joined hcomm with hw | ⟨-, c, hc, hlt, g, hg⟩
  · exact hw
  have hvalid := h.valid x (a, k) (mem_recorded.1 hk).1
  have hconf : ConflictsWith S.sys x c := conflictsWith_of_targets hk
    (hvalid.output_of_isCommutation hcomm) (targets_commutation hg)
  -- the commutation object's only target is `a`
  obtain ⟨⟨b, p⟩, hp, hb, hpw, hcb⟩ := hok c hc hconf
  unfold AccessesPlainly at hcb
  rw [hg] at hcb
  have hab : a = b := hcb
  exact ⟨p, mem_recorded.2 ⟨hab ▸ hp, hab ▸ hb⟩, hpw⟩

theorem earlyInv_init : EarlyInv earlyInit where
  inv := ⟨_, settled_init.1⟩
  submitted := nofun
  valid := nofun
  guard := ⟨⟨nofun, nofun, nofun, nofun, nofun⟩, fun _ => ⟨nofun, nofun, nofun, nofun, nofun⟩⟩

/-- What a step shows of the tasks: they stay finished, and one that releases its read dependencies
is ready. -/
structure EarlyFrame (S S' : EarlySys) : Prop where
  finished : ∀ y, Task S.sys.dom y → (S.sys.dom.obj y).finished = true →
    (S'.sys.dom.obj y).finished = true
  released : ∀ y, y ∈ S'.released → y ∈ S.released ∨ Ready S.sys.dom y

theorem EarlyInv.plain (h : EarlyInv S) {ev : Event} {S₁ : Sys} (hok : ValidSubmit ev)
    (hs : step S.sys ev = some S₁) :
    EarlyInv { S with sys := S₁ } ∧ EarlyFrame S { S with sys := S₁ } := by
  obtain ⟨⟨e, hinv⟩, hsub, hvalid, hg⟩ := h
  cases ev with
  | submit accesses =>
    obtain ⟨s', e', hok', h', hg', hsub', hfin⟩ := hg.submitDependableObject hinv hok hsub
    simp only [step, hok'] at hs
    cases hs
    refine ⟨⟨⟨e', h'⟩, hsub', fun u p hp => ?_, ?_⟩, hfin, fun y hy => .inl hy⟩
    · dsimp only at hp
      split at hp
      · exact hok p hp
      · exact hvalid u p hp
    · have hrec : recorded { dom := s', accesses := fun x =>
          if x = S.sys.dom.lastDepObjId then accesses else S.sys.accesses x } =
          processed (recorded S.sys) S.sys.dom.lastDepObjId (accesses.filter (·.1 ≠ 0)) := by
        funext u
        unfold recorded processed
        dsimp only
        split <;> rfl
      rw [hrec]
      exact hg'
  | finish x =>
    simp only [step] at hs
    split at hs
    · next hready =>
      cases hs
      have hlive : S.sys.dom.Live x := ⟨hready.1.1, hready.2.2.2⟩
      refine ⟨⟨⟨e, (hinv.finish hlive hready.2.2.1).1⟩, fun y hy => ?_, hvalid,
        hg.finish hinv hlive hready.2.2.1⟩, fun y _ hy => advanced_finish.finished y hy,
        fun y hy => .inl hy⟩
      obtain ⟨h1, h2⟩ := hinv.sameTasks_finish hlive hready.2.2.1 y hy
      exact h2.trans (hsub y h1)
    · cases hs
  | finalizeAllReductions order =>
    simp only [step] at hs
    split at hs
    · cases hs
      obtain ⟨h', hsame⟩ := hinv.finalizeAllReductions order
      refine ⟨⟨⟨e, h'⟩, fun y hy => ?_, hvalid, hg.finalizeAllReductions hinv order⟩,
        fun y _ hy => ?_, fun y hy => .inl hy⟩
      · obtain ⟨h1, h2⟩ := hsame y hy
        exact h2.trans (hsub y h1)
      · exact hinv.finished_finalizeAllReductions order hy
    · cases hs

theorem EarlyInv.release (h : EarlyInv S) (hok : ReleaseOk S (.releaseReadDependencies x))
    (hx : Ready S.sys.dom x) :
    let S₁ : EarlySys :=
      { sys := { S.sys with dom := S.sys.dom.releaseReadDependencies overlap x }
        released := x :: S.released }
    EarlyInv S₁ ∧ EarlyFrame S S₁ ∧
      ∀ v, v ∈ (S.sys.dom.obj x).successors → v ∉ (S₁.sys.dom.obj x).successors →
        ¬ ConflictsWith S.sys x v := by
  intro S₁
  have hlive : S.sys.dom.Live x := ⟨hx.1.1, hx.2.2.2⟩
  obtain ⟨e, hinv⟩ := h.inv
  obtain ⟨h', hg', hsame, hdropped⟩ := h.guard.releaseReadDependencies hinv hx
    (fun a k hk hc => h.plainWrites_of_releaseOk hok hk hc) fun v hv hcan a ha htarget => by
      obtain ⟨k, hk, hkw⟩ := ha
      unfold AccessType.plainWrite at hkw
      rw [Bool.and_eq_true] at hkw
      exact h.not_conflictsWith hlive hok hv hcan (conflictsWith_of_targets hk hkw.1 htarget)
  have hR : (fun u => u ∈ S.released ∨ u = x) = (· ∈ S₁.released) := by
    funext u
    exact propext (or_comm.trans List.mem_cons.symm)
  rw [hR] at hg'
  refine ⟨⟨⟨e, h'⟩, fun y hy => ?_, h.valid, hg'⟩, ⟨fun y _ hy => hsame.finished y hy, fun y hy => ?_⟩,
    fun v hv hno => h.not_conflictsWith hlive hok hv (hdropped v hv hno)⟩
  · rw [hsame.submitted]
    exact h.submitted y ⟨hsame.size ▸ hy.1, (hsame.commutation y).symm.trans hy.2⟩
  · rcases List.mem_cons.1 hy with rfl | hy
    · exact .inr hx
    · exact .inl hy

/-- **The step lemma.** -/
theorem EarlyInv.step (h : EarlyInv S) (hok : ReleaseOk S ev) (hs : earlyStep S ev = some S') :
    EarlyInv S' ∧ EarlyFrame S S' ∧ ∀ x, ev = .releaseReadDependencies x →
      ∀ v, v ∈ (S.sys.dom.obj x).successors → v ∉ (S'.sys.dom.obj x).successors →
        ¬ ConflictsWith S.sys x v := by
  cases ev with
  | plain ev =>
    obtain ⟨S₁, hs₁, rfl⟩ := Option.map_eq_some_iff.1 hs
    obtain ⟨h', hframe⟩ := h.plain hok hs₁
    exact ⟨h', hframe, nofun⟩
  | releaseReadDependencies x =>
    simp only [earlyStep] at hs
    split at hs
    · next hx =>
      cases hs
      obtain ⟨h', hframe, hdropped⟩ := h.release hok hx
      refine ⟨h', hframe, fun y hy => ?_⟩
      cases hy
      exact hdropped
    · cases hs

/-- A task that has released its read dependencies stays ready until it finishes. -/
theorem EarlyInv.ready_of_released (h : EarlyInv S) (hu : u ∈ S.released)
    (hfin : (S.sys.dom.obj u).finished = false) : Ready S.sys.dom u := by
  obtain ⟨htask, hnum⟩ := h.guard.released u hu
  exact ⟨htask, h.submitted u htask, hnum ⟨htask.1, hfin⟩, hfin⟩

/-- Two accesses that are both concurrent or both commutative. -/
def Peers (k k' : AccessType) : Prop :=
  k.isCommutation = true ∧ k'.isCommutation = true ∧ k.commutative = k'.commutative

instance : Decidable (Peers k k') := inferInstanceAs (Decidable (_ ∧ _ ∧ _))

theorem not_compatible_of_output {k' : AccessType} (hout : k.output = true) (hp : ¬ Peers k k') :
    ¬ k.mode.Compatible k'.mode := by
  unfold AccessType.mode
  rw [hout]
  cases hk : k.isCommutation with
  | false => exact id
  | true =>
    cases hk' : k'.isCommutation with
    | false => cases k'.output <;> exact id
    | true => exact fun heq => hp ⟨hk, hk', heq⟩

/-- `t` accesses data that `u` may write, and the order between the two matters: they are not members
of one group of concurrent or commutative accesses, or `u` has released its read dependencies. -/
def MustWait (S : EarlySys) (u t : Nat) : Prop :=
  ∃ p ∈ S.sys.accesses u, ∃ q ∈ S.sys.accesses t, p.1 = q.1 ∧ p.1 ≠ 0 ∧ p.2.output = true ∧
    (u ∈ S.released ∨ ¬ Peers p.2 q.2)

instance (S : EarlySys) (u t : Nat) : Decidable (MustWait S u t) :=
  inferInstanceAs (Decidable (∃ p ∈ S.sys.accesses u, ∃ q ∈ S.sys.accesses t, _ ∧ _ ∧ _ ∧ _))

/-- A ready task waits for no firm task: there is no path to it. -/
theorem EarlyInv.not_transGen (h : EarlyInv S) (ht : Ready S.sys.dom t) :
    ¬ Relation.TransGen (EdgeAt S.sys.dom (recorded S.sys) a) u t := by
  obtain ⟨e, hinv⟩ := h.inv
  intro hpath
  obtain ⟨w, hw⟩ := Lib.exists_edge_of_transGen hpath
  exact hinv.not_edge ⟨ht.1.1, ht.2.2.2⟩ ht.2.2.1 w hw.1

/-- A ready task is waited for at the data it may write, by whoever must wait for it. -/
theorem EarlyInv.firm_of_mustWait (h : EarlyInv S) (hu : Ready S.sys.dom u) (hut : MustWait S u t) :
    ∃ a mu mt, accessedAt (recorded S.sys) a u mu ∧ accessedAt (recorded S.sys) a t mt ∧
      Firm S.sys.dom (recorded S.sys) (· ∈ S.released) a u ∧ ¬ mu.Compatible mt := by
  obtain ⟨⟨a, k⟩, hk, ⟨a', k'⟩, hk', haa, ha, hout, hpeers⟩ := hut
  dsimp only at haa ha hout hpeers
  subst haa
  have hmem := mem_recorded.2 ⟨hk, ha⟩
  have hmem' := mem_recorded.2 ⟨hk', ha⟩
  have hlive : S.sys.dom.Live u := ⟨hu.1.1, hu.2.2.2⟩
  by_cases hrel : u ∈ S.released
  · have hw : PlainWrites (recorded S.sys) u a := by
      cases hc : k.isCommutation with
      | false => exact ⟨k, hmem, by rw [AccessType.plainWrite, hout, hc]; rfl⟩
      | true => exact ((h.guard.entered u a k hmem).joined hc).resolve_right fun hno => hno.1 hrel
    obtain ⟨kw, hkw, hkw'⟩ := hw
    exact ⟨a, _, _, ⟨kw, hkw, AccessType.mode_of_plainWrite hkw'⟩, ⟨k', hmem', rfl⟩,
      ⟨hlive, fun _ => ⟨kw, hkw, hkw'⟩⟩, id⟩
  · exact ⟨a, _, _, ⟨k, hmem, rfl⟩, ⟨k', hmem', rfl⟩, ⟨hlive, fun hu => absurd hu hrel⟩,
      not_compatible_of_output hout (hpeers.resolve_left hrel)⟩

/-- Two tasks that are ready, one of which must wait for the other: the other has released its read
dependencies. -/
theorem EarlyInv.released_of_mustWait (h : EarlyInv S) (hu : Ready S.sys.dom u)
    (ht : Ready S.sys.dom t) (hne : t ≠ u) (hut : MustWait S u t) : t ∈ S.released := by
  obtain ⟨a, mu, mt, hmu, hmt, hfirm, hconf⟩ := h.firm_of_mustWait hu hut
  by_contra hno
  rcases Nat.lt_or_gt_of_ne hne with hlt | hlt
  · exact h.not_transGen hu ((h.guard.guarded a).ordered t u mt mu
      ⟨⟨ht.1.1, ht.2.2.2⟩, fun hrel => absurd hrel hno⟩ hlt hmt hmu fun hc => hconf hc.symm)
  · exact h.not_transGen ht ((h.guard.guarded a).ordered u t mu mt hfirm hlt hmu hmt hconf)

/-- **The early release is safe**, in runs in which every conflict of a releasing task with a
successor is one of plain accesses: the edges dropped lead to objects that access nothing the task
may write, a task that has released stays ready until it finishes, and until then no task becomes
ready that accesses what it may write. -/
theorem releaseReadDependencies_safe (h : Lib.Reach earlyStep ReleaseOk earlyInit S)
    (hok : ReleaseOk S ev) (hs : earlyStep S ev = some S') :
    (∀ x, ev = .releaseReadDependencies x → ∀ v, v ∈ (S.sys.dom.obj x).successors →
      v ∉ (S'.sys.dom.obj x).successors → ¬ ConflictsWith S.sys x v) ∧
    (∀ u ∈ S'.released, (S'.sys.dom.obj u).finished = false → Ready S'.sys.dom u) ∧
    ∀ u t, Ready S'.sys.dom u → t ≠ u → MustWait S' u t → Ready S'.sys.dom t →
      Ready S.sys.dom t := by
  have hinv : EarlyInv S := h.invariant earlyInv_init fun _ _ _ h hok hs => (h.step hok hs).1
  obtain ⟨hinv', hframe, hdropped⟩ := hinv.step hok hs
  refine ⟨hdropped, fun u hu hfin => hinv'.ready_of_released hu hfin, fun u t hu hne hut ht => ?_⟩
  rcases hframe.released t (hinv'.released_of_mustWait hu ht hne hut) with hrel | hready
  · refine hinv.ready_of_released hrel ?_
    have hfin := ht.2.2.2
    by_contra hno
    rw [hframe.finished t (hinv.guard.released t hrel).1 (by simpa using hno)] at hfin
    cases hfin
  · exact hready

/-- A task that writes 1 and reads 2 releases the writer of 2 early, but not the reader of 1. -/
theorem releaseReadDependencies_safe_reader :
    ∃ S S', Lib.Reach earlyStep ReleaseOk earlyInit S ∧
      earlyStep S (.releaseReadDependencies 0) = some S' ∧
      1 ∉ (S'.sys.dom.obj 0).successors ∧ ¬ ConflictsWith S.sys 0 1 ∧
      ¬ Ready S'.sys.dom 2 := by
  obtain ⟨S, hS, hp⟩ := Lib.exists_reach_of_guarded_run earlyStep ReleaseOk earlyInit
    [.plain (.submit [(1, .outAccess), (2, .inAccess)]), .plain (.submit [(2, .outAccess)]),
      .plain (.submit [(1, .inAccess), (3, .concurrentAccess)])]
    (fun S => decide (ReleaseOk S (.releaseReadDependencies 0) ∧ 1 ∈ (S.sys.dom.obj 0).successors ∧
      ¬ Ready S.sys.dom 2) && (earlyStep S (.releaseReadDependencies 0)).any fun (S' : EarlySys) =>
        decide (1 ∉ (S'.sys.dom.obj 0).successors ∧ Ready S'.sys.dom 0 ∧ MustWait S' 0 2))
    (by decide)
  rw [Bool.and_eq_true] at hp
  obtain ⟨hok, h1, h2⟩ := of_decide_eq_true hp.1
  obtain ⟨S', hs, hp'⟩ := (Option.any_eq_true _ _).1 hp.2
  obtain ⟨h1', h0, hwait⟩ := of_decide_eq_true hp'
  obtain ⟨hdropped, -, hready⟩ := releaseReadDependencies_safe hS hok hs
  exact ⟨S, S', hS, hs, h1', hdropped 0 rfl 1 h1 h1',
    fun h => h2 (hready 0 2 h0 (by decide) hwait h)⟩

/-- The commutation object of a task's own concurrent access is no target of the task: the release
drops the edge to it, and a reader becomes ready that the task has to come before. -/
theorem releaseReadDependencies_unsafe_concurrent :
    ¬ ∀ S ev S', Lib.Reach earlyStep (fun _ ev => EarlyValid ev) earlyInit S → EarlyValid ev →
      earlyStep S ev = some S' →
      (∀ x, ev = .releaseReadDependencies x → ∀ v, v ∈ (S.sys.dom.obj x).successors →
        v ∉ (S'.sys.dom.obj x).successors → ¬ ConflictsWith S.sys x v) ∧
      ∀ u ∈ S'.released, (S'.sys.dom.obj u).finished = false → ∀ t, t ≠ u →
        Task S'.sys.dom t → ConflictsWith S'.sys u t → Ready S'.sys.dom t →
          Ready S.sys.dom t := by
  intro hall
  obtain ⟨S, hS, hp⟩ := Lib.exists_reach_of_run earlyStep EarlyValid earlyInit
    [.plain (.submit [(1, .concurrentAccess)]), .plain (.submit [(1, .inAccess)])] (by decide)
    (fun S => decide (¬ Ready S.sys.dom 2) &&
      (earlyStep S (.releaseReadDependencies 0)).any fun (S' : EarlySys) =>
        decide (0 ∈ S'.released ∧ (S'.sys.dom.obj 0).finished = false ∧ Task S'.sys.dom 2 ∧
          ConflictsWith S'.sys 0 2 ∧ Ready S'.sys.dom 2)) (by decide)
  rw [Bool.and_eq_true] at hp
  obtain ⟨S', hs, hp'⟩ := (Option.any_eq_true _ _).1 hp.2
  obtain ⟨hrel, hfin, htask, hconf, hready⟩ := of_decide_eq_true hp'
  have hsafe := (hall S (.releaseReadDependencies 0) S' hS trivial hs).2
  exact of_decide_eq_true hp.1 (hsafe 0 hrel hfin 2 (by decide) htask hconf hready)

end

end OmpSs.Deps.Plain
