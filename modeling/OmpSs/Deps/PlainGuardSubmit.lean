import OmpSs.Deps.PlainGuard

/-!
# Submissions keep the order at an address

Every operation of a submission adds edges, objects and targets (`Grows`) and changes the status of
one address. The order at the other addresses is kept by the growth alone; at the address of the
access the statuses change as the operations of `Lib.GroupTracking` do.
-/

namespace OmpSs.Deps.Plain

open DepState Relation

/-- The frame of what a submission of the task `t` does: edges, objects and targets come, none go,
and only the counters of `t` and of commutation objects move. -/
structure Grows (t : Nat) (s s' : State) : Prop where
  size : s.lastDepObjId ≤ s'.lastDepObjId
  live : ∀ u, u < s.lastDepObjId → (s'.Live u ↔ s.Live u)
  successors : ∀ u, u < s.lastDepObjId → (s.obj u).successors ⊆ (s'.obj u).successors
  commutation : ∀ u, u < s.lastDepObjId → (s'.obj u).commutation = (s.obj u).commutation
  outputObjects : ∀ u, u < s.lastDepObjId → (s.obj u).outputObjects ⊆ (s'.obj u).outputObjects
  readObjects : ∀ u, u < s.lastDepObjId → (s.obj u).readObjects ⊆ (s'.obj u).readObjects
  numPredecessors : ∀ u, Task s u → u ≠ t →
    (s'.obj u).numPredecessors = (s.obj u).numPredecessors

section
variable {s s' s'' : State} {e : Nat → Int} {A D D' : Nat → Accesses} {R : Nat → Prop}
  {a b c t u v w x y : Nat} {ty k : AccessType}

/-! ## Growth -/

theorem Grows.refl : Grows t s s :=
  ⟨le_refl _, fun _ _ => Iff.rfl, fun _ _ => List.Subset.refl _, fun _ _ => rfl,
    fun _ _ => List.Subset.refl _, fun _ _ => List.Subset.refl _, fun _ _ _ => rfl⟩

theorem Grows.isTask (h : Grows t s s') (hu : Task s u) : Task s' u :=
  ⟨hu.1.trans_le h.size, (h.commutation u hu.1).trans hu.2⟩

theorem Grows.trans (h : Grows t s s') (h' : Grows t s' s'') : Grows t s s'' where
  size := h.size.trans h'.size
  live u hu := (h'.live u (hu.trans_le h.size)).trans (h.live u hu)
  successors u hu :=
    List.Subset.trans (h.successors u hu) (h'.successors u (hu.trans_le h.size))
  commutation u hu := (h'.commutation u (hu.trans_le h.size)).trans (h.commutation u hu)
  outputObjects u hu :=
    List.Subset.trans (h.outputObjects u hu) (h'.outputObjects u (hu.trans_le h.size))
  readObjects u hu :=
    List.Subset.trans (h.readObjects u hu) (h'.readObjects u (hu.trans_le h.size))
  numPredecessors u hu hne := (h'.numPredecessors u (h.isTask hu) hne).trans (h.numPredecessors u hu hne)

/-- An operation on the statuses. -/
theorem grows_map (m : DepsMap) : Grows t s { s with map := m } :=
  ⟨le_refl _, fun _ _ => Iff.rfl, fun _ _ => List.Subset.refl _, fun _ _ => rfl,
    fun _ _ => List.Subset.refl _, fun _ _ => List.Subset.refl _, fun _ _ _ => rfl⟩

/-- An object `x`, the task itself or a commutation object, comes to depend on others. -/
theorem grows_dependAll (hx : x = t ∨ ¬ Task s x) (l : List Nat) : Grows t s (s.dependAll x l) := by
  have hd := depended_dependAll (s := s) (x := x) l
  refine ⟨hd.size.symm.le, fun u _ => hd.live, fun u _ v hv => (hd.successors u v).2 (.inl hv),
    fun u _ => hd.commutation, fun u _ => ?_, fun u _ => ?_, fun u hu hne => ?_⟩
  · rw [hd.obj u]
    exact List.Subset.refl _
  · rw [hd.obj u]
    exact List.Subset.refl _
  · refine hd.numPredecessors u fun hux => ?_
    rcases hx with rfl | hx
    · exact hne hux
    · exact hx (hux ▸ hu)

/-- New targets. -/
theorem grows_modifyObj {f : DependableObject Nat → DependableObject Nat}
    (hf : ∀ o, f o = { o with outputObjects := (f o).outputObjects
                              readObjects := (f o).readObjects })
    (hout : ∀ o, o.outputObjects ⊆ (f o).outputObjects)
    (hread : ∀ o, o.readObjects ⊆ (f o).readObjects) : Grows t s (s.modifyObj x f) := by
  have hobj : ∀ u, ((s.modifyObj x f).obj u) = if u = x then f (s.obj u) else s.obj u := fun _ => rfl
  refine ⟨le_refl _, fun u _ => ?_, fun u _ => ?_, fun u _ => ?_, fun u _ => ?_, fun u _ => ?_,
    fun u _ _ => ?_⟩
  · unfold Live
    rw [hobj, modifyObj_lastDepObjId]
    split
    · rw [hf]
    · rfl
  · rw [hobj]
    split
    · rw [hf]
      exact List.Subset.refl _
    · exact List.Subset.refl _
  · rw [hobj]
    split
    · rw [hf]
    · rfl
  · rw [hobj]
    split
    · exact hout _
    · exact List.Subset.refl _
  · rw [hobj]
    split
    · exact hread _
    · exact List.Subset.refl _
  · rw [hobj]
    split
    · rw [hf]
    · rfl

/-- An object enters itself into its own lists and into a status. -/
theorem grows_register {f : DependableObject Nat → DependableObject Nat}
    {g : TrackableObject → TrackableObject}
    (hf : ∀ o, f o = { o with outputObjects := (f o).outputObjects
                              readObjects := (f o).readObjects })
    (hout : ∀ o, o.outputObjects ⊆ (f o).outputObjects)
    (hread : ∀ o, o.readObjects ⊆ (f o).readObjects) :
    Grows t s ((s.modifyObj x f).modifyStatus a g) :=
  (grows_modifyObj hf hout hread).trans (grows_map _)

theorem grows_newObj (o : DependableObject Nat) : Grows t s (s.newObj o) := by
  have hold : ∀ u, u < s.lastDepObjId → (s.newObj o).obj u = s.obj u := fun u hu =>
    if_neg (Nat.ne_of_lt hu)
  refine ⟨Nat.le_succ _, fun u hu => ?_, fun u hu => ?_, fun u hu => ?_, fun u hu => ?_,
    fun u hu => ?_, fun u hu _ => ?_⟩
  · unfold Live
    rw [hold u hu, newObj_lastDepObjId]
    exact and_congr_left fun _ => ⟨fun _ => hu, fun _ => hu.trans (Nat.lt_succ_self _)⟩
  · rw [hold u hu]
    exact List.Subset.refl _
  · rw [hold u hu]
  · rw [hold u hu]
    exact List.Subset.refl _
  · rw [hold u hu]
    exact List.Subset.refl _
  · rw [hold u hu.1]

/-- A further increment of a commutation object. -/
theorem grows_increasePredecessors (hx : ¬ Task s x) : Grows t s (s.increasePredecessors x) := by
  have hobj : ∀ u, (s.increasePredecessors x).obj u = { s.obj u with
      numPredecessors := ((s.increasePredecessors x).obj u).numPredecessors } := fun u => by
    simp only [increasePredecessors, modifyObj_obj]
    split <;> rfl
  refine ⟨le_refl _, fun u _ => sameGraph_increasePredecessors.live, fun u _ => ?_, fun u _ => ?_,
    fun u _ => ?_, fun u _ => ?_, fun u hu _ => ?_⟩
  · rw [hobj u]
    exact List.Subset.refl _
  · rw [hobj u]
  · rw [hobj u]
    exact List.Subset.refl _
  · rw [hobj u]
    exact List.Subset.refl _
  · have hne : u ≠ x := fun hux => hx (hux ▸ hu)
    simp only [increasePredecessors, modifyObj_obj, hne, if_false]

theorem grows_addSuccessor : Grows t s (s.addSuccessor w x).2 := by
  unfold addSuccessor
  split
  · exact .refl
  split
  · exact .refl
  have hobj : ∀ u, (s.pushSuccessor w x).obj u = { s.obj u with
      successors := ((s.pushSuccessor w x).obj u).successors } := fun u => by
    simp only [pushSuccessor, modifyObj_obj]
    split <;> rfl
  show Grows t s (s.pushSuccessor w x)
  refine ⟨le_refl _, fun u _ => pushSuccessor_live, fun u _ => ?_, fun u _ => ?_, fun u _ => ?_,
    fun u _ => ?_, fun u _ _ => ?_⟩
  · simp only [pushSuccessor, modifyObj_obj]
    split
    · exact List.subset_append_left _ _
    · exact List.Subset.refl _
  · rw [hobj u]
  · rw [hobj u]
    exact List.Subset.refl _
  · rw [hobj u]
    exact List.Subset.refl _
  · rw [hobj u]

theorem Grows.edge (h : Grows t s s') (huv : s.Edge u v) : s'.Edge u v :=
  ⟨(h.live u huv.1.1).2 huv.1, h.successors u huv.1.1 huv.2⟩

theorem Grows.edgeAt (h : Grows t s s') (hwf : s.WF) (huv : EdgeAt s A a u v) :
    EdgeAt s' A a u v :=
  ⟨h.edge huv.1, (targets_congr (h.commutation v (hwf.live_succ u v huv.1).1)).2 huv.2⟩

/-- Growth keeps the order at an address, with its record as it was. -/
theorem Guard.grown (h : Guard s A D R) (hwf : s.WF) (hg : Grows t s s') (a : Nat) :
    Lib.Guarded (EdgeAt s' A a) (Firm s' A R a) (accessedAt D a) (record s a) := by
  refine (h.guarded a).mono (fun u v huv => hg.edgeAt hwf huv) (fun u hu => ?_) rfl
    (fun _ => Iff.rfl) fun _ _ => Iff.rfl
  rcases lt_or_ge u s.lastDepObjId with hlt | hge
  · exact .inl ⟨(hg.live u hlt).1 hu.1, hu.2⟩
  · refine .inr fun m ⟨k, hk, _⟩ => ?_
    exact absurd (h.tasks u _ (h.entered u a k hk).mem).1 (not_lt.2 hge)

theorem Grows.entered (h : Grows t s s') (hu : u < s.lastDepObjId)
    (hsub : ∀ p, p ∈ D u → p ∈ D' u) (he : Entered s A D R u a k) : Entered s' A D' R u a k where
  mem := he.mem
  written hk := h.outputObjects u hu (he.written hk)
  accessed hk :=
    (he.accessed hk).imp (fun h1 => h.outputObjects u hu h1) fun h1 => h.readObjects u hu h1
  joined hk := by
    refine (he.joined hk).imp (fun h1 => h1.mono hsub) fun ⟨hR, c, hc, hlt, g, hg⟩ => ?_
    exact ⟨hR, c, h.successors u hu hc, hlt.trans_le h.size, g, (h.commutation c hlt).trans hg⟩

/-- Growth keeps what is recorded of the accesses, where the new accesses, last writers and objects
are recorded. -/
theorem Grows.booked (h : Grows t s s') (hb : Booked s A D R) (hRt : ¬ R t)
    (hsub : ∀ u p, p ∈ D u → p ∈ D' u)
    (hnew : ∀ u b k, (b, k) ∈ D' u → (b, k) ∈ D u ∨ Entered s' A D' R u b k)
    (hwrote : ∀ b w, (s'.statusAt b).lastWriter = some w → (s'.obj w).commutation = none →
      (s.statusAt b).lastWriter = some w ∧ w < s.lastDepObjId ∨ PlainWrites D' w b)
    (htarget : ∀ c k, s.lastDepObjId ≤ c → c < s'.lastDepObjId →
      (s'.obj c).commutation = some k → k.target ∈ (s'.obj c).outputObjects) :
    Booked s' A D' R where
  tasks u p hp := h.isTask (hb.tasks u p hp)
  entered u b k hk := by
    rcases hnew u b k hk with hk | he
    · have he := hb.entered u b k hk
      exact h.entered (hb.tasks u _ he.mem).1 (hsub u) he
    · exact he
  wrote b w hw ht := by
    rcases hwrote b w hw ht with ⟨hw, hlt⟩ | hw
    · exact (hb.wrote b w hw ((h.commutation w hlt).symm.trans ht)).mono (hsub w)
    · exact hw
  target c k hc hk := by
    rcases lt_or_ge c s.lastDepObjId with hlt | hge
    · rw [h.commutation c hlt] at hk
      exact h.outputObjects c hlt (hb.target c k hlt hk)
    · exact htarget c k hge hc hk
  released u hu := by
    obtain ⟨ht, hnum⟩ := hb.released u hu
    have hne : u ≠ t := fun hut => hRt (hut ▸ hu)
    refine ⟨h.isTask ht, fun hlive => ?_⟩
    rw [h.numPredecessors u ht hne]
    exact hnum ((h.live u ht.1).1 hlive)

theorem Grows.group_iff {g : Bool} (h : Grows t s s') (hrec : Recorded s)
    (hst : (s'.statusAt b).commDO = (s.statusAt b).commDO) :
    (record s' b).group c g ↔ (record s b).group c g := by
  unfold record
  dsimp only
  rw [hst]
  refine and_congr_right fun hc => ?_
  rw [h.commutation c (hrec.openDO b c hc).1.1]

/-- Growth that leaves the status of `b` as it was keeps the order there. -/
theorem Guard.guarded_of_statusAt (h : Guard s A D R) (hinv : Inv s e) (hg : Grows t s s')
    (hst : s'.statusAt b = s.statusAt b) :
    Lib.Guarded (EdgeAt s' A b) (Firm s' A R b) (accessedAt D b) (record s' b) := by
  refine (h.grown hinv.wf hg b).mono (fun _ _ he => he) (fun _ hu => .inl hu)
    (congrArg TrackableObject.lastWriter hst) (fun r => ?_) fun c g => ?_
  · show r ∈ (s'.statusAt b).versionReaders ↔ r ∈ (s.statusAt b).versionReaders
    rw [hst]
  · exact hg.group_iff hinv.toRecorded (by rw [hst])

/-- Growth that leaves the statuses as they are. -/
theorem Guard.of_statuses (h : Guard s A D R) (hinv : Inv s e) (hg : Grows t s s') (hRt : ¬ R t)
    (hst : ∀ b, s'.statusAt b = s.statusAt b)
    (htarget : ∀ c k, s.lastDepObjId ≤ c → c < s'.lastDepObjId →
      (s'.obj c).commutation = some k → k.target ∈ (s'.obj c).outputObjects) :
    Guard s' A D R where
  toBooked := hg.booked h.toBooked hRt (fun _ _ hp => hp) (fun _ _ _ hk => .inl hk)
    (fun b w hw _ => .inl ⟨hst b ▸ hw, (hinv.writer b w (hst b ▸ hw)).1.1⟩) htarget
  guarded b := h.guarded_of_statusAt hinv hg (hst b)

/-- Growth that changes the status of `a`: the order at `a` is what is left to show. -/
theorem Guard.grow (h : Guard s A D R) (hinv : Inv s e) (hg : Grows t s s')
    (hb : Booked s' A D' R) (hD : ∀ u b k, b ≠ a → ((b, k) ∈ D' u ↔ (b, k) ∈ D u))
    (hst : ∀ b, b ≠ a → s'.statusAt b = s.statusAt b)
    (ha : Lib.Guarded (EdgeAt s' A a) (Firm s' A R a) (accessedAt D a) (record s a) →
      Lib.Guarded (EdgeAt s' A a) (Firm s' A R a) (accessedAt D' a) (record s' a)) :
    Guard s' A D' R where
  toBooked := hb
  guarded b := by
    by_cases hba : b = a
    · rw [hba]
      exact ha (h.grown hinv.wf hg a)
    have hacc : accessedAt D' b = accessedAt D b := by
      funext u m
      exact propext (exists_congr fun k => and_congr_left fun _ => hD u b k hba)
    rw [hacc]
    exact h.guarded_of_statusAt hinv hg (hst b hba)

/-! ## Closing -/

/-- The commutation object that is closed takes the place of the last writer, which it comes after. -/
theorem Guard.close (h : Guard s A D R) (hinv : Inv s e) (hRt : ¬ R t)
    (hc : (s.statusAt a).commDO = some c) : Guard (close s a c) A D R := by
  obtain ⟨hlive, -, k, hk⟩ := hinv.openDO a c hc
  have hgroup : (record s a).group c k := ⟨hc, hk⟩
  have hg : Grows t s (Plain.close s a c) := grows_map _
  have hst : ∀ b, b ≠ a → (Plain.close s a c).statusAt b = s.statusAt b := fun b hb => by
    rw [close_statusAt, if_neg hb]
  have hsta : (Plain.close s a c).statusAt a =
      ((s.statusAt a).setCommDO none).setLastWriter c := by
    rw [close_statusAt, if_pos rfl]
  refine h.grow hinv hg (hg.booked h.toBooked hRt (fun _ _ hp => hp) (fun _ _ _ hk => .inl hk)
    (fun b w hw ht => ?_) fun c k hc hc' => absurd hc' (not_lt.2 hc)) (fun _ _ _ _ => Iff.rfl) hst
    fun hgd => ?_
  · by_cases hba : b = a
    · subst hba
      rw [hsta] at hw
      cases hw
      have hk' : (s.obj c).commutation = none := ht
      rw [hk] at hk'
      cases hk'
    · rw [hst b hba] at hw
      exact .inl ⟨hw, (hinv.writer b w hw).1.1⟩
  · refine hgd.replace (x := c) (fun w hw => hgd.groupAfter w c k hw hgroup)
      (fun r hr => absurd hr (hgd.exclusive c k r hgroup)) (fun d g hd => ?_) ?_ (fun r hr => ?_)
      fun d g hd => ?_
    · have hdc : d = c := Option.some.inj (hd.1.symm.trans hc)
      rw [hdc]
    · exact congrArg TrackableObject.lastWriter hsta
    · have hr' : r ∈ (s.statusAt a).versionReaders := by
        have := congrArg TrackableObject.versionReaders hsta
        exact this ▸ hr
      exact hgd.exclusive c k r hgroup hr'
    · have := congrArg TrackableObject.commDO hsta
      exact nomatch this.symm.trans hd.1

/-- `finalizeReduction` keeps the order. -/
theorem Guard.finalizeReduction (h : Guard s A D R) (hinv : Inv s e) (hRt : ¬ R t) (a : Nat) :
    Guard (s.finalizeReduction a) A D R := by
  obtain ⟨hinv', hfin⟩ := hinv.finalizeReduction a
  rcases hfin with ⟨-, heq⟩ | ⟨c, hc, hrel⟩
  · rw [heq]
    exact h
  have hdec := finalizeReduction_of_some hc (hinv.wf.references c (hinv.openDO a c hc).1)
  refine (h.close hinv hRt hc).shrinks (hrel.shrinks ?_) hinv'
  rw [hdec]
  exact advanced_decreasePredecessors _ _ c

/-! ## The accesses of the submitted task -/

/-- The task `t` in progress makes an access of kind `ty` to `a`; `D` are the accesses before it and
`D'` those after it. -/
structure NewAccess (s : State) (A D D' : Nat → Accesses) (R : Nat → Prop) (t a : Nat)
    (ty : AccessType) : Prop where
  task : Task s t
  live : s.Live t
  mem : (a, ty) ∈ A t
  unreleased : ¬ R t
  newest : ∀ u p, p ∈ D u → u ≤ t
  accesses : ∀ u b k, (b, k) ∈ D' u ↔ (b, k) ∈ D u ∨ u = t ∧ b = a ∧ k = ty

theorem NewAccess.of_live (n : NewAccess s A D D' R t a ty) (ht : Task s' t) (hlt : s'.Live t) :
    NewAccess s' A D D' R t a ty :=
  { n with task := ht, live := hlt }

/-- The access is one in the state in which the open commutation object is closed. -/
theorem NewAccess.finalizeReduction (n : NewAccess s A D D' R t a ty) (hinv : Inv s e)
    (hw : (s.obj t).waits = false) :
    Inv (s.finalizeReduction a) e ∧ NewAccess (s.finalizeReduction a) A D D' R t a ty ∧
      ((s.finalizeReduction a).obj t).waits = false ∧
      ((s.finalizeReduction a).statusAt a).commDO = none := by
  obtain ⟨hinv', hfin⟩ := hinv.finalizeReduction a
  have hloc := hfin.isLocal n.task
  exact ⟨hinv', n.of_live (hloc.isTask n.task) ((hloc.live n.task).2 n.live),
    (hloc.task t n.task).2.2.trans hw, by rw [hfin.commDO, if_pos rfl]⟩

theorem NewAccess.le (n : NewAccess s A D D' R t a ty) {u : Nat} {m : Lib.Mode Bool}
    (hu : accessedAt D b u m) : u ≤ t := by
  obtain ⟨k, hk, -⟩ := hu
  exact n.newest u _ hk

theorem NewAccess.elsewhere (n : NewAccess s A D D' R t a ty) (u b : Nat) (k : AccessType)
    (hb : b ≠ a) : (b, k) ∈ D' u ↔ (b, k) ∈ D u :=
  (n.accesses u b k).trans ⟨fun h => h.resolve_right fun h => hb h.2.1, .inl⟩

theorem NewAccess.accessedAt_cases (n : NewAccess s A D D' R t a ty) (u : Nat) (m : Lib.Mode Bool)
    (hu : accessedAt D' a u m) : accessedAt D a u m ∨ u = t ∧ m = ty.mode := by
  obtain ⟨k, hk, rfl⟩ := hu
  rcases (n.accesses u a k).1 hk with hk | ⟨hu, -, rfl⟩
  · exact .inl ⟨k, hk, rfl⟩
  · exact .inr ⟨hu, rfl⟩

theorem NewAccess.sub (n : NewAccess s A D D' R t a ty) (u : Nat) (p : Nat × AccessType)
    (hp : p ∈ D u) : p ∈ D' u :=
  (n.accesses u p.1 p.2).2 (.inl hp)

/-- The new access is entered if the task's targets or successors show it. -/
theorem NewAccess.entered (n : NewAccess s A D D' R t a ty)
    (he : Entered s' A D' R t a ty) (u b : Nat) (k : AccessType) (hk : (b, k) ∈ D' u) :
    (b, k) ∈ D u ∨ Entered s' A D' R u b k := by
  rcases (n.accesses u b k).1 hk with hk | ⟨rfl, rfl, rfl⟩
  · exact .inl hk
  · exact .inr he

/-- Whatever `x` has come to depend on precedes it in the graph of an address that `x` accesses. -/
theorem reach_dependAll {l : List Nat} (hg : Grows t (s.dependAll x l) s') (hx : Targets s' A a x)
    (hw : w ∈ l) (hlive : s.Live w) : ReflTransGen (EdgeAt s' A a) w x := by
  by_cases hwx : w = x
  · rw [hwx]
  · refine .single ⟨hg.edge ?_, hx⟩
    exact (depended_dependAll l).edge.2 (.inr ⟨hlive, ⟨hw, hwx⟩, rfl⟩)

/-- A plain access: the task comes to depend on the objects of `l`, and enters itself into its own
lists and into the status of `a`. -/
theorem Guard.register (h : Guard s A D R) (hinv : Inv s e) (n : NewAccess s A D D' R t a ty)
    (hplain : ty.isCommutation = false) {l : List Nat} (hl : ∀ w ∈ l, s.Live w)
    {f : DependableObject Nat → DependableObject Nat} {g : TrackableObject → TrackableObject}
    (hf : ∀ o, f o = { o with outputObjects := (f o).outputObjects
                              readObjects := (f o).readObjects })
    (hout : ∀ o, o.outputObjects ⊆ (f o).outputObjects)
    (hread : ∀ o, o.readObjects ⊆ (f o).readObjects)
    (hwritten : ty.plainWrite = true → ∀ o, a ∈ (f o).outputObjects)
    (haccessed : ∀ o, a ∈ (f o).outputObjects ∨ a ∈ (f o).readObjects)
    (hwrote : ∀ w, (g (s.statusAt a)).lastWriter = some w →
      (s.statusAt a).lastWriter = some w ∨ w = t ∧ ty.plainWrite = true)
    (hrecord : ∀ (E : Nat → Nat → Prop) (firm : Nat → Prop) (T : Lib.Record Nat Bool),
      Lib.Guarded E firm (accessedAt D a) (record s a) → (∀ w ∈ l, ReflTransGen E w t) →
      T.lastWriter = (g (s.statusAt a)).lastWriter →
      (∀ r, T.readers r ↔ r ∈ (g (s.statusAt a)).versionReaders) →
      (∀ c k, T.group c k → (g (s.statusAt a)).commDO = some c) →
      Lib.Guarded E firm (accessedAt D' a) T) :
    Guard (((s.dependAll t l).modifyObj t f).modifyStatus a g) A D' R := by
  have hd := depended_dependAll (s := s) (x := t) l
  have hg₂ : Grows t (s.dependAll t l) (((s.dependAll t l).modifyObj t f).modifyStatus a g) :=
    grows_register hf hout hread
  have hg := (grows_dependAll (.inl rfl) l).trans hg₂
  have hst : ∀ b, (((s.dependAll t l).modifyObj t f).modifyStatus a g).statusAt b =
      if b = a then g (s.statusAt b) else s.statusAt b := fun b => by
    rw [statusAt_modifyStatus, statusAt_modifyObj, hd.statusAt]
  have hobj : (((s.dependAll t l).modifyObj t f).modifyStatus a g).obj t =
      f ((s.dependAll t l).obj t) := modifyObj_obj_self f
  have hentered : Entered (((s.dependAll t l).modifyObj t f).modifyStatus a g) A D' R t a ty := by
    refine ⟨n.mem, fun hk => ?_, fun _ => ?_, fun hk => absurd (hplain.symm.trans hk) (by simp)⟩
    · rw [hobj]
      exact hwritten hk _
    · rw [hobj]
      exact haccessed _
  refine h.grow hinv hg (hg.booked h.toBooked n.unreleased n.sub (n.entered hentered)
    (fun b w hw _ => ?_) fun c k hc hc' => ?_) n.elsewhere (fun b hb => by rw [hst, if_neg hb])
    fun hgd => hrecord _ _ _ hgd (fun w hw => ?_) ?_ (fun r => ?_) fun c k hc => ?_
  · rw [hst] at hw
    split at hw
    · next hba =>
      subst hba
      rcases hwrote w hw with hw | ⟨rfl, hk⟩
      · exact .inl ⟨hw, (hinv.writer b w hw).1.1⟩
      · exact .inr ⟨ty, (n.accesses w b ty).2 (.inr ⟨rfl, rfl, rfl⟩), hk⟩
    · exact .inl ⟨hw, (hinv.writer b w hw).1.1⟩
  · rw [show (((s.dependAll t l).modifyObj t f).modifyStatus a g).lastDepObjId = s.lastDepObjId from
      hd.size] at hc'
    exact absurd hc' (not_lt.2 hc)
  · exact reach_dependAll hg₂ (targets_task (hg.isTask n.task).2 n.mem) hw (hl w hw)
  · exact congrArg TrackableObject.lastWriter ((hst a).trans (if_pos rfl))
  · rw [← (hst a).trans (if_pos rfl)]
    rfl
  · rw [← (hst a).trans (if_pos rfl)]
    exact hc.1

/-- Recording a read target. -/
theorem Guard.addReadTarget (h : Guard s A D R) (hinv : Inv s e) (hRt : ¬ R t) :
    Guard (s.addReadTarget t a) A D R :=
  h.of_statuses hinv (grows_modifyObj (fun _ => rfl) (fun _ => List.Subset.refl _)
    fun _ => List.subset_append_left _ _) hRt (fun _ => rfl) fun _ _ hc hc' => absurd hc' (not_lt.2 hc)

/-- The task becomes a reader, behind the last writer. -/
theorem Guard.read (h : Guard s A D R) (hinv : Inv s e) (n : NewAccess s A D D' R t a .inAccess)
    (hnone : (s.statusAt a).commDO = none) :
    Guard (((s.dependAll t (s.statusAt a).lastWriter.toList).modifyObj t fun o =>
      { o with readObjects := o.readObjects ++ [a] }).modifyStatus a (·.setReader t)) A D' R := by
  refine h.register hinv n rfl (fun w hw => (hinv.writer a w (Option.mem_toList.1 hw)).1)
    (fun _ => rfl) (fun _ => List.Subset.refl _) (fun _ => List.subset_append_left _ _)
    (fun hk => nomatch hk) (fun o => .inr (by simp)) (fun w hw => .inl hw)
    fun E firm T hgd hreach hlw hread hgroup => ?_
  have hreaders : ∀ r, T.readers r ↔ (record s a).readers r ∨ r = t := by
    intro r
    rw [hread]
    simp [TrackableObject.setReader, record]
  have hgd' := hgd.addReader (t := t) (fun c g hc => nomatch hnone.symm.trans hc.1)
    (fun w hw => hreach w (Option.mem_toList.2 hw)) hlw hreaders
    fun c g hc => nomatch hnone.symm.trans (hgroup c g hc)
  exact hgd'.accessReader (fun u m hu => n.le hu) ((hreaders t).2 (.inr rfl)) n.accessedAt_cases

/-- The task becomes the last writer, behind everything recorded; a last writer that it does not
depend on precedes a reader that it does. -/
theorem Guard.write (h : Guard s A D R) (hinv : Inv s e) (n : NewAccess s A D D' R t a ty)
    (hty : ty.plainWrite = true) (hnone : (s.statusAt a).commDO = none) {l : List Nat}
    (hl : ∀ w ∈ l, s.Live w) (hr : ∀ r ∈ (s.statusAt a).versionReaders, r ∈ l)
    (hw : ∀ w, (s.statusAt a).lastWriter = some w → w ∈ l ∨ (s.statusAt a).versionReaders ≠ []) :
    Guard (((s.dependAll t l).modifyObj t fun o =>
      { o with outputObjects := o.outputObjects ++ [a] }).modifyStatus a
        fun o => o.flushReaders.setLastWriter t) A D' R := by
  have hplain : ty.isCommutation = false := by
    unfold AccessType.plainWrite at hty
    rw [Bool.and_eq_true, Bool.not_eq_true'] at hty
    exact hty.2
  refine h.register hinv n hplain hl (fun _ => rfl) (fun _ => List.subset_append_left _ _)
    (fun _ => List.Subset.refl _) (fun _ o => by simp) (fun o => .inl (by simp))
    (fun w hw => .inr ⟨(Option.some.inj hw).symm, hty⟩)
    fun E firm T hgd hreach hlw hread hgroup => ?_
  have hnoread : ∀ r, ¬ T.readers r := fun r hrd => nomatch (hread r).1 hrd
  have hnogroup : ∀ c g, ¬ T.group c g := fun c g hc => nomatch hnone.symm.trans (hgroup c g hc)
  have hgd' := hgd.replace (x := t) (fun w hlw => ?_) (fun r hrd => hreach r (hr r hrd))
    (fun c g hc => nomatch hnone.symm.trans hc.1) hlw hnoread hnogroup
  · exact hgd'.accessWriter (fun u m hu => n.le hu) hlw hnoread hnogroup n.accessedAt_cases
  · rcases hw w hlw with hwl | hne
    · exact hreach w hwl
    · obtain ⟨r, hrd⟩ := List.exists_mem_of_ne_nil _ hne
      exact (hgd.readAfter w r hlw hrd).trans (hreach r (hr r hrd))

/-- An `in` access. -/
theorem Guard.inputAccess (h : Guard s A D R) (hinv : Inv s e)
    (n : NewAccess s A D D' R t a .inAccess) (hw : (s.obj t).waits = false) :
    Guard ((s.submitDependableObjectInputDataAccess t a).addReadTarget t a) A D' R := by
  obtain ⟨h₁, n₁, hw₀, hnone⟩ := n.finalizeReduction hinv hw
  have hw₁ : (((s.finalizeReduction a).dependAll t
      ((s.finalizeReduction a).statusAt a).lastWriter.toList).obj t).waits = false := by
    rw [(depended_dependAll _).obj]
    exact hw₀
  unfold submitDependableObjectInputDataAccess
  dsimp only
  rw [dependOnLastWriter_eq, if_neg (by simpa using hw₁)]
  exact (h.finalizeReduction hinv n.unreleased a).read h₁ n₁ hnone

/-- What an `out` or `inout` access does once the last writer has been looked at, or not. -/
theorem setAsWriter_dependAll {l : List Nat} (hw : (s.obj t).waits = false) :
    (s.dependAll t l).dependOnReadersAndSetAsWriter t a a =
      ((s.dependAll t (l ++ (s.statusAt a).versionReaders)).modifyObj t fun o =>
        { o with outputObjects := o.outputObjects ++ [a] }).modifyStatus a
          fun o => o.flushReaders.setLastWriter t := by
  have hd := depended_dependAll (s := s) (x := t) l
  have happ : (s.dependAll t l).dependAll t (s.statusAt a).versionReaders =
      s.dependAll t (l ++ (s.statusAt a).versionReaders) := (List.foldl_append ..).symm
  unfold dependOnReadersAndSetAsWriter
  rw [dependOnReaders_eq, hd.statusAt, happ, setAsWriter_eq]
  rw [(depended_dependAll _).obj]
  exact hw

/-- An `inout` access, less the read target. -/
theorem Guard.inoutAccess (h : Guard s A D R) (hinv : Inv s e) (n : NewAccess s A D D' R t a ty)
    (hty : ty.plainWrite = true) (hw : (s.obj t).waits = false) :
    Guard (s.submitDependableObjectInoutDataAccess t a a) A D' R := by
  obtain ⟨h₁, n₁, hw₁, hnone⟩ := n.finalizeReduction hinv hw
  unfold submitDependableObjectInoutDataAccess
  dsimp only
  rw [dependOnLastWriter_eq, setAsWriter_dependAll hw₁]
  refine (h.finalizeReduction hinv n.unreleased a).write h₁ n₁ hty hnone
    (fun w hw => ?_) (fun r hr => List.mem_append_right _ hr)
    fun w hlw => .inl (List.mem_append_left _ (Option.mem_toList.2 hlw))
  rcases List.mem_append.1 hw with hw | hw
  · exact (h₁.writer a w (Option.mem_toList.1 hw)).1
  · exact (h₁.reader a w hw).1

/-- An `out` access: with readers the last writer is not looked at. -/
theorem Guard.outputAccess (h : Guard s A D R) (hinv : Inv s e) (n : NewAccess s A D D' R t a ty)
    (hty : ty.plainWrite = true) (hw : (s.obj t).waits = false) :
    Guard (s.submitDependableObjectOutputDataAccess t a a) A D' R := by
  obtain ⟨h₁, n₁, hw₁, hnone⟩ := n.finalizeReduction hinv hw
  unfold submitDependableObjectOutputDataAccess
  dsimp only
  split
  · next hr =>
    have hne : ((s.finalizeReduction a).statusAt a).versionReaders ≠ [] := by
      simpa [TrackableObject.hasReaders] using hr
    have hdirect := setAsWriter_dependAll (a := a) (l := []) hw₁
    rw [List.nil_append] at hdirect
    show Guard (((s.finalizeReduction a).dependAll t []).dependOnReadersAndSetAsWriter t a a) A D' R
    rw [hdirect]
    exact (h.finalizeReduction hinv n.unreleased a).write h₁ n₁ hty hnone
      (fun r hr => (h₁.reader a r hr).1) (fun r hr => hr)
      fun w _ => .inr hne
  · exact h.inoutAccess hinv n hty hw

/-! ## Concurrent and commutative accesses -/

/-- The initial commutation object takes the place of the readers, and so comes after everything
recorded. -/
theorem Guard.setUpInitial (h : Guard s A D R) (hinv : Inv s e) (hRt : ¬ R t) (ty : AccessType) :
    Guard (s.setUpInitialCommutationDependableObject a a ty).2 A D R := by
  by_cases hr : (s.statusAt a).hasReaders = true
  swap
  · unfold setUpInitialCommutationDependableObject
    rw [if_neg hr]
    exact h
  rw [setUpInitialCommutationDependableObject_eq hr]
  dsimp only
  have hne : (s.statusAt a).versionReaders ≠ [] := by
    simpa [TrackableObject.hasReaders] using hr
  set i := s.lastDepObjId with hi
  set s₁ := (s.newObj (initialDO a ty)).dependAll i (s.statusAt a).versionReaders with hs₁
  set s₂ := (s₁.modifyObj i fun o => { o with outputObjects := o.outputObjects ++ [a] }).modifyStatus a
    fun o => o.flushReaders.setLastWriter i with hs₂
  have hd := depended_dependAll (s := s.newObj (initialDO a ty)) (x := i)
    (s.statusAt a).versionReaders
  rw [← hs₁] at hd
  have hinitial : (s.newObj (initialDO a ty)).obj i = initialDO a ty := if_pos hi
  have hg₂ : Grows t s₁ s₂ :=
    grows_register (f := fun o => { o with outputObjects := o.outputObjects ++ [a] })
      (fun _ => rfl) (fun _ => List.subset_append_left _ _) fun _ => List.Subset.refl _
  have hg : Grows t s s₂ := by
    refine (grows_newObj _).trans ((grows_dependAll (.inr fun hti => ?_) _).trans hg₂)
    have hcomm := hti.2
    rw [hinitial] at hcomm
    cases hcomm
  have hobj : s₂.obj i = { s₁.obj i with outputObjects := (s₁.obj i).outputObjects ++ [a] } :=
    if_pos rfl
  have hcomm : (s₂.obj i).commutation = some ⟨a, ty.commutative⟩ := by
    rw [hobj, hd.obj i, hinitial]
    rfl
  have hst : ∀ b, s₂.statusAt b =
      if b = a then (s.statusAt b).flushReaders.setLastWriter i else s.statusAt b := fun b => by
    rw [hs₂, statusAt_modifyStatus, statusAt_modifyObj, hd.statusAt]
    rfl
  have hsta : s₂.statusAt a = (s.statusAt a).flushReaders.setLastWriter i :=
    (hst a).trans (if_pos rfl)
  refine h.grow hinv hg (hg.booked h.toBooked hRt (fun _ _ hp => hp) (fun _ _ _ hk => .inl hk)
    (fun b w hw ht => ?_) fun c k hc hc' hk => ?_) (fun _ _ _ _ => Iff.rfl)
    (fun b hb => by rw [hst, if_neg hb]) fun hgd => ?_
  · rw [hst] at hw
    split at hw
    · cases hw
      cases ht.symm.trans hcomm
    · exact .inl ⟨hw, (hinv.writer b w hw).1.1⟩
  · have hsize : s₂.lastDepObjId = i + 1 := hd.size
    have hci : c = i := by omega
    rw [hci, hcomm] at hk
    cases hk
    rw [hci, hobj]
    simp
  · have hreach : ∀ r ∈ (s.statusAt a).versionReaders, ReflTransGen (EdgeAt s₂ A a) r i :=
      fun r hr => reach_dependAll hg₂ (targets_commutation hcomm) hr
        ((newObj_live rfl).2 (.inl (hinv.reader a r hr).1))
    obtain ⟨r₀, hr₀⟩ := List.exists_mem_of_ne_nil _ hne
    refine hgd.replace (x := i) (fun w hw => (hgd.readAfter w r₀ hw hr₀).trans (hreach r₀ hr₀)) hreach
      (fun c g hc => absurd hr₀ (hgd.exclusive c g r₀ hc)) ?_ (fun r hr => ?_) fun c g hc => ?_
    · exact congrArg TrackableObject.lastWriter hsta
    · have hr' : r ∈ (s₂.statusAt a).versionReaders := hr
      rw [hsta] at hr'
      cases hr'
    · have hc' := hc.1
      rw [hsta] at hc'
      have hgroup : ∃ k, (record s a).group c k := by
        obtain ⟨-, -, k, hk⟩ := hinv.openDO a c hc'
        exact ⟨k, hc', hk⟩
      obtain ⟨k, hk⟩ := hgroup
      exact hgd.exclusive c k r₀ hk hr₀

theorem mem_successors_addSuccessor (hne : t ≠ c) :
    c ∈ ((s.addSuccessor t c).2.obj t).successors := by
  by_cases hmem : c ∈ (s.obj t).successors
  · rw [addSuccessor_of_mem hmem]
    exact hmem
  · rw [addSuccessor_of_not_mem hne hmem]
    simp [pushSuccessor]

/-- The task joins the group of the open commutation object `c`, which the step to `s'` has set up,
behind the last writer. -/
theorem Guard.join (h : Guard s A D R) (hinv : Inv s e) (n : NewAccess s A D D' R t a ty)
    (hmode : ty.mode = .group ty.commutative) (hreaders : (s.statusAt a).versionReaders = [])
    (hold : ∀ d, (s.statusAt a).commDO = some d → d = c) (hg₁ : Grows t s s')
    (hst₁ : ∀ b, s'.statusAt b =
      if b = a then (s.statusAt b).setCommDO (some c) else s.statusAt b)
    (hlt : c < s'.lastDepObjId) (hkind : (s'.obj c).commutation = some ⟨a, ty.commutative⟩)
    (htarget : ∀ c k, s.lastDepObjId ≤ c → c < s'.lastDepObjId →
      (s'.obj c).commutation = some k → k.target ∈ (s'.obj c).outputObjects) :
    Guard ((s'.addSuccessor t c).2.dependOnLastWriter t a) A D' R := by
  rw [dependOnLastWriter_eq]
  set s₂ := (s'.addSuccessor t c).2 with hs₂
  set s₃ := s₂.dependAll t (s₂.statusAt a).lastWriter.toList with hs₃
  have hd := depended_dependAll (s := s₂) (x := t) (s₂.statusAt a).lastWriter.toList
  rw [← hs₃] at hd
  have hg₂ : Grows t s' s₂ := grows_addSuccessor
  have hg₃ : Grows t s₂ s₃ := grows_dependAll (.inl rfl) _
  have hg := hg₁.trans (hg₂.trans hg₃)
  have hsize : s₃.lastDepObjId = s'.lastDepObjId := by
    rw [hd.size, hs₂]
    unfold addSuccessor
    split
    · rfl
    · split <;> rfl
  have hst : ∀ b, s₃.statusAt b =
      if b = a then (s.statusAt b).setCommDO (some c) else s.statusAt b := fun b => by
    rw [hd.statusAt, hs₂, addSuccessor_statusAt, hst₁]
  have hsta : s₃.statusAt a = (s.statusAt a).setCommDO (some c) := (hst a).trans (if_pos rfl)
  have hlw : (s₃.statusAt a).lastWriter = (s.statusAt a).lastWriter := by
    rw [hsta]
    rfl
  have htask : Task s₃ t := hg.isTask n.task
  have hne : t ≠ c := by
    rintro rfl
    rw [(hg₁.isTask n.task).2] at hkind
    cases hkind
  have hc : (s₃.obj c).commutation = some ⟨a, ty.commutative⟩ := by
    rw [(hg₂.trans hg₃).commutation c hlt, hkind]
  have hcomm : ty.isCommutation = true := by
    by_contra hno
    unfold AccessType.mode at hmode
    rw [if_neg hno] at hmode
    split at hmode <;> cases hmode
  have hsucc : c ∈ (s₃.obj t).successors :=
    hg₃.successors t (hg₂.isTask (hg₁.isTask n.task)).1 (mem_successors_addSuccessor hne)
  -- the task precedes `c`, and the last writer precedes the task
  have htc : ReflTransGen (EdgeAt s₃ A a) t c :=
    .single ⟨⟨(hg.live t n.task.1).2 n.live, hsucc⟩, targets_commutation hc⟩
  have hreach : ∀ w, (s.statusAt a).lastWriter = some w → ReflTransGen (EdgeAt s₃ A a) w t := by
    intro w hw
    have hlive := (hinv.writer a w hw).1
    have hwlt := hlive.1
    refine reach_dependAll (Grows.refl (t := t)) (targets_task htask.2 n.mem) (Option.mem_toList.2 ?_)
      (((hg₁.trans hg₂).live w hwlt).2 hlive)
    rw [← hd.statusAt, hlw]
    exact hw
  have hentered : Entered s₃ A D' R t a ty := by
    refine ⟨n.mem, fun hk => ?_, fun hk => absurd (hcomm.symm.trans hk) (by simp), fun _ => .inr ?_⟩
    · simp [AccessType.plainWrite, hcomm] at hk
    · exact ⟨n.unreleased, c, hsucc, hsize.symm ▸ hlt, _, hc⟩
  refine h.grow hinv hg (hg.booked h.toBooked n.unreleased n.sub (n.entered hentered)
    (fun b w hw _ => .inl ?_) fun d k hd' hlt' hk => ?_) n.elsewhere
    (fun b hb => by rw [hst, if_neg hb]) fun hgd => ?_
  · have hw' : (s.statusAt b).lastWriter = some w := by
      rw [hst] at hw
      split at hw <;> exact hw
    exact ⟨hw', (hinv.writer b w hw').1.1⟩
  · rw [hsize] at hlt'
    rw [(hg₂.trans hg₃).commutation d hlt'] at hk
    exact (hg₂.trans hg₃).outputObjects d hlt' (htarget d k hd' hlt' hk)
  · have hnone : ∀ r, ¬ (record s a).readers r := by
      intro r hr
      have hr' : r ∈ (s.statusAt a).versionReaders := hr
      rw [hreaders] at hr'
      cases hr'
    have hgroup : ∀ d k, (record s₃ a).group d k ↔ d = c ∧ k = ty.commutative := by
      intro d k
      unfold record
      dsimp only
      rw [hsta]
      constructor
      · rintro ⟨hd', hk⟩
        have hdc : d = c := (Option.some.inj hd').symm
        rw [hdc, hc] at hk
        cases hk
        exact ⟨hdc, rfl⟩
      · rintro ⟨rfl, rfl⟩
        exact ⟨rfl, hc⟩
    have hgd' : Lib.Guarded _ _ _ (record s₃ a) := hgd.setGroup (c := c) (g := ty.commutative) hnone
      (fun d k hd' => ?_) (fun w hw => (hreach w hw).trans htc)
      hlw (fun r hr => ?_) hgroup
    · refine hgd'.accessGroup (c := c) (g := ty.commutative) (fun u m hu => n.le hu)
        ((hgroup c _).2 ⟨rfl, rfl⟩) (fun d k hd' => ((hgroup d k).1 hd').2) htc (fun w hw => ?_)
        fun u m hu => hmode ▸ n.accessedAt_cases u m hu
      exact hreach w (hlw.symm.trans hw)
    · have hdc := hold d hd'.1
      have hlt' := (hinv.openDO a d hd'.1).1.1
      have hk := hd'.2
      rw [← hg.commutation d hlt', hdc, hc] at hk
      cases hk
      exact ⟨hdc, rfl⟩
    · have hr' : r ∈ (s₃.statusAt a).versionReaders := hr
      rw [hsta] at hr'
      exact hnone r hr'

/-- The two ways to the open commutation object: it is there, or it is created after one of the other
kind has been closed. -/
theorem Guard.joinTarget (h : Guard s A D R) (hinv : Inv s e) (n : NewAccess s A D D' R t a ty)
    (hmode : ty.mode = .group ty.commutative) (hread : (s.statusAt a).versionReaders = [])
    (heq : s.setUpTargetCommutationDependableObject a a ty = (c, s')) :
    Guard ((s'.addSuccessor t c).2.dependOnLastWriter t a) A D' R := by
  rcases hinv.setUpTarget_cases a ty with ⟨d, hd, hk, heq'⟩ | ⟨s₀, h₀, hfin, hnone, -, hs₀, heq'⟩
  · rw [heq'] at heq
    cases heq
    have hobj : ((s.increasePredecessors c).obj c).commutation = (s.obj c).commutation := by
      simp [increasePredecessors]
    refine h.join hinv n hmode hread (fun d' hd' => Option.some.inj (hd'.symm.trans hd))
      (grows_increasePredecessors fun hc => ?_) (fun b => ?_) (hinv.openDO a c hd).1.1
      (hobj.trans hk) fun d k hge hlt => absurd hlt (not_lt.2 hge)
    · cases hc.2.symm.trans hk
    · show s.statusAt b = _
      split
      · next hba =>
        subst hba
        rw [TrackableObject.setCommDO, ← hd]
      · rfl
  · have hloc := hfin.isLocal n.task
    have n₀ := n.of_live (hloc.isTask n.task) ((hloc.live n.task).2 n.live)
    have hg₀ : Guard s₀ A D R := hs₀ ▸ h.finalizeReduction hinv n.unreleased a
    rw [heq', createCommutationDO_eq] at heq
    cases heq
    have hnew : ((s₀.newObj (targetDO a ty)).modifyStatus a
        (·.setCommDO (some s₀.lastDepObjId))).obj s₀.lastDepObjId = targetDO a ty := if_pos rfl
    refine hg₀.join h₀ n₀ hmode ((hfin.readers a).trans hread)
      (fun d hd => by cases hnone.symm.trans hd) ((grows_newObj _).trans (grows_map _))
      (fun b => statusAt_modifyStatus _) (Nat.lt_succ_self _) (by rw [hnew]; rfl)
      fun d k hge hlt hk => ?_
    have hlt' : d < s₀.lastDepObjId + 1 := hlt
    have hdn : d = s₀.lastDepObjId := by omega
    rw [hdn, hnew] at hk ⊢
    cases hk
    simp [targetDO]

/-- A concurrent or commutative access. -/
theorem Guard.commutativeAccess (h : Guard s A D R) (hinv : Inv s e)
    (n : NewAccess s A D D' R t a ty) (hmode : ty.mode = .group ty.commutative)
    (ha : a ∈ s.map.keys) :
    Guard (s.submitDependableObjectCommutativeDataAccess t a a ty) A D' R := by
  obtain ⟨i, s₁, heq₁, h₁, hloc₁, hcomm₁, hread₁, hi, -⟩ := hinv.setUpInitial_spec ty n.task n.live ha
  have hg₁ := h.setUpInitial (a := a) hinv n.unreleased ty
  rw [heq₁] at hg₁
  have ht₁ := hloc₁.isTask n.task
  have hlt₁ := (hloc₁.live n.task).2 n.live
  obtain ⟨c, s₂, heq₂, h₂, hloc₂, hcomm₂, hkind₂, -, hlive₂, -⟩ :=
    h₁.setUpTarget ty ht₁ hlt₁ (hloc₁.keys a ha)
  have hg₃ := hg₁.joinTarget h₁ (n.of_live ht₁ hlt₁) hmode hread₁ heq₂
  obtain ⟨_, hinv', -⟩ := hinv.commutativeAccess ty n.task n.live ha
  rw [commutativeAccess_eq heq₁ heq₂] at hinv' ⊢
  cases i with
  | none => exact hg₃
  | some i =>
    -- the initial commutation object loses the increment it was created with
    have ht₂ := hloc₂.isTask ht₁
    have hlt₂ := (hloc₂.live ht₁).2 hlt₁
    have hne : t ≠ c := by
      rintro rfl
      rw [ht₂.2] at hkind₂
      cases hkind₂
    obtain ⟨h₃, -⟩ := h₂.addSuccessor ht₂ hlt₂ (h₂.openDO a c hcomm₂).1 hne (by
      have := h₁.pending c
      simp only [if_true]
      omega)
    have hloc₃ := h₂.isLocal_addSuccessor (t := t) hcomm₂
    have h₄ := h₃.dependOnLastWriter ((hloc₃.live ht₂).2 hlt₂) (hloc₃.isTask ht₂).2 a
    have hd := depended_dependAll (s := (s₂.addSuccessor t c).2) (x := t)
      ((s₂.addSuccessor t c).2.statusAt a).lastWriter.toList
    rw [← dependOnLastWriter_eq] at hd
    obtain ⟨hi₁, hi₂⟩ := hi i rfl
    have hi₄ := hd.live.2 (addSuccessor_live.2 (hlive₂ i (hcomm₁ ▸ hi₂) hi₁))
    have hrel := (h₄.decrease hi₄ (by
      have := hinv.pending i
      simp only [if_true]
      split_ifs <;> omega)).2
    exact hg₃.shrinks (hrel.shrinks (advanced_decreasePredecessors _ _ i)) hinv'

/-- An access that the task's own write has made superfluous. -/
theorem Guard.skipped (h : Guard s A D R) (hinv : Inv s e) (n : NewAccess s A D D' R t a ty)
    (hlw : (s.statusAt a).lastWriter = some t) : Guard s A D' R := by
  have hwrote := h.wrote a t hlw n.task.2
  have hout := (hinv.writer a t hlw).2
  have hentered : Entered s A D' R t a ty :=
    ⟨n.mem, fun _ => hout, fun _ => .inl hout, fun _ => .inl (hwrote.mono (n.sub t))⟩
  have hg : Grows t s s := .refl
  refine h.grow hinv hg (hg.booked h.toBooked n.unreleased n.sub (n.entered hentered)
    (fun b w hw _ => .inl ⟨hw, (hinv.writer b w hw).1.1⟩) fun c k hc hc' => absurd hc' (not_lt.2 hc))
    n.elsewhere (fun _ _ => rfl) fun hgd => ?_
  obtain ⟨k, hk, hkw⟩ := hwrote
  exact hgd.accessAgain (fun u m hu => n.le hu) hlw ⟨k, hk, AccessType.mode_of_plainWrite hkw⟩
    n.accessedAt_cases

theorem Guard.lookup (h : Guard s A D R) (hinv : Inv s e) (hRt : ¬ R t) (a : Nat) :
    Guard (lookup s a) A D R :=
  h.of_statuses hinv (grows_map (t := t) _) hRt (fun _ => hinv.statusAt_lookup)
    fun _ _ hc hc' => absurd hc' (not_lt.2 hc)

/-- **One access of the task in progress keeps the order.** -/
theorem Guard.submitDependableObjectDataAccess (h : Guard s A D R) (hinv : Inv s e)
    (n : NewAccess s A D D' R t a ty) (hw : (s.obj t).waits = false) (hty : ty.Valid)
    (hok : submitDependableObjectDataAccess s t a ty = .ok s') : Guard s' A D' R := by
  have h₀ := h.lookup hinv n.unreleased a
  have hinv₀ := hinv.lookup a
  have ha : a ∈ (Plain.lookup s a).map.keys := mem_keys_lookup.2 (.inr rfl)
  have n₀ : NewAccess (Plain.lookup s a) A D D' R t a ty := n.of_live n.task n.live
  unfold Plain.submitDependableObjectDataAccess at hok
  by_cases hskip : ((Plain.lookup s a).statusAt a).lastWriter = some t
  · have hs' : s' = Plain.lookup s a := by
      dsimp only at hok
      rw [if_pos (by exact hskip)] at hok
      exact (Except.ok.inj hok).symm
    rw [hs']
    exact h₀.skipped hinv₀ n₀ hskip
  dsimp only at hok
  rw [if_neg (by exact hskip)] at hok
  rcases hty with (rfl | rfl | rfl) | rfl | rfl
  · have h₁ := h₀.inputAccess hinv₀ n₀ hw
    cases hok
    split
    · next hwaits =>
      have hw₁ := ((hinv₀.inputAccess n₀.task n₀.live ha hw).2.1.task t n₀.task).2.2.trans hw
      simp only [DepState.addReadTarget, modifyObj_obj_self] at hw₁
      exact absurd (hw₁.symm.trans hwaits) Bool.false_ne_true
    · exact h₁
  · cases hok
    exact h₀.outputAccess hinv₀ n₀ rfl hw
  · have h₁ := h₀.inoutAccess hinv₀ n₀ rfl hw
    obtain ⟨hinv₁, -⟩ := hinv₀.inoutAccess n₀.task n₀.live ha hw
    cases hok
    split
    · exact h₁
    · exact h₁.addReadTarget hinv₁ n.unreleased
  · cases hok
    exact h₀.commutativeAccess hinv₀ n₀ rfl ha
  · cases hok
    exact h₀.commutativeAccess hinv₀ n₀ rfl ha

/-! ## Submissions -/

/-- The accesses processed so far: those of the task `t` are `done`. -/
def processed (A : Nat → Accesses) (t : Nat) (done : Accesses) : Nat → Accesses :=
  fun u => if u = t then done else A u

theorem mem_processed_append {done : Accesses} :
    (b, k) ∈ processed A t (done ++ [(a, ty)]) u ↔
      (b, k) ∈ processed A t done u ∨ u = t ∧ b = a ∧ k = ty := by
  unfold processed
  split
  · next hut =>
    simp [hut]
  · next hut =>
    simp [hut]

theorem processed_of_ne {done : Accesses} (hne : u ≠ t) : processed A t done u = A u := if_neg hne

theorem Guard.not_mem_fresh (h : Guard s A D R) (p : Nat × AccessType) :
    p ∉ A s.lastDepObjId :=
  fun hp => lt_irrefl _ (h.tasks _ p hp).1

theorem Guard.not_released_fresh (h : Guard s A D R) : ¬ R s.lastDepObjId :=
  fun hR => lt_irrefl _ (h.released _ hR).1.1

/-- A new task, whose accesses are known, that has not made any of them yet. -/
theorem Guard.startTask (h : Guard s A A R) (hinv : Inv s e) (accesses : Accesses) :
    Guard (startTask s) (processed A s.lastDepObjId accesses) A R := by
  have hg : Grows s.lastDepObjId s (Plain.startTask s) := grows_newObj _
  have hnew : (Plain.startTask s).obj s.lastDepObjId = { numPredecessors := 1 } := if_pos rfl
  have hA : ∀ u, u < s.lastDepObjId → processed A s.lastDepObjId accesses u = A u := fun u hu =>
    processed_of_ne (Nat.ne_of_lt hu)
  have hb : Booked (Plain.startTask s) A A R := by
    refine hg.booked h.toBooked h.not_released_fresh (fun _ _ hp => hp) (fun _ _ _ hk => .inl hk)
      (fun b w hw _ => .inl ⟨hw, (hinv.writer b w hw).1.1⟩) fun c k hge hlt hk => ?_
    have hlt' : c < s.lastDepObjId + 1 := hlt
    have hc : c = s.lastDepObjId := by omega
    rw [hc, hnew] at hk
    cases hk
  refine ⟨⟨fun u p hp => ?_, fun u b k hk => ?_, hb.wrote, hb.target, hb.released⟩, fun b => ?_⟩
  · by_cases hu : u = s.lastDepObjId
    · rw [hu]
      exact ⟨Nat.lt_succ_self _, by rw [hnew]⟩
    · rw [processed_of_ne hu] at hp
      exact hb.tasks u p hp
  · have he := hb.entered u b k hk
    refine ⟨?_, he.written, he.accessed, he.joined⟩
    rw [hA u (h.tasks u _ hk).1]
    exact hk
  · refine (h.guarded b).mono (fun u v huv => ?_) (fun u hu => ?_) rfl (fun _ => Iff.rfl)
      fun c g => hg.group_iff hinv.toRecorded rfl
    · have hv := hinv.wf.live_succ u v huv.1
      refine ⟨hg.edge huv.1, ?_⟩
      have htarget := (targets_congr (hg.commutation v hv.1)).2 huv.2
      unfold Targets at htarget ⊢
      rw [hA v hv.1]
      exact htarget
    · rcases (newObj_live rfl).1 hu.1 with hlive | rfl
      · refine .inl ⟨hlive, fun hR => ?_⟩
        obtain ⟨k, hk, hkw⟩ := hu.2 hR
        rw [hA u hlive.1] at hk
        exact ⟨k, hk, hkw⟩
      · exact .inr fun m ⟨k, hk, _⟩ => h.not_mem_fresh _ hk

theorem setSubmitted_grows : Grows t s (s.setSubmitted x) := by
  refine ⟨le_refl _, fun u _ => sameGraph_setSubmitted.live, fun u _ => ?_, fun u _ => ?_,
    fun u _ => ?_, fun u _ => ?_, fun u _ _ => ?_⟩
  all_goals rw [setSubmitted_obj]
  all_goals exact List.Subset.refl _

/-- **A submission keeps the order.** -/
theorem Guard.submitDependableObject {accesses : Accesses} (h : Guard s A A R) (hinv : Inv s e)
    (hvalid : ∀ p ∈ accesses, p.2.Valid)
    (hsub : ∀ y, Task s y → (s.obj y).submitted = true) :
    ∃ s' e', submitDependableObject s false accesses = .ok s' ∧ Inv s' e' ∧
      Guard s' (processed A s.lastDepObjId (accesses.filter (·.1 ≠ 0)))
        (processed A s.lastDepObjId (accesses.filter (·.1 ≠ 0))) R ∧
      (∀ y, Task s' y → (s'.obj y).submitted = true) ∧
      ∀ y, Task s y → (s.obj y).finished = true → (s'.obj y).finished = true := by
  set t := s.lastDepObjId with ht
  set filtered := accesses.filter (·.1 ≠ 0) with hfiltered
  have hA : processed A t [] = A := by
    funext u
    unfold processed
    split
    · next hu =>
      rw [hu]
      exact (List.eq_nil_iff_forall_not_mem.2 h.not_mem_fresh).symm
    · rfl
  have hRt : ¬ R t := h.not_released_fresh
  have hstep : ∀ done a ty rest s₁ s₂ e₁ e₂, filtered = done ++ (a, ty) :: rest → Inv s₁ e₁ →
      Submitting t s₁ e₁ → Track t done s₁ →
      Plain.submitDependableObjectDataAccess s₁ t a ty = .ok s₂ → Accessed t a ty s₁ s₂ e₁ e₂ →
      (Guard s₁ (processed A t filtered) (processed A t done) R ∧
        ∀ y, Task s y → Task s₁ y ∧ ((s.obj y).finished = true → (s₁.obj y).finished = true)) →
      Guard s₂ (processed A t filtered) (processed A t (done ++ [(a, ty)])) R ∧
        ∀ y, Task s y → Task s₂ y ∧ ((s.obj y).finished = true → (s₂.obj y).finished = true) := by
    intro done a ty rest s₁ s₂ e₁ e₂ hacc h₁ hsub₁ _ hok _ ⟨hg₁, hfin₁⟩
    have hmem : (a, ty) ∈ filtered := by rw [hacc]; simp
    have n : NewAccess s₁ (processed A t filtered) (processed A t done)
        (processed A t (done ++ [(a, ty)])) R t a ty := by
      refine ⟨hsub₁.task, hsub₁.live, ?_, hRt, fun u p hp => ?_, fun u b k => mem_processed_append⟩
      · unfold processed
        rwa [if_pos rfl]
      · by_cases hu : u = t
        · rw [hu]
        · rw [processed_of_ne hu] at hp
          exact (h.tasks u p hp).1.le
    have hty := hvalid (a, ty) (List.mem_filter.1 hmem).1
    refine ⟨hg₁.submitDependableObjectDataAccess h₁ n hsub₁.waits hty hok, fun y hy => ?_⟩
    obtain ⟨s₃, e₃, hok₃, -, -, hloc, -⟩ := h₁.submitDependableObjectDataAccess (a := a) hsub₁.task
      hsub₁.live hsub₁.waits hty
    rw [hok] at hok₃
    cases hok₃
    obtain ⟨hy₁, hfin⟩ := hfin₁ y hy
    exact ⟨hloc.isTask hy₁, fun h => (hloc.task y hy₁).1.trans (hfin h)⟩
  have hstart : ∀ y, Task s y →
      Task (Plain.startTask s) y ∧ ((s.obj y).finished = true → ((Plain.startTask s).obj y).finished =
        true) := by
    intro y hy
    have hold : (Plain.startTask s).obj y = s.obj y := if_neg (Nat.ne_of_lt hy.1)
    refine ⟨⟨hy.1.trans (Nat.lt_succ_self _), ?_⟩, fun h => ?_⟩
    · rw [hold]
      exact hy.2
    · rw [hold]
      exact h
  obtain ⟨s₂, e₂, s', hok, h₂, ⟨hg₂, hfin₂⟩, -, h', hrel, hs', hsub'⟩ := hinv.submitDependableObject
    (P := fun done s₁ _ => Guard s₁ (processed A t filtered) (processed A t done) R ∧
      ∀ y, Task s y → Task s₁ y ∧ ((s.obj y).finished = true → (s₁.obj y).finished = true)) hvalid
    ⟨by rw [hA]; exact h.startTask hinv filtered, hstart⟩ hstep hsub
  have hadv : Advanced (s₂.setSubmitted t) s' := by
    rw [hs']
    exact advanced_decreasePredecessors _ _ _
  refine ⟨s', _, hok, h', ?_, hsub', fun y hy h => hadv.finished y ?_⟩
  swap
  · rw [setSubmitted_obj]
    exact (hfin₂ y hy).2 h
  have hg₃ : Guard (s₂.setSubmitted t) (processed A t filtered) (processed A t filtered) R :=
    hg₂.of_statuses h₂ setSubmitted_grows hRt (fun _ => rfl) fun c k hc hc' => absurd hc' (not_lt.2 hc)
  exact hg₃.shrinks (hrel.shrinks hadv) h'

end

end OmpSs.Deps.Plain
