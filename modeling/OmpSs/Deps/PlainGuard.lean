import OmpSs.Lib.GroupTracking
import OmpSs.Deps.PlainAccounting

/-!
# The order of the tasks at an address

With concurrent and commutative accesses the statuses of the plain domain are records of
`Lib.GroupTracking`, one for each address: the open commutation object stands for the group of the
tasks whose accesses it closes. The graph at an address consists of the edges between objects that
access it (`EdgeAt`), and the tasks that are waited for are those that write the address or have not
released their read dependencies early (`Firm`). `Guard` is the invariant; this module shows that
releases, completions and closings keep it.
-/

namespace OmpSs.Deps

namespace AccessType

/-- How the access takes part in the order at its address. -/
def mode (k : AccessType) : Lib.Mode Bool :=
  if k.isCommutation then .group k.commutative else if k.output then .write else .read

theorem mode_of_plainWrite {k : AccessType} (h : k.plainWrite = true) : k.mode = .write := by
  unfold plainWrite at h
  rw [Bool.and_eq_true, Bool.not_eq_true'] at h
  unfold mode
  rw [h.2, h.1]
  rfl

theorem Valid.output_of_isCommutation {k : AccessType} (h : k.Valid) (hk : k.isCommutation = true) :
    k.output = true := by
  rcases h with (rfl | rfl | rfl) | rfl | rfl
  · cases hk
  · cases hk
  · cases hk
  · rfl
  · rfl

end AccessType

namespace Plain

open DepState Relation

/-- The object `v` accesses `a`: a commutation object its target, a task what its accesses say. -/
def Targets (s : State) (A : Nat → Accesses) (a v : Nat) : Prop :=
  match (s.obj v).commutation with
  | none => ∃ k, (a, k) ∈ A v
  | some c => c.target = a

/-- An edge of the graph at the address `a`. -/
def EdgeAt (s : State) (A : Nat → Accesses) (a u v : Nat) : Prop := s.Edge u v ∧ Targets s A a v

/-- The task `u` writes `a` itself: it has an `out` or `inout` access to it. -/
def PlainWrites (A : Nat → Accesses) (u a : Nat) : Prop := ∃ k, (a, k) ∈ A u ∧ k.plainWrite = true

/-- The task `u` is waited for at `a`: it is unfinished, and it writes `a` or has not released its
read dependencies. `R` are the tasks that have. -/
def Firm (s : State) (A : Nat → Accesses) (R : Nat → Prop) (a u : Nat) : Prop :=
  s.Live u ∧ (R u → PlainWrites A u a)

/-- The accesses to `a` as the order at `a` sees them. -/
def accessedAt (D : Nat → Accesses) (a u : Nat) (m : Lib.Mode Bool) : Prop :=
  ∃ k, (a, k) ∈ D u ∧ k.mode = m

/-- The status of `a` as a record. -/
def record (s : State) (a : Nat) : Lib.Record Nat Bool where
  lastWriter := (s.statusAt a).lastWriter
  readers r := r ∈ (s.statusAt a).versionReaders
  group c g := (s.statusAt a).commDO = some c ∧ (s.obj c).commutation = some ⟨a, g⟩

/-- The access of kind `k` to `a` that the task `u` has made is among its targets, if it is a plain
one, or has a commutation object among its successors. -/
structure Entered (s : State) (A D : Nat → Accesses) (R : Nat → Prop) (u a : Nat)
    (k : AccessType) : Prop where
  mem : (a, k) ∈ A u
  written : k.plainWrite = true → a ∈ (s.obj u).outputObjects
  accessed : k.isCommutation = false → a ∈ (s.obj u).outputObjects ∨ a ∈ (s.obj u).readObjects
  joined : k.isCommutation = true → PlainWrites D u a ∨
    ¬ R u ∧ ∃ c ∈ (s.obj u).successors, c < s.lastDepObjId ∧
      ∃ g, (s.obj c).commutation = some ⟨a, g⟩

/-- What the objects record of their accesses; `A` are the accesses of the tasks and `D` those
processed so far. A task that has released its read dependencies is ready. -/
structure Booked (s : State) (A D : Nat → Accesses) (R : Nat → Prop) : Prop where
  tasks : ∀ u p, p ∈ A u → Task s u
  entered : ∀ u a k, (a, k) ∈ D u → Entered s A D R u a k
  wrote : ∀ a w, (s.statusAt a).lastWriter = some w → (s.obj w).commutation = none →
    PlainWrites D w a
  target : ∀ c k, c < s.lastDepObjId → (s.obj c).commutation = some k →
    k.target ∈ (s.obj c).outputObjects
  released : ∀ u, R u → Task s u ∧ (s.Live u → (s.obj u).numPredecessors = 0)

/-- The invariant: at every address the tasks are ordered. -/
structure Guard (s : State) (A D : Nat → Accesses) (R : Nat → Prop) : Prop
    extends Booked s A D R where
  guarded : ∀ a, Lib.Guarded (EdgeAt s A a) (Firm s A R a) (accessedAt D a) (record s a)

section
variable {s s' s'' : State} {e : Nat → Int} {A D D' : Nat → Accesses} {R R' : Nat → Prop}
  {a b c t u v w x y : Nat} {ty k : AccessType} {X : Nat → Prop}

/-! ## Targets -/

theorem PlainWrites.mono (h : PlainWrites D u a) (hsub : ∀ p, p ∈ D u → p ∈ A u) :
    PlainWrites A u a :=
  h.imp fun _ hk => ⟨hsub _ hk.1, hk.2⟩

theorem targets_congr (hc : (s'.obj v).commutation = (s.obj v).commutation) :
    Targets s' A a v ↔ Targets s A a v := by
  unfold Targets
  rw [hc]

theorem targets_task (hv : (s.obj v).commutation = none) (hk : (a, k) ∈ A v) : Targets s A a v := by
  unfold Targets
  rw [hv]
  exact ⟨k, hk⟩

theorem targets_commutation {g : Bool} (hc : (s.obj c).commutation = some ⟨a, g⟩) :
    Targets s A a c := by
  unfold Targets
  rw [hc]

/-! ## Releases and completions -/

/-- The frame of what releases and completions do: counters go down, objects finish, and a status
forgets only what has finished. -/
structure Advanced (s s' : State) : Prop where
  numPredecessors : ∀ y, (s'.obj y).numPredecessors ≤ (s.obj y).numPredecessors
  finished : ∀ y, (s.obj y).finished = true → (s'.obj y).finished = true
  lastWriter : ∀ b w, (s.statusAt b).lastWriter = some w → (s'.obj w).finished = false →
    (s'.statusAt b).lastWriter = some w

theorem Advanced.refl : Advanced s s := ⟨fun _ => le_refl _, fun _ h => h, fun _ _ h _ => h⟩

theorem Advanced.trans (h : Advanced s s') (h' : Advanced s' s'') : Advanced s s'' where
  numPredecessors y := (h'.numPredecessors y).trans (h.numPredecessors y)
  finished y hy := h'.finished y (h.finished y hy)
  lastWriter b w hw hfin := by
    refine h'.lastWriter b w (h.lastWriter b w hw ?_) hfin
    by_contra hne
    rw [h'.finished w (by simpa using hne)] at hfin
    cases hfin

theorem advanced_foldl {dec : State → Nat → State} (hdec : ∀ s y, Advanced s (dec s y))
    (l : List Nat) (s : State) : Advanced s (l.foldl dec s) := by
  induction l generalizing s with
  | nil => exact .refl
  | cons y l ih => exact (hdec s y).trans (ih _)

theorem advanced_retire : Advanced s (retire s x) := by
  refine ⟨fun y => ?_, fun y hy => ?_, fun b w hw hfin => ?_⟩
  · rw [retire_fields]
  · simp only [retire, modifyObj_obj]
    split
    · rfl
    · exact hy
  · have hne : w ≠ x := by
      rintro rfl
      simp [retire] at hfin
    rw [retire_statusAt]
    simp only [TrackableObject.deleteLastWriter, TrackableObject.deleteReader, hw]
    split_ifs <;> simp_all

theorem advanced_finishedWith {dec : State → Nat → State} (hdec : ∀ s y, Advanced s (dec s y))
    (s : State) (x : Nat) : Advanced s (finishedWith dec s x) := by
  by_cases href : (s.obj x).references = 1
  · rw [finishedWith_eq dec href]
    exact advanced_retire.trans (advanced_foldl hdec _ _)
  · have hne : (s.obj x).references - 1 ≠ 0 := by omega
    simp only [finishedWith, modifyObj_obj_self, hne, if_false]
    refine ⟨fun y => ?_, fun y hy => ?_, fun b w hw _ => hw⟩
    · simp only [modifyObj_obj]
      split <;> exact le_refl _
    · simp only [modifyObj_obj]
      split <;> exact hy

theorem advanced_decreasePredecessors (fuel : Nat) :
    ∀ (s : State) (x : Nat), Advanced s (decreasePredecessors fuel s x) := by
  have hdec : ∀ (s : State) (x : Nat), Advanced s (s.decrementPredecessors x) := by
    refine fun s x => ⟨fun y => ?_, fun y hy => ?_, fun b w hw _ => hw⟩
    · simp only [decrementPredecessors, modifyObj_obj]
      split
      · dsimp only
        omega
      · exact le_refl _
    · simp only [decrementPredecessors, modifyObj_obj]
      split <;> exact hy
  induction fuel with
  | zero => exact hdec
  | succ fuel ih =>
    intro s x
    simp only [decreasePredecessors]
    split
    · split
      · exact hdec s x
      · next c _ =>
        have hmap : Advanced (s.decrementPredecessors x) { s.decrementPredecessors x with
            map := DependenciesDomain.removeCommDO (s.decrementPredecessors x).map x c.target } := by
          refine ⟨fun _ => le_refl _, fun _ hy => hy, fun b w hw _ => ?_⟩
          show ((DepsMap.removeCommDO (s.decrementPredecessors x).map x c.target).trackable
            b).lastWriter = some w
          unfold DepsMap.removeCommDO
          rw [update_trackable]
          split_ifs <;> exact hw
        exact (hdec s x).trans (hmap.trans (advanced_finishedWith ih _ x))
    · exact hdec s x

theorem advanced_finish : Advanced s (s.finish x) :=
  advanced_finishedWith (advanced_decreasePredecessors _) s x

/-- What releases and completions have in common: edges of unfinished objects stay, and the objects
keep their targets. -/
structure Shrinks (s s' : State) : Prop where
  size : s'.lastDepObjId = s.lastDepObjId
  live : ∀ u, s'.Live u → s.Live u
  successors : ∀ u, (s'.obj u).successors = (s.obj u).successors
  commutation : ∀ u, (s'.obj u).commutation = (s.obj u).commutation
  outputObjects : ∀ u, (s'.obj u).outputObjects = (s.obj u).outputObjects
  readObjects : ∀ u, (s'.obj u).readObjects = (s.obj u).readObjects
  numPredecessors : ∀ u, (s'.obj u).numPredecessors ≤ (s.obj u).numPredecessors
  lastWriter_of : ∀ b w, (s'.statusAt b).lastWriter = some w → (s.statusAt b).lastWriter = some w
  lastWriter : ∀ b w, (s.statusAt b).lastWriter = some w → s'.Live w →
    (s'.statusAt b).lastWriter = some w
  readers_of : ∀ b r, r ∈ (s'.statusAt b).versionReaders → r ∈ (s.statusAt b).versionReaders
  readers : ∀ b r, r ∈ (s.statusAt b).versionReaders → s'.Live r → r ∈ (s'.statusAt b).versionReaders
  commDO : ∀ b, (s'.statusAt b).commDO = (s.statusAt b).commDO

theorem Released.shrinks (h : Released X s s') (hadv : Advanced s s') : Shrinks s s' where
  size := h.size
  live _ := h.live_of
  successors := h.successors
  commutation := h.commutation
  outputObjects := h.outputObjects
  readObjects := h.readObjects
  numPredecessors := hadv.numPredecessors
  lastWriter_of _ _ := h.lastWriter_of
  lastWriter b w hw hlive := hadv.lastWriter b w hw hlive.2
  readers_of b _ hr := h.readers b ▸ hr
  readers b _ hr _ := (h.readers b).symm ▸ hr
  commDO := h.commDO

theorem Core.shrinks_retire (h : Core s e) : Shrinks s (DepState.retire s x) where
  size := rfl
  live u hu := (retire_live.1 hu).1
  successors u := by rw [retire_fields]
  commutation u := by rw [retire_fields]
  outputObjects u := by rw [retire_fields]
  readObjects u := by rw [retire_fields]
  numPredecessors u := by rw [retire_fields]
  lastWriter_of b w hw := ((h.retire_statusAt.2.1 w).1 hw).1
  lastWriter b w hw hlive := (h.retire_statusAt.2.1 w).2 ⟨hw, (retire_live.1 hlive).2⟩
  readers_of b r hr := ((h.retire_statusAt.2.2 r).1 hr).1
  readers b r hr hlive := (h.retire_statusAt.2.2 r).2 ⟨hr, (retire_live.1 hlive).2⟩
  commDO b := h.retire_statusAt.1

theorem Shrinks.edge (h : Shrinks s s') (huv : s.Edge u v) (hu : s'.Live u) : s'.Edge u v :=
  ⟨hu, h.successors u ▸ huv.2⟩

/-- A path from an object that stays unfinished stays: no edge leads to a finished object. -/
theorem Shrinks.path (h : Shrinks s s') (hwf : s'.WF) (hu : s'.Live u)
    (huv : ReflTransGen (EdgeAt s A a) u v) :
    ReflTransGen (EdgeAt s' A a) u v ∧ s'.Live v := by
  induction huv with
  | refl => exact ⟨.refl, hu⟩
  | tail _ hvw ih =>
    obtain ⟨hpath, hv⟩ := ih
    have hedge := h.edge hvw.1 hv
    exact ⟨hpath.tail ⟨hedge, (targets_congr (h.commutation _)).2 hvw.2⟩, hwf.live_succ _ _ hedge⟩

theorem Shrinks.group_iff (h : Shrinks s s') {g : Bool} :
    (record s' a).group c g ↔ (record s a).group c g := by
  unfold record
  dsimp only
  rw [h.commDO, h.commutation]

theorem Shrinks.entered (h : Shrinks s s') (he : Entered s A D R u a k) :
    Entered s' A D R u a k where
  mem := he.mem
  written hk := by
    rw [h.outputObjects]
    exact he.written hk
  accessed hk := by
    rw [h.outputObjects, h.readObjects]
    exact he.accessed hk
  joined hk := by
    rw [h.successors, h.size]
    simp only [h.commutation]
    exact he.joined hk

theorem Shrinks.booked (h : Shrinks s s') (hb : Booked s A D R) (hinv : Inv s' e) :
    Booked s' A D R where
  tasks u p hp := ⟨h.size.symm ▸ (hb.tasks u p hp).1, (h.commutation u).trans (hb.tasks u p hp).2⟩
  entered u b k hk := h.entered (hb.entered u b k hk)
  wrote b w hw ht := hb.wrote b w (h.lastWriter_of b w hw) ((h.commutation w).symm.trans ht)
  target c k hc hk := by
    rw [h.size] at hc
    rw [h.commutation] at hk
    rw [h.outputObjects]
    exact hb.target c k hc hk
  released u hu := by
    obtain ⟨ht, hnum⟩ := hb.released u hu
    refine ⟨⟨h.size.symm ▸ ht.1, (h.commutation u).trans ht.2⟩, fun hlive => ?_⟩
    have h1 := hinv.toCore.predCount_le hlive
    have h2 := hinv.pending u
    have h3 := dummy_nonneg (s := s') (x := u)
    have h4 := h.numPredecessors u
    have h5 := hnum (h.live u hlive)
    omega

/-- Releases and completions keep the order. -/
theorem Guard.shrinks (h : Guard s A D R) (hs : Shrinks s s') (hinv : Inv s' e) :
    Guard s' A D R where
  toBooked := hs.booked h.toBooked hinv
  guarded a := by
    have hlive : ∀ u, Firm s' A R a u ∨ (record s' a).lastWriter = some u → s'.Live u := by
      rintro u (hu | hu)
      · exact hu.1
      · exact (hinv.writer a u hu).1
    refine (h.guarded a).shrink (fun u hu => ⟨hs.live u hu.1, hu.2⟩)
      (fun u v hu huv => (hs.path hinv.wf (hlive u hu) huv).1) (fun u w hu hw huw => ?_)
      (fun w hw => hs.lastWriter_of a w hw) (fun u hu hur _ => .inl (hs.readers a u hur hu.1))
      (fun r hr => hs.readers_of a r hr) fun c g => hs.group_iff
    exact hs.lastWriter a w hw (hs.path hinv.wf hu.1 huw).2

end

end Plain

end OmpSs.Deps
