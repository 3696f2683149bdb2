import OmpSs.Deps.PlainAccess
import Mathlib.Data.List.Chain

/-!
# Predecessor accounting in the plain domain

The accounting over whole runs. A submission goes through its accesses one by one; `Track` records
what the accesses processed so far have left behind, so that a concurrent or commutative access can
tell whether the task already precedes the open commutation object. It does exactly when the
previous access of the task to that address was of the same kind: this is the case in which
`setUpTargetCommutationDependableObject` increments the counter but `addSuccessor`, on a set, inserts
nothing.

The accesses of a task to an address after its first `out` or `inout` access there are ignored, since
the task is the last writer from then on; `effectiveKinds` are the others.
-/

namespace OmpSs.Deps

namespace AccessType

/-- The access is `out` or `inout`. -/
def plainWrite (k : AccessType) : Bool := k.output && !k.isCommutation

/-- A concurrent or commutative kind is known by its `commutative` flag. -/
theorem Valid.eq_of_commutation {k ty : AccessType} (hk : k.Valid) (hty : ty.Valid)
    (hkc : k.isCommutation = true) (htc : ty.isCommutation = true)
    (h : k.commutative = ty.commutative) : k = ty := by
  rcases hk with (rfl | rfl | rfl) | rfl | rfl <;> rcases hty with (rfl | rfl | rfl) | rfl | rfl <;>
    first
    | rfl
    | exact absurd hkc (by decide)
    | exact absurd htc (by decide)
    | exact absurd h (by decide)

end AccessType

namespace Plain

open DepState

/-- The kinds of the accesses to `a`, in their order. -/
def kindsAt (accesses : Accesses) (a : Nat) : List AccessType :=
  (accesses.filter (·.1 = a)).map (·.2)

/-- The accesses up to and including the first `out` or `inout`. -/
def untilWrite : List AccessType → List AccessType
  | [] => []
  | k :: ks => if k.plainWrite then [k] else k :: untilWrite ks

/-- The kinds of the accesses to `a` that the domain does not ignore. -/
def effectiveKinds (accesses : Accesses) (a : Nat) : List AccessType :=
  untilWrite (kindsAt accesses a)

section
variable {s s' : State} {e : Nat → Int} {a b c t x y : Nat} {k ty : AccessType}
  {done rest accesses : Accesses}

theorem kindsAt_append_singleton : kindsAt (done ++ [(b, ty)]) a =
    if b = a then kindsAt done a ++ [ty] else kindsAt done a := by
  unfold kindsAt
  by_cases hb : b = a <;> simp [hb]

theorem mem_kindsAt : k ∈ kindsAt accesses a ↔ (a, k) ∈ accesses := by
  simp [kindsAt]

theorem untilWrite_append {l r : List AccessType} (hl : ∀ k ∈ l, k.plainWrite = false) :
    untilWrite (l ++ r) = l ++ untilWrite r := by
  induction l with
  | nil => rfl
  | cons k l ih =>
    have hk := hl k (by simp)
    rw [List.cons_append, untilWrite, hk, if_neg (by simp), List.cons_append,
      ih fun k' hk' => hl k' (by simp [hk'])]

theorem untilWrite_cons (k : AccessType) (r : List AccessType) :
    ∃ r', untilWrite (k :: r) = k :: r' := by
  unfold untilWrite
  split
  · exact ⟨_, rfl⟩
  · exact ⟨_, rfl⟩

/-- The current access is effective when no write of the task came before it. -/
theorem effectiveKinds_split (ty : AccessType) (rest : Accesses)
    (hdone : ∀ k, (a, k) ∈ done → k.plainWrite = false) :
    ∃ r, effectiveKinds (done ++ (a, ty) :: rest) a = kindsAt done a ++ ty :: r := by
  have hsplit : kindsAt (done ++ (a, ty) :: rest) a =
      kindsAt done a ++ ty :: (rest.filter (·.1 = a)).map (·.2) := by simp [kindsAt]
  obtain ⟨r, hr⟩ := untilWrite_cons ty ((rest.filter (·.1 = a)).map (·.2))
  refine ⟨r, ?_⟩
  rw [effectiveKinds, hsplit, untilWrite_append fun k hk => hdone k (mem_kindsAt.1 hk), hr]

/-! ## The submission in progress -/

/-- What the accesses `done` of the task `t` have left: the task is the last writer where it wrote,
it precedes an open commutation object only where its last access is of that object's kind, and it
is a reader only where it has an `in` access. -/
structure Track (t : Nat) (done : Accesses) (s : State) : Prop where
  wrote : ∀ a k, (a, k) ∈ done → a ≠ 0 → k.plainWrite = true →
    (s.statusAt a).lastWriter = some t
  opened : ∀ a c, (s.statusAt a).lastWriter ≠ some t → (s.statusAt a).commDO = some c →
    c ∈ (s.obj t).successors → ∃ k, (kindsAt done a).getLast? = some k ∧
      k.isCommutation = true ∧ (s.obj c).commutation = some ⟨a, k.commutative⟩
  read : ∀ a, t ∈ (s.statusAt a).versionReaders → (a, .inAccess) ∈ done

/-- An access of the task is recorded by `Track`. -/
theorem Track.accessed {e e' : Nat → Int} (h : Track t done s) (hinv : Inv s e)
    (hloc : Local a t s s') (hacc : Accessed t a ty s s' e e') :
    Track t (done ++ [(a, ty)]) s' where
  wrote b k hmem hb hk := by
    rcases List.mem_append.1 hmem with hmem | hmem
    · have hlw := h.wrote b k hmem hb hk
      by_cases hba : b = a
      · subst hba
        cases hacc with
        | skipped h1 h2 => rw [h2, hinv.statusAt_lookup]; exact h1
        | commutation c h1 => exact absurd hlw h1
        | write h1 => exact absurd hlw h1
        | read h1 => exact absurd hlw h1
      · rcases hloc.lastWriter b hba with h1 | h1
        · rw [h1, hlw]
        · exact absurd hlw h1.2
    · cases List.mem_singleton.1 hmem
      cases hacc with
      | skipped h1 h2 => rw [h2, hinv.statusAt_lookup]; exact h1
      | commutation c h1 h2 => simp [AccessType.plainWrite, h2] at hk
      | write h1 h2 h3 h4 => exact h4
      | read h1 h2 => rw [h2] at hk; cases hk
  opened b c hlw hc hmem := by
    rw [kindsAt_append_singleton]
    by_cases hba : b = a
    · subst hba
      rw [if_pos rfl]
      cases hacc with
      | skipped h1 h2 => rw [h2, hinv.statusAt_lookup] at hlw; exact absurd h1 hlw
      | commutation d h1 h2 h3 h4 =>
        rw [h3] at hc
        cases hc
        exact ⟨ty, by simp, h2, h4⟩
      | write h1 h2 h3 h4 => exact absurd h4 hlw
      | read h1 h2 h3 => rw [h3] at hc; cases hc
    · rw [if_neg (Ne.symm hba)]
      rw [hloc.commDO b hba] at hc
      have hlw' : (s.statusAt b).lastWriter ≠ some t := by
        rcases hloc.lastWriter b hba with h1 | h1
        · rwa [h1] at hlw
        · exact h1.2
      obtain ⟨k, hk, hcomm, hkind⟩ := h.opened b c hlw' hc (hloc.openSucc b c hba hc hmem)
      exact ⟨k, hk, hcomm, by rw [hloc.commutation c (hinv.openDO b c hc).1.1, hkind]⟩
  read b hr := by
    by_cases hba : b = a
    · subst hba
      cases hacc with
      | skipped h1 h2 =>
        rw [h2, hinv.statusAt_lookup] at hr
        exact List.mem_append_left _ (h.read b hr)
      | commutation c h1 h2 h3 h4 h5 => rw [h5] at hr; cases hr
      | write h1 h2 h3 h4 h5 => rw [h5] at hr; cases hr
      | read h1 h2 => rw [h2]; simp
    · rw [hloc.readers b hba] at hr
      exact List.mem_append_left _ (h.read b hr)

/-- The task `t` while it is being submitted, with its dummy increment pending. -/
structure Submitting (t : Nat) (s : State) (e : Nat → Int) : Prop where
  task : Task s t
  live : s.Live t
  waits : (s.obj t).waits = false
  pending : 1 ≤ e t

/-- A submission adds no tasks and leaves the `submitted` flags as they are. -/
def SameTasks (s s' : State) : Prop :=
  ∀ y, Task s' y → Task s y ∧ (s'.obj y).submitted = (s.obj y).submitted

theorem Local.sameTasks (h : Local a t s s') : SameTasks s s' := by
  intro y hy
  rcases lt_or_ge y s.lastDepObjId with hlt | hge
  · have hy' : Task s y := ⟨hlt, (h.commutation y hlt).symm.trans hy.2⟩
    exact ⟨hy', (h.task y hy').2.1⟩
  · exact absurd hy.2 (h.created y hge hy.1)

theorem submitAccesses_filter (t : Nat) (accesses : Accesses) (s : State) :
    submitAccesses t (accesses.filter (·.1 ≠ 0)) s = submitAccesses t accesses s := by
  induction accesses generalizing s with
  | nil => rfl
  | cons p accesses ih =>
    obtain ⟨a, ty⟩ := p
    by_cases ha : a = 0
    · simpa [ha, submitAccesses] using ih s
    · simp only [ha, ne_eq, not_false_eq_true, decide_true, List.filter_cons_of_pos, submitAccesses,
        if_false]
      cases submitDependableObjectDataAccess s t a ty with
      | ok s => exact ih s
      | error msg => rfl

/-- What every access of a submission keeps holds after all of them. `P` may speak of the accesses
processed so far, of the state and of the increments pending in it. -/
theorem Inv.submitAccesses {P : Accesses → State → (Nat → Int) → Prop} (accesses : Accesses)
    (hvalid : ∀ p ∈ accesses, p.2.Valid) (hnull : ∀ p ∈ accesses, p.1 ≠ 0)
    (hstep : ∀ done a ty rest s s' e e', accesses = done ++ (a, ty) :: rest → Inv s e →
      Submitting t s e → Track t done s →
      Plain.submitDependableObjectDataAccess s t a ty = .ok s' → Accessed t a ty s s' e e' →
      P done s e → P (done ++ [(a, ty)]) s' e') :
    ∀ rest done s e, accesses = done ++ rest → Inv s e → Submitting t s e → Track t done s →
      P done s e → ∃ s' e', Plain.submitAccesses t rest s = .ok s' ∧ Inv s' e' ∧
        Submitting t s' e' ∧ P accesses s' e' ∧ SameTasks s s'
  | [], done, s, e, hacc, h, hsub, _, hP => by
    rw [List.append_nil] at hacc
    exact ⟨s, e, rfl, h, hsub, hacc ▸ hP, fun _ hy => ⟨hy, rfl⟩⟩
  | (a, ty) :: rest, done, s, e, hacc, h, hsub, htrack, hP => by
    obtain ⟨s₁, e₁, hok, h₁, hle, hloc, hdone⟩ := h.submitDependableObjectDataAccess (a := a)
      hsub.task hsub.live hsub.waits (hvalid (a, ty) (by simp [hacc]))
    have hsub₁ : Submitting t s₁ e₁ := ⟨hloc.isTask hsub.task, (hloc.live hsub.task).2 hsub.live,
      (hloc.task t hsub.task).2.2.trans hsub.waits, hsub.pending.trans (hle t)⟩
    have hP₁ := hstep done a ty rest s s₁ e e₁ hacc h hsub htrack hok hdone hP
    obtain ⟨s', e', hok', h', hsub', hP', hsame⟩ := Inv.submitAccesses accesses hvalid hnull hstep rest
      (done ++ [(a, ty)]) s₁ e₁ (by simp [hacc]) h₁ hsub₁ (htrack.accessed h hloc hdone) hP₁
    refine ⟨s', e', ?_, h', hsub', hP', fun y hy => ?_⟩
    · have ha : a ≠ 0 := hnull (a, ty) (by simp [hacc])
      simp only [Plain.submitAccesses, ha, if_false, hok]
      exact hok'
    · obtain ⟨h1, h2⟩ := hsame y hy
      obtain ⟨h3, h4⟩ := hloc.sameTasks y h1
      exact ⟨h3, h2.trans h4⟩

/-- The state in which the accesses of the new task `s.lastDepObjId` are processed. -/
def startTask (s : State) : State := s.newObj { numPredecessors := 1 }

theorem Inv.startTask (h : Inv s e) :
    Inv (startTask s) (fun y => e y + if y = s.lastDepObjId then 1 else 0) ∧
      Submitting s.lastDepObjId (startTask s)
        (fun y => e y + if y = s.lastDepObjId then 1 else 0) ∧
      Track s.lastDepObjId [] (startTask s) := by
  have hobj : (Plain.startTask s).obj s.lastDepObjId = { numPredecessors := 1 } := if_pos rfl
  refine ⟨?_, ⟨⟨Nat.lt_succ_self _, by rw [hobj]⟩, (newObj_live rfl).2 (.inr rfl), by rw [hobj],
    by simp [h.fresh]⟩, ⟨nofun, fun a c _ hc hmem => ?_, fun a hr => ?_⟩⟩
  · have hnew := h.newObj (o := { numPredecessors := 1 }) rfl rfl rfl (by decide) (by simp)
    rw [Plain.startTask]
    convert hnew using 1
    funext y
    by_cases hy : y = s.lastDepObjId
    · simp [hy, h.fresh]
    · simp [hy]
  · rw [hobj] at hmem
    cases hmem
  · exact absurd (h.reader a _ hr).1.1 (lt_irrefl _)

theorem setSubmitted_obj : (s.setSubmitted t).obj y = { s.obj y with
    submitted := ((s.setSubmitted t).obj y).submitted } := by
  simp only [setSubmitted, modifyObj_obj]
  split <;> rfl

theorem sameGraph_setSubmitted : SameGraph s (s.setSubmitted t) := sameGraph_modifyObj rfl rfl

theorem Inv.setSubmitted (h : Inv s e) : Inv (s.setSubmitted t) e := by
  have hg := sameGraph_setSubmitted (s := s) (t := t)
  refine h.of_sameGraph hg ⟨h.keys, fun b w hw => ?_, fun b r hr => ?_, fun b c hc => ?_⟩
    (fun y => by rw [setSubmitted_obj]; exact ⟨rfl, rfl, rfl⟩) (fun y => ?_) h.pending h.fresh
  · rw [hg.live, setSubmitted_obj]; exact h.writer b w hw
  · rw [hg.live, setSubmitted_obj]; exact h.reader b r hr
  · rw [hg.live, setSubmitted_obj]; exact h.openDO b c hc
  · have hdummy : dummy (s.setSubmitted t) y = dummy s y :=
      dummy_congr (by rw [setSubmitted_obj]) fun b => rfl
    rw [hdummy]

/-- A submission: the accesses are processed one by one, and the dummy increment of the task is
taken back at the end. -/
theorem Inv.submitDependableObject {P : Accesses → State → (Nat → Int) → Prop} (h : Inv s e)
    (hvalid : ∀ p ∈ accesses, p.2.Valid)
    (hstart : P [] (Plain.startTask s) fun y => e y + if y = s.lastDepObjId then 1 else 0)
    (hstep : ∀ done a ty rest s₁ s₂ e₁ e₂,
      accesses.filter (·.1 ≠ 0) = done ++ (a, ty) :: rest → Inv s₁ e₁ →
      Submitting s.lastDepObjId s₁ e₁ → Track s.lastDepObjId done s₁ →
      Plain.submitDependableObjectDataAccess s₁ s.lastDepObjId a ty = .ok s₂ →
      Accessed s.lastDepObjId a ty s₁ s₂ e₁ e₂ → P done s₁ e₁ → P (done ++ [(a, ty)]) s₂ e₂)
    (hsub : ∀ y, Task s y → (s.obj y).submitted = true) :
    ∃ s₂ e₂ s', Plain.submitDependableObject s false accesses = .ok s' ∧ Inv s₂ e₂ ∧
      P (accesses.filter (·.1 ≠ 0)) s₂ e₂ ∧ Submitting s.lastDepObjId s₂ e₂ ∧
      Inv s' (fun y => e₂ y - if y = s.lastDepObjId then 1 else 0) ∧
      Released (· = s.lastDepObjId) (s₂.setSubmitted s.lastDepObjId) s' ∧
      s' = (s₂.setSubmitted s.lastDepObjId).decrease s.lastDepObjId ∧
      ∀ y, Task s' y → (s'.obj y).submitted = true := by
  obtain ⟨h₁, hsub₁, htrack₁⟩ := h.startTask
  obtain ⟨s₂, e₂, hok, h₂, hsub₂, hP₂, hsame⟩ := Inv.submitAccesses (P := P)
    (accesses.filter (·.1 ≠ 0)) (fun p hp => hvalid p (List.mem_filter.1 hp).1)
    (fun p hp => by simpa using (List.mem_filter.1 hp).2) hstep _ [] _ _ rfl h₁ hsub₁ htrack₁ hstart
  have hlive : (s₂.setSubmitted s.lastDepObjId).Live s.lastDepObjId :=
    sameGraph_setSubmitted.live.2 hsub₂.live
  obtain ⟨h₃, hrel⟩ := (h₂.setSubmitted (t := s.lastDepObjId)).decrease hlive hsub₂.pending
  refine ⟨s₂, e₂, _, ?_, h₂, hP₂, hsub₂, h₃, hrel, rfl, fun y hy => ?_⟩
  · rw [submitAccesses_filter] at hok
    unfold Plain.submitDependableObject
    dsimp only
    rw [increasePredecessors_newObj]
    simp only [Plain.startTask] at hok
    simp only [Int.zero_add, hok]
  · rw [hrel.submitted]
    have hy₂ : Task s₂ y := by
      refine ⟨hrel.size ▸ hy.1, ?_⟩
      have := (hrel.commutation y).symm.trans hy.2
      rwa [setSubmitted_obj] at this
    obtain ⟨hy₁, hsame₁⟩ := hsame y hy₂
    simp only [DepState.setSubmitted, modifyObj_obj]
    split
    · rfl
    · next hne =>
      rw [hsame₁]
      have hobj : (Plain.startTask s).obj y = s.obj y := if_neg hne
      rw [hobj]
      refine hsub y ⟨?_, hobj ▸ hy₁.2⟩
      have := hy₁.1
      simp only [Plain.startTask, newObj_lastDepObjId] at this
      omega

theorem SameTasks.trans {s'' : State} (h : SameTasks s s') (h' : SameTasks s' s'') :
    SameTasks s s'' := by
  intro y hy
  obtain ⟨h1, h2⟩ := h' y hy
  obtain ⟨h3, h4⟩ := h y h1
  exact ⟨h3, h2.trans h4⟩

theorem Released.sameTasks {X : Nat → Prop} (h : Released X s s') : SameTasks s s' := fun y hy =>
  ⟨⟨h.size ▸ hy.1, (h.commutation y).symm.trans hy.2⟩, h.submitted y⟩

theorem Finalized.sameTasks (h : Finalized a s s') : SameTasks s s' := by
  rcases h with ⟨-, rfl⟩ | ⟨c, -, hrel⟩
  · exact fun y hy => ⟨hy, rfl⟩
  · exact hrel.sameTasks

/-- `finalizeAllReductions` is a sequence of closings. -/
theorem Inv.finalizeAllReductions (h : Inv s e) (order : List Nat) :
    Inv (finalizeAllReductions s order) e ∧ SameTasks s (finalizeAllReductions s order) := by
  unfold Plain.finalizeAllReductions
  induction order generalizing s with
  | nil => exact ⟨h, fun y hy => ⟨hy, rfl⟩⟩
  | cons a order ih =>
    obtain ⟨h₁, hfin⟩ := h.finalizeReduction a
    obtain ⟨h₂, hsame⟩ := ih h₁
    exact ⟨h₂, hfin.sameTasks.trans hsame⟩

theorem Inv.sameTasks_finish (h : Inv s e) (hx : s.Live x) (hnum : (s.obj x).numPredecessors = 0) :
    SameTasks s (s.finish x) := by
  obtain ⟨-, hrel⟩ := h.finish hx hnum
  refine SameTasks.trans (fun y hy => ?_) hrel.sameTasks
  rw [Task, retire_fields] at hy
  rw [retire_fields]
  exact ⟨hy, rfl⟩

end

/-! ## Runs -/

/-- The submissions a task can make: every access is of one of the five kinds. -/
def ValidSubmit : Event → Prop
  | .submit accesses => ∀ p ∈ accesses, p.2.Valid
  | _ => True

/-- No two consecutive accesses of the task to an address are of the same kind, concurrent or
commutative. Accesses after an `out` or `inout` access to the address do not count. -/
def NoRepeat (accesses : Accesses) : Prop :=
  ∀ p ∈ accesses, p.1 ≠ 0 →
    (effectiveKinds accesses p.1).IsChain fun k k' => ¬ (k = k' ∧ k.isCommutation = true)

instance (accesses : Accesses) : Decidable (NoRepeat accesses) :=
  inferInstanceAs (Decidable (∀ p ∈ accesses, _ → _))

/-- Valid submissions without a repeated concurrent or commutative access. -/
def AccountedSubmit : Event → Prop
  | .submit accesses => (∀ p ∈ accesses, p.2.Valid) ∧ NoRepeat accesses
  | _ => True

instance : DecidablePred ValidSubmit
  | .submit accesses => inferInstanceAs (Decidable (∀ p ∈ accesses, p.2.Valid))
  | .finish _ => inferInstanceAs (Decidable True)
  | .finalizeAllReductions _ => inferInstanceAs (Decidable True)

instance : DecidablePred AccountedSubmit
  | .submit accesses => inferInstanceAs (Decidable ((∀ p ∈ accesses, p.2.Valid) ∧ NoRepeat accesses))
  | .finish _ => inferInstanceAs (Decidable True)
  | .finalizeAllReductions _ => inferInstanceAs (Decidable True)

section
variable {S S' : Sys} {s s' : State} {e : Nat → Int} {a c t x : Nat} {ty k : AccessType}
  {done rest accesses : Accesses}

theorem effectiveKinds_filter (ha : a ≠ 0) :
    effectiveKinds (accesses.filter (·.1 ≠ 0)) a = effectiveKinds accesses a := by
  unfold effectiveKinds kindsAt
  rw [List.filter_filter]
  congr 2
  refine List.filter_congr fun p _ => ?_
  by_cases hp : p.1 = a
  · simp [hp, ha]
  · simp [hp]

/-- Where the task is not the last writer, none of its accesses so far has written. -/
theorem Track.not_plainWrite (h : Track t done s) (hnull : ∀ p ∈ accesses, p.1 ≠ 0)
    (hacc : accesses = done ++ (a, ty) :: rest) (hlw : (s.statusAt a).lastWriter ≠ some t) :
    ∀ k, (a, k) ∈ done → k.plainWrite = false := by
  intro k hk
  by_contra hw
  exact hlw (h.wrote a k hk (hnull (a, k) (by simp [hacc, hk])) (by simpa using hw))

/-- Without a repeated access the task does not precede the open commutation object yet. -/
theorem Track.not_mem_successors (h : Track t done s) (hvalid : ∀ p ∈ accesses, p.2.Valid)
    (hnull : ∀ p ∈ accesses, p.1 ≠ 0) (hacc : accesses = done ++ (a, ty) :: rest)
    (hchain : (effectiveKinds accesses a).IsChain fun k k' => ¬ (k = k' ∧ k.isCommutation = true))
    (hlw : (s.statusAt a).lastWriter ≠ some t) (hty : ty.isCommutation = true)
    (hc : (s.statusAt a).commDO = some c) (hk : (s.obj c).commutation = some ⟨a, ty.commutative⟩) :
    c ∉ (s.obj t).successors := by
  intro hmem
  obtain ⟨k, hlast, hcomm, hkind⟩ := h.opened a c hlw hc hmem
  obtain ⟨r, hr⟩ := effectiveKinds_split ty rest (h.not_plainWrite hnull hacc hlw)
  rw [hacc, hr, List.isChain_append] at hchain
  refine hchain.2.2 k hlast ty rfl ⟨?_, hcomm⟩
  have hkdone : (a, k) ∈ done := mem_kindsAt.1 (List.mem_of_getLast? hlast)
  refine AccessType.Valid.eq_of_commutation (hvalid (a, k) (by simp [hacc, hkdone]))
    (hvalid (a, ty) (by simp [hacc])) hcomm hty ?_
  rw [hk] at hkind
  exact (congrArg CommutationDO.commutative (Option.some.inj hkind)).symm

/-- The invariant of runs: nothing is pending between two steps, and every task is submitted. -/
def Settled (S : Sys) : Prop :=
  Inv S.dom (fun _ => 0) ∧ ∀ y, Task S.dom y → (S.dom.obj y).submitted = true

theorem settled_init : Settled init := by
  refine ⟨⟨⟨⟨fun _ _ => rfl, nofun, nofun, nofun⟩, ⟨nofun, nofun, nofun, nofun⟩, nofun,
    fun _ => le_refl _, fun _ _ => rfl, nofun⟩, nofun⟩, nofun⟩

theorem Settled.step (h : Settled S) {ev : Event} (hok : AccountedSubmit ev)
    (hs : step S ev = some S') : Settled S' := by
  obtain ⟨hinv, hsub⟩ := h
  cases ev with
  | submit accesses =>
    obtain ⟨hvalid, hrep⟩ := hok
    have hstep : ∀ done a ty rest s₁ s₂ e₁ e₂,
        accesses.filter (·.1 ≠ 0) = done ++ (a, ty) :: rest → Inv s₁ e₁ →
        Submitting S.dom.lastDepObjId s₁ e₁ → Track S.dom.lastDepObjId done s₁ →
        Plain.submitDependableObjectDataAccess s₁ S.dom.lastDepObjId a ty = .ok s₂ →
        Accessed S.dom.lastDepObjId a ty s₁ s₂ e₁ e₂ →
        (e₁ = fun y => 0 + if y = S.dom.lastDepObjId then 1 else 0) →
        e₂ = fun y => 0 + if y = S.dom.lastDepObjId then 1 else 0 := by
      intro done a ty rest s₁ s₂ e₁ e₂ hacc h₁ _ htrack _ hdone he
      have hmem : (a, ty) ∈ accesses.filter (·.1 ≠ 0) := by rw [hacc]; simp
      obtain ⟨hmem, ha⟩ := List.mem_filter.1 hmem
      have ha : a ≠ 0 := by simpa using ha
      rw [← he]
      cases hdone with
      | skipped _ _ h => exact h
      | write _ _ _ _ _ h => exact h
      | read _ _ _ h => exact h
      | commutation c hlw hty _ _ _ h =>
        refine h fun c hc hk => htrack.not_mem_successors
          (fun p hp => hvalid p (List.mem_filter.1 hp).1)
          (fun p hp => by simpa using (List.mem_filter.1 hp).2) hacc ?_ hlw hty hc hk
        rw [effectiveKinds_filter ha]
        exact hrep (a, ty) hmem ha
    obtain ⟨s₂, e₂, s', hok', -, he₂, -, h', -, -, hsub'⟩ := hinv.submitDependableObject
      (P := fun _ _ e => e = fun y => 0 + if y = S.dom.lastDepObjId then 1 else 0) hvalid rfl hstep
      hsub
    simp only [Plain.step, hok'] at hs
    cases hs
    refine ⟨?_, hsub'⟩
    simpa [he₂] using h'
  | finish x =>
    simp only [Plain.step] at hs
    split at hs
    · next hready =>
      cases hs
      have hlive : S.dom.Live x := ⟨hready.1.1, hready.2.2.2⟩
      refine ⟨(hinv.finish hlive hready.2.2.1).1, fun y hy => ?_⟩
      obtain ⟨h1, h2⟩ := hinv.sameTasks_finish hlive hready.2.2.1 y hy
      exact h2.trans (hsub y h1)
    · cases hs
  | finalizeAllReductions order =>
    simp only [Plain.step] at hs
    split at hs
    · cases hs
      obtain ⟨h', hsame⟩ := hinv.finalizeAllReductions order
      refine ⟨h', fun y hy => ?_⟩
      obtain ⟨h1, h2⟩ := hsame y hy
      exact h2.trans (hsub y h1)
    · cases hs

/-- **Predecessor accounting of the plain domain.** In every state that submissions without repeated
concurrent or commutative accesses, completions and `finalizeAllReductions` reach, the counter of an
unfinished object is the number of unfinished objects it is a successor of, plus 1 for a commutation
object that has not been closed. So an object that nothing unfinished precedes is a task that can
run. -/
theorem numPredecessors_eq_predCount_add_dummy
    (h : Lib.Reach step (fun _ ev => AccountedSubmit ev) init S) :
    (∀ x, S.dom.Live x →
      (S.dom.obj x).numPredecessors = S.dom.predCount x + dummy S.dom x) ∧
    ∀ x, S.dom.Live x → (∀ u, ¬ S.dom.Edge u x) → dummy S.dom x = 0 → Ready S.dom x := by
  obtain ⟨hinv, hsub⟩ := h.invariant (I := Settled) settled_init fun _ _ _ h hok hs => h.step hok hs
  have hacc : ∀ x, S.dom.Live x →
      (S.dom.obj x).numPredecessors = S.dom.predCount x + dummy S.dom x := fun x hx => by
    simpa using hinv.accounted x hx
  refine ⟨hacc, fun x hx hedge hdummy => ?_⟩
  have hzero : (S.dom.obj x).numPredecessors = 0 := by
    have hpred : S.dom.predCount x = 0 := Finset.card_eq_zero.2
      (Finset.filter_eq_empty_iff.2 fun u _ => hedge u)
    rw [hacc x hx, hpred, hdummy]
    rfl
  have htask : Task S.dom x := ⟨hx.1, by
    by_contra hc
    exact hinv.released x hx hc hzero⟩
  exact ⟨htask, hsub x htask, hzero, hx.2⟩

/-- A run with a concurrent access to two addresses, whose commutation objects are then closed by a
reader. -/
theorem numPredecessors_eq_of_concurrent_and_reader :
    ∃ S, Lib.Reach step (fun _ ev => AccountedSubmit ev) init S ∧
      S.dom.Live 1 ∧ S.dom.Live 3 ∧ (S.dom.obj 3).numPredecessors = S.dom.predCount 3 := by
  obtain ⟨S, hS, hp⟩ := Lib.exists_reach_of_run step AccountedSubmit init
    [.submit [(1, .concurrentAccess), (2, .concurrentAccess)], .submit [(1, .inAccess)]] (by decide)
    (fun S => decide (S.dom.Live 1 ∧ S.dom.Live 3 ∧ dummy S.dom 3 = 0)) (by decide)
  obtain ⟨h1, h3, h0⟩ := of_decide_eq_true hp
  refine ⟨S, hS, h1, h3, ?_⟩
  rw [(numPredecessors_eq_predCount_add_dummy hS).1 3 h3, h0, Int.add_zero]

/-- A task that names an address in two concurrent accesses increments the counter of the
commutation object twice but precedes it once: after the task has finished and
`finalizeAllReductions` has closed the object, nothing precedes it and its counter is still 1. -/
theorem numPredecessors_ne_of_repeated_concurrent :
    ¬ ∀ S, Lib.Reach step (fun _ ev => ValidSubmit ev) init S →
      (∀ x, S.dom.Live x →
        (S.dom.obj x).numPredecessors = S.dom.predCount x + dummy S.dom x) ∧
      ∀ x, S.dom.Live x → (∀ u, ¬ S.dom.Edge u x) → dummy S.dom x = 0 → Ready S.dom x := by
  intro hall
  obtain ⟨S, hS, hp⟩ := Lib.exists_reach_of_run step ValidSubmit init
    [.submit [(1, .concurrentAccess), (1, .concurrentAccess)], .finish 0,
      .finalizeAllReductions [1]] (by decide)
    (fun S => decide (S.dom.Live 1 ∧ (S.dom.obj 1).numPredecessors = 1 ∧ S.dom.predCount 1 = 0 ∧
      dummy S.dom 1 = 0)) (by decide)
  obtain ⟨hlive, hnum, hpred, hdummy⟩ := of_decide_eq_true hp
  have := (hall S hS).1 1 hlive
  rw [hnum, hpred, hdummy] at this
  exact absurd this (by decide)

end

end Plain

end OmpSs.Deps
