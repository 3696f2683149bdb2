import OmpSs.Deps.TaskGraph
import OmpSs.Deps.PlainSubmit

/-!
# Conflict safety of the plain domain

With `in`, `out` and `inout` accesses only, the statuses of the plain domain are trackers of one
address each (`tracker`), and `Lib.Safe` is an invariant of the domain: of two tasks that share an
address, one of them writing, the later one comes after the earlier one in the dependence graph as
long as the earlier one is unfinished. An `out` access does not look at the last writer when the
status has readers; the readers come after the last writer (`ConflictInv.readAfter`), so the order
is there all the same.
-/

namespace OmpSs.Deps.Plain

open DepState Relation

/-- The statuses as trackers: each address has its own. -/
def tracker (s : State) : Lib.Tracker Nat Nat Nat where
  cov k a := k = a
  lastWriter k := (s.statusAt k).lastWriter
  readers k u := u ∈ (s.statusAt k).versionReaders

/-- The task `u` accesses the address `a`, writing or not. -/
def accOf (A : Nat → Accesses) (u a : Nat) (writes : Bool) : Prop :=
  ∃ ty, (a, ty) ∈ A u ∧ ty.output = writes

/-- The invariant of the plain domain without commutation objects; `A` are the accesses processed so
far. -/
structure ConflictInv (s : State) (g : Nat → Int) (A : Nat → Accesses) : Prop where
  graph : s.TaskGraph g
  keys : ∀ a, a ∉ s.map.keys → s.statusAt a = {}
  closed : ∀ a, (s.statusAt a).commDO = none
  writer : ∀ a w, (s.statusAt a).lastWriter = some w → w < s.lastDepObjId
  readAfter : ∀ a w r, (s.statusAt a).lastWriter = some w → s.Live w →
    r ∈ (s.statusAt a).versionReaders → ReflTransGen s.Edge w r
  safe : Lib.Safe s.Edge s.Live (accOf A) (tracker s)
  fresh : ∀ u, s.lastDepObjId ≤ u → A u = []

section
variable {s s' : State} {g : Nat → Int} {A : Nat → Accesses} {a b t u x : Nat} {ty : AccessType}
  {P : Nat → Prop}

/-- The accesses of `t` with one more. -/
def withAccess (A : Nat → Accesses) (t a : Nat) (ty : AccessType) : Nat → Accesses :=
  fun u => if u = t then A u ++ [(a, ty)] else A u

theorem accOf_withAccess {writes : Bool} (h : accOf (withAccess A t a ty) u b writes) :
    accOf A u b writes ∨ u = t ∧ b = a ∧ writes = ty.output := by
  obtain ⟨k, hk, rfl⟩ := h
  unfold withAccess at hk
  split at hk
  · next hut =>
    rcases List.mem_append.1 hk with hk | hk
    · exact .inl ⟨k, hk, rfl⟩
    · cases List.mem_singleton.1 hk
      exact .inr ⟨hut, rfl, rfl⟩
  · exact .inl ⟨k, hk, rfl⟩

theorem ConflictInv.le_current {writes : Bool} (h : ConflictInv s g A) (ht : Current t s)
    (hu : accOf A u b writes) : u ≤ t := by
  obtain ⟨k, hk, -⟩ := hu
  by_contra hlt
  rw [h.fresh u (by rw [ht.newest]; omega)] at hk
  cases hk

theorem ConflictInv.fresh_withAccess (h : ConflictInv s g A) (ht : Current t s)
    (hu : s.lastDepObjId ≤ u) : withAccess A t a ty u = [] := by
  have hne : u ≠ t := by
    have := ht.newest
    omega
  rw [withAccess, if_neg hne]
  exact h.fresh u hu

/-! ## Accesses -/

/-- An access that the task's own write has made superfluous: whatever else the address is recorded
for came before the task. -/
theorem ConflictInv.skipped (h : ConflictInv s g A) (ht : Current t s)
    (hlw : (s.statusAt a).lastWriter = some t) : ConflictInv s g (withAccess A t a ty) where
  graph := h.graph
  keys := h.keys
  closed := h.closed
  writer := h.writer
  readAfter := h.readAfter
  safe := by
    refine h.safe.access (R := fun x => x = a) (fun _ _ he => he) (fun _ => Iff.rfl) ht.live
      (fun u x _ => h.le_current ht) (fun u x wu hu _ hx _ hcov => ?_) (fun _ _ _ _ hcov => hcov)
      (fun x hx => Lib.Covers.of_writer (k := a) hx.symm hlw .refl) fun u x _ => accOf_withAccess
    subst hx
    obtain ⟨k, rfl, ⟨w, hw, huw⟩ | ⟨-, hr⟩⟩ := hcov
    · cases hlw.symm.trans hw
      exact huw
    · -- a reader recorded after the task's write is the task itself
      rcases ReflTransGen.cases_head (h.readAfter k t u hlw ht.live hr) with htu | ⟨v, hv, -⟩
      · rw [htu]
      · exact absurd hv (ht.source v)
  fresh _ hu := h.fresh_withAccess ht hu

/-- A write to `a` after which everything recorded there comes before the task. -/
theorem ConflictInv.write (h : ConflictInv s g A) (ht : Current t s) (hgrown : Grown t P s s')
    (hkeys : ∀ b, b ∈ s'.map.keys ↔ b ∈ s.map.keys ∨ b = a)
    (hst : ∀ b, s'.statusAt b =
      if b = a then (s.statusAt a).flushReaders.setLastWriter t else s.statusAt b)
    (hreaders : ∀ r ∈ (s.statusAt a).versionReaders, P r)
    (hwriter : ∀ w, (s.statusAt a).lastWriter = some w →
      P w ∨ (s.statusAt a).versionReaders ≠ []) :
    ConflictInv s' g (withAccess A t a ty) := by
  have hmono : ∀ u v, s.Edge u v → s'.Edge u v := fun u v => hgrown.mono
  -- what the status of `a` covers comes before the task
  have hreach : ∀ u wu, s.Live u → Lib.Covers (tracker s) s.Edge u a wu →
      ReflTransGen s'.Edge u t := by
    rintro u wu hu ⟨k, rfl, ⟨w, hw, huw⟩ | ⟨-, hr⟩⟩
    · have hlw := h.graph.live_of_path hu huw
      have huw' := ReflTransGen.mono hmono _ _ huw
      rcases hwriter w hw with hP | hne
      · exact huw'.trans (hgrown.reach hlw hP)
      · obtain ⟨r, hr⟩ := List.exists_mem_of_ne_nil _ hne
        have hwr := h.readAfter k w r hw hlw hr
        exact huw'.trans ((ReflTransGen.mono hmono _ _ hwr).trans
          (hgrown.reach (h.graph.live_of_path hlw hwr) (hreaders r hr)))
    · exact hgrown.reach hu (hreaders u hr)
  have hself : ∀ wu u, ReflTransGen s'.Edge u t → Lib.Covers (tracker s') s'.Edge u a wu :=
    fun wu u hut => Lib.Covers.of_writer (k := a) rfl (by
      show (s'.statusAt a).lastWriter = some t
      rw [hst, if_pos rfl]; rfl) hut
  refine ⟨hgrown.graph g ht.live h.graph, fun b hb => ?_, fun b => ?_, fun b w hw => ?_,
    fun b w r hw _ hr => ?_, ?_, fun u hu => h.fresh_withAccess ht (hgrown.size ▸ hu)⟩
  · rw [hkeys] at hb
    push Not at hb
    rw [hst, if_neg hb.2]
    exact h.keys b hb.1
  · rw [hst]
    split
    · exact h.closed a
    · exact h.closed b
  · rw [hgrown.size]
    rw [hst] at hw
    split at hw
    · cases hw
      exact ht.live.1
    · exact h.writer b w hw
  · rw [hst] at hw hr
    split at hw
    · next hb => rw [if_pos hb] at hr; cases hr
    · next hb =>
      rw [if_neg hb] at hr
      exact ReflTransGen.mono hmono _ _ (h.readAfter b w r hw ((hgrown.live w).1 ‹_›) hr)
  · refine h.safe.access (R := fun x => x = a) hmono hgrown.live ht.live
      (fun u x _ => h.le_current ht) (fun u x wu hu _ hx _ hcov => hreach u wu hu (hx ▸ hcov))
      (fun u x wu hu hcov => ?_) (fun x hx => hx ▸ hself ty.output t .refl) fun u x _ =>
        accOf_withAccess
    by_cases hx : x = a
    · subst hx
      exact hself wu u (hreach u wu hu hcov)
    · obtain ⟨k, rfl, ⟨w, hw, huw⟩ | ⟨hwu, hr⟩⟩ := hcov
      · refine Lib.Covers.of_writer (k := k) rfl ?_ (ReflTransGen.mono hmono _ _ huw)
        show (s'.statusAt k).lastWriter = some w
        rw [hst, if_neg hx]
        exact hw
      · subst hwu
        refine Lib.Covers.of_reader (k := k) rfl ?_
        show u ∈ (s'.statusAt k).versionReaders
        rw [hst, if_neg hx]
        exact hr

/-- A read of `a` after which its last writer comes before the task. -/
theorem ConflictInv.read (h : ConflictInv s g A) (ht : Current t s) (hgrown : Grown t P s s')
    (hkeys : ∀ b, b ∈ s'.map.keys ↔ b ∈ s.map.keys ∨ b = a)
    (hst : ∀ b, s'.statusAt b = if b = a then (s.statusAt a).setReader t else s.statusAt b)
    (hwriter : ∀ w, (s.statusAt a).lastWriter = some w → P w) (hin : ty.output = false) :
    ConflictInv s' g (withAccess A t a ty) := by
  have hmono : ∀ u v, s.Edge u v → s'.Edge u v := fun u v => hgrown.mono
  have hlw : ∀ b, (s'.statusAt b).lastWriter = (s.statusAt b).lastWriter := by
    intro b
    rw [hst]
    split
    · next hb => rw [hb]; rfl
    · rfl
  have hrd : ∀ b r, r ∈ (s'.statusAt b).versionReaders ↔
      r ∈ (s.statusAt b).versionReaders ∨ b = a ∧ r = t := by
    intro b r
    rw [hst]
    split
    · next hb => simp [hb, TrackableObject.setReader]
    · next hb => simp [hb]
  refine ⟨hgrown.graph g ht.live h.graph, fun b hb => ?_, fun b => ?_,
    fun b w hw => hgrown.size ▸ h.writer b w (hlw b ▸ hw), fun b w r hw hlive hr => ?_, ?_,
    fun u hu => h.fresh_withAccess ht (hgrown.size ▸ hu)⟩
  · rw [hkeys] at hb
    push Not at hb
    rw [hst, if_neg hb.2]
    exact h.keys b hb.1
  · rw [hst]
    split
    · exact h.closed a
    · exact h.closed b
  · rw [hlw] at hw
    rw [hgrown.live] at hlive
    rcases (hrd b r).1 hr with hr | ⟨rfl, rfl⟩
    · exact ReflTransGen.mono hmono _ _ (h.readAfter b w r hw hlive hr)
    · exact hgrown.reach hlive (hwriter w hw)
  · refine h.safe.access (R := fun x => x = a) hmono hgrown.live ht.live
      (fun u x _ => h.le_current ht) (fun u x wu hu _ hx hconf hcov => ?_)
      (fun u x wu hu hcov => ?_) (fun x hx => ?_) fun u x _ => accOf_withAccess
    · subst hx
      rw [hin, Bool.or_false] at hconf
      obtain ⟨k, rfl, ⟨w, hw, huw⟩ | ⟨hwu, -⟩⟩ := hcov
      · exact (ReflTransGen.mono hmono _ _ huw).trans
          (hgrown.reach (h.graph.live_of_path hu huw) (hwriter w hw))
      · rw [hconf] at hwu; cases hwu
    · obtain ⟨k, rfl, ⟨w, hw, huw⟩ | ⟨hwu, hr⟩⟩ := hcov
      · exact Lib.Covers.of_writer (k := k) rfl ((hlw k).trans hw) (ReflTransGen.mono hmono _ _ huw)
      · subst hwu
        exact Lib.Covers.of_reader (k := k) rfl ((hrd k u).2 (.inl hr))
    · rw [hin, hx]
      exact Lib.Covers.of_reader (k := a) rfl ((hrd a t).2 (.inr ⟨rfl, rfl⟩))

theorem ConflictInv.lookup (h : ConflictInv s g A) : ConflictInv (lookup s a) g A := by
  have hst : ∀ b, (Plain.lookup s a).statusAt b = s.statusAt b := fun b => statusAt_lookup h.keys
  have htracker : tracker (Plain.lookup s a) = tracker s := by
    simp only [tracker, hst]
  refine ⟨h.graph.of_sameGraph (sameGraph_map _) fun y => ⟨rfl, rfl, rfl⟩, fun b hb => ?_,
    fun b => by rw [hst]; exact h.closed b, fun b w hw => h.writer b w (hst b ▸ hw),
    fun b w r hw hlive hr => ?_, htracker ▸ h.safe, h.fresh⟩
  · rw [hst]
    exact h.keys b fun hb' => hb (mem_keys_lookup.2 (.inl hb'))
  · rw [hst] at hw hr
    exact h.readAfter b w r hw hlive hr

/-- A write to the status of `a` after the objects of a list. -/
theorem setAsWriter_dependAll_spec (l : List Nat) (hw : (s.obj t).waits = false) :
    Grown t (· ∈ l) s ((s.dependAll t l).setAsWriter t a a) ∧
      ((s.dependAll t l).setAsWriter t a a).map.keys = s.map.keys ∧
      ∀ b, ((s.dependAll t l).setAsWriter t a a).statusAt b =
        if b = a then (s.statusAt a).flushReaders.setLastWriter t else s.statusAt b := by
  have hgrown := grown_dependAll (s := s) (t := t) l
  have hd := depended_dependAll (s := s) (x := t) l
  rw [setAsWriter_eq (hgrown.waits.trans hw)]
  refine ⟨?_, ?_, fun b => ?_⟩
  · have hobj : Grown t (fun _ => False) (s.dependAll t l) ((s.dependAll t l).modifyObj t fun o =>
        { o with outputObjects := o.outputObjects ++ [a] }) := grown_modifyObj fun _ => rfl
    exact ((hgrown.trans hobj).trans (grown_map _)).congr fun u => by simp
  · rw [modifyStatus_keys, modifyObj_map, hd.map]
  · rw [statusAt_modifyStatus]
    split
    · next hb => subst hb; rw [statusAt_modifyObj, hd.statusAt]
    · rw [statusAt_modifyObj, hd.statusAt]

theorem mem_keys_iff (ha : a ∈ s.map.keys) : b ∈ s.map.keys ↔ b ∈ s.map.keys ∨ b = a :=
  ⟨.inl, fun hb => hb.elim id fun hb => hb ▸ ha⟩

/-- An `inout` access, on a status that exists. -/
theorem ConflictInv.inoutAccess (h : ConflictInv s g A) (ty : AccessType) (ht : Current t s)
    (ha : a ∈ s.map.keys) :
    ConflictInv (s.submitDependableObjectInoutDataAccess t a a) g (withAccess A t a ty) ∧
      Current t (s.submitDependableObjectInoutDataAccess t a a) := by
  rw [inoutAccess_eq (h.closed a)]
  obtain ⟨hgrown, hkeys, hst⟩ := setAsWriter_dependAll_spec
    ((s.statusAt a).lastWriter.toList ++ (s.statusAt a).versionReaders) ht.waits
  refine ⟨h.write ht hgrown (fun b => by rw [hkeys]; exact mem_keys_iff ha) hst
    (fun r hr => List.mem_append_right _ hr) (fun w hw => .inl (List.mem_append_left _ ?_)),
    hgrown.current ht⟩
  rw [hw]
  simp

/-- An `out` access, on a status that exists: the last writer is looked at only if there are no
readers. -/
theorem ConflictInv.outputAccess (h : ConflictInv s g A) (ty : AccessType) (ht : Current t s)
    (ha : a ∈ s.map.keys) :
    ConflictInv (s.submitDependableObjectOutputDataAccess t a a) g (withAccess A t a ty) ∧
      Current t (s.submitDependableObjectOutputDataAccess t a a) := by
  rw [outputAccess_eq (h.closed a)]
  have hread : (s.statusAt a).hasReaders = true ↔ (s.statusAt a).versionReaders ≠ [] := by
    simp [TrackableObject.hasReaders]
  obtain ⟨hgrown, hkeys, hst⟩ := setAsWriter_dependAll_spec (if (s.statusAt a).hasReaders then
    (s.statusAt a).versionReaders else (s.statusAt a).lastWriter.toList) ht.waits
  refine ⟨h.write ht hgrown (fun b => by rw [hkeys]; exact mem_keys_iff ha) hst (fun r hr => ?_)
    (fun w hw => ?_), hgrown.current ht⟩
  · rw [if_pos (hread.2 (List.ne_nil_of_mem hr))]
    exact hr
  · by_cases hne : (s.statusAt a).hasReaders = true
    · exact .inr (hread.1 hne)
    · rw [if_neg hne, hw]
      exact .inl (by simp)

/-- An `in` access, on a status that exists. -/
theorem ConflictInv.inputAccess (h : ConflictInv s g A) (ty : AccessType) (ht : Current t s)
    (ha : a ∈ s.map.keys) (hin : ty.output = false) :
    ConflictInv (s.submitDependableObjectInputDataAccess t a) g (withAccess A t a ty) ∧
      Current t (s.submitDependableObjectInputDataAccess t a) := by
  have hgrown₁ := grown_dependAll (s := s) (t := t) (s.statusAt a).lastWriter.toList
  have hd := depended_dependAll (s := s) (x := t) (s.statusAt a).lastWriter.toList
  rw [inputAccess_eq (h.closed a) ht.waits]
  have hgrown := hgrown₁.trans (grown_map (t := t)
    (((s.dependAll t (s.statusAt a).lastWriter.toList).addAsReader t a).map))
  refine ⟨h.read ht hgrown (fun b => ?_) (fun b => ?_) (fun w hw => .inl ?_) hin, hgrown.current ht⟩
  · show b ∈ (s.dependAll t (s.statusAt a).lastWriter.toList).map.keys ↔ _
    rw [hd.map]
    exact mem_keys_iff ha
  · refine (statusAt_modifyStatus (s := s.dependAll t (s.statusAt a).lastWriter.toList) _).trans ?_
    rw [hd.statusAt]
    split
    · next hb => rw [hb]
    · rfl
  · rw [hw]
    simp

/-- The invariant does not depend on counters and targets beyond `TaskGraph`. -/
theorem ConflictInv.of_sameGraph {g' : Nat → Int} (h : ConflictInv s g A) (hg : SameGraph s s')
    (hmap : s'.map = s.map) (hgraph : s'.TaskGraph g') : ConflictInv s' g' A := by
  have hE : s'.Edge = s.Edge := hg.edge_eq
  have hL : s'.Live = s.Live := hg.live_eq
  have hst : ∀ b, s'.statusAt b = s.statusAt b := fun b => by
    unfold statusAt
    rw [hmap]
  have htracker : tracker s' = tracker s := by simp only [tracker, hst]
  refine ⟨hgraph, fun b hb => ?_, fun b => ?_, fun b w hw => hg.size ▸ h.writer b w (hst b ▸ hw),
    fun b w r hw hlive hr => ?_, ?_, fun u hu => ?_⟩
  · rw [hst]
    exact h.keys b (hmap ▸ hb)
  · rw [hst]
    exact h.closed b
  · rw [hst] at hw hr
    rw [hE]
    exact h.readAfter b w r hw (hL ▸ hlive) hr
  · rw [hE, hL, htracker]
    exact h.safe
  · exact h.fresh u (hg.size ▸ hu)

/-- Recording a read target leaves the invariant alone. -/
theorem ConflictInv.addReadTarget (h : ConflictInv s g A) (ht : Current t s) :
    ConflictInv (s.addReadTarget t a) g A ∧ Current t (s.addReadTarget t a) := by
  have hgrown : Grown t (fun _ => False) s (s.addReadTarget t a) := grown_modifyObj fun _ => rfl
  exact ⟨h.of_sameGraph (sameGraph_modifyObj rfl rfl) rfl (hgrown.graph g ht.live h.graph),
    hgrown.current ht⟩

/-- **One access of the task in progress keeps the invariant.** -/
theorem ConflictInv.submitDependableObjectDataAccess (h : ConflictInv s g A) (ht : Current t s)
    (hty : ty.Plain) :
    ∃ s', submitDependableObjectDataAccess s t a ty = .ok s' ∧
      ConflictInv s' g (withAccess A t a ty) ∧ Current t s' := by
  have h₀ := h.lookup (a := a)
  have ha : a ∈ (Plain.lookup s a).map.keys := mem_keys_lookup.2 (.inr rfl)
  have ht₀ : Current t (Plain.lookup s a) := (grown_map _).current ht
  unfold Plain.submitDependableObjectDataAccess
  by_cases hskip : ((Plain.lookup s a).statusAt a).lastWriter = some t
  · exact ⟨Plain.lookup s a, if_pos hskip, h₀.skipped ht₀ hskip, ht₀⟩
  dsimp only
  rw [if_neg (by exact hskip)]
  rcases hty with rfl | rfl | rfl
  · obtain ⟨h₁, ht₁⟩ := h₀.inputAccess .inAccess ht₀ ha rfl
    obtain ⟨h₂, ht₂⟩ := h₁.addReadTarget (a := a) ht₁
    refine ⟨_, ?_, h₂, ht₂⟩
    exact congrArg Except.ok (if_neg fun hw => Bool.false_ne_true (ht₁.waits.symm.trans hw))
  · obtain ⟨h₁, ht₁⟩ := h₀.outputAccess .outAccess ht₀ ha
    exact ⟨_, rfl, h₁, ht₁⟩
  · obtain ⟨h₁, ht₁⟩ := h₀.inoutAccess .inoutAccess ht₀ ha
    obtain ⟨h₂, ht₂⟩ := h₁.addReadTarget (a := a) ht₁
    refine ⟨_, ?_, h₂, ht₂⟩
    exact congrArg Except.ok (if_neg fun hw => Bool.false_ne_true (ht₁.waits.symm.trans hw))

/-! ## Submissions and completions -/

/-- The accesses of `t` with a list of further ones. -/
def withAccesses (A : Nat → Accesses) (t : Nat) (accesses : Accesses) : Nat → Accesses :=
  fun u => if u = t then A u ++ accesses else A u

theorem ConflictInv.submitAccesses {accesses : Accesses} (h : ConflictInv s g A)
    (ht : Current t s) (hplain : ∀ p ∈ accesses, p.1 ≠ 0 ∧ p.2.Plain) :
    ∃ s', submitAccesses t accesses s = .ok s' ∧
      ConflictInv s' g (withAccesses A t accesses) ∧ Current t s' := by
  induction accesses generalizing s A with
  | nil =>
    have hA : withAccesses A t [] = A := by
      funext u
      simp [withAccesses]
    exact ⟨s, rfl, hA.symm ▸ h, ht⟩
  | cons p accesses ih =>
    obtain ⟨a, ty⟩ := p
    obtain ⟨ha, hty⟩ := hplain (a, ty) (by simp)
    obtain ⟨s₁, hok₁, h₁, ht₁⟩ := h.submitDependableObjectDataAccess (a := a) ht hty
    obtain ⟨s', hok, h', ht'⟩ := ih h₁ ht₁ fun p hp => hplain p (by simp [hp])
    have hA : withAccesses (withAccess A t a ty) t accesses =
        withAccesses A t ((a, ty) :: accesses) := by
      funext u
      simp only [withAccesses, withAccess]
      split <;> simp
    refine ⟨s', ?_, hA ▸ h', ht'⟩
    simp only [Plain.submitAccesses, ha, if_false, hok₁, hok]

/-- A new object that has not accessed anything yet. -/
theorem ConflictInv.enter (h : ConflictInv s (fun _ => 0) A) :
    ConflictInv ((s.newObj {}).increasePredecessors s.lastDepObjId)
      (fun y => if y = s.lastDepObjId then 1 else 0) A := by
  obtain ⟨hgraph, hcur, hlive, hedge⟩ := h.graph.start
  have hnone : ∀ u x writes, s.lastDepObjId ≤ u → ¬ accOf A u x writes := by
    rintro u x writes hu ⟨k, hk, -⟩
    rw [h.fresh u hu] at hk
    cases hk
  refine ⟨hgraph, h.keys, h.closed, fun b w hw => ?_, fun b w r hw hlw hr => ?_, ?_, fun u hu => ?_⟩
  · rw [hcur.newest]
    exact Nat.lt_succ_of_lt (h.writer b w hw)
  · rcases (hlive w).1 hlw with hlw | rfl
    · exact ReflTransGen.mono (fun u v huv => (hedge u v).2 huv) _ _ (h.readAfter b w r hw hlw hr)
    · exact absurd (h.writer b _ hw) (lt_irrefl _)
  · exact h.safe.start (fun u v huv => (hedge u v).2 huv)
      (fun u hu => ((hlive u).1 hu).imp_right fun hu x w => hnone u x w hu.symm.le)
      fun u hu => (hlive u).2 (.inl hu)
  · rw [hcur.newest] at hu
    exact h.fresh u (by omega)

theorem ConflictInv.submitDependableObject {accesses : Accesses} (h : ConflictInv s (fun _ => 0) A)
    (hplain : ∀ p ∈ accesses, p.1 ≠ 0 ∧ p.2.Plain) :
    ∃ s', submitDependableObject s false accesses = .ok s' ∧
      ConflictInv s' (fun _ => 0) (withAccesses A s.lastDepObjId accesses) := by
  obtain ⟨-, hcur, -, -⟩ := h.graph.start
  obtain ⟨s₂, hok, h₂, -⟩ := h.enter.submitAccesses hcur hplain
  obtain ⟨hgraph', hsame, hmap⟩ := h₂.graph.stop
  refine ⟨_, ?_, h₂.of_sameGraph hsame hmap hgraph'⟩
  unfold Plain.submitDependableObject
  dsimp only
  rw [hok]

theorem retire_lastWriter {w : Nat} : ((retire s x).statusAt b).lastWriter = some w →
    (s.statusAt b).lastWriter = some w := by
  rw [retire_statusAt]
  simp only [TrackableObject.deleteLastWriter, TrackableObject.deleteReader]
  split_ifs <;> simp

theorem retire_lastWriter_of_ne {w : Nat} (hw : (s.statusAt b).lastWriter = some w) (hne : w ≠ x) :
    ((retire s x).statusAt b).lastWriter = some w := by
  rw [retire_statusAt]
  simp only [TrackableObject.deleteLastWriter, TrackableObject.deleteReader]
  split_ifs <;> simp_all

theorem retire_readers {r : Nat} (hr : r ∈ ((retire s x).statusAt b).versionReaders) :
    r ∈ (s.statusAt b).versionReaders := by
  rw [retire_statusAt] at hr
  simp only [TrackableObject.deleteLastWriter, TrackableObject.deleteReader] at hr
  split_ifs at hr <;> simp_all

theorem retire_readers_of_ne {r : Nat} (hr : r ∈ (s.statusAt b).versionReaders) (hne : r ≠ x) :
    r ∈ ((retire s x).statusAt b).versionReaders := by
  rw [retire_statusAt]
  simp only [TrackableObject.deleteLastWriter, TrackableObject.deleteReader]
  split_ifs <;> simp_all

/-- The completion of a task whose counter is 0. -/
theorem ConflictInv.finish (h : ConflictInv s (fun _ => 0) A) (hx : s.Live x)
    (hnum : (s.obj x).numPredecessors = 0) : ConflictInv (s.finish x) (fun _ => 0) A := by
  obtain ⟨hgraph, hcnt⟩ := h.graph.finish hx hnum
  have hsource := h.graph.not_edge hx hnum
  have hst : ∀ b, (s.finish x).statusAt b = (retire s x).statusAt b := fun b => by
    unfold statusAt
    rw [hcnt.map]
  have hE : ∀ u v, s.Edge u v → u ≠ x → (s.finish x).Edge u v := fun u v huv hu =>
    (h.graph.finish_edge hx hnum).2 ⟨huv, hu⟩
  refine ⟨hgraph, fun b hb => ?_, fun b => ?_, fun b w hw => ?_, fun b w r hw hlive hr => ?_, ?_,
    fun u hu => h.fresh u (by rw [← show (s.finish x).lastDepObjId = s.lastDepObjId from hcnt.size]
                              exact hu)⟩
  · rw [hcnt.map, retire_keys] at hb
    rw [hst, retire_statusAt, if_neg hb]
    exact h.keys b hb
  · rw [hst, retire_statusAt]
    simp only [TrackableObject.deleteLastWriter, TrackableObject.deleteReader]
    split_ifs <;> exact h.closed b
  · rw [hst] at hw
    rw [hcnt.size]
    exact h.writer b w (retire_lastWriter hw)
  · rw [hst] at hw hr
    obtain ⟨hlive, hne⟩ := (h.graph.finish_live hx hnum).1 hlive
    exact Lib.reflTransGen_avoid hsource hE
      (h.readAfter b w r (retire_lastWriter hw) hlive (retire_readers hr)) hne
  · refine h.safe.finish hsource hE (fun u => h.graph.finish_live hx hnum) (fun k a hk => hk)
      (fun k w hw hne => ?_) fun k u hu hne => ?_
    · exact (congrArg _ (hst k)).trans (retire_lastWriter_of_ne hw hne)
    · show u ∈ ((s.finish x).statusAt k).versionReaders
      rw [hst]
      exact retire_readers_of_ne hu hne

end

/-! ## Runs -/

/-- The submissions of tasks with `in`, `out` and `inout` accesses to non-NULL addresses, and the
completions. -/
def PlainSubmit : Event → Prop
  | .submit accesses => ∀ p ∈ accesses, p.1 ≠ 0 ∧ p.2.Plain
  | .finish _ => True
  | .finalizeAllReductions _ => False

instance : DecidablePred PlainSubmit
  | .submit accesses => inferInstanceAs (Decidable (∀ p ∈ accesses, p.1 ≠ 0 ∧ p.2.Plain))
  | .finish _ => inferInstanceAs (Decidable True)
  | .finalizeAllReductions _ => inferInstanceAs (Decidable False)

section
variable {S S' : Sys} {t u : Nat}

theorem conflictInv_init : ConflictInv init.dom (fun _ => 0) init.accesses :=
  ⟨⟨⟨nofun, nofun, nofun, nofun⟩, nofun, fun _ => rfl⟩, fun _ _ => rfl, fun _ => rfl, nofun, nofun,
    ⟨nofun, nofun⟩, fun _ _ => rfl⟩

theorem ConflictInv.step (h : ConflictInv S.dom (fun _ => 0) S.accesses) {ev : Event}
    (hok : PlainSubmit ev) (hs : step S ev = some S') :
    ConflictInv S'.dom (fun _ => 0) S'.accesses := by
  cases ev with
  | submit accesses =>
    obtain ⟨s', hok', h'⟩ := h.submitDependableObject hok
    simp only [Plain.step, hok'] at hs
    cases hs
    have hA : (fun x => if x = S.dom.lastDepObjId then accesses else S.accesses x) =
        withAccesses S.accesses S.dom.lastDepObjId accesses := by
      funext x
      unfold withAccesses
      split
      · next hx => rw [h.fresh x hx.symm.le, List.nil_append]
      · rfl
    rw [hA]
    exact h'
  | finish x =>
    simp only [Plain.step] at hs
    split at hs
    · next hready =>
      cases hs
      exact h.finish ⟨hready.1.1, hready.2.2.2⟩ hready.2.2.1
    · cases hs
  | finalizeAllReductions order => cases hok

/-- The tasks `u` and `t` share an address, and at least one of the two accesses writes. -/
def Conflict (S : Sys) (u t : Nat) : Prop :=
  ∃ a ku kt, (a, ku) ∈ S.accesses u ∧ (a, kt) ∈ S.accesses t ∧
    (ku.output = true ∨ kt.output = true)

/-- **Conflict safety of the plain domain.** In every state that submissions of `in`, `out` and
`inout` accesses and completions reach, a task whose counter is 0 has no unfinished earlier task
that it shares an address with, one of the two writing. -/
theorem finished_of_conflict_of_numPredecessors_eq_zero
    (h : Lib.Reach step (fun _ ev => PlainSubmit ev) init S) (hut : u < t)
    (ht : t < S.dom.lastDepObjId) (hconf : Conflict S u t)
    (hnum : (S.dom.obj t).numPredecessors = 0) : (S.dom.obj u).finished = true := by
  have hinv := h.invariant (I := fun S => ConflictInv S.dom (fun _ => 0) S.accesses)
    conflictInv_init fun _ _ _ h hok hs => h.step hok hs
  obtain ⟨a, ku, kt, hu, ht', hw⟩ := hconf
  exact hinv.graph.finished_of_conflict hinv.safe (hut.trans ht) hut ⟨ku, hu, rfl⟩ ⟨kt, ht', rfl⟩
    (by simpa using hw) hnum

/-- A run in which the second of two conflicting tasks becomes ready. -/
theorem finished_of_conflict_of_reader_after_writer :
    ∃ S, Lib.Reach step (fun _ ev => PlainSubmit ev) init S ∧ (S.dom.obj 2).numPredecessors = 0 ∧
      (S.dom.obj 1).finished = true := by
  obtain ⟨S, hS, hp⟩ := Lib.exists_reach_of_run step PlainSubmit init
    [.submit [(1, .outAccess), (2, .inAccess)], .submit [(1, .inAccess), (1, .inoutAccess)],
      .submit [(2, .inAccess), (1, .outAccess)], .finish 0, .finish 1] (by decide)
    (fun S => decide (2 < S.dom.lastDepObjId ∧ (1, .inAccess) ∈ S.accesses 1 ∧
      (1, .outAccess) ∈ S.accesses 2 ∧ (S.dom.obj 2).numPredecessors = 0)) (by decide)
  obtain ⟨h2, ha, hb, hnum⟩ := of_decide_eq_true hp
  exact ⟨S, hS, hnum, finished_of_conflict_of_numPredecessors_eq_zero hS (by decide) h2
    ⟨1, .inAccess, .outAccess, ha, hb, .inr rfl⟩ hnum⟩

end

end OmpSs.Deps.Plain
