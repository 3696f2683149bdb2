import OmpSs.Deps.CRegionsTables

/-!
# An access of the contiguous regions domain

The statuses are trackers of the bytes of their ranges (`tracker`). An access registers in the status of its
range (`ConflictInv.own`) and comes after what the statuses of the overlapping ranges record (`Before`), but
for what those of the task's earlier accesses record, which come before it already (`Listed`). An `out` access
does not look at the last writer of another range (`MissesWriter`).
-/

namespace OmpSs.Deps

/-- The byte at `x` is accessed. -/
def DataAccess.Contains (dep : DataAccess) (x : Nat) : Prop :=
  dep.depAddress ≤ x ∧ x < dep.depAddress + dep.size

namespace CRegions

open DepState Relation

/-! ## The invariant -/

/-- The statuses as trackers: each stands for the bytes of its range. -/
def tracker (s : State) : Lib.Tracker Nat Nat Nat where
  cov k x := ∃ r, s.map.range k = some r ∧ r.Contains x
  lastWriter k := (s.statusAt k).lastWriter
  readers k u := u ∈ (s.statusAt k).versionReaders

/-- The task `u` accesses the byte at `x`, writing or not. -/
def accOf (A : Nat → List DataAccess) (u x : Nat) (writes : Bool) : Prop :=
  ∃ d ∈ A u, d.Contains x ∧ d.flags.output = writes

/-- The invariant of the domain without commutation objects; `A` are the accesses processed so far. -/
structure ConflictInv (s : State) (g : Nat → Int) (A : Nat → List DataAccess) : Prop where
  graph : s.TaskGraph g
  tables : s.map.Tables
  closed : ∀ k, (s.statusAt k).commDO = none
  writer : ∀ k w, (s.statusAt k).lastWriter = some w → w < s.lastDepObjId
  readAfter : ∀ k w r, (s.statusAt k).lastWriter = some w → s.Live w →
    r ∈ (s.statusAt k).versionReaders → ReflTransGen s.Edge w r
  safe : Lib.Safe s.Edge s.Live (accOf A) (tracker s)
  fresh : ∀ u, s.lastDepObjId ≤ u → A u = []

/-- What the status records comes before the task; the readers only if the task writes. -/
structure Before (s : State) (t k : Nat) (writes : Bool) : Prop where
  lastWriter : ∀ w, (s.statusAt k).lastWriter = some w → s.Live w → ReflTransGen s.Edge w t
  readers : writes = true → ∀ r ∈ (s.statusAt k).versionReaders, s.Live r → ReflTransGen s.Edge r t

/-- A part of an access of the task in progress: nothing that comes before the task or that the statuses
cover is lost. -/
structure Advanced (t : Nat) (s s' : State) : Prop where
  grown : ∃ P, Grown t P s s'
  range : ∀ k, s'.map.range k = s.map.range k
  before : ∀ k writes, Before s t k writes → Before s' t k writes
  covers : ∀ u x writes, s.Live u → Lib.Covers (tracker s) s.Edge u x writes →
    Lib.Covers (tracker s') s'.Edge u x writes

section
variable {s s' s'' : State} {g : Nat → Int} {A : Nat → List DataAccess} {t u k x : Nat} {writes : Bool}
  {ty : AccessType} {o : TrackableObject}

theorem Advanced.trans (h : Advanced t s s') (h' : Advanced t s' s'') : Advanced t s s'' := by
  obtain ⟨P, hgrown⟩ := h.grown
  obtain ⟨Q, hgrown'⟩ := h'.grown
  exact ⟨⟨_, hgrown.trans hgrown'⟩, fun k => (h'.range k).trans (h.range k),
    fun k writes hb => h'.before k writes (h.before k writes hb),
    fun u x writes hu hcov => h'.covers u x writes ((hgrown.live u).2 hu) (h.covers u x writes hu hcov)⟩

theorem Advanced.refl : Advanced t s s :=
  ⟨⟨_, grown_map s.map⟩, fun _ => rfl, fun _ _ hb => hb, fun _ _ _ _ hcov => hcov⟩

theorem Advanced.current (h : Advanced t s s') (ht : Current t s) : Current t s' := by
  obtain ⟨P, hgrown⟩ := h.grown
  exact hgrown.current ht

/-- The tasks with accesses are no newer than the one in progress. -/
theorem ConflictInv.le_current (h : ConflictInv s g A) (ht : Current t s) (hu : accOf A u x writes) :
    u ≤ t := by
  obtain ⟨d, hd, -⟩ := hu
  by_contra hlt
  rw [h.fresh u (by rw [ht.newest]; omega)] at hd
  cases hd

/-- A part of an access keeps the order that is there. -/
theorem ConflictInv.safe_of_advanced (h : ConflictInv s g A) (ht : Current t s) (hadv : Advanced t s s') :
    Lib.Safe s'.Edge s'.Live (accOf A) (tracker s') := by
  obtain ⟨P, hgrown⟩ := hadv.grown
  have hself : ∀ x, False → Lib.Covers (tracker s') s'.Edge t x false := fun x hx => hx.elim
  exact h.safe.access (fun u v => hgrown.mono) hgrown.live ht.live (fun u x writes => h.le_current ht)
    (fun u x wu hu hut hx => hx.elim) (fun u x wu hu hcov => hadv.covers u x wu hu hcov) hself
    fun u x writes hacc => .inl hacc

/-! ## Dependences -/

/-- The task comes to depend on the objects of a list. -/
theorem ConflictInv.dependAll (h : ConflictInv s g A) (ht : Current t s) (l : List Nat) :
    ConflictInv (s.dependAll t l) g A ∧ Advanced t s (s.dependAll t l) ∧
      ∀ u ∈ l, s.Live u → ReflTransGen (s.dependAll t l).Edge u t := by
  have hgrown := grown_dependAll (s := s) (t := t) l
  have hd := depended_dependAll (s := s) (x := t) l
  have hmono : ∀ {u v}, ReflTransGen s.Edge u v → ReflTransGen (s.dependAll t l).Edge u v :=
    fun huv => ReflTransGen.mono (fun u v => hgrown.mono) _ _ huv
  have hadv : Advanced t s (s.dependAll t l) := by
    refine ⟨⟨_, hgrown⟩, fun k => by rw [hd.map], fun k writes hb => ⟨fun w hw hlive => ?_,
      fun hout r hr hlive => ?_⟩, fun u x writes hu hcov => ?_⟩
    · rw [hd.statusAt] at hw
      exact hmono (hb.lastWriter w hw ((hgrown.live w).1 hlive))
    · rw [hd.statusAt] at hr
      exact hmono (hb.readers hout r hr ((hgrown.live r).1 hlive))
    · obtain ⟨k, ⟨r, hr, hx⟩, hrec⟩ := hcov
      refine ⟨k, ⟨r, by rw [hd.map, hr], hx⟩, ?_⟩
      show (∃ w, ((s.dependAll t l).statusAt k).lastWriter = some w ∧ _) ∨ _ ∧ u ∈ _
      rw [hd.statusAt]
      exact hrec.imp_left fun ⟨w, hw, huw⟩ => ⟨w, hw, hmono huw⟩
  refine ⟨⟨h.graph.dependAll ht.live l, hd.map ▸ h.tables, fun k => ?_, fun k w hw => ?_,
    fun k w r hw hlive hr => ?_, h.safe_of_advanced ht hadv, fun u hu => h.fresh u (hgrown.size ▸ hu)⟩,
    hadv, fun u hu hlive => hgrown.reach hlive hu⟩
  · rw [hd.statusAt]
    exact h.closed k
  · rw [hd.statusAt] at hw
    rw [hgrown.size]
    exact h.writer k w hw
  · rw [hd.statusAt] at hw hr
    exact hmono (h.readAfter k w r hw ((hgrown.live w).1 hlive) hr)

/-! ## Registrations -/

/-- The status `o` records the task as well as the status of `k`: the task is one of the readers, or the last
writer after all that was recorded. -/
structure Recorded (s : State) (t k : Nat) (o : TrackableObject) : Prop where
  closed : o.commDO = none
  before : Before s t k false
  readers : ∀ r ∈ o.versionReaders, r ∈ (s.statusAt k).versionReaders ∨ r = t
  kept : o.lastWriter = (s.statusAt k).lastWriter ∧
      (∀ r ∈ (s.statusAt k).versionReaders, r ∈ o.versionReaders) ∨
    o.lastWriter = some t ∧ o.versionReaders = [] ∧ Before s t k true

theorem Recorded.lastWriter {w : Nat} (ho : Recorded s t k o) (hw : o.lastWriter = some w) :
    (s.statusAt k).lastWriter = some w ∨ w = t := by
  rcases ho.kept with ⟨hsame, -⟩ | ⟨hlw, -⟩
  · exact .inl (hsame ▸ hw)
  · exact .inr (Option.some.inj (hw.symm.trans hlw))

theorem statusAt_of_map (hmap : s'.map = StatusMap.setStatus s.map k o) (j : Nat) :
    s'.statusAt j = if j = k then o else s.statusAt j := by
  unfold statusAt
  rw [hmap]
  rfl

/-- A registration is a part of an access. -/
theorem Recorded.advanced (ho : Recorded s t k o) (h : ConflictInv s g A)
    (hgrown : Grown t (fun _ => False) s s') (hmap : s'.map = StatusMap.setStatus s.map k o) :
    Advanced t s s' := by
  have hst := statusAt_of_map hmap
  have hmono : ∀ {u v}, ReflTransGen s.Edge u v → ReflTransGen s'.Edge u v :=
    fun huv => ReflTransGen.mono (fun u v => hgrown.mono) _ _ huv
  have hrange : ∀ j, s'.map.range j = s.map.range j := fun j => by
    rw [hmap]
    rfl
  refine ⟨⟨_, hgrown⟩, hrange, fun j writes hb => ⟨fun w hw hlive => ?_,
    fun hout r hr hlive => ?_⟩, fun u x writes hu hcov => ?_⟩
  · rw [hst] at hw
    rw [hgrown.live] at hlive
    split at hw
    · next hj =>
      rcases ho.lastWriter hw with hw | rfl
      · exact hmono (ho.before.lastWriter w hw hlive)
      · exact .refl
    · exact hmono (hb.lastWriter w hw hlive)
  · rw [hst] at hr
    rw [hgrown.live] at hlive
    split at hr
    · next hj =>
      rcases ho.readers r hr with hr | rfl
      · exact hmono (hb.readers hout r (hj ▸ hr) hlive)
      · exact .refl
    · exact hmono (hb.readers hout r hr hlive)
  · obtain ⟨j, ⟨r, hr, hx⟩, hrec⟩ := hcov
    have hcov' : (tracker s').cov j x := ⟨r, (hrange j).trans hr, hx⟩
    by_cases hj : j = k
    · have hlw' : (s'.statusAt j).lastWriter = o.lastWriter := by rw [hst, if_pos hj]
      have hrd' : (s'.statusAt j).versionReaders = o.versionReaders := by rw [hst, if_pos hj]
      rcases ho.kept with ⟨hsame, hkeep⟩ | ⟨hlw, -, hb⟩
      · rcases hrec with ⟨w, hw, huw⟩ | ⟨rfl, hrd⟩
        · exact Lib.Covers.of_writer hcov' (hlw'.trans (hsame.trans (hj ▸ hw))) (hmono huw)
        · refine Lib.Covers.of_reader hcov' ?_
          show u ∈ (s'.statusAt j).versionReaders
          rw [hrd']
          exact hkeep u (hj ▸ hrd)
      · -- the task comes after all that the status recorded
        refine Lib.Covers.of_writer hcov' (hlw'.trans hlw) (hmono ?_)
        rcases hrec with ⟨w, hw, huw⟩ | ⟨-, hrd⟩
        · exact huw.trans (hb.lastWriter w (hj ▸ hw) (h.graph.live_of_path hu huw))
        · exact hb.readers rfl u (hj ▸ hrd) hu
    · have hsame : s'.statusAt j = s.statusAt j := by rw [hst, if_neg hj]
      refine ⟨j, hcov', ?_⟩
      show (∃ w, (s'.statusAt j).lastWriter = some w ∧ _) ∨ _ ∧ u ∈ (s'.statusAt j).versionReaders
      rw [hsame]
      exact hrec.imp_left fun ⟨w, hw, huw⟩ => ⟨w, hw, hmono huw⟩

/-- The tables do not depend on the statuses of the ranges. -/
theorem tables_setStatus {m : CRegionsMap} (h : m.Tables) (hk : m.range k ≠ none) :
    (StatusMap.setStatus m k o).Tables := by
  refine ⟨h.key, fun e he => ?_, h.cached, fun a ha => ?_⟩
  · obtain ⟨hsmall, hmid, hbig⟩ := h.holds e he
    exact ⟨hsmall, hmid, hbig⟩
  · have hne : a ≠ k := fun heq => hk (heq ▸ ha)
    show ite _ _ _ = _
    rw [if_neg hne]
    exact h.fresh a ha

/-- **A registration keeps the invariant.** -/
theorem ConflictInv.record (h : ConflictInv s g A) (ht : Current t s) (ho : Recorded s t k o)
    (hk : s.map.range k ≠ none) (hgrown : Grown t (fun _ => False) s s')
    (hmap : s'.map = StatusMap.setStatus s.map k o) : ConflictInv s' g A := by
  have hst := statusAt_of_map hmap
  refine ⟨hgrown.graph g ht.live h.graph, hmap ▸ tables_setStatus h.tables hk, fun j => ?_,
    fun j w hw => ?_, fun j w r hw hlive hr => ?_, h.safe_of_advanced ht (ho.advanced h hgrown hmap),
    fun u hu => h.fresh u (hgrown.size ▸ hu)⟩
  · rw [hst]
    split
    · exact ho.closed
    · exact h.closed j
  · rw [hst] at hw
    rw [hgrown.size]
    split at hw
    · rcases ho.lastWriter hw with hw | rfl
      · exact h.writer k w hw
      · exact ht.live.1
    · exact h.writer j w hw
  · rw [hst] at hw hr
    rw [hgrown.live] at hlive
    refine ReflTransGen.mono (fun u v => hgrown.mono) _ _ ?_
    split at hw
    · next hj =>
      rw [if_pos hj] at hr
      rcases ho.kept with ⟨hsame, -⟩ | ⟨-, hnil, -⟩
      · rw [hsame] at hw
        rcases ho.readers r hr with hr | rfl
        · exact h.readAfter k w r hw hlive hr
        · exact ho.before.lastWriter w hw hlive
      · rw [hnil] at hr
        cases hr
    · next hj =>
      rw [if_neg hj] at hr
      exact h.readAfter j w r hw hlive hr

/-- The task becomes the last writer of a status. -/
theorem setAsWriter_spec (r : DepsRegion) (hw : (s.obj t).waits = false) :
    Grown t (fun _ => False) s (s.setAsWriter t k r) ∧
      (s.setAsWriter t k r).map =
        StatusMap.setStatus s.map k ((s.statusAt k).flushReaders.setLastWriter t) := by
  rw [setAsWriter_of_not_waits hw]
  constructor
  · exact ((grown_map _).trans (grown_modifyObj (x := t) (f := fun o =>
      { o with outputObjects := o.outputObjects ++ [r] }) fun _ => rfl)).trans (grown_map _)
        |>.congr fun u => by simp
  · show CRegionsMap.mk _ _ _ _ _ = CRegionsMap.mk _ _ _ _ _
    congr 1
    funext j
    by_cases hj : j = k
    · simp [hj, modifyStatus, addWriteTarget, modifyObj, StatusMap.setStatus, StatusMap.status, statusAt]
    · simp [hj, modifyStatus, addWriteTarget, modifyObj, StatusMap.setStatus]

/-- What a part of an access leaves behind: the invariant, what was there before, the status `k` recorded
before the task, and the other statuses as they were. -/
structure Done (s : State) (g : Nat → Int) (A : Nat → List DataAccess) (t k : Nat) (writes : Bool)
    (s' : State) : Prop where
  inv : ConflictInv s' g A
  advanced : Advanced t s s'
  before : Before s' t k writes
  others : ∀ j, j ≠ k → s'.statusAt j = s.statusAt j

/-- The task comes to depend on the objects of a list, which comprise or follow all that a status records, and
writes the status. -/
theorem ConflictInv.write {l : List Nat} (r : DepsRegion) (h : ConflictInv s g A) (ht : Current t s)
    (hk : s.map.range k ≠ none) (hb : Before (s.dependAll t l) t k true) :
    Done s g A t k true ((s.dependAll t l).setAsWriter t k r) ∧
      (((s.dependAll t l).setAsWriter t k r).statusAt k).lastWriter = some t := by
  obtain ⟨h₁, hadv₁, -⟩ := h.dependAll ht l
  have ht₁ := hadv₁.current ht
  have hd := depended_dependAll (s := s) (x := t) l
  obtain ⟨hgrown, hmap⟩ := setAsWriter_spec (k := k) r ht₁.waits
  have ho : Recorded (s.dependAll t l) t k
      (((s.dependAll t l).statusAt k).flushReaders.setLastWriter t) :=
    ⟨h₁.closed k, ⟨hb.lastWriter, nofun⟩, nofun, .inr ⟨rfl, rfl, hb⟩⟩
  have hadv := ho.advanced h₁ hgrown hmap
  refine ⟨⟨h₁.record ht₁ ho (by rwa [hadv₁.range]) hgrown hmap, hadv₁.trans hadv, hadv.before k true hb,
    fun j hj => ?_⟩, ?_⟩
  · rw [statusAt_of_map hmap, if_neg hj, hd.statusAt]
  · rw [statusAt_of_map hmap, if_pos rfl]
    rfl

/-- The task comes to depend on the objects of a list, and is a reader of a status whose last writer comes
before it. -/
theorem ConflictInv.read {l : List Nat} {f : TrackableObject → TrackableObject} (h : ConflictInv s g A)
    (ht : Current t s) (hk : s.map.range k ≠ none) (hb : Before (s.dependAll t l) t k writes)
    (hf : ∀ o, (f o).commDO = o.commDO ∧ (f o).lastWriter = o.lastWriter ∧
      ∀ r, r ∈ (f o).versionReaders ↔ r ∈ o.versionReaders ∨ r = t) :
    Done s g A t k writes ((s.dependAll t l).modifyStatus k f) ∧
      t ∈ (((s.dependAll t l).modifyStatus k f).statusAt k).versionReaders := by
  obtain ⟨h₁, hadv₁, -⟩ := h.dependAll ht l
  have ht₁ := hadv₁.current ht
  have hd := depended_dependAll (s := s) (x := t) l
  obtain ⟨hcomm, hlw, hread⟩ := hf ((s.dependAll t l).statusAt k)
  have hmap : ((s.dependAll t l).modifyStatus k f).map =
      StatusMap.setStatus (s.dependAll t l).map k (f ((s.dependAll t l).statusAt k)) := rfl
  have ho : Recorded (s.dependAll t l) t k (f ((s.dependAll t l).statusAt k)) :=
    ⟨hcomm.trans (h₁.closed k), ⟨hb.lastWriter, nofun⟩, fun r hr => (hread r).1 hr,
      .inl ⟨hlw, fun r hr => (hread r).2 (.inl hr)⟩⟩
  have hadv := ho.advanced h₁ (grown_map _) hmap
  refine ⟨⟨h₁.record ht₁ ho (by rwa [hadv₁.range]) (grown_map _) hmap, hadv₁.trans hadv,
    hadv.before k writes hb, fun j hj => ?_⟩, ?_⟩
  · rw [statusAt_of_map hmap, if_neg hj, hd.statusAt]
  · rw [statusAt_of_map hmap, if_pos rfl]
    exact (hread t).2 (.inr rfl)

/-- What the objects of a list that the task depends on amount to: a last writer that is not in the list comes
before a reader that is. -/
theorem ConflictInv.before_dependAll {l : List Nat} (h : ConflictInv s g A) (ht : Current t s)
    (hlw : ∀ w, (s.statusAt k).lastWriter = some w →
      w ∈ l ∨ ∃ r ∈ (s.statusAt k).versionReaders, r ∈ l)
    (hrd : writes = true → ∀ r ∈ (s.statusAt k).versionReaders, r ∈ l ∨ r = t) :
    Before (s.dependAll t l) t k writes := by
  obtain ⟨-, hadv, hreach⟩ := h.dependAll ht l
  have hgrown := grown_dependAll (s := s) (t := t) l
  have hd := depended_dependAll (s := s) (x := t) l
  refine ⟨fun w hw hlive => ?_, fun hout r hr hlive => ?_⟩
  · rw [hd.statusAt] at hw
    rw [hgrown.live] at hlive
    rcases hlw w hw with hl | ⟨r, hr, hl⟩
    · exact hreach w hl hlive
    · have hwr := h.readAfter k w r hw hlive hr
      exact (ReflTransGen.mono (fun u v => hgrown.mono) _ _ hwr).trans
        (hreach r hl (h.graph.live_of_path hlive hwr))
  · rw [hd.statusAt] at hr
    rcases hrd hout r hr with hl | rfl
    · exact hreach r hl ((hgrown.live r).1 hlive)
    · exact .refl

/-! ## The status of the range -/

/-- An access of the kind `ty` to the status of its range. -/
def accessOwn (s : State) (x : Nat) (target : DepsRegion) (ty : AccessType) : State :=
  if ty.input && ty.output then s.submitDependableObjectInoutDataAccess x target.address target
  else if ty.input then s.submitDependableObjectInputDataAccess x target.address
  else s.submitDependableObjectOutputDataAccess x target.address target

theorem mem_lastWriter_toList {w : Nat} (hw : (s.statusAt k).lastWriter = some w) :
    w ∈ (s.statusAt k).lastWriter.toList := by
  simp [hw]

/-- The status of the range: the task comes after what it records, and is recorded. -/
theorem ConflictInv.own {r : DepsRegion} (h : ConflictInv s g A) (ht : Current t s)
    (hk : s.map.range r.address = some r) (hty : ty.Plain) :
    Done s g A t r.address ty.output (accessOwn s t r ty) ∧
      ∀ x, r.Contains x →
        Lib.Covers (tracker (accessOwn s t r ty)) (accessOwn s t r ty).Edge t x ty.output := by
  have hk' : s.map.range r.address ≠ none := by simp [hk]
  -- the bytes of the range are those of its status
  have hcov : ∀ {s'}, Advanced t s s' → ∀ x, r.Contains x → (tracker s').cov r.address x :=
    fun hadv x hx => ⟨r, (hadv.range _).trans hk, hx⟩
  rcases hty with rfl | rfl | rfl
  · have heq : accessOwn s t r .inAccess =
        (s.dependAll t (s.statusAt r.address).lastWriter.toList).modifyStatus r.address (·.setReader t) :=
      inputAccess_eq (h.closed _) ht.waits
    have hb : Before (s.dependAll t (s.statusAt r.address).lastWriter.toList) t r.address false :=
      h.before_dependAll ht (fun w hw => .inl (mem_lastWriter_toList hw)) nofun
    have hset : ∀ o : TrackableObject, (o.setReader t).commDO = o.commDO ∧
        (o.setReader t).lastWriter = o.lastWriter ∧
        ∀ u, u ∈ (o.setReader t).versionReaders ↔ u ∈ o.versionReaders ∨ u = t := fun o =>
      ⟨rfl, rfl, fun u => by simp [TrackableObject.setReader]⟩
    rw [heq]
    obtain ⟨hdone, hread⟩ := h.read ht hk' hb hset
    exact ⟨hdone, fun x hx => Lib.Covers.of_reader (hcov hdone.advanced x hx) hread⟩
  · have heq : accessOwn s t r .outAccess = _ := outputAccess_eq (h.closed _)
    have hb : Before (s.dependAll t (if (s.statusAt r.address).hasReaders then
        (s.statusAt r.address).versionReaders else (s.statusAt r.address).lastWriter.toList)) t r.address
        true := by
      refine h.before_dependAll ht (fun w hw => ?_) fun _ u hu => .inl ?_
      · -- with readers the last writer is not looked at
        by_cases hread : (s.statusAt r.address).hasReaders = true
        · have hne : (s.statusAt r.address).versionReaders ≠ [] := by
            simpa [TrackableObject.hasReaders] using hread
          obtain ⟨u, hu⟩ := List.exists_mem_of_ne_nil _ hne
          rw [if_pos hread]
          exact .inr ⟨u, hu, hu⟩
        · rw [if_neg hread]
          exact .inl (mem_lastWriter_toList hw)
      · have hne : (s.statusAt r.address).versionReaders ≠ [] := List.ne_nil_of_mem hu
        rw [if_pos (by simpa [TrackableObject.hasReaders] using hne)]
        exact hu
    rw [heq]
    obtain ⟨hdone, hwrite⟩ := h.write r ht hk' hb
    exact ⟨hdone, fun x hx => Lib.Covers.of_writer (hcov hdone.advanced x hx) hwrite .refl⟩
  · have heq : accessOwn s t r .inoutAccess = _ := inoutAccess_eq (h.closed _)
    have hb : Before (s.dependAll t ((s.statusAt r.address).lastWriter.toList ++
        (s.statusAt r.address).versionReaders)) t r.address true :=
      h.before_dependAll ht (fun w hw => .inl (List.mem_append_left _ (mem_lastWriter_toList hw)))
        fun _ u hu => .inl (List.mem_append_right _ hu)
    rw [heq]
    obtain ⟨hdone, hwrite⟩ := h.write r ht hk' hb
    exact ⟨hdone, fun x hx => Lib.Covers.of_writer (hcov hdone.advanced x hx) hwrite .refl⟩

/-! ## The other statuses -/

/-- The statuses in which the task has registered come before it as far as it knows. -/
def Listed (s : State) (t : Nat) (statusMap : Registered) : Prop :=
  ∀ k isWriter, statusMap k = some isWriter → s.map.range k ≠ none ∧ Before s t k isWriter

/-- An `out` access would have to look at the last writer of the status. -/
def MissesWriter (s : State) (ty : AccessType) (k : Nat) : Prop :=
  ty.input = false ∧ (s.statusAt k).lastWriter ≠ none ∧ (s.statusAt k).versionReaders = []

instance (s : State) (ty : AccessType) (k : Nat) : Decidable (MissesWriter s ty k) :=
  inferInstanceAs (Decidable (_ ∧ _ ∧ _))

/-- A task that was registered as a reader registers again, after the other readers. -/
theorem registerAgain_eq (hclosed : (s.statusAt k).commDO = none) (hw : (s.obj t).waits = false) :
    ((s.modifyStatus k (·.deleteReader t)).submitDependableObjectOutputNoWriteDataAccess t k
        ).submitDependableObjectInputDataAccess t k =
      (s.dependAll t (((s.statusAt k).deleteReader t).versionReaders ++
        (s.statusAt k).lastWriter.toList)).modifyStatus k (fun o => (o.deleteReader t).setReader t) := by
  have hst : (s.modifyStatus k (·.deleteReader t)).statusAt k = (s.statusAt k).deleteReader t := if_pos rfl
  have hmap : s.modifyStatus k (·.deleteReader t) =
      { s with map := StatusMap.setStatus s.map k ((s.statusAt k).deleteReader t) } := rfl
  have hd := depended_dependAll (s := s.modifyStatus k (·.deleteReader t)) (x := t)
    ((s.statusAt k).deleteReader t).versionReaders
  have hnoWrite : (s.modifyStatus k (·.deleteReader t)).submitDependableObjectOutputNoWriteDataAccess t k =
      (s.modifyStatus k (·.deleteReader t)).dependAll t ((s.statusAt k).deleteReader t).versionReaders := by
    unfold submitDependableObjectOutputNoWriteDataAccess
    rw [finalizeReduction_of_none (by rw [hst]; exact hclosed), dependOnReaders_eq, hst]
  rw [hnoWrite, inputAccess_eq (by rw [hd.statusAt, hst]; exact hclosed) ?_, hd.statusAt, hst]
  · have hfold : ∀ (s : State) l₁ l₂, (s.dependAll t l₁).dependAll t l₂ = s.dependAll t (l₁ ++ l₂) :=
      fun s l₁ l₂ => (List.foldl_append ..).symm
    have hd' := depended_dependAll (s := s) (x := t) (((s.statusAt k).deleteReader t).versionReaders ++
      (s.statusAt k).lastWriter.toList)
    rw [hfold, hmap, dependAll_map]
    unfold addAsReader modifyStatus
    rw [hd'.map]
    dsimp only
    congr 1
    refine congrArg (CRegionsMap.mk _ _ _ _) (funext fun j => ?_)
    by_cases hj : j = k
    · simp [hj, StatusMap.setStatus, StatusMap.status, statusAt]
    · simp [hj, StatusMap.setStatus]
  · rw [hd.obj t]
    exact hw

/-- What one round of the loop over the other statuses leaves behind. -/
structure Round (s : State) (statusMap : Registered) (g : Nat → Int) (A : Nat → List DataAccess) (t : Nat)
    (ty : AccessType) (k : Nat) (p : State × Registered) : Prop where
  inv : ConflictInv p.1 g A
  advanced : Advanced t s p.1
  listed : Listed p.1 t p.2
  before : (statusMap k = none → ¬ MissesWriter s ty k) → Before p.1 t k ty.output
  unlisted : ∀ j, p.2 j = none ↔ statusMap j = none
  others : ∀ j, statusMap j = none → p.1.statusAt j = s.statusAt j

theorem Listed.advanced {statusMap : Registered} (h : Listed s t statusMap) (hadv : Advanced t s s') :
    Listed s' t statusMap := fun k isWriter hk =>
  ⟨by rw [hadv.range]; exact (h k isWriter hk).1, hadv.before k isWriter (h k isWriter hk).2⟩

/-- A status in which the task has not registered: the task comes after its readers if it writes, and after
its last writer if it reads. -/
theorem accessOther_none {statusMap : Registered} (hclosed : (s.statusAt k).commDO = none) (hty : ty.Plain)
    (hk : statusMap k = none) :
    accessOther t ty (s, statusMap) k =
      (s.dependAll t ((if ty.output then (s.statusAt k).versionReaders else []) ++
        if ty.input then (s.statusAt k).lastWriter.toList else []), statusMap) := by
  have hnoRead : ∀ s : State, (s.statusAt k).commDO = none →
      s.submitDependableObjectInputNoReadDataAccess t k = s.dependAll t (s.statusAt k).lastWriter.toList := by
    intro s hclosed
    unfold submitDependableObjectInputNoReadDataAccess
    rw [finalizeReduction_of_none hclosed, dependOnLastWriter_eq]
  have hnoWrite : s.submitDependableObjectOutputNoWriteDataAccess t k =
      s.dependAll t (s.statusAt k).versionReaders := by
    unfold submitDependableObjectOutputNoWriteDataAccess
    rw [finalizeReduction_of_none hclosed, dependOnReaders_eq]
  unfold accessOther
  simp only [hk]
  rcases hty with rfl | rfl | rfl
  · exact congrArg (·, statusMap) (hnoRead s hclosed)
  · refine congrArg (·, statusMap) (hnoWrite.trans ?_)
    exact congrArg (s.dependAll t) (List.append_nil _).symm
  · refine congrArg (·, statusMap) ?_
    have hd := depended_dependAll (s := s) (x := t) (s.statusAt k).versionReaders
    show (s.submitDependableObjectOutputNoWriteDataAccess t k).submitDependableObjectInputNoReadDataAccess
      t k = _
    rw [hnoWrite, hnoRead _ (by rw [hd.statusAt]; exact hclosed), hd.statusAt]
    exact (List.foldl_append ..).symm

/-- A status in which the task has registered: a writer that was a reader registers again. -/
theorem accessOther_some {statusMap : Registered} {isWriter : Bool} (hclosed : (s.statusAt k).commDO = none)
    (hw : (s.obj t).waits = false) (hty : ty.Plain) (hk : statusMap k = some isWriter) :
    accessOther t ty (s, statusMap) k =
      if !isWriter && ty.output then
        ((s.dependAll t (((s.statusAt k).deleteReader t).versionReaders ++
          (s.statusAt k).lastWriter.toList)).modifyStatus k (fun o => (o.deleteReader t).setReader t),
          fun j => if j = k then some true else statusMap j)
      else (s, statusMap) := by
  have hplain : (!ty.concurrent && !ty.commutative) = true := by
    rcases hty with rfl | rfl | rfl <;> rfl
  unfold accessOther
  simp only [hk, hplain, Bool.and_true]
  split
  · rw [registerAgain_eq hclosed hw]
  · rfl

/-- **One round.** -/
theorem ConflictInv.accessOther {statusMap : Registered} (h : ConflictInv s g A) (ht : Current t s)
    (hlisted : Listed s t statusMap) (hty : ty.Plain) (k : Nat) :
    Round s statusMap g A t ty k (accessOther t ty (s, statusMap) k) := by
  cases hk : statusMap k with
  | none =>
    rw [accessOther_none (h.closed k) hty hk]
    obtain ⟨h', hadv, -⟩ := h.dependAll ht ((if ty.output then (s.statusAt k).versionReaders else []) ++
      if ty.input then (s.statusAt k).lastWriter.toList else [])
    refine ⟨h', hadv, hlisted.advanced hadv, fun hmiss => h.before_dependAll ht (fun w hw => ?_)
      fun hout u hu => ?_, fun j => Iff.rfl, fun j _ => (depended_dependAll _).statusAt j⟩
    · by_cases hin : ty.input = true
      · rw [if_pos hin]
        exact .inl (List.mem_append_right _ (mem_lastWriter_toList hw))
      · -- without readers the access would have to look at the last writer
        have hout : ty.output = true := by
          rcases hty with rfl | rfl | rfl
          · exact absurd rfl hin
          · rfl
          · rfl
        have hread : (s.statusAt k).versionReaders ≠ [] := fun hnil =>
          hmiss hk ⟨by simpa using hin, by simp [hw], hnil⟩
        obtain ⟨u, hu⟩ := List.exists_mem_of_ne_nil _ hread
        rw [if_pos hout]
        exact .inr ⟨u, hu, List.mem_append_left _ hu⟩
    · rw [if_pos hout]
      exact .inl (List.mem_append_left _ hu)
  | some isWriter =>
    obtain ⟨hrange, hb⟩ := hlisted k isWriter hk
    rw [accessOther_some (h.closed k) ht.waits hty hk]
    by_cases hagain : (!isWriter && ty.output) = true
    · rw [if_pos hagain]
      have hset : ∀ o : TrackableObject, ((o.deleteReader t).setReader t).commDO = o.commDO ∧
          ((o.deleteReader t).setReader t).lastWriter = o.lastWriter ∧
          ∀ u, u ∈ ((o.deleteReader t).setReader t).versionReaders ↔ u ∈ o.versionReaders ∨ u = t := by
        refine fun o => ⟨rfl, rfl, fun u => ?_⟩
        simp only [TrackableObject.setReader, TrackableObject.deleteReader, List.mem_append,
          List.mem_filter, List.mem_singleton]
        by_cases hu : u = t <;> simp [hu]
      have hbefore : Before (s.dependAll t (((s.statusAt k).deleteReader t).versionReaders ++
          (s.statusAt k).lastWriter.toList)) t k true := by
        refine h.before_dependAll ht (fun w hw => .inl (List.mem_append_right _ (mem_lastWriter_toList hw)))
          fun _ u hu => ?_
        by_cases hut : u = t
        · exact .inr hut
        · exact .inl (List.mem_append_left _ (List.mem_filter.2 ⟨hu, by simpa using hut⟩))
      obtain ⟨⟨h', hadv, hb', hothers⟩, -⟩ := h.read ht hrange hbefore hset
      refine ⟨h', hadv, fun j b hj => ?_, fun _ => ⟨hb'.lastWriter, fun _ => hb'.readers rfl⟩, fun j => ?_,
        fun j hj => hothers j fun heq => ?_⟩
      · dsimp only at hj
        split at hj
        · next heq =>
          subst heq
          cases hj
          exact ⟨by rw [hadv.range]; exact hrange, hb'⟩
        · exact hlisted.advanced hadv j b hj
      · dsimp only
        split
        · next heq => simp [heq, hk]
        · exact Iff.rfl
      · rw [heq, hk] at hj
        cases hj
    · rw [if_neg hagain]
      refine ⟨h, .refl, hlisted, fun _ => ⟨hb.lastWriter, fun hout => hb.readers ?_⟩, fun j => Iff.rfl,
        fun j _ => rfl⟩
      cases isWriter with
      | true => rfl
      | false => exact absurd hout (by simpa using hagain)

/-- The loop over the other statuses. -/
theorem ConflictInv.accessOthers {statusMap : Registered} (h : ConflictInv s g A) (ht : Current t s)
    (hlisted : Listed s t statusMap) (hty : ty.Plain) (others : List Nat) :
    let p := others.foldl (CRegions.accessOther t ty) (s, statusMap)
    ConflictInv p.1 g A ∧ Advanced t s p.1 ∧ Listed p.1 t p.2 ∧
      ∀ k ∈ others, (statusMap k = none → ¬ MissesWriter s ty k) → Before p.1 t k ty.output := by
  induction others generalizing s statusMap with
  | nil => exact ⟨h, .refl, hlisted, nofun⟩
  | cons j others ih =>
    have hround := h.accessOther ht hlisted hty j
    obtain ⟨h', hadv', hlisted', hbefore'⟩ :=
      ih hround.inv (hround.advanced.current ht) hround.listed
    refine ⟨h', hround.advanced.trans hadv', hlisted', fun k hk hmiss => ?_⟩
    rcases List.mem_cons.1 hk with rfl | hk
    · exact hadv'.before k ty.output (hround.before hmiss)
    · refine hbefore' k hk fun hnone => ?_
      have hnone' := (hround.unlisted k).1 hnone
      unfold MissesWriter
      rw [hround.others k hnone']
      exact hmiss hnone'

end

end CRegions

end OmpSs.Deps
