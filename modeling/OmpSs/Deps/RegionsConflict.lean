import OmpSs.Deps.Regions

/-!
# Conflict safety of the region domain

The entries of the region map are trackers of the addresses of their regions, which overlap each other,
and `Lib.Safe` is an invariant of the domain: of two tasks that access a common address, one of them
writing, the later one comes after the earlier one in the dependence graph as long as the earlier one is
unfinished. A write erases the entries that its region subsumes; what they recorded comes before the
task that writes, and the entry of the region records that task (`Accessed.covers`). So the domain is safe in
the runs in which coalescing loses no part of an access.
-/

namespace OmpSs.Deps.Regions

open DepState Relation Support FullRegion
open RegionDomain (State Accesses Sys Event tracker accOf withAccesses ConflictInv RunInv Conflict PlainSubmit
  CoalescedWhole)

/-! ## One access on the map -/

section
variable {root root' : RegionMap} {m : FullRegion → Option TrackableObject} {k target : FullRegion}
  {Ks : List FullRegion} {d : TrackableObject}

/-- An access finds the entries that intersect its region, and an entry of the region itself. -/
theorem lookup_spec (h : Sound root m) (target : FullRegion) :
    ∃ root' m', ∃ Ks : List FullRegion, lookup root target = some (Ks.map toRegion, root') ∧
      Ks.Nodup ∧ (∀ k, k ∈ Ks ↔ m k ≠ none ∧ k.Intersects target) ∧ Sound root' m' ∧
      (∀ k, m k ≠ none → m' k ≠ none) ∧ m' target ≠ none ∧ ∀ k, root'.view k = root.view k := by
  obtain ⟨exact, out, Ls, hfind, hout, hnodup, hLs, hnone, hregion⟩ :=
    RegionTree.exists_matching h.wellShaped h.holds target
  cases exact with
  | some accessor =>
    have hm : m target ≠ none := fun hm => by cases hnone.2 hm
    have hnot : target ∉ Ls := fun hmem => ((hLs target).1 hmem).2.2 rfl
    refine ⟨root, m, Ls ++ [target], ?_, ?_, fun k => ?_, h, fun _ hk => hk, hm, fun _ => rfl⟩
    · rw [List.map_append, ← hout, lookup, hfind]
      show some (_ ++ [accessor.region], root) = _
      rw [hregion accessor rfl]
      rfl
    · rw [List.nodup_append]
      exact ⟨hnodup, List.nodup_singleton _, fun a ha b hb hab => by
        rw [List.mem_singleton.1 hb] at hab
        exact hnot (hab ▸ ha)⟩
    · rw [List.mem_append, List.mem_singleton, hLs, ← Option.ne_none_iff_exists']
      constructor
      · rintro (⟨hk, hint, -⟩ | rfl)
        · exact ⟨hk, hint⟩
        · exact ⟨hm, intersects_self k⟩
      · rintro ⟨hk, hint⟩
        by_cases hkt : k = target
        · exact .inr hkt
        · exact .inl ⟨hk, hint, hkt⟩
  | none =>
    have hm := hnone.1 rfl
    obtain ⟨root', hadd, hsound⟩ := h.add hm none
    refine ⟨root', _, Ls, ?_, hnodup, fun k => ?_, hsound, fun k hk => ?_, ?_, fun k => ?_⟩
    · rw [← hout, lookup, hfind]
      show (addOverlapping root target.toRegion none).bind _ = _
      rw [hadd]
      rfl
    · rw [hLs, ← Option.ne_none_iff_exists']
      refine ⟨fun hk => ⟨hk.1, hk.2.1⟩, fun hk => ⟨hk.1, hk.2, ?_⟩⟩
      rintro rfl
      exact hk.1 hm
    · split
      · simp
      · exact hk
    · simp
    · rw [RegionMap.view_eq hsound, RegionMap.view_eq h]
      split
      · next heq =>
        rw [heq, hm]
        rfl
      · rfl

/-- A write to `target` erases the entry of `k`. -/
def subsumes (target : FullRegion) (output : Bool) (k : FullRegion) : Bool :=
  output && k.toRegion ≠ target.toRegion && target.toRegion.contains k.toRegion

theorem subsumes_iff {output : Bool} : subsumes target output k = true ↔
    output = true ∧ k ≠ target ∧ ∀ x, k.Contains x → target.Contains x := by
  unfold subsumes
  rw [Bool.and_eq_true, Bool.and_eq_true, contains_eq_true_iff, decide_eq_true_iff, and_assoc, ne_eq,
    toRegion_injective.eq_iff]

/-- At the end of an access entries that record nothing go, and those that a write subsumes. -/
theorem release_spec (target : FullRegion) (output : Bool) (h : Sound root m) (hnd : Ks.Nodup)
    (hKs : ∀ k ∈ Ks, m k ≠ none) :
    ∃ m', Sound ((Ks.map toRegion).foldl (release target output) root) m' ∧
      ∀ k, ((Ks.map toRegion).foldl (release target output) root).view k =
        if k ∈ Ks ∧ subsumes target output k = true then {} else root.view k := by
  have hop : Visits (release target output) fun k o =>
      if (o.isEmpty || subsumes target output k) = true then none
      else some { o with hold := false } := by
    intro root m r d h hr
    have hst : StatusMap.status root r.toRegion = d := by rw [RegionMap.status_eq h, hr]; rfl
    have hempty : ({ d with hold := false } : TrackableObject).isEmpty = d.isEmpty := rfl
    have hupdate := RegionMap.sound_update h hr { d with hold := false }
      (d.isEmpty || subsumes target output r)
    unfold release
    rw [hst]
    dsimp only
    rw [hempty]
    by_cases he : d.isEmpty = true
    · simp only [he, Bool.true_or, if_true] at hupdate ⊢
      exact hupdate
    · rw [Bool.not_eq_true] at he
      simp only [he, Bool.false_or, Bool.false_eq_true, if_false] at hupdate ⊢
      exact hupdate
  have hvisit := h.visit hop hnd hKs
  refine ⟨_, hvisit, fun k => ?_⟩
  rw [RegionMap.view_eq hvisit, RegionMap.view_eq h]
  by_cases hk : k ∈ Ks
  · obtain ⟨d, hd⟩ := Option.ne_none_iff_exists'.1 (hKs k hk)
    rw [if_pos hk, hd]
    dsimp only [Option.bind_some, Option.getD_some]
    cases subsumes target output k with
    | true => simp [hk]
    | false =>
      simp only [Bool.or_false, Bool.false_eq_true, and_false, if_false]
      split
      · next hempty => exact (RegionMap.eq_of_isEmpty hempty).symm
      · rfl
  · simp only [hk, false_and, if_false]

end

/-! ## One access -/

section
variable {s s' : State} {m : FullRegion → Option TrackableObject} {k target : FullRegion} {t u : Nat}
  {ty : AccessType}

/-- What one access of the task `t` does to what the map records. -/
def recorded (t : Nat) (target : FullRegion) (output : Bool) (view : FullRegion → TrackableObject)
    (k : FullRegion) : TrackableObject :=
  if k = target then
    if output then (view k).flushReaders.setLastWriter t else (view k).setReader t
  else if subsumes target output k then {}
  else view k

/-- The end of an access: the loop over the entries and the target of the task. -/
theorem finishAccess_spec {Ks : List FullRegion} {V : FullRegion → TrackableObject} {P : Nat → Prop}
    {output : Bool} (hgrown : Grown t P s s') (h : Sound s'.map m) (hnd : Ks.Nodup)
    (hKs : ∀ k ∈ Ks, m k ≠ none) (hcover : ∀ k, k ∉ Ks → V k = {} ∨ ¬ k.Intersects target)
    (hview : ∀ k, s'.map.view k =
      if k = target then (if output then (V k).flushReaders.setLastWriter t else (V k).setReader t)
      else V k) :
    let s₃ : State := { s' with map := (Ks.map toRegion).foldl (release target output) s'.map }
    let s'' : State := if output then s₃.addWriteTarget t target else s₃.addReadTarget t target
    Grown t P s s'' ∧ (∃ m', Sound s''.map m') ∧ ∀ k, s''.map.view k = recorded t target output V k := by
  intro s₃ s''
  obtain ⟨m', hsound, hview'⟩ := release_spec target output h hnd hKs
  have htarget : Grown t (fun _ => False) s₃ s'' := by
    cases output with
    | true =>
      show Grown t (fun _ => False) s₃ (s₃.addWriteTarget t target)
      exact grown_modifyObj fun _ => rfl
    | false =>
      show Grown t (fun _ => False) s₃ (s₃.addReadTarget t target)
      exact grown_modifyObj fun _ => rfl
  have hmap : s''.map = s₃.map := by cases output <;> rfl
  rw [hmap]
  refine ⟨((hgrown.trans (grown_map _)).trans htarget).congr fun u => by simp, ⟨m', hsound⟩,
    fun k => (hview' k).trans ?_⟩
  rw [hview]
  unfold recorded
  by_cases hkt : k = target
  · have hnot : ¬ subsumes target output k = true := fun hsub => (subsumes_iff.1 hsub).2.1 hkt
    rw [if_neg fun hall => hnot hall.2, if_pos hkt, if_pos hkt]
  · rw [if_neg hkt, if_neg hkt]
    by_cases hk : k ∈ Ks
    · simp [hk]
    · rw [if_neg fun hall => hk hall.1]
      split
      · next hsub =>
        obtain ⟨-, -, hin⟩ := subsumes_iff.1 hsub
        rcases hcover k hk with hempty | hdisj
        · exact hempty
        · obtain ⟨x, hx⟩ := exists_contains k
          exact absurd ⟨x, hx, hin x hx⟩ hdisj
      · rfl

/-- The entries that intersect the region of an access record the object `u` as their last writer or,
if the access writes, as a reader. -/
def Before (s : State) (target : FullRegion) (output : Bool) (u : Nat) : Prop :=
  ∃ k : FullRegion, k.Intersects target ∧
    ((s.map.view k).lastWriter = some u ∨ output = true ∧ u ∈ (s.map.view k).versionReaders)

/-- What one access of the task `t` does. -/
structure Accessed (t : Nat) (target : FullRegion) (output : Bool) (s s' : State) : Prop where
  grown : Grown t (Before s target output) s s'
  sound : ∃ m, Sound s'.map m
  view : ∀ k, s'.map.view k = recorded t target output s.map.view k

/-- The first part of an access: the lookup, and the entries put on hold. -/
theorem exists_held (h : Sound s.map m) (target : FullRegion) :
    ∃ (Ks : List FullRegion) (root : RegionMap) (m' : FullRegion → Option TrackableObject),
      lookup s.map target = some (Ks.map toRegion, root) ∧ Ks.Nodup ∧
      Sound ((Ks.map toRegion).foldl RegionMap.hold root) m' ∧
      (∀ k ∈ Ks, m' k ≠ none ∧ k.Intersects target) ∧ m' target ≠ none ∧
      (∀ k, ((Ks.map toRegion).foldl RegionMap.hold root).view k = s.map.view k) ∧
      ∀ k, k ∉ Ks → s.map.view k = {} ∨ ¬ k.Intersects target := by
  obtain ⟨root, m₁, Ks, hlookup, hnodup, hKs, h₁, hkeys, htarget, hview₁⟩ := lookup_spec h target
  obtain ⟨m₂, h₂, hkeys₂, hview₂⟩ := RegionMap.hold_spec h₁ hnodup fun k hk => hkeys k ((hKs k).1 hk).1
  refine ⟨Ks, root, m₂, hlookup, hnodup, h₂, fun k hk => ?_, (hkeys₂ _).2 htarget,
    fun k => (hview₂ k).trans (hview₁ k), fun k hk => ?_⟩
  · exact ⟨(hkeys₂ k).2 (hkeys k ((hKs k).1 hk).1), ((hKs k).1 hk).2⟩
  · by_cases hm : m k = none
    · left
      rw [RegionMap.view_eq h, hm]
      rfl
    · exact .inr fun hint => hk ((hKs k).2 ⟨hm, hint⟩)

/-- The second part: the task comes to depend on the entries and is recorded in its own. -/
theorem exists_recorded {Ks : List FullRegion} (output : Bool) (h : Sound s.map m)
    (hKs : ∀ k ∈ Ks, m k ≠ none) (htarget : m target ≠ none)
    (hclosed : ∀ k ∈ Ks.map toRegion, (s.statusAt k).commDO = none) (hw : (s.obj t).waits = false) :
    ∃ s' m', (if output then
          BaseRegions.submitDependableObjectInoutDataAccess s t (Ks.map toRegion) target.toRegion target
        else BaseRegions.submitDependableObjectInputDataAccess s t (Ks.map toRegion) target.toRegion
          target) = s' ∧
      Grown t (fun u => ∃ k ∈ Ks, (s.map.view k).lastWriter = some u ∨
        output = true ∧ u ∈ (s.map.view k).versionReaders) s s' ∧
      Sound s'.map m' ∧ (∀ k ∈ Ks, m' k ≠ none) ∧
      ∀ k, s'.map.view k =
        if k = target then
          if output then (s.map.view k).flushReaders.setLastWriter t else (s.map.view k).setReader t
        else s.map.view k := by
  have hwriters : ∀ u, u ∈ BaseRegions.lastWriters s (Ks.map toRegion) ↔
      ∃ k ∈ Ks, (s.map.view k).lastWriter = some u := fun u => by
    simp [BaseRegions.lastWriters, statusAt, RegionMap.view]
  have hreaders : ∀ u, u ∈ BaseRegions.readers s (Ks.map toRegion) ↔
      ∃ k ∈ Ks, u ∈ (s.map.view k).versionReaders := fun u => by
    simp [BaseRegions.readers, statusAt, RegionMap.view]
  cases output with
  | true =>
    rw [if_pos rfl, BaseRegions.inoutAccess_eq hclosed]
    obtain ⟨hgrown, m', h', hkeys, hview⟩ := RegionDomain.setAsWriter_dependAll_spec
      (BaseRegions.lastWriters s (Ks.map toRegion) ++ BaseRegions.readers s (Ks.map toRegion)) target h
      htarget hw
    refine ⟨_, m', rfl, hgrown.congr fun u => ?_, h', fun k hk => (hkeys k).2 (hKs k hk),
      fun k => (hview k).trans ?_⟩
    · rw [List.mem_append, hwriters, hreaders]
      simp only [true_and]
      constructor
      · rintro (⟨k, hk, hu⟩ | ⟨k, hk, hu⟩)
        · exact ⟨k, hk, .inl hu⟩
        · exact ⟨k, hk, .inr hu⟩
      · rintro ⟨k, hk, hu⟩
        exact hu.imp (fun hu => ⟨k, hk, hu⟩) fun hu => ⟨k, hk, hu⟩
    · by_cases hk : k = target
      · rw [if_pos hk, if_pos hk, if_pos rfl, hk]
      · rw [if_neg hk, if_neg hk]
  | false =>
    rw [if_neg Bool.false_ne_true, BaseRegions.inputAccess_eq hclosed hw]
    obtain ⟨hgrown, m', h', hkeys, hview⟩ := RegionDomain.addAsReader_dependAll_spec (t := t)
      (BaseRegions.lastWriters s (Ks.map toRegion)) h htarget
    refine ⟨_, m', rfl, hgrown.congr fun u => ?_, h', fun k hk => (hkeys k).2 (hKs k hk),
      fun k => (hview k).trans ?_⟩
    · rw [hwriters]
      simp
    · by_cases hk : k = target
      · rw [if_pos hk, if_pos hk, if_neg Bool.false_ne_true, hk]
      · rw [if_neg hk, if_neg hk]

/-- The third part: entries go, and the task is given its target. -/
theorem submitDependableObjectDataAccess_eq {l : List Region} {root : RegionMap} {s₂ : State}
    (hty : ty.Plain) (hlookup : lookup s.map target = some (l, root))
    (hrun : (if ty.output then
        BaseRegions.submitDependableObjectInoutDataAccess
          { s with map := l.foldl RegionMap.hold root } t l target.toRegion target
      else BaseRegions.submitDependableObjectInputDataAccess
          { s with map := l.foldl RegionMap.hold root } t l target.toRegion target) = s₂)
    (hw : (s₂.obj t).waits = false) :
    submitDependableObjectDataAccess s t target ty =
      let s₃ : State := { s₂ with map := l.foldl (release target ty.output) s₂.map }
      .ok (if ty.output then s₃.addWriteTarget t target else s₃.addReadTarget t target) := by
  subst hrun
  have hnot : ∀ {b : Bool}, b = false → ¬ ((b || false) || false) = true := by
    rintro b rfl
    exact Bool.false_ne_true
  unfold submitDependableObjectDataAccess
  rw [hlookup]
  rcases hty with rfl | rfl | rfl <;> exact congrArg Except.ok (if_neg (hnot hw))

/-- **One access**: what the entries that intersect its region record comes before the task, and the
map records the access. -/
theorem exists_accessed (h : Sound s.map m) (target : FullRegion)
    (hclosed : ∀ k, (s.map.view k).commDO = none)
    (hw : (s.obj t).waits = false) (hty : ty.Plain) :
    ∃ s', submitDependableObjectDataAccess s t target ty = .ok s' ∧
      Accessed t target ty.output s s' := by
  obtain ⟨Ks, root, m₁, hlookup, hnodup, h₁, hKs, htarget, hview₁, hcover⟩ := exists_held h target
  have hclosed₁ : ∀ k ∈ Ks.map toRegion,
      (statusAt { s with map := (Ks.map toRegion).foldl RegionMap.hold root } k).commDO = none := by
    intro k hk
    obtain ⟨k, -, rfl⟩ := List.mem_map.1 hk
    have hk := hclosed k
    rw [← hview₁] at hk
    exact hk
  obtain ⟨s₂, m₂, hrun, hgrown₂, h₂, hkeys₂, hview₂⟩ := exists_recorded (t := t)
    (s := { s with map := (Ks.map toRegion).foldl RegionMap.hold root }) ty.output h₁
    (fun k hk => (hKs k hk).1) htarget hclosed₁ hw
  simp only [hview₁] at hgrown₂ hview₂
  have hgrown : Grown t (Before s target ty.output) s s₂ := by
    refine ((grown_map _).trans hgrown₂).congr fun u => ?_
    rw [false_or]
    constructor
    · rintro ⟨k, hk, hu⟩
      exact ⟨k, (hKs k hk).2, hu⟩
    · rintro ⟨k, hint, hu⟩
      refine ⟨k, by_contra fun hk => ?_, hu⟩
      -- an entry that is not among those found records nothing
      rcases hcover k hk with hempty | hdisj
      · rw [hempty] at hu
        simp at hu
      · exact hdisj hint
  obtain ⟨hfin, hsound, hview⟩ := finishAccess_spec hgrown h₂ hnodup hkeys₂ hcover hview₂
  exact ⟨_, submitDependableObjectDataAccess_eq hty hlookup hrun (hgrown.waits.trans hw), hfin, hsound,
    hview⟩

/-! ## The invariant -/

variable {g : Nat → Int} {A : Nat → Accesses} {J : State → Prop}

/-- What the entries cover in the region of an access comes before the task, unless both only read. -/
theorem Accessed.reach {output wu : Bool} {a : BitVec 64} (hacc : Accessed t target output s s')
    (h : ConflictInv J s g A) (hu : s.Live u) (ha : target.Contains a)
    (hconf : (wu || output) = true) (hcov : Lib.Covers (tracker s) s.Edge u a wu) :
    ReflTransGen s'.Edge u t := by
  obtain ⟨k, hk, ⟨w, hw, huw⟩ | ⟨rfl, hr⟩⟩ := hcov
  · exact (ReflTransGen.mono (fun u v => hacc.grown.mono) _ _ huw).trans
      (hacc.grown.reach (h.graph.live_of_path hu huw) ⟨k, ⟨a, hk, ha⟩, .inl hw⟩)
  · exact hacc.grown.reach hu ⟨k, ⟨a, hk, ha⟩, .inr ⟨hconf, hr⟩⟩

/-- The entry of the region covers the access. -/
theorem Accessed.covers {output : Bool} {a : BitVec 64} (hacc : Accessed t target output s s')
    (ha : target.Contains a) : Lib.Covers (tracker s') s'.Edge t a output := by
  have hview := hacc.view target
  unfold recorded at hview
  rw [if_pos rfl] at hview
  cases output with
  | true =>
    refine Lib.Covers.of_writer (k := target) ha ?_ .refl
    show (s'.map.view target).lastWriter = some t
    rw [hview]
    rfl
  | false =>
    refine Lib.Covers.of_reader (k := target) ha ?_
    show t ∈ (s'.map.view target).versionReaders
    rw [hview]
    exact List.mem_append_right _ (List.mem_singleton.2 rfl)

/-- An entry keeps its last writer and readers, or the access writes the address. -/
theorem Accessed.kept {output : Bool} {a : BitVec 64} {k : FullRegion}
    (hacc : Accessed t target output s s') (hk : k.Contains a) :
    target.Contains a ∧ output = true ∨ k.Contains a ∧
      (s'.map.view k).lastWriter = (s.map.view k).lastWriter ∧
      ∀ r ∈ (s.map.view k).versionReaders, r ∈ (s'.map.view k).versionReaders := by
  have hview := hacc.view k
  unfold recorded at hview
  by_cases hkt : k = target
  · rw [if_pos hkt] at hview
    cases output with
    | true => exact .inl ⟨hkt ▸ hk, rfl⟩
    | false =>
      rw [hview]
      exact .inr ⟨hk, rfl, fun r hr => List.mem_append_left _ hr⟩
  · rw [if_neg hkt] at hview
    by_cases hsub : subsumes target output k = true
    · obtain ⟨hout, -, hin⟩ := subsumes_iff.1 hsub
      exact .inl ⟨hin a hk, hout⟩
    · rw [if_neg hsub] at hview
      rw [hview]
      exact .inr ⟨hk, rfl, fun r hr => hr⟩

/-- **One access of the task in progress keeps the invariant.** -/
theorem keeps_submitDependableObjectDataAccess :
    RegionDomain.Keeps submitDependableObjectDataAccess (fun _ _ ty => ty.Plain ∧ True)
      fun _ => True := by
  rintro s t target ty g A h ht ⟨hty, -⟩
  obtain ⟨m, hm⟩ := h.sound
  obtain ⟨s', hrun, hacc⟩ := exists_accessed hm target h.closed ht.waits hty
  refine ⟨s', hrun, ⟨hacc.grown.graph g ht.live h.graph, hacc.sound, fun k => ?_, ?_, fun u hu => ?_,
    trivial⟩, hacc.grown.current ht⟩
  · rw [hacc.view, recorded]
    split_ifs
    · exact h.closed k
    · exact h.closed k
    · rfl
    · exact h.closed k
  · exact h.safe.access_of_kept (R := target.Contains) (fun u v => hacc.grown.mono) hacc.grown.live
      ht.live (fun u a writes => h.le_current ht)
      (fun u a wu hu ha hconf hcov => hacc.reach h hu ha hconf hcov) (fun k a hk => hacc.kept hk)
      (fun a ha => hacc.covers ha) fun u a writes => RegionDomain.accOf_withAccesses
  · exact h.fresh_withAccesses ht (hacc.grown.size ▸ hu)

end

/-! ## Runs -/

section
variable {S : Sys} {t u : Nat}

/-- **Conflict safety of the region domain.** In every state that submissions of `in`, `out` and `inout`
accesses and completions reach, where coalescing the accesses of a task cuts nothing at its last bit, a task
whose counter is 0 has no unfinished earlier task with an access whose region intersects one of its own, one
of the two writing. -/
theorem finished_of_regions_intersect_of_numPredecessors_eq_zero (wide : BitVec 64 → Option (BitVec 64))
    (h : Lib.Reach (step wide) (fun _ ev => PlainSubmit ev ∧ CoalescedWhole wide ev) RegionDomain.init S)
    (hut : u < t) (ht : t < S.dom.lastDepObjId) (hconf : Conflict S u t)
    (hnum : (S.dom.obj t).numPredecessors = 0) : (S.dom.obj u).finished = true := by
  have hJ : RegionDomain.Upheld fun _ => True := ⟨fun _ => trivial, fun _ _ _ => trivial,
    fun _ _ _ => trivial⟩
  have hinv := h.invariant (I := RunInv fun _ => True) (RegionDomain.runInv_init trivial)
    fun S ev S' hinv ⟨hplain, hcoalesced⟩ hs => by
      refine hinv.step hJ keeps_submitDependableObjectDataAccess hplain hcoalesced ?_ hs
      exact RegionDomain.accessesMeet_true _ _ S ev
  exact hinv.finished hut ht hconf hnum

/-- A run in which a write erases the entry of a reader that it comes after. -/
theorem finished_of_regions_intersect_of_subsumed_reader :
    ∃ S, Lib.Reach (step some) (fun _ ev => PlainSubmit ev ∧ CoalescedWhole some ev) RegionDomain.init S ∧
      (S.dom.obj 2).numPredecessors = 0 ∧ (S.dom.obj 1).finished = true := by
  obtain ⟨S, hS, hp⟩ := Lib.exists_reach_of_guarded_run (step some)
    (fun _ ev => PlainSubmit ev ∧ CoalescedWhole some ev) RegionDomain.init
    [.submit [(⟨~~~15#64, 16#64, rfl⟩, .outAccess)],
      .submit [(⟨~~~3#64, 20#64, rfl⟩, .inAccess), (⟨~~~1#64, 22#64, rfl⟩, .outAccess)],
      .submit [(⟨~~~15#64, 16#64, rfl⟩, .inoutAccess)], .finish 0, .finish 1]
    (fun S => decide (2 < S.dom.lastDepObjId ∧
      (⟨~~~3#64, 20#64, rfl⟩, .inAccess) ∈ S.accesses 1 ∧
      (⟨~~~15#64, 16#64, rfl⟩, .inoutAccess) ∈ S.accesses 2 ∧
      (S.dom.obj 2).numPredecessors = 0)) (by decide +kernel)
  obtain ⟨h2, ha, hb, hnum⟩ := of_decide_eq_true hp
  exact ⟨S, hS, hnum, finished_of_regions_intersect_of_numPredecessors_eq_zero _ hS (by decide) h2
    ⟨_, _, _, _, ha, hb, ⟨20#64, rfl, rfl⟩, .inr rfl⟩ hnum⟩

/-- A task that writes two bytes and, in an access of its own, the first of them; on x86-64, where a word
shifted by 64 stays as it is, the second byte is lost when its accesses are coalesced, and a later task that
writes it can run before the first one has finished. -/
theorem ready_of_coalesced_last_bit :
    ∃ S, Lib.Reach (step some) (fun _ ev => PlainSubmit ev) RegionDomain.init S ∧
      RegionDomain.Ready S.dom 1 ∧ (S.dom.obj 0).finished = false ∧ Conflict S 0 1 := by
  obtain ⟨S, hS, hp⟩ := Lib.exists_reach_of_run (step some) PlainSubmit RegionDomain.init
    [.submit [(⟨~~~1#64, 0x1000#64, rfl⟩, .outAccess), (⟨~~~0#64, 0x1000#64, rfl⟩, .outAccess)],
      .submit [(⟨~~~0#64, 0x1001#64, rfl⟩, .outAccess)]] (by decide)
    (fun S => decide (RegionDomain.Ready S.dom 1 ∧ (S.dom.obj 0).finished = false ∧
      (⟨~~~1#64, 0x1000#64, rfl⟩, .outAccess) ∈ S.accesses 0 ∧
      (⟨~~~0#64, 0x1001#64, rfl⟩, .outAccess) ∈ S.accesses 1)) (by decide +kernel)
  obtain ⟨hready, hfin, ha, hb⟩ := of_decide_eq_true hp
  exact ⟨S, hS, hready, hfin, _, _, _, _, ha, hb, ⟨0x1001#64, rfl, rfl⟩, .inl rfl⟩

end

end OmpSs.Deps.Regions
