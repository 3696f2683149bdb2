import OmpSs.Deps.Perfect

/-!
# Conflict safety of the perfect region domain

A leaf that reaches out of the region of an access is replaced by parts with copies of its status, and the
copy constructor of `TrackableObject` drops the readers. So the domain is safe in the runs in which no
access cuts a leaf that has readers (`Whole`), and not safe otherwise. There the disjoint leaves are trackers
of their addresses, and an access to a leaf is one of the plain domain: a write may look at the readers only,
which come after the last writer (`Leaves.readAfter`).
-/

namespace OmpSs.Deps.Perfect

open DepState Relation Support FullRegion
open RegionDomain (State Accesses Sys Event tracker accOf withAccesses ConflictInv RunInv Conflict PlainSubmit
  CoalescedWhole)

/-- The access of a region cuts no leaf that has readers, and nothing for the first time at its last bit. -/
def Whole (m : RegionMap) (target : FullRegion) : Prop :=
  (∀ p ∈ findExactAndMatching m target.toRegion, ∀ it ∈ p.2,
    it.region.getPrefixUntilThisSubsumes target.toRegion = true →
      (StatusMap.status m it.region).versionReaders = []) ∧ RegionTree.LastBitsKept m target

instance (m : RegionMap) (target : FullRegion) : Decidable (Whole m target) :=
  inferInstanceAs (Decidable ((∀ p ∈ findExactAndMatching m target.toRegion, _) ∧ _))

/-! ## The leaves of an access -/

section
variable {wide : BitVec 64 → Option (BitVec 64)} {root : RegionMap}
  {m : FullRegion → Option TrackableObject} {target L : FullRegion} {d : TrackableObject}

/-- The leaves that are cut have no readers. -/
theorem Whole.readers (h : Whole root target) (hm : Sound root m) (hL : m L = some d)
    (hint : L.Intersects target) (hne : L ≠ target)
    (hcut : L.toRegion.getPrefixUntilThisSubsumes target.toRegion = true) : d.versionReaders = [] := by
  obtain ⟨exact, out, Ls, hfind, hout, -, hLs, -⟩ :=
    RegionTree.exists_matching hm.wellShaped hm.holds target
  have hmem : L.toRegion ∈ out.map (·.region) :=
    hout ▸ List.mem_map_of_mem ((hLs L).2 ⟨⟨d, hL⟩, hint, hne⟩)
  obtain ⟨it, hit, hregion⟩ := List.mem_map.1 hmem
  have hreaders := h.1 _ hfind it hit (hregion ▸ hcut)
  rw [hregion, RegionMap.status_eq hm, hL] at hreaders
  exact hreaders

/-- The leaves that an access runs over. -/
theorem exists_populate (wide : BitVec 64 → Option (BitVec 64)) (hm : Sound root m)
    (hapart : RegionTree.Apart m) (hwhole : Whole root target) :
    ∃ (Ks : List FullRegion) (root' : RegionMap) (m' : FullRegion → Option TrackableObject),
      populate wide root target = some (Ks, root') ∧ Sound root' m' ∧ RegionTree.Apart m' ∧
      Lib.Tiles Contains Ks target.Contains ∧ (∀ k ∈ Ks, m' k ≠ none) ∧
      RegionTree.Descends TrackableObject.copy m m' target := by
  obtain ⟨root', m', whole, output, hrun, hroot', hm', hpop, hdesc⟩ :=
    RegionTree.exists_populated wide TrackableObject.copy hm.wellShaped hm.holds hapart
      hwhole.2.lastBitsWhole
  refine ⟨output ++ whole.toList, root', m', ?_, ⟨hroot', hm'⟩, hpop.apart,
    hpop.tiles.perm List.perm_append_comm, fun k hk => ?_, hdesc⟩
  · rw [populate, hrun]
    have hmap : (output.map toRegion ++ (whole.map toRegion).toList).map fullRegion =
        output ++ whole.toList := by
      cases whole <;> simp [Function.comp_def]
    exact congrArg (fun l => some (l, root')) hmap
  · obtain ⟨d, hd⟩ := hpop.leaves k (List.perm_append_comm.mem_iff.1 hk)
    rw [hd]
    simp

end

/-! ## The invariant of the leaves -/

/-- The leaves are disjoint, and the readers of a leaf come after its last writer. -/
structure Leaves (s : State) : Prop where
  apart : ∀ k k', s.map.Has k → s.map.Has k' → k ≠ k' → ¬ k.Intersects k'
  writer : ∀ k w, (s.map.view k).lastWriter = some w → w < s.lastDepObjId
  readAfter : ∀ k w r, (s.map.view k).lastWriter = some w → s.Live w →
    r ∈ (s.map.view k).versionReaders → ReflTransGen s.Edge w r

section
variable {s s' : State} {g : Nat → Int} {A : Nat → Accesses} {m : FullRegion → Option TrackableObject}
  {k : FullRegion} {t u x : Nat}

/-- New objects, changes of counters and completions keep the invariant of the leaves. -/
theorem upheld_leaves : RegionDomain.Upheld Leaves where
  start := by
    intro s g A h
    have heq : RegionDomain.enter s false = s.newObj { numPredecessors := 0 + 1 } :=
      increasePredecessors_newObj _
    rw [heq]
    refine ⟨h.rest.apart, fun k w hw => Nat.lt_succ_of_lt (h.rest.writer k w hw),
      fun k w r hw hlive hr => ?_⟩
    have hold : s.Live w :=
      ((newObj_live rfl).1 hlive).resolve_right (Nat.ne_of_lt (h.rest.writer k w hw))
    exact ReflTransGen.mono (fun u v => (newObj_edge rfl rfl).2) _ _ (h.rest.readAfter k w r hw hold hr)
  sameGraph := by
    intro s s' h hg hmap
    refine ⟨fun k k' hk hk' => h.apart k k' (hmap ▸ hk) (hmap ▸ hk'), fun k w hw => ?_,
      fun k w r hw hlive hr => ?_⟩
    · rw [hg.size]
      exact h.writer k w (hmap ▸ hw)
    · have hE : s'.Edge = s.Edge := hg.edge_eq
      rw [hE]
      exact h.readAfter k w r (hmap ▸ hw) (hg.live.1 hlive) (hmap ▸ hr)
  finish := by
    intro s A x h hx hnum
    obtain ⟨m, hm⟩ := h.sound
    obtain ⟨-, hcnt⟩ := h.graph.finish hx hnum
    obtain ⟨m', hm', hkeys, hforgets⟩ := forgets_retire hm x
    rw [← hcnt.map] at hm' hforgets
    have hhas : ∀ k, (s.finish x).map.Has k → s.map.Has k := fun k hk =>
      (RegionMap.has_iff hm).2 (hkeys k ((RegionMap.has_iff hm').1 hk))
    refine ⟨fun k k' hk hk' => h.rest.apart k k' (hhas k hk) (hhas k' hk'), fun k w hw => ?_,
      fun k w r hw hlive hr => ?_⟩
    · rw [show (s.finish x).lastDepObjId = s.lastDepObjId from hcnt.size]
      exact h.rest.writer k w ((hforgets k).lastWriter_of w hw)
    · obtain ⟨hlive, hne⟩ := (h.graph.finish_live hx hnum).1 hlive
      exact Lib.reflTransGen_avoid (h.graph.not_edge hx hnum)
        (fun u v huv hu => (h.graph.finish_edge hx hnum).2 ⟨huv, hu⟩)
        (h.rest.readAfter k w r ((hforgets k).lastWriter_of w hw) hlive ((hforgets k).readers_of r hr)) hne

theorem leaves_init : Leaves RegionDomain.init.dom := by
  have hview : ∀ k, RegionDomain.init.dom.map.view k = {} := RegionMap.view_eq sound_emptyRoot
  refine ⟨fun k k' hk => ?_, fun k w hw => ?_, fun k w r hw => ?_⟩
  · have := (RegionMap.has_iff sound_emptyRoot).1 hk
    exact absurd rfl this
  · rw [hview] at hw
    cases hw
  · rw [hview] at hw
    cases hw

/-! ## The leaves that an access runs over -/

/-- The state in which an access runs over the leaves `Ks`: they tile its region, and the invariant holds. -/
structure Populated (s : State) (g : Nat → Int) (A : Nat → Accesses) (target : FullRegion)
    (Ks : List FullRegion) (root : RegionMap) : Prop where
  inv : ConflictInv Leaves { s with map := root } g A
  nodup : Ks.Nodup
  tiles : Lib.Tiles Contains Ks target.Contains
  has : ∀ k ∈ Ks, root.Has k

/-- A region of which something is recorded has a leaf. -/
theorem has_of_recorded (hm : Sound s.map m)
    (h : (∃ w, (s.map.view k).lastWriter = some w) ∨ ∃ r, r ∈ (s.map.view k).versionReaders) :
    s.map.Has k := by
  by_contra hnot
  have hnone : m k = none := by
    by_contra hk
    exact hnot ((RegionMap.has_iff hm).2 hk)
  rw [RegionMap.view_eq hm, hnone] at h
  simp at h

/-- What was recorded of an address is still recorded there when leaves without readers are cut. -/
theorem exists_recorded {target L : FullRegion} {root : RegionMap} {m' : FullRegion → Option TrackableObject}
    {a : BitVec 64} (hm : Sound s.map m) (hm' : Sound root m') (hwhole : Whole s.map target)
    (hdesc : RegionTree.Descends TrackableObject.copy m m' target) (ha : L.Contains a) (hL : s.map.Has L) :
    ∃ k, k.Contains a ∧ (root.view k).lastWriter = (s.map.view L).lastWriter ∧
      ∀ r ∈ (s.map.view L).versionReaders, r ∈ (root.view k).versionReaders := by
  obtain ⟨d, hd⟩ := Option.ne_none_iff_exists'.1 ((RegionMap.has_iff hm).1 hL)
  obtain ⟨k, d', hk, hka, hdata⟩ := hdesc.kept L d a hd ha
  refine ⟨k, hka, ?_⟩
  rw [RegionMap.view_eq hm, RegionMap.view_eq hm', hd, hk]
  rcases hdata with rfl | ⟨rfl, hint, hne, hcut⟩
  · exact ⟨rfl, fun r hr => hr⟩
  · refine ⟨rfl, fun r hr => ?_⟩
    have hnone := hwhole.readers hm hd hint hne hcut
    simp [hnone] at hr

/-- A leaf records nothing that was not recorded in one leaf before. -/
theorem exists_origin {target k : FullRegion} {root : RegionMap} {m' : FullRegion → Option TrackableObject}
    (hm : Sound s.map m) (hm' : Sound root m')
    (hdesc : RegionTree.Descends TrackableObject.copy m m' target) :
    root.view k = {} ∨ ∃ L, (root.view k).lastWriter = (s.map.view L).lastWriter ∧
      (∀ r ∈ (root.view k).versionReaders, r ∈ (s.map.view L).versionReaders) ∧
      ((s.map.view L).commDO = none → (root.view k).commDO = none) := by
  rw [RegionMap.view_eq hm']
  cases hk : m' k with
  | none => exact .inl rfl
  | some d' =>
    rcases hdesc.origin k d' hk with ⟨-, rfl⟩ | ⟨L, d, hL, -, rfl | rfl⟩
    · exact .inl rfl
    · refine .inr ⟨L, ?_⟩
      rw [RegionMap.view_eq hm, hL]
      exact ⟨rfl, fun r hr => hr, fun h => h⟩
    · refine .inr ⟨L, ?_⟩
      rw [RegionMap.view_eq hm, hL]
      exact ⟨rfl, fun r hr => absurd hr List.not_mem_nil, fun _ => rfl⟩

/-- The first part of an access: the leaves of its region, put on hold. -/
theorem exists_populated (wide : BitVec 64 → Option (BitVec 64)) {target : FullRegion}
    (h : ConflictInv Leaves s g A) (hwhole : Whole s.map target) :
    ∃ Ks root, populate wide s.map target = some (Ks, root) ∧
      Populated s g A target Ks ((Ks.map (·.toRegion)).foldl RegionMap.hold root) := by
  obtain ⟨m, hm⟩ := h.sound
  have hapart : RegionTree.Apart m := fun k k' d d' hk hk' =>
    h.rest.apart k k' ((RegionMap.has_iff hm).2 (by simp [hk])) ((RegionMap.has_iff hm).2 (by simp [hk']))
  obtain ⟨Ks, root, m₁, hpopulate, h₁, hapart₁, htiles, hKs, hdesc⟩ := exists_populate wide hm hapart hwhole
  have hnodup : Ks.Nodup := htiles.disjoint.imp fun hdisj heq => by
    obtain ⟨x, hx⟩ := exists_contains _
    exact hdisj x hx (heq ▸ hx)
  obtain ⟨m₂, h₂, hkeys, hview⟩ := RegionMap.hold_spec h₁ hnodup hKs
  refine ⟨Ks, root, hpopulate, ?_, hnodup, htiles, fun k hk =>
    (RegionMap.has_iff h₂).2 ((hkeys k).2 (hKs k hk))⟩
  refine ⟨h.graph.of_sameGraph (sameGraph_map _) fun y => ⟨rfl, rfl, rfl⟩, ⟨m₂, h₂⟩, fun k => ?_, ?_, h.fresh,
    fun k k' hk hk' hne hint => ?_, fun k w hw => ?_, fun k w r hw hlive hr => ?_⟩
  · show (RegionMap.view _ k).commDO = none
    rw [hview]
    rcases exists_origin hm h₁ hdesc with hnone | ⟨L, -, -, hcomm⟩
    · rw [hnone]
    · exact hcomm (h.closed L)
  · refine h.safe.weaken (fun _ _ _ hacc => hacc) fun u a wu _ hcov => ?_
    obtain ⟨L, ha, hrec⟩ := hcov
    have hL : s.map.Has L := has_of_recorded hm
      (hrec.imp (fun ⟨w, hw, _⟩ => ⟨w, hw⟩) fun ⟨_, hr⟩ => ⟨u, hr⟩)
    obtain ⟨k, hk, hwriter, hreaders⟩ := exists_recorded hm h₁ hwhole hdesc ha hL
    rw [← hview] at hwriter hreaders
    rcases hrec with ⟨w, hw, huw⟩ | ⟨rfl, hr⟩
    · exact Lib.Covers.of_writer (k := k) hk (hwriter.trans hw) huw
    · exact Lib.Covers.of_reader (k := k) hk (hreaders u hr)
  · obtain ⟨d, hd⟩ := Option.ne_none_iff_exists'.1 ((hkeys k).1 ((RegionMap.has_iff h₂).1 hk))
    obtain ⟨d', hd'⟩ := Option.ne_none_iff_exists'.1 ((hkeys k').1 ((RegionMap.has_iff h₂).1 hk'))
    exact hapart₁ k k' d d' hd hd' hne hint
  · rw [hview] at hw
    rcases exists_origin hm h₁ hdesc with hnone | ⟨L, hwriter, -⟩
    · rw [hnone] at hw
      cases hw
    · exact h.rest.writer L w (hwriter.symm.trans hw)
  · rw [hview] at hw hr
    rcases exists_origin hm h₁ hdesc with hnone | ⟨L, hwriter, hreaders, -⟩
    · rw [hnone] at hw
      cases hw
    · exact h.rest.readAfter L w r (hwriter.symm.trans hw) hlive (hreaders r hr)

/-! ## One leaf -/

/-- What the access of the task `t` to one leaf does: what the leaf records comes before the task, but for
a writer with readers after it where the access writes, and the leaf records the access. -/
structure Accessed (t : Nat) (k : FullRegion) (output : Bool) (P : Nat → Prop) (s s' : State) : Prop where
  grown : Grown t P s s'
  writer : ∀ w, (s.map.view k).lastWriter = some w →
    P w ∨ output = true ∧ (s.map.view k).versionReaders ≠ []
  readers : output = true → ∀ r ∈ (s.map.view k).versionReaders, P r
  sound : ∃ m, Sound s'.map m
  has : ∀ j, j ≠ k → (s'.map.Has j ↔ s.map.Has j)
  view : ∀ j, s'.map.view j = if j = k then
      if output then (s.map.view k).flushReaders.setLastWriter t else (s.map.view k).setReader t
    else s.map.view j

/-- The end of a round: the leaf goes if nothing is recorded. -/
theorem release_spec {root : RegionMap} (h : Sound root m) (hk : m k ≠ none) :
    ∃ m', Sound (release root k.toRegion) m' ∧ (∀ j, j ≠ k → (m' j ≠ none ↔ m j ≠ none)) ∧
      ∀ j, (release root k.toRegion).view j = root.view j := by
  obtain ⟨d, hd⟩ := Option.ne_none_iff_exists'.1 hk
  have hst : StatusMap.status root k.toRegion = d := by
    rw [RegionMap.status_eq h, hd]
    rfl
  have hupdate := RegionMap.sound_update h hd { d with hold := false }
    ({ d with hold := false } : TrackableObject).isEmpty
  have heq : release root k.toRegion = if ({ d with hold := false } : TrackableObject).isEmpty = true then
      erase (StatusMap.setStatus root k.toRegion { d with hold := false } : RegionMap) k.toRegion
      else StatusMap.setStatus root k.toRegion { d with hold := false } := by
    rw [release, hst]
  rw [← heq] at hupdate
  refine ⟨_, hupdate, fun j hj => by rw [if_neg hj], fun j => ?_⟩
  rw [RegionMap.view_eq hupdate, RegionMap.view_eq h]
  by_cases hj : j = k
  · rw [if_pos hj, hj, hd]
    split
    · next hempty => exact (RegionMap.eq_of_isEmpty hempty).symm
    · rfl
  · rw [if_neg hj]

/-- A write to a leaf and the end of the round. -/
theorem accessed_write {l : List Nat} (hm : Sound s.map m) (hk : m k ≠ none) (hw : (s.obj t).waits = false)
    (hs' : s' = (s.dependAll t l).setAsWriter t k.toRegion k)
    (hwriter : ∀ w, (s.map.view k).lastWriter = some w → w ∈ l ∨ (s.map.view k).versionReaders ≠ [])
    (hreaders : ∀ r ∈ (s.map.view k).versionReaders, r ∈ l) :
    Accessed t k true (· ∈ l) s { s' with map := release s'.map k.toRegion } := by
  subst hs'
  obtain ⟨hgrown, m₁, h₁, hkeys₁, hview₁⟩ := RegionDomain.setAsWriter_dependAll_spec l k hm hk hw
  obtain ⟨m', h', hkeys', hview'⟩ := release_spec h₁ ((hkeys₁ k).2 hk)
  refine ⟨(hgrown.trans (grown_map _)).congr fun u => by simp,
    fun w hlw => (hwriter w hlw).imp_right (⟨rfl, ·⟩), fun _ => hreaders, ⟨m', h'⟩, fun j hj => ?_,
    fun j => (hview' j).trans (hview₁ j)⟩
  rw [RegionMap.has_iff h', RegionMap.has_iff hm, hkeys' j hj, hkeys₁]

/-- A read of a leaf and the end of the round. -/
theorem accessed_read {l : List Nat} (hm : Sound s.map m) (hk : m k ≠ none)
    (hs' : s' = (s.dependAll t l).addAsReader t k.toRegion)
    (hwriter : ∀ w, (s.map.view k).lastWriter = some w → w ∈ l) :
    Accessed t k false (· ∈ l) s { s' with map := release s'.map k.toRegion } := by
  subst hs'
  obtain ⟨hgrown, m₁, h₁, hkeys₁, hview₁⟩ := RegionDomain.addAsReader_dependAll_spec (t := t) l hm hk
  obtain ⟨m', h', hkeys', hview'⟩ := release_spec h₁ ((hkeys₁ k).2 hk)
  refine ⟨(hgrown.trans (grown_map _)).congr fun u => by simp, fun w hlw => .inl (hwriter w hlw), nofun,
    ⟨m', h'⟩, fun j hj => ?_, fun j => (hview' j).trans (hview₁ j)⟩
  rw [RegionMap.has_iff h', RegionMap.has_iff hm, hkeys' j hj, hkeys₁]

/-- The round for one leaf. -/
theorem exists_accessed {ty : AccessType} (hm : Sound s.map m) (hk : m k ≠ none)
    (hclosed : (s.map.view k).commDO = none) (hw : (s.obj t).waits = false) (hty : ty.Plain) :
    ∃ P s', accessSubregion t ty s k = .ok s' ∧ Accessed t k ty.output P s s' := by
  have hclosed' : (s.statusAt k.toRegion).commDO = none := hclosed
  have hmem : ∀ w, (s.map.view k).lastWriter = some w → w ∈ (s.statusAt k.toRegion).lastWriter.toList :=
    fun w hlw => by
      rw [show (s.statusAt k.toRegion).lastWriter = some w from hlw]
      simp
  rcases hty with rfl | rfl | rfl
  · exact ⟨_, _, rfl, accessed_read hm hk (inputAccess_eq hclosed' hw) hmem⟩
  · refine ⟨_, _, rfl, accessed_write hm hk hw (outputAccess_eq hclosed') (fun w hlw => ?_) fun r hr => ?_⟩
    · by_cases hread : (s.statusAt k.toRegion).hasReaders = true
      · have hne : (s.statusAt k.toRegion).versionReaders ≠ [] := by
          simpa [TrackableObject.hasReaders] using hread
        exact .inr hne
      · rw [if_neg hread]
        exact .inl (hmem w hlw)
    · have hread : (s.statusAt k.toRegion).hasReaders = true := by
        have hne : (s.statusAt k.toRegion).versionReaders ≠ [] := List.ne_nil_of_mem hr
        simpa [TrackableObject.hasReaders] using hne
      rw [if_pos hread]
      exact hr
  · exact ⟨_, _, rfl, accessed_write hm hk hw (inoutAccess_eq hclosed')
      (fun w hlw => .inl (List.mem_append_left _ (hmem w hlw))) fun r hr => List.mem_append_right _ hr⟩

variable {P : Nat → Prop} {output : Bool}

/-- What covers an address of the leaf is recorded in the leaf, and comes before the task unless both only
read. -/
theorem Accessed.reach {wu : Bool} {a : BitVec 64} (hacc : Accessed t k output P s s')
    (h : ConflictInv Leaves s g A) (hk : s.map.Has k) (hu : s.Live u) (ha : k.Contains a)
    (hconf : (wu || output) = true) (hcov : Lib.Covers (tracker s) s.Edge u a wu) :
    ReflTransGen s'.Edge u t := by
  obtain ⟨m, hm⟩ := h.sound
  have hmono : ∀ {v w}, ReflTransGen s.Edge v w → ReflTransGen s'.Edge v w :=
    fun hvw => ReflTransGen.mono (fun u v => hacc.grown.mono) _ _ hvw
  obtain ⟨j, hj, hrec⟩ := hcov
  have hhas : s.map.Has j := has_of_recorded hm
    (hrec.imp (fun ⟨w, hw, _⟩ => ⟨w, hw⟩) fun ⟨_, hr⟩ => ⟨u, hr⟩)
  obtain rfl : j = k := by
    by_contra hne
    exact h.rest.apart j k hhas hk hne ⟨a, hj, ha⟩
  rcases hrec with ⟨w, hw, huw⟩ | ⟨rfl, hr⟩
  · have hlive := h.graph.live_of_path hu huw
    rcases hacc.writer w hw with hP | ⟨rfl, hne⟩
    · exact (hmono huw).trans (hacc.grown.reach hlive hP)
    · -- the task looks at the readers only, which come after the writer
      obtain ⟨r, hr⟩ := List.exists_mem_of_ne_nil _ hne
      have hwr := h.rest.readAfter j w r hw hlive hr
      exact (hmono (huw.trans hwr)).trans
        (hacc.grown.reach (h.graph.live_of_path hlive hwr) (hacc.readers rfl r hr))
  · exact hacc.grown.reach hu (hacc.readers hconf u hr)

/-- The leaf covers the access. -/
theorem Accessed.covers {a : BitVec 64} (hacc : Accessed t k output P s s') (ha : k.Contains a) :
    Lib.Covers (tracker s') s'.Edge t a output := by
  have hview := hacc.view k
  rw [if_pos rfl] at hview
  cases output with
  | true =>
    refine Lib.Covers.of_writer (k := k) ha ?_ .refl
    show (s'.map.view k).lastWriter = some t
    rw [hview]
    rfl
  | false =>
    refine Lib.Covers.of_reader (k := k) ha ?_
    show t ∈ (s'.map.view k).versionReaders
    rw [hview]
    exact List.mem_append_right _ (List.mem_singleton.2 rfl)

/-- A leaf keeps its last writer and readers, or the access writes the address. -/
theorem Accessed.kept {a : BitVec 64} {j : FullRegion} (hacc : Accessed t k output P s s')
    (hj : j.Contains a) : k.Contains a ∧ output = true ∨ j.Contains a ∧
      (s'.map.view j).lastWriter = (s.map.view j).lastWriter ∧
      ∀ r ∈ (s.map.view j).versionReaders, r ∈ (s'.map.view j).versionReaders := by
  have hview := hacc.view j
  by_cases hjk : j = k
  · rw [if_pos hjk] at hview
    cases output with
    | true => exact .inl ⟨hjk ▸ hj, rfl⟩
    | false =>
      rw [hview, hjk]
      exact .inr ⟨hjk ▸ hj, rfl, fun r hr => List.mem_append_left _ hr⟩
  · rw [if_neg hjk] at hview
    rw [hview]
    exact .inr ⟨hj, rfl, fun r hr => hr⟩

/-- The access of a leaf keeps the invariant of the leaves. -/
theorem Accessed.leaves (hacc : Accessed t k output P s s') (h : ConflictInv Leaves s g A) (ht : Current t s)
    (hk : s.map.Has k) : Leaves s' where
  apart j j' hj hj' := by
    have hhas : ∀ i, s'.map.Has i → s.map.Has i := fun i hi => by
      by_cases hik : i = k
      · exact hik ▸ hk
      · exact (hacc.has i hik).1 hi
    exact h.rest.apart j j' (hhas j hj) (hhas j' hj')
  writer j w hw := by
    rw [hacc.view] at hw
    rw [hacc.grown.size]
    split_ifs at hw
    · cases hw
      exact ht.live.1
    · exact h.rest.writer k w hw
    · exact h.rest.writer j w hw
  readAfter j w r hw hlive hr := by
    rw [hacc.grown.live] at hlive
    rw [hacc.view] at hw hr
    split_ifs at hw hr with hj hout
    · cases hr
    · rcases List.mem_append.1 hr with hr | hr
      · exact ReflTransGen.mono (fun u v => hacc.grown.mono) _ _ (h.rest.readAfter k w r hw hlive hr)
      · obtain rfl := List.mem_singleton.1 hr
        exact hacc.grown.reach hlive ((hacc.writer w hw).resolve_right fun hread => hout hread.1)
    · exact ReflTransGen.mono (fun u v => hacc.grown.mono) _ _ (h.rest.readAfter j w r hw hlive hr)

/-- **One leaf.** The access of a leaf keeps the invariant. -/
theorem ConflictInv.accessed {ty : AccessType} (hacc : Accessed t k ty.output P s s')
    (h : ConflictInv Leaves s g A) (ht : Current t s) (hk : s.map.Has k) :
    ConflictInv Leaves s' g (withAccesses A t [(k, ty)]) := by
  refine ⟨hacc.grown.graph g ht.live h.graph, hacc.sound, fun j => ?_, ?_, fun u hu => ?_,
    hacc.leaves h ht hk⟩
  · rw [hacc.view]
    split_ifs
    · exact h.closed k
    · exact h.closed k
    · exact h.closed j
  · exact h.safe.access_of_kept (R := k.Contains) (fun u v => hacc.grown.mono) hacc.grown.live ht.live
      (fun u a writes => h.le_current ht) (fun u a wu hu ha hconf hcov => hacc.reach h hk hu ha hconf hcov)
      (fun j a hj => hacc.kept hj) (fun a ha => hacc.covers ha)
      fun u a writes => RegionDomain.accOf_withAccesses
  · exact h.fresh_withAccesses ht (hacc.grown.size ▸ hu)

/-! ## One access -/

/-- The loop over the leaves. -/
theorem exists_accessSubregions {ty : AccessType} {Ks : List FullRegion} (h : ConflictInv Leaves s g A)
    (ht : Current t s) (hty : ty.Plain) (hnodup : Ks.Nodup) (hKs : ∀ k ∈ Ks, s.map.Has k) :
    ∃ s', Ks.foldlM (accessSubregion t ty) s = .ok s' ∧
      ConflictInv Leaves s' g (withAccesses A t (Ks.map (·, ty))) ∧ Current t s' := by
  induction Ks generalizing s A with
  | nil => exact ⟨s, rfl, RegionDomain.withAccesses_nil.symm ▸ h, ht⟩
  | cons k Ks ih =>
    obtain ⟨hk, hnodup⟩ := List.nodup_cons.1 hnodup
    obtain ⟨m, hm⟩ := h.sound
    have hhas := hKs k List.mem_cons_self
    obtain ⟨P, s₁, hrun₁, hacc⟩ :=
      exists_accessed hm ((RegionMap.has_iff hm).1 hhas) (h.closed k) ht.waits hty
    obtain ⟨s', hrun, h', ht'⟩ := ih (ConflictInv.accessed hacc h ht hhas) (hacc.grown.current ht) hnodup
      fun j hj => (hacc.has j fun heq => hk (heq ▸ hj)).2 (hKs j (List.mem_cons_of_mem _ hj))
    rw [RegionDomain.withAccesses_append] at h'
    refine ⟨s', ?_, h', ht'⟩
    rw [List.foldlM_cons, hrun₁]
    exact hrun

/-- The end of an access: the task is given its target. -/
theorem submitDependableObjectDataAccess_eq {wide : BitVec 64 → Option (BitVec 64)} {target : FullRegion}
    {ty : AccessType} {Ks : List FullRegion} {root : RegionMap} {s₂ : State} (hty : ty.Plain)
    (hpopulate : populate wide s.map target = some (Ks, root))
    (hrun : Ks.foldlM (accessSubregion t ty)
      { s with map := (Ks.map (·.toRegion)).foldl RegionMap.hold root } = .ok s₂)
    (hw : (s₂.obj t).waits = false) :
    submitDependableObjectDataAccess wide s t target ty =
      .ok (if ty.output then s₂.addWriteTarget t target else s₂.addReadTarget t target) := by
  have hnot : ¬ (((s₂.obj t).waits || false) || false) = true := by
    rw [hw]
    exact Bool.false_ne_true
  unfold submitDependableObjectDataAccess
  rw [hpopulate]
  dsimp only
  rw [hrun]
  rcases hty with rfl | rfl | rfl <;> exact congrArg Except.ok (if_neg hnot)

/-- The targets of a task are not part of the invariant. -/
theorem ConflictInv.modifyObj {f : DependableObject FullRegion → DependableObject FullRegion}
    (hf : ∀ o, f o = { o with outputObjects := (f o).outputObjects
                              readObjects := (f o).readObjects })
    (h : ConflictInv Leaves s g A) (ht : Current t s) :
    ConflictInv Leaves (s.modifyObj t f) g A ∧ Current t (s.modifyObj t f) := by
  have hgrown := grown_modifyObj (s := s) (t := t) (x := t) hf
  refine ⟨h.of_sameGraph upheld_leaves (sameGraph_modifyObj ?_ ?_) rfl (hgrown.graph g ht.live h.graph),
    hgrown.current ht⟩
  · rw [hf]
  · rw [hf]

/-- **One access of the task in progress keeps the invariant**, if it cuts no leaf that has readers. -/
theorem keeps_submitDependableObjectDataAccess (wide : BitVec 64 → Option (BitVec 64)) :
    RegionDomain.Keeps (submitDependableObjectDataAccess wide)
      (fun s target ty => ty.Plain ∧ Whole s.map target) Leaves := by
  rintro s t target ty g A h ht ⟨hty, hwhole⟩
  obtain ⟨Ks, root, hpopulate, hpop⟩ := exists_populated wide h hwhole
  have ht₁ := (grown_map (s := s) (t := t) ((Ks.map (·.toRegion)).foldl RegionMap.hold root)).current ht
  obtain ⟨s₂, hrun, h₂, ht₂⟩ := exists_accessSubregions hpop.inv ht₁ hty hpop.nodup hpop.has
  obtain ⟨h₃, ht₃⟩ : let s' := if ty.output then s₂.addWriteTarget t target else s₂.addReadTarget t target
      ConflictInv Leaves s' g (withAccesses A t (Ks.map (·, ty))) ∧ Current t s' := by
    split_ifs
    · exact ConflictInv.modifyObj (fun _ => rfl) h₂ ht₂
    · exact ConflictInv.modifyObj (fun _ => rfl) h₂ ht₂
  refine ⟨_, submitDependableObjectDataAccess_eq hty hpopulate hrun ht₂.waits, ?_, ht₃⟩
  refine ⟨h₃.graph, h₃.sound, h₃.closed, h₃.safe.weaken (fun u a writes hacc => ?_) fun _ _ _ _ hcov => hcov,
    fun u hu => h.fresh_withAccesses ht ?_, h₃.rest⟩
  · -- an address of the region lies in one of the leaves
    rcases RegionDomain.accOf_withAccesses hacc with hold | ⟨hut, ha, hout⟩
    · exact RegionDomain.accOf_withAccesses_iff.2 (.inl hold)
    · obtain ⟨k, hk, hka⟩ := (hpop.tiles.union a).1 ha
      exact RegionDomain.accOf_withAccesses_iff.2
        (.inr ⟨hut, (k, ty), List.mem_map_of_mem hk, hka, hout.symm⟩)
  · rw [ht.newest, ← ht₃.newest]
    exact hu

end

/-! ## Runs -/

/-- The steps in which no coalesced access cuts a leaf that has readers. -/
abbrev LeavesKept (wide : BitVec 64 → Option (BitVec 64)) : Sys → Event → Prop :=
  RegionDomain.AccessesMeet wide (submitDependableObjectDataAccess wide) fun s target _ => Whole s.map target

section
variable {S : Sys} {t u : Nat}

/-- **Conflict safety of the perfect region domain.** In every state that submissions of `in`, `out` and
`inout` accesses and completions reach, where coalescing the accesses of a task cuts nothing at its last bit
and no coalesced access cuts a leaf that has readers, a task whose counter is 0 has no unfinished earlier task
with an access whose region intersects one of its own, one of the two writing. -/
theorem finished_of_leaves_intersect_of_numPredecessors_eq_zero (wide : BitVec 64 → Option (BitVec 64))
    (h : Lib.Reach (step wide) (fun S ev => PlainSubmit ev ∧ CoalescedWhole wide ev ∧ LeavesKept wide S ev)
      RegionDomain.init S) (hut : u < t)
    (ht : t < S.dom.lastDepObjId) (hconf : Conflict S u t)
    (hnum : (S.dom.obj t).numPredecessors = 0) : (S.dom.obj u).finished = true := by
  have hinv := h.invariant (I := RunInv Leaves) (RegionDomain.runInv_init leaves_init)
    fun S ev S' hinv ⟨hplain, hcoalesced, hok⟩ hs =>
      hinv.step upheld_leaves (keeps_submitDependableObjectDataAccess wide) hplain hcoalesced hok hs
  exact hinv.finished hut ht hconf hnum

/-- A run in which a read cuts the leaf of a writer and a write takes the leaf of the reader. -/
theorem finished_of_leaves_intersect_of_cut_written_leaf :
    ∃ S, Lib.Reach (step fun _ => none)
        (fun S ev => PlainSubmit ev ∧ CoalescedWhole (fun _ => none) ev ∧ LeavesKept (fun _ => none) S ev)
        RegionDomain.init S ∧
      (S.dom.obj 2).numPredecessors = 0 ∧ (S.dom.obj 1).finished = true := by
  obtain ⟨S, hS, hp⟩ := Lib.exists_reach_of_guarded_run (step fun _ => none)
    (fun S ev => PlainSubmit ev ∧ CoalescedWhole (fun _ => none) ev ∧ LeavesKept (fun _ => none) S ev)
    RegionDomain.init
    [.submit [(⟨~~~15#64, 16#64, rfl⟩, .outAccess)], .submit [(⟨~~~7#64, 16#64, rfl⟩, .inAccess)],
      .submit [(⟨~~~7#64, 16#64, rfl⟩, .outAccess)], .finish 0, .finish 1]
    (fun S => decide (2 < S.dom.lastDepObjId ∧ (⟨~~~7#64, 16#64, rfl⟩, .inAccess) ∈ S.accesses 1 ∧
      (⟨~~~7#64, 16#64, rfl⟩, .outAccess) ∈ S.accesses 2 ∧ (S.dom.obj 2).numPredecessors = 0))
    (by decide +kernel)
  obtain ⟨h2, ha, hb, hnum⟩ := of_decide_eq_true hp
  exact ⟨S, hS, hnum, finished_of_leaves_intersect_of_numPredecessors_eq_zero _ hS (by decide) h2
    ⟨_, _, _, _, ha, hb, ⟨16#64, rfl, rfl⟩, .inr rfl⟩ hnum⟩

/-- A read of 16 bytes, and a write of the first 8 of them: the leaf of the read is cut, its parts have no
reader, and the writer can run before the reader has finished. -/
theorem ready_of_cut_read_leaf :
    ∃ S, Lib.Reach (step fun _ => none) (fun _ ev => PlainSubmit ev) RegionDomain.init S ∧
      RegionDomain.Ready S.dom 1 ∧ (S.dom.obj 0).finished = false ∧ Conflict S 0 1 := by
  obtain ⟨S, hS, hp⟩ := Lib.exists_reach_of_run (step fun _ => none) PlainSubmit RegionDomain.init
    [.submit [(⟨~~~15#64, 16#64, rfl⟩, .inAccess)], .submit [(⟨~~~7#64, 16#64, rfl⟩, .outAccess)]]
    (by decide)
    (fun S => decide (RegionDomain.Ready S.dom 1 ∧ (S.dom.obj 0).finished = false ∧
      (⟨~~~15#64, 16#64, rfl⟩, .inAccess) ∈ S.accesses 0 ∧
      (⟨~~~7#64, 16#64, rfl⟩, .outAccess) ∈ S.accesses 1))
    (by decide +kernel)
  obtain ⟨hready, hfin, ha, hb⟩ := of_decide_eq_true hp
  exact ⟨S, hS, hready, hfin, _, _, _, _, ha, hb, ⟨16#64, rfl, rfl⟩, .inr rfl⟩

end

end OmpSs.Deps.Perfect
