import OmpSs.Deps.CRegionsAccess

/-!
# Conflict safety of the contiguous regions domain

An access keeps the invariant if it misses nothing (`Ordered`): its lookup is not misled, and there is no last
writer that it would have to look at and does not. The accesses of a task to one range are put in common
(`filteredDeps`), and the invariant is about these. So the domain is safe in the runs in which no access
misses anything, and not safe otherwise (`ready_of_same_address`).
-/

namespace OmpSs.Deps

namespace CRegions

open DepState Relation

theorem target_contains {dep : DataAccess} {x : Nat} (hne : dep.depAddress ≠ 0) :
    (target dep).Contains x ↔ dep.Contains x := by
  have hfits := dep.fits
  have heq : dep.depAddress + dep.size + 2 ^ 64 - 1 = dep.depAddress + dep.size - 1 + 2 ^ 64 := by omega
  have hend : (target dep).endAddress = dep.depAddress + dep.size - 1 := by
    show (dep.depAddress + dep.size + 2 ^ 64 - 1) % 2 ^ 64 = _
    rw [heq, Nat.add_mod_right, Nat.mod_eq_of_lt (by omega)]
  have haddr : (target dep).address = dep.depAddress := rfl
  unfold DepsRegion.Contains DataAccess.Contains
  rw [hend, haddr]
  omega

theorem target_fits (dep : DataAccess) : (target dep).Fits := Nat.mod_lt _ (Nat.two_pow_pos 64)

/-! ## The accesses put in common -/

section
variable {accesses deps : List DataAccess} {d newDep : DataAccess}

/-- An access to the same range that writes if the other does. -/
def Stands (d d' : DataAccess) : Prop :=
  d'.depAddress = d.depAddress ∧ d'.size = d.size ∧ (d.flags.output = true → d'.flags.output = true)

theorem Stands.refl : Stands d d := ⟨rfl, rfl, id⟩

theorem Stands.trans {d' d'' : DataAccess} (h : Stands d d') (h' : Stands d' d'') : Stands d d'' :=
  ⟨h'.1.trans h.1, h'.2.1.trans h.2.1, fun hd => h'.2.2 (h.2.2 hd)⟩

/-- The accesses put in common stand for those processed earlier and for the new one. -/
theorem exists_stands_addDep (hd : d = newDep ∨ d ∈ deps) : ∃ d' ∈ addDep newDep deps, Stands d d' := by
  induction deps with
  | nil =>
    obtain rfl := hd.resolve_right List.not_mem_nil
    exact ⟨d, List.mem_singleton.2 rfl, .refl⟩
  | cons currentDep deps ih =>
    unfold addDep
    split
    · next hsame =>
      rcases hd with rfl | hd
      · exact ⟨_, List.mem_cons_self, hsame.1.symm, hsame.2.symm,
          fun hout => Bool.or_eq_true_iff.2 (.inl hout)⟩
      · rcases List.mem_cons.1 hd with rfl | hd
        · exact ⟨_, List.mem_cons_self, rfl, rfl, fun hout => Bool.or_eq_true_iff.2 (.inr hout)⟩
        · exact ⟨d, List.mem_cons_of_mem _ hd, .refl⟩
    · by_cases hcur : d = currentDep
      · exact ⟨d, hcur ▸ List.mem_cons_self, .refl⟩
      · obtain ⟨d', hd', hstands⟩ := ih (hd.imp_right fun hd => (List.mem_cons.1 hd).resolve_left hcur)
        exact ⟨d', List.mem_cons_of_mem _ hd', hstands⟩

/-- Every access that is not to NULL is put in common with one that stands for it. -/
theorem exists_stands (hd : d ∈ accesses) (hne : d.depAddress ≠ 0) :
    ∃ d' ∈ filteredDeps accesses, Stands d d' := by
  suffices h : ∀ deps, d ∈ deps ∨ d ∈ accesses →
      ∃ d' ∈ accesses.foldl (fun deps newDep =>
        if newDep.depAddress = 0 then deps else addDep newDep deps) deps, Stands d d' from h [] (.inr hd)
  clear hd
  induction accesses generalizing d with
  | nil => exact fun deps hd => ⟨d, hd.resolve_right List.not_mem_nil, .refl⟩
  | cons newDep accesses ih =>
    intro deps hd
    rw [List.foldl_cons]
    split
    · next hnull =>
      refine ih hne deps (hd.imp_right fun hd => (List.mem_cons.1 hd).resolve_left fun heq => ?_)
      exact hne (heq ▸ hnull)
    · by_cases hrest : d ∈ accesses
      · exact ih hne _ (.inr hrest)
      · have hnew : d = newDep ∨ d ∈ deps :=
          hd.symm.imp_left fun hd => (List.mem_cons.1 hd).resolve_right hrest
        obtain ⟨d₁, hd₁, hstands₁⟩ := exists_stands_addDep hnew
        obtain ⟨d', hd', hstands⟩ := ih (d := d₁) (hstands₁.1 ▸ hne) _ (.inl hd₁)
        exact ⟨d', hd', hstands₁.trans hstands⟩

theorem plain_addDep (hnew : newDep.flags.Plain) (hdeps : ∀ d ∈ deps, d.depAddress ≠ 0 ∧ d.flags.Plain)
    (hne : newDep.depAddress ≠ 0) : ∀ d ∈ addDep newDep deps, d.depAddress ≠ 0 ∧ d.flags.Plain := by
  induction deps with
  | nil =>
    intro d hd
    obtain rfl := List.mem_singleton.1 hd
    exact ⟨hne, hnew⟩
  | cons currentDep deps ih =>
    obtain ⟨hcur, hdeps⟩ := List.forall_mem_cons.1 hdeps
    unfold addDep
    split
    · refine List.forall_mem_cons.2 ⟨⟨hcur.1, ?_⟩, hdeps⟩
      have hjoin : ∀ a b : AccessType, a.Plain → b.Plain →
          { b with input := a.input || b.input, output := a.output || b.output : AccessType }.Plain := by
        rintro a b (rfl | rfl | rfl) (rfl | rfl | rfl) <;> decide
      exact hjoin _ _ hnew hcur.2
    · exact List.forall_mem_cons.2 ⟨hcur, ih hdeps⟩

/-- No access to NULL is left, and joined flags are those of `in`, `out` or `inout`. -/
theorem plain_filteredDeps (h : ∀ d ∈ accesses, d.flags.Plain) :
    ∀ d ∈ filteredDeps accesses, d.depAddress ≠ 0 ∧ d.flags.Plain := by
  unfold filteredDeps
  refine List.foldlRecOn
    (motive := fun deps => ∀ d : DataAccess, d ∈ deps → d.depAddress ≠ 0 ∧ d.flags.Plain) accesses _
    (fun d hd => absurd hd List.not_mem_nil) fun deps hdeps newDep hnew => ?_
  split
  · exact hdeps
  · next hne => exact plain_addDep (h newDep hnew) hdeps hne

end

section
variable {s s' : State} {g : Nat → Int} {A : Nat → List DataAccess} {t u k x : Nat} {writes : Bool}
  {ty : AccessType}

/-! ## One access -/

/-- The lookup does not change what the statuses record. -/
theorem Listed.lookup {m : CRegionsMap} {r : DepsRegion} {statusMap : Registered}
    (h : Listed s t statusMap) (htrackable : ∀ k, m.trackable k = s.map.trackable k)
    (hrange : ∀ k, m.range k = if k = r.address then some r else s.map.range k) :
    Listed { s with map := m } t statusMap := by
  have hst : ∀ k, statusAt { s with map := m } k = s.statusAt k := htrackable
  intro k isWriter hk
  obtain ⟨hne, hb⟩ := h k isWriter hk
  refine ⟨?_, fun w hw hlive => hb.lastWriter w (hst k ▸ hw) hlive,
    fun hout u hu hlive => hb.readers hout u (hst k ▸ hu) hlive⟩
  show m.range k ≠ none
  rw [hrange]
  split
  · exact Option.some_ne_none r
  · exact hne

/-- The status of the range of the access is listed. -/
theorem Listed.insertStatus {statusMap : Registered} {isWriter : Bool} (h : Listed s t statusMap)
    (hk : s.map.range k ≠ none) (hb : Before s t k isWriter) :
    Listed s t (insertStatus statusMap k isWriter) := by
  intro j b hj
  unfold CRegions.insertStatus at hj
  split at hj
  · next heq =>
    subst heq
    cases hold : statusMap j with
    | none =>
      rw [hold] at hj
      cases hj
      exact ⟨hk, hb⟩
    | some b' =>
      rw [hold] at hj
      cases hj
      exact h j b' hold
  · exact h j b hj

/-- An access misses nothing: its lookup finds the ranges that it overlaps, and none of them has a last writer
that an `out` access would have to look at. -/
def Ordered (s : State) (statusMap : Registered) (dep : DataAccess) : Prop :=
  s.map.Found (target dep) ∧
    ∀ e ∈ s.map.addressDependencyCache.entries, e.1 ≠ dep.depAddress →
      e.2.1.overlap (target dep) = true → statusMap e.1 = none → ¬ MissesWriter s dep.flags e.1

instance (s : State) (statusMap : Registered) (dep : DataAccess) : Decidable (Ordered s statusMap dep) :=
  inferInstanceAs (Decidable (_ ∧ _))

/-- The lookup keeps the invariant. -/
theorem ConflictInv.lookup {m : CRegionsMap} {r : DepsRegion} (h : ConflictInv s g A)
    (hfound : s.map.Found r) (htables : m.Tables) (htrackable : ∀ k, m.trackable k = s.map.trackable k)
    (hrange : ∀ k, m.range k = if k = r.address then some r else s.map.range k) :
    ConflictInv { s with map := m } g A := by
  have hst : ∀ k, statusAt { s with map := m } k = s.statusAt k := htrackable
  refine ⟨h.graph.of_sameGraph (sameGraph_map m) fun y => ⟨rfl, rfl, rfl⟩, htables,
    fun k => by rw [hst]; exact h.closed k, fun k w hw => h.writer k w (hst k ▸ hw),
    fun k w u hw hlive hu => ?_, h.safe.weaken (fun _ _ _ hacc => hacc) fun u x wu hu hcov => ?_, h.fresh⟩
  · rw [hst] at hw hu
    exact h.readAfter k w u hw hlive hu
  · obtain ⟨k, ⟨r', hr', hx⟩, hrec⟩ := hcov
    refine ⟨k, ⟨r', ?_, hx⟩, ?_⟩
    · show m.range k = some r'
      rw [hrange]
      split
      · next hk =>
        obtain ⟨-, item, hmem⟩ := (CRegionsMap.range_eq_some h.tables).1 hr'
        rw [show r' = r from hfound.1 _ hmem hk]
      · exact hr'
    · show (∃ w, (statusAt { s with map := m } k).lastWriter = some w ∧ _) ∨ _ ∧ u ∈ _
      rw [hst]
      exact hrec

theorem submitDependableObjectDataAccess_eq {statusMap : Registered} {r : DepsRegion} {others : List Nat}
    {p : State × Registered} (hty : ty.Plain)
    (hlookup : (s.map.lookupDependency r).1 = r.address :: others)
    (hrun : others.foldl (CRegions.accessOther t ty)
      (accessOwn { s with map := (s.map.lookupDependency r).2 } t r ty,
        insertStatus statusMap r.address ty.output) = p)
    (hw : (p.1.obj t).waits = false) :
    submitDependableObjectDataAccess s statusMap t r ty =
      .ok (if ty.output then p.1.addWriteTarget t r else p.1.addReadTarget t r, p.2) := by
  have hnot : ¬ (((p.1.obj t).waits || false) || false) = true := by
    rw [hw]
    exact Bool.false_ne_true
  subst hrun
  unfold submitDependableObjectDataAccess
  rw [show s.map.lookupDependency r = (r.address :: others, (s.map.lookupDependency r).2) from
    Prod.ext hlookup rfl]
  rcases hty with rfl | rfl | rfl <;> exact congrArg (fun s => Except.ok (s, _)) (if_neg hnot)

/-- The invariant depends on the graph and the map only. -/
theorem ConflictInv.of_sameGraph {g' : Nat → Int} (h : ConflictInv s g A) (hg : SameGraph s s')
    (hmap : s'.map = s.map) (hgraph : s'.TaskGraph g') : ConflictInv s' g' A := by
  have hE : s'.Edge = s.Edge := hg.edge_eq
  have hL : s'.Live = s.Live := hg.live_eq
  have hst : ∀ k, s'.statusAt k = s.statusAt k := fun k => by
    unfold statusAt
    rw [hmap]
  have htracker : tracker s' = tracker s := by simp only [tracker, hst, hmap]
  refine ⟨hgraph, hmap ▸ h.tables, fun k => by rw [hst]; exact h.closed k,
    fun k w hw => hg.size ▸ h.writer k w (hst k ▸ hw), fun k w r hw hlive hr => ?_, ?_,
    fun u hu => h.fresh u (hg.size ▸ hu)⟩
  · rw [hst] at hw hr
    rw [hE]
    exact h.readAfter k w r hw (hL ▸ hlive) hr
  · rw [hE, hL, htracker]
    exact h.safe

/-- The targets of a task are not part of the invariant. -/
theorem ConflictInv.modifyObj {f : DependableObject DepsRegion → DependableObject DepsRegion}
    (hf : ∀ o, f o = { o with outputObjects := (f o).outputObjects
                              readObjects := (f o).readObjects })
    (h : ConflictInv s g A) (ht : Current t s) :
    ConflictInv (s.modifyObj t f) g A ∧ Advanced t s (s.modifyObj t f) := by
  have hgrown := grown_modifyObj (s := s) (t := t) (x := t) hf
  have hg : SameGraph s (s.modifyObj t f) := sameGraph_modifyObj (by rw [hf]) (by rw [hf])
  have hE : (s.modifyObj t f).Edge = s.Edge := hg.edge_eq
  refine ⟨h.of_sameGraph hg rfl (hgrown.graph g ht.live h.graph), ⟨_, hgrown⟩, fun _ => rfl,
    fun k writes hb => ⟨fun w hw hlive => ?_, fun hout r hr hlive => ?_⟩, fun u x writes _ hcov => ?_⟩
  · rw [hE]
    exact hb.lastWriter w hw (hg.live.1 hlive)
  · rw [hE]
    exact hb.readers hout r hr (hg.live.1 hlive)
  · rw [hE]
    exact hcov

/-- The accesses of `t` with a list of further ones. -/
def withAccesses (A : Nat → List DataAccess) (t : Nat) (deps : List DataAccess) : Nat → List DataAccess :=
  fun u => if u = t then A u ++ deps else A u

theorem withAccesses_nil : withAccesses A t [] = A := by
  funext u
  simp [withAccesses]

theorem withAccesses_append {deps deps' : List DataAccess} :
    withAccesses (withAccesses A t deps) t deps' = withAccesses A t (deps ++ deps') := by
  funext u
  simp only [withAccesses]
  split <;> simp

/-- An access adds its bytes to those of the task. -/
theorem accOf_withAccesses {dep : DataAccess} (h : accOf (withAccesses A t [dep]) u x writes) :
    accOf A u x writes ∨ u = t ∧ dep.Contains x ∧ writes = dep.flags.output := by
  obtain ⟨d, hd, hx, hout⟩ := h
  unfold withAccesses at hd
  split at hd
  · next hut =>
    rcases List.mem_append.1 hd with hd | hd
    · exact .inl ⟨d, hd, hx, hout⟩
    · obtain rfl := List.mem_singleton.1 hd
      exact .inr ⟨hut, hx, hout.symm⟩
  · exact .inl ⟨d, hd, hx, hout⟩

/-- What covers a byte comes before the task, if all statuses of the byte do. -/
theorem ConflictInv.reach {wu wt : Bool} (h : ConflictInv s g A) (hu : s.Live u)
    (hconf : (wu || wt) = true) (hcov : Lib.Covers (tracker s) s.Edge u x wu)
    (hbefore : ∀ k r, s.map.range k = some r → r.Contains x → Before s t k wt) :
    ReflTransGen s.Edge u t := by
  obtain ⟨k, ⟨r, hr, hx⟩, ⟨w, hw, huw⟩ | ⟨rfl, hrd⟩⟩ := hcov
  · exact huw.trans ((hbefore k r hr hx).lastWriter w hw (h.graph.live_of_path hu huw))
  · exact (hbefore k r hr hx).readers hconf u hrd hu

/-- **One access of the task in progress keeps the invariant**, if it misses nothing. -/
theorem ConflictInv.submitDependableObjectDataAccess {statusMap : Registered} {dep : DataAccess}
    (h : ConflictInv s g A) (ht : Current t s) (hlisted : Listed s t statusMap)
    (hne : dep.depAddress ≠ 0) (hty : dep.flags.Plain) (hok : Ordered s statusMap dep) :
    ∃ p, submitDependableObjectDataAccess s statusMap t (target dep) dep.flags = .ok p ∧
      ConflictInv p.1 g (withAccesses A t [dep]) ∧ Current t p.1 ∧ Listed p.1 t p.2 := by
  obtain ⟨hfound, hmiss⟩ := hok
  obtain ⟨others, hothers, htables, hrange, hin⟩ :=
    CRegionsMap.lookupDependency_spec h.tables dep.fits.1 (target_fits dep) hfound
  have htrackable : ∀ k, (s.map.lookupDependency (target dep)).2.trackable k = s.map.trackable k :=
    CRegionsMap.trackable_lookupDependency h.tables
  have h₁ := h.lookup hfound htables htrackable hrange
  have ht₁ := (grown_map (s := s) (t := t) (s.map.lookupDependency (target dep)).2).current ht
  have hownRange := hrange (target dep).address
  rw [if_pos rfl] at hownRange
  obtain ⟨hown, hcov⟩ := h₁.own ht₁ hownRange hty
  have ht₂ := hown.advanced.current ht₁
  have hlisted₂ := ((hlisted.lookup htrackable hrange).advanced hown.advanced).insertStatus
    (by rw [hown.advanced.range, hownRange]; exact Option.some_ne_none _) hown.before
  obtain ⟨h₃, hadv₃, hlisted₃, hbefore₃⟩ := hown.inv.accessOthers ht₂ hlisted₂ hty others
  have ht₃ := hadv₃.current ht₂
  generalize hp : others.foldl (CRegions.accessOther t dep.flags) (_, _) = p
    at h₃ hadv₃ hlisted₃ hbefore₃ ht₃
  obtain ⟨s₄, hs₄, h₄, hadv₄⟩ : ∃ s₄, (if dep.flags.output then p.1.addWriteTarget t (target dep)
      else p.1.addReadTarget t (target dep)) = s₄ ∧ ConflictInv s₄ g A ∧ Advanced t p.1 s₄ := by
    split_ifs
    · exact ⟨_, rfl, h₃.modifyObj (fun _ => rfl) ht₃⟩
    · exact ⟨_, rfl, h₃.modifyObj (fun _ => rfl) ht₃⟩
  have ht₄ := hadv₄.current ht₃
  refine ⟨(s₄, p.2), ?_, ⟨h₄.graph, h₄.tables, h₄.closed, h₄.writer, h₄.readAfter, ?_, fun u hu => ?_⟩, ht₄,
    hlisted₃.advanced hadv₄⟩
  · rw [submitDependableObjectDataAccess_eq hty hothers hp ht₃.waits, hs₄]
  · -- the statuses of the bytes of the access come before the task
    have hbefore : ∀ x, dep.Contains x → ∀ k r, s₄.map.range k = some r → r.Contains x →
        Before s₄ t k dep.flags.output := by
      intro x hx k r hr hxr
      rw [hadv₄.range, hadv₃.range, hown.advanced.range] at hr
      refine hadv₄.before k _ ?_
      by_cases hk : k = (target dep).address
      · exact hadv₃.before k _ (hk ▸ hown.before)
      · have hr' := hrange k
        rw [if_neg hk] at hr'
        have hold : s.map.range k = some r := hr'.symm.trans hr
        have hxt := (target_contains hne).2 hx
        obtain ⟨-, item, hmem⟩ := (CRegionsMap.range_eq_some h.tables).1 hold
        refine hbefore₃ k (hin k r x hold hk hxr hxt) fun hnone => ?_
        unfold insertStatus at hnone
        rw [if_neg hk] at hnone
        have hst : statusAt _ k = s.statusAt k := (hown.others k hk).trans (htrackable k)
        unfold MissesWriter
        rw [hst]
        exact hmiss _ hmem hk (DepsRegion.overlap_of_contains hxr hxt) hnone
    refine h₄.safe.access (R := dep.Contains) (fun _ _ he => he) (fun _ => Iff.rfl) ht₄.live
      (fun u x writes => h₄.le_current ht₄)
      (fun u x wu hu _ hx hconf hcovers =>
        h₄.reach hu hconf hcovers fun k r hr hxr => hbefore x hx k r hr hxr)
      (fun _ _ _ _ hcovers => hcovers) (fun x hx => ?_) fun u x writes => accOf_withAccesses
    exact hadv₄.covers t x _ ht₃.live (hadv₃.covers t x _ ht₂.live (hcov x ((target_contains hne).2 hx)))
  · have hut : u ≠ t := by
      rintro rfl
      exact absurd ht₄.live.1 (not_lt.2 hu)
    rw [withAccesses, if_neg hut]
    exact h₄.fresh u hu

/-! ## Submissions -/

/-- Every access of a list misses nothing, in the state in which it is made. -/
def AllOrdered (x : Nat) : List DataAccess → State × Registered → Prop
  | [], _ => True
  | dep :: deps, (s, statusMap) => Ordered s statusMap dep ∧
    match submitDependableObjectDataAccess s statusMap x (target dep) dep.flags with
    | .ok p => AllOrdered x deps p
    | .error _ => True

instance decidableAllOrdered (x : Nat) : ∀ deps p, Decidable (AllOrdered x deps p)
  | [], _ => inferInstanceAs (Decidable True)
  | dep :: deps, (s, statusMap) =>
    @instDecidableAnd _ _ inferInstance <|
      match submitDependableObjectDataAccess s statusMap x (target dep) dep.flags with
      | .ok p => decidableAllOrdered x deps p
      | .error _ => inferInstanceAs (Decidable True)

theorem ConflictInv.submitAccesses {statusMap : Registered} {deps : List DataAccess}
    (h : ConflictInv s g A) (ht : Current t s) (hlisted : Listed s t statusMap)
    (hdeps : ∀ d ∈ deps, d.depAddress ≠ 0 ∧ d.flags.Plain) (hok : AllOrdered t deps (s, statusMap)) :
    ∃ s', submitAccesses t deps (s, statusMap) = .ok s' ∧ ConflictInv s' g (withAccesses A t deps) ∧
      Current t s' := by
  induction deps generalizing s statusMap A with
  | nil => exact ⟨s, rfl, withAccesses_nil.symm ▸ h, ht⟩
  | cons dep deps ih =>
    obtain ⟨⟨hne, hty⟩, hdeps⟩ := List.forall_mem_cons.1 hdeps
    obtain ⟨hthis, hrest⟩ := hok
    obtain ⟨⟨s₁, statusMap₁⟩, hrun₁, h₁, ht₁, hlisted₁⟩ :=
      h.submitDependableObjectDataAccess ht hlisted hne hty hthis
    rw [hrun₁] at hrest
    obtain ⟨s', hrun, h', ht'⟩ := ih h₁ ht₁ hlisted₁ hdeps hrest
    rw [withAccesses_append, List.singleton_append] at h'
    refine ⟨s', ?_, h', ht'⟩
    simp only [CRegions.submitAccesses, hrun₁, hrun]

/-- A new object. -/
theorem ConflictInv.enter (h : ConflictInv s (fun _ => 0) A) :
    ConflictInv (enter s false) (fun y => if y = s.lastDepObjId then 1 else 0) A ∧
      Current s.lastDepObjId (CRegions.enter s false) := by
  obtain ⟨hgraph, hcur, hlive, hedge⟩ := h.graph.start
  have hnew : (CRegions.enter s false).lastDepObjId = s.lastDepObjId + 1 := hcur.newest
  refine ⟨⟨hgraph, h.tables, h.closed, fun k w hw => ?_, fun k w r hw hw' hr => ?_, ?_, fun u hu => ?_⟩,
    hcur⟩
  · rw [hnew]
    exact Nat.lt_succ_of_lt (h.writer k w hw)
  · rcases (hlive w).1 hw' with hw' | rfl
    · exact ReflTransGen.mono (fun u v huv => (hedge u v).2 huv) _ _ (h.readAfter k w r hw hw' hr)
    · exact absurd (h.writer k _ hw) (lt_irrefl _)
  · refine h.safe.start (fun u v huv => (hedge u v).2 huv) (fun u hu => ?_) fun u hu => (hlive u).2 (.inl hu)
    refine ((hlive u).1 hu).imp_right ?_
    rintro rfl x writes ⟨d, hd, -⟩
    rw [h.fresh _ (le_refl _)] at hd
    cases hd
  · exact h.fresh u (by omega)

theorem ConflictInv.submit {accesses : List DataAccess} (h : ConflictInv s (fun _ => 0) A)
    (hplain : ∀ d ∈ accesses, d.flags.Plain)
    (hok : AllOrdered s.lastDepObjId (filteredDeps accesses) (CRegions.enter s false, fun _ => none)) :
    ∃ s', submitDependableObjectInternal s false accesses = .ok s' ∧
      ConflictInv s' (fun _ => 0) (withAccesses A s.lastDepObjId (filteredDeps accesses)) := by
  obtain ⟨h₁, hcur⟩ := h.enter
  have hlisted : Listed (CRegions.enter s false) s.lastDepObjId fun _ => none :=
    fun k isWriter hk => nomatch hk
  obtain ⟨s₂, hrun, h₂, -⟩ := h₁.submitAccesses hcur hlisted (plain_filteredDeps hplain) hok
  obtain ⟨hgraph', hsame, hmap⟩ := h₂.graph.stop
  refine ⟨_, ?_, h₂.of_sameGraph hsame hmap hgraph'⟩
  unfold submitDependableObjectInternal
  dsimp only
  rw [hrun]

/-! ## Completions -/

/-- The statuses forget the object `x`, and the tables stay as they are. -/
def Forgetful (x : Nat) (m m' : CRegionsMap) : Prop :=
  ∃ trackable, m' = { m with trackable := trackable } ∧ (∀ a, (m.trackable a).Forgets x (trackable a)) ∧
    ∀ a, m.trackable a = {} → trackable a = {}

theorem Forgetful.trans {m m' m'' : CRegionsMap} (h : Forgetful x m m') (h' : Forgetful x m' m'') :
    Forgetful x m m'' := by
  obtain ⟨trackable, rfl, hforgets, hfresh⟩ := h
  obtain ⟨trackable', rfl, hforgets', hfresh'⟩ := h'
  exact ⟨trackable', rfl, fun a => (hforgets a).trans (hforgets' a), fun a ha => hfresh' a (hfresh a ha)⟩

theorem forgetful_update {f : TrackableObject → TrackableObject}
    (hf : ∀ o : TrackableObject, o.Forgets x (f o)) (hempty : f {} = {}) (m : CRegionsMap)
    (r : DepsRegion) : Forgetful x m (m.update r f) := by
  refine ⟨_, rfl, fun a => ?_, fun a ha => ?_⟩
  · split
    · next heq =>
      rw [heq]
      exact hf _
    · exact .refl
  · split
    · next heq => rw [← heq, ha, hempty]
    · exact ha

theorem forgetful_foldl {delete : CRegionsMap → Nat → DepsRegion → CRegionsMap}
    (hdelete : ∀ m r, Forgetful x m (delete m x r)) (targets : List DepsRegion) (m : CRegionsMap) :
    Forgetful x m (targets.foldl (fun m r => delete m x r) m) := by
  induction targets generalizing m with
  | nil => exact ⟨_, rfl, fun _ => .refl, fun _ ha => ha⟩
  | cons r targets ih => exact (hdelete m r).trans (ih _)

theorem forgetful_retire : Forgetful x s.map (s.retire x).map :=
  (forgetful_foldl (fun m r => forgetful_update (fun _ => .deleteLastWriter) rfl m r) _ _).trans
    (forgetful_foldl (fun m r => forgetful_update (fun _ => .deleteReader) rfl m r) _ _)

/-- The completion of a task whose counter is 0. -/
theorem ConflictInv.finish (h : ConflictInv s (fun _ => 0) A) (hx : s.Live x)
    (hnum : (s.obj x).numPredecessors = 0) : ConflictInv (s.finish x) (fun _ => 0) A := by
  obtain ⟨hgraph, hcnt⟩ := h.graph.finish hx hnum
  have hE : ∀ u v, s.Edge u v → u ≠ x → (s.finish x).Edge u v := fun u v huv hu =>
    (h.graph.finish_edge hx hnum).2 ⟨huv, hu⟩
  obtain ⟨trackable, hmap, hforgets, hfresh⟩ := forgetful_retire (s := s) (x := x)
  rw [← hcnt.map] at hmap
  have hst : ∀ k, (s.statusAt k).Forgets x ((s.finish x).statusAt k) := fun k => by
    have heq : (s.finish x).statusAt k = trackable k := by
      unfold statusAt
      rw [hmap]
      rfl
    rw [heq]
    exact hforgets k
  have hsize : (s.finish x).lastDepObjId = s.lastDepObjId := hcnt.size
  refine ⟨hgraph, ?_, fun k => (hst k).commDO (h.closed k), fun k w hw => ?_, fun k w r hw hlive hr => ?_, ?_,
    fun u hu => h.fresh u (hsize ▸ hu)⟩
  · rw [hmap]
    refine ⟨h.tables.key, fun e he => ?_, h.tables.cached, fun a ha => hfresh a (h.tables.fresh a ha)⟩
    obtain ⟨hsmall, hmid, hbig⟩ := h.tables.holds e he
    exact ⟨hsmall, hmid, hbig⟩
  · rw [hsize]
    exact h.writer k w ((hst k).lastWriter_of w hw)
  · obtain ⟨hlive, hne⟩ := (h.graph.finish_live hx hnum).1 hlive
    exact Lib.reflTransGen_avoid (h.graph.not_edge hx hnum) hE
      (h.readAfter k w r ((hst k).lastWriter_of w hw) hlive ((hst k).readers_of r hr)) hne
  · refine h.safe.finish (h.graph.not_edge hx hnum) hE (fun u => h.graph.finish_live hx hnum)
      (fun k a hk => ?_) (fun k => (hst k).lastWriter) fun k => (hst k).readers
    obtain ⟨r, hr, ha⟩ := hk
    refine ⟨r, ?_, ha⟩
    rw [hmap]
    exact hr

end

/-! ## Runs -/

/-- The submissions of tasks with `in`, `out` and `inout` accesses, none of them to NULL, and the
completions. -/
def PlainSubmit : Event → Prop
  | .submit accesses => ∀ d ∈ accesses, d.depAddress ≠ 0 ∧ d.flags.Plain
  | .finish _ => True

instance : DecidablePred PlainSubmit
  | .submit accesses => inferInstanceAs (Decidable (∀ d ∈ accesses, d.depAddress ≠ 0 ∧ d.flags.Plain))
  | .finish _ => inferInstanceAs (Decidable True)

/-- The steps of the runs in which, besides, no access misses anything. -/
def OrderedStep (S : Sys) : Event → Prop
  | .submit accesses => PlainSubmit (.submit accesses) ∧
      AllOrdered S.dom.lastDepObjId (filteredDeps accesses) (enter S.dom false, fun _ => none)
  | .finish _ => True

instance (S : Sys) : DecidablePred (OrderedStep S)
  | .submit _ => inferInstanceAs (Decidable (_ ∧ _))
  | .finish _ => inferInstanceAs (Decidable True)

/-- The tasks `u` and `t` have accesses to a common byte, and at least one of the two writes. -/
def Conflict (S : Sys) (u t : Nat) : Prop :=
  ∃ du dt x, du ∈ S.accesses u ∧ dt ∈ S.accesses t ∧ du.Contains x ∧ dt.Contains x ∧
    (du.flags.output = true ∨ dt.flags.output = true)

/-- The invariant of a run: that of the domain, for the accesses put in common, none of which is to NULL. -/
structure RunInv (S : Sys) : Prop where
  inv : ConflictInv S.dom (fun _ => 0) fun u => filteredDeps (S.accesses u)
  ne : ∀ u, ∀ d ∈ S.accesses u, d.depAddress ≠ 0

section
variable {S S' : Sys} {t u : Nat}

theorem runInv_init : RunInv init :=
  ⟨⟨⟨⟨nofun, nofun, nofun, nofun⟩, nofun, fun _ => rfl⟩, ⟨nofun, nofun, nofun, fun _ _ => rfl⟩, fun _ => rfl,
    nofun, nofun, ⟨nofun, nofun⟩, fun _ _ => rfl⟩, nofun⟩

/-- **One step.** -/
theorem RunInv.step (h : RunInv S) {ev : Event} (hok : OrderedStep S ev) (hs : step S ev = some S') :
    RunInv S' := by
  cases ev with
  | submit accesses =>
    obtain ⟨hplain, hordered⟩ := hok
    obtain ⟨s', hrun, h'⟩ := h.inv.submit (fun d hd => (hplain d hd).2) hordered
    simp only [CRegions.step, hrun] at hs
    cases hs
    have hA : (fun u => filteredDeps (if u = S.dom.lastDepObjId then accesses else S.accesses u)) =
        withAccesses (fun u => filteredDeps (S.accesses u)) S.dom.lastDepObjId (filteredDeps accesses) := by
      funext u
      unfold withAccesses
      split
      · next hu =>
        have hnil := h.inv.fresh u hu.symm.le
        show filteredDeps accesses = filteredDeps (S.accesses u) ++ filteredDeps accesses
        rw [hnil, List.nil_append]
      · rfl
    refine ⟨hA ▸ h', fun u d hd => ?_⟩
    dsimp only at hd
    split at hd
    · exact (hplain d hd).1
    · exact h.ne u d hd
  | finish x =>
    simp only [CRegions.step] at hs
    split at hs
    · next hready =>
      cases hs
      exact ⟨h.inv.finish ⟨hready.1, hready.2.2.2.2⟩ hready.2.2.2.1, h.ne⟩
    · cases hs

/-- **Conflict safety of the contiguous regions domain.** In every state that submissions of accesses that
miss nothing and completions reach, a task whose counter is 0 has no unfinished earlier task with an access to
one of its bytes, one of the two writing. -/
theorem finished_of_ranges_intersect_of_numPredecessors_eq_zero
    (h : Lib.Reach step OrderedStep init S) (hut : u < t) (ht : t < S.dom.lastDepObjId)
    (hconf : Conflict S u t) (hnum : (S.dom.obj t).numPredecessors = 0) :
    (S.dom.obj u).finished = true := by
  have hinv := h.invariant (I := RunInv) runInv_init fun S ev S' hinv hok hs => hinv.step hok hs
  obtain ⟨du, dt, x, hu, ht', hxu, hxt, hw⟩ := hconf
  obtain ⟨du', hu', haddr, hsize, hout⟩ := exists_stands hu (hinv.ne u du hu)
  obtain ⟨dt', ht'', haddr', hsize', hout'⟩ := exists_stands ht' (hinv.ne t dt ht')
  have hxu' : du'.Contains x := by
    unfold DataAccess.Contains
    rw [haddr, hsize]
    exact hxu
  have hxt' : dt'.Contains x := by
    unfold DataAccess.Contains
    rw [haddr', hsize']
    exact hxt
  refine hinv.inv.graph.finished_of_conflict hinv.inv.safe (hut.trans ht) hut ⟨du', hu', hxu', rfl⟩
    ⟨dt', ht'', hxt', rfl⟩ ?_ hnum
  rw [Bool.or_eq_true_iff]
  exact hw.imp hout hout'

/-- A task that reads a big range and writes bytes of it, after the writer of the big range: the second access
registers the task again as a reader of the big range. -/
theorem finished_of_ranges_intersect_of_registered_twice :
    ∃ S, Lib.Reach step OrderedStep init S ∧ (S.dom.obj 2).numPredecessors = 0 ∧
      (S.dom.obj 1).finished = true := by
  obtain ⟨S, hS, hp⟩ := Lib.exists_reach_of_guarded_run step OrderedStep init
    [.submit [⟨1000000, 300000, .outAccess, by decide⟩, ⟨1000008, 16, .inoutAccess, by decide⟩],
      .submit [⟨1000000, 300000, .inAccess, by decide⟩, ⟨1000008, 16, .inoutAccess, by decide⟩],
      .submit [⟨1000016, 4, .inAccess, by decide⟩], .finish 0, .finish 1]
    (fun S => decide (2 < S.dom.lastDepObjId ∧
      (⟨1000008, 16, .inoutAccess, by decide⟩ : DataAccess) ∈ S.accesses 1 ∧
      (⟨1000016, 4, .inAccess, by decide⟩ : DataAccess) ∈ S.accesses 2 ∧ (S.dom.obj 2).numPredecessors = 0))
    (by decide +kernel)
  obtain ⟨h2, ha, hb, hnum⟩ := of_decide_eq_true hp
  exact ⟨S, hS, hnum, finished_of_ranges_intersect_of_numPredecessors_eq_zero hS (by decide) h2
    ⟨_, _, 1000016, ha, hb, ⟨by decide, by decide⟩, ⟨by decide, by decide⟩, .inl rfl⟩ hnum⟩

/-- A write of 4 bytes, a write of 64 bytes from the same address, and a read of bytes past the first 4: the
second write has the status, and the range, of the first, so that the reader can run before the second write
has finished. -/
theorem ready_of_same_address :
    ∃ S, Lib.Reach step (fun _ ev => PlainSubmit ev) init S ∧ Ready S.dom 2 ∧
      (S.dom.obj 1).finished = false ∧ Conflict S 1 2 := by
  obtain ⟨S, hS, hp⟩ := Lib.exists_reach_of_run step PlainSubmit init
    [.submit [⟨1000000, 4, .outAccess, by decide⟩], .submit [⟨1000000, 64, .outAccess, by decide⟩],
      .submit [⟨1000016, 4, .inAccess, by decide⟩]] (by decide)
    (fun S => decide (Ready S.dom 2 ∧ (S.dom.obj 1).finished = false ∧
      (⟨1000000, 64, .outAccess, by decide⟩ : DataAccess) ∈ S.accesses 1 ∧
      (⟨1000016, 4, .inAccess, by decide⟩ : DataAccess) ∈ S.accesses 2)) (by decide)
  obtain ⟨hready, hfin, ha, hb⟩ := of_decide_eq_true hp
  exact ⟨S, hS, hready, hfin, _, _, 1000016, ha, hb, ⟨by decide, by decide⟩, ⟨by decide, by decide⟩, .inl rfl⟩

end

end CRegions

end OmpSs.Deps
