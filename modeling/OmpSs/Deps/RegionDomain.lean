import OmpSs.Lib.Run
import OmpSs.Deps.Coalesce
import OmpSs.Deps.RegionMap

/-!
# What the region plugins share

`RegionDependenciesDomain` and `PerfectRegionDependenciesDomain` (`plugins/deps/regions_deps.cpp`,
`plugins/deps/perfect_regions_deps.cpp`) differ in what an access does to the map (`access` below). A task
is submitted with the accesses that it has, which `submitDependableObjectInternal` coalesces; the parameter
`wide` is what a shift by the width of a word gives there.

The entries of the map are trackers of the addresses of their regions. `ConflictInv` says that of two tasks
that access a common address, one of them writing, the later one comes after the earlier one in the
dependence graph as long as the earlier one is unfinished. It is kept by submissions and completions if it is
kept by accesses (`ConflictInv.submit`, `ConflictInv.finish`). It is about the coalesced accesses, which
include those of the tasks where coalescing loses nothing (`RunInv`).
-/

namespace OmpSs.Deps

open DepState Relation Support

namespace RegionDomain

/-- The state of a region domain. -/
abbrev State := DepState FullRegion RegionMap

/-- The steps of the domain. -/
inductive Event where
  | submit (accesses : Accesses)
  | finish (x : Nat)

/-- The domain with a record of the accesses of each task, as it was submitted. -/
structure Sys where
  dom : State
  accesses : Nat → Accesses

/-- A new domain. -/
def init : Sys where
  dom := { lastDepObjId := 0, obj := fun _ => {}, map := emptyRoot }
  accesses _ := []

/-- `x` is a task that can run: it has been submitted, its counter has reached 0, and it has not
finished. -/
def Ready (s : State) (x : Nat) : Prop :=
  x < s.lastDepObjId ∧ (s.obj x).commutation = none ∧ (s.obj x).submitted = true ∧
    (s.obj x).numPredecessors = 0 ∧ (s.obj x).finished = false

instance (s : State) (x : Nat) : Decidable (Ready s x) :=
  inferInstanceAs (Decidable (_ ∧ _ ∧ _ ∧ _ ∧ _))

/-- The new object of a submission, with the increment that keeps it from becoming ready. -/
def enter (s : State) (waits : Bool) : State :=
  (s.newObj { waits := waits }).increasePredecessors s.lastDepObjId

section
variable (wide : BitVec 64 → Option (BitVec 64))
  (access : State → Nat → FullRegion → AccessType → Except String State)

/-- The loop over the coalesced accesses in `submitDependableObjectInternal`. -/
def submitAccesses (x : Nat) : Accesses → State → Except String State
  | [], s => .ok s
  | (target, ty) :: accesses, s =>
    match access s x target ty with
    | .ok s => submitAccesses x accesses s
    | .error msg => .error msg

/-- Source: `submitDependableObjectInternal` (`regions_deps.cpp:50`, `perfect_regions_deps.cpp:50`) on a new
object with the next identifier. -/
def submitDependableObjectInternal (s : State) (waits : Bool) (accesses : Accesses) :
    Except String State :=
  match coalesce wide accesses with
  | none => .error "shift by the width of a word"
  | some coalesced =>
    let x := s.lastDepObjId
    match submitAccesses access x coalesced (enter s waits) with
    | .ok s => .ok ((s.setSubmitted x).decrease x)
    | .error msg => .error msg

/-- One step. Only a ready task finishes. -/
def step (S : Sys) : Event → Option Sys
  | .submit accesses =>
    match submitDependableObjectInternal wide access S.dom false accesses with
    | .ok d => some
        { dom := d
          accesses := fun x => if x = S.dom.lastDepObjId then accesses else S.accesses x }
    | .error _ => none
  | .finish x => if Ready S.dom x then some { S with dom := S.dom.finish x } else none

/-- A condition holds of every access of the task `x`, in the state in which it is made. -/
def AllAccesses (ok : State → FullRegion → AccessType → Prop) (x : Nat) : Accesses → State → Prop
  | [], _ => True
  | (target, ty) :: accesses, s => ok s target ty ∧
    match access s x target ty with
    | .ok s => AllAccesses ok x accesses s
    | .error _ => True

instance decidableAllAccesses {ok : State → FullRegion → AccessType → Prop}
    [∀ s target ty, Decidable (ok s target ty)] (x : Nat) :
    ∀ accesses s, Decidable (AllAccesses access ok x accesses s)
  | [], _ => inferInstanceAs (Decidable True)
  | (target, ty) :: accesses, s =>
    @instDecidableAnd _ _ inferInstance <|
      match access s x target ty with
      | .ok s => decidableAllAccesses x accesses s
      | .error _ => inferInstanceAs (Decidable True)

variable {access} in
theorem AllAccesses.and_plain {ok : State → FullRegion → AccessType → Prop} {x : Nat}
    {accesses : Accesses} {s : State} (h : AllAccesses access ok x accesses s)
    (hplain : ∀ p ∈ accesses, p.2.Plain) :
    AllAccesses access (fun s target ty => ty.Plain ∧ ok s target ty) x accesses s := by
  induction accesses generalizing s with
  | nil => trivial
  | cons p accesses ih =>
    refine ⟨⟨hplain p List.mem_cons_self, h.1⟩, ?_⟩
    have hrest := h.2
    split at hrest
    · exact ih hrest fun p hp => hplain p (List.mem_cons_of_mem _ hp)
    · trivial

/-- The submissions of tasks with `in`, `out` and `inout` accesses, and the completions. -/
def PlainSubmit : Event → Prop
  | .submit accesses => ∀ p ∈ accesses, p.2.Plain
  | .finish _ => True

instance : DecidablePred PlainSubmit
  | .submit accesses => inferInstanceAs (Decidable (∀ p ∈ accesses, p.2.Plain))
  | .finish _ => inferInstanceAs (Decidable True)

/-- The submissions of tasks whose accesses are coalesced without a cut at a last bit, and the completions. -/
def CoalescedWhole : Event → Prop
  | .submit accesses => LastBitsKept wide accesses emptyRoot
  | .finish _ => True

instance : DecidablePred (CoalescedWhole wide)
  | .submit accesses => inferInstanceAs (Decidable (LastBitsKept wide accesses emptyRoot))
  | .finish _ => inferInstanceAs (Decidable True)

/-- The steps of a run in which the condition holds of every coalesced access. -/
def AccessesMeet (ok : State → FullRegion → AccessType → Prop) (S : Sys) : Event → Prop
  | .submit accesses => ∀ coalesced ∈ coalesce wide accesses,
      AllAccesses access ok S.dom.lastDepObjId coalesced (enter S.dom false)
  | .finish _ => True

instance {ok : State → FullRegion → AccessType → Prop} [∀ s target ty, Decidable (ok s target ty)]
    (S : Sys) : DecidablePred (AccessesMeet wide access ok S)
  | .submit accesses =>
    haveI := fun coalesced => @decidableAllAccesses access ok _ S.dom.lastDepObjId coalesced
      (enter S.dom false)
    inferInstanceAs (Decidable (∀ coalesced ∈ coalesce wide accesses, _))
  | .finish _ => inferInstanceAs (Decidable True)

theorem allAccesses_true (x : Nat) (accesses : Accesses) (s : State) :
    AllAccesses access (fun _ _ _ => True) x accesses s := by
  induction accesses generalizing s with
  | nil => trivial
  | cons p accesses ih =>
    refine ⟨trivial, ?_⟩
    split
    · exact ih _
    · trivial

theorem accessesMeet_true (S : Sys) : ∀ ev, AccessesMeet wide access (fun _ _ _ => True) S ev
  | .submit _ => fun _ _ => allAccesses_true access _ _ _
  | .finish _ => trivial

end

/-- The tasks `u` and `t` have accesses whose regions intersect, and at least one of the two writes. -/
def Conflict (S : Sys) (u t : Nat) : Prop :=
  ∃ (ru rt : FullRegion) (ku kt : AccessType), (ru, ku) ∈ S.accesses u ∧ (rt, kt) ∈ S.accesses t ∧
    ru.Intersects rt ∧ (ku.output = true ∨ kt.output = true)

/-! ## Registrations -/

section
variable {s : State} {m : FullRegion → Option TrackableObject} {k : FullRegion} {t : Nat}

/-- The task becomes the last writer of an entry. -/
theorem setAsWriter_spec (target : FullRegion) (h : Sound s.map m) (hk : m k ≠ none)
    (hw : (s.obj t).waits = false) :
    Grown t (fun _ => False) s (s.setAsWriter t k.toRegion target) ∧
      ∃ m', Sound (s.setAsWriter t k.toRegion target).map m' ∧ (∀ j, m' j ≠ none ↔ m j ≠ none) ∧
        ∀ j, (s.setAsWriter t k.toRegion target).map.view j =
          if j = k then (s.map.view k).flushReaders.setLastWriter t else s.map.view j := by
  obtain ⟨m₁, h₁, hkeys₁, hview₁⟩ := RegionMap.setStatus_spec h hk
    (s.statusAt k.toRegion).flushReaders
  obtain ⟨m₂, h₂, hkeys₂, hview₂⟩ := RegionMap.setStatus_spec h₁ ((hkeys₁ k).2 hk)
    ((StatusMap.status (StatusMap.setStatus s.map k.toRegion
      (s.statusAt k.toRegion).flushReaders : RegionMap) k.toRegion).setLastWriter t)
  rw [setAsWriter_of_not_waits hw]
  refine ⟨?_, m₂, h₂, fun j => (hkeys₂ j).trans (hkeys₁ j), fun j => ?_⟩
  · refine ((grown_map _).trans (grown_modifyObj (x := t) (f := fun o =>
      { o with outputObjects := o.outputObjects ++ [target] }) fun _ => rfl)).trans
        (grown_map _) |>.congr fun u => by simp
  · refine (hview₂ j).trans ?_
    by_cases hj : j = k
    · have hflush := hview₁ k
      rw [if_pos rfl] at hflush
      rw [if_pos hj, if_pos hj]
      show TrackableObject.setLastWriter (RegionMap.view _ k) t = _
      rw [hflush]
      rfl
    · rw [if_neg hj, if_neg hj, hview₁, if_neg hj]

/-- The task comes to depend on the objects of a list and becomes the last writer of an entry. -/
theorem setAsWriter_dependAll_spec (l : List Nat) (target : FullRegion) (h : Sound s.map m)
    (hk : m k ≠ none) (hw : (s.obj t).waits = false) :
    Grown t (· ∈ l) s ((s.dependAll t l).setAsWriter t k.toRegion target) ∧
      ∃ m', Sound ((s.dependAll t l).setAsWriter t k.toRegion target).map m' ∧
        (∀ j, m' j ≠ none ↔ m j ≠ none) ∧
        ∀ j, ((s.dependAll t l).setAsWriter t k.toRegion target).map.view j =
          if j = k then (s.map.view k).flushReaders.setLastWriter t else s.map.view j := by
  have hgrown := grown_dependAll (s := s) (t := t) l
  have hd := depended_dependAll (s := s) (x := t) l
  rw [← hd.map] at h
  obtain ⟨hgrown', m', h', hkeys, hview⟩ := setAsWriter_spec target h hk (hgrown.waits.trans hw)
  rw [hd.map] at hview
  exact ⟨(hgrown.trans hgrown').congr fun u => by simp, m', h', hkeys, hview⟩

/-- The task comes to depend on the objects of a list and becomes a reader of an entry. -/
theorem addAsReader_dependAll_spec (l : List Nat) (h : Sound s.map m) (hk : m k ≠ none) :
    Grown t (· ∈ l) s ((s.dependAll t l).addAsReader t k.toRegion) ∧
      ∃ m', Sound ((s.dependAll t l).addAsReader t k.toRegion).map m' ∧
        (∀ j, m' j ≠ none ↔ m j ≠ none) ∧
        ∀ j, ((s.dependAll t l).addAsReader t k.toRegion).map.view j =
          if j = k then (s.map.view k).setReader t else s.map.view j := by
  have hgrown := grown_dependAll (s := s) (t := t) l
  have hd := depended_dependAll (s := s) (x := t) l
  have hmap : ((s.dependAll t l).addAsReader t k.toRegion).map =
      StatusMap.setStatus s.map k.toRegion ((s.statusAt k.toRegion).setReader t) := by
    show StatusMap.setStatus (s.dependAll t l).map k.toRegion
      (((s.dependAll t l).statusAt k.toRegion).setReader t) = _
    rw [hd.map, hd.statusAt]
  rw [hmap]
  exact ⟨(hgrown.trans (grown_map _)).congr fun u => by simp,
    RegionMap.setStatus_spec h hk ((s.statusAt k.toRegion).setReader t)⟩

end

/-! ## The invariant -/

/-- The entries as trackers: each stands for the addresses of its region. -/
def tracker (s : State) : Lib.Tracker Nat FullRegion (BitVec 64) where
  cov k x := k.Contains x
  lastWriter k := (s.map.view k).lastWriter
  readers k u := u ∈ (s.map.view k).versionReaders

/-- The task `u` accesses the address `x`, writing or not. -/
def accOf (A : Nat → Accesses) (u : Nat) (x : BitVec 64) (writes : Bool) : Prop :=
  ∃ (k : FullRegion) (ty : AccessType), (k, ty) ∈ A u ∧ k.Contains x ∧ ty.output = writes

/-- The invariant of a region domain without commutation objects; `A` are the accesses processed so far,
and `J` is what the plugin adds. -/
structure ConflictInv (J : State → Prop) (s : State) (g : Nat → Int) (A : Nat → Accesses) : Prop where
  graph : s.TaskGraph g
  sound : ∃ m, Sound s.map m
  closed : ∀ k, (s.map.view k).commDO = none
  safe : Lib.Safe s.Edge s.Live (accOf A) (tracker s)
  fresh : ∀ u, s.lastDepObjId ≤ u → A u = []
  rest : J s

/-- What a plugin owes for its part of the invariant: a new object, changes to counters and completions
keep it. -/
structure Upheld (J : State → Prop) : Prop where
  start : ∀ {s g A}, ConflictInv J s g A → J (enter s false)
  sameGraph : ∀ {s s'}, J s → SameGraph s s' → s'.map = s.map → J s'
  finish : ∀ {s A x}, ConflictInv J s (fun _ => 0) A → s.Live x → (s.obj x).numPredecessors = 0 →
    J (s.finish x)

/-- The accesses of `t` with a list of further ones. -/
def withAccesses (A : Nat → Accesses) (t : Nat) (accesses : Accesses) : Nat → Accesses :=
  fun u => if u = t then A u ++ accesses else A u

section
variable {J : State → Prop} {s s' : State} {g : Nat → Int} {A : Nat → Accesses} {accesses : Accesses}
  {t u x : Nat} {target : FullRegion} {ty : AccessType}

theorem mem_withAccesses {p : FullRegion × AccessType} (h : p ∈ withAccesses A t accesses u) :
    p ∈ A u ∨ u = t ∧ p ∈ accesses := by
  unfold withAccesses at h
  split at h
  · next hut => exact (List.mem_append.1 h).imp_right fun hp => ⟨hut, hp⟩
  · exact .inl h

theorem withAccesses_nil : withAccesses A t [] = A := by
  funext u
  simp [withAccesses]

theorem withAccesses_append {accesses' : Accesses} :
    withAccesses (withAccesses A t accesses) t accesses' = withAccesses A t (accesses ++ accesses') := by
  funext u
  simp only [withAccesses]
  split <;> simp

theorem ConflictInv.not_accOf {a : BitVec 64} {writes : Bool} (h : ConflictInv J s g A)
    (hu : s.lastDepObjId ≤ u) : ¬ accOf A u a writes := by
  rintro ⟨k, ty, hk, -⟩
  rw [h.fresh u hu] at hk
  cases hk

/-- The tasks with accesses are no newer than the one in progress. -/
theorem ConflictInv.le_current {a : BitVec 64} {writes : Bool} (h : ConflictInv J s g A)
    (ht : Current t s) (hu : accOf A u a writes) : u ≤ t := by
  by_contra hlt
  exact h.not_accOf (by rw [ht.newest]; omega) hu

theorem ConflictInv.fresh_withAccesses (h : ConflictInv J s g A) (ht : Current t s)
    (hu : s.lastDepObjId ≤ u) : withAccesses A t accesses u = [] := by
  have hne : u ≠ t := by
    have := ht.newest
    omega
  rw [withAccesses, if_neg hne]
  exact h.fresh u hu

/-- Further accesses add the addresses of their regions to those of the task. -/
theorem accOf_withAccesses_iff {a : BitVec 64} {writes : Bool} :
    accOf (withAccesses A t accesses) u a writes ↔ accOf A u a writes ∨
      u = t ∧ ∃ p ∈ accesses, p.1.Contains a ∧ p.2.output = writes := by
  constructor
  · rintro ⟨k, ty, hk, ha, hout⟩
    rcases mem_withAccesses hk with hk | ⟨hut, hk⟩
    · exact .inl ⟨k, ty, hk, ha, hout⟩
    · exact .inr ⟨hut, (k, ty), hk, ha, hout⟩
  · rintro (⟨k, ty, hk, ha, hout⟩ | ⟨rfl, ⟨k, ty⟩, hk, ha, hout⟩)
    · refine ⟨k, ty, ?_, ha, hout⟩
      unfold withAccesses
      split
      · exact List.mem_append_left _ hk
      · exact hk
    · refine ⟨k, ty, ?_, ha, hout⟩
      rw [withAccesses, if_pos rfl]
      exact List.mem_append_right _ hk

/-- An access adds the addresses of its region to those of the task. -/
theorem accOf_withAccesses {a : BitVec 64} {writes : Bool}
    (h : accOf (withAccesses A t [(target, ty)]) u a writes) :
    accOf A u a writes ∨ u = t ∧ target.Contains a ∧ writes = ty.output := by
  refine (accOf_withAccesses_iff.1 h).imp_right fun ⟨hut, p, hp, ha, hout⟩ => ?_
  cases List.mem_singleton.1 hp
  exact ⟨hut, ha, hout.symm⟩

/-! ## Submissions and completions -/

/-- The invariant depends on the graph and the map only. -/
theorem ConflictInv.of_sameGraph {g' : Nat → Int} (h : ConflictInv J s g A) (hJ : Upheld J)
    (hg : SameGraph s s') (hmap : s'.map = s.map) (hgraph : s'.TaskGraph g') :
    ConflictInv J s' g' A := by
  have hE : s'.Edge = s.Edge := hg.edge_eq
  have hL : s'.Live = s.Live := hg.live_eq
  have htracker : tracker s' = tracker s := by simp only [tracker, hmap]
  refine ⟨hgraph, hmap ▸ h.sound, hmap ▸ h.closed, ?_, fun u hu => h.fresh u (hg.size ▸ hu),
    hJ.sameGraph h.rest hg hmap⟩
  rw [hE, hL, htracker]
  exact h.safe

/-- A new object. -/
theorem ConflictInv.enter (h : ConflictInv J s (fun _ => 0) A) (hJ : Upheld J) :
    ConflictInv J (enter s false) (fun y => if y = s.lastDepObjId then 1 else 0) A ∧
      Current s.lastDepObjId (RegionDomain.enter s false) := by
  obtain ⟨hgraph, hcur, hlive, hedge⟩ := h.graph.start
  refine ⟨⟨hgraph, h.sound, h.closed, ?_, fun u hu => ?_, hJ.start h⟩, hcur⟩
  · exact h.safe.start (fun u v huv => (hedge u v).2 huv)
      (fun u hu => ((hlive u).1 hu).imp_right fun hu a writes => h.not_accOf hu.symm.le)
      fun u hu => (hlive u).2 (.inl hu)
  · have hnew : (RegionDomain.enter s false).lastDepObjId = s.lastDepObjId + 1 := hcur.newest
    exact h.fresh u (by omega)

/-- The completion of a task whose counter is 0. -/
theorem ConflictInv.finish (h : ConflictInv J s (fun _ => 0) A) (hJ : Upheld J) (hx : s.Live x)
    (hnum : (s.obj x).numPredecessors = 0) : ConflictInv J (s.finish x) (fun _ => 0) A := by
  obtain ⟨hgraph, hcnt⟩ := h.graph.finish hx hnum
  have hE : ∀ u v, s.Edge u v → u ≠ x → (s.finish x).Edge u v := fun u v huv hu =>
    (h.graph.finish_edge hx hnum).2 ⟨huv, hu⟩
  obtain ⟨m, hm⟩ := h.sound
  obtain ⟨m', hm', -, hforgets⟩ := forgets_retire hm x
  rw [← hcnt.map] at hm' hforgets
  refine ⟨hgraph, ⟨m', hm'⟩, fun k => (hforgets k).commDO (h.closed k), ?_, fun u hu => ?_,
    hJ.finish h hx hnum⟩
  · exact h.safe.finish (h.graph.not_edge hx hnum) hE (fun u => h.graph.finish_live hx hnum)
      (fun k a hk => hk) (fun k => (hforgets k).lastWriter) fun k => (hforgets k).readers
  · rw [show (s.finish x).lastDepObjId = s.lastDepObjId from hcnt.size] at hu
    exact h.fresh u hu

/-- Accesses for which `ok` holds keep the invariant. -/
def Keeps (access : State → Nat → FullRegion → AccessType → Except String State)
    (ok : State → FullRegion → AccessType → Prop) (J : State → Prop) : Prop :=
  ∀ s t target ty g A, ConflictInv J s g A → Current t s → ok s target ty →
    ∃ s', access s t target ty = .ok s' ∧
      ConflictInv J s' g (withAccesses A t [(target, ty)]) ∧ Current t s'

variable {wide : BitVec 64 → Option (BitVec 64)}
  {access : State → Nat → FullRegion → AccessType → Except String State}
  {ok : State → FullRegion → AccessType → Prop}

theorem ConflictInv.submitAccesses (h : ConflictInv J s g A) (hkeeps : Keeps access ok J)
    (ht : Current t s) (hok : AllAccesses access ok t accesses s) :
    ∃ s', submitAccesses access t accesses s = .ok s' ∧
      ConflictInv J s' g (withAccesses A t accesses) ∧ Current t s' := by
  induction accesses generalizing s A with
  | nil => exact ⟨s, rfl, withAccesses_nil.symm ▸ h, ht⟩
  | cons p accesses ih =>
    obtain ⟨target, ty⟩ := p
    obtain ⟨hthis, hrest⟩ := hok
    obtain ⟨s₁, hrun₁, h₁, ht₁⟩ := hkeeps s t target ty g A h ht hthis
    rw [hrun₁] at hrest
    obtain ⟨s', hrun, h', ht'⟩ := ih h₁ ht₁ hrest
    rw [withAccesses_append, List.singleton_append] at h'
    refine ⟨s', ?_, h', ht'⟩
    simp only [RegionDomain.submitAccesses, hrun₁, hrun]

theorem ConflictInv.submit (h : ConflictInv J s (fun _ => 0) A) (hJ : Upheld J)
    (hkeeps : Keeps access ok J) {coalesced : Accesses} (hcoalesce : coalesce wide accesses = some coalesced)
    (hok : AllAccesses access ok s.lastDepObjId coalesced (RegionDomain.enter s false)) :
    ∃ s', submitDependableObjectInternal wide access s false accesses = .ok s' ∧
      ConflictInv J s' (fun _ => 0) (withAccesses A s.lastDepObjId coalesced) := by
  obtain ⟨h₁, hcur⟩ := h.enter hJ
  obtain ⟨s₂, hrun, h₂, -⟩ := h₁.submitAccesses hkeeps hcur hok
  obtain ⟨hgraph', hsame, hmap⟩ := h₂.graph.stop
  refine ⟨_, ?_, h₂.of_sameGraph hJ hsame hmap hgraph'⟩
  unfold submitDependableObjectInternal
  rw [hcoalesce]
  dsimp only
  rw [hrun]

/-! ## Runs -/

/-- The accesses `A` include the accesses `B`, whose writes are writes there. -/
def Includes (A B : Nat → Accesses) : Prop :=
  ∀ u p a, p ∈ B u → p.1.Contains a → ∃ q ∈ A u, q.1.Contains a ∧ (p.2.output = true → q.2.output = true)

/-- The invariant of a run: that of the domain, for accesses which include those of the tasks. -/
def RunInv (J : State → Prop) (S : Sys) : Prop :=
  ∃ A, ConflictInv J S.dom (fun _ => 0) A ∧ Includes A S.accesses

variable {S S' : Sys}

/-- **One step** in which nothing is lost when the accesses of the task are coalesced. -/
theorem RunInv.step (h : RunInv J S) (hJ : Upheld J)
    (hkeeps : Keeps access (fun s target ty => ty.Plain ∧ ok s target ty) J) {ev : Event}
    (hplain : PlainSubmit ev) (hwhole : CoalescedWhole wide ev) (hok : AccessesMeet wide access ok S ev)
    (hs : step wide access S ev = some S') : RunInv J S' := by
  obtain ⟨A, hinv, hincl⟩ := h
  cases ev with
  | submit accesses =>
    obtain ⟨coalesced, hcoalesce, hspec⟩ := exists_coalesce hwhole
    obtain ⟨s', hrun, h'⟩ := hinv.submit hJ hkeeps hcoalesce
      ((hok coalesced hcoalesce).and_plain (hspec.plain hplain))
    simp only [RegionDomain.step, hrun] at hs
    cases hs
    refine ⟨_, h', fun u p a hp ha => ?_⟩
    dsimp only at hp
    split_ifs at hp with hu
    · obtain ⟨q, hq, hqa, hout⟩ := hspec.exists_access hp ha
      refine ⟨q, ?_, hqa, hout⟩
      rw [withAccesses, if_pos hu]
      exact List.mem_append_right _ hq
    · obtain ⟨q, hq, hqa, hout⟩ := hincl u p a hp ha
      refine ⟨q, ?_, hqa, hout⟩
      rwa [withAccesses, if_neg hu]
  | finish x =>
    simp only [RegionDomain.step] at hs
    split at hs
    · next hready =>
      cases hs
      exact ⟨A, hinv.finish hJ ⟨hready.1, hready.2.2.2.2⟩ hready.2.2.2.1, hincl⟩
    · cases hs

theorem runInv_init (hJ : J init.dom) : RunInv J init :=
  ⟨init.accesses, ⟨⟨⟨nofun, nofun, nofun, nofun⟩, nofun, fun _ => rfl⟩, ⟨_, sound_emptyRoot⟩,
    fun k => congrArg TrackableObject.commDO (RegionMap.view_eq sound_emptyRoot k), ⟨nofun, nofun⟩,
    fun _ _ => rfl, hJ⟩, nofun⟩

/-- **Safety of a plugin whose accesses keep the invariant**: a task whose counter is 0 has no unfinished
earlier task that it conflicts with. -/
theorem RunInv.finished (h : RunInv J S) (hut : u < t) (ht : t < S.dom.lastDepObjId)
    (hconf : Conflict S u t) (hnum : (S.dom.obj t).numPredecessors = 0) :
    (S.dom.obj u).finished = true := by
  obtain ⟨A, hinv, hincl⟩ := h
  obtain ⟨ru, rt, ku, kt, hu, ht', ⟨a, hau, hat⟩, hw⟩ := hconf
  obtain ⟨⟨qu, tu⟩, hqu, hqua, hout⟩ := hincl u _ a hu hau
  obtain ⟨⟨qt, tt⟩, hqt, hqta, hout'⟩ := hincl t _ a ht' hat
  have hwrites : (tu.output || tt.output) = true := by
    rw [Bool.or_eq_true]
    exact hw.imp hout hout'
  exact hinv.graph.finished_of_conflict hinv.safe (hut.trans ht) hut ⟨qu, tu, hqu, hqua, rfl⟩
    ⟨qt, tt, hqt, hqta, rfl⟩ hwrites hnum

end

end RegionDomain

end OmpSs.Deps
