import OmpSs.Deps.BaseRegions
import OmpSs.Support.RegionTreeVisit

/-!
# The map of the region plugins

Both region plugins keep their statuses in a region tree, and when an object finishes they update the
entries that intersect its targets. `RegionMap.view` is what an entry records, a region without an entry
recording nothing; it does not show whether an entry is on hold. A completion makes the entries forget the
object (`Forgetful`).
-/

namespace OmpSs.Deps

open DepState Support

instance : Inhabited TrackableObject := ⟨{}⟩

/-- Source: `_regionMap` (`regions_deps.cpp:38`, `perfect_regions_deps.cpp:38`). -/
abbrev RegionMap := Node TrackableObject

instance : StatusMap Region RegionMap where
  status m k := (findExact m k).getD {}
  setStatus m k o := m.writeLeaf o k

namespace RegionMap

/-- One round of the loops that update a status and erase its entry if it is empty and not on hold. -/
def updateEntry (f : TrackableObject → TrackableObject) (m : RegionMap) (k : Region) : RegionMap :=
  let status := f (StatusMap.status m k)
  let m : RegionMap := StatusMap.setStatus m k status
  if status.isEmpty && !status.hold then erase m k else m

/-- The loop over the entries that intersect a region. -/
def updateFound (f : TrackableObject → TrackableObject) (m : RegionMap) (region : FullRegion) :
    RegionMap :=
  (((find m region.toRegion).getD []).map (·.region)).foldl (updateEntry f) m

/-- Source: `RegionDependenciesDomain::deleteLastWriter` (`regions_deps.cpp:213`). -/
def deleteLastWriter (m : RegionMap) (x : Nat) (target : FullRegion) : RegionMap :=
  m.updateFound (·.deleteLastWriter x) target

/-- Source: `RegionDependenciesDomain::deleteReader` (`regions_deps.cpp:238`). -/
def deleteReader (m : RegionMap) (x : Nat) (target : FullRegion) : RegionMap :=
  m.updateFound (·.deleteReader x) target

/-- Source: `RegionDependenciesDomain::removeCommDO` (`regions_deps.cpp:265`). -/
def removeCommDO (m : RegionMap) (x : Nat) (target : FullRegion) : RegionMap :=
  m.updateFound (fun o => if o.commDO = some x then o.setCommDO none else o) target

/-- `status.hold()` on an entry. -/
def hold (m : RegionMap) (k : Region) : RegionMap :=
  StatusMap.setStatus m k { StatusMap.status m k with hold := true }

end RegionMap

instance : DependenciesDomain FullRegion RegionMap where
  deleteLastWriter := RegionMap.deleteLastWriter
  deleteReader := RegionMap.deleteReader
  removeCommDO := RegionMap.removeCommDO

/-! ## What the entries record -/

namespace RegionMap

/-- What is recorded of a region. -/
def view (m : RegionMap) (k : FullRegion) : TrackableObject :=
  { StatusMap.status m k.toRegion with hold := false }

section
variable {root : RegionMap} {m : FullRegion → Option TrackableObject} {r k : FullRegion}
  {d o : TrackableObject}

theorem status_eq (h : Sound root m) (k : FullRegion) :
    StatusMap.status root k.toRegion = (m k).getD {} := by
  show (findExact root k.toRegion).getD {} = _
  rw [h.findExact]

theorem view_eq (h : Sound root m) (k : FullRegion) :
    root.view k = { (m k).getD {} with hold := false } := by
  rw [view, status_eq h]

/-- The map has an entry for the region. -/
def Has (root : RegionMap) (k : FullRegion) : Prop := findExact root k.toRegion ≠ none

theorem has_iff (h : Sound root m) : root.Has k ↔ m k ≠ none := by
  rw [Has, h.findExact]

/-- Nothing is recorded in an empty status. -/
theorem eq_of_isEmpty (h : o.isEmpty = true) : { o with hold := false } = ({} : TrackableObject) := by
  obtain ⟨w, rs, c, b⟩ := o
  simp only [TrackableObject.isEmpty, Bool.and_eq_true, Option.isNone_iff_eq_none,
    List.isEmpty_iff] at h
  obtain ⟨⟨rfl, rfl⟩, rfl⟩ := h
  rfl

/-- A status is written, and its entry erased if a condition holds. -/
theorem sound_update (h : Sound root m) (hr : m r = some d) (o : TrackableObject) (b : Bool) :
    Sound (if b = true then erase (StatusMap.setStatus root r.toRegion o) r.toRegion
      else StatusMap.setStatus root r.toRegion o)
      fun s => if s = r then (if b = true then none else some o) else m s := by
  have hwrite : Sound (StatusMap.setStatus root r.toRegion o : RegionMap) _ := h.write hr o
  cases b with
  | false => exact hwrite
  | true =>
    refine (hwrite.erase (if_pos rfl)).congr fun s => ?_
    by_cases hs : s = r
    · rw [if_pos hs, if_pos hs, if_pos rfl]
    · rw [if_neg hs, if_neg hs, if_neg hs]

/-- Entries are put on hold. -/
theorem hold_spec {Ks : List FullRegion} (h : Sound root m) (hnd : Ks.Nodup)
    (hKs : ∀ k ∈ Ks, m k ≠ none) :
    ∃ m', Sound ((Ks.map FullRegion.toRegion).foldl hold root) m' ∧ (∀ k, m' k ≠ none ↔ m k ≠ none) ∧
      ∀ k, view ((Ks.map FullRegion.toRegion).foldl hold root) k = root.view k := by
  have hop : Visits hold fun _ o => some { o with hold := true } := by
    intro root m r d h hr
    have hst : StatusMap.status root r.toRegion = d := by rw [status_eq h, hr]; rfl
    rw [hold, hst]
    exact h.write hr _
  have hvisit := h.visit hop hnd hKs
  refine ⟨_, hvisit, fun k => ?_, fun k => ?_⟩
  · split
    · cases m k <;> simp
    · exact Iff.rfl
  · rw [view_eq hvisit, view_eq h]
    split
    · next hk =>
      obtain ⟨d, hd⟩ := Option.ne_none_iff_exists'.1 (hKs k hk)
      rw [hd]
      rfl
    · rfl

/-- The status of an entry is written. -/
theorem setStatus_spec (h : Sound root m) (hk : m k ≠ none) (o : TrackableObject) :
    ∃ m', Sound (StatusMap.setStatus root k.toRegion o : RegionMap) m' ∧
      (∀ j, m' j ≠ none ↔ m j ≠ none) ∧
      ∀ j, (StatusMap.setStatus root k.toRegion o : RegionMap).view j =
        if j = k then { o with hold := false } else root.view j := by
  obtain ⟨d, hd⟩ := Option.ne_none_iff_exists'.1 hk
  have hsound : Sound (StatusMap.setStatus root k.toRegion o : RegionMap) _ := h.write hd o
  refine ⟨_, hsound, fun j => ?_, fun j => ?_⟩
  · split
    · next hj => simp [hj, hd]
    · exact Iff.rfl
  · rw [view_eq hsound, view_eq h]
    split <;> rfl

theorem visits_updateEntry (f : TrackableObject → TrackableObject) :
    Visits (updateEntry f) fun _ o => if ((f o).isEmpty && !(f o).hold) = true then none
      else some (f o) := by
  intro root m r d h hr
  have hst : StatusMap.status root r.toRegion = d := by rw [status_eq h, hr]; rfl
  unfold updateEntry
  rw [hst]
  exact sound_update h hr _ _

/-- The loop over the entries that intersect a region updates what they record. -/
theorem updateFound_spec (f : TrackableObject → TrackableObject) (h : Sound root m)
    (region : FullRegion) :
    ∃ m', Sound (root.updateFound f region) m' ∧ (∀ k, m' k ≠ none → m k ≠ none) ∧
      ∀ k, (root.updateFound f region).view k = root.view k ∨
        (root.updateFound f region).view k =
          { f (StatusMap.status root k.toRegion) with hold := false } := by
  obtain ⟨out, Ls, hrun, hout, hnodup, hmem⟩ := h.find region
  have heq : root.updateFound f region = (Ls.map FullRegion.toRegion).foldl (updateEntry f) root := by
    rw [updateFound, hrun, ← hout]
    rfl
  have hvisit := h.visit (visits_updateEntry f) hnodup fun k hk => ((hmem k).1 hk).1
  rw [← heq] at hvisit
  refine ⟨_, hvisit, fun k hk hnone => ?_, fun k => ?_⟩
  · rw [hnone] at hk
    simp at hk
  rw [view_eq hvisit, view_eq h, status_eq h]
  by_cases hk : k ∈ Ls
  · right
    obtain ⟨d, hd⟩ := Option.ne_none_iff_exists'.1 ((hmem k).1 hk).1
    rw [if_pos hk, hd]
    dsimp only [Option.bind_some, Option.getD_some]
    split
    · next hempty =>
      rw [Bool.and_eq_true] at hempty
      rw [eq_of_isEmpty hempty.1]
      rfl
    · rfl
  · left
    rw [if_neg hk]

/-! ## Completions -/

/-- An operation by which the object `x` is forgotten and no entry added. -/
def Forgetful (x : Nat) (m : FullRegion → Option TrackableObject) (root root' : RegionMap) : Prop :=
  ∃ m', Sound root' m' ∧ (∀ k, m' k ≠ none → m k ≠ none) ∧ ∀ k, (root.view k).Forgets x (root'.view k)

variable {x : Nat}

theorem forgetful_updateFound {f : TrackableObject → TrackableObject}
    (hf : ∀ o : TrackableObject, o.Forgets x (f o)) (h : Sound root m) (region : FullRegion) :
    Forgetful x m root (root.updateFound f region) := by
  obtain ⟨m', hsound, hkeys, hview⟩ := updateFound_spec f h region
  refine ⟨m', hsound, hkeys, fun k => ?_⟩
  rcases hview k with heq | heq <;> rw [heq]
  · exact .refl
  · obtain ⟨h₁, h₂, h₃, h₄, h₅⟩ := hf (StatusMap.status root k.toRegion)
    exact ⟨h₁, h₂, h₃, h₄, h₅⟩

/-- A loop over the targets of an object. -/
theorem forgets_foldl {delete : RegionMap → Nat → FullRegion → RegionMap}
    (hdelete : ∀ root m region, Sound root m → Forgetful x m root (delete root x region))
    (targets : List FullRegion) (h : Sound root m) :
    Forgetful x m root (targets.foldl (fun m t => delete m x t) root) := by
  induction targets generalizing root m with
  | nil => exact ⟨m, h, fun _ hk => hk, fun _ => .refl⟩
  | cons t targets ih =>
    obtain ⟨m₁, h₁, hkeys₁, hforgets₁⟩ := hdelete root m t h
    obtain ⟨m', h', hkeys', hforgets'⟩ := ih h₁
    exact ⟨m', h', fun k hk => hkeys₁ k (hkeys' k hk), fun k => (hforgets₁ k).trans (hforgets' k)⟩

end

end RegionMap

/-- An object that finishes is forgotten. -/
theorem forgets_retire {s : DepState FullRegion RegionMap} {m : FullRegion → Option TrackableObject}
    (h : Sound s.map m) (x : Nat) : RegionMap.Forgetful x m s.map (s.retire x).map := by
  have hwriter : ∀ (root : RegionMap) m region, Sound root m →
      RegionMap.Forgetful x m root (root.deleteLastWriter x region) := fun _ _ region h =>
    RegionMap.forgetful_updateFound (fun _ => .deleteLastWriter) h region
  have hreader : ∀ (root : RegionMap) m region, Sound root m →
      RegionMap.Forgetful x m root (root.deleteReader x region) := fun _ _ region h =>
    RegionMap.forgetful_updateFound (fun _ => .deleteReader) h region
  obtain ⟨m₁, h₁, hkeys₁, hforgets₁⟩ := RegionMap.forgets_foldl hwriter (s.obj x).outputObjects h
  obtain ⟨m', h', hkeys', hforgets'⟩ := RegionMap.forgets_foldl hreader (s.obj x).readObjects h₁
  exact ⟨m', h', fun k hk => hkeys₁ k (hkeys' k hk), fun k => (hforgets₁ k).trans (hforgets' k)⟩

end OmpSs.Deps
