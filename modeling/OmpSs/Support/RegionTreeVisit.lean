import OmpSs.Support.RegionTreePartition

/-!
# Loops over the leaves of a region tree

A search of a region tree returns iterators, and its callers loop over them: they write to each leaf or
erase it. `Visits` says what one round does to the entry of its leaf, and `Sound.visit` what the loop
does to all of them.
-/

namespace OmpSs.Support

open FullRegion

/-- The tree has the shape of one, and its leaves are the entries of `m`. -/
structure Sound {T : Type} [Inhabited T] (root : Node T) (m : FullRegion → Option T) : Prop where
  wellShaped : WellShaped root
  holds : Holds root m

/-- The operation replaces the entry `d` of a leaf `r` by `g r d`, or erases it where that is `none`. -/
def Visits {T : Type} [Inhabited T] (op : Node T → Region → Node T)
    (g : FullRegion → T → Option T) : Prop :=
  ∀ (root : Node T) (m : FullRegion → Option T) (r : FullRegion) (d : T), Sound root m →
    m r = some d → Sound (op root r.toRegion) fun s => if s = r then g r d else m s

section
variable {T : Type} [Inhabited T] {root : Node T} {m m' : FullRegion → Option T}
  {r : FullRegion} {d : T} {op : Node T → Region → Node T} {g : FullRegion → T → Option T}

theorem Sound.congr (h : Sound root m) (hm : ∀ s, m' s = m s) : Sound root m' := by
  rwa [funext hm]

theorem sound_emptyRoot : Sound (emptyRoot : Node T) fun _ => none :=
  ⟨wellShaped_emptyRoot, holds_emptyRoot⟩

theorem Sound.findExact (h : Sound root m) (r : FullRegion) : findExact root r.toRegion = m r :=
  h.wellShaped.findExact_eq h.holds r

theorem Sound.write (h : Sound root m) (hr : m r = some d) (data : T) :
    Sound (root.writeLeaf data r.toRegion) fun s => if s = r then some data else m s := by
  obtain ⟨hroot, hholds⟩ := h.wellShaped.writeLeaf h.holds hr data
  exact ⟨hroot, hholds⟩

theorem Sound.erase (h : Sound root m) (hr : m r = some d) :
    Sound (Support.erase root r.toRegion) fun s => if s = r then none else m s := by
  obtain ⟨hroot, hholds⟩ := h.wellShaped.erase h.holds hr
  exact ⟨hroot, hholds⟩

/-- A region that has no leaf gets one. -/
theorem Sound.add (h : Sound root m) (hr : m r = none) (level : Option Int) :
    ∃ root', addOverlapping root r.toRegion level = some root' ∧
      Sound root' fun s => if s = r then some default else m s := by
  obtain ⟨root', hadd, hroot, hholds⟩ := h.wellShaped.addOverlapping h.holds r level
  refine ⟨root', hadd, Sound.congr ⟨hroot, hholds⟩ fun s => ?_⟩
  rw [containerStep, hr]
  rfl

/-- `find` returns the entries that intersect the region. -/
theorem Sound.find (h : Sound root m) (q : FullRegion) :
    ∃ out, ∃ Ls : List FullRegion, Support.find root q.toRegion = some out ∧
      out.map (·.region) = Ls.map toRegion ∧ Ls.Nodup ∧
      ∀ s, s ∈ Ls ↔ m s ≠ none ∧ s.Intersects q := by
  obtain ⟨out, hrun, hnodup, hmem⟩ := (h.wellShaped.container h.holds).find q
  have hrange : out.map (·.region) ∈ Set.range (List.map toRegion) := by
    rw [Set.range_list_map]
    intro x hx
    obtain ⟨it, hit, rfl⟩ := List.mem_map.1 hx
    obtain ⟨s, hs, -⟩ := (hmem _ _).1 ⟨it, hit, rfl, rfl⟩
    exact ⟨s, hs.symm⟩
  obtain ⟨Ls, hLs⟩ := hrange
  refine ⟨out, Ls, hrun, hLs.symm, ?_, fun s => ?_⟩
  · rw [← hLs] at hnodup
    exact hnodup.of_map _
  · have hmemLs : s ∈ Ls ↔ s.toRegion ∈ out.map (·.region) := by
      rw [← hLs, List.mem_map_of_injective toRegion_injective]
    rw [hmemLs, List.mem_map]
    constructor
    · rintro ⟨it, hit, hregion⟩
      obtain ⟨s', hs', hd, hint⟩ := (hmem _ _).1 ⟨it, hit, hregion, rfl⟩
      obtain rfl := toRegion_injective hs'
      exact ⟨by simp [hd], hint⟩
    · rintro ⟨hd, hint⟩
      obtain ⟨d, hd⟩ := Option.ne_none_iff_exists'.1 hd
      obtain ⟨it, hit, hregion, -⟩ := (hmem s.toRegion d).2 ⟨s, rfl, hd, hint⟩
      exact ⟨it, hit, hregion⟩

/-- **A loop over leaves** does to every one of them what its round does. -/
theorem Sound.visit (hop : Visits op g) {ks : List FullRegion} (h : Sound root m) (hnd : ks.Nodup)
    (hks : ∀ k ∈ ks, m k ≠ none) :
    Sound ((ks.map toRegion).foldl op root) fun s => if s ∈ ks then (m s).bind (g s) else m s := by
  induction ks generalizing root m with
  | nil => exact h.congr fun s => if_neg List.not_mem_nil
  | cons k ks ih =>
    obtain ⟨hk, hnd⟩ := List.nodup_cons.1 hnd
    obtain ⟨d, hd⟩ := Option.ne_none_iff_exists'.1 (hks k List.mem_cons_self)
    have hrest := ih (hop root m k d h hd) hnd fun k' hk' => by
      have hne : k' ≠ k := fun heq => hk (heq ▸ hk')
      rw [if_neg hne]
      exact hks k' (List.mem_cons_of_mem k hk')
    refine hrest.congr fun s => ?_
    by_cases hsk : s = k
    · subst hsk
      rw [if_pos List.mem_cons_self, if_neg hk, if_pos rfl, hd]
      rfl
    · simp only [List.mem_cons, hsk, false_or, if_false]

end

end OmpSs.Support
