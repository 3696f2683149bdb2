import OmpSs.Support.RegionTreePartition

/-!
# Populating a region tree

What `findAndPopulate` leaves behind in a tree of disjoint leaves: the leaves are disjoint again, the output
tiles the region, what was covered is covered by copies of its data, and what the region adds is new. This
holds if and only if no leaf and no rest of the region has its first cut at the last bit, where the source
shifts words by their width (`RegionPart`).
-/

namespace OmpSs.Support

open Lib

/-- A region that an iterator gives, which has full width. -/
def fullRegion (r : Region) : FullRegion := .ofBits r.bits

@[simp] theorem fullRegion_toRegion (r : FullRegion) : fullRegion r.toRegion = r := FullRegion.ofBits_bits r

namespace RegionTree

open FullRegion

section
variable {T : Type} [Inhabited T] {root : Node T} {m m' : FullRegion → Option T} {r L s : FullRegion}
  {Ls : List FullRegion} {copy : T → T}

/-- The leaves are pairwise disjoint. -/
def Apart (m : FullRegion → Option T) : Prop :=
  ∀ s s' d d', m s = some d → m s' = some d' → s ≠ s' → ¬ s.Intersects s'

/-- What `findAndPopulate` of a region is for, from the entries before, the entries after and the leaves it
returns. -/
structure Populated (copy : T → T) (m m' : FullRegion → Option T) (r : FullRegion)
    (out : List FullRegion) : Prop where
  /-- The leaves are still pairwise disjoint. -/
  apart : Apart m'
  /-- The leaves returned are leaves of the tree. -/
  leaves : ∀ s ∈ out, ∃ d, m' s = some d
  /-- They tile the region. -/
  tiles : Tiles Contains out r.Contains
  /-- An address covered before is covered by a leaf with a copy of the data. -/
  kept : ∀ L d x, m L = some d → L.Contains x →
    ∃ s d', m' s = some d' ∧ s.Contains x ∧ (d' = d ∨ d' = copy d)
  /-- An address of the region not covered before carries default data. -/
  fresh : ∀ x, r.Contains x → (∀ L d, m L = some d → ¬ L.Contains x) →
    ∀ s d', m' s = some d' → s.Contains x → d' = default

theorem Populated.perm {out out' : List FullRegion} (h : Populated copy m m' r out) (hperm : out.Perm out') :
    Populated copy m m' r out' :=
  ⟨h.apart, fun s hs => h.leaves s (hperm.mem_iff.2 hs), h.tiles.perm hperm, h.kept, h.fresh⟩

theorem Populated.nodup {out : List FullRegion} (h : Populated copy m m' r out) : out.Nodup :=
  h.tiles.disjoint.imp fun {s _} hdisj heq => by
    obtain ⟨x, hx, -⟩ := intersects_self s
    exact hdisj x hx (heq ▸ hx)

/-- Where the entries come from: each adds to the region, or lies in an entry of before. Only a leaf that
reaches out of the region is replaced by copies. -/
structure Descends (copy : T → T) (m m' : FullRegion → Option T) (r : FullRegion) : Prop where
  kept : ∀ L d x, m L = some d → L.Contains x → ∃ s d', m' s = some d' ∧ s.Contains x ∧
    (d' = d ∨ d' = copy d ∧ L.Intersects r ∧ L ≠ r ∧
      L.toRegion.getPrefixUntilThisSubsumes r.toRegion = true)
  origin : ∀ s d', m' s = some d' → (∀ x, s.Contains x → r.Contains x) ∧ d' = default ∨
    ∃ L d, m L = some d ∧ (∀ x, s.Contains x → L.Contains x) ∧ (d' = d ∨ d' = copy d)

theorem Descends.refl (copy : T → T) (m : FullRegion → Option T) (r : FullRegion) :
    Descends copy m m r where
  kept L d _ hL hx := ⟨L, d, hL, hx, .inl rfl⟩
  origin s d hs := .inr ⟨s, d, hs, fun _ hx => hx, .inl rfl⟩

omit [Inhabited T] in
/-- The leaves that intersect a region without a leaf of its own. -/
theorem Apart.separate (h : Apart m) (hnodup : Ls.Nodup)
    (hLs : ∀ s, s ∈ Ls ↔ (∃ d, m s = some d) ∧ s.Intersects r ∧ s ≠ r) : Separate m r Ls where
  nodup := hnodup
  leaf L hL := ((hLs L).1 hL).1
  meets L hL := ((hLs L).1 hL).2.1
  apart s d hs L hL hne := by
    obtain ⟨⟨d', hd'⟩, -, -⟩ := (hLs L).1 hL
    exact h s L d d' hs hd' hne

omit [Inhabited T] in
/-- Cutting leaves keeps them disjoint. -/
theorem CutInto.apart (hcut : CutInto copy m r Ls m') (h : Apart m) : Apart m' := by
  -- every entry lies in an entry of before, and two in the same one are parts of it
  intro s s' d d' hs hs' hne hint
  rcases (hcut s d).1 hs with ⟨hLs, hms⟩ | ⟨L, hL, hmem, e, hme, -⟩
  · rcases (hcut s' d').1 hs' with ⟨-, hms'⟩ | ⟨L', hL', hmem', e', hme', -⟩
    · exact h s s' d d' hms hms' hne hint
    · obtain ⟨x, hx, hx'⟩ := hint
      refine h s L' d e' hms hme' (fun heq => hLs (heq ▸ hL')) ⟨x, hx, contains_of_mem_cut hmem' hx'⟩
  · rcases (hcut s' d').1 hs' with ⟨hLs', hms'⟩ | ⟨L', hL', hmem', e', hme', -⟩
    · exact h L s' e d' hme hms' (fun heq => hLs' (heq ▸ hL)) (intersects_of_mem_cut hmem hint)
    · obtain ⟨x, hx, hx'⟩ := hint
      by_cases heq : L = L'
      · subst heq
        exact hne ((tiles_cut L r).eq_of_mem hmem hmem' hx hx')
      · exact h L L' e e' hme hme' heq
          ⟨x, contains_of_mem_cut hmem hx, contains_of_mem_cut hmem' hx'⟩

/-- No leaf that intersects the region has its first cut at the last bit, nor has what is left of the region
while the parts that these leaves cover are subtracted, in the order in which the search finds them. -/
def LastBitsWhole (root : Node T) (r : FullRegion) : Prop :=
  ∀ exact out, ∀ Ls : List FullRegion, findExactAndMatching root r.toRegion = some (exact, out) →
    out.map (·.region) = Ls.map toRegion →
    (∀ L ∈ Ls, ¬ L.CutLast r) ∧ (exact = none → NoCutLast [r] (Ls.map (·.meet r)))

/-- The same of the iterators that the search gives. -/
def LastBitsKept (root : Node T) (r : FullRegion) : Prop :=
  ∀ p ∈ findExactAndMatching root r.toRegion, (∀ it ∈ p.2, ¬ (fullRegion it.region).CutLast r) ∧
    (p.1.isNone = true → NoCutLast [r] (p.2.map fun it => (fullRegion it.region).meet r))

instance (root : Node T) (r : FullRegion) : Decidable (LastBitsKept root r) :=
  inferInstanceAs (Decidable (∀ p ∈ findExactAndMatching root r.toRegion, _ ∧ _))

omit [Inhabited T] in
theorem LastBitsKept.lastBitsWhole (h : LastBitsKept root r) : LastBitsWhole root r := by
  intro exact out Ls hfind hout
  obtain ⟨hleaves, hrest⟩ := h _ hfind
  refine ⟨fun L hL => ?_, fun hexact => ?_⟩
  · have hmem : L.toRegion ∈ out.map (·.region) := hout ▸ List.mem_map_of_mem hL
    obtain ⟨it, hit, hregion⟩ := List.mem_map.1 hmem
    have hthis := hleaves it hit
    rwa [hregion, fullRegion_toRegion] at hthis
  · have hmeets : out.map (fun it => (fullRegion it.region).meet r) = Ls.map (·.meet r) := by
      have hmap := congrArg (List.map fun s => (fullRegion s).meet r) hout
      simpa [Function.comp_def] using hmap
    rw [← hmeets]
    exact hrest (by rw [hexact]; rfl)

/-- The parts that are missing are added. -/
theorem addMissing {parts : List RegionPart} {fs : List FullRegion} (hroot : WellShaped root)
    (h : Holds root m) (hparts : Stand parts fs) :
    ∃ root', parts.foldlM (fun root part => addOverlapping root part.region (some part.partLevel)) root =
        some root' ∧ WellShaped root' ∧ Holds root' (addAll m fs) := by
  induction fs generalizing parts root m with
  | nil =>
    obtain rfl := List.map_eq_nil_iff.1 hparts
    exact ⟨root, rfl, hroot, holds_congr h fun s => if_neg List.not_mem_nil⟩
  | cons f fs ih =>
    obtain ⟨level, rest, rfl, hrest⟩ := stand_cons hparts
    obtain ⟨root₁, hadd, hroot₁, h₁⟩ := hroot.addOverlapping h f (some level)
    obtain ⟨root', hrun, hroot', h'⟩ := ih hroot₁ h₁ hrest
    refine ⟨root', ?_, hroot', holds_congr h' fun s => addAll_cons⟩
    rw [List.foldlM_cons, hadd]
    exact hrun

/-! ## What is missing -/

/-- What is left of the region when the parts that the leaves cover are subtracted. -/
def missing (r : FullRegion) (Ls : List FullRegion) : List FullRegion :=
  minusAll [r] (Ls.map (·.meet r))

/-- The missing parts tile the addresses of the region that no leaf covers. -/
theorem tiles_missing (hmeets : ∀ L ∈ Ls, L.Intersects r) :
    Tiles Contains (missing r Ls) fun x => r.Contains x ∧ ∀ L ∈ Ls, ¬ L.Contains x := by
  have hone : Tiles Contains [r] r.Contains := ⟨List.pairwise_singleton _ _, fun x => by simp⟩
  have htiles : Tiles Contains (missing r Ls) _ := tiles_minusAll hone
  refine ⟨htiles.disjoint, fun x => ?_⟩
  rw [← htiles.union x]
  refine and_congr_right fun hr => ?_
  rw [List.forall_mem_map]
  refine forall_congr' fun L => forall_congr' fun hL => ?_
  rw [contains_meet (hmeets L hL), and_iff_left hr]

/-- The parts that the leaves cover and the missing ones tile the region. -/
theorem tiles_output (hmeets : ∀ L ∈ Ls, L.Intersects r)
    (hdisj : Ls.Pairwise fun L L' => ¬ L.Intersects L') :
    Tiles Contains (Ls.map (·.meet r) ++ missing r Ls) r.Contains := by
  have hcovered : Tiles Contains (Ls.map (·.meet r)) fun x => r.Contains x ∧ ∃ L ∈ Ls, L.Contains x := by
    refine ⟨List.pairwise_map.2 (hdisj.imp_of_mem fun {L L'} hL hL' hnot x hx hx' => ?_), fun x => ?_⟩
    · exact hnot ⟨x, ((contains_meet (hmeets L hL)).1 hx).1, ((contains_meet (hmeets L' hL')).1 hx').1⟩
    · simp only [List.mem_map, exists_exists_and_eq_and]
      constructor
      · rintro ⟨hr, L, hL, hx⟩
        exact ⟨L, hL, (contains_meet (hmeets L hL)).2 ⟨hx, hr⟩⟩
      · rintro ⟨L, hL, hx⟩
        obtain ⟨hx, hr⟩ := (contains_meet (hmeets L hL)).1 hx
        exact ⟨hr, L, hL, hx⟩
  have htiles := hcovered.append (tiles_missing hmeets) fun x hx hx' => by
    obtain ⟨-, L, hL, hLx⟩ := hx
    exact hx'.2 L hL hLx
  refine ⟨htiles.disjoint, fun x => ?_⟩
  rw [← htiles.union x, ← and_or_left]
  refine (and_iff_left ?_).symm
  by_cases hsome : ∃ L ∈ Ls, L.Contains x
  · exact .inl hsome
  · exact .inr fun L hL hx => hsome ⟨L, hL, hx⟩

omit [Inhabited T] in
/-- No entry covers an address of a missing part. -/
theorem CutInto.not_intersects_missing (hcut : CutInto copy m r Ls m')
    (hLs : ∀ s, s ∈ Ls ↔ (∃ d, m s = some d) ∧ s.Intersects r ∧ s ≠ r) (hr : m r = none) {d : T}
    (hs : m' s = some d) {f : FullRegion} (hf : f ∈ missing r Ls) : ¬ s.Intersects f := by
  rintro ⟨x, hsx, hfx⟩
  have hmeets : ∀ L ∈ Ls, L.Intersects r := fun L hL => ((hLs L).1 hL).2.1
  obtain ⟨hrx, hnot⟩ := ((tiles_missing hmeets).union x).2 ⟨f, hf, hfx⟩
  rcases (hcut s d).1 hs with ⟨hnotin, hms⟩ | ⟨L, hL, hmem, -⟩
  · refine hnotin ((hLs s).2 ⟨⟨d, hms⟩, ⟨x, hsx, hrx⟩, ?_⟩)
    rintro rfl
    rw [hr] at hms
    cases hms
  · exact hnot L hL (contains_of_mem_cut hmem hsx)

omit [Inhabited T] in
theorem carried_eq_or (copy : T → T) (L r : FullRegion) (d : T) :
    carried copy L r d = d ∨ carried copy L r d = copy d := by
  unfold carried
  split
  · exact .inr rfl
  · exact .inl rfl

/-- The entries after the leaves are cut and the missing parts are added: nothing that was there changes. -/
theorem CutInto.addAll_of_some (hcut : CutInto copy m r Ls m')
    (hLs : ∀ s, s ∈ Ls ↔ (∃ d, m s = some d) ∧ s.Intersects r ∧ s ≠ r) (hr : m r = none) {d : T}
    (hs : m' s = some d) : addAll m' (missing r Ls) s = some d := by
  rw [addAll, if_neg, hs]
  exact fun hf => hcut.not_intersects_missing hLs hr hs hf s.intersects_self

/-- A missing part is a new entry. -/
theorem CutInto.addAll_cases (hcut : CutInto copy m r Ls m')
    (hLs : ∀ s, s ∈ Ls ↔ (∃ d, m s = some d) ∧ s.Intersects r ∧ s ≠ r) (hr : m r = none) {d : T}
    (hs : addAll m' (missing r Ls) s = some d) :
    s ∈ missing r Ls ∧ d = default ∨ m' s = some d := by
  rw [addAll] at hs
  split at hs
  · next hf =>
    have hnone : m' s = none := Option.eq_none_iff_forall_ne_some.2 fun d hd =>
      hcut.not_intersects_missing hLs hr hd hf s.intersects_self
    rw [hnone] at hs
    exact .inl ⟨hf, (Option.some.inj hs).symm⟩
  · exact .inr hs

/-- The entries after the leaves are cut and the missing parts are added. -/
theorem CutInto.populated (hcut : CutInto copy m r Ls m') (h : Apart m) (hnodup : Ls.Nodup)
    (hLs : ∀ s, s ∈ Ls ↔ (∃ d, m s = some d) ∧ s.Intersects r ∧ s ≠ r) (hr : m r = none) :
    Populated copy m (addAll m' (missing r Ls)) r (Ls.map (·.meet r) ++ missing r Ls) := by
  have hmeets : ∀ L ∈ Ls, L.Intersects r := fun L hL => ((hLs L).1 hL).2.1
  have hsep := h.separate hnodup hLs
  have hapart := hcut.apart h
  have hdisj : Ls.Pairwise fun L L' => ¬ L.Intersects L' := by
    refine List.Pairwise.imp_of_mem ?_ hnodup
    intro L L' hL hL' hne
    obtain ⟨d, hd⟩ := hsep.leaf L hL
    exact hsep.apart L d hd L' hL' hne
  have hold := fun s d => hcut.addAll_of_some hLs hr (s := s) (d := d)
  have hcases := fun s d => hcut.addAll_cases hLs hr (s := s) (d := d)
  refine ⟨?_, ?_, tiles_output hmeets hdisj, ?_, ?_⟩
  · intro s s' d d' hs hs' hne
    rcases hcases s d hs with ⟨hf, -⟩ | hs
    · rcases hcases s' d' hs' with ⟨hf', -⟩ | hs'
      · rintro ⟨x, hx, hx'⟩
        exact hne ((tiles_missing hmeets).eq_of_mem hf hf' hx hx')
      · rintro ⟨x, hx, hx'⟩
        exact hcut.not_intersects_missing hLs hr hs' hf ⟨x, hx', hx⟩
    · rcases hcases s' d' hs' with ⟨hf', -⟩ | hs'
      · exact hcut.not_intersects_missing hLs hr hs hf'
      · exact hapart s s' d d' hs hs' hne
  · intro s hs
    rcases List.mem_append.1 hs with hs | hs
    · obtain ⟨L, hL, rfl⟩ := List.mem_map.1 hs
      obtain ⟨d, hd⟩ := hsep.leaf L hL
      exact ⟨_, hold _ _ ((hcut _ _).2 (.inr ⟨L, hL, meet_mem_cut (hmeets L hL), d, hd, rfl⟩))⟩
    · exact ⟨_, if_pos hs⟩
  · intro L d x hL hx
    by_cases hmem : L ∈ Ls
    · obtain ⟨s, hs, hsx⟩ := ((tiles_cut L r).union x).1 hx
      exact ⟨s, _, hold _ _ ((hcut _ _).2 (.inr ⟨L, hmem, hs, d, hL, rfl⟩)), hsx, carried_eq_or ..⟩
    · exact ⟨L, d, hold _ _ ((hcut _ _).2 (.inl ⟨hmem, hL⟩)), hx, .inl rfl⟩
  · intro x hrx hnot s d hs hsx
    rcases hcases s d hs with ⟨-, hd⟩ | hs
    · exact hd
    · rcases (hcut s d).1 hs with ⟨-, hms⟩ | ⟨L, hL, hmem, e, hme, -⟩
      · exact absurd hsx (hnot s d hms)
      · exact absurd (contains_of_mem_cut hmem hsx) (hnot L e hme)

theorem CutInto.descends (hcut : CutInto copy m r Ls m')
    (hLs : ∀ s, s ∈ Ls ↔ (∃ d, m s = some d) ∧ s.Intersects r ∧ s ≠ r) (hr : m r = none) :
    Descends copy m (addAll m' (missing r Ls)) r where
  kept L d x hL hx := by
    by_cases hmem : L ∈ Ls
    · obtain ⟨s, hs, hsx⟩ := ((tiles_cut L r).union x).1 hx
      refine ⟨s, _, hcut.addAll_of_some hLs hr ((hcut _ _).2 (.inr ⟨L, hmem, hs, d, hL, rfl⟩)), hsx, ?_⟩
      rw [carried]
      split
      · next hsub => exact .inr ⟨rfl, ((hLs L).1 hmem).2.1, ((hLs L).1 hmem).2.2, hsub⟩
      · exact .inl rfl
    · exact ⟨L, d, hcut.addAll_of_some hLs hr ((hcut _ _).2 (.inl ⟨hmem, hL⟩)), hx, .inl rfl⟩
  origin s d hs := by
    rcases hcut.addAll_cases hLs hr hs with ⟨hf, hd⟩ | hs
    · refine .inl ⟨fun x hx => ?_, hd⟩
      exact (((tiles_missing fun L hL => ((hLs L).1 hL).2.1).union x).2 ⟨s, hf, hx⟩).1
    · rcases (hcut s d).1 hs with ⟨-, hms⟩ | ⟨L, -, hmem, e, hme, rfl⟩
      · exact .inr ⟨s, d, hms, fun _ hx => hx, .inl rfl⟩
      · exact .inr ⟨L, e, hme, fun _ hx => contains_of_mem_cut hmem hx, carried_eq_or ..⟩

/-! ## The call -/

/-- `findAndPopulate` without a bound on the partitioning levels returns, and what it leaves behind is what
it is for. A leaf of the region itself is returned instead of being placed in the output. -/
def Populates (wide : BitVec 64 → Option (BitVec 64)) (copy : T → T) (root : Node T)
    (m : FullRegion → Option T) (r : FullRegion) : Prop :=
  ∃ (root' : Node T) (m' : FullRegion → Option T) (whole : Option FullRegion) (output : List FullRegion),
    findAndPopulate wide copy root r.toRegion (-1) =
      some (root', whole.map toRegion, output.map toRegion) ∧
    WellShaped root' ∧ Holds root' m' ∧ Populated copy m m' r (whole.toList ++ output)

omit [Inhabited T] in
/-- The condition can be computed. -/
theorem lastBitsWhole_of (hfind : (findExactAndMatching root r.toRegion).map (fun p => p.2.map (·.region)) =
    some (Ls.map toRegion)) (h : (∀ L ∈ Ls, ¬ L.CutLast r) ∧ NoCutLast [r] (Ls.map (·.meet r))) :
    LastBitsWhole root r := by
  intro exact out Ls' hfind' hout
  rw [hfind', Option.map_some, Option.some.injEq, hout] at hfind
  rw [toRegion_injective.list_map hfind]
  exact ⟨h.1, fun _ => h.2⟩

/-- `findAndPopulate` where no string is cut at its last bit. -/
theorem exists_populated (wide : BitVec 64 → Option (BitVec 64)) (copy : T → T)
    (hroot : WellShaped root) (hm : Holds root m) (hapart : Apart m) (hwhole : LastBitsWhole root r) :
    ∃ (root' : Node T) (m' : FullRegion → Option T) (whole : Option FullRegion) (output : List FullRegion),
      findAndPopulate wide copy root r.toRegion (-1) =
        some (root', whole.map toRegion, output.map toRegion) ∧
      WellShaped root' ∧ Holds root' m' ∧ Populated copy m m' r (whole.toList ++ output) ∧
      Descends copy m m' r := by
  obtain ⟨exact, out, Ls, hfind, hout, hnodup, hLs, hnone, hregion⟩ := exists_matching hroot hm r
  obtain ⟨hcut, hcut'⟩ := hwhole exact out Ls hfind hout
  cases exact with
  | none =>
    have hr := hnone.1 rfl
    have hfresh : ∀ L ∈ Ls, L.toRegion ∉ ([] : List Region) := fun L _ => List.not_mem_nil
    have hone : Stand [⟨r.toRegion, 0⟩] [r] := rfl
    obtain ⟨root₁, m₁, hrun, hroot₁, h₁, hinto⟩ :=
      partition_spec copy wide hroot hm (hapart.separate hnodup hLs) hcut hfresh
    obtain ⟨parts, hparts, hstand⟩ := minus_eq wide hone (hcut' rfl)
    obtain ⟨root', hadd, hroot', h'⟩ := addMissing hroot₁ h₁ hstand
    refine ⟨root', _, none, Ls.map (·.meet r) ++ missing r Ls, ?_, hroot', h',
      hinto.populated hapart hnodup hLs hr, hinto.descends hLs hr⟩
    rw [findAndPopulate, hfind]
    simp only [Option.bind_eq_bind, Option.bind_some, hout, Option.isSome_none, hrun, List.nil_append,
      hparts, hadd]
    rw [show parts.map (·.region) = (missing r Ls).map toRegion from hstand, List.map_append]
    rfl
  | some it =>
    obtain ⟨d, hd⟩ := Option.ne_none_iff_exists'.1 (fun h => by cases hnone.2 h : m r ≠ none)
    -- no other leaf intersects the region
    have hnil : Ls = [] := by
      refine List.eq_nil_iff_forall_not_mem.2 fun s hs => ?_
      obtain ⟨⟨d', hd'⟩, hint, hne⟩ := (hLs s).1 hs
      exact hapart s r d' d hd' hd hne hint
    subst hnil
    refine ⟨root, m, some r, [], ?_, hroot, hm, ?_, .refl copy m r⟩
    · rw [findAndPopulate, hfind]
      simp [hout, partition, hregion it rfl]
    · refine ⟨hapart, fun s hs => ?_, ⟨List.pairwise_singleton _ _, fun x => by simp⟩,
        fun L d x hL hx => ⟨L, d, hL, hx, .inl rfl⟩, fun x hx hnot => absurd hx (hnot r d hd)⟩
      obtain rfl : s = r := by simpa using hs
      exact ⟨d, hd⟩

theorem populates_of_lastBitsWhole (wide : BitVec 64 → Option (BitVec 64)) (hroot : WellShaped root)
    (hm : Holds root m) (hapart : Apart m) (hwhole : LastBitsWhole root r) :
    Populates wide copy root m r := by
  obtain ⟨root', m', whole, output, hrun, hroot', hm', hpop, -⟩ :=
    exists_populated wide copy hroot hm hapart hwhole
  exact ⟨root', m', whole, output, hrun, hroot', hm', hpop⟩

/-- Where a shift by the width gives nothing, a cut at the last bit leaves no result. -/
theorem findAndPopulate_eq_none (hroot : WellShaped root) (hm : Holds root m) (hapart : Apart m)
    (hwhole : ¬ LastBitsWhole root r) :
    findAndPopulate (fun _ => none) copy root r.toRegion (-1) = none := by
  obtain ⟨exact, out, Ls, hfind, hout, hnodup, hLs, hnone, hregion⟩ := exists_matching hroot hm r
  have hbad : (∃ L ∈ Ls, L.CutLast r) ∨ exact = none ∧ ¬ NoCutLast [r] (Ls.map (·.meet r)) := by
    by_contra hgood
    refine hwhole fun exact' out' Ls' hfind' hout' => ?_
    obtain ⟨rfl, rfl⟩ := Prod.mk.inj (Option.some.inj (hfind.symm.trans hfind'))
    obtain rfl := toRegion_injective.list_map (hout.symm.trans hout')
    refine ⟨fun L hL hlast => hgood (.inl ⟨L, hL, hlast⟩), fun hex => ?_⟩
    by_contra hcut
    exact hgood (.inr ⟨hex, hcut⟩)
  cases exact with
  | none =>
    have hsep := hapart.separate hnodup hLs
    have hfresh : ∀ L ∈ Ls, L.toRegion ∉ ([] : List Region) := fun L _ => List.not_mem_nil
    have hone : Stand [⟨r.toRegion, 0⟩] [r] := rfl
    rw [findAndPopulate, hfind]
    simp only [Option.bind_eq_bind, Option.bind_some, hout, Option.isSome_none]
    by_cases hlast : ∃ L ∈ Ls, L.CutLast r
    · rw [partition_eq_none hroot hm hsep hlast hfresh]
      rfl
    · obtain ⟨root₁, m₁, hrun, -⟩ :=
        partition_spec copy (fun _ => none) hroot hm hsep (fun L hL h => hlast ⟨L, hL, h⟩) hfresh
      obtain ⟨-, hcut⟩ := hbad.resolve_left hlast
      rw [hrun]
      simp only [Option.bind_some, List.nil_append]
      rw [minus_eq_none hone hcut]
      rfl
  | some it =>
    obtain ⟨d, hd⟩ := Option.ne_none_iff_exists'.1 (fun h => by cases hnone.2 h : m r ≠ none)
    obtain ⟨L, hL, -⟩ := hbad.resolve_right (fun h => by cases h.1)
    obtain ⟨⟨d', hd'⟩, hint, hne⟩ := (hLs L).1 hL
    exact absurd hint (hapart L r d' d hd' hd hne)

/-- **`findAndPopulate` does what it is for, whatever a shift by 64 gives, if and only if no string is cut
for the first time at its last bit.** -/
theorem findAndPopulate_iff (hroot : WellShaped root) (hm : Holds root m) (hapart : Apart m) :
    (∀ wide, Populates wide copy root m r) ↔ LastBitsWhole root r := by
  constructor
  · intro h
    by_contra hwhole
    obtain ⟨root', m', whole, output, hrun, -⟩ := h fun _ => none
    rw [findAndPopulate_eq_none hroot hm hapart hwhole] at hrun
    cases hrun
  · intro hwhole wide
    exact populates_of_lastBitsWhole wide hroot hm hapart hwhole

end

/-- Two leaves of 16 bytes, one of them with data; the region is the second half of both. -/
theorem findAndPopulate_two_halves : ∃ es : List (TreeEvent Nat), ∃ root,
    es = [.add ⟨~~~15#64, 0x1000#64, by decide⟩ none, .write ⟨~~~15#64, 0x1000#64, by decide⟩ 7,
      .add ⟨~~~15#64, 0x1010#64, by decide⟩ none] ∧
    Lib.run treeStep emptyRoot es = some root ∧
    ∀ wide, Populates wide id root (contents es) ⟨~~~23#64, 0x1008#64, by decide⟩ := by
  have hcheck : ((Lib.run treeStep (emptyRoot : Node Nat) [.add ⟨~~~15#64, 0x1000#64, by decide⟩ none,
      .write ⟨~~~15#64, 0x1000#64, by decide⟩ 7, .add ⟨~~~15#64, 0x1010#64, by decide⟩ none]).bind
      fun root => (findExactAndMatching root (FullRegion.mk (~~~23#64) 0x1008#64 (by decide)).toRegion).map
        fun p => p.2.map (·.region)) =
      some ([⟨~~~15#64, 0x1010#64, by decide⟩, ⟨~~~15#64, 0x1000#64, by decide⟩].map toRegion) := by
    decide
  obtain ⟨root, hrun, hfind⟩ := Option.bind_eq_some_iff.1 hcheck
  obtain ⟨hroot, hm⟩ := WellShaped.run _ wellShaped_emptyRoot holds_emptyRoot hrun
  refine ⟨_, root, rfl, hrun, (findAndPopulate_iff hroot hm ?_).2 ?_⟩
  · intro s s' d d' hs hs' hne
    rw [intersects_iff_agree]
    simp only [List.foldl_cons, List.foldl_nil, containerStep] at hs hs'
    split_ifs at hs hs' <;> simp_all
    all_goals decide
  · exact lastBitsWhole_of hfind (by decide +kernel)

/-- A leaf of 2 bytes with data; the region is its first byte. On x86-64, where a word shifted by 64 stays as
it is, the leaf is replaced by parts around address 0x2000, and what covers its bytes is new. -/
theorem last_bit_lost : ∃ es : List (TreeEvent Nat), ∃ root,
    es = [.add ⟨~~~1#64, 0x1000#64, by decide⟩ none, .write ⟨~~~1#64, 0x1000#64, by decide⟩ 7] ∧
    Lib.run treeStep emptyRoot es = some root ∧ WellShaped root ∧ Holds root (contents es) ∧
    Apart (contents es) ∧ ¬ Populates some id root (contents es) ⟨~~~0#64, 0x1000#64, by decide⟩ := by
  have hcheck : ((Lib.run treeStep (emptyRoot : Node Nat) [.add ⟨~~~1#64, 0x1000#64, by decide⟩ none,
      .write ⟨~~~1#64, 0x1000#64, by decide⟩ 7]).bind fun root =>
        (findAndPopulate some id root (FullRegion.mk (~~~0#64) 0x1000#64 (by decide)).toRegion (-1)).map
          fun res => res.1.entries.all fun e => e.2 ≠ 7 ||
            !Node.agree e.1 (FullRegion.mk (~~~0#64) 0x1000#64 (by decide)).bits) = some true := by
    decide
  obtain ⟨root, hrun, hres⟩ := Option.bind_eq_some_iff.1 hcheck
  obtain ⟨hroot, hm⟩ := WellShaped.run _ wellShaped_emptyRoot holds_emptyRoot hrun
  refine ⟨_, root, rfl, hrun, hroot, hm, ?_, ?_⟩
  · intro s s' d d' hs hs' hne
    simp only [contents, List.foldl_cons, List.foldl_nil, containerStep] at hs hs'
    split_ifs at hs hs'
    simp_all
  · rintro ⟨root', m', whole, output, hpop, -, hm', hspec⟩
    obtain ⟨res, hres, hall⟩ := Option.map_eq_some_iff.1 hres
    obtain rfl := Option.some.inj (hpop.symm.trans hres)
    -- the leaf that holds the data for address 0x1000 would intersect the region
    obtain ⟨s, d', hs, hsx, hd'⟩ := hspec.kept ⟨~~~1#64, 0x1000#64, by decide⟩ 7 0x1000#64
      (by simp [contents, containerStep]) (show 0x1000#64 &&& ~~~1#64 = 0x1000#64 by decide)
    have hent := List.all_eq_true.1 hall (s.bits, d') (hm'.mem_iff.2 hs)
    have hagree : Node.agree s.bits (FullRegion.mk (~~~0#64) 0x1000#64 (by decide)).bits = true :=
      intersects_iff_agree.1 ⟨0x1000#64, hsx, show 0x1000#64 &&& ~~~0#64 = 0x1000#64 by decide⟩
    simp_all

end RegionTree

end OmpSs.Support
