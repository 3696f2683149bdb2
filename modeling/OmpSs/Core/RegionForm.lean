import OmpSs.Core.RegionDict
import OmpSs.Lib.Coverage
import OmpSs.Lib.MixedRadix

/-!
# Regions that form a region

`doTheseRegionsForm` (`nanox-mx/src/core/regiondict.hpp`) decides whether the regions of a set form the
target from their sizes: those that lie in the target have to add up to its size. A point that lies in
several of them is counted several times, so the answer is true as well where as many points are counted
again as are left out (`formed_iff`). Where no two of them overlap nothing is counted again, and a true answer means
that they cover the target (`formed_cover_of_disjoint`).
-/

namespace OmpSs.Core

open Lib

namespace RegionDictionary

/-! ## The program -/

/-- Source: `global_reg_t::getDataSize` (`globalregt.cpp:94`). -/
def dataSize (box : List Span) : Nat := (box.map (·.accessedLength)).prod

/-- The variables of the loop, and the dictionary. -/
structure Form where
  totalSize : Nat
  maxVersion : Nat
  dict : RegionDictionary

/-- One region of the set, given with its version. Source: the body of the loop (`regiondict.hpp:1027`). -/
def formStep (target : Nat) (s : Form) (entry : Nat × Nat) : Option Form :=
  if entry.1 ≠ target then
    (s.dict.checkIntersect target entry.1).bind fun r =>
      if r.1 then
        (r.2.computeIntersect target entry.1).bind fun intersect =>
          if entry.1 = intersect.1 then
            (intersect.2.getRegionNode entry.1).map fun greg =>
              ⟨s.totalSize + dataSize greg.box, max s.maxVersion entry.2, intersect.2⟩
          else some { s with dict := intersect.2 }
      else some { s with dict := r.2 }
  else some s

/-- The answer, the version and the dictionary. Source: `RegionDictionary::doTheseRegionsForm` of a map
(`regiondict.hpp:1022`). -/
def doTheseRegionsForm (d : RegionDictionary) (target : Nat) (regions : List (Nat × Nat)) :
    Option (Bool × Nat × RegionDictionary) :=
  (regions.foldlM (formStep target) ⟨0, 0, d⟩).bind fun s =>
    (s.dict.getRegionNode target).map fun gtarget =>
      (s.totalSize == dataSize gtarget.box,
        if s.totalSize = dataSize gtarget.box then s.maxVersion else 0, s.dict)

/-! ## The points of a box -/

instance (s : Span) (x : Nat) : Decidable (s.Mem x) := inferInstanceAs (Decidable (_ ∧ _))

instance (A : List Span) (x : List Nat) : Decidable (InBox Span.Mem A x) :=
  inferInstanceAs (Decidable (List.Forall₂ _ _ _))

/-- All points of a box. -/
def points (A : List Span) : List (List Nat) :=
  boxes (A.map fun s => List.range' s.lowerBound s.accessedLength)

variable {n : Nat} {d d' : RegionDictionary} {A B : List Span} {a b id target : Nat}

theorem mem_points {x : List Nat} : x ∈ points A ↔ InBox Span.Mem A x := by
  rw [points, mem_boxes_iff, InBox, List.forall₂_map_right_iff]
  constructor
  · exact fun h => (h.imp fun c s hc => by simpa [Span.Mem, flip] using hc).flip
  · exact fun h => h.flip.imp fun c s hc => by simpa [Span.Mem, flip] using hc

theorem nodup_points (A : List Span) : (points A).Nodup := by
  refine nodup_boxes fun l hl => ?_
  obtain ⟨s, -, rfl⟩ := List.mem_map.1 hl
  exact List.nodup_range'

theorem length_points (A : List Span) : (points A).length = dataSize A := by
  rw [points, length_boxes, List.map_map]
  simp [dataSize, Function.comp_def]

/-- The size of a box is the number of its points among those of any box around it. -/
theorem dataSize_eq_countP (h : ∀ x, InBox Span.Mem B x → InBox Span.Mem A x) :
    dataSize B = (points A).countP fun x => InBox Span.Mem B x := by
  rw [← length_points, List.countP_eq_length_filter]
  refine ((List.perm_ext_iff_of_nodup (nodup_points B) ((nodup_points A).filter _)).2 fun x => ?_).length_eq
  rw [List.mem_filter, mem_points, mem_points, decide_eq_true_iff]
  exact ⟨fun hx => ⟨h x hx, hx⟩, And.right⟩

/-! ## The loop -/

theorem HasBox.inj (hv : Valid n d) (ha : d.HasBox a A) (hb : d.HasBox b A) : a = b := by
  have hlen := (hv.proper a A ha).1
  have h := (hv.numbered A hlen a).2 ha
  rw [(hv.numbered A hlen b).2 hb] at h
  exact (Option.some.inj h).symm

/-- A box is its own intersection with the target's where it lies in the target. -/
theorem interBox_eq_iff (hlen : A.length = B.length) (hB : Proper B) :
    interBox A B = B ↔ ∀ x, InBox Span.Mem B x → InBox Span.Mem A x := by
  constructor
  · intro heq x hx
    rw [← heq] at hx
    exact ((inBox_interBox hlen).1 hx).1
  · intro hsub
    have hne : ∀ s ∈ B, ∃ x, s.Mem x := fun s hs => ⟨s.lowerBound, le_rfl, Nat.lt_add_of_pos_right (hB s hs)⟩
    have hspans := (inBox_subset_iff hlen.symm hne).1 hsub
    clear hsub hne
    induction hspans with
    | nil => rfl
    | @cons b a B A hba _ ih =>
      obtain ⟨hb, hB'⟩ := List.forall_mem_cons.1 hB
      have hlow := hba b.lowerBound ⟨le_rfl, Nat.lt_add_of_pos_right hb⟩
      have hhigh := hba (b.lowerBound + b.accessedLength - 1) ⟨by omega, by omega⟩
      rw [interBox, List.zipWith_cons_cons, ← interBox, ih (Nat.succ.inj hlen) hB']
      congr 1
      simp only [Span.Mem] at hlow hhigh
      obtain ⟨lower, length⟩ := b
      simp only [Span.inter, Span.mk.injEq] at hlow hhigh hb ⊢
      omega

/-- One region is counted where it lies in the target and is not the target. -/
theorem formStep_spec {s : Form} {entry : Nat × Nat} (hv : Valid n s.dict) (hn : 0 < n)
    (ht : s.dict.HasBox target A) (he : s.dict.HasBox entry.1 B) :
    ∃ s', formStep target s entry = some s' ∧ Valid n s'.dict ∧ s.dict.Keeps s'.dict ∧
      s'.totalSize = s.totalSize + if entry.1 ≠ target ∧ interBox A B = B then dataSize B else 0 := by
  rw [formStep]
  split
  · next hne =>
    obtain ⟨meets, d₁, hcheck, hmeets, hv₁, hkeeps₁⟩ := checkIntersect_spec hv ht he hne.symm
    rw [hcheck, Option.bind_some]
    have hlen : A.length = B.length := (hv.proper _ A ht).1.trans (hv.proper _ B he).1.symm
    cases meets with
    | false =>
      have hout : ¬ interBox A B = B := by
        intro heq
        have hsub := (interBox_eq_iff hlen (hv.proper _ B he).2).1 heq
        obtain ⟨x, hx⟩ : ∃ x, InBox Span.Mem B x := exists_inBox fun s hs =>
          ⟨s.lowerBound, le_rfl, Nat.lt_add_of_pos_right ((hv.proper _ B he).2 s hs)⟩
        exact Bool.false_ne_true (hmeets.2 ⟨x, hsub x hx, hx⟩)
      exact ⟨_, rfl, hv₁, hkeeps₁, by simp [hout]⟩
    | true =>
      obtain ⟨r, d₂, hcompute, hadd⟩ := computeIntersect_meet hv₁ hn (hkeeps₁ _ A ht) (hkeeps₁ _ B he)
        hne.symm (hmeets.1 rfl)
      have hkeeps : s.dict.Keeps d₂ := fun id box h => hadd.keeps id box (hkeeps₁ id box h)
      rw [if_pos rfl, hcompute, Option.bind_some]
      split
      · next hr =>
        have hbox := hadd.hasBox
        rw [← hr] at hbox
        have heq := hbox.unique (hkeeps _ B he)
        obtain ⟨leaf, hleaf, rfl⟩ := hkeeps _ B he
        rw [hleaf, Option.map_some]
        exact ⟨_, rfl, hadd.valid, hkeeps, by simp [hne, heq]⟩
      · next hr =>
        have hout : ¬ interBox A B = B := by
          intro heq
          have hbox := hadd.hasBox
          rw [heq] at hbox
          exact hr (HasBox.inj hadd.valid (hkeeps _ B he) hbox)
        exact ⟨_, rfl, hadd.valid, hkeeps, by simp [hout]⟩
  · next heq =>
    exact ⟨s, rfl, hv, fun _ _ h => h, by simp [heq]⟩

/-- The boxes of the regions that are counted for a target of the box `A`. -/
def inside (box : Nat → List Span) (target : Nat) (A : List Span) (regions : List (Nat × Nat)) :
    List (List Span) :=
  ((regions.filter fun e => e.1 ≠ target).map fun e => box e.1).filter fun B => interBox A B = B

theorem inside_cons {box : Nat → List Span} {entry : Nat × Nat} {regions : List (Nat × Nat)} :
    ((inside box target A (entry :: regions)).map dataSize).sum =
      (if entry.1 ≠ target ∧ interBox A (box entry.1) = box entry.1 then dataSize (box entry.1) else 0) +
        ((inside box target A regions).map dataSize).sum := by
  by_cases hne : entry.1 ≠ target <;> by_cases hin : interBox A (box entry.1) = box entry.1 <;>
    simp_all [inside]

theorem foldlM_formStep {box : Nat → List Span} {regions : List (Nat × Nat)} {s : Form} (hn : 0 < n)
    (hv : Valid n s.dict) (ht : s.dict.HasBox target A)
    (hregs : ∀ e ∈ regions, s.dict.HasBox e.1 (box e.1)) :
    ∃ s', regions.foldlM (formStep target) s = some s' ∧ Valid n s'.dict ∧ s.dict.Keeps s'.dict ∧
      s'.totalSize = s.totalSize + ((inside box target A regions).map dataSize).sum := by
  induction regions generalizing s with
  | nil => exact ⟨s, rfl, hv, fun _ _ h => h, by simp [inside]⟩
  | cons entry regions ih =>
    obtain ⟨s₁, hstep, hv₁, hkeeps₁, htotal₁⟩ := formStep_spec hv hn ht (hregs entry (by simp))
    obtain ⟨s', hrun, hv', hkeeps', htotal'⟩ := ih hv₁ (hkeeps₁ _ A ht)
      fun e he => hkeeps₁ _ _ (hregs e (by simp [he]))
    refine ⟨s', ?_, hv', fun id box h => hkeeps' id box (hkeeps₁ id box h), ?_⟩
    · rw [List.foldlM_cons, hstep]
      exact hrun
    · rw [htotal', htotal₁, inside_cons]
      omega

/-! ## The answer -/

/-- The box of a region. -/
def boxOf (d : RegionDictionary) (id : Nat) : List Span := (d.getRegionNode id).elim [] Leaf.box

theorem HasBox.boxOf (h : d.HasBox id A) : d.boxOf id = A := by
  obtain ⟨leaf, hleaf, rfl⟩ := h
  rw [RegionDictionary.boxOf, hleaf]
  rfl

/-- The counted boxes are those of the regions of the set, but for the target, that lie in the target. -/
theorem mem_inside {regions : List (Nat × Nat)} (hv : Valid n d) (ht : d.HasBox target A)
    (hregs : ∀ e ∈ regions, ∃ B, d.HasBox e.1 B) :
    B ∈ inside d.boxOf target A regions ↔
      ∃ e ∈ regions, e.1 ≠ target ∧ d.HasBox e.1 B ∧ ∀ x, InBox Span.Mem B x → InBox Span.Mem A x := by
  simp only [inside, List.mem_filter, List.mem_map, decide_eq_true_eq, ne_eq]
  constructor
  · rintro ⟨⟨e, ⟨he, hne⟩, rfl⟩, heq⟩
    obtain ⟨C, hC⟩ := hregs e he
    rw [hC.boxOf] at heq ⊢
    obtain ⟨hlen, hp⟩ := hv.proper _ C hC
    exact ⟨e, he, hne, hC, (interBox_eq_iff ((hv.proper _ A ht).1.trans hlen.symm) hp).1 heq⟩
  · rintro ⟨e, he, hne, hB, hsub⟩
    obtain ⟨hlen, hp⟩ := hv.proper _ B hB
    exact ⟨⟨e, ⟨he, hne⟩, hB.boxOf⟩, (interBox_eq_iff ((hv.proper _ A ht).1.trans hlen.symm) hp).2 hsub⟩

/-- The answer is true exactly where as many points of the target are counted again as are left out. -/
theorem formed_iff {regions : List (Nat × Nat)} (hn : 0 < n) (hv : Valid n d) (ht : d.HasBox target A)
    (hregs : ∀ e ∈ regions, ∃ B, d.HasBox e.1 B) :
    ∃ formed version d', d.doTheseRegionsForm target regions = some (formed, version, d') ∧
      (formed = true ↔ countedAgain (InBox Span.Mem) (inside d.boxOf target A regions) (points A) =
        leftOut (InBox Span.Mem) (inside d.boxOf target A regions) (points A)) := by
  obtain ⟨s, hrun, -, hkeeps, htotal⟩ := foldlM_formStep (s := ⟨0, 0, d⟩) hn hv ht
    fun e he => by
      obtain ⟨B, hB⟩ := hregs e he
      exact (hB.boxOf.symm ▸ hB : d.HasBox e.1 (d.boxOf e.1))
  have hsizes : (inside d.boxOf target A regions).map dataSize =
      (inside d.boxOf target A regions).map fun B => (points A).countP fun x => InBox Span.Mem B x := by
    refine List.map_congr_left fun B hB => dataSize_eq_countP ?_
    obtain ⟨_, _, _, _, hsub⟩ := (mem_inside hv ht hregs).1 hB
    exact hsub
  obtain ⟨leaf, hleaf, rfl⟩ := hkeeps _ A ht
  refine ⟨_, _, _, by rw [doTheseRegionsForm, hrun, Option.bind_some, hleaf, Option.map_some], ?_⟩
  rw [beq_iff_eq, htotal, Nat.zero_add, hsizes, ← length_points, sum_size_eq_length_iff]

/-- The regions of the set cover the target. -/
def Covered (d : RegionDictionary) (A : List Span) (regions : List (Nat × Nat)) : Prop :=
  ∀ x, InBox Span.Mem A x → ∃ e ∈ regions, ∃ B, d.HasBox e.1 B ∧ InBox Span.Mem B x

/-- **Where no two of the given regions inside the target overlap, a true answer means that the regions cover
the target.** -/
theorem formed_cover_of_disjoint {sizes : List Nat} (hsizes : sizes ≠ []) (hpos : ∀ size ∈ sizes, 0 < size)
    (h : Reach step (Call.Ok sizes.length) (new sizes) d) (ht : d.HasBox target A)
    {regions : List (Nat × Nat)} (hregs : ∀ e ∈ regions, ∃ B, d.HasBox e.1 B)
    (hdisj : (inside d.boxOf target A regions).Pairwise fun B C => ¬ Meet B C) {version : Nat}
    (hformed : d.doTheseRegionsForm target regions = some (true, version, d')) : d.Covered A regions := by
  have hv := reach_valid hsizes hpos h
  obtain ⟨formed, version', d'', hrun, hiff⟩ := formed_iff (List.length_pos_of_ne_nil hsizes) hv ht hregs
  rw [hformed] at hrun
  cases hrun
  -- nothing is counted again, so nothing is left out
  have hagain : countedAgain (InBox Span.Mem) (inside d.boxOf target A regions) (points A) = 0 :=
    countedAgain_eq_zero (hdisj.imp fun hBC x hx hx' => hBC ⟨x, hx, hx'⟩)
  have hleft := (hiff.1 rfl).symm.trans hagain
  rw [leftOut, List.countP_eq_zero] at hleft
  intro x hx
  have hmult := hleft x (mem_points.2 hx)
  rw [decide_eq_true_iff, timesCovered_eq_zero] at hmult
  push Not at hmult
  obtain ⟨B, hB, hxB⟩ := hmult
  obtain ⟨e, he, -, hbox, -⟩ := (mem_inside hv ht hregs).1 hB
  exact ⟨e, he, B, hbox, hxB⟩

/-- The first half of a row and the second form it. -/
theorem formed_cover_halves :
    ∃ (d : RegionDictionary) (version : Nat) (d' : RegionDictionary),
      d.doTheseRegionsForm 1 [(2, 5), (3, 5)] = some (true, version, d') ∧
      d.Covered [⟨0, 4⟩] [(2, 5), (3, 5)] := by
  obtain ⟨d, hreach, hp⟩ := exists_reach_of_guarded_run step (Call.Ok 1) (new [4])
    [.addRegion [⟨0, 2⟩], .addRegion [⟨2, 2⟩]]
    (fun d => decide ((d.getRegionNode 1).map Leaf.box = some [⟨0, 4⟩] ∧
      (d.getRegionNode 2).map Leaf.box = some [⟨0, 2⟩] ∧ (d.getRegionNode 3).map Leaf.box = some [⟨2, 2⟩] ∧
      (inside d.boxOf 1 [⟨0, 4⟩] [(2, 5), (3, 5)]).Pairwise (fun B C => ¬ Meet B C) ∧
      (d.doTheseRegionsForm 1 [(2, 5), (3, 5)]).map (·.1) = some true)) (by decide)
  obtain ⟨h1, h2, h3, hdisj, hformed⟩ := of_decide_eq_true hp
  obtain ⟨⟨formed, version, d'⟩, hrun, rfl⟩ := Option.map_eq_some_iff.1 hformed
  have hbox : ∀ {id B}, (d.getRegionNode id).map Leaf.box = some B → d.HasBox id B :=
    fun h => Option.map_eq_some_iff.1 h
  exact ⟨d, version, d', hrun, @formed_cover_of_disjoint _ _ _ _ [4] (by decide) (by decide) hreach (hbox h1) _
    (by simpa using ⟨⟨_, hbox h2⟩, ⟨_, hbox h3⟩⟩) hdisj _ hrun⟩

/-- Two overlapping regions of two elements each have the size of a row of four, of which they leave out the
last. -/
theorem formed_overlap :
    ∃ d, Reach step (Call.Ok 1) (new [4]) d ∧ d.HasBox 1 [⟨0, 4⟩] ∧
      (∀ e ∈ [(2, 5), (3, 5)], ∃ B, d.HasBox e.1 B) ∧
      ¬ ∀ version d', d.doTheseRegionsForm 1 [(2, 5), (3, 5)] = some (true, version, d') →
        d.Covered [⟨0, 4⟩] [(2, 5), (3, 5)] := by
  obtain ⟨d, hreach, hp⟩ := exists_reach_of_guarded_run step (Call.Ok 1) (new [4])
    [.addRegion [⟨0, 2⟩], .addRegion [⟨1, 2⟩]]
    (fun d => decide ((d.getRegionNode 1).map Leaf.box = some [⟨0, 4⟩] ∧
      (d.getRegionNode 2).map Leaf.box = some [⟨0, 2⟩] ∧ (d.getRegionNode 3).map Leaf.box = some [⟨1, 2⟩] ∧
      (d.doTheseRegionsForm 1 [(2, 5), (3, 5)]).map (·.1) = some true)) (by decide)
  obtain ⟨h1, h2, h3, hformed⟩ := of_decide_eq_true hp
  have hbox : ∀ {id B}, (d.getRegionNode id).map Leaf.box = some B → d.HasBox id B :=
    fun h => Option.map_eq_some_iff.1 h
  refine ⟨d, hreach, hbox h1, by simpa using ⟨⟨_, hbox h2⟩, ⟨_, hbox h3⟩⟩, fun hcover => ?_⟩
  obtain ⟨⟨formed, version, d'⟩, hrun, rfl⟩ := Option.map_eq_some_iff.1 hformed
  obtain ⟨e, he, B, hB, hx⟩ := hcover version d' hrun [3] (by simp [InBox, Span.Mem])
  rcases List.mem_pair.1 he with rfl | rfl
  · rw [hB.unique (hbox h2)] at hx
    simp [InBox, Span.Mem] at hx
  · rw [hB.unique (hbox h3)] at hx
    simp [InBox, Span.Mem] at hx

end RegionDictionary

end OmpSs.Core
