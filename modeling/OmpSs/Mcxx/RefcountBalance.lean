import OmpSs.Mcxx.RefcountCollect

/-!
# The balance of the reference counts

Between the steps of a run the count of an object is the number of references to it: those of the program,
those of the fields of live objects, and those of the fields that the releases under way have not come to
(`Sound`). A collection keeps this, and then frees what no reference leads to, as long as no object under
release is in the buffer of roots: such an object would be marked, and its fields counted a second time.
-/

namespace OmpSs.Mcxx

open Relation

namespace Refcount

section
variable {s s' : Refcount} {e e' : Nat → Nat} {fs : List Nat} {p x y : Nat}

/-! ## The balance -/

/-- The objects in use. -/
def live (s : Refcount) : Finset Nat :=
  (Finset.range s.size).filter fun x => s.allocated x = true ∧ 0 < (s.obj x).count

/-- References lead to the object from outside, where `e` counts the references to each object. -/
def Reach (s : Refcount) (e : Nat → Nat) (x : Nat) : Prop := ∃ q, 0 < e q ∧ ReflTransGen s.Points q x

/-- The counts are right, where `e` counts the references from outside and `fs` are the objects under
release. -/
structure Sound (s : Refcount) (e : Nat → Nat) (fs : List Nat) : Prop where
  plain : ∀ x, (s.obj x).colour = .black ∨ (s.obj x).colour = .purple
  sized : ∀ x, s.allocated x = true → x < s.size
  nodup : s.roots.Nodup
  roots : ∀ x ∈ s.roots, s.allocated x = true
  buffered : ∀ x, (s.obj x).buffered = true ↔ x ∈ s.roots
  purple : ∀ x, (s.obj x).colour = .purple → x ∈ s.roots
  freeSet : s.freeSet = []
  count : ∀ x, s.allocated x = true → (s.obj x).count = e x + s.into s.live x
  dangling : ∀ x, s.allocated x = false → e x + s.into s.live x = 0
  releasing : ∀ p ∈ fs, s.allocated p = true ∧ (s.obj p).count = 0
  distinct : fs.Nodup
  dead : ∀ x, s.allocated x = true → (s.obj x).count = 0 →
    x ∈ fs ∨ x ∈ s.roots ∧ (s.obj x).colour = .black
  /-- What no reference leads to, a possible root in use does. -/
  led : ∀ x ∈ s.live, s.Reach e x ∨ ∃ q ∈ s.live, (s.obj q).colour = .purple ∧ ReflTransGen s.Points q x

theorem Reach.tail (h : s.Reach e x) (hxy : s.Points x y) : s.Reach e y := by
  obtain ⟨q, hq, hqx⟩ := h
  exact ⟨q, hq, hqx.tail hxy⟩

theorem mem_live (h : Sound s e fs) : x ∈ s.live ↔ s.allocated x = true ∧ 0 < (s.obj x).count := by
  rw [live, Finset.mem_filter, Finset.mem_range]
  exact ⟨And.right, fun hx => ⟨h.sized x hx.1, hx⟩⟩

/-- An object with a reference is in use. -/
theorem Sound.mem_live_of_pos (h : Sound s e fs) (hx : 0 < e x + s.into s.live x) : x ∈ s.live := by
  have halloc : s.allocated x = true := by
    by_contra hno
    have := h.dangling x (Bool.eq_false_of_not_eq_true hno)
    omega
  refine (mem_live h).2 ⟨halloc, ?_⟩
  rw [h.count x halloc]
  omega

theorem Sound.live_of_points (h : Sound s e fs) (hx : x ∈ s.live) (hxy : s.Points x y) : y ∈ s.live := by
  have := into_pos_iff.2 ⟨x, hx, hxy⟩
  exact h.mem_live_of_pos (by omega)

theorem Sound.live_of_path (h : Sound s e fs) (hx : x ∈ s.live) (hxy : ReflTransGen s.Points x y) :
    y ∈ s.live := by
  induction hxy with
  | refl => exact hx
  | tail _ hyz ih => exact h.live_of_points ih hyz

theorem Sound.live_of_reach (h : Sound s e fs) (hx : s.Reach e x) : x ∈ s.live := by
  obtain ⟨q, hq, hqx⟩ := hx
  exact h.live_of_path (h.mem_live_of_pos (by omega)) hqx

/-! ## A collection -/

section Collection
variable (h : Sound s e fs) (hfree : ∀ p ∈ fs, (s.obj p).buffered = false)
include h hfree

/-- What a possible root leads to is in use, if no object under release is in the buffer of roots. -/
theorem Sound.live_of_suspect (hx : s.Suspect x) : x ∈ s.live := by
  obtain ⟨r, hr, hrx⟩ := hx
  have hroot := h.purple r hr
  have halloc := h.roots r hroot
  refine h.live_of_path ((mem_live h).2 ⟨halloc, ?_⟩) hrx
  by_contra hno
  have hzero : (s.obj r).count = 0 := by
    have := h.count r halloc
    omega
  rcases h.dead r halloc hzero with hmem | ⟨-, hb⟩
  · have hb := hfree r hmem
    rw [(h.buffered r).2 hroot] at hb
    cases hb
  · rw [hr] at hb
    cases hb

theorem Sound.ready : Ready s :=
  { h with
    suspect := fun _ hx => ((mem_live h).1 (h.live_of_suspect hfree hx)).1
    dead := fun _ _ hzero _ hx => by
      have := ((mem_live h).1 (h.live_of_suspect hfree hx)).2
      omega }

theorem Sound.suspects_subset : s.suspects ⊆ s.live := fun _ hx =>
  h.live_of_suspect hfree ((mem_suspects (h.ready hfree)).1 hx)

/-- The suspects that have references from elsewhere have them from outside, or from an object in use that
is no suspect. -/
theorem Sound.held_iff (hx : s.Suspect x) :
    (s.into s.suspects x : Int) < (s.obj x).count ↔
      0 < e x ∨ ∃ y ∈ s.live, ¬ s.Suspect y ∧ s.Points y x := by
  have hcount := h.count x ((mem_live h).1 (h.live_of_suspect hfree hx)).1
  have hsplit := into_sdiff (s := s) (x := x) (h.suspects_subset hfree)
  have hpos : 0 < s.into (s.live \ s.suspects) x ↔ ∃ y ∈ s.live, ¬ s.Suspect y ∧ s.Points y x := by
    rw [into_pos_iff]
    refine exists_congr fun y => ?_
    rw [Finset.mem_sdiff, mem_suspects (h.ready hfree), and_assoc]
  rw [← hpos]
  omega

/-- A suspect is held just when references lead to it from outside. -/
theorem Sound.held_iff_reach (hx : s.Suspect x) : s.Held x ↔ s.Reach e x := by
  constructor
  · rintro ⟨z, hz, hlt, hzx⟩
    rcases (h.held_iff hfree hz).1 hlt with hpos | ⟨y, hy, hys, hyz⟩
    · exact ⟨z, hpos, hzx⟩
    · rcases h.led y hy with ⟨q, hq, hqy⟩ | ⟨q, -, hq, hqy⟩
      · exact ⟨q, hq, (hqy.tail hyz).trans hzx⟩
      · exact absurd ⟨q, hq, hqy⟩ hys
  · -- The path enters the suspects at an object that is held.
    rintro ⟨q, hq, hqx⟩
    have hpath : x ∈ s.live ∧ (s.Suspect x → s.Held x) := by
      clear hx
      induction hqx with
      | refl =>
        exact ⟨h.mem_live_of_pos (by omega), fun hs => ⟨q, hs, (h.held_iff hfree hs).2 (.inl hq), .refl⟩⟩
      | @tail y z _ hyz ih =>
        refine ⟨h.live_of_points ih.1 hyz, fun hs => ?_⟩
        by_cases hy : s.Suspect y
        · exact (ih.2 hy).tail hyz
        · exact ⟨z, hs, (h.held_iff hfree hs).2 (.inr ⟨y, ih.1, hy, hyz⟩), .refl⟩
    exact hpath.2 hx

/-- The garbage of a collection is what is in use and what no reference leads to from outside. -/
theorem Sound.mem_garbage_iff : x ∈ s.garbage ↔ x ∈ s.live ∧ ¬ s.Reach e x := by
  rw [mem_garbage (h.ready hfree)]
  constructor
  · rintro ⟨hx, hheld⟩
    exact ⟨h.live_of_suspect hfree hx, fun hr => hheld ((h.held_iff_reach hfree hx).2 hr)⟩
  · rintro ⟨hx, hno⟩
    obtain ⟨q, -, hq, hqx⟩ := (h.led x hx).resolve_left hno
    have hs : s.Suspect x := ⟨q, hq, hqx⟩
    exact ⟨hs, fun hheld => hno ((h.held_iff_reach hfree hs).1 hheld)⟩

theorem Sound.mem_live_sdiff_garbage : x ∈ s.live \ s.garbage ↔ s.Reach e x := by
  rw [Finset.mem_sdiff, h.mem_garbage_iff hfree]
  constructor
  · rintro ⟨hx, hno⟩
    exact not_not.1 fun hr => hno ⟨hx, hr⟩
  · exact fun hx => ⟨h.live_of_reach hx, fun hno => hno.2 hx⟩

variable (hc : Collected s s')
include hc

/-- What is left of the count of an object. -/
theorem Sound.count_collected (hx : s.allocated x = true) :
    (s'.obj x).count = e x + s.into (s.live \ s.garbage) x := by
  have hsub : s.garbage ⊆ s.live := fun y hy => ((h.mem_garbage_iff hfree).1 hy).1
  rw [hc.count, h.count x hx, into_sdiff hsub]
  omega

theorem Sound.allocated_collected :
    s'.allocated x = true ↔ s.Reach e x ∨ s.allocated x = true ∧ x ∈ fs := by
  rw [hc.allocated, ← mem_garbage (h.ready hfree), h.mem_garbage_iff hfree]
  constructor
  · rintro ⟨halloc, hno, hdead⟩
    by_cases hlive : x ∈ s.live
    · exact .inl (not_not.1 fun hr => hno ⟨hlive, hr⟩)
    · have hzero : (s.obj x).count = 0 := by
        have hcount := h.count x halloc
        have hle : ¬ 0 < (s.obj x).count := fun hpos => hlive ((mem_live h).2 ⟨halloc, hpos⟩)
        omega
      refine .inr ⟨halloc, (h.dead x halloc hzero).resolve_right fun hroot => ?_⟩
      exact hdead ⟨hroot.1, hroot.2, hzero⟩
  · rintro (hr | ⟨halloc, hmem⟩)
    · obtain ⟨halloc, hpos⟩ := (mem_live h).1 (h.live_of_reach hr)
      exact ⟨halloc, fun hno => hno.2 hr, fun hdead => by omega⟩
    · have hzero := (h.releasing x hmem).2
      refine ⟨halloc, fun hno => ?_, fun hdead => ?_⟩
      · have := ((mem_live h).1 hno.1).2
        omega
      · have hb := hfree x hmem
        rw [(h.buffered x).2 hdead.1] at hb
        cases hb

theorem Sound.live_collected : s'.live = s.live \ s.garbage := by
  ext x
  rw [live, Finset.mem_filter, Finset.mem_range, h.allocated_collected hfree hc, h.mem_live_sdiff_garbage hfree]
  constructor
  · rintro ⟨-, hr | ⟨halloc, hmem⟩, hpos⟩
    · exact hr
    · -- Nothing refers to an object under release.
      rw [h.count_collected hfree hc halloc] at hpos
      have hle := into_mono (s := s) (x := x) (Finset.sdiff_subset : s.live \ s.garbage ⊆ s.live)
      have hcount := h.count x halloc
      have hzero := (h.releasing x hmem).2
      omega
  · intro hr
    have halloc := ((mem_live h).1 (h.live_of_reach hr)).1
    refine ⟨hc.size ▸ h.sized x halloc, .inl hr, ?_⟩
    rw [h.count_collected hfree hc halloc]
    obtain ⟨q, hq, hqx⟩ := hr
    rcases ReflTransGen.cases_tail hqx with rfl | ⟨y, hqy, hyx⟩
    · omega
    · have := into_pos_iff.2 ⟨y, (h.mem_live_sdiff_garbage hfree).2 ⟨q, hq, hqy⟩, hyx⟩
      omega

/-- **A collection keeps the balance, and frees what no reference leads to from outside.** -/
theorem Sound.collected : Sound s' e fs ∧ ∀ x, s'.allocated x = true → x ∈ fs ∨ s'.Reach e x := by
  have hpoints : s'.Points = s.Points := funext fun y => funext fun x => by rw [Points, Points, hc.fields]
  have hinto : ∀ S x, s'.into S x = s.into S x := fun S x =>
    Finset.sum_congr rfl fun y _ => by rw [edges, edges, hc.fields]
  have hreach : ∀ x, s'.Reach e x ↔ s.Reach e x := fun x => by rw [Reach, Reach, hpoints]
  have hlive := h.live_collected hfree hc
  refine ⟨⟨fun x => .inl (hc.colour x), fun x hx => ?_, by rw [hc.roots]; exact List.nodup_nil,
    fun x hx => ?_, fun x => ?_, fun x hx => ?_, hc.freeSet, fun x hx => ?_, fun x hx => ?_, fun p hp => ?_,
    h.distinct, fun x hx hzero => ?_, fun x hx => ?_⟩, fun x hx => ?_⟩
  · rw [hc.size]
    exact h.sized x ((hc.allocated x).1 hx).1
  · rw [hc.roots] at hx
    cases hx
  · rw [hc.buffered, hc.roots]
    simp
  · rw [hc.colour] at hx
    cases hx
  · rw [hinto, hlive]
    exact h.count_collected hfree hc ((hc.allocated x).1 hx).1
  · -- Nothing refers to an object that is not allocated.
    rw [hinto, hlive]
    have hno : ¬ (s.Reach e x ∨ s.allocated x = true ∧ x ∈ fs) := fun hr => by
      rw [← h.allocated_collected hfree hc, hx] at hr
      cases hr
    by_contra hne
    refine hno (.inl ?_)
    rcases Nat.eq_zero_or_pos (e x) with hzero | hpos
    · obtain ⟨y, hy, hyx⟩ := into_pos_iff.1 (show 0 < s.into (s.live \ s.garbage) x by omega)
      exact ((h.mem_live_sdiff_garbage hfree).1 hy).tail hyx
    · exact ⟨x, hpos, .refl⟩
  · obtain ⟨halloc, hzero⟩ := h.releasing p hp
    refine ⟨(h.allocated_collected hfree hc).2 (.inr ⟨halloc, hp⟩), ?_⟩
    rw [h.count_collected hfree hc halloc]
    have hle := into_mono (s := s) (x := p) (Finset.sdiff_subset : s.live \ s.garbage ⊆ s.live)
    have hcount := h.count p halloc
    omega
  · rcases (h.allocated_collected hfree hc).1 hx with hr | ⟨-, hmem⟩
    · have hmem := (h.mem_live_sdiff_garbage hfree).2 hr
      rw [← hlive, live, Finset.mem_filter] at hmem
      omega
    · exact .inl hmem
  · rw [hlive, h.mem_live_sdiff_garbage hfree] at hx
    exact .inl ((hreach x).2 hx)
  · rcases (h.allocated_collected hfree hc).1 hx with hr | ⟨-, hmem⟩
    · exact .inr ((hreach x).2 hr)
    · exact .inl hmem

end Collection

/-! ## The steps -/

/-- A path from a root `q` that the property `P` is passed along, from all objects but `p` by the fields, and
from `p` to what its fields point to. -/
theorem path_cases {P : Nat → Prop} {q : Nat} (hqx : ReflTransGen s.Points q x) (hq : q ≠ p → P q)
    (hstep : ∀ y z, y ≠ p → P y → s.Points y z → P z) (hp : ∀ z, s.Points p z → P z) (hx : x ≠ p) : P x := by
  induction hqx with
  | refl => exact hq hx
  | @tail y z _ hyz ih =>
    by_cases hy : y = p
    · exact hp z (hy ▸ hyz)
    · exact hstep y z hy (ih hy) hyz

/-- The last reference to an object goes: it is under release, and its fields are references from outside. -/
theorem Sound.release (h : Sound s e fs) (hp : 0 < e p) (hone : (s.obj p).count = 1) :
    Sound (s.addCount p (-1))
      (fun x => e x - (if x = p then 1 else 0) + (s.obj p).fields.count (some x)) (p :: fs) := by
  have hlive := h.mem_live_of_pos (x := p) (by omega)
  have halloc := ((mem_live h).1 hlive).1
  have hlive' : (s.addCount p (-1)).live = s.live.erase p := by
    ext x
    rw [Finset.mem_erase, live, live, Finset.mem_filter, Finset.mem_filter, addCount_size,
      addCount_allocated, addCount_count]
    rcases eq_or_ne x p with rfl | hx
    · simp [hone]
    · simp [hx]
  have hpoints : (s.addCount p (-1)).Points = s.Points := funext fun y => funext fun x => by
    rw [Points, Points, addCount_fields]
  have hinto : ∀ x, (s.addCount p (-1)).into (s.live.erase p) x = s.into (s.live.erase p) x := fun x =>
    Finset.sum_congr rfl fun y _ => by rw [edges, edges, addCount_fields]
  have herase : ∀ x, s.into s.live x = (s.obj p).fields.count (some x) + s.into (s.live.erase p) x :=
    fun x => into_erase hlive
  have hcountp := h.count p halloc
  have hfs : p ∉ fs := fun hmem => by
    have := (h.releasing p hmem).2
    omega
  refine ⟨fun x => ?_, h.sized, h.nodup, h.roots, fun x => ?_, fun x hx => ?_, h.freeSet, fun x hx => ?_,
    fun x hx => ?_, fun q hq => ?_, List.nodup_cons.2 ⟨hfs, h.distinct⟩, fun x hx hzero => ?_,
    fun x hx => ?_⟩
  · rw [addCount_colour]
    exact h.plain x
  · rw [addCount_buffered]
    exact h.buffered x
  · rw [addCount_colour] at hx
    exact h.purple x hx
  · have hcount := h.count x hx
    have hsplit := herase x
    rw [addCount_count, hlive', hinto]
    rcases eq_or_ne x p with rfl | hne
    · rw [if_pos rfl, if_pos rfl]
      omega
    · rw [if_neg hne, if_neg hne]
      omega
  · have hcount := h.dangling x hx
    have hsplit := herase x
    rw [hlive', hinto]
    omega
  · rw [addCount_count]
    rcases List.mem_cons.1 hq with rfl | hqf
    · exact ⟨halloc, by rw [if_pos rfl, hone]; rfl⟩
    · obtain ⟨hqa, hqz⟩ := h.releasing q hqf
      refine ⟨hqa, ?_⟩
      rw [if_neg (by rintro rfl; exact hfs hqf), hqz]
      rfl
  · rcases eq_or_ne x p with rfl | hne
    · exact .inl List.mem_cons_self
    · rw [addCount_count, if_neg hne, Int.add_zero] at hzero
      rw [addCount_colour]
      exact (h.dead x hx hzero).imp_left (List.mem_cons_of_mem _)
  · rw [hlive', Finset.mem_erase] at hx
    have hfield : ∀ z, s.Points p z → (s.addCount p (-1)).Reach
        (fun x => e x - (if x = p then 1 else 0) + (s.obj p).fields.count (some x)) z := by
      intro z hz
      have hpos := List.count_pos_iff.2 hz
      exact ⟨z, by dsimp only; omega, .refl⟩
    rcases h.led x hx.2 with ⟨q, hq, hqx⟩ | ⟨q, hql, hq, hqx⟩
    · refine .inl (path_cases hqx (fun hqp => ⟨q, ?_, .refl⟩) (fun y z _ hy hyz => ?_) hfield hx.1)
      · dsimp only
        rw [if_neg hqp]
        omega
      · exact hy.tail (hpoints ▸ hyz)
    · refine path_cases (P := fun z => (s.addCount p (-1)).Reach _ z ∨ ∃ q ∈ (s.addCount p (-1)).live,
          ((s.addCount p (-1)).obj q).colour = .purple ∧ ReflTransGen (s.addCount p (-1)).Points q z)
        hqx (fun hqp => .inr ⟨q, ?_, ?_, .refl⟩) (fun y z _ hy hyz => ?_)
        (fun z hz => .inl (hfield z hz)) hx.1
      · rw [hlive', Finset.mem_erase]
        exact ⟨hqp, hql⟩
      · rwa [addCount_colour]
      · rcases hy with hy | ⟨r, hrl, hr, hry⟩
        · exact .inl (hy.tail (hpoints ▸ hyz))
        · exact .inr ⟨r, hrl, hr, hry.tail (hpoints ▸ hyz)⟩

/-- A reference goes to an object that has others: it is a possible root. -/
theorem Sound.suspected {t : Refcount} (h : Sound s e fs) (hp : 0 < e p) (hmany : 1 < (s.obj p).count)
    (hsize : t.size = s.size) (hallocated : t.allocated = s.allocated) (hfreeSet : t.freeSet = s.freeSet)
    (hfields : ∀ x, (t.obj x).fields = (s.obj x).fields)
    (hcount : ∀ x, (t.obj x).count = (s.obj x).count - if x = p then 1 else 0)
    (hcolour : ∀ x, (t.obj x).colour = if x = p then .purple else (s.obj x).colour)
    (hbuffered : ∀ x, (t.obj x).buffered = true ↔ (s.obj x).buffered = true ∨ x = p)
    (hnodup : t.roots.Nodup) (hroots : ∀ x, x ∈ t.roots ↔ x ∈ s.roots ∨ x = p) :
    Sound t (fun x => e x - if x = p then 1 else 0) fs := by
  have hlive := h.mem_live_of_pos (x := p) (by omega)
  have halloc := ((mem_live h).1 hlive).1
  have hlive' : t.live = s.live := by
    ext x
    rw [live, live, Finset.mem_filter, Finset.mem_filter, hsize, hallocated, hcount]
    rcases eq_or_ne x p with rfl | hx
    · simp [hmany, show 0 < (s.obj x).count by omega]
    · simp [hx]
  have hpoints : t.Points = s.Points := funext fun y => funext fun x => by rw [Points, Points, hfields]
  have hinto : ∀ x, t.into s.live x = s.into s.live x := fun x =>
    Finset.sum_congr rfl fun y _ => by rw [edges, edges, hfields]
  have hne : ∀ {x : Nat}, (s.obj x).count = 0 → x ≠ p := by
    rintro x hzero rfl
    omega
  refine ⟨fun x => ?_, fun x hx => ?_, hnodup, fun x hx => ?_, fun x => ?_, fun x hx => ?_,
    hfreeSet.trans h.freeSet, fun x hx => ?_, fun x hx => ?_, fun q hq => ?_, h.distinct, fun x hx hzero => ?_,
    fun x hx => ?_⟩
  · rw [hcolour]
    split
    · exact .inr rfl
    · exact h.plain x
  · rw [hsize]
    exact h.sized x (hallocated ▸ hx)
  · rw [hallocated]
    rcases (hroots x).1 hx with hx | rfl
    · exact h.roots x hx
    · exact halloc
  · rw [hbuffered, hroots, h.buffered]
  · rw [hroots]
    rw [hcolour] at hx
    split at hx
    · next heq => exact .inr heq
    · exact .inl (h.purple x hx)
  · have hbalance := h.count x (hallocated ▸ hx)
    rw [hcount, hlive', hinto]
    rcases eq_or_ne x p with rfl | hx
    · rw [if_pos rfl, if_pos rfl]
      omega
    · rw [if_neg hx, if_neg hx]
      omega
  · have hbalance := h.dangling x (hallocated ▸ hx)
    rw [hlive', hinto]
    omega
  · obtain ⟨hqa, hqz⟩ := h.releasing q hq
    refine ⟨hallocated ▸ hqa, ?_⟩
    rw [hcount, if_neg (hne hqz), hqz]
    rfl
  · have hxp : x ≠ p := by
      rintro rfl
      rw [hcount, if_pos rfl] at hzero
      omega
    rw [hcount, if_neg hxp, Int.sub_zero] at hzero
    rw [hcolour, if_neg hxp, hroots]
    exact (h.dead x (hallocated ▸ hx) hzero).imp_right fun hd => ⟨.inl hd.1, hd.2⟩
  · rw [hlive'] at hx ⊢
    have hpurple : (t.obj p).colour = .purple := by rw [hcolour, if_pos rfl]
    rcases h.led x hx with ⟨q, hq, hqx⟩ | ⟨q, hql, hq, hqx⟩
    · rcases eq_or_ne q p with rfl | hqp
      · exact .inr ⟨q, hlive, hpurple, hpoints ▸ hqx⟩
      · refine .inl ⟨q, ?_, hpoints ▸ hqx⟩
        dsimp only
        rw [if_neg hqp]
        omega
    · refine .inr ⟨q, hql, ?_, hpoints ▸ hqx⟩
      rw [hcolour]
      split
      · rfl
      · exact hq

theorem releaseFreeSet_of_nil (h : s.freeSet = []) : s.releaseFreeSet = some s := by
  obtain ⟨size, obj, allocated, roots, freeSet⟩ := s
  cases h
  rfl

/-- `mcxx_possible_root` keeps the balance, also where it starts a collection. -/
theorem Sound.possibleRoot (h : Sound s e fs) (hroom : s.roots.length < maxRoots) (hp : 0 < e p)
    (hmany : 1 < (s.obj p).count)
    (hguard : (s.obj p).colour ≠ .purple → (s.obj p).buffered = false → s.roots.length + 1 = maxRoots →
      ∀ q ∈ fs, (s.obj q).buffered = false) :
    ∃ s', (((s.addCount p (-1)).possibleRoot p).bind fun s => s.releaseFreeSet) = some s' ∧
      Sound s' (fun x => e x - if x = p then 1 else 0) fs ∧ s'.roots.length < maxRoots := by
  have hcount : ∀ x, ((s.addCount p (-1)).obj x).count = (s.obj x).count - if x = p then 1 else 0 := by
    intro x
    rw [addCount_count]
    split <;> rfl
  rw [Refcount.possibleRoot, addCount_colour]
  split
  · next hpurple =>
    simp only [setColour_buffered, addCount_buffered]
    split
    · next hbuffered =>
      have hroots : p ∉ s.roots := fun hmem => by
        rw [(h.buffered p).2 hmem] at hbuffered
        cases hbuffered
      have hsound := h.suspected (t := { ((s.addCount p (-1)).setColour p .purple).setBuffered p true with
          roots := s.roots ++ [p] }) hp hmany rfl rfl rfl (fun x => by simp)
        (fun x => by rw [← hcount]; simp)
        (fun x => by simp) (fun x => by simp; tauto)
        (List.nodup_append.2 ⟨h.nodup, List.nodup_singleton p, fun a ha b hb hab => hroots (by
          rw [← List.mem_singleton.1 hb, ← hab]
          exact ha)⟩)
        (fun x => by simp)
      rw [appendToRoots]
      simp only [setBuffered_roots, setColour_roots, addCount_roots, List.length_append, List.length_singleton]
      split
      · next hfull =>
        have hunbuffered := hguard hpurple hbuffered hfull
        obtain ⟨s', hs', hc⟩ := collectcycles_spec (hsound.ready fun q hq => by
          have hqp : q ≠ p := by
            rintro rfl
            have := (h.releasing q hq).2
            omega
          simp [hqp, hunbuffered q hq])
        have hsound' := (hsound.collected (fun q hq => by
          have hqp : q ≠ p := by
            rintro rfl
            have := (h.releasing q hq).2
            omega
          simp [hqp, hunbuffered q hq]) hc).1
        refine ⟨s', by rw [hs', Option.bind_some, releaseFreeSet_of_nil hsound'.freeSet], hsound', ?_⟩
        rw [hc.roots]
        decide
      · next hfull =>
        refine ⟨_, by rw [Option.bind_some, releaseFreeSet_of_nil hsound.freeSet], hsound, ?_⟩
        simp only [List.length_append, List.length_singleton]
        omega
    · next hbuffered =>
      have hroots : p ∈ s.roots := (h.buffered p).1 (Bool.eq_true_of_not_eq_false hbuffered)
      have hsound := h.suspected (t := (s.addCount p (-1)).setColour p .purple) hp hmany rfl rfl rfl
        (fun x => by simp) (fun x => by rw [← hcount]; simp) (fun x => by simp) (fun x => by
          rw [setColour_buffered, addCount_buffered]
          refine ⟨.inl, fun hx => hx.elim id fun heq => ?_⟩
          rw [heq]
          exact Bool.eq_true_of_not_eq_false hbuffered)
        h.nodup (fun x => ⟨.inl, fun hx => hx.elim id fun heq => heq ▸ hroots⟩)
      exact ⟨_, by rw [Option.bind_some, releaseFreeSet_of_nil hsound.freeSet], hsound, hroom⟩
  · next hpurple =>
    have hpurple := not_not.1 hpurple
    have hroots := h.purple p hpurple
    have hsound := h.suspected (t := s.addCount p (-1)) hp hmany rfl rfl rfl (fun x => by simp) hcount
      (fun x => by
        rw [addCount_colour]
        split
        · next heq => rw [heq, hpurple]
        · rfl)
      (fun x => by
        rw [addCount_buffered]
        refine ⟨.inl, fun hx => hx.elim id fun heq => ?_⟩
        rw [heq]
        exact (h.buffered p).2 hroots)
      h.nodup (fun x => ⟨.inl, fun hx => hx.elim id fun heq => heq ▸ hroots⟩)
    exact ⟨_, by rw [Option.bind_some, releaseFreeSet_of_nil hsound.freeSet], hsound, hroom⟩

/-- The walk over a released object has ended: it is black, and freed unless it is in the buffer of roots. -/
theorem Sound.finish (h : Sound s e (p :: fs)) :
    ∃ s', (if ((s.setColour p .black).obj p).buffered = false then (s.setColour p .black).addToFreeSet p
      else s.setColour p .black).releaseFreeSet = some s' ∧ Sound s' e fs ∧ s'.roots = s.roots := by
  obtain ⟨halloc, hzero⟩ := h.releasing p List.mem_cons_self
  obtain ⟨hpfs, hdistinct⟩ := List.nodup_cons.1 h.distinct
  have hblack : Sound (s.setColour p .black) e (p :: fs) := by
    have hpoints : (s.setColour p .black).Points = s.Points := funext fun y => funext fun x => by
      rw [Points, Points, setColour_fields]
    have hinto : ∀ S x, (s.setColour p .black).into S x = s.into S x := fun S x =>
      Finset.sum_congr rfl fun y _ => by rw [edges, edges, setColour_fields]
    have hlive : (s.setColour p .black).live = s.live := by
      ext x
      rw [live, live, Finset.mem_filter, Finset.mem_filter, setColour_size, setColour_allocated,
        setColour_count]
    have hcolour : ∀ x, (s.obj x).colour = .black → ((s.setColour p .black).obj x).colour = .black := by
      intro x hx
      rw [setColour_colour]
      split
      · rfl
      · exact hx
    refine ⟨fun x => ?_, h.sized, h.nodup, h.roots, fun x => ?_, fun x hx => ?_, h.freeSet, fun x hx => ?_,
      fun x hx => ?_, fun q hq => ?_, h.distinct, fun x hx hz => ?_, fun x hx => ?_⟩
    · rw [setColour_colour]
      split
      · exact .inl rfl
      · exact h.plain x
    · rw [setColour_buffered]
      exact h.buffered x
    · rw [setColour_colour] at hx
      split at hx
      · cases hx
      · exact h.purple x hx
    · rw [setColour_count, hlive, hinto]
      exact h.count x hx
    · rw [hlive, hinto]
      exact h.dangling x hx
    · rw [setColour_count]
      exact h.releasing q hq
    · rw [setColour_count] at hz
      exact (h.dead x hx hz).imp_right fun hd => ⟨hd.1, hcolour x hd.2⟩
    · rw [hlive] at hx ⊢
      rw [Reach, hpoints]
      refine (h.led x hx).imp_right fun hled => ?_
      obtain ⟨q, hql, hq, hqx⟩ := hled
      refine ⟨q, hql, ?_, hqx⟩
      -- The object is not in use, so it is not the possible root.
      have hqp : q ≠ p := by
        rintro rfl
        have := ((mem_live h).1 hql).2
        omega
      rwa [setColour_colour, if_neg hqp]
  split
  · next hbuffered =>
    have hroots : p ∉ s.roots := fun hmem => by
      rw [(hblack.buffered p).2 hmem] at hbuffered
      cases hbuffered
    have hset : ((s.setColour p .black).addToFreeSet p).freeSet = [p] := by
      rw [addToFreeSet, if_neg (by rw [hblack.freeSet]; exact List.not_mem_nil)]
      change s.freeSet ++ [p] = [p]
      rw [h.freeSet, List.nil_append]
    obtain ⟨s', hs', hobj, hsize, hroots', hfreeSet, hallocated⟩ :=
      @releaseFreeSet_spec ((s.setColour p .black).addToFreeSet p)
        (by rw [hset]; exact List.nodup_singleton p) (fun x hx => by
          rw [hset, List.mem_singleton] at hx
          rw [addToFreeSet_allocated, hx]
          exact halloc)
    rw [addToFreeSet_obj] at hobj
    rw [addToFreeSet_size] at hsize
    rw [addToFreeSet_roots] at hroots'
    simp only [addToFreeSet_allocated, hset, List.mem_singleton] at hallocated
    have hlive : s'.live = (s.setColour p .black).live := by
      ext x
      rw [live, live, Finset.mem_filter, Finset.mem_filter, hsize, hobj, hallocated]
      refine and_congr_right fun _ => ⟨fun hx => ⟨hx.1.1, hx.2⟩, fun hx => ⟨⟨hx.1, ?_⟩, hx.2⟩⟩
      rintro rfl
      rw [setColour_count] at hx
      omega
    have hpoints : s'.Points = (s.setColour p .black).Points := funext fun y => funext fun x => by
      rw [Points, Points, hobj]
    have hinto : ∀ S x, s'.into S x = (s.setColour p .black).into S x := fun S x =>
      Finset.sum_congr rfl fun y _ => by rw [edges, edges, hobj]
    refine ⟨s', hs', ⟨fun x => ?_, fun x hx => ?_, ?_, fun x hx => ?_, fun x => ?_, fun x hx => ?_, hfreeSet,
      fun x hx => ?_, fun x hx => ?_, fun q hq => ?_, hdistinct, fun x hx hz => ?_, fun x hx => ?_⟩, hroots'⟩
    · rw [hobj]
      exact hblack.plain x
    · rw [hsize]
      exact hblack.sized x ((hallocated x).1 hx).1
    · rw [hroots']
      exact h.nodup
    · rw [hroots'] at hx
      exact (hallocated x).2 ⟨h.roots x hx, fun heq => hroots (heq ▸ hx)⟩
    · rw [hobj, hroots']
      exact hblack.buffered x
    · rw [hroots']
      rw [hobj] at hx
      exact hblack.purple x hx
    · rw [hobj, hlive, hinto]
      exact hblack.count x ((hallocated x).1 hx).1
    · rw [hlive, hinto]
      rcases eq_or_ne x p with rfl | hne
      · have hcount := hblack.count x halloc
        rw [setColour_count, hzero] at hcount
        omega
      · refine hblack.dangling x (Bool.eq_false_of_not_eq_true fun hx' => ?_)
        rw [(hallocated x).2 ⟨hx', hne⟩] at hx
        cases hx
    · obtain ⟨hqa, hqz⟩ := hblack.releasing q (List.mem_cons_of_mem _ hq)
      rw [hobj]
      exact ⟨(hallocated q).2 ⟨hqa, fun heq => hpfs (heq ▸ hq)⟩, hqz⟩
    · obtain ⟨hxa, hxp⟩ := (hallocated x).1 hx
      rw [hobj] at hz ⊢
      rw [hroots']
      exact (hblack.dead x hxa hz).imp_left fun hmem => (List.mem_cons.1 hmem).resolve_left hxp
    · rw [hlive] at hx ⊢
      rw [Reach, hpoints, hobj]
      exact hblack.led x hx
  · next hbuffered =>
    have hroots : p ∈ s.roots := (hblack.buffered p).1 (Bool.eq_true_of_not_eq_false hbuffered)
    refine ⟨_, releaseFreeSet_of_nil hblack.freeSet, { hblack with
      releasing := fun q hq => hblack.releasing q (List.mem_cons_of_mem _ hq)
      distinct := hdistinct
      dead := fun x hx hz => ?_ }, rfl⟩
    rcases hblack.dead x hx hz with hmem | hd
    · rcases List.mem_cons.1 hmem with rfl | hmem
      · exact .inr ⟨hroots, by rw [setColour_colour, if_pos rfl]⟩
      · exact .inl hmem
    · exact .inr hd

end

end Refcount

end OmpSs.Mcxx
