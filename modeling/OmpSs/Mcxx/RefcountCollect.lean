import OmpSs.Mcxx.RefcountScan

/-!
# The collecting phase

What a collection frees and what it leaves, whatever the counts mean: `mcxx_collectroots` puts the white
objects into the free set (`Collecting`), so that a collection frees the suspects that nothing holds and
leaves the other objects without the references from those (`collectcycles_spec`).
-/

namespace OmpSs.Mcxx

open Lib

namespace Refcount

section
variable {s s' s₀ s₁ : Refcount} {p x y : Nat} {rest : List Nat} {w : List WhiteCall}

/-- White objects are collected: they are black again and in the free set, or about to be put there, and
their fields point to no white object, except for the roots `rest` and the calls `w` that are to come. -/
structure Collecting (s₁ s : Refcount) (w : List WhiteCall) (rest : List Nat) : Prop where
  graph : SameGraph s₁ s
  count : ∀ x, (s.obj x).count = (s₁.obj x).count
  colour : ∀ x, (s.obj x).colour = (s₁.obj x).colour ∨
    (s₁.obj x).colour = .white ∧ (s.obj x).colour = .black
  buffered : ∀ x, (s.obj x).buffered = true ↔ x ∈ rest
  nodup : s.freeSet.Nodup
  free : ∀ x, x ∈ s.freeSet ∨ .add x ∈ w ↔
    x ∈ s₁.freeSet ∨ (s₁.obj x).colour = .white ∧ (s.obj x).colour = .black
  closed : ∀ y x, (s₁.obj y).colour = .white → (s.obj y).colour = .black → s₁.Points y x →
    (s.obj x).colour = .white → x ∈ rest ∨ .visit (some x) ∈ w
  roots : ∀ r ∈ s₁.roots, (s.obj r).colour = .white → r ∈ rest ∨ .visit (some r) ∈ w
  todo : ∀ x, .visit (some x) ∈ w → s₁.allocated x = true

/-- The white objects. -/
def whites (s : Refcount) : Finset Nat := (Finset.range s.size).filter fun x => (s.obj x).colour = .white

theorem Collecting.pop {a : WhiteCall} (h : Collecting s₁ s (a :: w) rest)
    (hvisit : ∀ x, a = .visit (some x) → (s.obj x).colour = .white → x ∈ rest)
    (hadd : ∀ x, a = .add x → x ∈ s.freeSet) : Collecting s₁ s w rest :=
  { h with
    free := fun x => by
      rw [← h.free, List.mem_cons]
      refine ⟨fun hx => hx.imp_right .inr, fun hx => ?_⟩
      rcases hx with hx | heq | hx
      · exact .inl hx
      · exact .inl (hadd x heq.symm)
      · exact .inr hx
    closed := fun y x hy hb hyx hx => by
      rcases h.closed y x hy hb hyx hx with hr | hw
      · exact .inl hr
      · rcases List.mem_cons.1 hw with heq | hw
        · exact .inl (hvisit x heq.symm hx)
        · exact .inr hw
    roots := fun r hr hx => by
      rcases h.roots r hr hx with hr | hw
      · exact .inl hr
      · rcases List.mem_cons.1 hw with heq | hw
        · exact .inl (hvisit r heq.symm hx)
        · exact .inr hw
    todo := fun x hx => h.todo x (List.mem_cons_of_mem _ hx) }

/-- A white object is black again, its fields are to be visited, and it is to be put into the free set. -/
theorem Collecting.collect (h : Collecting s₁ s (.visit (some p) :: w) rest)
    (hpoints : ∀ y x, (s₁.obj y).colour = .white → s₁.Points y x → s₁.allocated x = true)
    (hp : (s.obj p).colour = .white) :
    Collecting s₁ (s.setColour p .black) (((s.obj p).fields.map .visit ++ [.add p]) ++ w) rest := by
  have hwhite : (s₁.obj p).colour = .white := by
    rcases h.colour p with hsame | ⟨-, hb⟩
    · exact hsame ▸ hp
    · rw [hp] at hb
      cases hb
  have hmem : ∀ {a : WhiteCall}, a ∈ w → a ∈ ((s.obj p).fields.map .visit ++ [.add p]) ++ w := fun ha =>
    List.mem_append_right _ ha
  have hvisit : ∀ {x}, .visit (some x) ∈ ((s.obj p).fields.map WhiteCall.visit ++ [.add p]) ++ w ↔
      s₁.Points p x ∨ .visit (some x) ∈ w := by
    intro x
    simp [Points, h.graph.fields]
  refine ⟨h.graph.setColour, fun x => ?_, fun x => ?_, fun x => ?_, h.nodup, fun x => ?_,
    fun y x hy hb hyx hx => ?_, fun r hr hx => ?_, fun x hx => ?_⟩
  · rw [setColour_count, h.count]
  · rw [setColour_colour]
    split
    · next heq => exact .inr ⟨heq ▸ hwhite, rfl⟩
    · exact h.colour x
  · rw [setColour_buffered, h.buffered]
  · have hfree := h.free x
    rw [setColour_freeSet, setColour_colour]
    rcases eq_or_ne x p with rfl | hne
    · rw [if_pos rfl]
      refine ⟨fun _ => .inr ⟨hwhite, rfl⟩, fun _ => .inr (by simp)⟩
    · rw [if_neg hne, ← hfree]
      simp [hne]
  · rw [setColour_colour] at hx hb
    rcases eq_or_ne x p with rfl | hne
    · rw [if_pos rfl] at hx
      cases hx
    rw [if_neg hne] at hx
    rw [hvisit]
    rcases eq_or_ne y p with rfl | hyp
    · exact .inr (.inl hyx)
    · rw [if_neg hyp] at hb
      rcases h.closed y x hy hb hyx hx with hr | hw
      · exact .inl hr
      · refine .inr (.inr ((List.mem_cons.1 hw).resolve_left fun heq => hne ?_))
        exact Option.some.inj (WhiteCall.visit.inj heq)
  · rw [setColour_colour] at hx
    split at hx
    · cases hx
    · next hne =>
      rw [hvisit]
      rcases h.roots r hr hx with hr | hw
      · exact .inl hr
      · refine .inr (.inr ((List.mem_cons.1 hw).resolve_left fun heq => hne ?_))
        exact Option.some.inj (WhiteCall.visit.inj heq)
  · rcases hvisit.1 hx with hx | hx
    · exact hpoints p x hwhite hx
    · exact h.todo x (List.mem_cons_of_mem _ hx)

/-- A call of `mcxx_collectwhite`, or what follows its walk. -/
theorem Collecting.call {a : WhiteCall} (h : Collecting s₁ s (a :: w) rest)
    (hpoints : ∀ y x, (s₁.obj y).colour = .white → s₁.Points y x → s₁.allocated x = true)
    (hsized : ∀ x, s₁.allocated x = true → x < s₁.size) :
    ∃ s' next, s.collectwhiteCall a = some (s', next) ∧ Collecting s₁ s' (next ++ w) rest ∧
      s'.whites.card ≤ s.whites.card ∧ (next ≠ [] → s'.whites.card < s.whites.card) := by
  cases a with
  | visit a =>
    cases a with
    | none =>
      exact ⟨s, [], rfl, h.pop (fun x hx => by cases hx) (fun x hx => by cases hx), le_refl _,
        fun hne => absurd rfl hne⟩
    | some p =>
      have halloc := h.todo p List.mem_cons_self
      rw [collectwhiteCall, if_pos (h.graph.allocated ▸ halloc)]
      split
      · next hp =>
        have hcard : (s.setColour p .black).whites.card < s.whites.card := by
          refine Finset.card_lt_card (Finset.ssubset_iff_of_subset (fun x hx => ?_) |>.2 ⟨p, ?_, ?_⟩)
          · rw [whites, Finset.mem_filter, setColour_colour] at hx
            rw [whites, Finset.mem_filter]
            refine ⟨hx.1, ?_⟩
            have hw := hx.2
            split at hw
            · cases hw
            · exact hw
          · rw [whites, Finset.mem_filter, Finset.mem_range]
            exact ⟨h.graph.size ▸ hsized p halloc, hp.1⟩
          · rw [whites, Finset.mem_filter, setColour_colour, if_pos rfl]
            exact fun hno => by cases hno.2
        exact ⟨_, _, rfl, h.collect hpoints hp.1, hcard.le, fun _ => hcard⟩
      · next hp =>
        refine ⟨s, [], rfl, h.pop (fun x hx hw => ?_) (fun x hx => by cases hx), le_refl _,
          fun hne => absurd rfl hne⟩
        cases hx
        rw [← h.buffered]
        exact Bool.eq_true_of_not_eq_false fun hb => hp ⟨hw, hb⟩
  | add p =>
    have hadd : Collecting s₁ (s.addToFreeSet p) (.add p :: w) rest := by
      refine ⟨⟨by rw [addToFreeSet_size, h.graph.size], by rw [addToFreeSet_allocated, h.graph.allocated],
        fun x => by rw [addToFreeSet_obj, h.graph.fields]⟩, fun x => by rw [addToFreeSet_obj, h.count],
        fun x => by rw [addToFreeSet_obj]; exact h.colour x,
        fun x => by rw [addToFreeSet_obj, h.buffered], nodup_addToFreeSet h.nodup, fun x => ?_,
        fun y x hy hb hyx hx => ?_, fun r hr hx => ?_, h.todo⟩
      · rw [mem_addToFreeSet, addToFreeSet_obj, ← h.free, List.mem_cons, WhiteCall.add.injEq]
        tauto
      · rw [addToFreeSet_obj] at hb hx
        exact h.closed y x hy hb hyx hx
      · rw [addToFreeSet_obj] at hx
        exact h.roots r hr hx
    refine ⟨s.addToFreeSet p, [], rfl, hadd.pop (fun x hx => by cases hx) (fun x hx => ?_), ?_,
      fun hne => absurd rfl hne⟩
    · cases hx
      exact mem_addToFreeSet.2 (.inr rfl)
    · rw [whites, whites, addToFreeSet_size, addToFreeSet_obj]

/-- One turn of the loop of `mcxx_collectroots`. -/
theorem Collecting.collectRoot (h : Collecting s₁ s [] (p :: rest)) (hp : s₁.allocated p = true)
    (hrest : p ∉ rest)
    (hpoints : ∀ y x, (s₁.obj y).colour = .white → s₁.Points y x → s₁.allocated x = true)
    (hsized : ∀ x, s₁.allocated x = true → x < s₁.size) :
    ∃ s', s.collectRoot p = some s' ∧ Collecting s₁ s' [] rest := by
  have hstart : Collecting s₁ (s.setBuffered p false) [.visit (some p)] rest := by
    have hcases : ∀ {x}, x ∈ p :: rest ∨ WhiteCall.visit (some x) ∈ [] →
        x ∈ rest ∨ .visit (some x) ∈ [WhiteCall.visit (some p)] := by
      rintro x (hx | hx)
      · rcases List.mem_cons.1 hx with rfl | hx
        · exact .inr (List.mem_singleton_self _)
        · exact .inl hx
      · cases hx
    refine ⟨h.graph.setBuffered, fun x => by rw [setBuffered_count, h.count],
      fun x => by rw [setBuffered_colour]; exact h.colour x, fun x => ?_, h.nodup, fun x => ?_,
      fun y x hy hb hyx hx => ?_, fun r hr hx => ?_, fun x hx => ?_⟩
    · rw [setBuffered_buffered]
      rcases eq_or_ne x p with rfl | hne
      · simp [hrest]
      · rw [if_neg hne, h.buffered, List.mem_cons]
        simp [hne]
    · rw [setBuffered_colour, setBuffered_freeSet, ← h.free]
      simp
    · rw [setBuffered_colour] at hb hx
      exact hcases (h.closed y x hy hb hyx hx)
    · rw [setBuffered_colour] at hx
      exact hcases (h.roots r hr hx)
    · cases List.mem_singleton.1 hx
      exact hp
  have hcard : (s.setBuffered p false).whites.card < s.size + 1 := by
    have := (Finset.card_filter_le (Finset.range (s.setBuffered p false).size) fun x =>
      ((s.setBuffered p false).obj x).colour = .white).trans (Finset.card_range _).le
    exact Nat.lt_succ_of_le this
  obtain ⟨s', hs', h', -⟩ := @depthFirst_spec Refcount WhiteCall collectwhiteCall
    (fun t w => Collecting s₁ t w rest) (fun t => t.whites.card)
    (fun t a w ht => ht.call hpoints hsized)
    (s.size + 1) (s.setBuffered p false) (.visit (some p)) [] hcard hstart
  exact ⟨s', by rw [Refcount.collectRoot, if_pos (h.graph.allocated ▸ hp)]; exact hs', h'⟩

/-- The free set is freed, each object once. -/
theorem releaseFreeSet_spec (hnodup : s.freeSet.Nodup) (halloc : ∀ x ∈ s.freeSet, s.allocated x = true) :
    ∃ s', s.releaseFreeSet = some s' ∧ s'.obj = s.obj ∧ s'.size = s.size ∧ s'.roots = s.roots ∧
      s'.freeSet = [] ∧ ∀ x, s'.allocated x = true ↔ s.allocated x = true ∧ x ∉ s.freeSet := by
  obtain ⟨s', hs', hobj, hsize, hroots, -, -, hfree⟩ := @foldlM_spec Refcount Nat free
    (fun t w => t.obj = s.obj ∧ t.size = s.size ∧ t.roots = s.roots ∧ w.Nodup ∧ (∀ x ∈ w, x ∈ s.freeSet) ∧
      ∀ x, t.allocated x = true ↔ s.allocated x = true ∧ (x ∉ s.freeSet ∨ x ∈ w))
    (fun t p w ht => by
      obtain ⟨hobj, hsize, hroots, hw, hsub, hfree⟩ := ht
      obtain ⟨hpw, hw⟩ := List.nodup_cons.1 hw
      have hp := hsub p List.mem_cons_self
      refine ⟨{ t with allocated := Function.update t.allocated p false },
        by rw [free, if_pos ((hfree p).2 ⟨halloc p hp, .inr List.mem_cons_self⟩)], hobj, hsize,
        hroots, hw, fun x hx => hsub x (List.mem_cons_of_mem _ hx), fun x => ?_⟩
      dsimp only
      rw [Function.update_apply]
      split
      · next heq =>
        subst heq
        simp [hp, hpw]
      · next hne =>
        rw [hfree, List.mem_cons]
        simp [hne])
    s.freeSet [] s ⟨rfl, rfl, rfl, by rwa [List.append_nil], fun x hx => by simpa using hx, fun x => by
      by_cases hx : x ∈ s.freeSet <;> simp [hx]⟩
  refine ⟨{ s' with freeSet := [] }, by rw [releaseFreeSet, hs', Option.map_some], hobj, hsize, hroots, rfl,
    fun x => ?_⟩
  simpa using hfree x

open Classical in
/-- The suspects that nothing holds. -/
noncomputable def garbage (s : Refcount) : Finset Nat :=
  (Finset.range s.size).filter fun x => s.Suspect x ∧ ¬ s.Held x

theorem mem_garbage (hs : Ready s₀) : x ∈ s₀.garbage ↔ s₀.Suspect x ∧ ¬ s₀.Held x := by
  classical
  rw [garbage, Finset.mem_filter, Finset.mem_range]
  exact ⟨And.right, fun hx => ⟨hs.sized x (hs.suspect x hx.1), hx⟩⟩

/-- What a collection does. -/
structure Collected (s s' : Refcount) : Prop where
  size : s'.size = s.size
  fields : ∀ x, (s'.obj x).fields = (s.obj x).fields
  count : ∀ x, (s'.obj x).count = (s.obj x).count - s.into s.garbage x
  colour : ∀ x, (s'.obj x).colour = .black
  buffered : ∀ x, (s'.obj x).buffered = false
  roots : s'.roots = []
  freeSet : s'.freeSet = []
  allocated : ∀ x, s'.allocated x = true ↔ s.allocated x = true ∧ ¬ (s.Suspect x ∧ ¬ s.Held x) ∧
    ¬ (x ∈ s.roots ∧ (s.obj x).colour = .black ∧ (s.obj x).count = 0)

/-- `mcxx_collectroots` and the release of the free set that follows it. -/
theorem collectroots_spec (hs : Ready s₀) {kept : List Nat} (hmarked : RootsMarked s₀ kept [] s₁)
    {t : Refcount} (h : Scanned s₀ s₁ t) :
    ∃ s', (t.collectroots.bind releaseFreeSet) = some s' ∧ Collected s₀ s' := by
  have hwhite : ∀ x, (t.obj x).colour = .white ↔ s₀.Suspect x ∧ ¬ s₀.Held x := by
    intro x
    refine ⟨fun hx => not_not.1 fun hno => ?_, fun hx => h.white x hx.1 hx.2⟩
    rw [h.black x hno] at hx
    cases hx
  have hcolour : ∀ x, (t.obj x).colour = .white ∨ (t.obj x).colour = .black := fun x =>
    or_iff_not_imp_left.2 fun hx => h.black x fun hno => hx ((hwhite x).2 hno)
  have halloc₀ : ∀ x, t.allocated x = s₀.allocated x := fun x => congrFun h.graph.allocated x
  have hroots : t.roots = kept := by
    rw [h.sets.roots, hmarked.roots, List.append_nil]
  have hbuffered : ∀ x, (t.obj x).buffered = true ↔ x ∈ kept := fun x => by
    rw [h.sets.buffered, hmarked.buffered, List.append_nil]
  have hkept : ∀ k ∈ kept, s₀.Suspect k := fun k hk => ⟨k, hmarked.purple k hk, .refl⟩
  have hpointsIff : ∀ y x, t.Points y x ↔ s₀.Points y x := fun y x => by
    rw [Points, Points, h.graph.fields]
  have hpoints : ∀ y x, (t.obj y).colour = .white → t.Points y x → t.allocated x = true := by
    intro y x hy hyx
    rw [halloc₀]
    exact hs.suspect x (((hwhite y).1 hy).1.tail ((hpointsIff y x).1 hyx))
  have hsized : ∀ x, t.allocated x = true → x < t.size := by
    intro x hx
    rw [h.graph.size]
    exact hs.sized x (halloc₀ x ▸ hx)
  have hfree : ∀ x, x ∈ t.freeSet ↔
      x ∈ s₀.roots ∧ (s₀.obj x).colour = .black ∧ (s₀.obj x).count = 0 := fun x => by
    rw [h.sets.freeSet, hmarked.free]
    simp
  obtain ⟨hnodup, -⟩ := List.nodup_append.1 hmarked.nodup
  have hstart : Collecting t t [] kept := by
    refine ⟨SameGraph.refl t, fun _ => rfl, fun _ => .inl rfl, hbuffered,
      by rw [h.sets.freeSet]; exact hmarked.free_nodup, fun x => ?_, fun y x hy hb => ?_,
      fun r hr _ => .inl (hroots ▸ hr), fun x hx => by cases hx⟩
    · refine ⟨fun hx => .inl (hx.resolve_right fun hmem => by cases hmem),
        fun hx => .inl (hx.resolve_right ?_)⟩
      rintro ⟨hw, hb⟩
      rw [hw] at hb
      cases hb
    · rw [hy] at hb
      cases hb
  -- The loop over the roots.
  obtain ⟨s₂, hs₂, hcollect, -⟩ := @foldlM_spec Refcount Nat Refcount.collectRoot
    (fun u rest => Collecting t u [] rest ∧ rest.Nodup ∧ ∀ r ∈ rest, r ∈ kept)
    (fun u p rest hu => by
      obtain ⟨hcollect, hn, hsub⟩ := hu
      obtain ⟨hp, hn⟩ := List.nodup_cons.1 hn
      obtain ⟨u', hu', hcollect'⟩ := hcollect.collectRoot
        (halloc₀ p ▸ hs.suspect p (hkept p (hsub p List.mem_cons_self))) hp hpoints hsized
      exact ⟨u', hu', hcollect', hn, fun r hr => hsub r (List.mem_cons_of_mem _ hr)⟩)
    kept [] t (by rw [List.append_nil]; exact ⟨hstart, hnodup, fun _ hr => hr⟩)
  rw [← hroots] at hs₂
  -- Every white object is collected: a path of white objects leads to it from a root.
  have hall : ∀ x, (t.obj x).colour = .white → (s₂.obj x).colour = .black := by
    intro x hx
    obtain ⟨hsuspect, hno⟩ := (hwhite x).1 hx
    have hled : Led s₀ kept x := by
      obtain ⟨r, hr, hrx⟩ := hsuspect
      rcases hmarked.marked r (hs.purple r hr) with hmem | hg | hb
      · cases hmem
      · obtain ⟨k, hk, hkr⟩ := hmarked.marking.origin r hg
        exact ⟨k, hk, hkr.trans hrx⟩
      · rw [hr] at hb
        cases hb
    obtain ⟨k, hk, hkx⟩ := hled
    clear hx hsuspect
    have hnot : ∀ z, (t.obj z).colour = .white → (s₂.obj z).colour ≠ .white →
        (s₂.obj z).colour = .black := by
      intro z hz hz'
      rcases hcollect.colour z with hsame | ⟨-, hb⟩
      · exact absurd (hsame.trans hz) hz'
      · exact hb
    induction hkx with
    | refl =>
      refine hnot k ((hwhite k).2 ⟨hkept k hk, hno⟩) fun hw => ?_
      rcases hcollect.roots k (hroots ▸ hk) hw with hmem | hmem <;> cases hmem
    | @tail y z hky hyz ih =>
      have hnoy : ¬ s₀.Held y := fun hy => hno (hy.tail hyz)
      have hy : s₀.Suspect y := by
        obtain ⟨r, hr, hrk⟩ := hkept k hk
        exact ⟨r, hr, hrk.trans hky⟩
      refine hnot z ((hwhite z).2 ⟨hy.tail hyz, hno⟩) fun hw => ?_
      rcases hcollect.closed y z ((hwhite y).2 ⟨hy, hnoy⟩) (ih hnoy) ((hpointsIff y z).2 hyz) hw with
        hmem | hmem <;> cases hmem
  have hfree₂ : ∀ x, x ∈ s₂.freeSet ↔
      (x ∈ s₀.roots ∧ (s₀.obj x).colour = .black ∧ (s₀.obj x).count = 0) ∨ s₀.Suspect x ∧ ¬ s₀.Held x := by
    intro x
    have hx := hcollect.free x
    rw [hfree] at hx
    rw [← hwhite]
    refine ⟨fun hmem => (hx.1 (.inl hmem)).imp_right And.left, fun hmem => ?_⟩
    exact (hx.2 (hmem.imp_right fun hw => ⟨hw, hall x hw⟩)).resolve_right fun hno => by cases hno
  obtain ⟨s', hs', hobj, hsize, hroots', hfreeSet, hallocated⟩ := @releaseFreeSet_spec { s₂ with roots := [] }
    hcollect.nodup (fun x hx => by
      change s₂.allocated x = true
      rw [hcollect.graph.allocated, halloc₀]
      rcases (hfree₂ x).1 hx with ⟨hr, -⟩ | ⟨hsuspect, -⟩
      · exact hs.roots x hr
      · exact hs.suspect x hsuspect)
  have hgarbage : t.trial = s₀.garbage := by
    ext x
    rw [mem_garbage hs, ← hwhite, mem_trial]
    refine ⟨fun hx => (hcolour x).resolve_right fun hb => ?_, fun hx => ⟨hsized x ?_, by rw [hx]; rfl⟩⟩
    · have htrial := hx.2
      rw [hb] at htrial
      cases htrial
    · exact halloc₀ x ▸ hs.suspect x ((hwhite x).1 hx).1
  refine ⟨s', by rw [collectroots, hs₂, Option.map_some, Option.bind_some, hs'], ?_, fun x => ?_, fun x => ?_,
    fun x => ?_, fun x => ?_, hroots', hfreeSet, fun x => ?_⟩
  · exact hsize.trans (hcollect.graph.size.trans h.graph.size)
  · rw [hobj]
    exact (hcollect.graph.fields x).trans (h.graph.fields x)
  · rw [hobj]
    exact (hcollect.count x).trans (by rw [h.count, hgarbage])
  · rw [hobj]
    rcases hcolour x with hw | hb
    · exact hall x hw
    · rcases hcollect.colour x with hsame | ⟨-, hb'⟩
      · exact hsame.trans hb
      · exact hb'
  · rw [hobj]
    refine Bool.eq_false_of_not_eq_true fun hb => ?_
    cases (hcollect.buffered x).1 hb
  · rw [hallocated]
    change s₂.allocated x = true ∧ x ∉ s₂.freeSet ↔ _
    rw [hfree₂, hcollect.graph.allocated, halloc₀, not_or]
    tauto

/-- **A collection frees the released objects in the buffer of roots, and the suspects that nothing holds;
the references of the latter are off the counts.** -/
theorem collectcycles_spec (hs : Ready s₀) : ∃ s', s₀.collectcycles = some s' ∧ Collected s₀ s' := by
  obtain ⟨s₁, kept, hs₁, hmarked⟩ := markroots_spec hs
  obtain ⟨t, ht, hscanned⟩ := scanroots_spec hmarked hs
  obtain ⟨s', hs', hcollected⟩ := collectroots_spec hs hmarked hscanned
  exact ⟨s', by rw [collectcycles, hs₁, Option.bind_some, ht, Option.bind_some, hs'], hcollected⟩

end

end Refcount

end OmpSs.Mcxx
