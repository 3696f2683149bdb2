import OmpSs.Mcxx.RefcountMark

/-!
# The scanning phase

`mcxx_scanroots` gives the references of an object back to the counts when it makes the object black
(`Scanning`). It clears the suspects that have references from elsewhere or that such objects lead to
(`Held`), and the others are white in the end (`Scanned`).
-/

namespace OmpSs.Mcxx

open Lib Relation

namespace Refcount

open Classical in
/-- The objects that a possible root leads to. -/
noncomputable def suspects (s : Refcount) : Finset Nat := (Finset.range s.size).filter s.Suspect

/-- A suspect with references from elsewhere than from suspects leads to the object. -/
def Held (s : Refcount) (x : Nat) : Prop :=
  ∃ z, s.Suspect z ∧ (s.into s.suspects z : Int) < (s.obj z).count ∧ ReflTransGen s.Points z x

section
variable {s s' s₀ : Refcount} {p x y : Nat} {R : List Nat} {c b w : List (Option Nat)}

theorem mem_suspects (hs : Ready s₀) : x ∈ s₀.suspects ↔ s₀.Suspect x := by
  classical
  rw [suspects, Finset.mem_filter, Finset.mem_range]
  exact ⟨And.right, fun hx => ⟨hs.sized x (hs.suspect x hx), hx⟩⟩

theorem Held.tail (h : s.Held x) (hxy : s.Points x y) : s.Held y := by
  obtain ⟨z, hz, hlt, hzx⟩ := h
  exact ⟨z, hz, hlt, hzx.tail hxy⟩

/-- The suspects are scanned. Their references are off the counts as long as they are gray or white, except
for those in `c`, which are still to be given back; black ones are held, and their fields point to black
objects, except for those in `b`; white ones have no count, and their fields point to scanned objects,
except for those in `w`. -/
structure Scanning (s₀ : Refcount) (R : List Nat) (s : Refcount) (c b w : List (Option Nat)) : Prop where
  graph : SameGraph s₀ s
  count : ∀ x, (s.obj x).count = (s₀.obj x).count - s₀.into s.trial x - c.count (some x)
  cleared : ∀ x, ¬ s₀.Suspect x → (s.obj x).colour = .black
  plain : ∀ x, (s.obj x).colour ≠ .purple
  white : ∀ x, (s.obj x).colour = .white → (s.obj x).count ≤ 0
  whites : ∀ y x, (s.obj y).colour = .white → s₀.Points y x → (s.obj x).colour ≠ .gray ∨ some x ∈ w
  blacks : ∀ y x, s₀.Suspect y → (s.obj y).colour = .black → s₀.Points y x →
    (s.obj x).colour = .black ∨ some x ∈ b
  held : ∀ y, s₀.Suspect y → (s.obj y).colour = .black → s₀.Held y
  hold : ∀ x, some x ∈ b → s₀.Suspect x ∧ s₀.Held x
  roots : ∀ r ∈ R, (s.obj r).colour = .gray → some r ∈ w
  todo : ∀ x, some x ∈ w → s₀.Suspect x

theorem Scanning.mem_trial_iff (h : Scanning s₀ R s c b w) (hs : Ready s₀) :
    x ∈ s.trial ↔ (s.obj x).colour ≠ .black := by
  rw [mem_trial]
  constructor
  · rintro ⟨-, htrial⟩ hb
    rw [hb] at htrial
    cases htrial
  · intro hb
    have hsuspect : s₀.Suspect x := not_not.1 fun hno => hb (h.cleared x hno)
    refine ⟨h.graph.size ▸ hs.sized x (hs.suspect x hsuspect), ?_⟩
    cases hc : (s.obj x).colour with
    | black => exact absurd hc hb
    | purple => exact absurd hc (h.plain x)
    | gray | white => rfl

theorem Scanning.trial_subset (h : Scanning s₀ R s c b w) (hs : Ready s₀) : s.trial ⊆ s₀.suspects := by
  intro x hx
  rw [mem_suspects hs]
  exact not_not.1 fun hno => (h.mem_trial_iff hs).1 hx (h.cleared x hno)

/-- An object is cleared, and its fields are to be. -/
theorem Scanning.blacken (h : Scanning s₀ R s c (some p :: b) w) (hs : Ready s₀)
    (hp : (s.obj p).colour ≠ .black) :
    Scanning s₀ R (s.setColour p .black) ((s.obj p).fields ++ c) ((s.obj p).fields ++ b) w := by
  obtain ⟨hsuspect, hheld⟩ := h.hold p List.mem_cons_self
  refine ⟨h.graph.setColour, fun x => ?_, fun x hx => ?_, fun x => ?_, fun x hx => ?_, fun y x hy hyx => ?_,
    fun y x hy hb hyx => ?_, fun y hy hb => ?_, fun x hx => ?_, fun r hr hg => ?_, h.todo⟩
  · rw [setColour_count, h.count, trial_setColour_erase rfl, into_erase ((h.mem_trial_iff hs).2 hp),
      List.count_append, h.graph.fields, edges]
    omega
  · rw [setColour_colour]
    split
    · rfl
    · exact h.cleared x hx
  · rw [setColour_colour]
    split
    · exact fun hno => by cases hno
    · exact h.plain x
  · rw [setColour_colour] at hx
    rw [setColour_count]
    split at hx
    · cases hx
    · exact h.white x hx
  · rw [setColour_colour] at hy ⊢
    split at hy
    · cases hy
    · split
      · exact .inl fun hno => by cases hno
      · exact h.whites y x hy hyx
  · rw [setColour_colour] at hb ⊢
    rcases eq_or_ne x p with rfl | hx
    · exact .inl (if_pos rfl)
    rw [if_neg hx]
    rcases eq_or_ne y p with rfl | hyp
    · exact .inr (List.mem_append_left _ (by rw [h.graph.fields]; exact hyx))
    · rw [if_neg hyp] at hb
      refine (h.blacks y x hy hb hyx).imp_right fun hmem => List.mem_append_right _ ?_
      exact (List.mem_cons.1 hmem).resolve_left fun heq => hx (Option.some.inj heq)
  · rw [setColour_colour] at hb
    split at hb
    · next heq => exact heq ▸ hheld
    · exact h.held y hy hb
  · rcases List.mem_append.1 hx with hx | hx
    · rw [h.graph.fields] at hx
      exact ⟨hsuspect.tail hx, hheld.tail hx⟩
    · exact h.hold x (List.mem_cons_of_mem _ hx)
  · rw [setColour_colour] at hg
    split at hg
    · cases hg
    · exact h.roots r hr hg

/-- A reference is given back to a black object. -/
theorem Scanning.giveBack (h : Scanning s₀ R s (some p :: c) b w) (hp : (s.obj p).colour = .black) :
    Scanning s₀ R (s.addCount p 1) c b w := by
  refine ⟨h.graph.addCount, fun x => ?_, fun x hx => ?_, fun x => ?_, fun x hx => ?_, fun y x hy hyx => ?_,
    fun y x hy hb hyx => ?_, fun y hy hb => ?_, h.hold, fun r hr hg => ?_, h.todo⟩
  · rw [addCount_count, h.count, trial_addCount, List.count_cons]
    rcases eq_or_ne x p with rfl | hx
    · simp
      omega
    · simp [hx, hx.symm]
  · rw [addCount_colour]
    exact h.cleared x hx
  · rw [addCount_colour]
    exact h.plain x
  · rw [addCount_colour] at hx
    rw [addCount_count, if_neg (by rintro rfl; rw [hp] at hx; cases hx), Int.add_zero]
    exact h.white x hx
  · rw [addCount_colour] at hy ⊢
    exact h.whites y x hy hyx
  · rw [addCount_colour] at hb ⊢
    exact h.blacks y x hy hb hyx
  · rw [addCount_colour] at hb
    exact h.held y hy hb
  · rw [addCount_colour] at hg
    exact h.roots r hr hg

theorem Scanning.popBlack {a : Option Nat} (h : Scanning s₀ R s c (a :: b) w)
    (ha : ∀ x, a = some x → (s.obj x).colour = .black) : Scanning s₀ R s c b w :=
  { h with
    blacks := fun y x hy hb hyx => by
      rcases h.blacks y x hy hb hyx with hx | hx
      · exact .inl hx
      · rcases List.mem_cons.1 hx with heq | hx
        · exact .inl (ha x heq.symm)
        · exact .inr hx
    hold := fun x hx => h.hold x (List.mem_cons_of_mem _ hx) }

theorem setColour_addCount (s : Refcount) (p : Nat) (d : Int) (colour : Colour) :
    (s.addCount p d).setColour p colour = (s.setColour p colour).addCount p d := by
  simp [setColour, addCount, modify]

/-- A call of `mcxx_scanblack_aux` gives one reference back to its object, and clears it. -/
theorem Scanning.aux {a : Option Nat} (h : Scanning s₀ R s (a :: c) (a :: c) w) (hs : Ready s₀) :
    ∃ s' next, s.scanblackAux a = some (s', next) ∧ Scanning s₀ R s' (next ++ c) (next ++ c) w ∧
      SameSets s s' ∧ (∀ x, (s'.obj x).colour = .black ∨ (s'.obj x).colour = (s.obj x).colour) ∧
      s'.trial.card ≤ s.trial.card ∧ (next ≠ [] → s'.trial.card < s.trial.card) := by
  cases a with
  | none =>
    have hpop := h.popBlack fun x hx => by cases hx
    refine ⟨s, [], rfl, { hpop with count := fun x => ?_ }, SameSets.refl s, fun _ => .inr rfl, le_refl _,
      fun hne => absurd rfl hne⟩
    simpa using h.count x
  | some p =>
    obtain ⟨hsuspect, -⟩ := h.hold p List.mem_cons_self
    rw [scanblackAux, if_pos (h.graph.allocated ▸ hs.suspect p hsuspect)]
    dsimp only
    rw [addCount_colour]
    split
    · next hp =>
      have hblack := h.blacken hs hp
      have hcount : Scanning s₀ R (s.setColour p .black) (some p :: ((s.obj p).fields ++ c))
          ((s.obj p).fields ++ c) w :=
        { hblack with
          count := fun x => by
            rw [hblack.count, List.count_append, List.count_cons, List.count_cons, List.count_append]
            omega }
      have hback := hcount.giveBack (by rw [setColour_colour, if_pos rfl])
      refine ⟨_, _, rfl, ?_, (SameSets.refl s).addCount.setColour, fun x => ?_, ?_⟩
      · rw [addCount_fields, setColour_addCount]
        exact hback
      · rw [setColour_colour]
        split
        · exact .inl rfl
        · exact .inr addCount_colour
      · have hcard : ((s.addCount p 1).setColour p .black).trial.card < s.trial.card := by
          rw [trial_setColour_erase rfl, trial_addCount]
          exact Finset.card_erase_lt_of_mem ((h.mem_trial_iff hs).2 hp)
        exact ⟨hcard.le, fun _ => hcard⟩
    · next hp =>
      have hp := not_not.1 hp
      have hpop := h.popBlack fun x hx => Option.some.inj hx ▸ hp
      exact ⟨_, _, rfl, hpop.giveBack hp, (SameSets.refl s).addCount, fun x => .inr addCount_colour,
        by rw [trial_addCount], fun hne => absurd rfl hne⟩

/-- The clearing goes on from the state `s`. -/
structure Cleared (s₀ : Refcount) (R : List Nat) (w : List (Option Nat)) (s t : Refcount)
    (c : List (Option Nat)) : Prop where
  scanning : Scanning s₀ R t c c w
  sets : SameSets s t
  colour : ∀ x, (t.obj x).colour = .black ∨ (t.obj x).colour = (s.obj x).colour

/-- `mcxx_scanblack` clears the object and all that it leads to. -/
theorem scanblack_spec (h : Scanning s₀ R s [] [] w) (hs : Ready s₀) (hp : (s.obj p).colour ≠ .black)
    (hsuspect : s₀.Suspect p) (hheld : s₀.Held p) :
    ∃ s', s.scanblack p = some s' ∧ Cleared s₀ R w s s' [] ∧ (s'.obj p).colour = .black := by
  have hstart : Scanning s₀ R s [] [some p] w :=
    { h with
      blacks := fun y x hy hb hyx => (h.blacks y x hy hb hyx).imp_right fun hx => by cases hx
      hold := fun x hx => by
        rw [Option.some.inj (List.mem_singleton.1 hx)]
        exact ⟨hsuspect, hheld⟩ }
  have haux : ∀ t a c, Cleared s₀ R w (s.setColour p .black) t (a :: c) → ∃ t' next,
      scanblackAux t a = some (t', next) ∧ Cleared s₀ R w (s.setColour p .black) t' (next ++ c) ∧
      t'.trial.card ≤ t.trial.card ∧ (next ≠ [] → t'.trial.card < t.trial.card) := by
    intro t a c ht
    obtain ⟨t', next, ht', hscan, hsets, hcolour, hcard⟩ := ht.scanning.aux hs
    refine ⟨t', next, ht', ⟨hscan, ht.sets.trans hsets, fun x => ?_⟩, hcard⟩
    rcases hcolour x with hb | hsame
    · exact .inl hb
    · rw [hsame]
      exact ht.colour x
  have hcard : (s.setColour p .black).trial.card < s.size + 1 := by
    have := (Finset.card_filter_le (Finset.range (s.setColour p .black).size) fun x =>
      ((s.setColour p .black).obj x).colour.onTrial).trans (Finset.card_range _).le
    rw [setColour_size] at this
    exact Nat.lt_succ_of_le this
  obtain ⟨s', hs', hcleared, -⟩ := @foldlM_depthFirst_spec _ _ _ _ (fun t : Refcount => t.trial.card)
    haux (s.size + 1) (s.obj p).fields (s.setColour p .black) [] hcard
    ⟨hstart.blacken hs hp, SameSets.refl _, fun _ => .inr rfl⟩
  refine ⟨s', hs', ⟨hcleared.scanning, (SameSets.refl s).setColour.trans hcleared.sets, fun x => ?_⟩, ?_⟩
  · rcases hcleared.colour x with hb | hsame
    · exact .inl hb
    · rw [hsame, setColour_colour]
      split
      · exact .inl rfl
      · exact .inr rfl
  · rcases hcleared.colour p with hb | hsame
    · exact hb
    · rw [hsame, setColour_colour, if_pos rfl]

theorem Scanning.pop {a : Option Nat} (h : Scanning s₀ R s c b (a :: w))
    (ha : ∀ x, a = some x → (s.obj x).colour ≠ .gray) : Scanning s₀ R s c b w :=
  { h with
    whites := fun y x hy hyx => by
      rcases h.whites y x hy hyx with hx | hx
      · exact .inl hx
      · rcases List.mem_cons.1 hx with heq | hx
        · exact .inl (ha x heq.symm)
        · exact .inr hx
    roots := fun r hr hg => by
      rcases List.mem_cons.1 (h.roots r hr hg) with heq | hw
      · exact absurd hg (ha r heq.symm)
      · exact hw
    todo := fun x hx => h.todo x (List.mem_cons_of_mem _ hx) }

/-- A gray object without a count is white, and its fields are to be scanned. -/
theorem Scanning.whiten (h : Scanning s₀ R s [] [] (some p :: w)) (hp : (s.obj p).colour = .gray)
    (hcount : (s.obj p).count ≤ 0) :
    Scanning s₀ R (s.setColour p .white) [] [] ((s.obj p).fields ++ w) := by
  have hsuspect := h.todo p List.mem_cons_self
  have htrial : (s.setColour p .white).trial = s.trial := by
    ext x
    rw [mem_trial, mem_trial, setColour_size, setColour_colour]
    split
    · next heq =>
      rw [heq, hp]
      rfl
    · rfl
  refine ⟨h.graph.setColour, fun x => ?_, fun x hx => ?_, fun x => ?_, fun x hx => ?_, fun y x hy hyx => ?_,
    fun y x hy hb hyx => ?_, fun y hy hb => ?_, h.hold, fun r hr hg => ?_, fun x hx => ?_⟩
  · rw [setColour_count, htrial]
    exact h.count x
  · rw [setColour_colour]
    split
    · next heq => exact absurd (heq ▸ hsuspect) hx
    · exact h.cleared x hx
  · rw [setColour_colour]
    split
    · exact fun hno => by cases hno
    · exact h.plain x
  · rw [setColour_count]
    rcases eq_or_ne x p with rfl | hne
    · exact hcount
    · rw [setColour_colour, if_neg hne] at hx
      exact h.white x hx
  · rw [setColour_colour] at hy ⊢
    rcases eq_or_ne x p with rfl | hx
    · rw [if_pos rfl]
      exact .inl fun hno => by cases hno
    rw [if_neg hx]
    rcases eq_or_ne y p with rfl | hyp
    · exact .inr (List.mem_append_left _ (by rw [h.graph.fields]; exact hyx))
    · rw [if_neg hyp] at hy
      refine (h.whites y x hy hyx).imp_right fun hmem => List.mem_append_right _ ?_
      exact (List.mem_cons.1 hmem).resolve_left fun heq => hx (Option.some.inj heq)
  · rw [setColour_colour] at hb
    split at hb
    · cases hb
    · rcases h.blacks y x hy hb hyx with hx | hx
      · refine .inl ?_
        rw [setColour_colour, if_neg (by rintro rfl; rw [hp] at hx; cases hx)]
        exact hx
      · cases hx
  · rw [setColour_colour] at hb
    split at hb
    · cases hb
    · exact h.held y hy hb
  · rw [setColour_colour] at hg
    split at hg
    · cases hg
    · next hne =>
      refine List.mem_append_right _ ((List.mem_cons.1 (h.roots r hr hg)).resolve_left fun heq => ?_)
      exact hne (Option.some.inj heq)
  · rcases List.mem_append.1 hx with hx | hx
    · rw [h.graph.fields] at hx
      exact hsuspect.tail hx
    · exact h.todo x (List.mem_cons_of_mem _ hx)

/-- A gray object that has a count is held: none of the cleared suspects points to it. -/
theorem Scanning.held_of_gray (h : Scanning s₀ R s [] [] w) (hs : Ready s₀) (hsuspect : s₀.Suspect p)
    (hp : (s.obj p).colour = .gray) (hcount : 0 < (s.obj p).count) : s₀.Held p := by
  have hinto : s₀.into s.trial p = s₀.into s₀.suspects p := by
    refine Finset.sum_subset (h.trial_subset hs) fun y hy hyt => ?_
    have hblack : (s.obj y).colour = .black := not_not.1 fun hb => hyt ((h.mem_trial_iff hs).2 hb)
    by_contra hne
    rcases h.blacks y p ((mem_suspects hs).1 hy) hblack (points_iff.2 (Nat.pos_of_ne_zero hne)) with hb | hb
    · rw [hp] at hb
      cases hb
    · cases hb
  have hbalance := h.count p
  rw [hinto] at hbalance
  refine ⟨p, hsuspect, ?_, .refl⟩
  simp only [List.count_nil] at hbalance
  omega

/-- The gray objects. -/
def grays (s : Refcount) : Finset Nat := (Finset.range s.size).filter fun x => (s.obj x).colour = .gray

theorem card_grays_le {t : Refcount} (hsize : t.size = s.size)
    (hgray : ∀ x, (t.obj x).colour = .gray → (s.obj x).colour = .gray) : t.grays.card ≤ s.grays.card := by
  refine Finset.card_le_card fun x hx => ?_
  rw [grays, Finset.mem_filter] at hx ⊢
  rw [hsize] at hx
  exact ⟨hx.1, hgray x hx.2⟩

/-- A call of `mcxx_scan`. -/
theorem Scanning.call {a : Option Nat} (h : Scanning s₀ R s [] [] (a :: w)) (hs : Ready s₀) :
    ∃ s' next, s.scanCall a = some (s', next) ∧ Scanning s₀ R s' [] [] (next ++ w) ∧ SameSets s s' ∧
      s'.grays.card ≤ s.grays.card ∧ (next ≠ [] → s'.grays.card < s.grays.card) := by
  cases a with
  | none =>
    exact ⟨s, [], rfl, h.pop fun x hx => (by cases hx), SameSets.refl s, le_refl _,
      fun hne => absurd rfl hne⟩
  | some p =>
    have hsuspect := h.todo p List.mem_cons_self
    rw [scanCall, if_pos (h.graph.allocated ▸ hs.suspect p hsuspect)]
    split
    · next hp =>
      split
      · next hcount =>
        obtain ⟨s', hs', hcleared, hblack⟩ := scanblack_spec h hs (by rw [hp]; exact fun hno => by cases hno)
          hsuspect (h.held_of_gray hs hsuspect hp hcount)
        refine ⟨s', [], by rw [hs', Option.map_some], hcleared.scanning.pop fun x hx => ?_, hcleared.sets,
          card_grays_le (hcleared.scanning.graph.size.trans h.graph.size.symm) fun x hx => ?_,
          fun hne => absurd rfl hne⟩
        · cases hx
          rw [hblack]
          exact fun hno => by cases hno
        · rcases hcleared.colour x with hb | hsame
          · rw [hb] at hx
            cases hx
          · exact hsame ▸ hx
      · next hcount =>
        have hcard : (s.setColour p .white).grays.card < s.grays.card := by
          refine Finset.card_lt_card (Finset.ssubset_iff_of_subset (fun x hx => ?_) |>.2 ⟨p, ?_, ?_⟩)
          · rw [grays, Finset.mem_filter, setColour_colour] at hx
            rw [grays, Finset.mem_filter]
            refine ⟨hx.1, ?_⟩
            have hg := hx.2
            split at hg
            · cases hg
            · exact hg
          · rw [grays, Finset.mem_filter, Finset.mem_range]
            exact ⟨h.graph.size ▸ hs.sized p (hs.suspect p hsuspect), hp⟩
          · rw [grays, Finset.mem_filter, setColour_colour, if_pos rfl]
            exact fun hno => by cases hno.2
        exact ⟨_, _, rfl, h.whiten hp (Int.not_lt.1 hcount), (SameSets.refl s).setColour, hcard.le,
          fun _ => hcard⟩
    · next hp =>
      exact ⟨s, [], rfl, h.pop fun x hx => Option.some.inj hx ▸ hp, SameSets.refl s, le_refl _,
        fun hne => absurd rfl hne⟩

/-- The state after `mcxx_markroots` is one to scan. -/
theorem RootsMarked.scanning {kept : List Nat} (h : RootsMarked s₀ kept [] s) (hs : Ready s₀) :
    Scanning s₀ kept s [] [] (kept.map some) := by
  have hmarked : ∀ x, s₀.Suspect x → (s.obj x).colour = .gray := by
    rintro x ⟨r, hr, hrx⟩
    induction hrx with
    | refl =>
      rcases h.marked r (hs.purple r hr) with hmem | hg | hb
      · cases hmem
      · exact hg
      · rw [hr] at hb
        cases hb
    | tail _ hyz ih =>
      rcases h.marking.closed _ _ ih hyz with hg | hmem
      · exact hg
      · cases hmem
  have hcolour : ∀ x, (s.obj x).colour = .gray ∨ (s.obj x).colour = .black := by
    intro x
    rcases h.marking.colour x with hg | hsame
    · exact .inl hg
    · rcases hs.plain x with hb | hb
      · exact .inr (hsame.trans hb)
      · exact .inl (hmarked x ⟨x, hb, .refl⟩)
  have hblack : ∀ x, s₀.Suspect x → (s.obj x).colour ≠ .black := fun x hx hb => by
    rw [hmarked x hx] at hb
    cases hb
  have hwhite : ∀ x, (s.obj x).colour ≠ .white := fun x hx => by
    rcases hcolour x with hb | hb
    all_goals
      rw [hb] at hx
      cases hx
  refine ⟨h.marking.graph, fun x => ?_, fun x hx => ?_, fun x hx => ?_, fun x hx => absurd hx (hwhite x),
    fun y x hy => absurd hy (hwhite y), fun y x hy hb => absurd hb (hblack y hy),
    fun y hy hb => absurd hb (hblack y hy), fun x hx => (by cases hx),
    fun r hr _ => List.mem_map_of_mem hr, fun x hx => ?_⟩
  · rw [h.marking.count]
    simp
  · exact (hcolour x).resolve_left fun hg => hx (h.suspect (h.marking.origin x hg))
  · rcases hcolour x with hb | hb
    all_goals
      rw [hb] at hx
      cases hx
  · obtain ⟨k, hk, hkx⟩ := List.mem_map.1 hx
    cases hkx
    exact h.suspect ⟨x, hk, .refl⟩

/-- What `mcxx_scanroots` leaves: the held suspects are black again, the others are white, and the references
of the white ones are off the counts. -/
structure Scanned (s₀ : Refcount) (s t : Refcount) : Prop where
  graph : SameGraph s₀ t
  sets : SameSets s t
  black : ∀ x, ¬ (s₀.Suspect x ∧ ¬ s₀.Held x) → (t.obj x).colour = .black
  white : ∀ x, s₀.Suspect x → ¬ s₀.Held x → (t.obj x).colour = .white
  count : ∀ x, (t.obj x).count = (s₀.obj x).count - s₀.into t.trial x

theorem Scanning.scanned (h : Scanning s₀ R s [] [] []) (hs : Ready s₀) (hR : ∀ r ∈ R, s₀.Suspect r)
    (hled : ∀ x, s₀.Suspect x → Led s₀ R x) {t : Refcount} (hsets : SameSets t s) : Scanned s₀ t s := by
  have hgray : ∀ x, s₀.Suspect x → (s.obj x).colour ≠ .gray := by
    intro x hx
    obtain ⟨r, hr, hrx⟩ := hled x hx
    have hpath : s₀.Suspect x ∧ (s.obj x).colour ≠ .gray := by
      clear hx
      induction hrx with
      | refl => exact ⟨hR r hr, fun hg => by cases h.roots r hr hg⟩
      | @tail y z _ hyz ih =>
        refine ⟨ih.1.tail hyz, ?_⟩
        cases hy : (s.obj y).colour with
        | gray => exact absurd hy ih.2
        | purple => exact absurd hy (h.plain y)
        | white => exact (h.whites y z hy hyz).resolve_right fun hmem => by cases hmem
        | black =>
          rw [(h.blacks y z ih.1 hy hyz).resolve_right fun hmem => by cases hmem]
          exact fun hno => by cases hno
    exact hpath.2
  have hheld : ∀ x, s₀.Suspect x → s₀.Held x → (s.obj x).colour = .black := by
    rintro x - ⟨z, hz, hlt, hzx⟩
    have hpath : s₀.Suspect x ∧ (s.obj x).colour = .black := by
      induction hzx with
      | refl =>
        refine ⟨hz, ?_⟩
        cases hc : (s.obj z).colour with
        | black => rfl
        | purple => exact absurd hc (h.plain z)
        | gray => exact absurd hc (hgray z hz)
        | white =>
          -- A white object has no count, but this one has references from elsewhere.
          have hcount := h.white z hc
          have hle := into_mono (s := s₀) (x := z) (h.trial_subset hs)
          rw [h.count, List.count_nil] at hcount
          omega
      | @tail y z' _ hyz ih =>
        exact ⟨ih.1.tail hyz, (h.blacks y z' ih.1 ih.2 hyz).resolve_right fun hmem => by cases hmem⟩
    exact hpath.2
  refine ⟨h.graph, hsets, fun x hx => ?_, fun x hx hno => ?_, fun x => ?_⟩
  · by_cases hsuspect : s₀.Suspect x
    · exact hheld x hsuspect (not_not.1 fun hno => hx ⟨hsuspect, hno⟩)
    · exact h.cleared x hsuspect
  · cases hc : (s.obj x).colour with
    | white => rfl
    | purple => exact absurd hc (h.plain x)
    | gray => exact absurd hc (hgray x hx)
    | black => exact absurd (h.held x hx hc) hno
  · rw [h.count, List.count_nil]
    simp

/-- `mcxx_scanroots` clears the held suspects. -/
theorem scanroots_spec {kept : List Nat} (h : RootsMarked s₀ kept [] s) (hs : Ready s₀) :
    ∃ t, s.scanroots = some t ∧ Scanned s₀ s t := by
  have hled : ∀ x, s₀.Suspect x → Led s₀ kept x := by
    rintro x ⟨r, hr, hrx⟩
    have hr' : Led s₀ kept r := by
      rcases h.marked r (hs.purple r hr) with hmem | hg | hb
      · cases hmem
      · exact h.marking.origin r hg
      · rw [hr] at hb
        cases hb
    obtain ⟨k, hk, hkr⟩ := hr'
    exact ⟨k, hk, hkr.trans hrx⟩
  have hsize : s.size = s₀.size := h.marking.graph.size
  obtain ⟨t, ht, hscan, hsets, -⟩ := @foldlM_spec Refcount Nat Refcount.scan
    (fun t rest => Scanning s₀ kept t [] [] (rest.map some) ∧ SameSets s t ∧ t.size = s₀.size)
    (fun t p rest ht => by
      obtain ⟨hscan, hsets, hsize⟩ := ht
      have hcard : t.grays.card < t.size + 1 := by
        have := (Finset.card_filter_le (Finset.range t.size) fun x => (t.obj x).colour = .gray).trans
          (Finset.card_range _).le
        exact Nat.lt_succ_of_le this
      obtain ⟨t', ht', hI, -⟩ := @depthFirst_spec Refcount (Option Nat) scanCall
        (fun t w => Scanning s₀ kept t [] [] w ∧ SameSets s t) (fun t => t.grays.card)
        (fun t a w ht => by
          obtain ⟨t', next, ht', hscan, hsets, hcard⟩ := ht.1.call hs
          exact ⟨t', next, ht', ⟨hscan, ht.2.trans hsets⟩, hcard⟩)
        (t.size + 1) t (some p) (rest.map some) hcard ⟨hscan, hsets⟩
      exact ⟨t', ht', hI.1, hI.2, hI.1.graph.size⟩)
    s.roots [] s ⟨by rw [List.append_nil, h.roots, List.append_nil]; exact h.scanning hs, SameSets.refl s,
      hsize⟩
  exact ⟨t, ht, hscan.scanned hs (fun r hr => h.suspect ⟨r, hr, .refl⟩) hled hsets⟩

end

end Refcount

end OmpSs.Mcxx
