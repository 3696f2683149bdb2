import OmpSs.Mcxx.RefcountObjects
import Mathlib.Algebra.Order.Ring.Int
import Mathlib.Tactic.Linarith

/-!
# The marking phase

While `mcxx_markroots` runs, the count of an object is its count at the start without the references from
the objects that are gray, and with those still to be taken off (`Marking`). In the end the gray objects are
those that a possible root leads to (`Suspect`), and the roots that are no possible roots any more are
out of the buffer (`RootsMarked`).
-/

namespace OmpSs.Mcxx

open Lib Relation

namespace Refcount

section
variable {s s' s₀ : Refcount} {P : Nat → Prop} {p x : Nat} {c w : List (Option Nat)}

/-- Objects are marked gray: all of them have the property `P`, their references are off the counts, except
for those in `c`, and their fields point to gray objects, except for those in `w`. -/
structure Marking (s₀ : Refcount) (P : Nat → Prop) (s : Refcount) (c w : List (Option Nat)) : Prop where
  graph : SameGraph s₀ s
  count : ∀ x, (s.obj x).count = (s₀.obj x).count - s₀.into s.trial x + c.count (some x)
  colour : ∀ x, (s.obj x).colour = .gray ∨ (s.obj x).colour = (s₀.obj x).colour
  closed : ∀ y x, (s.obj y).colour = .gray → s₀.Points y x → (s.obj x).colour = .gray ∨ some x ∈ w
  origin : ∀ x, (s.obj x).colour = .gray → P x
  todo : ∀ x, some x ∈ w → P x

theorem Marking.weaken (h : Marking s₀ P s c w) {w' : List (Option Nat)} (hw : ∀ a ∈ w, a ∈ w')
    (hP : ∀ x, some x ∈ w' → P x) : Marking s₀ P s c w' :=
  { h with
    closed := fun y x hy hyx => (h.closed y x hy hyx).imp_right (hw _)
    todo := hP }

variable (plain : ∀ x, (s₀.obj x).colour = .black ∨ (s₀.obj x).colour = .purple)

include plain in
/-- An object that is not marked yet is not on trial. -/
theorem Marking.not_mem_trial (h : Marking s₀ P s c w) (hgray : (s.obj p).colour ≠ .gray) :
    p ∉ s.trial := by
  have hplain : (s.obj p).colour.onTrial = false := by
    rcases (h.colour p).resolve_left hgray ▸ plain p with hb | hb <;> rw [hb] <;> rfl
  intro hmem
  rw [mem_trial, hplain] at hmem
  exact Bool.false_ne_true hmem.2

variable (sized : ∀ x, P x → s₀.allocated x = true ∧ x < s₀.size) (hP : ∀ x y, P x → s₀.Points x y → P y)
include plain sized hP

/-- A call of `mcxx_markgray` marks its object, and leaves the fields to do. -/
theorem Marking.call (h : Marking s₀ P s w (some p :: w)) :
    Marking s₀ P (s.markgrayCall p).1 ((s.markgrayCall p).2 ++ w) ((s.markgrayCall p).2 ++ w) ∧
      ((s.markgrayCall p).1.obj p).colour = .gray := by
  have hp := h.todo p List.mem_cons_self
  rw [markgrayCall]
  split
  · next hgray =>
    have hnot := h.not_mem_trial plain hgray
    refine ⟨⟨h.graph.setColour, fun x => ?_, fun x => ?_, fun y x hy hyx => ?_, fun x hx => ?_,
      fun x hx => ?_⟩, by simp⟩
    · rw [setColour_count, h.count, trial_setColour_insert (h.graph.size ▸ (sized p hp).2) rfl,
        into_insert hnot, List.count_append, h.graph.fields, edges]
      dsimp only
      omega
    · rw [setColour_colour]
      split
      · exact .inl rfl
      · exact h.colour x
    · rw [setColour_colour] at hy ⊢
      rcases eq_or_ne x p with rfl | hx
      · exact .inl (if_pos rfl)
      rw [if_neg hx]
      rcases eq_or_ne y p with rfl | hyp
      · exact .inr (List.mem_append_left _ (by rw [h.graph.fields]; exact hyx))
      · rw [if_neg hyp] at hy
        refine (h.closed y x hy hyx).imp_right fun hmem => List.mem_append_right _ ?_
        exact (List.mem_cons.1 hmem).resolve_left fun heq => hx (Option.some.inj heq)
    · rw [setColour_colour] at hx
      split at hx
      · next heq => exact heq ▸ hp
      · exact h.origin x hx
    · rcases List.mem_append.1 hx with hx | hx
      · rw [h.graph.fields] at hx
        exact hP p x hp hx
      · exact h.todo x (List.mem_cons_of_mem _ hx)
  · next hgray =>
    have hgray := not_not.1 hgray
    refine ⟨{ h with
      closed := fun y x hy hyx => ?_
      todo := fun x hx => h.todo x (List.mem_cons_of_mem _ hx) }, hgray⟩
    rcases h.closed y x hy hyx with hx | hx
    · exact .inl hx
    · rcases List.mem_cons.1 hx with heq | hx
      · exact .inl (Option.some.inj heq ▸ hgray)
      · exact .inr hx

/-- A call of `mcxx_markgray_aux` takes one reference off the count of its object. -/
theorem Marking.aux {a : Option Nat} (h : Marking s₀ P s (a :: w) (a :: w)) :
    ∃ s' next, s.markgrayAux a = some (s', next) ∧ Marking s₀ P s' (next ++ w) (next ++ w) ∧
      SameSets s s' ∧ (∀ x, (s.obj x).colour = .gray → (s'.obj x).colour = .gray) ∧
      s.trial.card ≤ s'.trial.card ∧ (next ≠ [] → s.trial.card < s'.trial.card) := by
  cases a with
  | none =>
    refine ⟨s, [], rfl, { h with count := fun x => ?_, closed := fun y x hy hyx => ?_, todo := fun x hx => ?_ },
      SameSets.refl s, fun _ hx => hx, le_refl _, fun hne => absurd rfl hne⟩
    · simpa using h.count x
    · simpa using h.closed y x hy hyx
    · exact h.todo x (List.mem_cons_of_mem _ hx)
  | some p =>
    have hp := h.todo p List.mem_cons_self
    have hcount : Marking s₀ P (s.addCount p (-1)) w (some p :: w) :=
      { graph := h.graph.addCount
        count := fun x => by
          rw [addCount_count, h.count, trial_addCount, List.count_cons]
          rcases eq_or_ne x p with rfl | hx
          · simp
            omega
          · simp [hx, hx.symm]
        colour := fun x => by rw [addCount_colour]; exact h.colour x
        closed := fun y x hy hyx => by
          rw [addCount_colour] at hy ⊢
          exact h.closed y x hy hyx
        origin := fun x hx => h.origin x (by rwa [addCount_colour] at hx)
        todo := h.todo }
    obtain ⟨hcall, -⟩ := hcount.call plain sized hP
    refine ⟨_, _, by rw [markgrayAux, if_pos (h.graph.allocated ▸ (sized p hp).1)], hcall, ?_, ?_, ?_⟩
    all_goals rw [markgrayCall]
    · split
      · exact (SameSets.refl s).addCount.setColour
      · exact (SameSets.refl s).addCount
    · intro x hx
      split
      · rw [setColour_colour]
        split
        · rfl
        · rwa [addCount_colour]
      · rwa [addCount_colour]
    · split
      · next hgray =>
        rw [addCount_colour] at hgray
        have hnot := h.not_mem_trial plain hgray
        have hcard : ((s.addCount p (-1)).setColour p .gray).trial.card = s.trial.card + 1 := by
          rw [trial_setColour_insert (h.graph.size ▸ (sized p hp).2) rfl, trial_addCount,
            Finset.card_insert_of_notMem hnot]
        exact ⟨by simp only; omega, fun _ => by simp only; omega⟩
      · exact ⟨by rw [trial_addCount], fun hne => absurd rfl hne⟩

/-- The marking goes on from the state `s`. -/
structure Marked (s₀ : Refcount) (P : Nat → Prop) (s t : Refcount) (w : List (Option Nat)) : Prop where
  marking : Marking s₀ P t w w
  sets : SameSets s t
  mono : ∀ x, (s.obj x).colour = .gray → (t.obj x).colour = .gray

/-- `mcxx_markgray` marks the object and all that it leads to. -/
theorem markgray_spec (h : Marking s₀ P s [] []) (hp : P p) :
    ∃ s', s.markgray p = some s' ∧ Marked s₀ P s s' [] ∧ (s'.obj p).colour = .gray := by
  obtain ⟨hcall, hgray⟩ := (h.weaken (fun a ha => by cases ha) (fun x hx => by
    rw [Option.some.inj (List.mem_singleton.1 hx)]
    exact hp)).call plain sized hP (p := p)
  rw [List.append_nil] at hcall
  have hsets : SameSets s (s.markgrayCall p).1 ∧
      ∀ x, (s.obj x).colour = .gray → ((s.markgrayCall p).1.obj x).colour = .gray := by
    rw [markgrayCall]
    split
    · refine ⟨(SameSets.refl s).setColour, fun x hx => ?_⟩
      rw [setColour_colour]
      split
      · rfl
      · exact hx
    · exact ⟨SameSets.refl s, fun _ hx => hx⟩
  -- The measure: the objects that are not on trial.
  have haux : ∀ t a w, Marked s₀ P (s.markgrayCall p).1 t (a :: w) → ∃ t' next,
      markgrayAux t a = some (t', next) ∧ Marked s₀ P (s.markgrayCall p).1 t' (next ++ w) ∧
      t'.size - t'.trial.card ≤ t.size - t.trial.card ∧
      (next ≠ [] → t'.size - t'.trial.card < t.size - t.trial.card) := by
    intro t a w ht
    obtain ⟨t', next, ht', hmark, hsets', hmono, hle, hlt⟩ := ht.marking.aux plain sized hP
    have hsize : t'.size = t.size := hmark.graph.size.trans ht.marking.graph.size.symm
    have hcard : t'.trial.card ≤ t'.size := (Finset.card_filter_le _ _).trans (Finset.card_range _).le
    refine ⟨t', next, ht', ⟨hmark, ht.sets.trans hsets', fun x hx => hmono x (ht.mono x hx)⟩, by omega,
      fun hne => ?_⟩
    have := hlt hne
    omega
  have hsize : (s.markgrayCall p).1.size = s.size := hcall.graph.size.trans h.graph.size.symm
  obtain ⟨s', hs', hmarked, -⟩ := @foldlM_depthFirst_spec _ _ _ _ (fun t : Refcount => t.size - t.trial.card)
    haux (s.size + 1) (s.markgrayCall p).2 (s.markgrayCall p).1 [] (by omega)
    ⟨by rwa [List.append_nil], SameSets.refl _, fun _ hx => hx⟩
  exact ⟨s', hs', ⟨hmarked.marking, hsets.1.trans hmarked.sets, fun x hx => hmarked.mono x (hsets.2 x hx)⟩,
    hmarked.mono p hgray⟩

end

/-- A possible root leads to the object. -/
def Suspect (s : Refcount) (x : Nat) : Prop := ∃ r, (s.obj r).colour = .purple ∧ ReflTransGen s.Points r x

/-- What a collection starts from: black and purple objects, the latter in the buffer of roots; and what it
walks over is allocated, and not already released. -/
structure Ready (s : Refcount) : Prop where
  plain : ∀ x, (s.obj x).colour = .black ∨ (s.obj x).colour = .purple
  sized : ∀ x, s.allocated x = true → x < s.size
  nodup : s.roots.Nodup
  roots : ∀ x ∈ s.roots, s.allocated x = true
  buffered : ∀ x, (s.obj x).buffered = true ↔ x ∈ s.roots
  purple : ∀ x, (s.obj x).colour = .purple → x ∈ s.roots
  freeSet : s.freeSet = []
  suspect : ∀ x, s.Suspect x → s.allocated x = true
  dead : ∀ x, (s.obj x).colour = .black → (s.obj x).count = 0 → x ∈ s.roots → ¬ s.Suspect x

section
variable {s s' s₀ : Refcount} {P : Nat → Prop} {p x y : Nat} {kept rest : List Nat}

theorem Suspect.tail (h : s.Suspect x) (hxy : s.Points x y) : s.Suspect y := by
  obtain ⟨r, hr, hrx⟩ := h
  exact ⟨r, hr, hrx.tail hxy⟩

theorem Marking.congr {c w : List (Option Nat)} (h : Marking s₀ P s c w) (hgraph : SameGraph s s')
    (hcount : ∀ x, (s'.obj x).count = (s.obj x).count)
    (hcolour : ∀ x, (s'.obj x).colour = (s.obj x).colour) : Marking s₀ P s' c w := by
  have htrial : s'.trial = s.trial := by
    ext x
    rw [mem_trial, mem_trial, hgraph.size, hcolour]
  refine ⟨⟨hgraph.size.trans h.graph.size, hgraph.allocated.trans h.graph.allocated,
    fun x => (hgraph.fields x).trans (h.graph.fields x)⟩, fun x => ?_, fun x => ?_, fun y x hy hyx => ?_,
    fun x hx => ?_, h.todo⟩
  · rw [hcount, htrial, h.count]
  · rw [hcolour]
    exact h.colour x
  · rw [hcolour] at hy ⊢
    exact h.closed y x hy hyx
  · exact h.origin x (by rwa [hcolour] at hx)

theorem Marking.mono {Q : Nat → Prop} {c w : List (Option Nat)} (h : Marking s₀ P s c w)
    (hPQ : ∀ x, P x → Q x) : Marking s₀ Q s c w :=
  { h with
    origin := fun x hx => hPQ x (h.origin x hx)
    todo := fun x hx => hPQ x (h.todo x hx) }

/-- In the marking phase the objects on trial are the gray ones. -/
theorem Marking.gray_of_mem_trial {c w : List (Option Nat)} (h : Marking s₀ P s c w)
    (plain : ∀ x, (s₀.obj x).colour = .black ∨ (s₀.obj x).colour = .purple) (hx : x ∈ s.trial) :
    (s.obj x).colour = .gray := by
  have htrial := (mem_trial.1 hx).2
  rcases h.colour x with hgray | hsame
  · exact hgray
  · rcases plain x with hb | hb
    all_goals
      rw [hsame, hb] at htrial
      cases htrial

/-- An object that is not marked has its count. -/
theorem Marking.count_eq (h : Marking s₀ P s [] [])
    (plain : ∀ x, (s₀.obj x).colour = .black ∨ (s₀.obj x).colour = .purple)
    (hx : (s.obj x).colour ≠ .gray) : (s.obj x).count = (s₀.obj x).count := by
  have hzero : s₀.into s.trial x = 0 := by
    by_contra hne
    obtain ⟨y, hy, hyx⟩ := into_pos_iff.1 (Nat.pos_of_ne_zero hne)
    rcases h.closed y x (h.gray_of_mem_trial plain hy) hyx with hgray | hmem
    · exact hx hgray
    · cases hmem
  rw [h.count, hzero]
  simp

/-- One of the objects `kept` leads to `x`. -/
def Led (s₀ : Refcount) (kept : List Nat) (x : Nat) : Prop := ∃ k ∈ kept, ReflTransGen s₀.Points k x

/-- The loop of `mcxx_markroots`: the roots `kept` were purple and are marked with all that they lead to,
the roots `rest` are to come, and of the others the released ones are in the free set. -/
structure RootsMarked (s₀ : Refcount) (kept rest : List Nat) (s : Refcount) : Prop where
  marking : Marking s₀ (Led s₀ kept) s [] []
  roots : s.roots = kept ++ rest
  nodup : (kept ++ rest).Nodup
  mem : ∀ x ∈ rest, x ∈ s₀.roots
  purple : ∀ k ∈ kept, (s₀.obj k).colour = .purple
  gray : ∀ k ∈ kept, (s.obj k).colour = .gray
  marked : ∀ r ∈ s₀.roots, r ∈ rest ∨ (s.obj r).colour = .gray ∨ (s₀.obj r).colour = .black
  buffered : ∀ x, (s.obj x).buffered = true ↔ x ∈ kept ++ rest
  free_nodup : s.freeSet.Nodup
  free : ∀ x, x ∈ s.freeSet ↔
    x ∈ s₀.roots ∧ x ∉ rest ∧ (s₀.obj x).colour = .black ∧ (s₀.obj x).count = 0

theorem RootsMarked.suspect (h : RootsMarked s₀ kept rest s) (hx : Led s₀ kept x) : s₀.Suspect x := by
  obtain ⟨k, hk, hkx⟩ := hx
  exact ⟨k, h.purple k hk, hkx⟩

variable (hs : Ready s₀)
include hs

theorem RootsMarked.markRoot (h : RootsMarked s₀ kept (p :: rest) s) :
    ∃ s' kept', s.markRoot p = some s' ∧ RootsMarked s₀ kept' rest s' := by
  have hp := h.mem p List.mem_cons_self
  have halloc := hs.roots p hp
  obtain ⟨hkept, hprest, hcross⟩ := List.nodup_append.1 h.nodup
  have hpk : p ∉ kept := fun hk => hcross p hk p List.mem_cons_self rfl
  have hpr : p ∉ rest := (List.nodup_cons.1 hprest).1
  rw [Refcount.markRoot, if_pos (h.marking.graph.allocated ▸ halloc)]
  split
  · next hpurple =>
    have hpurple₀ : (s₀.obj p).colour = .purple := by
      rcases h.marking.colour p with hgray | hsame
      · rw [hgray] at hpurple
        cases hpurple
      · exact hsame ▸ hpurple
    have hsuspect : ∀ x, Led s₀ (kept ++ [p]) x → s₀.Suspect x := by
      rintro x ⟨k, hk, hkx⟩
      rcases List.mem_append.1 hk with hk | hk
      · exact h.suspect ⟨k, hk, hkx⟩
      · exact ⟨p, hpurple₀, List.mem_singleton.1 hk ▸ hkx⟩
    obtain ⟨s', hs', hmarked, hgray⟩ := markgray_spec hs.plain
      (fun x hx => ⟨hs.suspect x (hsuspect x hx), hs.sized x (hs.suspect x (hsuspect x hx))⟩)
      (fun x y hx hxy => by
        obtain ⟨k, hk, hkx⟩ := hx
        exact ⟨k, hk, hkx.tail hxy⟩)
      (h.marking.mono fun x hx => by
        obtain ⟨k, hk, hkx⟩ := hx
        exact ⟨k, List.mem_append_left _ hk, hkx⟩)
      ⟨p, List.mem_append_right _ (List.mem_singleton_self p), .refl⟩
    refine ⟨s', kept ++ [p], hs', hmarked.marking, ?_, ?_, fun x hx => h.mem x (List.mem_cons_of_mem _ hx),
      fun k hk => ?_, fun k hk => ?_, fun r hr => ?_, fun x => ?_, ?_, fun x => ?_⟩
    · rw [hmarked.sets.roots, h.roots, List.append_assoc, List.singleton_append]
    · rw [List.append_assoc, List.singleton_append]
      exact h.nodup
    · rcases List.mem_append.1 hk with hk | hk
      · exact h.purple k hk
      · exact List.mem_singleton.1 hk ▸ hpurple₀
    · rcases List.mem_append.1 hk with hk | hk
      · exact hmarked.mono k (h.gray k hk)
      · exact List.mem_singleton.1 hk ▸ hgray
    · rcases h.marked r hr with hmem | hg | hb
      · rcases List.mem_cons.1 hmem with rfl | hmem
        · exact .inr (.inl hgray)
        · exact .inl hmem
      · exact .inr (.inl (hmarked.mono r hg))
      · exact .inr (.inr hb)
    · rw [hmarked.sets.buffered, h.buffered, List.append_assoc, List.singleton_append]
    · rw [hmarked.sets.freeSet]
      exact h.free_nodup
    · rw [hmarked.sets.freeSet, h.free, List.mem_cons]
      refine ⟨fun ⟨hx, hne, hrest⟩ => ⟨hx, fun hmem => hne (.inr hmem), hrest⟩,
        fun ⟨hx, hne, hblack, hzero⟩ => ⟨hx, fun hmem => ?_, hblack, hzero⟩⟩
      rcases hmem with rfl | hmem
      · rw [hpurple₀] at hblack
        cases hblack
      · exact hne hmem
  · next hpurple =>
    have hgray_or : (s.obj p).colour = .gray ∨ (s.obj p).colour = .black ∧ (s₀.obj p).colour = .black := by
      rcases h.marking.colour p with hgray | hsame
      · exact .inl hgray
      · rcases hs.plain p with hb | hb
        · exact .inr ⟨hsame.trans hb, hb⟩
        · exact absurd (hsame.trans hb) hpurple
    have hdead : (s.obj p).colour = .black ∧ (s.obj p).count = 0 ↔
        (s₀.obj p).colour = .black ∧ (s₀.obj p).count = 0 := by
      constructor
      · rintro ⟨hblack, hzero⟩
        rcases hgray_or with hg | ⟨-, hb⟩
        · rw [hg] at hblack
          cases hblack
        · refine ⟨hb, ?_⟩
          rw [← h.marking.count_eq hs.plain (by rw [hblack]; exact fun hno => by cases hno)]
          exact hzero
      · rintro ⟨hb, hzero⟩
        have hngray : (s.obj p).colour ≠ .gray := fun hg =>
          hs.dead p hb hzero hp (h.suspect (h.marking.origin p hg))
        exact ⟨(hgray_or.resolve_left hngray).1, (h.marking.count_eq hs.plain hngray).trans hzero⟩
    -- The state without the root, with or without it in the free set.
    have hkeep : ∀ t : Refcount, t.obj = (s.setBuffered p false).obj → t.size = s.size →
        t.allocated = s.allocated → t.roots = kept ++ rest → t.freeSet.Nodup →
        (∀ x, x ∈ t.freeSet ↔ x ∈ s.freeSet ∨
          x = p ∧ (s₀.obj p).colour = .black ∧ (s₀.obj p).count = 0) → RootsMarked s₀ kept rest t := by
      intro t hobj hsize hallocated hroots hnodup hfree
      have hcolour : ∀ x, (t.obj x).colour = (s.obj x).colour := fun x => by rw [hobj, setBuffered_colour]
      refine ⟨h.marking.congr ⟨hsize, hallocated, fun x => by rw [hobj, setBuffered_fields]⟩
        (fun x => by rw [hobj, setBuffered_count]) hcolour, hroots, ?_,
        fun x hx => h.mem x (List.mem_cons_of_mem _ hx), h.purple, fun k hk => (hcolour k).trans (h.gray k hk),
        fun r hr => ?_, fun x => ?_, hnodup, fun x => ?_⟩
      · exact List.nodup_append.2 ⟨hkept, (List.nodup_cons.1 hprest).2, fun a ha b hb =>
          hcross a ha b (List.mem_cons_of_mem _ hb)⟩
      · rw [hcolour]
        rcases h.marked r hr with hmem | hrest
        · rcases List.mem_cons.1 hmem with rfl | hmem
          · exact .inr (hgray_or.imp_right And.right)
          · exact .inl hmem
        · exact .inr hrest
      · rw [hobj, setBuffered_buffered]
        split
        · next heq =>
          subst heq
          simp [hpk, hpr]
        · next hne =>
          rw [h.buffered, List.mem_append, List.mem_append, List.mem_cons]
          simp [hne]
      · rw [hfree, h.free, List.mem_cons]
        constructor
        · rintro (⟨hx, hne, hrest⟩ | ⟨rfl, hrest⟩)
          · exact ⟨hx, fun hmem => hne (.inr hmem), hrest⟩
          · exact ⟨hp, hpr, hrest⟩
        · rintro ⟨hx, hne, hrest⟩
          rcases eq_or_ne x p with rfl | hxp
          · exact .inr ⟨rfl, hrest⟩
          · exact .inl ⟨hx, fun hmem => hmem.elim hxp hne, hrest⟩
    have hroots : ((s.setBuffered p false).removeFromRoots p).roots = kept ++ rest := by
      rw [removeFromRoots, setBuffered_roots, h.roots, List.erase_append_right _ hpk, List.erase_cons_head]
    simp only [removeFromRoots_obj, setBuffered_colour, setBuffered_count]
    split
    · next hfree =>
      refine ⟨_, kept, rfl, hkeep _ (by simp) (by simp) (by simp) (by rw [addToFreeSet_roots, hroots])
        (nodup_addToFreeSet h.free_nodup) fun x => ?_⟩
      rw [mem_addToFreeSet]
      simp [hdead.1 hfree]
    · next hfree =>
      refine ⟨_, kept, rfl, hkeep _ rfl rfl rfl hroots h.free_nodup fun x => ?_⟩
      have hno : ¬ ((s₀.obj p).colour = .black ∧ (s₀.obj p).count = 0) := fun hd => hfree (hdead.2 hd)
      simp [hno]

/-- `mcxx_markroots` marks the objects that a possible root leads to; the roots that stay lead to them
all. -/
theorem markroots_spec : ∃ s kept, s₀.markroots = some s ∧ RootsMarked s₀ kept [] s := by
  have hstart : RootsMarked s₀ [] s₀.roots s₀ := by
    have hgray : ∀ x, (s₀.obj x).colour ≠ .gray := fun x hx => by
      rcases hs.plain x with hb | hb
      all_goals
        rw [hb] at hx
        cases hx
    have htrial : s₀.trial = ∅ := by
      refine Finset.eq_empty_of_forall_notMem fun x hx => ?_
      have := (mem_trial.1 hx).2
      rcases hs.plain x with hb | hb
      all_goals
        rw [hb] at this
        cases this
    refine ⟨⟨SameGraph.refl s₀, fun x => ?_, fun x => .inr rfl, fun y x hy => absurd hy (hgray y),
      fun x hx => absurd hx (hgray x), fun x hx => by cases hx⟩, rfl, hs.nodup, fun _ hx => hx,
      fun k hk => (by cases hk), fun k hk => (by cases hk), fun r hr => .inl hr, hs.buffered, ?_, fun x => ?_⟩
    · rw [htrial, into, Finset.sum_empty]
      simp
    · rw [hs.freeSet]
      exact List.nodup_nil
    · rw [hs.freeSet]
      exact ⟨fun hx => (by cases hx), fun hx => absurd hx.1 hx.2.1⟩
  obtain ⟨s, hs', kept, hmarked⟩ := @foldlM_spec Refcount Nat Refcount.markRoot
    (fun t rest => ∃ kept, RootsMarked s₀ kept rest t)
    (fun t p rest ht => by
      obtain ⟨kept, ht⟩ := ht
      obtain ⟨t', kept', ht', hmarked⟩ := ht.markRoot hs
      exact ⟨t', ht', kept', hmarked⟩)
    s₀.roots [] s₀ ⟨[], by rwa [List.append_nil]⟩
  exact ⟨s, kept, hs', hmarked⟩

end

end Refcount

end OmpSs.Mcxx
